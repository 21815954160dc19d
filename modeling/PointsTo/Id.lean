/-!
# Identifiers

Whatever an analysis talks about is numbered, kind by kind, from zero and in order of creation. An
`Id` is such a number together with its kind, so that a variable can never be taken for a field. A
number that nothing carries is an `UnknownId`, the one way in which reading an arena can fail.
-/

namespace PointsTo

/-- The kinds of things that are numbered. -/
inductive Entity where
  | cls
  | method
  | field
  | var
  | callSite
  | allocSite
  | object
  | context
  | csObject
  | pointer
  deriving DecidableEq, Repr

namespace Entity

/-- The word in front of the number when an identifier is shown. -/
def tag : Entity → String
  | cls => "class"
  | method => "method"
  | field => "field"
  | var => "var"
  | callSite => "call"
  | allocSite => "alloc"
  | object => "obj"
  | context => "ctx"
  | csObject => "csobj"
  | pointer => "ptr"

/-- Every kind, in the order in which the kinds are listed. -/
def all : List Entity :=
  [cls, method, field, var, callSite, allocSite, object, context, csObject, pointer]

end Entity

/-- The number of one thing of kind `e`. -/
structure Id (e : Entity) where
  index : Nat
  deriving DecidableEq, Repr

abbrev ClassId := Id .cls
abbrev MethodId := Id .method
abbrev FieldId := Id .field
abbrev VarId := Id .var
abbrev CallSiteId := Id .callSite
abbrev AllocSiteId := Id .allocSite
abbrev ObjectId := Id .object
abbrev ContextId := Id .context
abbrev CsObjectId := Id .csObject
abbrev PointerId := Id .pointer

/-- A number that nothing of its kind carries. -/
structure UnknownId where
  entity : Entity
  index : Nat
  deriving DecidableEq, Repr

namespace Id

variable {e : Entity} {α : Type}

/-- An identifier is shown as its kind and its number, `var#3`. -/
def text (i : Id e) : String := e.tag ++ "#" ++ toString i.index

def le (i j : Id e) : Bool := i.index ≤ j.index

/-- The failure of reading `i`. -/
def unknown (i : Id e) : UnknownId := ⟨e, i.index⟩

/-- What `i` stands for in `arena`. -/
def lookup (i : Id e) (arena : Array α) : Except UnknownId α :=
  match arena[i.index]? with
  | some a => .ok a
  | none => .error i.unknown

/-- Changes what `i` stands for in `arena`. -/
def update (i : Id e) (arena : Array α) (f : α → α) : Except UnknownId (Array α) :=
  if i.index < arena.size then .ok (arena.modify i.index f) else .error i.unknown

/-- The identifiers of an arena of `n` entries, in order. -/
def upTo (e : Entity) (n : Nat) : List (Id e) := (List.range n).map Id.mk

@[simp] theorem index_inj {i j : Id e} : i.index = j.index ↔ i = j := by
  cases i
  cases j
  simp

theorem lookup_eq_ok_iff {i : Id e} {arena : Array α} {a : α} :
    i.lookup arena = .ok a ↔ arena[i.index]? = some a := by
  unfold lookup
  cases arena[i.index]? <;> simp

theorem mem_upTo {i : Id e} {n : Nat} : i ∈ upTo e n ↔ i.index < n := by
  obtain ⟨k⟩ := i
  simp [upTo]

end Id

end PointsTo
