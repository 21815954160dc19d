import PointsTo.Qualified

/-!
# Contexts

A context is a sequence of call sites, receiver objects or allocator classes, of bounded length.
Contexts are interned: equal sequences have equal numbers, and number 0 is the empty sequence.
-/

namespace PointsTo

/-- One step of a context. -/
inductive ContextElem where
  | callSite (site : CallSiteId)
  | object (object : ObjectId)
  | cls (cls : ClassId)
  deriving DecidableEq, Repr

namespace ContextElem

def text : ContextElem → String
  | callSite c => c.text
  | object o => o.text
  | cls c => c.text

def code : ContextElem → Nat
  | callSite c => 3 * c.index
  | object o => 3 * o.index + 1
  | cls c => 3 * c.index + 2

theorem code_inj {a b : ContextElem} (h : a.code = b.code) : a = b := by
  cases a <;> cases b <;> simp only [code] at h <;>
    first
      | omega
      | exact congrArg _ (Id.index_inj.1 (by omega))

instance : Coded (List ContextElem) where
  code es := es.map code
  code_inj h := List.map_inj_right (fun _ _ h ↦ code_inj h) |>.1 h

end ContextElem

/-- The context without elements. -/
def ContextId.empty : ContextId := ⟨0⟩

structure ContextTable where
  sequences : Table (List ContextElem) Unit

namespace ContextTable

/-- The table that holds the empty context only. -/
def start : ContextTable := ⟨((∅ : Table (List ContextElem) Unit).intern [] ()).1⟩

def size (t : ContextTable) : Nat := t.sequences.size

def intern (t : ContextTable) (es : List ContextElem) : ContextTable × ContextId :=
  let (sequences, i) := t.sequences.intern es ()
  (⟨sequences⟩, ⟨i⟩)

def elements (t : ContextTable) (c : ContextId) : Except UnknownId (List ContextElem) :=
  match t.sequences.key? c.index with
  | some es => .ok es
  | none => .error c.unknown

/-- The last `k` elements of `c` followed by `e`, or all of them if there are fewer. -/
def append (t : ContextTable) (c : ContextId) (e : ContextElem) (k : Nat) :
    Except UnknownId (ContextTable × ContextId) := do
  match k with
  | 0 => pure (t, .empty)
  | k + 1 =>
    let es ← t.elements c
    pure (t.intern (es.drop (es.length - k) ++ [e]))

/-- The last `k` elements of `c`. -/
def truncate (t : ContextTable) (c : ContextId) (k : Nat) :
    Except UnknownId (ContextTable × ContextId) := do
  let es ← t.elements c
  pure (if es.length ≤ k then (t, c) else t.intern (es.drop (es.length - k)))

/-- A context is shown as its elements between brackets, `[call#1, call#4]`. -/
def text (t : ContextTable) (c : ContextId) : Except UnknownId String := do
  let es ← t.elements c
  pure ("[" ++ ", ".intercalate (es.map ContextElem.text) ++ "]")

end ContextTable

/-- The names that a context-sensitive analysis has given so far: to contexts, and to objects under
their heap contexts. -/
structure CsNames where
  contexts : ContextTable := .start
  objects : Table CsObject Unit := ∅

namespace CsNames

def intern (n : CsNames) (o : CsObject) : CsNames × CsObjectId :=
  let (objects, i) := n.objects.intern o ()
  ({ n with objects }, ⟨i⟩)

/-- The name of an object that already has one. -/
def find? (n : CsNames) (o : CsObject) : Option CsObjectId := (n.objects.find? o).map Id.mk

def object (n : CsNames) (i : CsObjectId) : Except UnknownId CsObject :=
  match n.objects.key? i.index with
  | some o => .ok o
  | none => .error i.unknown

end CsNames

end PointsTo
