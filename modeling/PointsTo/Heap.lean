import PointsTo.Program.Basic
import PointsTo.Table

/-!
# Abstract heaps

Run-time objects are abstracted to finitely many: one for each allocation site, or one for each class
with the sites merged. Beside allocated objects there are taint marks, one for each source call and
class, and mock objects, which stand for whatever a client describes. Each is created on first use.
-/

namespace PointsTo

/-- How allocation sites are abstracted to objects. -/
inductive HeapAbstraction where
  | allocationSite
  | allocationType
  deriving DecidableEq, Repr

/-- What an abstract object stands for. -/
inductive ObjectKind where
  | alloc (site : AllocSiteId)
  /-- All allocations of the object's class. -/
  | merged
  /-- What the call `source` lets in from outside. -/
  | taint (source : CallSiteId)
  | mock (descriptor : String)
  deriving DecidableEq, Repr

structure AbstractObject where
  cls : ClassId
  kind : ObjectKind
  /-- The allocating method, where there is one. -/
  container : Option MethodId := none
  deriving DecidableEq, Repr

namespace ObjectKind

/-- The wording of an object whose class is called `cls`. -/
def text (cls : String) : ObjectKind → String
  | alloc site => "new " ++ cls ++ "@" ++ site.text
  | merged => "new " ++ cls
  | taint source => "taint " ++ cls ++ "@" ++ source.text
  | mock descriptor => "mock " ++ cls ++ ":" ++ descriptor

/-- The call that a taint mark comes from. -/
def source? : ObjectKind → Option CallSiteId
  | taint source => some source
  | _ => none

end ObjectKind

namespace AbstractObject

def text (o : AbstractObject) : String := o.kind.text o.cls.text

def isTaint (o : AbstractObject) : Bool := o.kind.source?.isSome

end AbstractObject

/-- What makes two objects the same. -/
inductive ObjectKey where
  | site (site : AllocSiteId)
  | cls (cls : ClassId)
  | taint (source : CallSiteId) (cls : ClassId)
  | mock (descriptor : String) (cls : ClassId)
  deriving DecidableEq, Repr

namespace ObjectKey

def code : ObjectKey → List Nat
  | site s => [0, s.index]
  | cls c => [1, c.index]
  | taint s c => [2, s.index, c.index]
  | mock d c => 3 :: c.index :: d.toList.map Char.toNat

theorem map_toNat_inj {cs ds : List Char} (h : cs.map Char.toNat = ds.map Char.toNat) : cs = ds :=
  List.map_inj_right (fun _ _ h ↦ Char.toNat_inj.1 h) |>.1 h

instance : Coded ObjectKey where
  code := code
  code_inj {a b} h := by
    cases a with
    | mock d c =>
      cases b <;> simp [code] at h
      rw [h.1, String.toList_inj.1 (map_toNat_inj h.2)]
    | _ => cases b <;> simp_all [code]

end ObjectKey

structure Heap where
  abstraction : HeapAbstraction
  objects : Table ObjectKey AbstractObject := ∅

namespace Heap

def size (h : Heap) : Nat := h.objects.size

def intern (h : Heap) (key : ObjectKey) (o : AbstractObject) : Heap × ObjectId :=
  let (objects, i) := h.objects.intern key o
  ({ h with objects }, ⟨i⟩)

/-- The object of an allocation site. -/
def allocated (h : Heap) (p : Program) (a : AllocSiteId) : Except UnknownId (Heap × ObjectId) := do
  let site ← p.allocSite a
  pure <| match h.abstraction with
    | .allocationSite =>
      h.intern (.site a) { cls := site.cls, kind := .alloc a, container := some site.container }
    | .allocationType => h.intern (.cls site.cls) { cls := site.cls, kind := .merged }

/-- The taint mark of a source call, as an object of class `cls`. -/
def taint (h : Heap) (source : CallSiteId) (cls : ClassId) : Heap × ObjectId :=
  h.intern (.taint source cls) { cls, kind := .taint source }

/-- The mock object of that description and class. -/
def mock (h : Heap) (descriptor : String) (cls : ClassId) : Heap × ObjectId :=
  h.intern (.mock descriptor cls) { cls, kind := .mock descriptor }

def object (h : Heap) (o : ObjectId) : Except UnknownId AbstractObject :=
  match h.objects.value? o.index with
  | some object => .ok object
  | none => .error o.unknown

/-- The objects in order of creation. -/
def toList (h : Heap) : List AbstractObject := h.objects.toList.map Prod.snd

/-- The source call of a taint mark; `none` for other objects. -/
def sourceOf (h : Heap) (o : ObjectId) : Except UnknownId (Option CallSiteId) := do
  let object ← h.object o
  pure object.kind.source?

end Heap

end PointsTo
