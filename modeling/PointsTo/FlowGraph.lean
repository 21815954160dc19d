import PointsTo.Qualified
import PointsTo.SparseSet

/-!
# Pointer flow graphs

The nodes are pointers: variables under contexts, static fields, fields of objects and the slots of
arrays, all slots of an array taken as one. An edge says that whatever its source may refer to, its
target may refer to as well. Nodes and edges are never removed, and sets only grow.
-/

namespace PointsTo

/-- A place that refers to objects of kind `e`. -/
inductive Pointer (C : Type) (e : Entity) where
  | var (ctx : C) (v : VarId)
  | staticField (field : FieldId)
  | instanceField (base : Id e) (field : FieldId)
  | arrayIndex (base : Id e)
  deriving DecidableEq, Repr

namespace Pointer

variable {C : Type} [Contextual C] {e : Entity}

def code : Pointer C e → List Nat
  | var c v => 0 :: v.index :: Coded.code c
  | staticField f => [1, f.index]
  | instanceField o f => [2, o.index, f.index]
  | arrayIndex o => [3, o.index]

instance : Coded (Pointer C e) where
  code := code
  code_inj {a b} h := by
    cases a with
    | var c v =>
      cases b <;> simp [code] at h
      rw [h.1, Coded.code_inj h.2]
    | _ => cases b <;> simp_all [code]

end Pointer

/-- What a pointer may refer to, and the pointers that its objects flow on to, in order of linking. -/
structure FlowNode (e : Entity) where
  pts : PointsToSet e := ∅
  succs : List PointerId := []
  deriving DecidableEq, Repr

structure FlowGraph (C : Type) [Contextual C] (e : Entity) where
  nodes : Table (Pointer C e) (FlowNode e) := ∅

namespace FlowGraph

variable {C : Type} [Contextual C] {e : Entity}

def nodeCount (g : FlowGraph C e) : Nat := g.nodes.size

def edgeCount (g : FlowGraph C e) : Nat :=
  g.nodes.toList.foldl (fun count n ↦ count + n.2.succs.length) 0

/-- Every pointer with what it may refer to, in order of first mention. -/
def toList (g : FlowGraph C e) : List (Pointer C e × PointsToSet e) :=
  g.nodes.toList.map fun n ↦ (n.1, n.2.pts)

/-- The node of a pointer, which refers to nothing when it is new. -/
def node (g : FlowGraph C e) (p : Pointer C e) : FlowGraph C e × PointerId :=
  let (nodes, i) := g.nodes.intern p {}
  (⟨nodes⟩, ⟨i⟩)

def find? (g : FlowGraph C e) (p : Pointer C e) : Option PointerId := (g.nodes.find? p).map Id.mk

/-- What a pointer may refer to; `none` if it was never mentioned. -/
def pts? (g : FlowGraph C e) (p : Pointer C e) : Option (PointsToSet e) :=
  (g.nodes.get? p).map (·.pts)

def entry (g : FlowGraph C e) (i : PointerId) : Except UnknownId (Pointer C e × FlowNode e) :=
  match g.nodes.nth? i.index with
  | some n => .ok n
  | none => .error i.unknown

def pointer (g : FlowGraph C e) (i : PointerId) : Except UnknownId (Pointer C e) := do
  let n ← g.entry i
  pure n.1

def pointsTo (g : FlowGraph C e) (i : PointerId) : Except UnknownId (PointsToSet e) := do
  let n ← g.entry i
  pure n.2.pts

def succsOf (g : FlowGraph C e) (i : PointerId) : Except UnknownId (List PointerId) := do
  let n ← g.entry i
  pure n.2.succs

/-- Links `source` to `target`; the flag tells whether the edge is new. -/
def addEdge (g : FlowGraph C e) (source target : PointerId) :
    Except UnknownId (FlowGraph C e × Bool) := do
  let succs ← g.succsOf source
  if target ∈ succs then pure (g, false)
  else
    let nodes := g.nodes.modify source.index fun n ↦ { n with succs := n.succs ++ [target] }
    pure (⟨nodes⟩, true)

/-- Links two pointers, which become nodes if they are none yet. Gives the node of the target and what
is to be sent there: all that the source refers to if the link is new, and else nothing. -/
def connect (g : FlowGraph C e) (source target : Pointer C e) :
    FlowGraph C e × PointerId × PointsToSet e :=
  let (g, i) := g.node source
  let (g, j) := g.node target
  match g.addEdge i j with
  | .ok (linked, true) => (linked, j, (g.pts? source).getD ∅)
  | _ => (g, j, ∅)

/-- Adds objects to a node; gives back those that were new to it. -/
def propagate (g : FlowGraph C e) (i : PointerId) (delta : PointsToSet e) :
    Except UnknownId (FlowGraph C e × PointsToSet e) := do
  let (all, added) := (← g.pointsTo i).addAll delta
  pure (⟨g.nodes.modify i.index fun n ↦ { n with pts := all }⟩, added)

end FlowGraph

end PointsTo
