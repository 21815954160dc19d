import PointsTo.Ordered
import PointsTo.Solver.Run

/-!
# Results with contexts left out

A `View` is what an analysis found about variables, objects, calls and methods as such. An analysis
with contexts is projected: a variable refers to whatever it refers to under some context, and calls
and methods count once however many contexts they were met under.
-/

namespace PointsTo

/-- How much work an analysis was. -/
structure Stats where
  iterations : Nat
  propagations : Nat
  flowNodes : Nat
  flowEdges : Nat
  reachableMethods : Nat
  callEdges : Nat
  objects : Nat
  contexts : Nat
  deriving DecidableEq, Repr

/-- Sets of objects by variable, ascending. -/
abbrev VarSets := List (VarId × PointsToSet .object)

namespace VarSets

/-- Adds objects to the set of a variable. -/
def add (sets : VarSets) (v : VarId) (objects : PointsToSet .object) : VarSets :=
  Ordered.alter (fun a b ↦ a.index < b.index) v
    (fun old ↦ ((old.getD ∅).addAll objects).1) sets

/-- The sets of the variables among some pointers, each object taken without its context. -/
def project {C : Type} {e : Entity} (objectOf : Id e → Except UnknownId ObjectId)
    (pointers : List (Pointer C e × PointsToSet e)) : Except UnknownId VarSets :=
  pointers.foldlM
    (fun sets (pointer, set) ↦
      match pointer with
      | .var _ v => do
        let objects ← set.toList.mapM objectOf
        pure (add sets v (.ofList objects))
      | _ => pure sets)
    []

end VarSets

structure View where
  contextSensitive : Bool
  stats : Stats
  heap : Heap
  sets : VarSets
  /-- The call edges, each once and in order of discovery. -/
  edges : List (Edge Unit)
  /-- The reachable methods, each once and in order of discovery. -/
  methods : List MethodId

namespace View

/-- The variables that were met, ascending. -/
def vars (w : View) : List VarId := w.sets.map Prod.fst

/-- What a variable may refer to; `none` if it was never met. -/
def pointsTo? (w : View) (v : VarId) : Option (PointsToSet .object) := w.sets.lookup v

def pointsTo (w : View) (v : VarId) : List ObjectId := ((w.pointsTo? v).getD ∅).toList

/-- Whether two variables may refer to the same object. -/
def mayAlias (w : View) (a b : VarId) : Bool :=
  ((w.pointsTo? a).getD ∅).intersects ((w.pointsTo? b).getD ∅)

end View

/-- A call edge without contexts. -/
def Edge.erase {C : Type} (e : Edge C) : Edge Unit := ⟨e.kind, ⟨(), e.site.id⟩, ⟨(), e.callee.id⟩⟩

namespace CallGraph

variable {C : Type} [Contextual C]

def erasedEdges (g : CallGraph C) : List (Edge Unit) := (g.edgeList.map Edge.erase).eraseDups

def erasedMethods (g : CallGraph C) : List MethodId := (g.methods.map (·.id)).eraseDups

end CallGraph

namespace State

variable {C : Type} [Contextual C] {e : Entity} {σ : Type}

def stats (s : State C e σ) (objects contexts : Nat) : Stats where
  iterations := s.iterations
  propagations := s.propagations
  flowNodes := s.flow.nodeCount
  flowEdges := s.flow.edgeCount
  reachableMethods := s.calls.reachable.size
  callEdges := s.calls.edges.size
  objects := objects
  contexts := contexts

end State

/-- The view of an analysis without contexts. -/
def CiState.view (s : CiState) : Except UnknownId View := do
  let sets ← VarSets.project pure s.flow.toList
  pure
    { contextSensitive := false
      stats := s.stats s.names.size 1
      heap := s.names
      sets
      edges := s.calls.erasedEdges
      methods := s.calls.erasedMethods }

namespace CsState

/-- The object of a name, without its heap context. -/
def objectOf (s : CsState) (i : CsObjectId) : Except UnknownId ObjectId := do
  let named ← s.names.object i
  pure named.id

/-- The view of an analysis with contexts. -/
def view (s : CsState) : Except UnknownId View := do
  let sets ← VarSets.project s.objectOf s.flow.toList
  pure
    { contextSensitive := true
      stats := s.stats s.names.heap.size s.names.contexts.size
      heap := s.names.heap
      sets
      edges := s.calls.erasedEdges
      methods := s.calls.erasedMethods }

/-- What a pointer may refer to, as objects under heap contexts. -/
def pointsTo (s : CsState) (p : Pointer ContextId .csObject) : Except UnknownId (List CsObject) :=
  ((s.flow.pts? p).getD ∅).toList.mapM s.names.object

/-- The contexts under which a variable stands among some pointers, ascending. -/
def contextsIn (pointers : List (Pointer ContextId .csObject × PointsToSet .csObject)) (v : VarId) :
    List ContextId :=
  let contexts := pointers.filterMap fun (p, _) ↦
    match p with
    | .var ctx w => if w = v then some ctx.index else none
    | _ => none
  (SparseSet.ofList contexts).elems.map Id.mk

/-- The contexts under which a variable was met, ascending. -/
def contextsOf (s : CsState) (v : VarId) : List ContextId := contextsIn s.flow.toList v

def fieldPointsTo (s : CsState) (base : CsObject) (field : FieldId) :
    Except UnknownId (List CsObject) :=
  match s.names.find? base with
  | some i => s.pointsTo (.instanceField i field)
  | none => .ok []

def arrayPointsTo (s : CsState) (base : CsObject) : Except UnknownId (List CsObject) :=
  match s.names.find? base with
  | some i => s.pointsTo (.arrayIndex i)
  | none => .ok []

end CsState

/-- What a pointer may refer to. -/
def CiState.pointsTo (s : CiState) (p : Pointer Unit .object) : List ObjectId :=
  ((s.flow.pts? p).getD ∅).toList

end PointsTo
