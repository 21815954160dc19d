import PointsTo.CallGraph.Basic
import PointsTo.FlowGraph
import PointsTo.WorkList

/-!
# Solver states

What a points-to analysis knows at some moment: the names given so far, the pointer flow graph, the
call graph, and the work that is still pending. Pending work is either a set of objects on its way to
a pointer, or a method whose body has not been looked at. The moves below change a state in one place
and record the work that the change entails.
-/

namespace PointsTo

inductive WorkItem (C : Type) (e : Entity) where
  | propagate (pointer : PointerId) (delta : PointsToSet e)
  | reach (method : MethodIn C)
  deriving DecidableEq, Repr

/-- A call that may hand on taint between its operands. -/
structure TransferSite (C : Type) where
  site : SiteIn C
  callee : MethodId
  /-- The variable called through. -/
  base : Option VarId
  deriving DecidableEq, Repr

structure State (C : Type) [Contextual C] (e : Entity) (σ : Type) where
  names : σ
  flow : FlowGraph C e := {}
  calls : CallGraph C := {}
  pending : WorkList (WorkItem C e)
  /-- The calls to look at again when taint arrives at a variable. -/
  watchers : Table (Qualified C .var) (List (TransferSite C)) := ∅
  /-- How many work items were taken. -/
  iterations : Nat := 0
  /-- How many of them brought something new to a pointer. -/
  propagations : Nat := 0

namespace State

variable {C : Type} [Contextual C] {e : Entity} {σ : Type}

def push (s : State C e σ) (item : WorkItem C e) : State C e σ :=
  { s with pending := s.pending.push item }

/-- Makes a method reachable; a new one is to be looked at. -/
def reach (s : State C e σ) (m : MethodIn C) : State C e σ :=
  let (calls, fresh) := s.calls.addReachable m
  let s := { s with calls }
  if fresh then s.push (.reach m) else s

/-- Sends an object to a pointer. -/
def seed (s : State C e σ) (p : Pointer C e) (o : Id e) : State C e σ :=
  let (flow, i) := s.flow.node p
  { s with flow }.push (.propagate i (.singleton o))

/-- Lets what `source` refers to flow to `target`, and sends along what it refers to already. -/
def link (s : State C e σ) (source target : Pointer C e) : State C e σ :=
  let (flow, i, sent) := s.flow.connect source target
  let s := { s with flow }
  if sent.isEmpty then s else s.push (.propagate i sent)

def linkAll (s : State C e σ) (flows : List (Pointer C e × Pointer C e)) : State C e σ :=
  flows.foldl (fun s flow ↦ s.link flow.1 flow.2) s

/-- What a variable may refer to, nothing if it was never mentioned. -/
def varPointsTo (s : State C e σ) (ctx : C) (v : VarId) : PointsToSet e :=
  (s.flow.pts? (.var ctx v)).getD ∅

/-- Has a call looked at again whenever taint arrives at one of its operands. -/
def watch (s : State C e σ) (t : TransferSite C) (operands : List VarId) : State C e σ :=
  let watchers := operands.foldl
    (fun w v ↦ w.alter ⟨t.site.ctx, v⟩ [] (CallGraph.enter t)) s.watchers
  { s with watchers }

end State

end PointsTo
