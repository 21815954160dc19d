import PointsTo.Program.World
import PointsTo.Solver.Step

/-!
# Running a solver

Work is taken until none is left. Nothing bounds the number of pieces in advance: a piece of work may
entail more of it. A run still ends, because every piece either brings a new object to a pointer or a
new method to light, or entails nothing.
-/

namespace PointsTo

namespace Setup

variable {C : Type} [Contextual C] {e : Entity} {σ : Type}

/-- Takes one piece of work, unless there is none. -/
def poll (S : Setup C e σ) (s : State C e σ) : Option (Except UnknownId (State C e σ)) :=
  match s.pending.poll with
  | none => none
  | some (item, pending) => some (S.process { s with pending, iterations := s.iterations + 1 } item)

/-- Takes work until nothing is pending. -/
def run (S : Setup C e σ) (s : State C e σ) : Except UnknownId (State C e σ) :=
  match S.poll s with
  | none => .ok s
  | some (.error unknown) => .error unknown
  | some (.ok next) => S |>.run next
partial_fixpoint

/-- The state in which only the entry method is known. -/
def initial (S : Setup C e σ) (names : σ) (order : WorkOrder) (entry : MethodId) : State C e σ :=
  let start : MethodIn C := ⟨S.naming.start, entry⟩
  let s : State C e σ := { names, pending := { order }, calls := CallGraph.addEntry {} start }
  s.reach start

/-- The final state of a run from the entry method on. -/
def solve (S : Setup C e σ) (names : σ) (order : WorkOrder) (entry : MethodId) :
    Except UnknownId (State C e σ) :=
  S.run (S.initial names order entry)

end Setup

/-- The final state of an analysis without contexts. -/
abbrev CiState := State Unit .object Heap

/-- The final state of an analysis with contexts. -/
abbrev CsState := State ContextId .csObject CsHeap

namespace World

def plainSetup (w : World) : Setup Unit .object Heap where
  program := w.program
  naming := .plain

/-- Analyses a world without contexts. -/
def solvePlain (w : World) (abstraction : HeapAbstraction) (order : WorkOrder) :
    Except UnknownId CiState :=
  w.plainSetup.solve { abstraction } order w.entry

def selectedSetup (w : World) (selector : Selector) (taint : Option TaintPlan) :
    Setup ContextId .csObject CsHeap where
  program := w.program
  naming := .selected selector
  taint := taint

/-- Analyses a world with the contexts that a selector chooses, following taint if there is a plan. -/
def solveSelected (w : World) (selector : Selector) (abstraction : HeapAbstraction) (order : WorkOrder)
    (taint : Option TaintPlan) : Except UnknownId CsState :=
  (w.selectedSetup selector taint).solve { heap := { abstraction } } order w.entry

end World

end PointsTo
