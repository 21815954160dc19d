import PointsTo.Proofs.Flows

/-!
# Analyses come to an end

A piece of work may entail more of it, and recursion, cyclic copies and objects that hold each other make
work return to where it came from. There is still only finitely much to find out: contexts are cut to
a length, and the marks of taint are as many as the calls of sources. So every analysis halts
(`solvers_halt`), with any rules for taint. What rules hand on in circles, or from results, which are
not watched, may be missing from what such an analysis finds, but it does not keep it from ending.
-/

namespace PointsTo

variable {C : Type} [Contextual C] {e : Entity} {σ K O : Type}

/-- All runs from the entry method on come to an end. -/
structure Setup.Halts (S : Setup C e σ) (names : σ) (entry : MethodId) : Prop where
  /-- Whatever pending items are taken, at some point there are none left to take. -/
  ends : ∀ order, Acc (fun s' s ↦ S.Step s s') (S.initial names order entry)
  /-- After some number of items that the order of work chooses the worklist is empty, and the state
  at this point is what the solver returns. -/
  empties : ∀ order, ∃ n s, S.runFor n (S.initial names order entry) = .ok s ∧ s.Finished ∧
    S.solve names order entry = .ok s

theorem Interpretation.Confined.halts {S : Setup C e σ} {R : Interpretation S K O} {entry : MethodId}
    {names : σ} {U : Facts K O} (h : R.Confined names entry U) : S.Halts names entry where
  ends order := (h.underway order).acc h.closed h.answered h.finite
  empties order := by
    obtain ⟨n, s, hrun, hend⟩ := h.runFor_finishes order
    exact ⟨n, s, hrun, WorkList.toList_of_poll_none hend, Setup.run_of_runFor hrun hend⟩

/-- On every accepted program every analysis comes to an end, without contexts and with those of any
selector, without taint rules and with any. -/
theorem solvers_halt {ds : List Declaration} {p : Program} {entry : MethodId} {w : World}
    (hbuilt : Program.ofDeclarations ds = .ok p) (hworld : World.of p entry = .ok w)
    (hrange : p.InRange) (abstraction : HeapAbstraction) :
    w.plainSetup.Halts { abstraction } entry ∧
    ∀ (selector : Selector) (taint : Option TaintRules),
      (w.selectedSetup selector (taint.map (.resolve p))).Halts { heap := { abstraction } } entry := by
  obtain ⟨rfl, -⟩ := World.of_eq_ok hworld
  have hp : (World.mk p entry).program.Analysable := Program.analysable hbuilt hworld hrange
  constructor
  · exact (World.plain_ready hp abstraction).halts
  · intro selector taint
    exact (World.resolved_confined hp selector abstraction taint).halts

/-- Taint goes round between the operands, also out of the result, where no valid rule takes it. -/
def knottedRules : TaintRules where
  sources := [⟨"Node", "tie(Node)", "Node"⟩]
  transfers := [⟨"Node", "tie(Node)", .result, .base, "Node"⟩,
    ⟨"Node", "tie(Node)", .base, .arg 0, "Node"⟩, ⟨"Node", "tie(Node)", .arg 0, .base, "Node"⟩]

theorem solvers_halt_knotted :
    Program.ofDeclarations knottedNodes = .ok knottedProgram ∧
    World.of knottedProgram ⟨1⟩ = .ok knottedWorld ∧ knottedProgram.InRange ∧
    knottedRules.validate ≠ .ok () ∧
    knottedWorld.plainSetup.Halts { abstraction := .allocationSite } ⟨1⟩ ∧
    (knottedWorld.selectedSetup ⟨.object, 3, 2⟩ (some (.resolve knottedProgram knottedRules))).Halts
      { heap := { abstraction := .allocationSite } } ⟨1⟩ := by
  have h := solvers_halt knottedProgram_built knottedWorld_accepted knottedProgram_inRange
    .allocationSite
  exact ⟨knottedProgram_built, knottedWorld_accepted, knottedProgram_inRange, by decide, h.1,
    h.2 ⟨.object, 3, 2⟩ (some knottedRules)⟩

end PointsTo
