import PointsTo.Proofs.Flows

/-!
# Schedules

A run takes pending items in any order it likes. Items taken in another order give other numbers to
objects, contexts and pointers, so two runs do not meet in one state, and there is no diamond to close.
What numbers stand for is the same nevertheless: every complete run ends in the least solution of the
rules (`Interpretation.Ready.confluent`). As numbers that stand for the same thing are equal within a
state, ends with the same facts differ by a renaming. No run gets stuck or goes on for ever, and first
come first served and last come first served are two of the schedules.
-/

namespace PointsTo

variable {C : Type} [Contextual C] {e : Entity} {σ K O : Type}

/-- Some schedule leads from the initial state to `s`, where nothing is left to do. -/
structure Setup.Completes (S : Setup C e σ) (names : σ) (order : WorkOrder) (entry : MethodId)
    (s : State C e σ) : Prop where
  steps : Relation.ReflTransGen S.Step (S.initial names order entry) s
  finished : s.Finished

/-- All schedules come to an end, and to the same one up to renaming. -/
structure Setup.Confluent (S : Setup C e σ) (M : Meaning C e σ K O) (names : σ) (entry : MethodId) :
    Prop where
  /-- Whatever pending item is taken, it can be done. -/
  progress : ∀ {order s}, Relation.ReflTransGen S.Step (S.initial names order entry) s →
    ∀ {item rest}, (item :: rest.toList).Perm s.pending.toList →
      ∃ s', S.process (s.taken rest) item = .ok s'
  /-- No schedule goes on for ever. -/
  ends : ∀ order, Acc (fun s' s ↦ S.Step s s') (S.initial names order entry)
  /-- The solver follows one of the schedules, for either order of work. -/
  solve : ∀ order, ∃ s, S.solve names order entry = .ok s ∧ S.Completes names order entry s
  /-- In the end, numbers are names. -/
  faithful : ∀ {order s}, S.Completes names order entry s → s.Faithful M
  /-- In the end, the facts are the same. -/
  agree : ∀ {order order' s s'}, S.Completes names order entry s →
    S.Completes names order' entry s' → s.facts M = s'.facts M

namespace Interpretation

variable {S : Setup C e σ} {R : Interpretation S K O} {entry : MethodId} {names : σ} {U : Facts K O}

theorem Ready.confluent (h : R.Ready names entry U) : S.Confluent R.meaning names entry where
  progress := by
    intro order s hs item rest hperm
    obtain ⟨s', heq, -⟩ := (h.invariant hs).toUnderway.take h.closed h.answered hperm
    exact ⟨s', heq⟩
  ends order := (h.underway order).acc h.closed h.answered h.finite
  solve := by
    intro order
    obtain ⟨s, hsolve, hsteps, hfin⟩ := h.solve_finishes order
    exact ⟨s, hsolve, hsteps, hfin⟩
  faithful hs := (h.invariant hs.steps).sound.faithful
  agree hs hs' :=
    (h.isLeast_facts hs.steps hs.finished).unique (h.isLeast_facts hs'.steps hs'.finished)

end Interpretation

/-- Complete runs report the same flows. -/
theorem World.flows_agree {w : World} (hp : w.program.Analysable) (selector : Selector)
    (abstraction : HeapAbstraction) {taint : Option TaintPlan} {names : CsHeap}
    {U : Facts (List ContextStep) HeapObject}
    (h : (w.selectedInterpretation hp selector abstraction taint).Ready names w.entry U)
    (t : TaintPlan) :
    ∃ fs, ∀ {order s}, (w.selectedSetup selector taint).Completes names order w.entry s →
      t.flows w.program s = .ok fs := by
  have hflows : ∀ {order s}, (w.selectedSetup selector taint).Completes names order w.entry s →
      ∃ fs, t.flows w.program s = .ok fs ∧ TaintFlow.Lists fs
        ((s.facts .selected).Flows w.program (.selected w.program abstraction selector) t) :=
    fun hs ↦ flows_of_isLeast hp selector abstraction h (h.confluent.faithful hs)
      (h.isLeast_facts hs.steps hs.finished) t
  obtain ⟨s₀, -, hs₀⟩ := h.confluent.solve .fifo
  obtain ⟨fs, -, hlists⟩ := hflows hs₀
  refine ⟨fs, fun {order s} hs ↦ ?_⟩
  obtain ⟨gs, hgs, hlists'⟩ := hflows hs
  have hfacts : s.facts .selected = s₀.facts .selected := h.confluent.agree hs hs₀
  rw [hfacts] at hlists'
  rw [hgs, TaintFlow.eq_of_lists hlists' hlists]

/-- On every accepted program all schedules of an analysis end in the same facts up to renaming, with
or without contexts and with or without valid taint rules, and they report the same flows. -/
theorem schedules_agree {ds : List Declaration} {p : Program} {entry : MethodId} {w : World}
    (hbuilt : Program.ofDeclarations ds = .ok p) (hworld : World.of p entry = .ok w)
    (hrange : p.InRange) :
    (∀ abstraction, w.plainSetup.Confluent .plain { abstraction } entry) ∧
    ∀ (selector : Selector) (abstraction : HeapAbstraction) (taint : Option TaintRules),
      (∀ rules, taint = some rules → rules.validate = .ok ()) →
      (w.selectedSetup selector (taint.map (.resolve p))).Confluent .selected
        { heap := { abstraction } } entry ∧
      ∀ rules, taint = some rules → ∃ fs, ∀ {order s},
        (w.selectedSetup selector (taint.map (.resolve p))).Completes { heap := { abstraction } } order
          entry s → (TaintPlan.resolve p rules).flows p s = .ok fs := by
  obtain ⟨rfl, -⟩ := World.of_eq_ok hworld
  have hp : (World.mk p entry).program.Analysable := Program.analysable hbuilt hworld hrange
  constructor
  · intro abstraction
    exact (World.plain_ready hp abstraction).confluent
  · intro selector abstraction taint hvalid
    have hready := World.resolved_ready hp selector abstraction hvalid
    constructor
    · exact hready.confluent
    · intro rules _
      exact World.flows_agree hp selector abstraction hready (.resolve p rules)

theorem schedules_agree_linked :
    Program.ofDeclarations linkedShapes = .ok linkedProgram ∧
    World.of linkedProgram ⟨2⟩ = .ok linkedWorld ∧ linkedProgram.InRange ∧
    linkedRules.validate = .ok () ∧
    linkedWorld.plainSetup.Confluent .plain { abstraction := .allocationType } ⟨2⟩ ∧
    ∃ fs, ∀ {order s},
      (linkedWorld.selectedSetup ⟨.type, 2, 1⟩
        (some (.resolve linkedProgram linkedRules))).Completes
          { heap := { abstraction := .allocationSite } } order ⟨2⟩ s →
      (TaintPlan.resolve linkedProgram linkedRules).flows linkedProgram s = .ok fs := by
  have h := schedules_agree linkedProgram_built linkedWorld_accepted linkedProgram_inRange
  have hvalid : ∀ rules, some linkedRules = some rules → rules.validate = .ok () := by
    rintro _ ⟨⟩
    exact linkedRules_valid
  have hselected := h.2 ⟨.type, 2, 1⟩ .allocationSite (some linkedRules) hvalid
  exact ⟨linkedProgram_built, linkedWorld_accepted, linkedProgram_inRange, linkedRules_valid,
    h.1 .allocationType, hselected.2 linkedRules rfl⟩

end PointsTo
