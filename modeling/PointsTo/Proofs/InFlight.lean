import PointsTo.Proofs.Changes
import PointsTo.Proofs.Halting

/-!
# Between two steps

A run is made of the items that it took, one after another (`Setup.Run`); which of the pending ones came
next was free. Between any two of them nothing is lost (`Setup.InFlight`). What is at a pointer is at its
successors or on its way there, what an object at a variable entails is in place, and every reachable
method has had its turn or waits for it, once and never both. Whatever comes next succeeds and takes
nothing away.

That methods have one turn each is read off the items taken: these and the methods seen so far tell the
same (`Interpretation.Confined.count_taken`).
-/

namespace PointsTo

variable {C : Type} [Contextual C] {e : Entity} {σ K O : Type}

/-- From `s` the given items were taken in this order, each among those that were pending then. -/
inductive Setup.Run (S : Setup C e σ) (s : State C e σ) : List (WorkItem C e) → State C e σ → Prop
  | start : Run S s [] s
  | take {taken : List (WorkItem C e)} {s₁ s₂ : State C e σ} {item : WorkItem C e}
      {rest : WorkList (WorkItem C e)} :
      Run S s taken s₁ → (item :: rest.toList).Perm s₁.pending.toList →
      S.process (s₁.taken rest) item = .ok s₂ → Run S s (taken ++ [item]) s₂

/-- Nothing of `s` is missing from `s'`. -/
structure State.Retains (s s' : State C e σ) : Prop extends s.Grows s' where
  links : ∀ {p q}, s.flow.Links p q → s'.flow.Links p q

/-- The accesses and calls that the index of a variable lists are in place for the object `o` of class
`cls`, under the context `c`. -/
structure Setup.Served (S : Setup C e σ) (s : State C e σ) (c : C) (index : VarIndex) (o : Id e)
    (cls : ClassId) : Prop where
  storeFields : ∀ x ∈ index.storeFields, s.flow.Links (.var c x.rhs) (.instanceField o x.field)
  loadFields : ∀ x ∈ index.loadFields, s.flow.Links (.instanceField o x.field) (.var c x.lhs)
  storeArrays : ∀ rhs ∈ index.storeArrays, s.flow.Links (.var c rhs) (.arrayIndex o)
  loadArrays : ∀ lhs ∈ index.loadArrays, s.flow.Links (.arrayIndex o) (.var c lhs)
  /-- A call leads to the callee that the class selects, under the context that the names in `s` give
  it; arguments, results and the receiver flow. -/
  invokes : ∀ cs ∈ index.invokes, ∀ callee, S.program.callee (some cls) cs = .ok (some callee) →
    ∃ site n c', S.program.callSite cs = .ok site ∧
      S.naming.calleeContext S.program s.names ⟨c, cs⟩ (some o) = .ok (n, c') ∧
      s.Calls ⟨site.kind, ⟨c, cs⟩, ⟨c', callee⟩⟩ ∧ s.Reaches ⟨c', callee⟩ ∧
      (∀ flow ∈ S.callFlows site c ⟨c', callee⟩, s.flow.Links flow.1 flow.2) ∧
      ∀ this, S.program.thisVar callee = some this → s.Delivers (.var c' this) o

/-- After the items `taken`, what `s` entails has happened or is pending. -/
structure Setup.InFlight (S : Setup C e σ) (taken : List (WorkItem C e)) (s : State C e σ) : Prop where
  flows : ∀ {p q o}, s.flow.Links p q → s.flow.Points p o → s.flow.Points q o ∨
    ∃ i delta, .propagate i delta ∈ s.pending.toList ∧ s.flow.Stands i q ∧ o ∈ delta.toList
  objects : ∀ {c v o}, s.flow.Points (.var c v) o → ∃ info cls, S.program.var v = .ok info ∧
    S.naming.classOf s.names o = .ok cls ∧ S.Served s c info.index o cls
  /-- The first case is that of a method that was looked at, the second that of one that waits. -/
  turns : ∀ {m}, s.Reaches m →
    taken.count (.reach m) = 1 ∧ s.pending.toList.count (.reach m) = 0 ∨
    taken.count (.reach m) = 0 ∧ s.pending.toList.count (.reach m) = 1
  next : ∀ {item rest}, (item :: rest.toList).Perm s.pending.toList →
    ∃ s', S.process (s.taken rest) item = .ok s' ∧ s.Retains s'

/-- Every state of a run is one after some items, and nothing is in flight there but what is pending. -/
structure Setup.LosesNothing (S : Setup C e σ) (names : σ) (entry : MethodId) : Prop where
  taken : ∀ {order s}, Relation.ReflTransGen S.Step (S.initial names order entry) s →
    ∃ taken, S.Run (S.initial names order entry) taken s
  inFlight : ∀ {order taken s}, S.Run (S.initial names order entry) taken s → S.InFlight taken s

namespace Setup

variable {S : Setup C e σ} {s s' : State C e σ}

theorem Run.steps {taken : List (WorkItem C e)} (h : S.Run s taken s') :
    Relation.ReflTransGen S.Step s s' := by
  induction h with
  | start => exact .refl
  | take _ hperm heq ih => exact ih.tail (.take _ _ hperm heq)

theorem exists_run_of_steps (h : Relation.ReflTransGen S.Step s s') : ∃ taken, S.Run s taken s' := by
  induction h with
  | refl => exact ⟨[], .start⟩
  | tail _ hstep ih =>
    obtain ⟨taken, hrun⟩ := ih
    obtain ⟨item, rest, hperm, heq⟩ := hstep
    exact ⟨taken ++ [item], hrun.take hperm heq⟩

end Setup

/-! ## Turns -/

theorem State.count_pending (s : State C e σ) (m : MethodIn C) :
    s.pending.toList.count (.reach m) = s.awaited.count m := by
  rw [awaited, List.count_filterMap, List.count_eq_countP]
  apply List.countP_congr
  intro item _
  cases item <;> simp [WorkItem.method?]

namespace Interpretation

variable {S : Setup C e σ} {R : Interpretation S K O} {F : Facts K O} {entry : MethodId} {names : σ}
  {s : State C e σ}

/-- A method that waits has its turn still before it. -/
theorem not_seen_of_perm {m : MethodIn C} {rest : WorkList (WorkItem C e)}
    (hperm : (.reach m :: rest.toList).Perm s.pending.toList) : ¬ s.Seen m := by
  intro hseen
  exact hseen.2 (List.mem_filterMap.2 ⟨.reach m, hperm.subset List.mem_cons_self, rfl⟩)

section

variable {U : Facts K O} (h : R.Confined names entry U) {order : WorkOrder}
  {taken : List (WorkItem C e)} (hrun : S.Run (S.initial names order entry) taken s)

include h hrun

/-- A method that was looked at was taken once, and any other never. -/
theorem Confined.count_taken (m : MethodIn C) :
    s.Seen m ∧ taken.count (.reach m) = 1 ∨ ¬ s.Seen m ∧ taken.count (.reach m) = 0 := by
  induction hrun with
  | start => exact .inr ⟨Setup.not_seen_initial, List.count_nil⟩
  | @take taken s₁ s₂ item rest hrun hperm heq ih =>
    have hunder := (h.underway order).steps h.closed h.answered hrun.steps
    rw [List.count_append, List.count_singleton]
    cases item with
    | propagate i delta =>
      obtain ⟨s', p, added, heq', -, -, harrived⟩ :=
        hunder.takeObjects h.closed h.answered hperm
      obtain rfl := Except.ok.inj (heq.symm.trans heq')
      rw [harrived.seen]
      simpa using ih
    | reach m' =>
      obtain ⟨s', heq', -, -, hlooked⟩ := hunder.takeMethod h.closed h.answered hperm
      obtain rfl := Except.ok.inj (heq.symm.trans heq')
      rw [hlooked.seen]
      by_cases hm : m = m'
      · -- It is the turn of `m`, which it has not had before.
        subst hm
        have hzero := (ih.resolve_left fun hseen ↦ not_seen_of_perm hperm hseen.1).2
        exact .inl ⟨.inr rfl, by simp [hzero]⟩
      · simpa [hm, Ne.symm hm] using ih

theorem Confined.turns {m : MethodIn C} (hm : s.Reaches m) :
    taken.count (.reach m) = 1 ∧ s.pending.toList.count (.reach m) = 0 ∨
    taken.count (.reach m) = 0 ∧ s.pending.toList.count (.reach m) = 1 := by
  have hsettled := ((h.underway order).steps h.closed h.answered hrun.steps).settled
  rw [s.count_pending]
  rcases h.count_taken hrun m with ⟨hseen, hcount⟩ | ⟨hseen, hcount⟩
  · exact .inl ⟨hcount, List.count_eq_zero.2 hseen.2⟩
  · have hawaited : m ∈ s.awaited := (hsettled.known.1 hm).resolve_right hseen
    exact .inr ⟨hcount, List.count_eq_one_of_mem hsettled.nodup hawaited⟩

end

/-! ## Objects at variables -/

/-- What `Attended` says of an object, said for each list of the variable's index. -/
theorem Attended.served {A : Pointer C e → Id e → Prop} (h : R.Attended F entry A s) {c : C} {v : VarId}
    {o : Id e} (hp : s.flow.Points (.var c v) o) :
    ∃ info cls, S.program.var v = .ok info ∧ S.naming.classOf s.names o = .ok cls ∧
      S.Served s c info.index o cls := by
  obtain ⟨info, x, hinfo, hx, hflows, hcalls⟩ := h.objects hp
  refine ⟨info, R.domain.classOf x, hinfo, R.laws.classOf h.sound.valid hx, ?_⟩
  constructor
  case storeFields =>
    intro y hy
    apply hflows (.var c y.rhs, .instanceField o y.field)
    exact List.mem_append_left _ (List.mem_append_left _ (List.mem_append_left _
      (List.mem_map_of_mem hy)))
  case loadFields =>
    intro y hy
    apply hflows (.instanceField o y.field, .var c y.lhs)
    exact List.mem_append_left _ (List.mem_append_left _ (List.mem_append_right _
      (List.mem_map_of_mem hy)))
  case storeArrays =>
    intro rhs hrhs
    apply hflows (.var c rhs, .arrayIndex o)
    exact List.mem_append_left _ (List.mem_append_right _ (List.mem_map_of_mem hrhs))
  case loadArrays =>
    intro lhs hlhs
    apply hflows (.arrayIndex o, .var c lhs)
    exact List.mem_append_right _ (List.mem_map_of_mem hlhs)
  case invokes =>
    intro cs hcs callee hcallee
    obtain ⟨site, k, r, c', hcalled⟩ := hcalls cs hcs callee hcallee
    -- The context is known already, so the names give it again.
    obtain ⟨n, c'', hcontext, hvalid, hgrows, hc''⟩ :=
      R.laws.calleeContext h.sound.valid hcalled.caller hcalled.receives
    obtain rfl := R.laws.ctx_inj hvalid (hgrows.ctx hcalled.context) hc''
    exact ⟨site, n, c', hcalled.callSite, hcontext, hcalled.edge, h.settled.reaches hcalled.edge,
      h.settled.bound hcalled.edge hcalled.callSite, fun this hthis ↦ hcalled.this o this rfl hthis⟩

theorem Confined.losesNothing {U : Facts K O} (h : R.Confined names entry U) :
    S.LosesNothing names entry where
  taken := Setup.exists_run_of_steps
  inFlight := by
    intro order taken s hrun
    have hattended := h.attended hrun.steps
    constructor
    case flows => exact fun hl hp ↦ hattended.settled.flowing _ _ _ hl hp
    case objects => exact fun hp ↦ hattended.served hp
    case turns => exact fun hm ↦ h.turns hrun hm
    case next =>
      intro item rest hperm
      obtain ⟨s', heq, -, hadv⟩ := hattended.toUnderway.take h.closed h.answered hperm
      exact ⟨s', heq, ⟨hadv.grows.points, hadv.grows.reaches, hadv.grows.calls⟩, hadv.grows.links⟩

end Interpretation

/-- On every accepted program, between any two steps of an analysis, without contexts and with those of
any selector, without taint rules and with any, everything that the state entails has happened or is
pending, and no step takes anything away. -/
theorem nothing_lost_in_flight {ds : List Declaration} {p : Program} {entry : MethodId} {w : World}
    (hbuilt : Program.ofDeclarations ds = .ok p) (hworld : World.of p entry = .ok w)
    (hrange : p.InRange) (abstraction : HeapAbstraction) :
    w.plainSetup.LosesNothing { abstraction } entry ∧
    ∀ (selector : Selector) (taint : Option TaintRules),
      (w.selectedSetup selector (taint.map (.resolve p))).LosesNothing { heap := { abstraction } }
        entry := by
  obtain ⟨rfl, -⟩ := World.of_eq_ok hworld
  have hp : (World.mk p entry).program.Analysable := Program.analysable hbuilt hworld hrange
  constructor
  · exact (World.plain_ready hp abstraction).losesNothing
  · intro selector taint
    exact (World.resolved_confined hp selector abstraction taint).losesNothing

/-- In the midst of a run three methods are reachable and 23 items are pending. -/
theorem nothing_lost_in_flight_knotted :
    Program.ofDeclarations knottedNodes = .ok knottedProgram ∧
    World.of knottedProgram ⟨1⟩ = .ok knottedWorld ∧ knottedProgram.InRange ∧
    knottedWorld.plainSetup.LosesNothing { abstraction := .allocationSite } ⟨1⟩ ∧
    ∃ taken s, (knottedWorld.selectedSetup ⟨.object, 2, 3⟩
          (some (.resolve knottedProgram knottedRules))).Run
        ((knottedWorld.selectedSetup ⟨.object, 2, 3⟩
          (some (.resolve knottedProgram knottedRules))).initial
            { heap := { abstraction := .allocationSite } } .lifo ⟨1⟩) taken s ∧
      (s.calls.methods.length, s.pending.toList.length) = (3, 23) ∧
      (knottedWorld.selectedSetup ⟨.object, 2, 3⟩
        (some (.resolve knottedProgram knottedRules))).InFlight taken s := by
  have hrun : ((knottedWorld.selectedSetup ⟨.object, 2, 3⟩
        (some (.resolve knottedProgram knottedRules))).runFor 12
      ((knottedWorld.selectedSetup ⟨.object, 2, 3⟩
        (some (.resolve knottedProgram knottedRules))).initial
          { heap := { abstraction := .allocationSite } } .lifo ⟨1⟩) >>= fun s ↦
      .ok (s.calls.methods.length, s.pending.toList.length)) = .ok (3, 23) := by decide +kernel
  obtain ⟨s, hs, hcounts⟩ := bind_eq_ok.1 hrun
  obtain ⟨hplain, hselected⟩ := nothing_lost_in_flight knottedProgram_built knottedWorld_accepted
    knottedProgram_inRange .allocationSite
  have hloses := hselected ⟨.object, 2, 3⟩ (some knottedRules)
  obtain ⟨taken, htaken⟩ := hloses.taken (Setup.steps_of_runFor hs)
  exact ⟨knottedProgram_built, knottedWorld_accepted, knottedProgram_inRange, hplain, taken, s, htaken,
    Except.ok.inj hcounts, hloses.inFlight htaken⟩

end PointsTo
