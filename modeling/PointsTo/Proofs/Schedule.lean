import PointsTo.Proofs.Arrival

/-!
# Runs in any order

A step of a run takes any pending item and does it (`Setup.Step`); first in, first out and last in,
first out are two ways to choose. Whichever items were chosen, between two steps the state is sound and
settled (`Underway`), so a step always succeeds and gets on (`Advance`). `Attended` adds that what
objects at variables and methods that were looked at entail has been seen to, transfers apart.
Transfers are among it (`Invariant`) if they start from operands that are watched.

When nothing is pending any more, the facts of the state are closed under the rules
(`Invariant.closed`), and a sound state never says more than a closed set of facts. So a finished run
has found the least closed set, whatever the order was.
-/

namespace PointsTo

/-- No rule hands taint on from the result of a call. Results are not watched, other operands are. -/
def TaintPlan.Watchable (t : TaintPlan) : Prop :=
  ∀ m, ∀ rule ∈ t.transfersOf m, rule.source ≠ .result

theorem TransferPoint.operand_mem {point : TransferPoint} (h : point ≠ .result) {site : CallSite}
    {base : Option VarId} {v : VarId} (hv : point.operand site base = some v) :
    v ∈ site.args ++ base.toList := by
  cases point with
  | base =>
    have hbase : base = some v := hv
    simp [hbase]
  | result => exact absurd rfl h
  | arg index => exact List.mem_append_left _ (List.mem_of_getElem? hv)

variable {C : Type} [Contextual C] {e : Entity} {σ K O : Type}

/-- One step of a run: some pending item is taken and done. -/
inductive Setup.Step (S : Setup C e σ) (s s' : State C e σ) : Prop
  | take (item : WorkItem C e) (rest : WorkList (WorkItem C e)) :
    (item :: rest.toList).Perm s.pending.toList → S.process (s.taken rest) item = .ok s' →
    S.Step s s'

/-- Getting from `s` to `s'` something new was learned, or work was done. -/
structure Meaning.Advance (M : Meaning C e σ K O) (s s' : State C e σ) : Prop where
  grows : M.Extends s s'
  seen : ∀ {m}, s.Seen m → s'.Seen m
  gain : (∃ m, s'.Seen m ∧ ¬ s.Seen m) ∨ (∃ p o, s'.flow.Points p o ∧ ¬ s.flow.Points p o) ∨
    s'.pending.toList.length < s.pending.toList.length

namespace Interpretation

variable {S : Setup C e σ} {R : Interpretation S K O} {F : Facts K O} {entry : MethodId}
  {s s₁ s' : State C e σ} {A A' : Pointer C e → Id e → Prop} {p : Pointer C e}
  {added : PointsToSet e}

/-- What every run keeps, whatever its transfers are: the state is sound and settled. -/
structure Underway (R : Interpretation S K O) (F : Facts K O) (s : State C e σ) : Prop where
  sound : R.Sound F s
  settled : S.Settled s.Seen s

/-- What objects at variables and methods that were looked at entail has been seen to. Transfers were
made of what `A` puts at the operands of calls. -/
structure Attended (R : Interpretation S K O) (F : Facts K O) (entry : MethodId)
    (A : Pointer C e → Id e → Prop) (s : State C e σ) : Prop extends R.Underway F s where
  entry : s.Reaches ⟨S.naming.start, entry⟩
  objects : ∀ {c v o}, s.flow.Points (.var c v) o → R.ObjectHandled A s c v o
  methods : ∀ {m}, s.Seen m → R.MethodHandled A s m

/-- What holds between two steps of a run whose transfers are made whenever they have something to
hand on. -/
structure Invariant (R : Interpretation S K O) (F : Facts K O) (entry : MethodId)
    (s : State C e σ) : Prop extends R.Attended F entry s.flow.Points s

/-- From `s` to `s'` the method `m` was looked at. -/
structure Looked (R : Interpretation S K O) (s s' : State C e σ) (m : MethodIn C) : Prop where
  points : s'.flow.Points = s.flow.Points
  seen : ∀ {m'}, s'.Seen m' ↔ s.Seen m' ∨ m' = m
  handled : R.MethodHandled s.flow.Points s' m

/-- From `s` to `s'` the objects `added` arrived at `p`: they are handled, and if one is a mark, the
calls that watch for it made their transfers again. -/
structure Arrived (R : Interpretation S K O) (s s' : State C e σ) (p : Pointer C e)
    (added : PointsToSet e) : Prop where
  points : ∀ {q o}, s'.flow.Points q o ↔ s.flow.Points q o ∨ q = p ∧ o ∈ added.toList
  seen : ∀ {m}, s'.Seen m ↔ s.Seen m
  named : ∀ o ∈ added.toList, ∃ x, R.meaning.obj s'.names o = some x
  handled : ∀ c v, p = .var c v → ∀ o ∈ added.toList, R.ObjectHandled s'.flow.Points s' c v o
  again : ∀ c v, p = .var c v → ∀ o ∈ added.toList, ∀ x origin,
    R.meaning.obj s'.names o = some x → R.domain.sourceOf x = some origin →
    ∀ t, s.Watches c v t → R.Transferred s'.flow.Points s' t

/-! ## A method's turn -/

theorem Sound.taken (hs : R.Sound F s) {item : WorkItem C e} {rest : WorkList (WorkItem C e)}
    (hperm : (item :: rest.toList).Perm s.pending.toList) : R.Sound F (s.taken rest) where
  valid := hs.valid
  wellFormed := hs.wellFormed.taken hperm
  delivers hd := hs.delivers (State.delivers_of_delivers_taken hperm hd)
  links hl := hs.links hl
  reaches hm := hs.reaches hm
  calls he := hs.calls he
  watches ht := hs.watches ht

theorem extends_takeMethod {M : Meaning C e σ K O} {m : MethodIn C}
    {rest : WorkList (WorkItem C e)} (hperm : (.reach m :: rest.toList).Perm s.pending.toList) :
    M.Extends s (s.taken rest) where
  names := .refl M _
  points := id
  links := id
  delivers := by
    intro p o hd
    rcases hd with hd | ⟨i, delta, hitem, hi, ho⟩
    · exact .inl hd
    · rcases (State.mem_pending_iff hperm).1 hitem with heq | hitem
      · cases heq
      · exact .inr ⟨i, delta, hitem, hi, ho⟩
  reaches := id
  calls := id
  watches := id

section

variable (hF : (R.rules entry).Closed F) (hans : (R.rules entry).Answered F)

include hF in
theorem points_eq (hs : R.Sound F s) (hm : R.Moves F s s') : s'.flow.Points = s.flow.Points := by
  funext p o
  exact propext (Moves.points hF hs hm)

include hF hans in
theorem Underway.takeMethod (h : R.Underway F s) {m : MethodIn C} {rest : WorkList (WorkItem C e)}
    (hperm : (.reach m :: rest.toList).Perm s.pending.toList) :
    ∃ s', S.processMethod m (s.taken rest) = .ok s' ∧ R.Underway F s' ∧ R.meaning.Advance s s' ∧
      R.Looked s s' m := by
  have hs := h.sound.taken hperm
  have hawaited : m ∈ s.awaited :=
    List.mem_filterMap.2 ⟨.reach m, hperm.subset List.mem_cons_self, rfl⟩
  have hreach := h.sound.reaches (h.settled.known.2 (.inl hawaited))
  have hA : ∀ p o, s.flow.Points p o → (s.taken rest).flow.Points p o := fun _ _ ho ↦ ho
  obtain ⟨s', heq, hm, hhandled⟩ := processMethod_leads hF hans hs hA hreach
  have hsettled := (h.settled.takeMethod hperm).moves hF hs hm
  refine ⟨s', heq, ⟨hs.moves hF hm, hsettled.seen⟩, ?_, ?_⟩
  · exact
      { grows := (extends_takeMethod hperm).trans (Moves.extends hF hs hm)
        seen := fun hm' ↦ hsettled.seen_iff.2 (.inl hm')
        gain := .inl ⟨m, hsettled.seen_iff.2 (.inr rfl), fun hseen ↦ hseen.2 hawaited⟩ }
  · exact
      { points := (points_eq hF hs hm).trans rfl
        seen := hsettled.seen_iff
        handled := hhandled }

/-! ## An arrival -/

include hF hans in
/-- What follows an arrival: the new objects are handled, and if one is a mark, so are the calls that
watch for it. -/
theorem arrive_leads (hs : R.Sound F s₁) (hA : ∀ p o, A p o → s₁.flow.Points p o)
    (hadded : ∀ o ∈ added.toList, s₁.flow.Points p o) :
    R.Leads F s₁ (S.arrive p added s₁) fun s' ↦ ∀ c v, p = .var c v → ∀ o ∈ added.toList,
      R.ObjectHandled A s' c v o ∧
      ∀ x origin, R.meaning.obj s'.names o = some x → R.domain.sourceOf x = some origin →
        ∀ t, s₁.Watches c v t → R.Transferred A s' t := by
  have hobj : ∀ o ∈ added.toList, ∃ x, R.meaning.obj s₁.names o = some x := by
    intro o ho
    obtain ⟨P, x, -, hx, -⟩ := hs.delivers (.inl (hadded o ho))
    exact ⟨x, hx⟩
  cases p with
  | var c v =>
    refine (leads_foldlM (fun o s' ↦ R.ObjectHandled A s' c v o) hF hs
      (fun hext ↦ ObjectHandled.extends hext) fun o ho s₂ hm₂ ↦ ?_).bind fun s₂ hm₂ hhandled ↦ ?_
    · have hext := Moves.extends hF hs hm₂
      have ho₂ := (hs.delivers (.inl (hadded o ho))).mono hext.names
      exact objectArrives_leads hF hans (hs.moves hF hm₂) (fun p o ho ↦ hext.points (hA p o ho)) ho₂
    · have hs₂ := hs.moves hF hm₂
      have hext := Moves.extends hF hs hm₂
      have hobj₂ : ∀ o ∈ added.toList, ∃ x, R.meaning.obj s₂.names o = some x := fun o ho ↦
        (hobj o ho).imp fun x hx ↦ hext.names.obj hx
      refine (taintArrives_leads hF hans hs₂ (fun p o ho ↦ hext.points (hA p o ho)) hobj₂).imp ?_
      intro s₃ hm₃ htaint c' v' heq o ho
      obtain ⟨rfl, rfl⟩ := Pointer.var.inj heq
      have hext₃ := Moves.extends hF hs₂ hm₃
      refine ⟨(hhandled o ho).extends hext₃, fun x origin hx horigin t ht ↦ ?_⟩
      obtain ⟨x', hx'⟩ := hobj₂ o ho
      obtain rfl := Option.some.inj ((hext₃.names.obj hx').symm.trans hx)
      exact htaint o ho x' origin hx' horigin t (hext.watches ht)
  | _ => exact leads_ok .refl fun c v h ↦ by cases h

/-- The transfers of a call have nothing to do for new objects other than marks, and were made again
if there are marks. -/
theorem Transferred.arrived (hwatch : ∀ plan, S.taint = some plan → plan.Watchable)
    (hext : R.meaning.Extends s s')
    (hA : ∀ a o, A' a o → A a o ∨ a = p ∧ o ∈ added.toList)
    (hobj : ∀ o ∈ added.toList, ∃ x, R.meaning.obj s'.names o = some x)
    (hagain : ∀ c v, p = .var c v → ∀ o ∈ added.toList, ∀ x origin,
      R.meaning.obj s'.names o = some x → R.domain.sourceOf x = some origin →
      ∀ t, s.Watches c v t → R.Transferred A' s' t)
    {t : TransferSite C} (ht : R.Transferred A s t) : R.Transferred A' s' t := by
  intro plan hplan
  obtain ⟨site, hsite, hwatched, hrules⟩ := ht plan hplan
  refine ⟨site, hsite, fun v hv ↦ hext.watches (hwatched v hv), ?_⟩
  intro rule hrule source target hsource htarget o ho
  rcases hA _ o ho with hold | ⟨rfl, hnew⟩
  · exact (hrules rule hrule source target hsource htarget o hold).extends hext
  obtain ⟨x, hx⟩ := hobj o hnew
  cases horigin : R.domain.sourceOf x with
  | none =>
    refine ⟨x, hx, fun origin h ↦ ?_⟩
    rw [horigin] at h
    cases h
  | some origin =>
    have hmem := TransferPoint.operand_mem (hwatch plan hplan t.callee rule hrule) hsource
    obtain ⟨site', hsite', -, hrules'⟩ :=
      hagain _ source rfl o hnew x origin hx horigin t (hwatched source hmem) plan hplan
    obtain rfl := Except.ok.inj (hsite.symm.trans hsite')
    exact hrules' rule hrule source target hsource htarget o ho

include hF hans in
/-- Whichever objects are taken, they arrive, and all that their arrival entails is seen to. The
state is then under way as it was before. -/
theorem Underway.takeObjects (h : R.Underway F s) {i : PointerId} {delta : PointsToSet e}
    {rest : WorkList (WorkItem C e)}
    (hperm : (.propagate i delta :: rest.toList).Perm s.pending.toList) :
    ∃ s' p added, S.processObjects i delta (s.taken rest) = .ok s' ∧ R.Underway F s' ∧
      R.meaning.Advance s s' ∧ R.Arrived s s' p added := by
  obtain ⟨p, added, s₁, hprop, heq, hshort⟩ := S.processObjects_eq h.sound.wellFormed hperm
  have hs₁ := h.sound.propagated hF hprop
  have hadded : ∀ o ∈ added.toList, s₁.flow.Points p o := fun o ho ↦ hprop.points.2 (.inr ⟨rfl, ho⟩)
  obtain ⟨s', heq', hm, hdone⟩ := arrive_leads hF hans hs₁ (fun _ _ ho ↦ ho) hadded
  have hsettled := (h.settled.propagated hprop).moves hF hs₁ hm
  have hext := Moves.extends hF hs₁ hm
  have hpoints : s'.flow.Points = s₁.flow.Points := points_eq hF hs₁ hm
  refine ⟨s', p, added, heq.trans heq', ⟨hs₁.moves hF hm, hsettled.seen⟩, ?_, ?_⟩
  · refine ⟨(hprop.extends R.meaning).trans hext, hsettled.seen_iff.2, ?_⟩
    by_cases hempty : added.isEmpty = true
    · -- Nothing arrived, so nothing follows and one item less is pending.
      rw [S.arrive_of_isEmpty p hempty] at heq'
      obtain rfl := Except.ok.inj heq'
      refine .inr (.inr ?_)
      rw [hshort hempty, ← hperm.length_eq, List.length_cons]
      exact Nat.lt_succ_self _
    · have hne : added.toList ≠ [] := fun hnil ↦ hempty (PointsToSet.isEmpty_iff.2 hnil)
      obtain ⟨o, ho⟩ := List.exists_mem_of_ne_nil _ hne
      refine .inr (.inl ⟨p, o, ?_, (hprop.fresh ho).2⟩)
      rw [hpoints]
      exact hadded o ho
  · constructor
    case points =>
      intro q o
      rw [hpoints]
      exact hprop.points
    case seen => exact hsettled.seen_iff
    case named =>
      intro o ho
      obtain ⟨P, x, -, hx, -⟩ := hs₁.delivers (.inl (hadded o ho))
      exact ⟨x, hext.names.obj hx⟩
    case handled =>
      intro c v hp o ho
      rw [hpoints]
      exact (hdone c v hp o ho).1
    case again =>
      intro c v hp o ho x origin hx horigin t ht
      rw [hpoints]
      exact (hdone c v hp o ho).2 x origin hx horigin t ((hprop.extends R.meaning).watches ht)

/-! ## Runs -/

include hF hans in
/-- Whatever item is taken, doing it succeeds and gets on. -/
theorem Underway.take (h : R.Underway F s) {item : WorkItem C e} {rest : WorkList (WorkItem C e)}
    (hperm : (item :: rest.toList).Perm s.pending.toList) :
    ∃ s', S.process (s.taken rest) item = .ok s' ∧ R.Underway F s' ∧ R.meaning.Advance s s' := by
  cases item with
  | propagate i delta =>
    obtain ⟨s', _, _, heq, hunder, hadv, -⟩ := h.takeObjects hF hans hperm
    exact ⟨s', heq, hunder, hadv⟩
  | reach m =>
    obtain ⟨s', heq, hunder, hadv, -⟩ := h.takeMethod hF hans hperm
    exact ⟨s', heq, hunder, hadv⟩

include hF hans in
theorem Underway.step (h : R.Underway F s) (hstep : S.Step s s') :
    R.Underway F s' ∧ R.meaning.Advance s s' := by
  obtain ⟨item, rest, hperm, heq⟩ := hstep
  obtain ⟨s'', heq', hunder, hadv⟩ := h.take hF hans hperm
  obtain rfl := Except.ok.inj (heq.symm.trans heq')
  exact ⟨hunder, hadv⟩

include hF hans in
theorem Underway.steps (h : R.Underway F s) (hsteps : Relation.ReflTransGen S.Step s s') :
    R.Underway F s' := by
  induction hsteps with
  | refl => exact h
  | tail _ hstep ih => exact (ih.step hF hans hstep).1

section

variable (hunder : R.Underway F s') (hadv : R.meaning.Advance s s')
  (ht : ∀ t, R.Transferred A s t → R.Transferred A' s' t)

include hunder hadv ht

theorem Attended.looked (h : R.Attended F entry A s) {m : MethodIn C} (hlooked : R.Looked s s' m)
    (hA : ∀ p o, A' p o → s.flow.Points p o) : R.Attended F entry A' s' where
  toUnderway := hunder
  entry := hadv.grows.reaches h.entry
  objects := by
    intro c v o ho
    rw [hlooked.points] at ho
    exact (h.objects ho).mono hadv.grows ht
  methods := by
    intro m' hm'
    rcases hlooked.seen.1 hm' with hm' | rfl
    · exact (h.methods hm').mono hadv.grows ht
    · exact hlooked.handled.mono (.refl _ s') fun _ ↦ Transferred.anti hA

theorem Attended.arrived (h : R.Attended F entry A s) (harrived : R.Arrived s s' p added)
    (hA : ∀ p o, A' p o → s'.flow.Points p o) : R.Attended F entry A' s' where
  toUnderway := hunder
  entry := hadv.grows.reaches h.entry
  objects := by
    intro c v o ho
    rcases harrived.points.1 ho with ho | ⟨hp, ho⟩
    · exact (h.objects ho).mono hadv.grows ht
    · exact (harrived.handled c v hp.symm o ho).mono (.refl _ s') fun _ ↦ Transferred.anti hA
  methods hm' := (h.methods (harrived.seen.1 hm')).mono hadv.grows ht

end

include hF hans in
/-- Whatever its transfers are, a run sees to everything else. -/
theorem Attended.step (h : R.Attended F entry (fun _ _ ↦ False) s) (hstep : S.Step s s') :
    R.Attended F entry (fun _ _ ↦ False) s' := by
  obtain ⟨item, rest, hperm, heq⟩ := hstep
  cases item with
  | propagate i delta =>
    obtain ⟨s'', _, _, heq', hunder, hadv, harrived⟩ := h.takeObjects hF hans hperm
    obtain rfl := Except.ok.inj (heq.symm.trans heq')
    exact h.arrived hunder hadv (fun _ ↦ Transferred.extends hadv.grows) harrived fun _ _ ↦ False.elim
  | reach m =>
    obtain ⟨s'', heq', hunder, hadv, hlooked⟩ := h.takeMethod hF hans hperm
    obtain rfl := Except.ok.inj (heq.symm.trans heq')
    exact h.looked hunder hadv (fun _ ↦ Transferred.extends hadv.grows) hlooked fun _ _ ↦ False.elim

include hF hans in
theorem Attended.steps (h : R.Attended F entry (fun _ _ ↦ False) s)
    (hsteps : Relation.ReflTransGen S.Step s s') : R.Attended F entry (fun _ _ ↦ False) s' := by
  induction hsteps with
  | refl => exact h
  | tail _ hstep ih => exact ih.step hF hans hstep

theorem Invariant.looked (h : R.Invariant F entry s) (hunder : R.Underway F s')
    (hadv : R.meaning.Advance s s') {m : MethodIn C} (hlooked : R.Looked s s' m) :
    R.Invariant F entry s' := by
  constructor
  rw [hlooked.points]
  exact h.toAttended.looked hunder hadv (fun _ ↦ Transferred.extends hadv.grows) hlooked fun _ _ ↦ id

section

variable (hwatch : ∀ plan, S.taint = some plan → plan.Watchable)

include hwatch

theorem Invariant.arrived (h : R.Invariant F entry s) (hunder : R.Underway F s')
    (hadv : R.meaning.Advance s s') (harrived : R.Arrived s s' p added) :
    R.Invariant F entry s' := by
  -- What was handled before stays handled, with the new objects to be considered by transfers.
  have htransferred : ∀ t, R.Transferred s.flow.Points s t → R.Transferred s'.flow.Points s' t :=
    fun t ht ↦ ht.arrived hwatch hadv.grows (fun a o ho ↦ harrived.points.1 ho) harrived.named
      harrived.again
  exact ⟨h.toAttended.arrived hunder hadv htransferred harrived fun _ _ ↦ id⟩

include hF hans

/-- Whatever item is taken, doing it keeps the invariant. -/
theorem Invariant.take (h : R.Invariant F entry s) {item : WorkItem C e}
    {rest : WorkList (WorkItem C e)} (hperm : (item :: rest.toList).Perm s.pending.toList) :
    ∃ s', S.process (s.taken rest) item = .ok s' ∧ R.Invariant F entry s' := by
  cases item with
  | propagate i delta =>
    obtain ⟨s', _, _, heq, hunder, hadv, harrived⟩ := h.takeObjects hF hans hperm
    exact ⟨s', heq, h.arrived hwatch hunder hadv harrived⟩
  | reach m =>
    obtain ⟨s', heq, hunder, hadv, hlooked⟩ := h.takeMethod hF hans hperm
    exact ⟨s', heq, h.looked hunder hadv hlooked⟩

theorem Invariant.step (h : R.Invariant F entry s) (hstep : S.Step s s') :
    R.Invariant F entry s' := by
  obtain ⟨item, rest, hperm, heq⟩ := hstep
  obtain ⟨s'', heq', hinv⟩ := h.take hF hans hwatch hperm
  obtain rfl := Except.ok.inj (heq.symm.trans heq')
  exact hinv

theorem Invariant.steps (h : R.Invariant F entry s) (hsteps : Relation.ReflTransGen S.Step s s') :
    R.Invariant F entry s' := by
  induction hsteps with
  | refl => exact h
  | tail _ hstep ih => exact ih.step hF hans hwatch hstep

end

end

end Interpretation

end PointsTo
