import PointsTo.Proofs.Exactness

/-!
# The pointers that a run numbers

A pointer gets a number when an object is sent to it or when it is linked to another one, and for no
other reason (`State.Anchored`). Every move keeps to this and arrivals give no numbers, so it holds
along all runs. The pointers of a finished run are therefore the places that its facts mention
(`Ready.mentions_of_has`, `Ready.has_of_mentions`): places that refer to something, and ends of flows
even if nothing flows there.
-/

namespace PointsTo

variable {C : Type} [Contextual C] {e : Entity} {σ K O : Type}

/-- The place refers to something, or it is an end of a flow. -/
def Facts.Mentions (F : Facts K O) (p : Program) (P : Place K O) : Prop :=
  (∃ x, F.pts P x) ∨ (∃ Q, F.Feeds p P Q) ∨ ∃ Q, F.Feeds p Q P

namespace State

variable {s s' : State C e σ} {p : Pointer C e}

/-- An object is at the pointer or on its way there, or the pointer is an end of a link. -/
def Touches (s : State C e σ) (p : Pointer C e) : Prop :=
  (∃ o, s.Delivers p o) ∨ (∃ q, s.flow.Links p q) ∨ ∃ q, s.flow.Links q p

theorem Touches.extends {M : Meaning C e σ K O} (h : M.Extends s s') (ht : s.Touches p) :
    s'.Touches p :=
  ht.imp (fun ⟨o, ho⟩ ↦ ⟨o, h.delivers ho⟩)
    (Or.imp (fun ⟨q, hq⟩ ↦ ⟨q, h.links hq⟩) fun ⟨q, hq⟩ ↦ ⟨q, h.links hq⟩)

/-- No pointer has a number without a reason. -/
def Anchored (s : State C e σ) : Prop := ∀ p, s.flow.Has p → s.Touches p

/-- A state that knows more and has given no numbers since is anchored as well. -/
theorem Anchored.extends {M : Meaning C e σ K O} (ha : s.Anchored) (h : M.Extends s s')
    (hhas : ∀ {p}, s'.flow.Has p → s.flow.Has p ∨ s'.Touches p) : s'.Anchored := by
  intro p hp
  rcases hhas hp with hp | hp
  · exact (ha p hp).extends h
  · exact hp

theorem anchored_initial (S : Setup C e σ) (names : σ) (order : WorkOrder) (entry : MethodId) :
    (S.initial names order entry).Anchored := by
  intro p hp
  exact absurd hp FlowGraph.not_has_empty

end State

namespace Interpretation

variable {S : Setup C e σ} {R : Interpretation S K O} {F : Facts K O} {entry : MethodId}
  {s s' : State C e σ}

/-! ## Moves and steps -/

/-- A move gives numbers only to pointers that it sends something to or links. -/
theorem Move.touches (h : R.Sound F s) (hm : R.Move F s s') {p : Pointer C e}
    (hp : s'.flow.Has p) : s.flow.Has p ∨ s'.Touches p := by
  have hs := h.wellFormed
  cases hm with
  | name _ _ => exact .inl hp
  | seed _ =>
    rcases FlowGraph.has_node.1 hp with hp | rfl
    · exact .inl hp
    · exact .inr (.inl ⟨_, hs.delivers_seed.2 (.inr ⟨rfl, rfl⟩)⟩)
  | link _ =>
    rcases hs.has_link hp with hp | rfl | rfl
    · exact .inl hp
    · exact .inr (.inr (.inl ⟨_, hs.links_link.2 (.inr ⟨rfl, rfl⟩)⟩))
    · exact .inr (.inr (.inr ⟨_, hs.links_link.2 (.inr ⟨rfl, rfl⟩)⟩))
  | @connect id site callee _ _ =>
    by_cases hnew : s.Calls ⟨site.kind, id, callee⟩
    · rw [State.connect_of_calls hnew] at hp
      exact .inl hp
    · have hc := hs.connect (S := S) hnew
      rcases hc.has hp with hp | ⟨q, hq | hq⟩
      · exact .inl hp
      · exact .inr (.inr (.inl ⟨q, hc.links.2 (.inr hq)⟩))
      · exact .inr (.inr (.inr ⟨q, hc.links.2 (.inr hq)⟩))
  | watch _ => exact .inl hp

theorem Moves.anchored (hF : (R.rules entry).Closed F) (h : R.Sound F s) (hm : R.Moves F s s')
    (ha : s.Anchored) : s'.Anchored := by
  induction hm with
  | refl => exact ha
  | tail hm hstep ih =>
    have hs := h.moves hF hm
    exact ih.extends (hstep.extends hs) (hstep.touches hs)

/-- A step takes an item, which gives no numbers, and goes on by moves. -/
theorem Underway.anchored_step (hF : (R.rules entry).Closed F) (hans : (R.rules entry).Answered F)
    (h : R.Underway F s) (hstep : S.Step s s') (ha : s.Anchored) : s'.Anchored := by
  obtain ⟨item, rest, hperm, heq⟩ := hstep
  cases item with
  | reach m =>
    have hs := h.sound.taken hperm
    have hreach : s.Reaches m := h.settled.known.2
      (.inl (List.mem_filterMap.2 ⟨.reach m, hperm.subset List.mem_cons_self, rfl⟩))
    obtain ⟨s'', heq', hm, -⟩ :=
      processMethod_leads (A := s.flow.Points) hF hans hs (fun _ _ ho ↦ ho) (h.sound.reaches hreach)
    obtain rfl := Except.ok.inj (heq.symm.trans heq')
    have htaken : (s.taken rest).Anchored :=
      ha.extends (extends_takeMethod (M := R.meaning) hperm) .inl
    exact hm.anchored hF hs htaken
  | propagate i delta =>
    obtain ⟨p, added, s₁, hprop, hprocess, -⟩ := S.processObjects_eq h.sound.wellFormed hperm
    have hs₁ := h.sound.propagated hF hprop
    obtain ⟨s'', heq', hm, -⟩ := arrive_leads (A := s₁.flow.Points) hF hans hs₁ (fun _ _ ho ↦ ho)
      fun o ho ↦ hprop.points.2 (.inr ⟨rfl, ho⟩)
    obtain rfl := Except.ok.inj (heq.symm.trans (hprocess.trans heq'))
    have harrived : s₁.Anchored :=
      ha.extends (hprop.extends R.meaning) fun hp ↦ .inl (hprop.has hp)
    exact hm.anchored hF hs₁ harrived

/-! ## Finished runs -/

theorem Confined.anchored {names : σ} {U : Facts K O} (h : R.Confined names entry U)
    {order : WorkOrder} (hs : Relation.ReflTransGen S.Step (S.initial names order entry) s) :
    s.Anchored := by
  induction hs with
  | refl => exact State.anchored_initial S names order entry
  | tail hs hstep ih => exact (h.attended hs).toUnderway.anchored_step h.closed h.answered hstep ih

section

variable {names : σ} {U : Facts K O} (h : R.Ready names entry U) {order : WorkOrder}
  (hs : Relation.ReflTransGen S.Step (S.initial names order entry) s)

include h hs

variable (hfin : s.Finished)

include hfin

/-- A finished run keeps to its own facts. -/
theorem Ready.exact : R.Invariant (s.facts R.meaning) entry s := by
  have hinv := h.invariant hs
  have hclosed := hinv.closed hfin
  have hanswered := h.answered.mono hinv.sound.facts_le
  exact (Invariant.initial hclosed h.valid order).steps hclosed hanswered h.watchable hs

/-- Every pointer with a number is a place, and one that the facts mention. -/
theorem Ready.mentions_of_has {p : Pointer C e} (hp : s.flow.Has p) :
    ∃ P, R.meaning.place s.names p = some P ∧ (s.facts R.meaning).Mentions S.program P := by
  have hsound := (h.exact hs hfin).sound
  rcases h.toConfined.anchored hs p hp with ⟨o, ho⟩ | ⟨q, hq⟩ | ⟨q, hq⟩
  · obtain ⟨P, x, hP, -, hpts⟩ := hsound.delivers ho
    exact ⟨P, hP, .inl ⟨x, hpts⟩⟩
  · obtain ⟨P, Q, hP, -, hfeeds⟩ := hsound.links hq
    exact ⟨P, hP, .inr (.inl ⟨Q, hfeeds⟩)⟩
  · obtain ⟨Q, P, -, hP, hfeeds⟩ := hsound.links hq
    exact ⟨P, hP, .inr (.inr ⟨Q, hfeeds⟩)⟩

/-- Every place that the facts mention has a number. -/
theorem Ready.has_of_mentions {P : Place K O} (hP : (s.facts R.meaning).Mentions S.program P) :
    ∃ p, R.meaning.place s.names p = some P ∧ s.flow.Has p := by
  have hinv := h.invariant hs
  rcases hP with ⟨x, p, o, hp, -, hpts⟩ | ⟨Q, hfeeds⟩ | ⟨Q, hfeeds⟩
  · exact ⟨p, hp, hpts.has⟩
  · obtain ⟨p, q, hp, -, hlink⟩ := hinv.linked hfin hfeeds
    exact ⟨p, hp, hlink.has_source⟩
  · obtain ⟨q, p, -, hp, hlink⟩ := hinv.linked hfin hfeeds
    exact ⟨p, hp, hlink.has_target⟩

end

end Interpretation

end PointsTo
