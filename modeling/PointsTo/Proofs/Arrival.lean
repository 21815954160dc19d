import PointsTo.Proofs.Step
import PointsTo.Solver.Run

/-!
# Arrivals

The one thing a solver does that is not a move: a pending item is taken, and objects arrive at a
pointer. What is known before is known afterwards (`Extends`); the objects that are new at the pointer
are on their way to everything linked to it. Items may be taken in any order, so the item that is taken
is any of those that are pending.
-/

namespace PointsTo

namespace State

variable {C : Type} [Contextual C] {e : Entity} {σ : Type} {s s₁ : State C e σ}

/-- The method was looked at: it is reachable and does not wait any more. -/
def Seen (s : State C e σ) (m : MethodIn C) : Prop := s.Reaches m ∧ m ∉ s.awaited

/-- The state after taking an item, with the items that are left. -/
def taken (s : State C e σ) (rest : WorkList (WorkItem C e)) : State C e σ :=
  { s with pending := rest, iterations := s.iterations + 1 }

section

variable {item : WorkItem C e} {rest : WorkList (WorkItem C e)}
  (hperm : (item :: rest.toList).Perm s.pending.toList)

include hperm

theorem mem_of_mem_rest {a : WorkItem C e} (h : a ∈ rest.toList) : a ∈ s.pending.toList :=
  hperm.subset (List.mem_cons_of_mem _ h)

theorem mem_pending_iff {a : WorkItem C e} : a ∈ s.pending.toList ↔ a = item ∨ a ∈ rest.toList := by
  rw [← hperm.mem_iff, List.mem_cons]

theorem delivers_of_delivers_taken {p : Pointer C e} {o : Id e}
    (h : (s.taken rest).Delivers p o) : s.Delivers p o := by
  rcases h with h | ⟨i, delta, hitem, hi, ho⟩
  · exact .inl h
  · exact .inr ⟨i, delta, mem_of_mem_rest hperm hitem, hi, ho⟩

theorem WellFormed.taken (hs : s.WellFormed) : (s.taken rest).WellFormed where
  flow := hs.flow
  pending h := hs.pending (mem_of_mem_rest hperm h)

end

theorem WellFormed.item (hs : s.WellFormed) {i : PointerId} {delta : PointsToSet e}
    {rest : WorkList (WorkItem C e)}
    (hperm : (.propagate i delta :: rest.toList).Perm s.pending.toList) :
    delta.Ascending ∧ ∃ p, s.flow.Stands i p :=
  hs.pending (hperm.subset List.mem_cons_self)

/-- What `s₁` is once the objects `added` have arrived at `p`. -/
structure Propagated (s : State C e σ) (p : Pointer C e) (added : PointsToSet e)
    (s₁ : State C e σ) : Prop where
  names : s₁.names = s.names
  calls : s₁.calls = s.calls
  watchers : s₁.watchers = s.watchers
  wellFormed : s₁.WellFormed
  points : ∀ {a o}, s₁.flow.Points a o ↔ s.flow.Points a o ∨ a = p ∧ o ∈ added.toList
  links : ∀ {a b}, s₁.flow.Links a b ↔ s.flow.Links a b
  has : ∀ {a}, s₁.flow.Has a → s.flow.Has a
  fresh : ∀ {o}, o ∈ added.toList → s.Delivers p o ∧ ¬ s.flow.Points p o
  delivers : ∀ {a o}, s.Delivers a o → s₁.Delivers a o
  sent : ∀ {a o}, s.flow.Links p a → o ∈ added.toList → s₁.Delivers a o
  origin : ∀ {a o}, s₁.Delivers a o → s.Delivers a o ∨ s.flow.Links p a ∧ o ∈ added.toList
  awaited : s₁.awaited.Perm s.awaited

/-- An item may be taken from any place of the work list. It is enough that its objects have arrived
in the flow graph, and that those which are new there are pending for all successors and for nothing
else. -/
theorem Propagated.of_arrived (hs : s.WellFormed) {i : PointerId} {delta added : PointsToSet e}
    {rest : WorkList (WorkItem C e)} {p : Pointer C e} {succs : List PointerId}
    {extra : List (WorkItem C e)}
    (hperm : (.propagate i delta :: rest.toList).Perm s.pending.toList) (hi : s.flow.Stands i p)
    (hnames : s₁.names = s.names) (hcalls : s₁.calls = s.calls)
    (hwatchers : s₁.watchers = s.watchers)
    (harr : FlowGraph.Arrived s.flow p delta s₁.flow added succs)
    (hpending : s₁.pending.toList = rest.toList ++ extra)
    (hextra : ∀ a ∈ extra, ∃ j ∈ succs, a = .propagate j added)
    (hsent : ∀ o ∈ added.toList, ∀ j ∈ succs, .propagate j added ∈ extra) :
    s.Propagated p added s₁ where
  names := hnames
  calls := hcalls
  watchers := hwatchers
  wellFormed :=
    { flow := harr.wellFormed
      pending := by
        intro j delta' hitem
        rw [hpending, List.mem_append] at hitem
        rcases hitem with hitem | hitem
        · obtain ⟨hasc, q, hq⟩ := hs.pending (mem_of_mem_rest hperm hitem)
          exact ⟨hasc, q, harr.stands.2 hq⟩
        · obtain ⟨j', hj', heq⟩ := hextra _ hitem
          obtain ⟨rfl, rfl⟩ := WorkItem.propagate.inj heq
          obtain ⟨q, hq⟩ := harr.succs_stand hj'
          exact ⟨harr.ascending, q, harr.stands.2 hq⟩ }
  points := by
    intro a o
    rw [harr.points, harr.added_iff]
    by_cases ho : s.flow.Points a o
    · simp [ho]
    · constructor
      · intro h
        rcases h with h | ⟨rfl, hd⟩
        · exact absurd h ho
        · exact .inr ⟨rfl, hd, ho⟩
      · intro h
        rcases h with h | ⟨rfl, hd, -⟩
        · exact absurd h ho
        · exact .inr ⟨rfl, hd⟩
  links := harr.links
  has := fun ⟨j, hj⟩ ↦ ⟨j, harr.stands.1 hj⟩
  fresh := by
    intro o ho
    obtain ⟨hd, hnew⟩ := harr.added_iff.1 ho
    exact ⟨.inr ⟨i, delta, hperm.subset List.mem_cons_self, hi, hd⟩, hnew⟩
  delivers := by
    intro a o h
    rcases h with h | ⟨j, delta', hitem, hj, ho⟩
    · exact .inl (harr.points.2 (.inl h))
    · rcases (mem_pending_iff hperm).1 hitem with heq | hitem
      · -- The objects of the taken item are there now.
        obtain ⟨rfl, rfl⟩ := WorkItem.propagate.inj heq
        obtain rfl := hi.pointer_inj hj
        exact .inl (harr.points.2 (.inr ⟨rfl, ho⟩))
      · refine .inr ⟨j, delta', ?_, harr.stands.2 hj, ho⟩
        rw [hpending]
        exact List.mem_append_left _ hitem
  sent := by
    intro a o hlink ho
    obtain ⟨n, j, -, -, hj⟩ := id hlink
    refine .inr ⟨j, added, ?_, harr.stands.2 hj, ho⟩
    rw [hpending]
    exact List.mem_append_right _ (hsent o ho j ((harr.succs_iff hj).2 hlink))
  origin := by
    intro a o h
    rcases h with h | ⟨j, delta', hitem, hj, ho⟩
    · rcases harr.points.1 h with h | ⟨rfl, ho⟩
      · exact .inl (.inl h)
      · exact .inl (.inr ⟨i, delta, hperm.subset List.mem_cons_self, hi, ho⟩)
    · rw [hpending, List.mem_append] at hitem
      have hj := harr.stands.1 hj
      rcases hitem with hitem | hitem
      · exact .inl (.inr ⟨j, delta', mem_of_mem_rest hperm hitem, hj, ho⟩)
      · obtain ⟨j', hj', heq⟩ := hextra _ hitem
        obtain ⟨rfl, rfl⟩ := WorkItem.propagate.inj heq
        exact .inr ⟨(harr.succs_iff hj).1 hj', ho⟩
  awaited := by
    have hnone : extra.filterMap WorkItem.method? = [] := by
      rw [List.filterMap_eq_nil_iff]
      intro a ha
      obtain ⟨j, -, rfl⟩ := hextra a ha
      rfl
    have hawaited : s₁.awaited = rest.toList.filterMap WorkItem.method? := by
      rw [State.awaited, hpending, List.filterMap_append, hnone, List.append_nil]
    rw [hawaited]
    exact hperm.filterMap WorkItem.method?

end State

theorem WorkList.toList_foldl_push {α β : Type} (w : WorkList α) (f : β → α) (bs : List β) :
    (bs.foldl (fun w b ↦ w.push (f b)) w).toList = w.toList ++ bs.map f := by
  induction bs generalizing w with
  | nil => simp
  | cons b bs ih => simp [ih]

namespace Setup

variable {C : Type} [Contextual C] {e : Entity} {σ : Type}

/-- What follows once objects have arrived at a pointer. -/
def arrive (S : Setup C e σ) (p : Pointer C e) (added : PointsToSet e) (s : State C e σ) :
    Except UnknownId (State C e σ) :=
  match p with
  | .var c v => do
    let s ← added.toList.foldlM (S.objectArrives c v) s
    S.taintArrives c v added s
  | _ => .ok s

/-- Nothing follows if nothing arrived. -/
theorem arrive_of_isEmpty (S : Setup C e σ) (p : Pointer C e) {added : PointsToSet e}
    (h : added.isEmpty = true) (s : State C e σ) : S.arrive p added s = .ok s := by
  have hnil : added.toList = [] := PointsToSet.isEmpty_iff.1 h
  cases p with
  | var c v =>
    cases htaint : S.taint with
    | none => simp [arrive, taintArrives, hnil, htaint, bind, Except.bind, pure, Except.pure]
    | some plan => simp [arrive, taintArrives, hnil, htaint, bind, Except.bind, pure, Except.pure]
  | _ => rfl

/-- An item is done by letting its objects arrive and then seeing to what follows. -/
theorem processObjects_eq (S : Setup C e σ) {s : State C e σ} (hs : s.WellFormed) {i : PointerId}
    {delta : PointsToSet e} {rest : WorkList (WorkItem C e)}
    (hperm : (.propagate i delta :: rest.toList).Perm s.pending.toList) :
    ∃ p added s₁, s.Propagated p added s₁ ∧
      S.processObjects i delta (s.taken rest) = S.arrive p added s₁ ∧
      (added.isEmpty = true → s₁.pending = rest) := by
  obtain ⟨hasc, p, hi⟩ := hs.item hperm
  obtain ⟨g, added, n, hpropagate, hentry, harr⟩ := hs.flow.propagate hi hasc
  have hpropagate' : (s.taken rest).flow.propagate i delta = .ok (g, added) := hpropagate
  by_cases hempty : added.isEmpty = true
  · have hnil : added.toList = [] := PointsToSet.isEmpty_iff.1 hempty
    refine ⟨p, added, { s.taken rest with flow := g }, ?_, ?_, fun _ ↦ rfl⟩
    · have hpending : (s.taken rest).pending.toList = rest.toList ++ [] := (List.append_nil _).symm
      refine .of_arrived hs hperm hi rfl rfl rfl harr hpending ?_ ?_
      · intro a ha
        simp at ha
      · intro o ho
        simp [hnil] at ho
    · rw [S.arrive_of_isEmpty p hempty]
      simp [processObjects, hpropagate', hentry, hempty, bind, Except.bind, pure, Except.pure]
  · let pending := n.succs.foldl (fun w j ↦ w.push (.propagate j added)) rest
    have hpending : pending.toList = rest.toList ++ n.succs.map (.propagate · added) :=
      WorkList.toList_foldl_push rest (.propagate · added) n.succs
    refine ⟨p, added, { s.taken rest with
      flow := g, pending, propagations := s.propagations + 1 }, ?_, ?_, fun h ↦ absurd h hempty⟩
    · refine .of_arrived hs hperm hi rfl rfl rfl harr hpending ?_ ?_
      · intro a ha
        obtain ⟨j, hj, rfl⟩ := List.mem_map.1 ha
        exact ⟨j, hj, rfl⟩
      · intro o _ j hj
        exact List.mem_map.2 ⟨j, hj, rfl⟩
    · simp only [processObjects, hpropagate', hentry, hempty, bind, Except.bind]
      cases p <;> rfl

end Setup

/-! ## What an arrival preserves -/

section

variable {C : Type} [Contextual C] {e : Entity} {σ K O : Type} {S : Setup C e σ}
  {s s₁ : State C e σ} {p : Pointer C e} {added : PointsToSet e}

theorem State.Propagated.extends (h : s.Propagated p added s₁) (M : Meaning C e σ K O) :
    M.Extends s s₁ where
  names := h.names ▸ .refl M _
  points ho := h.points.2 (.inl ho)
  links := h.links.2
  delivers := h.delivers
  reaches hm := by rwa [State.Reaches, h.calls]
  calls he := by rwa [State.Calls, h.calls]
  watches ht := by rwa [State.Watches, h.watchers]

/-- Objects only arrive where they were sent, and are only sent along links. -/
theorem Interpretation.Sound.propagated {R : Interpretation S K O} {F : Facts K O}
    {entry : MethodId} (hF : (R.rules entry).Closed F) (hs : R.Sound F s)
    (h : s.Propagated p added s₁) : R.Sound F s₁ := by
  constructor
  case valid =>
    rw [h.names]
    exact hs.valid
  case wellFormed => exact h.wellFormed
  case delivers =>
    intro a o hd
    rw [h.names]
    rcases h.origin hd with hd | ⟨hlink, ho⟩
    · exact hs.delivers hd
    · exact (hs.links hlink).pts hF (hs.delivers (h.fresh ho).1)
  case links =>
    intro a b hlink
    rw [h.names]
    exact hs.links (h.links.1 hlink)
  case reaches =>
    intro m hm
    rw [State.Reaches, h.calls] at hm
    rw [h.names]
    exact hs.reaches hm
  case calls =>
    intro edge he
    rw [State.Calls, h.calls] at he
    rw [h.names]
    exact hs.calls he
  case watches =>
    intro c v t ht
    rw [State.Watches, h.watchers] at ht
    rw [h.names]
    exact hs.watches ht

/-- What arrives is sent on along every link, so that a settled state stays settled. -/
theorem Setup.Settled.propagated {done : MethodIn C → Prop} (hs : S.Settled done s)
    (h : s.Propagated p added s₁) : S.Settled done s₁ := by
  constructor
  case flowing =>
    intro a b o hlink ho
    rw [h.links] at hlink
    rcases h.points.1 ho with ho | ⟨rfl, ho⟩
    · exact h.delivers (hs.flowing a b o hlink ho)
    · exact h.sent hlink ho
  case reaches =>
    simp only [State.Calls, State.Reaches, h.calls]
    exact hs.reaches
  case bound =>
    intro edge site he hsite flow hflow
    rw [State.Calls, h.calls] at he
    exact h.links.2 (hs.bound he hsite flow hflow)
  case nodup => exact h.awaited.nodup_iff.2 hs.nodup
  case known =>
    intro m
    rw [State.Reaches, h.calls, h.awaited.mem_iff]
    exact hs.known
  case apart =>
    intro m hm
    exact hs.apart (h.awaited.mem_iff.1 hm)

/-- Only a method's turn to be looked at is not an arrival; it takes the method off the list. -/
theorem Setup.Settled.takeMethod {m : MethodIn C} {rest : WorkList (WorkItem C e)}
    (hs : S.Settled s.Seen s) (hperm : (.reach m :: rest.toList).Perm s.pending.toList) :
    S.Settled (fun m' ↦ s.Seen m' ∨ m' = m) (s.taken rest) := by
  have hawaited : (m :: (s.taken rest).awaited).Perm s.awaited := hperm.filterMap WorkItem.method?
  have hnodup : (m :: (s.taken rest).awaited).Nodup := hawaited.nodup_iff.2 hs.nodup
  have hmem : ∀ {m'}, m' ∈ s.awaited ↔ m' = m ∨ m' ∈ (s.taken rest).awaited := by
    intro m'
    rw [← hawaited.mem_iff, List.mem_cons]
  constructor
  case flowing =>
    intro a b o hlink ho
    rcases hs.flowing a b o hlink ho with h | ⟨i, delta, hitem, hi, hd⟩
    · exact .inl h
    · rcases (State.mem_pending_iff hperm).1 hitem with heq | hitem
      · cases heq
      · exact .inr ⟨i, delta, hitem, hi, hd⟩
  case reaches => exact hs.reaches
  case bound => exact hs.bound
  case nodup => exact (List.nodup_cons.1 hnodup).2
  case known =>
    intro m'
    have hknown : s.Reaches m' ↔ m' ∈ s.awaited ∨ s.Seen m' := hs.known
    change s.Reaches m' ↔ _
    rw [hknown, hmem]
    tauto
  case apart =>
    intro m' hm' hdone
    rcases hdone with hseen | rfl
    · exact hseen.2 (hmem.2 (.inr hm'))
    · exact (List.nodup_cons.1 hnodup).1 hm'

/-- The methods that were looked at can be told from the state. -/
theorem Setup.Settled.seen_iff {done : MethodIn C → Prop} (hs : S.Settled done s) {m : MethodIn C} :
    s.Seen m ↔ done m := by
  constructor
  · intro h
    exact (hs.known.1 h.1).resolve_left h.2
  · intro h
    exact ⟨hs.known.2 (.inr h), fun hm ↦ hs.apart hm h⟩

theorem Setup.Settled.seen {done : MethodIn C → Prop} (hs : S.Settled done s) :
    S.Settled s.Seen s := by
  have heq : s.Seen = done := funext fun m ↦ propext hs.seen_iff
  rw [heq]
  exact hs

end

end PointsTo
