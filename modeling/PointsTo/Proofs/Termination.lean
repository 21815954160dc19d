import PointsTo.Proofs.Finished
import Mathlib.Data.Set.Card

/-!
# Runs come to an end

Between two steps a run either learns something new or has less to do. If some closed set of facts is
finite there is only finitely much to learn, so no order of steps goes on for ever
(`Underway.acc`), and a run that always takes the next item finishes after some number of them
(`Underway.runFor_finishes`) and returns the state it has then (`Underway.run_finishes`).
-/

namespace PointsTo

variable {C : Type} [Contextual C] {e : Entity} {σ K O : Type}

/-! ## The first state -/

namespace Setup

variable (S : Setup C e σ) (names : σ) (order : WorkOrder) (entry : MethodId)

theorem initial_eq : S.initial names order entry =
    { names, pending := { order, back := [.reach ⟨S.naming.start, entry⟩] },
      calls := ((CallGraph.addEntry {} ⟨S.naming.start, entry⟩).addReachable
        ⟨S.naming.start, entry⟩).1 } := rfl

variable {S names order entry}

theorem reaches_initial {m : MethodIn C} :
    (S.initial names order entry).Reaches m ↔ m = ⟨S.naming.start, entry⟩ := by
  unfold initial
  rw [State.reaches_reach]
  simp [State.Reaches, CallGraph.contains, CallGraph.addEntry]

theorem awaited_initial :
    (S.initial names order entry).awaited = [⟨S.naming.start, entry⟩] := rfl

theorem not_calls_initial {edge : Edge C} : ¬ (S.initial names order entry).Calls edge := by
  rw [initial_eq]
  simp [State.Calls, CallGraph.addReachable, CallGraph.addEntry]

theorem wellFormed_initial : (S.initial names order entry).WellFormed := by
  refine ⟨FlowGraph.wellFormed_empty, fun h ↦ ?_⟩
  simp [S.initial_eq, WorkList.toList] at h

theorem not_delivers_initial {p : Pointer C e} {o : Id e} :
    ¬ (S.initial names order entry).Delivers p o := by
  rw [initial_eq]
  intro h
  rcases h with h | ⟨i, delta, hitem, -, -⟩
  · exact FlowGraph.not_points_empty h
  · simp [WorkList.toList] at hitem

theorem not_watches_initial {c : C} {v : VarId} {t : TransferSite C} :
    ¬ (S.initial names order entry).Watches c v t := by
  rw [initial_eq]
  simp [State.Watches]

theorem not_seen_initial {m : MethodIn C} : ¬ (S.initial names order entry).Seen m := by
  intro h
  refine h.2 ?_
  rw [awaited_initial, List.mem_singleton]
  exact reaches_initial.1 h.1

end Setup

namespace Interpretation

variable {S : Setup C e σ} {R : Interpretation S K O} {F : Facts K O} {entry : MethodId}
  {s s' : State C e σ}

/-- In the beginning the entry is reachable, and nothing else is known. -/
theorem Sound.initial (hF : (R.rules entry).Closed F) {names : σ} (hvalid : R.Valid names)
    (order : WorkOrder) : R.Sound F (S.initial names order entry) := by
  constructor
  case valid => exact hvalid
  case wellFormed => exact Setup.wellFormed_initial
  case delivers =>
    intro p o h
    exact absurd h Setup.not_delivers_initial
  case links =>
    intro p q h
    exact absurd h FlowGraph.not_links_empty
  case reaches =>
    intro m h
    rw [Setup.reaches_initial.1 h]
    exact ⟨R.domain.start, R.laws.start hvalid, hF.entry⟩
  case calls =>
    intro edge h
    exact absurd h Setup.not_calls_initial
  case watches =>
    intro c v t h
    exact absurd h Setup.not_watches_initial

theorem Underway.initial (hF : (R.rules entry).Closed F) {names : σ} (hvalid : R.Valid names)
    (order : WorkOrder) : R.Underway F (S.initial names order entry) where
  sound := .initial hF hvalid order
  settled :=
    { flowing := fun p q o h ↦ absurd h FlowGraph.not_links_empty
      reaches := fun h ↦ absurd h Setup.not_calls_initial
      bound := fun h ↦ absurd h Setup.not_calls_initial
      nodup := List.pairwise_singleton _ _
      known := by
        intro m
        rw [Setup.reaches_initial, Setup.awaited_initial, List.mem_singleton]
        exact ⟨.inl, fun h ↦ h.resolve_right Setup.not_seen_initial⟩
      apart := fun _ ↦ Setup.not_seen_initial }

theorem Attended.initial (hF : (R.rules entry).Closed F) {names : σ} (hvalid : R.Valid names)
    (order : WorkOrder) (A : Pointer C e → Id e → Prop) :
    R.Attended F entry A (S.initial names order entry) where
  toUnderway := .initial hF hvalid order
  entry := Setup.reaches_initial.2 rfl
  objects h := absurd h FlowGraph.not_points_empty
  methods h := absurd h Setup.not_seen_initial

theorem Invariant.initial (hF : (R.rules entry).Closed F) {names : σ} (hvalid : R.Valid names)
    (order : WorkOrder) : R.Invariant F entry (S.initial names order entry) :=
  ⟨.initial hF hvalid order _⟩

end Interpretation

/-! ## What is left to learn -/

/-- There are finitely many facts about places and methods. -/
structure Facts.Finite (F : Facts K O) : Prop where
  pts : {q : Place K O × O | F.pts q.1 q.2}.Finite
  reaches : {m | F.reaches m}.Finite

/-- The methods that a state has looked at. -/
def State.seenMethods (M : Meaning C e σ K O) (s : State C e σ) : Set (MethodIn K) :=
  {m | ∃ c, M.ctx s.names c = some m.ctx ∧ s.Seen ⟨c, m.id⟩}

def State.knownPoints (M : Meaning C e σ K O) (s : State C e σ) : Set (Place K O × O) :=
  {q | (s.facts M).pts q.1 q.2}

/-- How many facts of `F` the state does not know yet. -/
noncomputable def State.lacks (M : Meaning C e σ K O) (F : Facts K O) (s : State C e σ) : Nat :=
  ({q : Place K O × O | F.pts q.1 q.2} \ s.knownPoints M).ncard +
    ({m | F.reaches m} \ s.seenMethods M).ncard

namespace Interpretation

variable {S : Setup C e σ} {R : Interpretation S K O} {F : Facts K O} {entry : MethodId}
  {s s' : State C e σ}

omit [Contextual C] in
/-- Knowing more of a finite set leaves less to know. -/
theorem ncard_diff_lt {α : Type} {u a b : Set α} (hu : u.Finite) (hab : a ⊆ b) {x : α} (hx : x ∈ u)
    (ha : x ∉ a) (hb : x ∈ b) : (u \ b).ncard < (u \ a).ncard := by
  apply Set.ncard_lt_ncard
  · refine ⟨Set.sdiff_subset_sdiff_right hab, fun h ↦ ?_⟩
    exact (h ⟨hx, ha⟩).2 hb
  · exact hu.subset Set.sdiff_subset

theorem Advance.knownPoints_subset (h : R.meaning.Advance s s') :
    s.knownPoints R.meaning ⊆ s'.knownPoints R.meaning := by
  intro q hq
  obtain ⟨p, o, hp, ho, hpts⟩ := hq
  exact ⟨p, o, h.grows.names.place hp, h.grows.names.obj ho, h.grows.points hpts⟩

theorem Advance.seenMethods_subset (h : R.meaning.Advance s s') :
    s.seenMethods R.meaning ⊆ s'.seenMethods R.meaning := by
  intro m hm
  obtain ⟨c, hc, hseen⟩ := hm
  exact ⟨c, h.grows.names.ctx hc, h.seen hseen⟩

/-- A step leaves less to learn, or as much and less to do. -/
theorem lacks_lt (hfin : F.Finite) (h : R.meaning.Advance s s') (hs' : R.Sound F s') :
    Prod.Lex (· < ·) (· < ·) (s'.lacks R.meaning F, s'.pending.toList.length)
      (s.lacks R.meaning F, s.pending.toList.length) := by
  have hpoints : ({q : Place K O × O | F.pts q.1 q.2} \ s'.knownPoints R.meaning).ncard ≤
      ({q : Place K O × O | F.pts q.1 q.2} \ s.knownPoints R.meaning).ncard :=
    Set.ncard_le_ncard (Set.sdiff_subset_sdiff_right (Advance.knownPoints_subset h))
      (hfin.pts.subset Set.sdiff_subset)
  have hseen : ({m | F.reaches m} \ s'.seenMethods R.meaning).ncard ≤
      ({m | F.reaches m} \ s.seenMethods R.meaning).ncard :=
    Set.ncard_le_ncard (Set.sdiff_subset_sdiff_right (Advance.seenMethods_subset h))
      (hfin.reaches.subset Set.sdiff_subset)
  rcases h.gain with ⟨m, hm, hnew⟩ | ⟨p, o, hp, hnew⟩ | hless
  · -- A method that was not looked at before; names are unambiguous, so it counts.
    apply Prod.Lex.left
    apply Nat.add_lt_add_of_le_of_lt hpoints
    obtain ⟨k, hk, hreach⟩ := hs'.reaches hm.1
    refine ncard_diff_lt hfin.reaches (Advance.seenMethods_subset h) (x := ⟨k, m.id⟩) hreach ?_ ?_
    · intro hold
      obtain ⟨c, hc, hseen⟩ := hold
      obtain rfl := R.laws.ctx_inj hs'.valid hk (h.grows.names.ctx hc)
      exact hnew hseen
    · exact ⟨m.ctx, hk, hm⟩
  · apply Prod.Lex.left
    apply Nat.add_lt_add_of_lt_of_le _ hseen
    obtain ⟨P, x, hP, hx, hF⟩ := hs'.delivers (.inl hp)
    refine ncard_diff_lt hfin.pts (Advance.knownPoints_subset h) (x := (P, x)) hF ?_ ?_
    · intro hold
      obtain ⟨p', o', hP', hx', hp'⟩ := hold
      obtain rfl := R.laws.place_inj hs'.valid hP (h.grows.names.place hP')
      obtain rfl := R.laws.obj_inj hs'.valid hx (h.grows.names.obj hx')
      exact hnew hp'
    · exact ⟨p, o, hP, hx, hp⟩
  · rcases Nat.lt_or_eq_of_le (Nat.add_le_add hpoints hseen) with hlt | heq
    · exact Prod.Lex.left _ _ hlt
    · unfold State.lacks
      rw [heq]
      exact Prod.Lex.right _ hless

/-- No run goes on for ever, whatever items it takes. -/
theorem Underway.acc (hF : (R.rules entry).Closed F) (hans : (R.rules entry).Answered F)
    (hfin : F.Finite) (h : R.Underway F s) : Acc (fun s' s ↦ S.Step s s') s := by
  have hwf : WellFounded (Prod.Lex (· < ·) (· < ·) : ℕ × ℕ → ℕ × ℕ → Prop) :=
    WellFounded.prod_lex Nat.lt_wfRel.wf Nat.lt_wfRel.wf
  generalize hn : (s.lacks R.meaning F, s.pending.toList.length) = n
  induction n using hwf.induction generalizing s with
  | _ n ih =>
    refine ⟨s, fun s' hstep ↦ ?_⟩
    obtain ⟨hunder, hadv⟩ := h.step hF hans hstep
    refine ih _ ?_ hunder rfl
    rw [← hn]
    exact lacks_lt hfin hadv hunder.sound

end Interpretation

/-! ## Taking the next item -/

theorem WorkList.perm_of_poll {α : Type} {w rest : WorkList α} {a : α}
    (h : w.poll = some (a, rest)) : (a :: rest.toList).Perm w.toList := by
  unfold poll at h
  cases horder : w.order with
  | fifo =>
    rw [horder] at h
    rw [toList_of_takeFirst h]
  | lifo =>
    rw [horder] at h
    rw [toList_of_takeLast h]
    exact (List.perm_append_singleton a rest.toList).symm

theorem WorkList.toList_of_poll_none {α : Type} {w : WorkList α} (h : w.poll = none) :
    w.toList = [] := by
  obtain ⟨order, front, back⟩ := w
  cases order with
  | fifo =>
    cases front with
    | cons a front => simp [poll, takeFirst] at h
    | nil =>
      cases hback : back.reverse with
      | cons a front => simp [poll, takeFirst, hback] at h
      | nil => exact hback
  | lifo =>
    cases back with
    | cons a back => simp [poll, takeLast] at h
    | nil =>
      cases hfront : front.reverse with
      | cons a back => simp [poll, takeLast, hfront] at h
      | nil => simpa [toList] using hfront

namespace Setup

variable {S : Setup C e σ} {s : State C e σ}

theorem poll_eq_some {item : WorkItem C e} {rest : WorkList (WorkItem C e)}
    (h : s.pending.poll = some (item, rest)) :
    S.poll s = some (S.process (s.taken rest) item) := by
  simp [poll, h, State.taken]

theorem run_of_finished (h : s.pending.poll = none) : S.run s = .ok s := by
  rw [run]
  simp [poll, h]

theorem run_of_step {item : WorkItem C e} {rest : WorkList (WorkItem C e)} {next : State C e σ}
    (h : s.pending.poll = some (item, rest)) (hnext : S.process (s.taken rest) item = .ok next) :
    S.run s = S.run next := by
  rw [run, poll_eq_some h, hnext]

/-- The state after `n` pieces of work, or after all of them if there are fewer. -/
def runFor (S : Setup C e σ) : Nat → State C e σ → Except UnknownId (State C e σ)
  | 0, s => .ok s
  | n + 1, s =>
    match S.poll s with
    | none => .ok s
    | some next => next >>= S.runFor n

theorem runFor_of_finished (h : s.pending.poll = none) (n : Nat) : S.runFor n s = .ok s := by
  cases n with
  | zero => rfl
  | succ n => simp [runFor, poll, h]

theorem runFor_of_step {item : WorkItem C e} {rest : WorkList (WorkItem C e)} {next : State C e σ}
    (h : s.pending.poll = some (item, rest)) (hnext : S.process (s.taken rest) item = .ok next)
    (n : Nat) : S.runFor (n + 1) s = S.runFor n next := by
  rw [runFor, poll_eq_some h, hnext]
  rfl

/-- A run of some steps either has nothing to do, or takes an item and goes on. -/
theorem of_runFor_succ {n : Nat} {s' : State C e σ} (h : S.runFor (n + 1) s = .ok s') :
    s.pending.poll = none ∧ s' = s ∨
    ∃ item rest next, s.pending.poll = some (item, rest) ∧
      S.process (s.taken rest) item = .ok next ∧ S.runFor n next = .ok s' := by
  cases hpoll : s.pending.poll with
  | none =>
    rw [runFor_of_finished hpoll] at h
    exact .inl ⟨rfl, (Except.ok.inj h).symm⟩
  | some next =>
    obtain ⟨item, rest⟩ := next
    cases hnext : S.process (s.taken rest) item with
    | error u =>
      rw [runFor, poll_eq_some hpoll, hnext] at h
      cases h
    | ok next =>
      rw [runFor_of_step hpoll hnext] at h
      exact .inr ⟨item, rest, next, rfl, hnext, h⟩

/-- A whole run is one that was followed until nothing was pending. -/
theorem run_of_runFor {n : Nat} {s' : State C e σ} (h : S.runFor n s = .ok s')
    (hfin : s'.pending.poll = none) : S.run s = .ok s' := by
  induction n generalizing s with
  | zero =>
    obtain rfl := Except.ok.inj h
    exact run_of_finished hfin
  | succ n ih =>
    rcases of_runFor_succ h with ⟨hpoll, rfl⟩ | ⟨item, rest, next, hpoll, hnext, hrest⟩
    · exact run_of_finished hpoll
    · rw [run_of_step hpoll hnext]
      exact ih hrest

/-- Taking the next item is one way of taking items. -/
theorem steps_of_runFor {n : Nat} {s' : State C e σ} (h : S.runFor n s = .ok s') :
    Relation.ReflTransGen S.Step s s' := by
  induction n generalizing s with
  | zero =>
    obtain rfl := Except.ok.inj h
    exact .refl
  | succ n ih =>
    rcases of_runFor_succ h with ⟨-, rfl⟩ | ⟨item, rest, next, hpoll, hnext, hrest⟩
    · exact .refl
    · exact .head (.take item rest (WorkList.perm_of_poll hpoll) hnext) (ih hrest)

end Setup

namespace Interpretation

variable {S : Setup C e σ} {R : Interpretation S K O} {F : Facts K O} {entry : MethodId}
  {s : State C e σ} (hF : (R.rules entry).Closed F) (hans : (R.rules entry).Answered F)
  (h : R.Underway F s)

include hF hans h

theorem Underway.runFor_ok (n : Nat) : ∃ s', S.runFor n s = .ok s' := by
  induction n generalizing s with
  | zero => exact ⟨s, rfl⟩
  | succ n ih =>
    cases hpoll : s.pending.poll with
    | none => exact ⟨s, Setup.runFor_of_finished hpoll _⟩
    | some next =>
      obtain ⟨item, rest⟩ := next
      obtain ⟨s₁, heq, hunder, -⟩ := h.take hF hans (WorkList.perm_of_poll hpoll)
      rw [Setup.runFor_of_step hpoll heq]
      exact ih hunder

/-- Some number of steps is enough to finish. -/
theorem Underway.runFor_finishes (hfin : F.Finite) :
    ∃ n s', S.runFor n s = .ok s' ∧ s'.pending.poll = none := by
  have hacc := h.acc hF hans hfin
  induction hacc with
  | intro s _ ih =>
    cases hpoll : s.pending.poll with
    | none => exact ⟨0, s, rfl, hpoll⟩
    | some next =>
      obtain ⟨item, rest⟩ := next
      have hperm := WorkList.perm_of_poll hpoll
      obtain ⟨s₁, heq, hunder, -⟩ := h.take hF hans hperm
      obtain ⟨n, s', hrun, hend⟩ := ih s₁ (.take item rest hperm heq) hunder
      exact ⟨n + 1, s', by rw [Setup.runFor_of_step hpoll heq, hrun], hend⟩

/-- A run returns, and what it returns is a finished state that it has reached step by step. -/
theorem Underway.run_finishes (hfin : F.Finite) :
    ∃ s', S.run s = .ok s' ∧ Relation.ReflTransGen S.Step s s' ∧ s'.Finished := by
  obtain ⟨n, s', hrun, hend⟩ := h.runFor_finishes hF hans hfin
  exact ⟨s', Setup.run_of_runFor hrun hend, Setup.steps_of_runFor hrun,
    WorkList.toList_of_poll_none hend⟩

end Interpretation

end PointsTo
