import PointsTo.Closure
import Mathlib.Data.List.TakeWhile
import Mathlib.Data.List.Perm.Subperm
import Mathlib.Logic.Relation

/-!
# What a breadth-first walk meets

A walk meets exactly what can be reached from where it starts, provided that it may expand as many
nodes as can be reached (`mem_order_iff`). What carries the proof is that
successors of a node that was met are met or waiting (`Walk.closed`): once nothing waits, the nodes met
are closed under successors. To be allowed more then makes no difference (`order_of_le`).

Nodes are met in the order of their distance from the start (`pairwise_order`). Those that wait are at
one distance, followed by those one successor farther (`Level`).
-/

namespace PointsTo.Closure

variable {α : Type} {succ : α → List α} {start queue seen all : List α}

/-- Some path of successors leads from `start` to `a`. -/
def Reached (succ : α → List α) (start : List α) (a : α) : Prop :=
  ∃ s ∈ start, Relation.ReflTransGen (fun a b ↦ b ∈ succ a) s a

theorem Reached.next {a b : α} (h : Reached succ start a) (hb : b ∈ succ a) : Reached succ start b := by
  obtain ⟨s, hs, hpath⟩ := h
  exact ⟨s, hs, hpath.tail hb⟩

theorem reached_singleton {s a : α} :
    Reached succ [s] a ↔ Relation.ReflTransGen (fun a b ↦ b ∈ succ a) s a := by
  simp [Reached]

/-- Nodes among which the walk starts and from which no successor leads out are all that is reached. -/
theorem Reached.mem (h : ∀ a ∈ start, a ∈ all) (hsucc : ∀ a ∈ all, ∀ b ∈ succ a, b ∈ all) {a : α}
    (ha : Reached succ start a) : a ∈ all := by
  obtain ⟨s, hs, hpath⟩ := ha
  induction hpath with
  | refl => exact h s hs
  | tail _ hb ih => exact hsucc _ ih _ hb

/-- A walk from `start` has met `seen` and still has to look at `queue`. -/
structure Walk (succ : α → List α) (start queue seen : List α) : Prop where
  nodup : seen.Nodup
  started : ∀ {a}, a ∈ start → a ∈ seen ∨ a ∈ queue
  reached : ∀ {a}, a ∈ seen ∨ a ∈ queue → Reached succ start a
  closed : ∀ {a b}, a ∈ seen → b ∈ succ a → b ∈ seen ∨ b ∈ queue

theorem walk_start (succ : α → List α) (start : List α) : Walk succ start start [] where
  nodup := .nil
  started := .inr
  reached ha := by
    rcases ha with ha | ha
    · cases ha
    · exact ⟨_, ha, .refl⟩
  closed ha := by cases ha

namespace Walk

/-- Meeting the first node of the queue puts its successors behind all that wait. -/
theorem expand {a : α} {rest : List α} (h : Walk succ start (a :: rest) seen) (ha : a ∉ seen) :
    Walk succ start (rest ++ succ a) (a :: seen) where
  nodup := List.nodup_cons.2 ⟨ha, h.nodup⟩
  started hb := by
    rcases h.started hb with hb | hb
    · exact .inl (List.mem_cons_of_mem _ hb)
    · rcases List.mem_cons.1 hb with rfl | hb
      · exact .inl List.mem_cons_self
      · exact .inr (List.mem_append_left _ hb)
  reached hb := by
    have hself : Reached succ start a := h.reached (.inr List.mem_cons_self)
    rcases hb with hb | hb
    · rcases List.mem_cons.1 hb with rfl | hb
      · exact hself
      · exact h.reached (.inl hb)
    · rcases List.mem_append.1 hb with hb | hb
      · exact h.reached (.inr (List.mem_cons_of_mem _ hb))
      · exact hself.next hb
  closed hb hc := by
    rcases List.mem_cons.1 hb with rfl | hb
    · exact .inr (List.mem_append_right _ hc)
    · rcases h.closed hb hc with hc | hc
      · exact .inl (List.mem_cons_of_mem _ hc)
      · rcases List.mem_cons.1 hc with rfl | hc
        · exact .inl List.mem_cons_self
        · exact .inr (List.mem_append_left _ hc)

/-- Once nothing waits, everything that can be reached has been met. -/
theorem mem_iff (h : Walk succ start [] seen) {a : α} : a ∈ seen ↔ Reached succ start a := by
  have hseen : ∀ {b}, b ∈ seen ∨ b ∈ ([] : List α) → b ∈ seen := by simp
  constructor
  · intro ha
    exact h.reached (.inl ha)
  · intro ha
    exact ha.mem (fun b hb ↦ hseen (h.started hb)) fun b hb c hc ↦ hseen (h.closed hb hc)

theorem length_le (h : Walk succ start queue seen) (hall : ∀ {a}, Reached succ start a → a ∈ all) :
    seen.length ≤ all.length :=
  (h.nodup.subperm fun _ ha ↦ hall (h.reached (.inl ha))).length_le

end Walk

variable [DecidableEq α]

theorem mem_or_mem_dropWhile {a : α} (ha : a ∈ seen ∨ a ∈ queue) :
    a ∈ seen ∨ a ∈ queue.dropWhile (· ∈ seen) := by
  rcases ha with ha | ha
  · exact .inl ha
  · rw [← @List.takeWhile_append_dropWhile _ (· ∈ seen) queue] at ha
    refine (List.mem_append.1 ha).imp_left fun ha ↦ ?_
    have hseen := List.mem_takeWhile_imp ha
    exact of_decide_eq_true hseen

theorem not_mem_of_dropWhile {a : α} {rest : List α}
    (hnext : queue.dropWhile (· ∈ seen) = a :: rest) : a ∉ seen := by
  have hhead := List.head?_dropWhile_not (fun a ↦ decide (a ∈ seen)) queue
  rw [hnext] at hhead
  exact of_decide_eq_false hhead

namespace Walk

/-- Waiting nodes that have been met may go. -/
theorem skip (h : Walk succ start queue seen) :
    Walk succ start (queue.dropWhile (· ∈ seen)) seen where
  nodup := h.nodup
  started ha := mem_or_mem_dropWhile (h.started ha)
  reached ha := h.reached (ha.imp_right fun ha ↦ (List.dropWhile_sublist _).subset ha)
  closed ha hb := mem_or_mem_dropWhile (h.closed ha hb)

/-- Either nothing waits, or the first waiting node that has not been met is expanded. -/
theorem step (h : Walk succ start queue seen) :
    queue.dropWhile (· ∈ seen) = [] ∧ Walk succ start [] seen ∨
    ∃ a rest, queue.dropWhile (· ∈ seen) = a :: rest ∧ Walk succ start (rest ++ succ a) (a :: seen) := by
  have hskip := h.skip
  cases hnext : queue.dropWhile (· ∈ seen) with
  | nil =>
    rw [hnext] at hskip
    exact .inl ⟨rfl, hskip⟩
  | cons a rest =>
    rw [hnext] at hskip
    exact .inr ⟨a, rest, rfl, hskip.expand (not_mem_of_dropWhile hnext)⟩

/-- Once as many nodes have been met as can be reached, nothing waits that has not been met. -/
theorem exhausted (h : Walk succ start queue seen) (hall : ∀ {a}, Reached succ start a → a ∈ all)
    (hlen : all.length ≤ seen.length) :
    queue.dropWhile (· ∈ seen) = [] ∧ Walk succ start [] seen := by
  rcases h.step with hdone | ⟨a, rest, -, hwalk⟩
  · exact hdone
  · have hmore := hwalk.length_le hall
    rw [List.length_cons] at hmore
    omega

/-- A walk that may expand as many nodes as can be reached ends with nothing waiting. -/
theorem visit {fuel : Nat} (h : Walk succ start queue seen)
    (hall : ∀ {a}, Reached succ start a → a ∈ all) (hfuel : all.length ≤ fuel + seen.length) :
    ∃ seen', Closure.visit succ fuel queue seen = seen'.reverse ∧ Walk succ start [] seen' := by
  induction fuel generalizing queue seen with
  | zero =>
    obtain ⟨hnext, hwalk⟩ := h.exhausted hall (by omega)
    unfold Closure.visit
    rw [hnext]
    exact ⟨seen, rfl, hwalk⟩
  | succ n ih =>
    unfold Closure.visit
    rcases h.step with ⟨hnext, hwalk⟩ | ⟨a, rest, hnext, hwalk⟩
    · rw [hnext]
      exact ⟨seen, rfl, hwalk⟩
    · rw [hnext]
      apply ih hwalk
      rw [List.length_cons]
      omega

/-- A walk that may expand as many nodes as can be reached would not expand more if it might. -/
theorem visit_add {fuel : Nat} (h : Walk succ start queue seen)
    (hall : ∀ {a}, Reached succ start a → a ∈ all) (hfuel : all.length ≤ fuel + seen.length)
    (more : Nat) : Closure.visit succ (fuel + more) queue seen = Closure.visit succ fuel queue seen := by
  induction fuel generalizing queue seen with
  | zero =>
    obtain ⟨hnext, -⟩ := h.exhausted hall (by omega)
    unfold Closure.visit
    rw [hnext]
  | succ n ih =>
    rw [Nat.add_right_comm]
    unfold Closure.visit
    rcases h.step with ⟨hnext, -⟩ | ⟨a, rest, hnext, hwalk⟩
    · rw [hnext]
    · rw [hnext]
      apply ih hwalk
      rw [List.length_cons]
      omega

end Walk

/-! ## Distances -/

/-- Some path of `n` successors leads from `start` to a node. -/
inductive ReachedIn (succ : α → List α) (start : List α) : Nat → α → Prop
  | start {a : α} : a ∈ start → ReachedIn succ start 0 a
  | next {n : Nat} {a b : α} : ReachedIn succ start n a → b ∈ succ a → ReachedIn succ start (n + 1) b

omit [DecidableEq α] in
theorem reached_iff_reachedIn {a : α} : Reached succ start a ↔ ∃ n, ReachedIn succ start n a := by
  constructor
  · rintro ⟨s, hs, hpath⟩
    induction hpath with
    | refl => exact ⟨0, .start hs⟩
    | tail _ hb ih =>
      obtain ⟨n, hn⟩ := ih
      exact ⟨n + 1, hn.next hb⟩
  · rintro ⟨n, hn⟩
    induction hn with
    | start ha => exact ⟨_, ha, .refl⟩
    | next _ hb ih => exact ih.next hb

/-- The node `a` can be reached by as few successors as `b`. -/
def NoFarther (succ : α → List α) (start : List α) (a b : α) : Prop :=
  ∀ n, ReachedIn succ start n b → ∃ m ≤ n, ReachedIn succ start m a

/-- A walk has come to the nodes that can be reached by `n` successors and not by fewer: `near` are those
that still wait, and `far` are nodes one successor farther, which wait behind them. -/
structure Level (succ : α → List α) (start : List α) (n : Nat) (near far seen : List α) : Prop where
  at_near : ∀ {a}, a ∈ near → ReachedIn succ start n a
  at_far : ∀ {a}, a ∈ far → ReachedIn succ start (n + 1) a
  met : ∀ {a}, a ∈ seen → ∃ m ≤ n, ReachedIn succ start m a
  complete : ∀ {m a}, ReachedIn succ start m a → m ≤ n → a ∈ seen ∨ m = n ∧ a ∈ near
  closed : ∀ {a b}, a ∈ seen → b ∈ succ a → b ∈ seen ∨ b ∈ near ∨ b ∈ far
  /-- What was met later is farther, or as far. -/
  ordered : seen.Pairwise fun a b ↦ NoFarther succ start b a

omit [DecidableEq α] in
theorem level_start (succ : α → List α) (start : List α) : Level succ start 0 start [] [] where
  at_near := .start
  at_far ha := by cases ha
  met ha := by cases ha
  complete ha hm := by
    cases ha with
    | start ha => exact .inr ⟨rfl, ha⟩
    | next => exact absurd hm (Nat.not_succ_le_zero _)
  closed ha := by cases ha
  ordered := .nil

namespace Level

variable {n : Nat} {near far : List α}

omit [DecidableEq α] in
/-- Meeting a node of the present level puts its successors on the next one. -/
theorem expand {a : α} (h : Level succ start n (a :: near) far seen) (ha : a ∉ seen) :
    Level succ start n near (far ++ succ a) (a :: seen) where
  at_near hb := h.at_near (List.mem_cons_of_mem a hb)
  at_far hb := by
    rcases List.mem_append.1 hb with hb | hb
    · exact h.at_far hb
    · exact (h.at_near List.mem_cons_self).next hb
  met hb := by
    rcases List.mem_cons.1 hb with rfl | hb
    · exact ⟨n, Nat.le_refl n, h.at_near List.mem_cons_self⟩
    · exact h.met hb
  complete hb hm := by
    rcases h.complete hb hm with hb | ⟨hm, hb⟩
    · exact .inl (List.mem_cons_of_mem a hb)
    · rcases List.mem_cons.1 hb with rfl | hb
      · exact .inl List.mem_cons_self
      · exact .inr ⟨hm, hb⟩
  closed hb hc := by
    rcases List.mem_cons.1 hb with rfl | hb
    · exact .inr (.inr (List.mem_append_right _ hc))
    · rcases h.closed hb hc with hc | hc | hc
      · exact .inl (List.mem_cons_of_mem a hc)
      · rcases List.mem_cons.1 hc with rfl | hc
        · exact .inl List.mem_cons_self
        · exact .inr (.inl hc)
      · exact .inr (.inr (List.mem_append_left _ hc))
  ordered := by
    refine List.pairwise_cons.2 ⟨fun b hb k hk ↦ ?_, h.ordered⟩
    have hnk : n ≤ k := by
      by_contra hlt
      rcases h.complete hk (by omega) with hmet | ⟨heq, -⟩
      · exact ha hmet
      · omega
    obtain ⟨m, hm, hreached⟩ := h.met hb
    exact ⟨m, hm.trans hnk, hreached⟩

omit [DecidableEq α] in
/-- Once no node at this distance waits, it is the turn of those one successor farther. -/
theorem advance (h : Level succ start n [] far seen) : Level succ start (n + 1) far [] seen where
  at_near := h.at_far
  at_far ha := by cases ha
  met ha := by
    obtain ⟨m, hm, hreached⟩ := h.met ha
    exact ⟨m, Nat.le_succ_of_le hm, hreached⟩
  complete ha hm := by
    have hmet : ∀ {m a}, ReachedIn succ start m a → m ≤ n → a ∈ seen := by
      intro m a ha hm
      exact (h.complete ha hm).resolve_right fun hnear ↦ List.not_mem_nil hnear.2
    rcases Nat.lt_or_eq_of_le hm with hlt | rfl
    · exact .inl (hmet ha (Nat.le_of_lt_succ hlt))
    · cases ha with
      | next ha hb =>
        rcases h.closed (hmet ha (Nat.le_refl n)) hb with hb | hb | hb
        · exact .inl hb
        · cases hb
        · exact .inr ⟨rfl, hb⟩
  closed ha hb := by
    rcases h.closed ha hb with hb | hb | hb
    · exact .inl hb
    · cases hb
    · exact .inr (.inl hb)
  ordered := h.ordered

theorem skip (h : Level succ start n near far seen) :
    Level succ start n (near.dropWhile (· ∈ seen)) far seen where
  at_near ha := h.at_near ((List.dropWhile_sublist _).subset ha)
  at_far := h.at_far
  met := h.met
  complete ha hm := by
    rcases h.complete ha hm with ha | ⟨hm, ha⟩
    · exact .inl ha
    · exact (mem_or_mem_dropWhile (.inr ha)).imp_right fun ha ↦ ⟨hm, ha⟩
  closed ha hb := by
    rcases h.closed ha hb with hb | hb | hb
    · exact .inl hb
    · exact (mem_or_mem_dropWhile (.inr hb)).imp_right .inl
    · exact .inr (.inr hb)
  ordered := h.ordered

/-- The next node to be expanded is one of the nearest that have not been met. -/
theorem step (h : Level succ start n near far seen) :
    (near ++ far).dropWhile (· ∈ seen) = [] ∨
    ∃ n' a near' far', (near ++ far).dropWhile (· ∈ seen) = a :: (near' ++ far') ∧
      Level succ start n' near' (far' ++ succ a) (a :: seen) := by
  have hskip := h.skip
  rw [List.dropWhile_append]
  cases hnear : near.dropWhile (· ∈ seen) with
  | cons a near' =>
    rw [hnear] at hskip
    exact .inr ⟨n, a, near', far, rfl, hskip.expand (not_mem_of_dropWhile hnear)⟩
  | nil =>
    rw [hnear] at hskip
    have hskip := hskip.advance.skip
    cases hfar : far.dropWhile (· ∈ seen) with
    | cons a near' =>
      rw [hfar] at hskip
      refine .inr ⟨n + 1, a, near', [], ?_, hskip.expand (not_mem_of_dropWhile hfar)⟩
      rw [List.append_nil]
      rfl
    | nil => exact .inl rfl

theorem pairwise_visit (h : Level succ start n near far seen) (fuel : Nat) :
    (visit succ fuel (near ++ far) seen).Pairwise (NoFarther succ start) := by
  induction fuel generalizing n near far seen with
  | zero =>
    unfold visit
    cases (near ++ far).dropWhile (· ∈ seen) <;> exact List.pairwise_reverse.2 h.ordered
  | succ fuel ih =>
    unfold visit
    rcases h.step with hnext | ⟨n', a, near', far', hnext, hlevel⟩
    · rw [hnext]
      exact List.pairwise_reverse.2 h.ordered
    · rw [hnext]
      have hrest := ih hlevel
      rw [← List.append_assoc] at hrest
      exact hrest

end Level

/-! ## Results -/

variable {bound : Nat}

/-- A walk meets nearer nodes first. -/
theorem pairwise_order (succ : α → List α) (bound : Nat) (start : List α) :
    (order succ bound start).Pairwise (NoFarther succ start) := by
  have hvisit := (level_start succ start).pairwise_visit bound
  rw [List.append_nil] at hvisit
  exact hvisit

theorem walk_order (hall : ∀ {a}, Reached succ start a → a ∈ all) (hbound : all.length ≤ bound) :
    ∃ seen, order succ bound start = seen.reverse ∧ Walk succ start [] seen :=
  (walk_start succ start).visit hall hbound

/-- A walk that is allowed more than enough stops by itself. -/
theorem order_of_le (hall : ∀ {a}, Reached succ start a → a ∈ all) (hbound : all.length ≤ bound)
    {more : Nat} (hmore : bound ≤ more) : order succ more start = order succ bound start := by
  obtain ⟨extra, rfl⟩ := Nat.exists_eq_add_of_le hmore
  exact (walk_start succ start).visit_add hall hbound extra

theorem nodup_order (hall : ∀ {a}, Reached succ start a → a ∈ all) (hbound : all.length ≤ bound) :
    (order succ bound start).Nodup := by
  obtain ⟨seen, hseen, hwalk⟩ := walk_order hall hbound
  rw [hseen]
  exact (List.reverse_perm seen).nodup_iff.2 hwalk.nodup

/-- What has been met first comes first. -/
theorem prefix_visit (succ : α → List α) (fuel : Nat) (queue seen : List α) :
    seen.reverse <+: visit succ fuel queue seen := by
  induction fuel generalizing queue seen with
  | zero =>
    unfold visit
    cases queue.dropWhile (· ∈ seen) <;> exact List.prefix_rfl
  | succ n ih =>
    unfold visit
    cases queue.dropWhile (· ∈ seen) with
    | nil => exact List.prefix_rfl
    | cons a rest =>
      have hseen : seen.reverse <+: (a :: seen).reverse := by
        rw [List.reverse_cons]
        exact List.prefix_append _ _
      exact hseen.trans (ih _ _)

/-- A walk starts where it is told to. -/
theorem head?_order {a : α} (hbound : bound ≠ 0) : (order succ bound [a]).head? = some a := by
  obtain ⟨n, rfl⟩ := Nat.exists_eq_succ_of_ne_zero hbound
  obtain ⟨rest, hrest⟩ := prefix_visit succ n (succ a) [a]
  have horder : order succ (n + 1) [a] = visit succ n (succ a) [a] := rfl
  rw [horder, ← hrest]
  rfl

/-- A walk meets what can be reached. -/
theorem mem_order_iff (hall : ∀ {a}, Reached succ start a → a ∈ all) (hbound : all.length ≤ bound)
    {a : α} : a ∈ order succ bound start ↔ Reached succ start a := by
  obtain ⟨seen, hseen, hwalk⟩ := walk_order hall hbound
  rw [hseen, List.mem_reverse, hwalk.mem_iff]

end PointsTo.Closure
