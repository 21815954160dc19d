import PointsTo.Proofs.SparseSet
import Mathlib.Data.Finset.Card
import Mathlib.Data.List.Sort

/-!
# Sparse sets as finite sets

An ascending list of numbers is one way to write down a finite set of them (`SparseSet.toFinset`), and
the only one in which the members ascend. Seen so, every operation on sparse sets is the operation on
finite sets that its name promises (`sparseSet_refines_finset`). What the operations rely on is that the
lists ascend. They keep them so, and halving searches (`brackets_narrow`), merges and the comparison of
sizes are right because of it.
-/

namespace PointsTo

namespace SparseSet

variable {xs ys : List Nat} {x n : Nat}

/-! ## Searching -/

/-- All that is left to look at are the `width` places from `base` on: what comes after them lies above
`x`, and what stands at `base` does not, unless nothing was left out below. -/
structure Brackets (xs : List Nat) (x base width : Nat) : Prop where
  pos : 0 < width
  le_length : base + width ≤ xs.length
  below : ∀ y, 0 < base → xs[base]? = some y → y ≤ x
  above : ∀ i y, base + width ≤ i → xs[i]? = some y → x < y

theorem lt_of_getElem? (hxs : xs.Pairwise (· < ·)) {i j y z : Nat} (hi : xs[i]? = some y)
    (hj : xs[j]? = some z) (hij : i < j) : y < z := by
  obtain ⟨hi', rfl⟩ := List.getElem?_eq_some_iff.1 hi
  obtain ⟨hj', rfl⟩ := List.getElem?_eq_some_iff.1 hj
  exact List.pairwise_iff_getElem.1 hxs i j hi' hj' hij

/-- Halving the places that are left to look at keeps the place of `x` among them. -/
theorem brackets_narrow (hxs : xs.Pairwise (· < ·)) {base width : Nat}
    (h : Brackets xs x base width) : Brackets xs x (narrow xs x base width) 1 := by
  fun_induction narrow xs x base width with
  | case1 base width hwidth =>
    have hpos := h.pos
    obtain rfl : width = 1 := by omega
    exact h
  | case2 base width hwidth half ih =>
    have hlength := h.le_length
    have hhalf : half = width / 2 := rfl
    have hprobe : base + half < xs.length := by omega
    have hget : xs[base + half]? = some (xs.getD (base + half) 0) := by
      simp [List.getD, List.getElem?_eq_getElem hprobe]
    apply ih
    split
    case isTrue hlt =>
      refine ⟨by omega, by omega, h.below, fun i y hi hy ↦ ?_⟩
      rcases Nat.lt_or_ge (base + half) i with hafter | hafter
      · exact hlt.trans (lt_of_getElem? hxs hget hy hafter)
      · -- If the width is even, the range now ends right at the place that was probed.
        obtain rfl : i = base + half := by omega
        rw [hget] at hy
        exact Option.some.inj hy ▸ hlt
    case isFalse hle =>
      refine ⟨by omega, by omega, fun y _ hy ↦ ?_, fun i y hi hy ↦ h.above i y (by omega) hy⟩
      rw [hget] at hy
      exact Option.some.inj hy ▸ Nat.not_lt.1 hle

/-- The place of a number that was not found splits the list into what lies below and what lies above. -/
theorem split_of_search (hxs : xs.Pairwise (· < ·)) {place : Nat} (h : search xs x = (false, place)) :
    (∀ y ∈ xs.take place, y < x) ∧ ∀ y ∈ xs.drop place, x < y := by
  rcases Nat.eq_zero_or_pos xs.length with hempty | hpos
  · rw [List.length_eq_zero_iff.1 hempty]
    simp
  have hstart : Brackets xs x 0 xs.length := by
    refine ⟨hpos, by omega, fun _ hlt ↦ absurd hlt (Nat.lt_irrefl 0), fun i y hi hy ↦ ?_⟩
    exact absurd (List.getElem?_eq_some_iff.1 hy).1 (by omega)
  have hb := brackets_narrow hxs hstart
  unfold search at h
  generalize narrow xs x 0 xs.length = p at h hb
  have hp := hb.le_length
  have hget : xs[p]? = some xs[p] := List.getElem?_eq_getElem (by omega)
  simp only [hget] at h
  split at h
  case isTrue => simp at h
  case isFalse hne =>
    have hplace := (Prod.mk.inj h).2
    split at hplace
    case isTrue hlt =>
      obtain rfl := hplace
      constructor
      · intro y hy
        obtain ⟨i, hi, rfl⟩ := List.mem_take_iff_getElem.1 hy
        rcases Nat.lt_or_ge i p with hip | hip
        · exact (lt_of_getElem? hxs (List.getElem?_eq_getElem (by omega)) hget hip).trans hlt
        · obtain rfl : i = p := by omega
          exact hlt
      · intro y hy
        obtain ⟨i, hi, rfl⟩ := List.mem_drop_iff_getElem.1 hy
        exact hb.above (p + 1 + i) _ (by omega) (List.getElem?_eq_getElem (by omega))
    case isFalse hle =>
      obtain rfl := hplace
      have hlt : x < xs[p] := by omega
      -- What stands at the place lies above `x`, so nothing was left out below.
      obtain rfl : p = 0 := by
        rcases Nat.eq_zero_or_pos p with hzero | hpos
        · exact hzero
        · exact absurd (hb.below _ hpos hget) (Nat.not_le.2 hlt)
      refine ⟨by simp, fun y hy ↦ ?_⟩
      obtain ⟨i, hi, rfl⟩ := List.mem_drop_iff_getElem.1 hy
      rcases Nat.eq_zero_or_pos i with rfl | hi'
      · exact hlt
      · exact hlt.trans (lt_of_getElem? hxs hget (List.getElem?_eq_getElem (by omega)) (by omega))

theorem not_mem_of_search (hxs : xs.Pairwise (· < ·)) {place : Nat}
    (h : search xs x = (false, place)) : x ∉ xs := by
  obtain ⟨hbelow, habove⟩ := split_of_search hxs h
  intro hx
  rw [← List.take_append_drop place xs, List.mem_append] at hx
  rcases hx with hx | hx
  · exact Nat.lt_irrefl x (hbelow x hx)
  · exact Nat.lt_irrefl x (habove x hx)

theorem search_fst_iff (hxs : xs.Pairwise (· < ·)) : (search xs x).1 = true ↔ x ∈ xs := by
  cases h : search xs x with
  | mk found place =>
    cases found with
    | true => exact iff_of_true rfl (mem_of_search h)
    | false => exact iff_of_false Bool.false_ne_true (not_mem_of_search hxs h)

/-! ## Adding -/

theorem le_of_getLast? (hxs : xs.Pairwise (· < ·)) {last : Nat} (hlast : xs.getLast? = some last)
    (hx : x ∈ xs) : x ≤ last := by
  obtain ⟨front, rfl⟩ := List.getLast?_eq_some_iff.1 hlast
  rcases List.mem_append.1 hx with hx | hx
  · exact Nat.le_of_lt ((List.pairwise_append.1 hxs).2.2 x hx last List.mem_cons_self)
  · exact Nat.le_of_eq (List.mem_singleton.1 hx)

theorem insertIdx_eq_append {place : Nat} (h : place ≤ xs.length) :
    xs.insertIdx place x = xs.take place ++ x :: xs.drop place := by
  induction place generalizing xs with
  | zero => rfl
  | succ place ih =>
    cases xs with
    | nil => simp at h
    | cons y ys =>
      rw [List.insertIdx_succ_cons, ih (Nat.le_of_succ_le_succ h)]
      rfl

variable {s t : SparseSet}

/-- What is above everything goes to the end, and anything else to the place that a search finds. -/
theorem Ascending.insert (hs : s.Ascending) (x : Nat) : (s.insert x).1.Ascending := by
  unfold SparseSet.insert
  split
  case h_1 => exact List.pairwise_singleton _ x
  case h_2 last hlast =>
    split
    case isTrue hlt =>
      refine List.pairwise_append.2 ⟨hs, List.pairwise_singleton _ x, fun y hy z hz ↦ ?_⟩
      rw [List.mem_singleton.1 hz]
      exact Nat.lt_of_le_of_lt (le_of_getLast? hs hlast hy) hlt
    case isFalse =>
      split
      case h_1 => exact hs
      case h_2 place hplace =>
        obtain ⟨hbelow, habove⟩ := split_of_search hs hplace
        change (s.elems.insertIdx place x).Pairwise (· < ·)
        rw [insertIdx_eq_append (le_length_of_search hplace)]
        refine List.pairwise_append.2 ⟨hs.sublist (List.take_sublist _ _),
          List.pairwise_cons.2 ⟨habove, hs.sublist (List.drop_sublist _ _)⟩, fun y hy z hz ↦ ?_⟩
        rcases List.mem_cons.1 hz with rfl | hz
        · exact hbelow y hy
        · exact (hbelow y hy).trans (habove z hz)

/-- The flag of an insertion tells whether the number was absent. -/
theorem Ascending.insert_snd_iff (hs : s.Ascending) : (s.insert x).2 = true ↔ x ∉ s.elems := by
  unfold SparseSet.insert
  split
  case h_1 hnone =>
    rw [List.getLast?_eq_none_iff.1 hnone]
    simp
  case h_2 last hlast =>
    split
    case isTrue hlt =>
      refine iff_of_true rfl fun hx ↦ ?_
      exact Nat.not_lt.2 (le_of_getLast? hs hlast hx) hlt
    case isFalse =>
      split
      case h_1 hfound =>
        have hx := mem_of_search hfound
        exact iff_of_false Bool.false_ne_true fun hnot ↦ hnot hx
      case h_2 place hplace => exact iff_of_true rfl (not_mem_of_search hs hplace)

theorem ascending_ofList (xs : List Nat) : (ofList xs).Ascending := by
  have hfold : ∀ s : SparseSet, s.Ascending →
      (xs.foldl (fun s x ↦ (s.insert x).1) s).Ascending := by
    induction xs with
    | nil => exact fun s hs ↦ hs
    | cons x xs ih => exact fun s hs ↦ ih _ (hs.insert x)
  exact hfold ∅ List.Pairwise.nil

/-! ## Comparing -/

theorem sublist_without (xs ys : List Nat) : (without xs ys).Sublist xs := by
  fun_induction without xs ys with
  | case1 ys => exact .slnil
  | case2 xs => exact .refl _
  | case3 x xs y ys hlt ih => exact ih.cons_cons x
  | case4 x xs y ys hle hlt ih => exact ih
  | case5 x xs y ys hle hge ih => exact ih.cons x

/-- Going through two ascending lists side by side leaves what only the first has. -/
theorem mem_without (hxs : xs.Pairwise (· < ·)) (hys : ys.Pairwise (· < ·)) :
    n ∈ without xs ys ↔ n ∈ xs ∧ n ∉ ys := by
  fun_induction without xs ys with
  | case1 ys => simp
  | case2 xs => simp
  | case3 x xs y ys hlt ih =>
    have habsent : n = x → n ∉ y :: ys := by
      rintro rfl hn
      exact Nat.lt_irrefl n (lt_of_lt_head hys hlt hn)
    rw [List.mem_cons, ih (List.pairwise_cons.1 hxs).2 hys, List.mem_cons (a := n) (b := x)]
    grind
  | case4 x xs y ys hle hlt ih =>
    have hne : n ∈ x :: xs → n ≠ y := fun hn ↦ (lt_of_lt_head hxs hlt hn).ne'
    rw [ih hxs (List.pairwise_cons.1 hys).2, List.mem_cons (a := n) (b := y)]
    grind
  | case5 x xs y ys hle hge ih =>
    obtain rfl : x = y := by omega
    obtain ⟨hbelow, hxs⟩ := List.pairwise_cons.1 hxs
    have hne : n ∈ xs → n ≠ x := fun hn ↦ (hbelow n hn).ne'
    rw [ih hxs (List.pairwise_cons.1 hys).2, List.mem_cons, List.mem_cons]
    grind

theorem meets_iff (hxs : xs.Pairwise (· < ·)) (hys : ys.Pairwise (· < ·)) :
    meets xs ys = true ↔ ∃ n, n ∈ xs ∧ n ∈ ys := by
  fun_induction meets xs ys with
  | case1 ys => simp
  | case2 xs => simp
  | case3 x xs y ys hlt ih =>
    have habsent : x ∉ y :: ys := fun hx ↦ Nat.lt_irrefl x (lt_of_lt_head hys hlt hx)
    rw [ih (List.pairwise_cons.1 hxs).2 hys]
    grind
  | case4 x xs y ys hle hlt ih =>
    have habsent : y ∉ x :: xs := fun hy ↦ Nat.lt_irrefl y (lt_of_lt_head hxs hlt hy)
    rw [ih hxs (List.pairwise_cons.1 hys).2]
    grind
  | case5 x xs y ys hle hge =>
    obtain rfl : x = y := by omega
    exact iff_of_true rfl ⟨x, List.mem_cons_self, List.mem_cons_self⟩

/-! ## Members -/

/-- The finite set that a sparse set stands for. -/
def toFinset (s : SparseSet) : Finset Nat := s.elems.toFinset

@[simp] theorem mem_toFinset : n ∈ s.toFinset ↔ n ∈ s.elems := List.mem_toFinset

theorem Ascending.card_toFinset (hs : s.Ascending) : s.toFinset.card = s.size :=
  List.toFinset_card_of_nodup (hs.imp Nat.ne_of_lt)

theorem Ascending.eq_iff (hs : s.Ascending) (ht : t.Ascending) :
    s = t ↔ s.toFinset = t.toFinset := by
  constructor
  · exact congrArg toFinset
  · intro heq
    have helems : s.elems = t.elems := by
      apply List.Pairwise.eq_of_mem_iff hs ht
      intro n
      rw [← mem_toFinset, heq, mem_toFinset]
    obtain ⟨xs⟩ := s
    exact congrArg SparseSet.mk helems

theorem Ascending.toFinset_difference (hs : s.Ascending) (ht : t.Ascending) :
    (s.difference t).toFinset = s.toFinset \ t.toFinset := by
  ext n
  rw [Finset.mem_sdiff, mem_toFinset, mem_toFinset, mem_toFinset]
  exact mem_without hs ht

/-- That a larger set is no subset is true of finite sets, so the sizes decide nothing that the members
would not. -/
theorem Ascending.isSubset_iff (hs : s.Ascending) (ht : t.Ascending) :
    s.isSubset t = true ↔ s.toFinset ⊆ t.toFinset := by
  have hempty : (s.difference t).isEmpty = true ↔ s.toFinset \ t.toFinset = ∅ := by
    rw [← hs.toFinset_difference ht]
    unfold SparseSet.isEmpty toFinset
    rw [List.isEmpty_iff, List.toFinset_eq_empty_iff]
  unfold SparseSet.isSubset
  rw [Bool.and_eq_true, decide_eq_true_eq, hempty, Finset.sdiff_eq_empty_iff_subset,
    ← hs.card_toFinset, ← ht.card_toFinset]
  exact and_iff_right_of_imp Finset.card_le_card

/-! ## Operations -/

/-- The sets that come from the constructors by any sequence of operations. -/
inductive Made : SparseSet → Prop
  | empty : Made ∅
  | singleton (x : Nat) : Made (.singleton x)
  | ofList (xs : List Nat) : Made (.ofList xs)
  | insert {s : SparseSet} (x : Nat) : Made s → Made (s.insert x).1
  | union {s t : SparseSet} : Made s → Made t → Made (s.union t).1
  | added {s t : SparseSet} : Made s → Made t → Made (s.union t).2
  | difference {s t : SparseSet} : Made s → Made t → Made (s.difference t)

theorem Made.ascending (h : s.Made) : s.Ascending := by
  induction h with
  | empty => exact List.Pairwise.nil
  | singleton x => exact List.pairwise_singleton _ x
  | ofList xs => exact ascending_ofList xs
  | insert x _ ih => exact ih.insert x
  | union _ _ ihs iht => exact pairwise_merge ihs iht
  | added _ _ ihs iht => exact pairwise_merge_added ihs iht
  | difference _ _ ihs _ => exact ihs.sublist (sublist_without _ _)

/-- The operations on `s`, and on `s` and `t`, are those on the finite sets that they stand for, and the
sets that they return ascend. -/
structure Refines (s t : SparseSet) : Prop where
  ascending : s.Ascending
  insert : ∀ x, (s.insert x).1.toFinset = Insert.insert x s.toFinset ∧ (s.insert x).1.Ascending
  /-- The flag of an insertion. -/
  absent : ∀ x, (s.insert x).2 = true ↔ x ∉ s.toFinset
  union : (s.union t).1.toFinset = s.toFinset ∪ t.toFinset ∧ (s.union t).1.Ascending
  /-- What a union reports as added. -/
  added : (s.union t).2.toFinset = t.toFinset \ s.toFinset ∧ (s.union t).2.Ascending
  difference : (s.difference t).toFinset = s.toFinset \ t.toFinset ∧ (s.difference t).Ascending
  intersects : s.intersects t = true ↔ (s.toFinset ∩ t.toFinset).Nonempty
  isSubset : s.isSubset t = true ↔ s.toFinset ⊆ t.toFinset
  contains : ∀ x, s.contains x = true ↔ x ∈ s.toFinset
  eq : s = t ↔ s.toFinset = t.toFinset

/-- Ascending lists behave as the finite sets of their items. -/
theorem Ascending.refines (hs : s.Ascending) (ht : t.Ascending) : s.Refines t where
  ascending := hs
  insert x := by
    refine ⟨?_, hs.insert x⟩
    ext n
    rw [mem_toFinset, mem_insert, Finset.mem_insert, mem_toFinset, or_comm]
  absent x := by rw [hs.insert_snd_iff, mem_toFinset]
  union := by
    refine ⟨?_, pairwise_merge hs ht⟩
    ext n
    rw [mem_toFinset, Finset.mem_union, mem_toFinset, mem_toFinset]
    exact mem_merge
  added := by
    refine ⟨?_, pairwise_merge_added hs ht⟩
    ext n
    rw [mem_toFinset, Finset.mem_sdiff, mem_toFinset, mem_toFinset]
    exact mem_merge_added hs ht
  difference := ⟨hs.toFinset_difference ht, hs.sublist (sublist_without _ _)⟩
  intersects := by
    unfold SparseSet.intersects Finset.Nonempty
    simp only [meets_iff hs ht, Finset.mem_inter, mem_toFinset]
  isSubset := hs.isSubset_iff ht
  contains x := by
    rw [mem_toFinset]
    exact search_fst_iff hs
  eq := hs.eq_iff ht

end SparseSet

/-! ## Sets of objects -/

/-- Ascending lists are equal if they have the same members. -/
theorem Id.eq_of_mem_iff {e : Entity} {as bs : List (Id e)}
    (has : as.Pairwise fun a b ↦ a.index < b.index) (hbs : bs.Pairwise fun a b ↦ a.index < b.index)
    (hmem : ∀ i, i ∈ as ↔ i ∈ bs) : as = bs := by
  have hindices : as.map Id.index = bs.map Id.index := by
    apply List.Pairwise.eq_of_mem_iff (List.pairwise_map.2 has) (List.pairwise_map.2 hbs)
    intro n
    simp only [List.mem_map, hmem]
  exact List.map_injective_iff.2 (fun a b ↦ Id.index_inj.1) hindices

theorem SparseSet.Ascending.pairwise_ids {e : Entity} {s : SparseSet} (hs : s.Ascending) :
    (s.elems.map (Id.mk (e := e))).Pairwise fun a b ↦ a.index < b.index :=
  List.pairwise_map.2 hs

namespace PointsToSet

variable {e : Entity} {s t : PointsToSet e} {o : Id e}

theorem ascending_ofList (os : List (Id e)) : (ofList os).Ascending := SparseSet.ascending_ofList _

theorem Ascending.pairwise_toList (hs : s.Ascending) :
    s.toList.Pairwise fun a b ↦ a.index < b.index :=
  SparseSet.Ascending.pairwise_ids hs

theorem Ascending.ext (hs : s.Ascending) (ht : t.Ascending)
    (hmem : ∀ o, o ∈ s.toList ↔ o ∈ t.toList) : s = t := by
  have hids : s.ids = t.ids := by
    apply (SparseSet.Ascending.eq_iff hs ht).2
    ext n
    rw [SparseSet.mem_toFinset, SparseSet.mem_toFinset]
    exact mem_toList.symm.trans ((hmem ⟨n⟩).trans mem_toList)
  obtain ⟨ids⟩ := s
  exact congrArg PointsToSet.mk hids

theorem Ascending.contains_iff (hs : s.Ascending) : s.contains o = true ↔ o ∈ s.toList :=
  (SparseSet.search_fst_iff hs).trans mem_toList.symm

theorem Ascending.intersects_iff (hs : s.Ascending) (ht : t.Ascending) :
    s.intersects t = true ↔ ∃ o, o ∈ s.toList ∧ o ∈ t.toList := by
  refine (SparseSet.meets_iff hs ht).trans ?_
  constructor
  · rintro ⟨n, hs, ht⟩
    exact ⟨⟨n⟩, mem_toList.2 hs, mem_toList.2 ht⟩
  · rintro ⟨o, hs, ht⟩
    exact ⟨o.index, mem_toList.1 hs, mem_toList.1 ht⟩

end PointsToSet

/-! ## Results -/

/-- Sets that were made by the constructors and any operations stand for finite sets of numbers: the
constructors for the empty set, a single number and the numbers of a list, and every operation on two
such sets for the operation on finite sets. All lists ascend, and sets are equal if their members are. -/
theorem sparseSet_refines_finset {s t : SparseSet} (hs : s.Made) (ht : t.Made) :
    (∅ : SparseSet).toFinset = ∅ ∧ (∀ x, (SparseSet.singleton x).toFinset = {x}) ∧
    (∀ xs, (SparseSet.ofList xs).toFinset = xs.toFinset) ∧ s.Refines t := by
  refine ⟨rfl, fun x ↦ rfl, fun xs ↦ ?_, hs.ascending.refines ht.ascending⟩
  ext n
  rw [SparseSet.mem_toFinset, SparseSet.mem_ofList, List.mem_toFinset]

theorem sparseSet_refines_finset_merged :
    ∃ s t : SparseSet, s.Made ∧ t.Made ∧ s.elems = [1, 3, 5, 7] ∧ t.elems = [2, 3, 9] ∧
      (s.union t).1.toFinset = s.toFinset ∪ t.toFinset ∧ (s.union t).1.elems = [1, 2, 3, 5, 7, 9] ∧
      (s.union t).2.toFinset = t.toFinset \ s.toFinset ∧ (s.union t).2.elems = [2, 9] ∧
      (s.contains 4 = true ↔ 4 ∈ s.toFinset) ∧ s.contains 4 = false := by
  have hs : ((SparseSet.ofList [5, 1, 5, 7]).insert 3).1.Made := .insert 3 (.ofList [5, 1, 5, 7])
  have ht : ((SparseSet.singleton 9).union (.ofList [3, 2])).1.Made :=
    .union (.singleton 9) (.ofList [3, 2])
  obtain ⟨-, -, -, h⟩ := sparseSet_refines_finset hs ht
  exact ⟨_, _, hs, ht, by decide +kernel, by decide +kernel, h.union.1, by decide +kernel,
    h.added.1, by decide +kernel, h.contains 4, by decide +kernel⟩

end PointsTo
