import PointsTo.SparseSet
import Mathlib.Data.List.InsertIdx
import Mathlib.Order.Nat
import Mathlib.Tactic.Tauto

/-!
# Merging ascending sets

On ascending lists a merge is a union, and what it reports as added is what only the second list has.
Both come out ascending again, so the sets of a points-to analysis stay ascending throughout.
-/

namespace PointsTo

namespace SparseSet

/-- What lies below the first item of an ascending list lies below all of it. -/
theorem lt_of_lt_head {x y m : Nat} {ys : List Nat} (hy : (y :: ys).Pairwise (· < ·)) (hlt : x < y)
    (hm : m ∈ y :: ys) : x < m := by
  rcases List.mem_cons.1 hm with rfl | hm
  · exact hlt
  · exact hlt.trans ((List.pairwise_cons.1 hy).1 m hm)

variable {xs ys : List Nat} {n : Nat}

theorem mem_merge : n ∈ (merge xs ys).1 ↔ n ∈ xs ∨ n ∈ ys := by
  fun_induction merge xs ys with
  | case1 ys => simp
  | case2 xs => simp
  | case3 x xs y ys hlt all added heq ih => simp_all [or_assoc]
  | case4 x xs y ys hle hlt all added heq ih =>
    simp_all only [List.mem_cons]
    grind
  | case5 x xs y ys hle hge all added heq ih =>
    obtain rfl : x = y := by omega
    simp_all only [List.mem_cons]
    grind

/-- A merge reports as added what only the second list has. -/
theorem mem_merge_added (hx : xs.Pairwise (· < ·)) (hy : ys.Pairwise (· < ·)) :
    n ∈ (merge xs ys).2 ↔ n ∈ ys ∧ n ∉ xs := by
  fun_induction merge xs ys with
  | case1 ys => simp
  | case2 xs => simp
  | case3 x xs y ys hlt all added heq ih =>
    have step : n ∈ added ↔ n ∈ y :: ys ∧ n ∉ xs := by
      simpa [heq] using ih (List.pairwise_cons.1 hx).2 hy
    have above : n ∈ y :: ys → n ≠ x := fun hn ↦ (lt_of_lt_head hy hlt hn).ne'
    change n ∈ added ↔ _
    rw [step, List.mem_cons (a := n) (b := x)]
    grind
  | case4 x xs y ys hle hlt all added heq ih =>
    have step : n ∈ added ↔ n ∈ ys ∧ n ∉ x :: xs := by
      simpa [heq] using ih hx (List.pairwise_cons.1 hy).2
    have absent : n = y → n ∉ x :: xs := by
      rintro rfl hm
      exact lt_irrefl _ (lt_of_lt_head hx hlt hm)
    change n ∈ y :: added ↔ _
    rw [List.mem_cons, step, List.mem_cons (a := n) (b := y)]
    grind
  | case5 x xs y ys hle hge all added heq ih =>
    obtain rfl : x = y := by omega
    obtain ⟨hbelow, hys⟩ := List.pairwise_cons.1 hy
    have step : n ∈ added ↔ n ∈ ys ∧ n ∉ xs := by
      simpa [heq] using ih (List.pairwise_cons.1 hx).2 hys
    have above : n ∈ ys → n ≠ x := fun hn ↦ (hbelow n hn).ne'
    change n ∈ added ↔ _
    rw [step, List.mem_cons, List.mem_cons]
    grind

/-- Merging ascending lists gives an ascending one. -/
theorem pairwise_merge (hx : xs.Pairwise (· < ·)) (hy : ys.Pairwise (· < ·)) :
    (merge xs ys).1.Pairwise (· < ·) := by
  fun_induction merge xs ys with
  | case1 ys => exact hy
  | case2 xs => exact hx
  | case3 x xs y ys hlt all added heq ih =>
    obtain ⟨hbelow, hxs⟩ := List.pairwise_cons.1 hx
    refine List.pairwise_cons.2 ⟨fun m hm ↦ ?_, by simpa [heq] using ih hxs hy⟩
    have hm : m ∈ (merge xs (y :: ys)).1 := by simpa [heq] using hm
    rcases mem_merge.1 hm with hm | hm
    · exact hbelow m hm
    · exact lt_of_lt_head hy hlt hm
  | case4 x xs y ys hle hlt all added heq ih =>
    obtain ⟨hbelow, hys⟩ := List.pairwise_cons.1 hy
    refine List.pairwise_cons.2 ⟨fun m hm ↦ ?_, by simpa [heq] using ih hx hys⟩
    have hm : m ∈ (merge (x :: xs) ys).1 := by simpa [heq] using hm
    rcases mem_merge.1 hm with hm | hm
    · exact lt_of_lt_head hx hlt hm
    · exact hbelow m hm
  | case5 x xs y ys hle hge all added heq ih =>
    obtain rfl : x = y := by omega
    obtain ⟨hxbelow, hxs⟩ := List.pairwise_cons.1 hx
    obtain ⟨hybelow, hys⟩ := List.pairwise_cons.1 hy
    refine List.pairwise_cons.2 ⟨fun m hm ↦ ?_, by simpa [heq] using ih hxs hys⟩
    have hm : m ∈ (merge xs ys).1 := by simpa [heq] using hm
    rcases mem_merge.1 hm with hm | hm
    · exact hxbelow m hm
    · exact hybelow m hm

theorem pairwise_merge_added (hx : xs.Pairwise (· < ·)) (hy : ys.Pairwise (· < ·)) :
    (merge xs ys).2.Pairwise (· < ·) := by
  fun_induction merge xs ys with
  | case1 ys => exact hy
  | case2 xs => exact .nil
  | case3 x xs y ys hlt all added heq ih =>
    simpa [heq] using ih (List.pairwise_cons.1 hx).2 hy
  | case4 x xs y ys hle hlt all added heq ih =>
    obtain ⟨hbelow, hys⟩ := List.pairwise_cons.1 hy
    refine List.pairwise_cons.2 ⟨fun m hm ↦ ?_, by simpa [heq] using ih hx hys⟩
    have hm : m ∈ (merge (x :: xs) ys).2 := by simpa [heq] using hm
    exact hbelow m ((mem_merge_added hx hys).1 hm).1
  | case5 x xs y ys hle hge all added heq ih =>
    simpa [heq] using ih (List.pairwise_cons.1 hx).2 (List.pairwise_cons.1 hy).2

/-! ## Adding one number at a time -/

theorem mem_of_search {x place : Nat} (h : search xs x = (true, place)) : x ∈ xs := by
  simp only [search] at h
  split at h
  case h_1 => simp at h
  case h_2 y hy =>
    split at h
    case isTrue heq => exact heq ▸ List.mem_of_getElem? hy
    case isFalse => simp at h

theorem le_length_of_search {x place : Nat} (h : search xs x = (false, place)) :
    place ≤ xs.length := by
  simp only [search] at h
  split at h
  case h_1 =>
    obtain rfl : 0 = place := by simpa using h
    exact Nat.zero_le _
  case h_2 y hy =>
    have hlt := (List.getElem?_eq_some_iff.1 hy).1
    split at h
    case isTrue => simp at h
    case isFalse =>
      have hplace := (Prod.mk.inj h).2
      split at hplace <;> omega

theorem mem_insert {s : SparseSet} {x : Nat} : n ∈ (s.insert x).1.elems ↔ n ∈ s.elems ∨ n = x := by
  unfold insert
  split
  case h_1 hnone =>
    rw [List.getLast?_eq_none_iff.1 hnone]
    simp
  case h_2 last _ =>
    split
    case isTrue => simp
    case isFalse =>
      split
      case h_1 hfound =>
        have hx := mem_of_search hfound
        exact ⟨.inl, fun h ↦ h.elim id fun heq ↦ heq ▸ hx⟩
      case h_2 place hfound =>
        rw [List.mem_insertIdx (le_length_of_search hfound), or_comm]

theorem mem_ofList : n ∈ (ofList xs).elems ↔ n ∈ xs := by
  have hfold : ∀ s : SparseSet, n ∈ (xs.foldl (fun s x ↦ (s.insert x).1) s).elems ↔
      n ∈ s.elems ∨ n ∈ xs := by
    induction xs with
    | nil => simp
    | cons x xs ih =>
      intro s
      rw [List.foldl_cons, ih, mem_insert, List.mem_cons, or_assoc]
  rw [ofList, hfold]
  exact ⟨fun h ↦ h.resolve_left (List.not_mem_nil), .inr⟩

end SparseSet

namespace PointsToSet

variable {e : Entity} {s t : PointsToSet e} {o : Id e}

/-- The members stand in strictly ascending order. -/
def Ascending (s : PointsToSet e) : Prop := s.ids.Ascending

theorem mem_toList : o ∈ s.toList ↔ o.index ∈ s.ids.elems := by
  obtain ⟨n⟩ := o
  simp [toList]

@[simp] theorem toList_empty : (∅ : PointsToSet e).toList = [] := rfl

@[simp] theorem mem_singleton {x : Id e} : o ∈ (singleton x).toList ↔ o = x := by
  rw [mem_toList]
  simp [singleton, SparseSet.singleton]

theorem ascending_empty : (∅ : PointsToSet e).Ascending := List.Pairwise.nil

theorem ascending_singleton : (singleton o).Ascending := List.pairwise_singleton _ _

theorem isEmpty_iff : s.isEmpty = true ↔ s.toList = [] := by
  simp [isEmpty, SparseSet.isEmpty, toList]

@[simp] theorem mem_ofList {os : List (Id e)} : o ∈ (ofList os).toList ↔ o ∈ os := by
  rw [mem_toList]
  unfold ofList
  rw [SparseSet.mem_ofList]
  simp

theorem mem_addAll : o ∈ (s.addAll t).1.toList ↔ o ∈ s.toList ∨ o ∈ t.toList := by
  simp only [mem_toList]
  exact SparseSet.mem_merge

theorem mem_addAll_added (hs : s.Ascending) (ht : t.Ascending) :
    o ∈ (s.addAll t).2.toList ↔ o ∈ t.toList ∧ o ∉ s.toList := by
  simp only [mem_toList]
  exact SparseSet.mem_merge_added hs ht

theorem ascending_addAll (hs : s.Ascending) (ht : t.Ascending) : (s.addAll t).1.Ascending :=
  SparseSet.pairwise_merge hs ht

theorem ascending_addAll_added (hs : s.Ascending) (ht : t.Ascending) : (s.addAll t).2.Ascending :=
  SparseSet.pairwise_merge_added hs ht

end PointsToSet

end PointsTo
