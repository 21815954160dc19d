import PointsTo.Table

/-!
# What interning keeps

A table is read through `nth?`: the numbers given so far with their keys and values. Interning
appends at most one entry, changing a value leaves all keys in place, and so every number keeps the
key it once had. Values by key (`get?`) and membership of keys (`contains`) follow from that.
-/

namespace PointsTo.Table

variable {κ ν : Type} [Coded κ]

theorem key?_eq_some_iff {t : Table κ ν} {i : Nat} {k : κ} :
    t.key? i = some k ↔ ∃ v, t.nth? i = some (k, v) := by
  simp [key?, Option.map_eq_some_iff]

theorem key?_of_nth? {t : Table κ ν} {i : Nat} {k : κ} {v : ν} (h : t.nth? i = some (k, v)) :
    t.key? i = some k :=
  key?_eq_some_iff.2 ⟨v, h⟩

/-- Two numbers of one key are equal. -/
theorem key?_inj {t : Table κ ν} {i j : Nat} {k : κ} (hi : t.key? i = some k)
    (hj : t.key? j = some k) : i = j := by
  rw [← find?_eq_some_iff] at hi hj
  rw [hi] at hj
  exact Option.some.inj hj

theorem get?_eq_some_iff {t : Table κ ν} {k : κ} {v : ν} :
    t.get? k = some v ↔ ∃ i, t.nth? i = some (k, v) := by
  unfold get?
  rw [Option.bind_eq_some_iff]
  constructor
  · rintro ⟨i, hi, hv⟩
    obtain ⟨u, hu⟩ := key?_eq_some_iff.1 (find?_eq_some_iff.1 hi)
    obtain rfl : u = v := by simpa [value?, hu] using hv
    exact ⟨i, hu⟩
  · rintro ⟨i, hi⟩
    exact ⟨i, find?_eq_some_iff.2 (key?_of_nth? hi), by simp [value?, hi]⟩

theorem find?_eq_none_iff {t : Table κ ν} {k : κ} :
    t.find? k = none ↔ ∀ i v, t.nth? i ≠ some (k, v) := by
  rw [Option.eq_none_iff_forall_ne_some]
  constructor
  · intro h i v hi
    exact h i (find?_eq_some_iff.2 (key?_of_nth? hi))
  · intro h i hi
    obtain ⟨v, hv⟩ := key?_eq_some_iff.1 (find?_eq_some_iff.1 hi)
    exact h i v hv

theorem contains_iff {t : Table κ ν} {k : κ} : t.contains k = true ↔ ∃ i, t.key? i = some k := by
  unfold contains
  rw [Option.isSome_iff_exists]
  simp only [find?_eq_some_iff]

theorem mem_toList_iff {t : Table κ ν} {k : κ} {v : ν} :
    (k, v) ∈ t.toList ↔ t.get? k = some v := by
  rw [get?_eq_some_iff]
  simp only [toList, nth?, Array.mem_toList_iff, Array.mem_iff_getElem?]

theorem mem_keys_iff {t : Table κ ν} {k : κ} : k ∈ t.keys ↔ t.contains k = true := by
  rw [contains_iff]
  simp only [key?_eq_some_iff, nth?, keys, toList, List.mem_map, Array.mem_toList_iff,
    Array.mem_iff_getElem?]
  constructor
  · rintro ⟨⟨k', v⟩, ⟨i, hi⟩, rfl⟩
    exact ⟨i, v, hi⟩
  · rintro ⟨i, v, hi⟩
    exact ⟨(k, v), ⟨i, hi⟩, rfl⟩

theorem getElem?_keys (t : Table κ ν) (i : Nat) : t.keys[i]? = t.key? i := by
  simp [keys, toList, key?, nth?]

/-- No key has two numbers. -/
theorem nodup_keys (t : Table κ ν) : t.keys.Nodup := by
  rw [List.nodup_iff_pairwise_ne, List.pairwise_iff_getElem]
  intro i j hi hj hlt heq
  have hi' : t.key? i = some t.keys[i] := by rw [← getElem?_keys, List.getElem?_eq_getElem hi]
  have hj' : t.key? j = some t.keys[j] := by rw [← getElem?_keys, List.getElem?_eq_getElem hj]
  rw [heq] at hi'
  exact Nat.ne_of_lt hlt (key?_inj hi' hj')

theorem keys_intern_of_fresh {t : Table κ ν} {k : κ} {v : ν} (h : k ∉ t.keys) :
    (t.intern k v).1.keys = t.keys ++ [k] := by
  have hfresh : t.find? k = none := by
    rw [mem_keys_iff, contains, Bool.not_eq_true, Option.isSome_eq_false_iff,
      Option.isNone_iff_eq_none] at h
    exact h
  rw [intern_of_fresh hfresh, keys, toList_push, List.map_append]
  rfl

@[simp] theorem nth?_empty (i : Nat) : (∅ : Table κ ν).nth? i = none := by
  change (#[] : Array (κ × ν))[i]? = none
  simp

@[simp] theorem get?_empty (k : κ) : (∅ : Table κ ν).get? k = none := by
  rw [Option.eq_none_iff_forall_ne_some]
  intro v hv
  obtain ⟨i, hi⟩ := get?_eq_some_iff.1 hv
  simp at hi

@[simp] theorem key?_empty (i : Nat) : (∅ : Table κ ν).key? i = none := by simp [key?]

@[simp] theorem contains_empty (k : κ) : (∅ : Table κ ν).contains k = false := by
  rw [← Bool.not_eq_true, contains_iff]
  simp

theorem nth?_size (t : Table κ ν) : t.nth? t.size = none := by simp [nth?, size]

theorem nth?_push_iff {t : Table κ ν} {k : κ} {v : ν} {fresh : t.find? k = none} {i : Nat}
    {e : κ × ν} :
    (t.push k v fresh).nth? i = some e ↔ t.nth? i = some e ∨ i = t.size ∧ e = (k, v) := by
  change (t.entries.push (k, v))[i]? = some e ↔ _
  rw [Array.getElem?_push]
  by_cases hi : i = t.size
  · have hi' : i = t.entries.size := hi
    rw [if_pos hi', hi, nth?_size]
    simp [eq_comm]
  · have hi' : i ≠ t.entries.size := hi
    simp [hi, hi', nth?]

/-- Interning adds at most one entry, at the end. -/
theorem nth?_intern_iff {t : Table κ ν} {k : κ} {v : ν} {i : Nat} {e : κ × ν} :
    (t.intern k v).1.nth? i = some e ↔
      t.nth? i = some e ∨ t.find? k = none ∧ i = t.size ∧ e = (k, v) := by
  cases h : t.find? k with
  | some j => simp [intern_of_find? h]
  | none => simp [intern_of_fresh h, nth?_push_iff]

theorem nth?_intern_of_nth? {t : Table κ ν} {k : κ} {v : ν} {i : Nat} {e : κ × ν}
    (h : t.nth? i = some e) : (t.intern k v).1.nth? i = some e :=
  nth?_intern_iff.2 (.inl h)

theorem key?_intern_of_key? {t : Table κ ν} {k k' : κ} {v : ν} {i : Nat} (h : t.key? i = some k') :
    (t.intern k v).1.key? i = some k' := by
  obtain ⟨u, hu⟩ := key?_eq_some_iff.1 h
  exact key?_of_nth? (nth?_intern_of_nth? hu)

/-- The number that interning gives is the number of the key. -/
theorem key?_intern_self (t : Table κ ν) (k : κ) (v : ν) :
    (t.intern k v).1.key? (t.intern k v).2 = some k := by
  cases h : t.find? k with
  | some j => rw [intern_of_find? h]; exact find?_eq_some_iff.1 h
  | none =>
    have pushed : (t.push k v h).nth? t.size = some (k, v) :=
      nth?_push_iff.2 (.inr ⟨rfl, rfl⟩)
    rw [intern_of_fresh h]
    exact key?_of_nth? pushed

theorem key?_intern_iff {t : Table κ ν} {k k' : κ} {v : ν} {i : Nat} :
    (t.intern k v).1.key? i = some k' ↔ t.key? i = some k' ∨ i = (t.intern k v).2 ∧ k' = k := by
  constructor
  · intro h
    obtain ⟨u, hu⟩ := key?_eq_some_iff.1 h
    rcases nth?_intern_iff.1 hu with hold | ⟨hfresh, hi, he⟩
    · exact .inl (key?_of_nth? hold)
    · obtain ⟨rfl, -⟩ := Prod.mk.inj he
      exact .inr ⟨by rw [intern_of_fresh hfresh, hi], rfl⟩
  · rintro (h | ⟨rfl, rfl⟩)
    · exact key?_intern_of_key? h
    · exact key?_intern_self t k' v

theorem contains_intern {t : Table κ ν} {k k' : κ} {v : ν} :
    (t.intern k v).1.contains k' = true ↔ t.contains k' = true ∨ k' = k := by
  simp only [contains_iff, key?_intern_iff]
  constructor
  · rintro ⟨i, hi | ⟨-, rfl⟩⟩
    · exact .inl ⟨i, hi⟩
    · exact .inr rfl
  · rintro (⟨i, hi⟩ | rfl)
    · exact ⟨i, .inl hi⟩
    · exact ⟨_, .inr ⟨rfl, rfl⟩⟩

/-- What interning finds or puts under a key: the value that was there, or the new one. -/
theorem get?_intern [DecidableEq κ] (t : Table κ ν) (k k' : κ) (v : ν) :
    (t.intern k v).1.get? k' = if k' = k then some ((t.get? k).getD v) else t.get? k' := by
  apply Option.ext
  intro u
  rw [get?_eq_some_iff]
  simp only [nth?_intern_iff]
  by_cases hk : k' = k
  · subst hk
    rw [if_pos rfl]
    cases h : t.get? k' with
    | some w =>
      obtain ⟨j, hj⟩ := get?_eq_some_iff.1 h
      have found : t.find? k' ≠ none := fun hn ↦ find?_eq_none_iff.1 hn j w hj
      constructor
      · rintro ⟨i, hi | ⟨hn, -⟩⟩
        · rw [Option.getD_some, ← h]
          exact get?_eq_some_iff.2 ⟨i, hi⟩
        · exact absurd hn found
      · intro hu
        exact ⟨j, .inl (by rw [hj, ← Option.some.inj hu, Option.getD_some])⟩
    | none =>
      have absent : t.find? k' = none := by
        refine find?_eq_none_iff.2 fun i w hw ↦ ?_
        rw [get?_eq_some_iff.2 ⟨i, hw⟩] at h
        cases h
      constructor
      · rintro ⟨i, hi | ⟨-, -, he⟩⟩
        · exact absurd hi (find?_eq_none_iff.1 absent i u)
        · simp [(Prod.mk.inj he).2]
      · intro hu
        exact ⟨t.size, .inr ⟨absent, rfl, by rw [← Option.some.inj hu, Option.getD_none]⟩⟩
  · rw [if_neg hk, get?_eq_some_iff]
    constructor
    · rintro ⟨i, hi | ⟨-, -, he⟩⟩
      · exact ⟨i, hi⟩
      · exact absurd (Prod.mk.inj he).1 hk
    · rintro ⟨i, hi⟩
      exact ⟨i, .inl hi⟩

theorem nth?_modify (t : Table κ ν) (i j : Nat) (f : ν → ν) :
    (t.modify i f).nth? j =
      (t.nth? j).map fun e ↦ if i = j then (e.1, f e.2) else e := by
  change (t.entries.modify i fun e ↦ (e.1, f e.2))[j]? = _
  rw [Array.getElem?_modify]
  unfold nth?
  split <;> simp

theorem nth?_modify_iff {t : Table κ ν} {i j : Nat} {f : ν → ν} {k : κ} {v : ν} :
    (t.modify i f).nth? j = some (k, v) ↔
      ∃ u, t.nth? j = some (k, u) ∧ v = if i = j then f u else u := by
  rw [nth?_modify, Option.map_eq_some_iff]
  by_cases h : i = j
  · simp only [if_pos h, Prod.exists, Prod.mk.injEq]
    constructor
    · rintro ⟨a, u, hu, rfl, rfl⟩
      exact ⟨u, hu, rfl⟩
    · rintro ⟨u, hu, rfl⟩
      exact ⟨k, u, hu, rfl, rfl⟩
  · simp [h]

/-- Changing the value of one key leaves the values of all others. -/
theorem get?_modify [DecidableEq κ] {t : Table κ ν} {i : Nat} {f : ν → ν} {k : κ}
    (h : t.key? i = some k) (k' : κ) :
    (t.modify i f).get? k' = if k' = k then (t.get? k).map f else t.get? k' := by
  apply Option.ext
  intro v
  simp only [get?_eq_some_iff, nth?_modify_iff]
  by_cases hk : k' = k
  · subst hk
    rw [if_pos rfl, Option.map_eq_some_iff]
    constructor
    · rintro ⟨j, u, hu, rfl⟩
      rw [if_pos (key?_inj h (key?_of_nth? hu))]
      exact ⟨u, get?_eq_some_iff.2 ⟨j, hu⟩, rfl⟩
    · rintro ⟨u, hu, rfl⟩
      obtain ⟨j, hj⟩ := get?_eq_some_iff.1 hu
      exact ⟨j, u, hj, by rw [if_pos (key?_inj h (key?_of_nth? hj))]⟩
  · rw [if_neg hk, get?_eq_some_iff]
    have other : ∀ {j u}, t.nth? j = some (k', u) → i ≠ j := by
      rintro j u hu rfl
      rw [key?_of_nth? hu] at h
      exact hk (Option.some.inj h)
    constructor
    · rintro ⟨j, u, hu, rfl⟩
      rw [if_neg (other hu)]
      exact ⟨j, hu⟩
    · rintro ⟨j, hj⟩
      exact ⟨j, v, hj, by rw [if_neg (other hj)]⟩

/-- Altering touches the value of one key, which it gives a first value if it has none. -/
theorem get?_alter [DecidableEq κ] (t : Table κ ν) (k k' : κ) (v : ν) (f : ν → ν) :
    (t.alter k v f).get? k' = if k' = k then some (f ((t.get? k).getD v)) else t.get? k' := by
  change ((t.intern k v).1.modify (t.intern k v).2 f).get? k' = _
  rw [get?_modify (key?_intern_self t k v), get?_intern, get?_intern, if_pos rfl]
  by_cases hk : k' = k
  · simp [hk]
  · simp [hk]

end PointsTo.Table
