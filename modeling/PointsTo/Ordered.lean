/-!
# Ordered association lists

Association lists kept ascending by their keys.
-/

namespace PointsTo.Ordered

variable {κ ν : Type}

/-- Sets the value of a key from the value it had, if any. -/
def alter [DecidableEq κ] (lt : κ → κ → Bool) (k : κ) (f : Option ν → ν) :
    List (κ × ν) → List (κ × ν)
  | [] => [(k, f none)]
  | (k', v) :: rest =>
    if k = k' then (k, f (some v)) :: rest
    else if lt k k' then (k, f none) :: (k', v) :: rest
    else (k', v) :: alter lt k f rest

section

variable [DecidableEq κ] {lt : κ → κ → Bool} {k k' : κ} {f : Option ν → ν} {l : List (κ × ν)}

theorem mem_keys_alter :
    k' ∈ (alter lt k f l).map Prod.fst ↔ k' ∈ l.map Prod.fst ∨ k' = k := by
  induction l with
  | nil => simp [alter]
  | cons a rest ih =>
    unfold alter
    split
    case isTrue heq => simp [heq, or_comm]
    case isFalse =>
      split
      case isTrue => simp [or_comm]
      case isFalse => rw [List.map_cons, List.mem_cons, ih, List.map_cons, List.mem_cons, or_assoc]

theorem lookup_cons {v : ν} :
    ((k, v) :: l).lookup k' = if k' = k then some v else l.lookup k' := by
  rw [List.lookup_cons]
  by_cases h : k' = k
  · rw [if_pos h, beq_iff_eq.2 h]
  · rw [if_neg h, beq_false_of_ne h]

variable (trans : ∀ {a b c}, lt a b = true → lt b c = true → lt a c = true)

include trans

/-- Altering a key keeps the keys ascending. -/
theorem pairwise_alter (connected : ∀ {a b}, a ≠ b → lt a b = true ∨ lt b a = true)
    (h : (l.map Prod.fst).Pairwise (lt · ·)) : ((alter lt k f l).map Prod.fst).Pairwise (lt · ·) := by
  induction l with
  | nil => exact List.pairwise_singleton _ k
  | cons a rest ih =>
    obtain ⟨hbelow, hrest⟩ := List.pairwise_cons.1 h
    unfold alter
    split
    case isTrue heq => exact List.pairwise_cons.2 ⟨heq ▸ hbelow, hrest⟩
    case isFalse hne =>
      split
      case isTrue hlt =>
        refine List.pairwise_cons.2 ⟨fun c hc ↦ ?_, h⟩
        rcases List.mem_cons.1 hc with rfl | hc
        · exact hlt
        · exact trans hlt (hbelow c hc)
      case isFalse hle =>
        refine List.pairwise_cons.2 ⟨fun c hc ↦ ?_, ih hrest⟩
        rcases mem_keys_alter.1 hc with hc | rfl
        · exact hbelow c hc
        · exact (connected hne).resolve_left hle

/-- Altering one key of an ascending list leaves the values of all others. -/
theorem lookup_alter (irrefl : ∀ {a}, ¬ lt a a = true) (h : (l.map Prod.fst).Pairwise (lt · ·)) :
    (alter lt k f l).lookup k' = if k' = k then some (f (l.lookup k)) else l.lookup k' := by
  induction l with
  | nil => exact lookup_cons
  | cons a rest ih =>
    obtain ⟨hbelow, hrest⟩ := List.pairwise_cons.1 h
    unfold alter
    split
    case isTrue heq =>
      rw [lookup_cons, lookup_cons, lookup_cons, if_pos heq, ← heq]
      split <;> rfl
    case isFalse hne =>
      split
      case isTrue hlt =>
        -- Everything in the list is above `k`, so `k` has no value yet.
        have hnone : (a :: rest).lookup k = none := by
          rw [List.lookup_eq_none_iff]
          intro b hb
          rcases List.mem_cons.1 hb with rfl | hb
          · simpa using hne
          · have hkb := trans hlt (hbelow b.1 (List.mem_map_of_mem hb))
            have hne' : k ≠ b.1 := fun heq ↦ irrefl (heq ▸ hkb)
            simpa using hne'
        rw [lookup_cons, hnone]
      case isFalse =>
        rw [lookup_cons, lookup_cons, lookup_cons, if_neg hne, ih hrest]
        by_cases hka : k' = a.1
        · have hk : k' ≠ k := fun heq ↦ hne (heq.symm.trans hka)
          rw [if_pos hka, if_neg hk, if_pos hka]
        · rw [if_neg hka, if_neg hka]

end

end PointsTo.Ordered
