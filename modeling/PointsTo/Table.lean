import PointsTo.Id
import Std.Data.TreeMap

/-!
# Interning tables

A `Table` gives consecutive numbers to distinct keys, in order of first use, and keeps a value for
each. Entries are never removed and a number never changes its key. Keys are found through an ordered
index over a `Coded` form of them; the field `agrees` says that the index holds exactly the entries,
so `find?` and `key?` are inverse to each other (`find?_eq_some_iff`).
-/

namespace PointsTo

/-- Keys determined by a list of numbers. -/
class Coded (κ : Type) where
  code : κ → List Nat
  code_inj : ∀ {a b : κ}, code a = code b → a = b

namespace Coded

instance : Coded Unit where
  code _ := []
  code_inj _ := rfl

instance {e : Entity} : Coded (Id e) where
  code i := [i.index]
  code_inj h := by simpa using h

theorem code_eq_iff {κ : Type} [Coded κ] {a b : κ} : code a = code b ↔ a = b :=
  ⟨code_inj, fun h ↦ h ▸ rfl⟩

end Coded

/-- Distinct keys with their values, numbered in order of first use. -/
structure Table (κ ν : Type) [Coded κ] where
  entries : Array (κ × ν)
  index : Std.TreeMap (List Nat) Nat
  agrees : ∀ k i, index[Coded.code k]? = some i ↔ (entries[i]?).map Prod.fst = some k

namespace Table

variable {κ ν : Type} [Coded κ]

def empty : Table κ ν where
  entries := #[]
  index := ∅
  agrees k i := by simp

instance : EmptyCollection (Table κ ν) := ⟨empty⟩

instance : Inhabited (Table κ ν) := ⟨empty⟩

def size (t : Table κ ν) : Nat := t.entries.size

def toList (t : Table κ ν) : List (κ × ν) := t.entries.toList

def keys (t : Table κ ν) : List κ := t.toList.map Prod.fst

/-- The key with number `i`, and its value. -/
def nth? (t : Table κ ν) (i : Nat) : Option (κ × ν) := t.entries[i]?

def key? (t : Table κ ν) (i : Nat) : Option κ := (t.nth? i).map Prod.fst

def value? (t : Table κ ν) (i : Nat) : Option ν := (t.nth? i).map Prod.snd

/-- The number of `k`, if it has one. -/
def find? (t : Table κ ν) (k : κ) : Option Nat := t.index[Coded.code k]?

def contains (t : Table κ ν) (k : κ) : Bool := (t.find? k).isSome

/-- The value kept for `k`, if `k` has a number. -/
def get? (t : Table κ ν) (k : κ) : Option ν := (t.find? k).bind t.value?

theorem find?_eq_some_iff {t : Table κ ν} {k : κ} {i : Nat} :
    t.find? k = some i ↔ t.key? i = some k := t.agrees k i

theorem key?_lt {t : Table κ ν} {k : κ} {i : Nat} (h : t.key? i = some k) : i < t.size := by
  unfold key? nth? at h
  obtain ⟨e, he, -⟩ := Option.map_eq_some_iff.1 h
  exact (Array.getElem?_eq_some_iff.1 he).1

/-- Appends an entry for a key that has none. -/
def push (t : Table κ ν) (k : κ) (v : ν) (fresh : t.find? k = none) : Table κ ν where
  entries := t.entries.push (k, v)
  index := t.index.insert (Coded.code k) t.entries.size
  agrees k' i := by
    rw [Std.TreeMap.getElem?_insert, Array.getElem?_push]
    by_cases hk : k = k'
    · subst hk
      rw [if_pos (by simp)]
      by_cases hi : i = t.entries.size
      · simp [hi]
      · rw [if_neg hi]
        refine ⟨fun h ↦ absurd (Option.some.inj h).symm hi, fun h ↦ ?_⟩
        have found : t.find? k = some i := (t.agrees k i).2 h
        rw [fresh] at found
        exact absurd found (by simp)
    · have hc : ¬ compare (Coded.code k) (Coded.code k') = .eq := by
        rw [Std.compare_eq_iff_eq, Coded.code_eq_iff]
        exact hk
      rw [if_neg hc, t.agrees]
      by_cases hi : i = t.entries.size
      · subst hi
        simp [hk]
      · rw [if_neg hi]

/-- The number of `k`, which is given the value `v` if it is new. -/
def intern (t : Table κ ν) (k : κ) (v : ν) : Table κ ν × Nat :=
  match h : t.find? k with
  | some i => (t, i)
  | none => (t.push k v h, t.size)

/-- Changes the value of the `i`-th entry, if there is one. -/
def modify (t : Table κ ν) (i : Nat) (f : ν → ν) : Table κ ν where
  entries := t.entries.modify i fun e ↦ (e.1, f e.2)
  index := t.index
  agrees k j := by
    rw [t.agrees, Array.getElem?_modify]
    split <;> cases t.entries[j]? <;> simp

/-- Changes the value of `k`, which starts as `v` if `k` is new. -/
def alter (t : Table κ ν) (k : κ) (v : ν) (f : ν → ν) : Table κ ν :=
  let (t, i) := t.intern k v
  t.modify i f

theorem size_push (t : Table κ ν) (k : κ) (v : ν) (fresh : t.find? k = none) :
    (t.push k v fresh).size = t.size + 1 := by
  simp [push, size]

theorem toList_push (t : Table κ ν) (k : κ) (v : ν) (fresh : t.find? k = none) :
    (t.push k v fresh).toList = t.toList ++ [(k, v)] := by
  simp [push, toList]

theorem intern_of_find? {t : Table κ ν} {k : κ} {v : ν} {i : Nat} (h : t.find? k = some i) :
    t.intern k v = (t, i) := by
  unfold intern
  split <;> simp_all

theorem intern_of_fresh {t : Table κ ν} {k : κ} {v : ν} (h : t.find? k = none) :
    t.intern k v = (t.push k v h, t.size) := by
  unfold intern
  split <;> simp_all

theorem key?_modify (t : Table κ ν) (i j : Nat) (f : ν → ν) : (t.modify i f).key? j = t.key? j := by
  unfold key? nth? modify
  simp only [Array.getElem?_modify]
  split <;> cases t.entries[j]? <;> simp

theorem find?_modify (t : Table κ ν) (i : Nat) (f : ν → ν) (k : κ) :
    (t.modify i f).find? k = t.find? k := rfl

end Table

end PointsTo
