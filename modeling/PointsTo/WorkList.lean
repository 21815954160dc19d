/-!
# Worklists

A double-ended queue of pending work: items are added at the back and taken from the front (`fifo`)
or from the back (`lifo`). `toList` shows the items from front to back.
-/

namespace PointsTo

/-- Which pending item is taken next: the oldest or the latest. -/
inductive WorkOrder where
  | fifo
  | lifo
  deriving DecidableEq, Repr

/-- The items of `front` in order, then those of `back` in reverse order. -/
structure WorkList (α : Type) where
  order : WorkOrder
  front : List α := []
  back : List α := []

namespace WorkList

variable {α : Type}

def toList (w : WorkList α) : List α := w.front ++ w.back.reverse

def size (w : WorkList α) : Nat := w.front.length + w.back.length

def isEmpty (w : WorkList α) : Bool := w.front.isEmpty && w.back.isEmpty

def push (w : WorkList α) (a : α) : WorkList α := { w with back := a :: w.back }

/-- The oldest item and the rest. -/
def takeFirst (w : WorkList α) : Option (α × WorkList α) :=
  match w.front with
  | a :: front => some (a, { w with front })
  | [] =>
    match w.back.reverse with
    | a :: front => some (a, { w with front, back := [] })
    | [] => none

/-- The latest item and the rest. -/
def takeLast (w : WorkList α) : Option (α × WorkList α) :=
  match w.back with
  | a :: back => some (a, { w with back })
  | [] =>
    match w.front.reverse with
    | a :: back => some (a, { w with front := [], back })
    | [] => none

/-- The next item and the rest. -/
def poll (w : WorkList α) : Option (α × WorkList α) :=
  match w.order with
  | .fifo => w.takeFirst
  | .lifo => w.takeLast

@[simp] theorem toList_push (w : WorkList α) (a : α) : (w.push a).toList = w.toList ++ [a] := by
  simp [push, toList]

theorem length_toList (w : WorkList α) : w.toList.length = w.size := by
  simp [toList, size]

theorem isEmpty_iff (w : WorkList α) : w.isEmpty = true ↔ w.toList = [] := by
  simp [isEmpty, toList]

theorem toList_of_takeFirst {w rest : WorkList α} {a : α} (h : w.takeFirst = some (a, rest)) :
    w.toList = a :: rest.toList := by
  obtain ⟨order, front, back⟩ := w
  cases front with
  | cons b front =>
    obtain ⟨rfl, rfl⟩ : b = a ∧ _ := by simpa [takeFirst] using h
    rfl
  | nil =>
    cases hb : back.reverse with
    | nil => simp [takeFirst, hb] at h
    | cons b front =>
      obtain ⟨rfl, rfl⟩ : b = a ∧ _ := by simpa [takeFirst, hb] using h
      simp [toList, hb]

theorem toList_of_takeLast {w rest : WorkList α} {a : α} (h : w.takeLast = some (a, rest)) :
    w.toList = rest.toList ++ [a] := by
  obtain ⟨order, front, back⟩ := w
  cases back with
  | cons b back =>
    obtain ⟨rfl, rfl⟩ : b = a ∧ _ := by simpa [takeLast] using h
    simp [toList]
  | nil =>
    cases hf : front.reverse with
    | nil => simp [takeLast, hf] at h
    | cons b back =>
      obtain ⟨rfl, rfl⟩ : b = a ∧ _ := by simpa [takeLast, hf] using h
      have : front = back.reverse ++ [b] := by simpa using congrArg List.reverse hf
      simp [toList, this]

end WorkList

end PointsTo
