import PointsTo.Id

/-!
# Sparse sets of numbers

A `SparseSet` lists its members in strictly ascending order (`Ascending`), so two sets are equal as
soon as they have the same members. Every operation here keeps that order. The list itself is free, so
that a list from outside can be taken as it stands; the operations are then still defined, but read it
as if it were ascending.
-/

namespace PointsTo

structure SparseSet where
  elems : List Nat
  deriving DecidableEq, Repr

namespace SparseSet

/-- The members stand in strictly ascending order. -/
def Ascending (s : SparseSet) : Prop := s.elems.Pairwise (· < ·)

instance : EmptyCollection SparseSet := ⟨⟨[]⟩⟩

def singleton (x : Nat) : SparseSet := ⟨[x]⟩

def isEmpty (s : SparseSet) : Bool := s.elems.isEmpty

def size (s : SparseSet) : Nat := s.elems.length

/-! ## Searching -/

/-- The position at which a halving search for `x` ends, over the `width` places from `base` on. The
search does not stop early, so the number of probes depends on the length only. -/
def narrow (xs : List Nat) (x base width : Nat) : Nat :=
  if width ≤ 1 then base
  else
    let half := width / 2
    narrow xs x (if x < xs.getD (base + half) 0 then base else base + half) (width - half)
termination_by width

/-- Whether `x` was found, and its place: the one it has, or the one it would take. -/
def search (xs : List Nat) (x : Nat) : Bool × Nat :=
  let place := narrow xs x 0 xs.length
  match xs[place]? with
  | none => (false, 0)
  | some y => if y = x then (true, place) else (false, if y < x then place + 1 else place)

def contains (s : SparseSet) (x : Nat) : Bool := (search s.elems x).1

/-- Adds `x`; the flag tells whether it was absent. -/
def insert (s : SparseSet) (x : Nat) : SparseSet × Bool :=
  match s.elems.getLast? with
  | none => (⟨[x]⟩, true)
  | some last =>
    if last < x then (⟨s.elems ++ [x]⟩, true)
    else
      match search s.elems x with
      | (true, _) => (s, false)
      | (false, place) => (⟨s.elems.insertIdx place x⟩, true)

/-- The set of the numbers in a list. -/
def ofList (xs : List Nat) : SparseSet := xs.foldl (fun s x ↦ (s.insert x).1) ∅

/-! ## Merging -/

/-- Merges two ascending lists: all their members, and those that only the second has. -/
def merge : List Nat → List Nat → List Nat × List Nat
  | [], ys => (ys, ys)
  | xs, [] => (xs, [])
  | x :: xs, y :: ys =>
    if x < y then
      let (all, added) := merge xs (y :: ys)
      (x :: all, added)
    else if y < x then
      let (all, added) := merge (x :: xs) ys
      (y :: all, y :: added)
    else
      let (all, added) := merge xs ys
      (x :: all, added)
termination_by xs ys => xs.length + ys.length

/-- The union of two sets, and the members that the second adds to the first. -/
def union (s t : SparseSet) : SparseSet × SparseSet :=
  let (all, added) := merge s.elems t.elems
  (⟨all⟩, ⟨added⟩)

/-- The items of an ascending list that another one lacks. -/
def without : List Nat → List Nat → List Nat
  | [], _ => []
  | xs, [] => xs
  | x :: xs, y :: ys =>
    if x < y then x :: without xs (y :: ys)
    else if y < x then without (x :: xs) ys
    else without xs ys
termination_by xs ys => xs.length + ys.length

def difference (s t : SparseSet) : SparseSet := ⟨without s.elems t.elems⟩

/-- Whether two ascending lists have an item in common. -/
def meets : List Nat → List Nat → Bool
  | [], _ => false
  | _, [] => false
  | x :: xs, y :: ys =>
    if x < y then meets xs (y :: ys)
    else if y < x then meets (x :: xs) ys
    else true
termination_by xs ys => xs.length + ys.length

def intersects (s t : SparseSet) : Bool := meets s.elems t.elems

/-- A larger set is no subset, which the sizes tell at once. -/
def isSubset (s t : SparseSet) : Bool := s.size ≤ t.size && (s.difference t).isEmpty

end SparseSet

/-- The objects that a pointer may refer to, identified by numbers of kind `e`. -/
structure PointsToSet (e : Entity) where
  ids : SparseSet
  deriving DecidableEq, Repr

namespace PointsToSet

variable {e : Entity}

instance : EmptyCollection (PointsToSet e) := ⟨⟨∅⟩⟩

def singleton (o : Id e) : PointsToSet e := ⟨.singleton o.index⟩

def ofList (os : List (Id e)) : PointsToSet e := ⟨.ofList (os.map Id.index)⟩

/-- The members in ascending order. -/
def toList (s : PointsToSet e) : List (Id e) := s.ids.elems.map Id.mk

def isEmpty (s : PointsToSet e) : Bool := s.ids.isEmpty

def size (s : PointsToSet e) : Nat := s.ids.size

/-- Adds `o`; the flag tells whether it was absent. -/
def add (s : PointsToSet e) (o : Id e) : PointsToSet e × Bool :=
  let (ids, fresh) := s.ids.insert o.index
  (⟨ids⟩, fresh)

/-- The union of two sets, and the members that the second adds to the first. -/
def addAll (s t : PointsToSet e) : PointsToSet e × PointsToSet e :=
  let (all, added) := s.ids.union t.ids
  (⟨all⟩, ⟨added⟩)

def difference (s t : PointsToSet e) : PointsToSet e := ⟨s.ids.difference t.ids⟩

def contains (s : PointsToSet e) (o : Id e) : Bool := s.ids.contains o.index

def intersects (s t : PointsToSet e) : Bool := s.ids.intersects t.ids

def isSubset (s t : PointsToSet e) : Bool := s.ids.isSubset t.ids

/-- The members between braces, each as its number under the given word: `{ObjId(1), ObjId(2)}`. -/
def text (word : String) (s : PointsToSet e) : String :=
  "\x7b" ++ ", ".intercalate (s.ids.elems.map fun i ↦ word ++ "(" ++ toString i ++ ")") ++ "\x7d"

end PointsToSet

end PointsTo
