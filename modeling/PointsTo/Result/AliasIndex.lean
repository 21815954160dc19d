import PointsTo.Result.View

/-!
# Alias indices

A view turned around: for every object the variables that may refer to it. Variables that share an
object with a given one are then found without comparing all pairs. Variables that refer to nothing
are left out.
-/

namespace PointsTo

structure AliasIndex where
  /-- The variables that may refer to an object, ascending. -/
  varsOf : Table ObjectId (List VarId) := ∅
  objectsOf : Table VarId (PointsToSet .object) := ∅

namespace AliasIndex

/-- Enters a variable with its objects, unless it has none. -/
def enter (ix : AliasIndex) (v : VarId) (objects : PointsToSet .object) : AliasIndex :=
  if objects.isEmpty then ix
  else
    { varsOf := objects.toList.foldl (fun t o ↦ t.alter o [] (· ++ [v])) ix.varsOf
      objectsOf := (ix.objectsOf.intern v objects).1 }

def ofView (w : View) : AliasIndex := w.sets.foldl (fun ix s ↦ ix.enter s.1 s.2) {}

def varsPointingTo (ix : AliasIndex) (o : ObjectId) : List VarId := (ix.varsOf.get? o).getD []

/-- The variables that share an object with `v`, itself included, ascending. -/
def aliasesOf (ix : AliasIndex) (v : VarId) : List VarId :=
  let objects := ((ix.objectsOf.get? v).getD ∅).toList
  (SparseSet.ofList ((objects.flatMap ix.varsPointingTo).map Id.index)).elems.map Id.mk

def mayAlias (ix : AliasIndex) (a b : VarId) : Bool :=
  match ix.objectsOf.get? a, ix.objectsOf.get? b with
  | some s, some t => s.toList.any t.contains
  | _, _ => false

/-- How many variables refer to something. -/
def size (ix : AliasIndex) : Nat := ix.objectsOf.size

end AliasIndex

end PointsTo
