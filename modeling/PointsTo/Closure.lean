/-!
# Breadth-first closure

The order in which a breadth-first walk along a successor function first meets its nodes. Class
walks and call graphs are all walks of this kind. The walk expands at most as many nodes as it is
told; as no node is expanded twice, the number of nodes there are is always enough.
-/

namespace PointsTo.Closure

variable {α : Type} [DecidableEq α]

/-- Continues a walk that still has to look at `queue` and has met `seen`, the latest first. -/
def visit (succ : α → List α) : Nat → List α → List α → List α
  | fuel, queue, seen =>
    match fuel, queue.dropWhile (· ∈ seen) with
    | _, [] => seen.reverse
    | 0, _ :: _ => seen.reverse
    | n + 1, a :: rest => visit succ n (rest ++ succ a) (a :: seen)

/-- The nodes met from `start` on, in order, when there are at most `bound` of them. -/
def order (succ : α → List α) (bound : Nat) (start : List α) : List α := visit succ bound start []

end PointsTo.Closure
