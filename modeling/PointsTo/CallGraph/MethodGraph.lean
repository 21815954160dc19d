import PointsTo.CallGraph.Basic

/-!
# Graphs over methods

A call graph read as a directed graph: its nodes are the reachable methods, numbered in order of
discovery, and every call edge between reachable methods is an arc from the calling method to the
called one. The graph can be drawn in the DOT language, and its cycles are the recursion groups.
-/

namespace PointsTo

/-- One call, from node to node. -/
structure Arc where
  source : Nat
  target : Nat
  kind : CallKind
  deriving DecidableEq, Repr

namespace CallGraph

variable {C : Type} [Contextual C]

/-- The arc of a call edge, if both its ends are reachable. -/
def arc? (g : CallGraph C) (p : Program) (e : Edge C) : Except UnknownId (Option Arc) := do
  let caller ← p.callerOf e.site
  match g.reachable.find? caller, g.reachable.find? e.callee with
  | some source, some target => pure (some ⟨source, target, e.kind⟩)
  | _, _ => pure none

/-- The arcs in order of discovery. -/
def arcs (g : CallGraph C) (p : Program) : Except UnknownId (List Arc) := do
  let arcs ← g.edgeList.mapM (g.arc? p)
  pure arcs.reduceOption

/-! ## Drawing -/

/-- Quotes and backslashes are escaped, and a line break becomes a left-justified one. -/
def escapeLabel (s : String) : String :=
  String.ofList <| s.toList.flatMap fun c ↦
    if c = '"' ∨ c = '\\' then ['\\', c] else if c = '\n' then ['\\', 'l'] else [c]

def dotLine (body label : String) : String :=
  "    " ++ body ++ " [ label = \"" ++ escapeLabel label ++ "\" ]\n"

/-- The graph in the DOT language: a line for each node, then a line for each arc. -/
def dot (g : CallGraph C) (p : Program) : Except UnknownId String := do
  let labels ← g.methods.mapM p.methodLabel
  let arcs ← g.arcs p
  let nodeLines := labels.zipIdx.map fun (label, i) ↦ dotLine (toString i) label
  let arcLines := arcs.map fun a ↦
    dotLine (toString a.source ++ " -> " ++ toString a.target) a.kind.label
  pure ("digraph \x7b\n" ++ String.join nodeLines ++ String.join arcLines ++ "\x7d\n")

/-! ## Recursion -/

/-- The nodes that at least one arc leads to, from node `i` on. -/
def reachFrom (size : Nat) (arcs : List Arc) (i : Nat) : List Nat :=
  let succ (j : Nat) : List Nat := (arcs.filter (·.source = j)).map Arc.target
  Closure.order succ size (succ i)

/-- The groups of methods that call each other, directly or not, each group ascending and the groups
ordered by their first members. A method alone is a group if it calls itself. -/
def recursionGroups (g : CallGraph C) (p : Program) : Except UnknownId (List (List (MethodIn C))) := do
  -- The nodes have labels also where nobody reads them, so every method has to exist.
  let _ ← g.methods.mapM p.methodLabel
  let arcs ← g.arcs p
  let size := g.reachable.size
  let reach := g.methods.zipIdx.map fun (m, i) ↦ (m, i, reachFrom size arcs i)
  let cyclic := reach.filter fun (_, i, below) ↦ i ∈ below
  let ordered := cyclic.mergeSort fun a b ↦ a.1.le b.1
  pure <| ordered.filterMap fun (_, i, below) ↦
    let group := ordered.filter fun (_, j, above) ↦ j ∈ below && i ∈ above
    match group with
    | (_, first, _) :: _ => if first = i then some (group.map (·.1)) else none
    | [] => none

end CallGraph

end PointsTo
