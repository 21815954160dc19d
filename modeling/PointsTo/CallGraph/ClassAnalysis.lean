import PointsTo.CallGraph.Basic
import PointsTo.Program.World

/-!
# Call graphs from the class hierarchy

The call graph in which every call reaches all its targets: methods are taken breadth first from the
entry on, and each call of a method gets an edge to every method that the hierarchy alone allows.
-/

namespace PointsTo

namespace Program

/-- The edges from the calls in the body of `m` to all their targets. -/
def callsFrom (p : Program) (m : MethodId) : Except UnknownId (List (Edge Unit)) := do
  let edges ← (p.callSitesIn m).mapM fun c ↦ do
    let site ← p.callSite c
    let targets ← p.targets c
    pure (targets.map fun t ↦ (⟨site.kind, ⟨(), c⟩, ⟨(), t⟩⟩ : Edge Unit))
  pure edges.flatten

def calledFrom (p : Program) (m : MethodId) : List MethodId :=
  match p.callsFrom m with
  | .ok edges => edges.map (·.callee.id)
  | .error _ => []

end Program

/-- The call graph of a world by class hierarchy analysis. -/
def World.classCallGraph (w : World) : Except UnknownId (CallGraph Unit) := do
  let p := w.program
  let order := Closure.order p.calledFrom p.hierarchy.methods.size [w.entry]
  let start : CallGraph Unit := CallGraph.addEntry {} ⟨(), w.entry⟩
  order.foldlM
    (fun g m ↦ do
      let edges ← p.callsFrom m
      pure (edges.foldl (fun g e ↦ (g.addEdge e).1) (g.addReachable ⟨(), m⟩).1))
    start

end PointsTo
