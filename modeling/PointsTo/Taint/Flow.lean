import PointsTo.Result.View

/-!
# Taint flows

A flow says that what a source call let in may reach a guarded argument of a sink call. Flows are
read off the final state of an analysis, one for each source, sink and argument, in that order.
-/

namespace PointsTo

structure TaintFlow where
  source : CallSiteId
  sink : CallSiteId
  index : Nat
  deriving DecidableEq, Repr

namespace TaintFlow

def text (f : TaintFlow) : String :=
  "TaintFlow\x7b" ++ f.source.text ++ " -> " ++ f.sink.text ++ "/" ++ toString f.index ++ "\x7d"

/-- Ordered by source, then sink, then argument. -/
def le (f g : TaintFlow) : Bool :=
  (compare [f.source.index, f.sink.index, f.index] [g.source.index, g.sink.index, g.index]).isLE

end TaintFlow

namespace TaintPlan

/-- The flows into one argument of a sink call. -/
def flowsInto (s : CsState) (site : SiteIn ContextId) (args : List VarId) (index : Nat) :
    Except UnknownId (List TaintFlow) := do
  match args[index]? with
  | none => pure []
  | some arg =>
    let objects ← s.pointsTo (.var site.ctx arg)
    let sources ← objects.mapM fun o ↦ s.names.heap.sourceOf o.id
    pure (sources.reduceOption.map fun source ↦ ⟨source, site.id, index⟩)

/-- The flows along one call edge. -/
def flowsAlong (t : TaintPlan) (p : Program) (s : CsState) (e : Edge ContextId) :
    Except UnknownId (List TaintFlow) := do
  match t.guarded e.callee.id with
  | [] => pure []
  | guarded =>
    let site ← p.callSite e.site.id
    let flows ← guarded.mapM (flowsInto s e.site site.args)
    pure flows.flatten

/-- All flows that the final state of an analysis shows. -/
def flows (t : TaintPlan) (p : Program) (s : CsState) : Except UnknownId (List TaintFlow) := do
  let flows ← s.calls.edgeList.mapM (t.flowsAlong p s)
  pure (flows.flatten.eraseDups.mergeSort TaintFlow.le)

end TaintPlan

end PointsTo
