import PointsTo.Program.Encoding
import PointsTo.Taint.Flow
import PointsTo.Value.Json

/-!
# Summaries

A view in readable terms: methods by signature, variables by method and name, objects by class and
site. Lists are sorted, so that equal results have equal summaries. Variables of one name in one method
share an entry, in which the last of them is shown.
-/

namespace PointsTo

structure EdgeSummary where
  kind : CallKind
  site : CallSiteId
  caller : String
  callee : String
  deriving DecidableEq, Repr

namespace EdgeSummary

/-- Ordered by site, then by the callee's signature. -/
def le (a b : EdgeSummary) : Bool :=
  if a.site = b.site then a.callee ≤ b.callee else a.site.index < b.site.index

end EdgeSummary

structure Summary where
  contextSensitive : Bool
  stats : Stats
  /-- The signatures of the reachable methods, sorted. -/
  reachableMethods : List String
  callEdges : List EdgeSummary
  /-- What each variable may refer to, by the names of the variables, sorted. -/
  pointsTo : List (String × List String)
  taintFlows : List TaintFlow
  deriving DecidableEq, Repr

namespace View

/-- An object in words. -/
def describe (w : View) (p : Program) (o : ObjectId) : Except UnknownId String := do
  let object ← w.heap.object o
  let cls ← p.hierarchy.cls object.cls
  pure (object.kind.text cls.name)

def summarizeEdge (p : Program) (e : Edge Unit) : Except UnknownId EdgeSummary := do
  let site ← p.callSite e.site.id
  let caller ← p.hierarchy.signature site.container
  let callee ← p.hierarchy.signature e.callee.id
  pure { kind := e.kind, site := e.site.id, caller, callee }

/-- Enters a variable under its name, in place of an earlier one of the same name. -/
def summarizeVar (w : View) (p : Program) (entries : List (String × List String)) (v : VarId) :
    Except UnknownId (List (String × List String)) := do
  let objects ← (w.pointsTo v).mapM (w.describe p)
  let name ← p.varName v
  pure (Ordered.alter (fun a b ↦ a < b) name (fun _ ↦ objects) entries)

def summary (w : View) (p : Program) (flows : List TaintFlow) : Except UnknownId Summary := do
  let methods ← w.methods.mapM p.hierarchy.signature
  let edges ← w.edges.mapM (summarizeEdge p)
  let pointsTo ← w.vars.foldlM (w.summarizeVar p) []
  pure
    { contextSensitive := w.contextSensitive
      stats := w.stats
      reachableMethods := methods.mergeSort
      callEdges := edges.mergeSort EdgeSummary.le
      pointsTo
      taintFlows := flows }

end View

/-! ## Encoding -/

/-- The time an analysis took, in milliseconds, stands behind the counts. -/
def Stats.encode (s : Stats) (duration : Value) : Value :=
  .record [("iterations", .natural s.iterations), ("propagations", .natural s.propagations),
    ("pfg_nodes", .natural s.flowNodes), ("pfg_edges", .natural s.flowEdges),
    ("reachable_methods", .natural s.reachableMethods), ("call_edges", .natural s.callEdges),
    ("objects", .natural s.objects), ("contexts", .natural s.contexts), ("duration_ms", duration)]

def EdgeSummary.encode (e : EdgeSummary) : Value :=
  .record [("kind", e.kind.encode), ("call_site", e.site.encode), ("caller", .text e.caller),
    ("callee", .text e.callee)]

def TaintFlow.encode (f : TaintFlow) : Value :=
  .record [("source_call", f.source.encode), ("sink_call", f.sink.encode),
    ("index", .natural f.index)]

namespace Summary

def encode (s : Summary) (duration : Value) : Value :=
  .record [("context_sensitive", .bool s.contextSensitive), ("stats", s.stats.encode duration),
    ("reachable_methods", .list (s.reachableMethods.map .text)),
    ("call_edges", .list (s.callEdges.map EdgeSummary.encode)),
    ("points_to", .record (s.pointsTo.map fun (v, objects) ↦ (v, .list (objects.map .text)))),
    ("taint_flows", .list (s.taintFlows.map TaintFlow.encode))]

/-- The summary as an indented JSON text, with the duration left at zero. -/
def json (s : Summary) : String := Json.text (s.encode (.number 0 1))

end Summary

end PointsTo
