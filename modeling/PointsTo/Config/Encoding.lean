import PointsTo.Config.Basic
import PointsTo.Value.Basic

/-!
# Encoding of configurations

Settings are encoded as records whose keys are the names of the settings. A configuration read from a
record takes what is missing from the default configuration. Taint rules that are not there are left
out of a record, a heap context depth that is not there is null. In a patch everything may be missing,
and null is the same as missing, so that a patch which clears the heap context depth reads back as one
which leaves it alone.
-/

namespace PointsTo

def Mode.names : List (String × Mode) :=
  [("context_insensitive", .contextInsensitive), ("context_sensitive", .contextSensitive)]

def Strategy.names : List (String × Strategy) :=
  [("insensitive", .insensitive), ("call_site", .callSite), ("object", .object), ("type", .type)]

def HeapAbstraction.names : List (String × HeapAbstraction) :=
  [("allocation_site", .allocationSite), ("allocation_type", .allocationType)]

def WorkOrder.names : List (String × WorkOrder) := [("fifo", .fifo), ("lifo", .lifo)]

namespace Mode

def encode : Mode → Value
  | contextInsensitive => .text "context_insensitive"
  | contextSensitive => .text "context_sensitive"

def decode (v : Value) : Except DecodeError Mode := v.asName names

end Mode

namespace Strategy

def encode : Strategy → Value
  | insensitive => .text "insensitive"
  | callSite => .text "call_site"
  | object => .text "object"
  | type => .text "type"

def decode (v : Value) : Except DecodeError Strategy := v.asName names

end Strategy

namespace HeapAbstraction

def encode : HeapAbstraction → Value
  | allocationSite => .text "allocation_site"
  | allocationType => .text "allocation_type"

def decode (v : Value) : Except DecodeError HeapAbstraction := v.asName names

end HeapAbstraction

namespace WorkOrder

def encode : WorkOrder → Value
  | fifo => .text "fifo"
  | lifo => .text "lifo"

def decode (v : Value) : Except DecodeError WorkOrder := v.asName names

end WorkOrder

/-! ## Taint rules -/

namespace TransferPoint

def encode : TransferPoint → Value
  | base => .text "base"
  | result => .text "result"
  | arg index => .natural index.toNat

def ofName (s : String) : Except DecodeError TransferPoint :=
  match s with
  | "base" => .ok base
  | "result" => .ok result
  | _ => .error (.unknownPoint s)

def ofIndex (n : Nat) : Except DecodeError TransferPoint :=
  if n < UInt64.size then .ok (arg (.ofNat n)) else .error .notAPoint

/-- The point that a whole number means; a minus sign is only good for zero. -/
def ofInteger : Scalar.Kind → Except DecodeError TransferPoint
  | .natural n => ofIndex n
  | .negative 0 => ofIndex 0
  | _ => .error .notAPoint

def ofPlain (s : String) : Except DecodeError TransferPoint :=
  match Scalar.kind s with
  | .word => ofName s
  | kind => ofInteger kind

/-- A number is an argument, a text is a name. -/
def decode : Value → Except DecodeError TransferPoint
  | .number (.ofNat n) 0 => ofIndex n
  | .text s | .tagged .unnamed (.text s) | .tagged .other (.text s) | .tagged .other (.plain s) =>
    ofName s
  | .plain s | .tagged .unnamed (.plain s) => ofPlain s
  | .tagged .int (.text s) | .tagged .int (.plain s) => ofInteger ((Scalar.integer? s).getD .word)
  | _ => .error .notAPoint

end TransferPoint

/-- The wording of an error about a transfer point; other errors have none. -/
def DecodeError.pointMessage : DecodeError → Option String
  | unknownPoint name =>
    some ("unknown transfer point '" ++ name ++ "' (expected base, result or an argument index)")
  | notAPoint => some "data did not match any variant of untagged enum PointRepr"
  | _ => none

namespace SourceRule

def keys : List String := ["class", "method", "type"]

def encode (r : SourceRule) : Value :=
  .record [("class", .text r.cls), ("method", .text r.method), ("type", .text r.type)]

def decode (v : Value) : Except DecodeError SourceRule := do
  let r ← v.entries { keys }
  let cls ← Value.required Value.asText "class" r
  let method ← Value.required Value.asText "method" r
  let type ← Value.required Value.asText "type" r
  pure { cls, method, type }

end SourceRule

namespace SinkRule

def keys : List String := ["class", "method", "index"]

def encode (r : SinkRule) : Value :=
  .record [("class", .text r.cls), ("method", .text r.method), ("index", .natural r.index.toNat)]

def decode (v : Value) : Except DecodeError SinkRule := do
  let r ← v.entries { keys }
  let cls ← Value.required Value.asText "class" r
  let method ← Value.required Value.asText "method" r
  let index ← Value.required Value.asWord64 "index" r
  pure { cls, method, index }

end SinkRule

namespace TransferRule

def keys : List String := ["class", "method", "from", "to", "type"]

def encode (r : TransferRule) : Value :=
  .record [("class", .text r.cls), ("method", .text r.method), ("from", r.source.encode),
    ("to", r.target.encode), ("type", .text r.type)]

def decode (v : Value) : Except DecodeError TransferRule := do
  let r ← v.entries { keys }
  let cls ← Value.required Value.asText "class" r
  let method ← Value.required Value.asText "method" r
  let source ← Value.required TransferPoint.decode "from" r
  let target ← Value.required TransferPoint.decode "to" r
  let type ← Value.required Value.asText "type" r
  pure { cls, method, source, target, type }

end TransferRule

namespace TaintRules

def encode (r : TaintRules) : Value :=
  .record [("sources", .list (r.sources.map SourceRule.encode)),
    ("sinks", .list (r.sinks.map SinkRule.encode)),
    ("transfers", .list (r.transfers.map TransferRule.encode))]

def decode (v : Value) : Except DecodeError TaintRules := do
  let r ← v.entries { keys := ["sources", "sinks", "transfers"], openEnded := true }
  let sources ← Value.orElse (Value.asList SourceRule.decode) [] "sources" r
  let sinks ← Value.orElse (Value.asList SinkRule.decode) [] "sinks" r
  let transfers ← Value.orElse (Value.asList TransferRule.decode) [] "transfers" r
  pure { sources, sinks, transfers }

end TaintRules

/-! ## Configurations, patches and files -/

/-- The names of the settings. -/
def Config.keys : List String :=
  ["mode", "context", "context_depth", "heap_context_depth", "heap_abstraction", "worklist_order",
    "taint"]

def encodeWord (n : UInt64) : Value := .natural n.toNat

/-- An entry that is left out if there is nothing to say. -/
def entry? {α : Type} (key : String) (encode : α → Value) (a : Option α) : List (String × Value) :=
  a.toList.map fun a ↦ (key, encode a)

namespace Config

def encode (c : Config) : Value :=
  .record <|
    [("mode", c.mode.encode), ("context", c.context.encode),
      ("context_depth", encodeWord c.contextDepth),
      ("heap_context_depth", .ofOption encodeWord c.heapContextDepth),
      ("heap_abstraction", c.heapAbstraction.encode), ("worklist_order", c.worklistOrder.encode)] ++
    entry? "taint" TaintRules.encode c.taint

def decode (v : Value) : Except DecodeError Config := do
  let r ← v.entries { keys := keys, openEnded := true }
  let d := Config.default
  let mode ← Value.orElse Mode.decode d.mode "mode" r
  let context ← Value.orElse Strategy.decode d.context "context" r
  let contextDepth ← Value.orElse Value.asWord64 d.contextDepth "context_depth" r
  let heapContextDepth ←
    Value.orElse (Value.asOption Value.asWord64) d.heapContextDepth "heap_context_depth" r
  let heapAbstraction ← Value.orElse HeapAbstraction.decode d.heapAbstraction "heap_abstraction" r
  let worklistOrder ← Value.orElse WorkOrder.decode d.worklistOrder "worklist_order" r
  let taint ← Value.orElse (Value.asOption TaintRules.decode) d.taint "taint" r
  pure { mode, context, contextDepth, heapContextDepth, heapAbstraction, worklistOrder, taint }

end Config

namespace Patch

def encode (p : Patch) : Value :=
  .record <|
    entry? "mode" Mode.encode p.mode ++ entry? "context" Strategy.encode p.context ++
    entry? "context_depth" encodeWord p.contextDepth ++
    entry? "heap_context_depth" (Value.ofOption encodeWord) p.heapContextDepth ++
    entry? "heap_abstraction" HeapAbstraction.encode p.heapAbstraction ++
    entry? "worklist_order" WorkOrder.encode p.worklistOrder ++
    entry? "taint" TaintRules.encode p.taint

def decode (v : Value) : Except DecodeError Patch := do
  let r ← v.entries { keys := Config.keys, closed := true }
  let mode ← Value.optional Mode.decode "mode" r
  let context ← Value.optional Strategy.decode "context" r
  let contextDepth ← Value.optional Value.asWord64 "context_depth" r
  let heapContextDepth ← Value.optional (Value.asOption Value.asWord64) "heap_context_depth" r
  let heapAbstraction ← Value.optional HeapAbstraction.decode "heap_abstraction" r
  let worklistOrder ← Value.optional WorkOrder.decode "worklist_order" r
  let taint ← Value.optional TaintRules.decode "taint" r
  pure { mode, context, contextDepth, heapContextDepth, heapAbstraction, worklistOrder, taint }

end Patch

namespace ConfigFile

def encode (f : ConfigFile) : Value :=
  .record <|
    [("version", .natural f.version.toNat), ("preset", .text f.preset)] ++
    entry? "overrides" Patch.encode f.overrides

def decode (v : Value) : Except DecodeError ConfigFile := do
  let r ← v.entries { keys := ["version", "preset", "overrides"], closed := true }
  let version ← Value.required Value.asWord32 "version" r
  let preset ← Value.required Value.asText "preset" r
  let overrides ← Value.optional Patch.decode "overrides" r
  pure { version, preset, overrides }

end ConfigFile

end PointsTo
