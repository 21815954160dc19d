import PointsTo.Context.Selector
import PointsTo.Taint.Rules
import PointsTo.WorkList

/-!
# Configurations

A configuration chooses between analyses with and without contexts, how contexts are formed, how the
heap is abstracted, and the order of work. `validate` finds settings out of range and settings that
contradict each other; an analysis itself runs under any configuration. Presets are complete
configurations for common uses.
-/

namespace PointsTo

inductive Mode where
  | contextInsensitive
  | contextSensitive
  deriving DecidableEq, Repr

structure Config where
  mode : Mode
  context : Strategy
  /-- The length of method contexts. -/
  contextDepth : UInt64
  /-- The length of heap contexts; one less than that of method contexts if not given. -/
  heapContextDepth : Option UInt64
  heapAbstraction : HeapAbstraction
  worklistOrder : WorkOrder
  taint : Option TaintRules
  deriving DecidableEq, Repr

/-- What is wrong with a configuration, or with the document that should have held one. -/
inductive ConfigError where
  | contextDepthRange (value : UInt64)
  | heapContextDepthRange (value bound : UInt64)
  | unsupportedVersion (found : UInt32)
  | unknownPreset (name : String)
  | uselessStrategy (strategy : Strategy)
  | taintWithoutContexts
  | unnamedRule
  | transferFromResult (cls method : String)
  | transferToArgument (cls method : String)
  | transferToItself (cls method : String)
  /-- The document is malformed or does not hold what it should. -/
  | malformed
  /-- There is no document, or it is not a text. -/
  | unreadable
  deriving DecidableEq, Repr

namespace ConfigError

def rangeText (field : String) (value : UInt64) (least most hint : String) : String :=
  "Invalid range for field '" ++ field ++ "': " ++ toString value.toNat ++ " not in " ++ least ++
    "..=" ++ most ++ ". " ++ hint

def conflictText (issue fix : String) : String :=
  "Configuration conflict: " ++ issue ++ ". Fix: " ++ fix

def strategyText : Strategy → String
  | .insensitive => "Insensitive"
  | .callSite => "CallSite"
  | .object => "Object"
  | .type => "Type"

/-- The wording of an error; a document that cannot be read gives none. -/
def message : ConfigError → Option String
  | contextDepthRange value =>
    rangeText "context_depth" value "1" "4"
      "Deep contexts explode the number of analysed method copies"
  | heapContextDepthRange value bound =>
    rangeText "heap_context_depth" value "0" (toString bound.toNat)
      "Heap contexts are suffixes of method contexts"
  | unsupportedVersion found =>
    some ("Unsupported configuration version " ++ toString found.toNat ++ ". Supported versions: 1")
  | unknownPreset name =>
    some ("Unknown preset '" ++ name ++ "'. Valid presets: fast, balanced, thorough, custom")
  | uselessStrategy strategy =>
    conflictText
      ("context strategy " ++ strategyText strategy ++ " has no effect in context-insensitive mode")
      "set mode to context_sensitive or context to insensitive"
  | taintWithoutContexts =>
    conflictText "taint analysis requires the context-sensitive solver"
      "set mode to context_sensitive"
  | unnamedRule => some "Validation error: taint rules need a class and a method"
  | transferFromResult cls method =>
    conflictText ("transfer on " ++ cls ++ "." ++ method ++ " reads from the call result")
      "use 'base' or an argument index as 'from'"
  | transferToArgument cls method =>
    conflictText ("transfer on " ++ cls ++ "." ++ method ++ " writes to an argument")
      "use 'base' or 'result' as 'to'"
  | transferToItself cls method =>
    conflictText ("transfer on " ++ cls ++ "." ++ method ++ " has from == to") "remove the rule"
  | malformed | unreadable => none

end ConfigError

namespace TransferRule

/-- A transfer reads the receiver or an argument and writes another operand that is no argument. -/
def validate (r : TransferRule) : Except ConfigError Unit :=
  match r.source, r.target with
  | .result, _ => .error (.transferFromResult r.cls r.method)
  | _, .arg _ => .error (.transferToArgument r.cls r.method)
  | source, target =>
    if source = target then .error (.transferToItself r.cls r.method) else .ok ()

end TransferRule

namespace TaintRules

/-- The class and method that each rule is for: sources, then sinks, then transfers. -/
def methods (r : TaintRules) : List (String × String) :=
  r.sources.map (fun s ↦ (s.cls, s.method)) ++ r.sinks.map (fun s ↦ (s.cls, s.method)) ++
    r.transfers.map fun t ↦ (t.cls, t.method)

/-- Rejects rules that mean nothing in any program. -/
def validate (r : TaintRules) : Except ConfigError Unit := do
  if r.methods.any fun m ↦ m.1.isEmpty || m.2.isEmpty then .error .unnamedRule
  else r.transfers.forM TransferRule.validate

end TaintRules

namespace Config

/-- Longer contexts are not supported. -/
def maxContextDepth : UInt64 := 4

def validateDepths (c : Config) : Except ConfigError Unit :=
  if c.contextDepth < 1 ∨ maxContextDepth < c.contextDepth then
    .error (.contextDepthRange c.contextDepth)
  else
    match c.heapContextDepth with
    | none => .ok ()
    | some depth =>
      if c.contextDepth < depth then .error (.heapContextDepthRange depth c.contextDepth) else .ok ()

def validateMode (c : Config) : Except ConfigError Unit :=
  match c.mode with
  | .contextSensitive => .ok ()
  | .contextInsensitive =>
    if c.context ≠ .insensitive then .error (.uselessStrategy c.context)
    else if c.taint.isSome then .error .taintWithoutContexts
    else .ok ()

/-- Finds the first thing that is wrong: depths, then the mode, then the taint rules. -/
def validate (c : Config) : Except ConfigError Unit := do
  c.validateDepths
  c.validateMode
  c.taint.forM TaintRules.validate

/-- The length of heap contexts that is used. -/
def heapDepth (c : Config) : UInt64 :=
  match c.heapContextDepth with
  | some depth => depth
  | none => if c.contextDepth = 0 then 0 else c.contextDepth - 1

def selector (c : Config) : Selector where
  strategy := c.context
  k := c.contextDepth.toNat
  hk := c.heapDepth.toNat

/-- Sets taint rules, which need contexts. -/
def withTaint (c : Config) (rules : TaintRules) : Config :=
  { c with mode := .contextSensitive, taint := some rules }

end Config

inductive Preset where
  | fast
  | balanced
  | thorough
  | custom
  deriving DecidableEq, Repr

namespace Preset

def all : List Preset := [fast, balanced, thorough, custom]

def name : Preset → String
  | fast => "fast"
  | balanced => "balanced"
  | thorough => "thorough"
  | custom => "custom"

/-- The preset of a name in any case of letters. -/
def ofName (s : String) : Except ConfigError Preset :=
  match all.find? (·.name = s.toLower) with
  | some p => .ok p
  | none => .error (.unknownPreset s)

/-- `fast` does without contexts, `balanced` and `thorough` have contexts of one and two receiver
objects, and `custom` starts like `fast`. -/
def config : Preset → Config
  | fast | custom =>
    { mode := .contextInsensitive
      context := .insensitive
      contextDepth := 1
      heapContextDepth := none
      heapAbstraction := .allocationSite
      worklistOrder := .fifo
      taint := none }
  | balanced =>
    { mode := .contextSensitive
      context := .object
      contextDepth := 1
      heapContextDepth := none
      heapAbstraction := .allocationSite
      worklistOrder := .fifo
      taint := none }
  | thorough =>
    { mode := .contextSensitive
      context := .object
      contextDepth := 2
      heapContextDepth := some 1
      heapAbstraction := .allocationSite
      worklistOrder := .fifo
      taint := none }

end Preset

/-- The configuration to start from when nothing is said. -/
def Config.default : Config := Preset.balanced.config

/-- Settings to put in place of those of a configuration. -/
structure Patch where
  mode : Option Mode := none
  context : Option Strategy := none
  contextDepth : Option UInt64 := none
  /-- Given as `none`, the depth is cleared. -/
  heapContextDepth : Option (Option UInt64) := none
  heapAbstraction : Option HeapAbstraction := none
  worklistOrder : Option WorkOrder := none
  taint : Option TaintRules := none
  deriving DecidableEq, Repr

def Config.apply (c : Config) (p : Patch) : Config where
  mode := p.mode.getD c.mode
  context := p.context.getD c.context
  contextDepth := p.contextDepth.getD c.contextDepth
  heapContextDepth := p.heapContextDepth.getD c.heapContextDepth
  heapAbstraction := p.heapAbstraction.getD c.heapAbstraction
  worklistOrder := p.worklistOrder.getD c.worklistOrder
  taint := p.taint.or c.taint

/-- A versioned configuration: a preset by name, and settings to put in place of its own. -/
structure ConfigFile where
  version : UInt32
  preset : String
  overrides : Option Patch := none
  deriving DecidableEq, Repr

namespace ConfigFile

def checkVersion (f : ConfigFile) : Except ConfigError ConfigFile :=
  if f.version = 1 then .ok f else .error (.unsupportedVersion f.version)

/-- The configuration that a file means, if it is valid. -/
def config (f : ConfigFile) : Except ConfigError Config := do
  let preset ← Preset.ofName f.preset
  let c := preset.config.apply (f.overrides.getD {})
  c.validate
  pure c

end ConfigFile

end PointsTo
