import PointsTo.Config.Basic
import PointsTo.Taint.Flow

/-!
# Analyzers

An analyzer is a configuration that was found valid, and analyses programs from their entry methods
on. Taint flows are reported if the configuration has taint rules.
-/

namespace PointsTo

/-- Why there is no analysis. -/
inductive AnalysisError where
  | config (cause : ConfigError)
  | world (cause : WorldError)
  deriving DecidableEq, Repr

namespace AnalysisError

def message : AnalysisError → Option String
  | config cause => cause.message.map ("Configuration error: " ++ ·)
  | world cause => cause.message

end AnalysisError

/-- The outcome of an analysis. -/
structure Report where
  view : View
  flows : List TaintFlow

structure Analyzer where
  config : Config

namespace Analyzer

/-- The analyzer of a configuration, if it is valid. -/
def of (c : Config) : Except AnalysisError Analyzer := do
  c.validate.mapError .config
  pure ⟨c⟩

def ofPreset (p : Preset) : Analyzer := ⟨p.config⟩

/-- Analyses a world with contexts, and reports the flows of the configured taint rules. -/
def analyzeSelected (a : Analyzer) (w : World) : Except UnknownId Report := do
  let c := a.config
  let plan := c.taint.map (TaintPlan.resolve w.program)
  let s ← w.solveSelected c.selector c.heapAbstraction c.worklistOrder plan
  let view ← s.view
  let flows ← match plan with
    | none => pure []
    | some plan => plan.flows w.program s
  pure { view, flows }

def analyze (a : Analyzer) (w : World) : Except UnknownId Report := do
  let c := a.config
  match c.mode with
  | .contextInsensitive =>
    let s ← w.solvePlain c.heapAbstraction c.worklistOrder
    let view ← s.view
    pure { view, flows := [] }
  | .contextSensitive => a.analyzeSelected w

/-- Checks a program against an entry method and analyses it. -/
def run (a : Analyzer) (p : Program) (entry : MethodId) : Except AnalysisError Report := do
  let w ← (World.of p entry).mapError .world
  (World.read (a.analyze w)).mapError .world

end Analyzer

end PointsTo
