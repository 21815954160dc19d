import PointsTo.Config.Encoding
import PointsTo.Yaml.Extract
import PointsTo.Yaml.Writer

/-!
# Configurations as documents

Configurations, taint rules and versioned files are read from YAML documents and checked at once; a
configuration is written as one. A document that is not YAML, or does not hold what it should, is
malformed.
-/

namespace PointsTo

/-! ## Schemas -/

/-- A record of scalars. -/
def Yaml.Schema.scalars (keys : List String) : Yaml.Schema := .record (keys.map fun key ↦ (key, .scalar))

def TaintRules.schema : Yaml.Schema :=
  .record
    [("sources", .list (.scalars SourceRule.keys)), ("sinks", .list (.scalars SinkRule.keys)),
      ("transfers", .list (.scalars TransferRule.keys))]

/-- The schema of configurations and of patches. -/
def Config.schema : Yaml.Schema :=
  .record (Config.keys.map fun key ↦ (key, if key = "taint" then TaintRules.schema else .scalar))

def ConfigFile.schema : Yaml.Schema :=
  .record [("version", .scalar), ("preset", .scalar), ("overrides", Config.schema)]

/-! ## Reading and writing -/

/-- Reads a document and decodes what it holds. -/
def decodeDocument {α : Type} (schema : Yaml.Schema) (decode : Value → Except DecodeError α)
    (text : String) : Except ConfigError α := do
  let v ← (Yaml.readValue schema text).mapError fun _ ↦ .malformed
  (decode v).mapError fun _ ↦ .malformed

namespace Config

/-- The configuration that a document holds; what it does not say is as in the default. -/
def ofYaml (text : String) : Except ConfigError Config := do
  let c ← decodeDocument schema decode text
  c.validate
  pure c

def toYaml (c : Config) : String := Yaml.write c.encode

end Config

namespace TaintRules

def ofYaml (text : String) : Except ConfigError TaintRules := do
  let r ← decodeDocument schema decode text
  r.validate
  pure r

end TaintRules

namespace ConfigFile

/-- The file that a document holds, if its version is supported. -/
def ofYaml (text : String) : Except ConfigError ConfigFile := do
  let f ← decodeDocument schema decode text
  f.checkVersion

end ConfigFile

/-- The configuration in a file of which the content is given, unless there is no such file. -/
def Config.ofFile (content : Option ByteArray) : Except ConfigError Config := do
  match content.bind String.fromUTF8? with
  | none => .error .unreadable
  | some text =>
    let f ← ConfigFile.ofYaml text
    f.config

end PointsTo
