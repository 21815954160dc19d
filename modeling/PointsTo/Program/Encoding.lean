import PointsTo.Program.Basic
import PointsTo.Value.Basic

/-!
# Encoding of programs

The parts of a program are encoded as records, and identifiers as numbers of 32 bits. A statement is a
record with one key, the name of its form, over a record of its operands; a call is its site alone, and
a statement without operands is just its name.
-/

namespace PointsTo

namespace Id

variable {e : Entity}

def encode (i : Id e) : Value := .natural i.index

def decode (v : Value) : Except DecodeError (Id e) := do
  let n ← v.asNatural UInt32.size
  pure ⟨n⟩

def encodeOption (i : Option (Id e)) : Value := .ofOption encode i

def encodeList (is : List (Id e)) : Value := .list (is.map encode)

end Id

namespace CallKind

def names : List (String × CallKind) := all.map fun k ↦ (k.name, k)

def encode (k : CallKind) : Value := .text k.name

def decode (v : Value) : Except DecodeError CallKind := v.asName names

end CallKind

namespace Stmt

/-- A form over its operands. -/
def form (name : String) (operands : List (String × Value)) : Value :=
  .record [(name, .record operands)]

def encode : Stmt → Value
  | alloc lhs site => form "New" [("lhs", lhs.encode), ("site", site.encode)]
  | copy lhs rhs => form "Copy" [("lhs", lhs.encode), ("rhs", rhs.encode)]
  | loadStatic lhs field => form "LoadStatic" [("lhs", lhs.encode), ("field", field.encode)]
  | storeStatic field rhs => form "StoreStatic" [("field", field.encode), ("rhs", rhs.encode)]
  | loadField lhs base field =>
    form "LoadField" [("lhs", lhs.encode), ("base", base.encode), ("field", field.encode)]
  | storeField base field rhs =>
    form "StoreField" [("base", base.encode), ("field", field.encode), ("rhs", rhs.encode)]
  | loadArray lhs base => form "LoadArray" [("lhs", lhs.encode), ("base", base.encode)]
  | storeArray base rhs => form "StoreArray" [("base", base.encode), ("rhs", rhs.encode)]
  | invoke site => .record [("Invoke", site.encode)]
  | ret value => form "Return" [("value", Id.encodeOption value)]
  | nop => .text "Nop"

/-- The operands of a form, by their keys and not by position. -/
def operands (keys : List String) (v : Value) : Except DecodeError (List (String × Value)) :=
  match v with
  | .record _ => v.entries { keys }
  | _ => .error (.unexpected "operands")

/-- The operand under a key. -/
def operand {e : Entity} (key : String) (operands : List (String × Value)) :
    Except DecodeError (Id e) :=
  Value.required Id.decode key operands

/-- A statement of the named form over the given operands. -/
def decodeForm (name : String) (v : Value) : Except DecodeError Stmt := do
  match name with
  | "New" =>
    let r ← operands ["lhs", "site"] v
    pure (alloc (← operand "lhs" r) (← operand "site" r))
  | "Copy" =>
    let r ← operands ["lhs", "rhs"] v
    pure (copy (← operand "lhs" r) (← operand "rhs" r))
  | "LoadStatic" =>
    let r ← operands ["lhs", "field"] v
    pure (loadStatic (← operand "lhs" r) (← operand "field" r))
  | "StoreStatic" =>
    let r ← operands ["field", "rhs"] v
    pure (storeStatic (← operand "field" r) (← operand "rhs" r))
  | "LoadField" =>
    let r ← operands ["lhs", "base", "field"] v
    pure (loadField (← operand "lhs" r) (← operand "base" r) (← operand "field" r))
  | "StoreField" =>
    let r ← operands ["base", "field", "rhs"] v
    pure (storeField (← operand "base" r) (← operand "field" r) (← operand "rhs" r))
  | "LoadArray" =>
    let r ← operands ["lhs", "base"] v
    pure (loadArray (← operand "lhs" r) (← operand "base" r))
  | "StoreArray" =>
    let r ← operands ["base", "rhs"] v
    pure (storeArray (← operand "base" r) (← operand "rhs" r))
  | "Invoke" => pure (invoke (← Id.decode v))
  | "Return" =>
    let r ← operands ["value"] v
    pure (ret (← Value.optional Id.decode "value" r))
  | "Nop" =>
    match v with
    | .null => pure nop
    | _ => .error (.unexpected "null")
  | _ => .error (.unknownName name)

def decode : Value → Except DecodeError Stmt
  | .record [(name, v)] => decodeForm name v
  | .text "Nop" => .ok nop
  | _ => .error (.unexpected "statement")

end Stmt

/-! ## Parts of programs -/

def ClassDecl.encode (k : ClassDecl) : Value :=
  .record [("name", .text k.name), ("superclass", Id.encodeOption k.superclass),
    ("interfaces", Id.encodeList k.interfaces), ("is_interface", .bool k.isInterface),
    ("is_abstract", .bool k.isAbstract)]

def MethodInfo.encode (m : MethodInfo) : Value :=
  .record [("class", m.cls.encode), ("subsignature", .text m.subsignature.text),
    ("is_static", .bool m.isStatic), ("is_abstract", .bool m.isAbstract)]

def MethodRef.encode (r : MethodRef) : Value :=
  .record [("class", r.cls.encode), ("subsignature", .text r.subsignature.text)]

def MethodBody.encode (b : MethodBody) : Value :=
  .record [("this", Id.encodeOption b.this), ("params", Id.encodeList b.params),
    ("return_vars", Id.encodeList b.returnVars), ("stmts", .list (b.stmts.map Stmt.encode)),
    ("call_sites", Id.encodeList b.callSites)]

def FieldInfo.encode (f : FieldInfo) : Value :=
  .record [("name", .text f.name), ("class", f.cls.encode), ("is_static", .bool f.isStatic)]

def FieldStore.encode (s : FieldStore) : Value :=
  .record [("field", s.field.encode), ("rhs", s.rhs.encode)]

def FieldLoad.encode (l : FieldLoad) : Value :=
  .record [("lhs", l.lhs.encode), ("field", l.field.encode)]

def VarIndex.encode (ix : VarIndex) : Value :=
  .record [("store_fields", .list (ix.storeFields.map FieldStore.encode)),
    ("load_fields", .list (ix.loadFields.map FieldLoad.encode)),
    ("store_arrays", Id.encodeList ix.storeArrays), ("load_arrays", Id.encodeList ix.loadArrays),
    ("invokes", Id.encodeList ix.invokes), ("arg_of", Id.encodeList ix.argOf)]

def CallSite.encode (c : CallSite) : Value :=
  .record [("kind", c.kind.encode), ("method_ref", c.target.encode),
    ("receiver", Id.encodeOption c.receiver), ("args", Id.encodeList c.args),
    ("result", Id.encodeOption c.result), ("container", c.container.encode)]

def AllocSite.encode (a : AllocSite) : Value :=
  .record [("ty", a.cls.encode), ("container", a.container.encode)]

end PointsTo
