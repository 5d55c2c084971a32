import ProtoScript.Accessor

/-! # Declarations

A file becomes a list of declarations: the objects of its enumerations, and for each message its
constructor, the accessors of its fields and all that is declared in it.
-/

namespace ProtoScript

inductive Declaration where
  | enum (path : String) (values : List EnumValue)
  | message (scope name : String) (table : List (UInt32 × Metadata))
  | accessor (owner : String) (accessor : Accessor)
  deriving DecidableEq, Repr

namespace Declaration

/-- The JavaScript name to which a declaration assigns. -/
def path : Declaration → String
  | .enum path _ => path
  | .message scope name _ => Dotted.child scope name
  | .accessor owner a => owner ++ ".prototype." ++ a.method

def commaLines : List String → String
  | [] => ""
  | lines => ",\n".intercalate lines ++ "\n"

def renderValue (value : EnumValue) : String :=
  "  /** @const */ " ++ value.name ++ ": " ++ Decimal.ofInt value.number.toInt

def renderEntry (entry : UInt32 × Metadata) : String :=
  "    " ++ Decimal.ofInt entry.1.toNat ++ ": " ++ entry.2.render

def render (runtime : String) : Declaration → String
  | .enum path values => path ++ " = \x7b\n" ++ commaLines (values.map renderValue) ++ "\x7d;\n\n"
  | .message scope name table =>
    "/**\n * @constructor\n" ++
      " * @augments \x7b" ++ runtime ++ ".Message\x7d\n" ++
      " * @extends " ++ runtime ++ ".Message\n" ++
      " * @memberOf " ++ scope ++ "\n" ++
      " * @param \x7bobject\x7d data - Optional, provide initial data to parse\n */\n" ++
      Dotted.child scope name ++ " = " ++ runtime ++ ".create(\x7b\n  fields: \x7b\n" ++
      commaLines (table.map renderEntry) ++ "  \x7d,\n  ranges: [\n  ]\n\x7d);\n\n"
  | .accessor owner a => a.render owner

def renderAll (runtime : String) (declarations : List Declaration) : String :=
  String.join (declarations.map (render runtime))

end Declaration

def Enumeration.declare (scope : String) (enum : Enumeration) : Declaration :=
  .enum (Dotted.child scope enum.name) enum.values

namespace Message

mutual

/-- The declarations of a message and of all that is declared in it. The extensions that it
declares are recorded behind those of the messages in it. -/
def declare (packages : Packages) (scope : String) : Message → Build (List Declaration)
  | ⟨name, fields, messages, enums, extensions⟩ => do
    let table ← fields.mapM fun field => return (field.number, ← field.metadata packages field.name)
    let path := Dotted.child scope name
    let accessors ← fields.mapM (Field.accessors packages)
    let nested ← declareAll packages path messages
    Build.recordExtensions path extensions
    return .message scope name table :: accessors.flatten.map (.accessor path) ++
      enums.map (Enumeration.declare path) ++ nested

def declareAll (packages : Packages) (scope : String) : List Message → Build (List Declaration)
  | [] => return []
  | message :: rest => do
    let first ← message.declare packages scope
    let others ← declareAll packages scope rest
    return first ++ others

end

end Message

end ProtoScript
