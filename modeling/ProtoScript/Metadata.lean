import ProtoScript.Build
import ProtoScript.Text.Literals

/-! # Field metadata

In the tables of the run-time library a field is an array of six elements, which are read by
their positions.
-/

namespace ProtoScript

/-- The entry of a field in a table. -/
structure Metadata where
  name : String
  label : Label
  type : FieldType
  reference : Option String
  default : String
  deriving DecidableEq, Repr

namespace Metadata

def renderReference : Option String → String
  | some reference => "'" ++ reference ++ "'"
  | none => "null"

def render (m : Metadata) : String :=
  "['" ++ m.name ++ "', " ++ Decimal.ofInt m.label.code ++ ", " ++
    Decimal.ofInt m.type.code ++ ", " ++ renderReference m.reference ++ ", " ++
    m.default ++ ", \x7b\x7d]"

end Metadata

namespace Field

def reference? (packages : Packages) (field : Field) : Build (Option String) :=
  match field.typeName with
  | some typeName => some <$> packages.resolve ("type of field '" ++ field.name ++ "'") typeName
  | none => return none

def readsTrue (text : String) : Bool :=
  text.toList.map Char.toLower == ['t', 'r', 'u', 'e']

/-- The default value of a field as a JavaScript literal. Enumeration values are looked up in
their objects, strings are quoted and numbers and bytes stay as they are. -/
def defaultLiteral (packages : Packages) (field : Field) : Build String :=
  match field.defaultValue with
  | none => return "null"
  | some value =>
    match field.type with
    | .bool => return if readsTrue value then "true" else "false"
    | .string => return Quoted.quote value
    | .enum => do
      match ← field.reference? packages with
      | some reference => return Dotted.child reference value
      | none => return value
    | _ => return value

/-- The type of the values of a field in documentation comments. -/
def docType (packages : Packages) (field : Field) : Build String :=
  match field.type with
  | .double | .float => return "Float"
  | .bool => return "Boolean"
  | .string | .bytes => return "String"
  | .message => return (← field.reference? packages).getD "unknown"
  | .enum => do
    match ← field.reference? packages with
    | some reference => return "Int (" ++ reference ++ ")"
    | none => return "Int"
  | .group => return "unknown"
  | _ => return "Int"

def metadata (packages : Packages) (field : Field) (name : String) : Build Metadata := do
  let reference ← field.reference? packages
  let default ← field.defaultLiteral packages
  return { name, label := field.label, type := field.type, reference, default }

end Field

end ProtoScript
