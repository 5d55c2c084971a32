import ProtoScript.Metadata
import ProtoScript.Text.UpperCase

/-! # Accessors

Every field has methods on the prototype of its message that read, write and clear it. Their
names end in the capitalized name of the field.
-/

namespace ProtoScript

namespace Accessor

inductive Kind where
  | has
  | get
  | getItem
  | getList
  | set
  | add
  | clear
  deriving DecidableEq, Repr

namespace Kind

/-- The accessors of a field, in the order in which they are declared. -/
def ofField (field : Field) : List Kind :=
  if field.isRepeated then [.has, .getItem, .getList, .add, .clear]
  else [.has, .get, .set, .clear]

def method : Kind → String → String
  | .has, suffix => "has" ++ suffix
  | .get, suffix | .getItem, suffix => "get" ++ suffix
  | .getList, suffix => "get" ++ suffix ++ "List"
  | .set, suffix => "set" ++ suffix
  | .add, suffix => "add" ++ suffix
  | .clear, suffix => "clear" ++ suffix

def summary : Kind → String → String
  | .has, name => "Check <" ++ name ++ "> value"
  | .get, name | .getList, name => "Get <" ++ name ++ "> value"
  | .getItem, name => "Get an item from <" ++ name ++ ">"
  | .set, name => "Set a value for <" ++ name ++ ">"
  | .add, name => "Add a value to <" ++ name ++ ">"
  | .clear, name => "Clear the value of <" ++ name ++ ">"

def parameter? : Kind → String → Option (String × String)
  | .getItem, _ => some ("int", "idx")
  | .set, type | .add, type => some (type, "value")
  | _, _ => none

/-- The type of the result of an accessor to values of the given type. Accessors that change a
message return it. -/
def result : Kind → (type owner : String) → String
  | .has, _, _ => "Boolean"
  | .get, type, _ | .getItem, type, _ => type
  | .getList, type, _ => type ++ "[]"
  | .set, _, owner | .add, _, owner | .clear, _, owner => owner

def primitive : Kind → String
  | .has => "_has"
  | .get | .getItem | .getList => "_get"
  | .set => "_set"
  | .add => "_add"
  | .clear => "_clear"

end Kind

def suffix (name : String) : String := UpperCase.capitalize name

end Accessor

/-- An accessor of a field, with the documented type of the field's values. -/
structure Accessor where
  kind : Accessor.Kind
  name : String
  number : UInt32
  type : String
  deriving DecidableEq, Repr

namespace Accessor

def method (a : Accessor) : String := a.kind.method (suffix a.name)

def call (a : Accessor) : String :=
  let arguments := match a.kind.parameter? a.type with
    | some (_, parameter) => ", " ++ parameter
    | none => ""
  "this." ++ a.kind.primitive ++ "(" ++ Decimal.ofInt a.number.toNat ++ arguments ++ ")"

def renderParameter : Option (String × String) → String
  | some (type, parameter) => " * @param \x7b" ++ type ++ "\x7d " ++ parameter ++ "\n"
  | none => ""

def render (owner : String) (a : Accessor) : String :=
  let parameter := a.kind.parameter? a.type
  "/**\n * " ++ a.kind.summary a.name ++ "\n" ++ renderParameter parameter ++
    " * @return \x7b" ++ a.kind.result a.type owner ++ "\x7d\n */\n" ++
    owner ++ ".prototype." ++ a.method ++
    " = function(" ++ (parameter.map (·.2)).getD "" ++ ")\x7b\n" ++
    "  return " ++ a.call ++ ";\n\x7d;\n\n"

end Accessor

def Field.methods (field : Field) : List String :=
  (Accessor.Kind.ofField field).map (·.method (Accessor.suffix field.name))

def Field.accessors (packages : Packages) (field : Field) : Build (List Accessor) := do
  let type ← field.docType packages
  return (Accessor.Kind.ofField field).map fun kind =>
    { kind, name := field.name, number := field.number, type }

end ProtoScript
