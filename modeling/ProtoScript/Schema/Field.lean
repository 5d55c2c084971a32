import ProtoScript.Text.Literals

/-! # Fields

A field has a number, a cardinality and a type. Message, enumeration and group types are named
by a reference. An extension field also names the message that it extends.
-/

namespace ProtoScript

inductive Label where
  | optional
  | required
  | repeated
  deriving DecidableEq, Repr

namespace Label

def all : List Label := [.optional, .required, .repeated]

def name : Label → String
  | .optional => "optional"
  | .required => "required"
  | .repeated => "repeated"

def code : Label → Nat
  | .optional => 1
  | .required => 2
  | .repeated => 3

def ofName? (name : String) : Option Label :=
  all.find? (·.name == name)

end Label

inductive FieldType where
  | double
  | float
  | int64
  | uint64
  | int32
  | fixed64
  | fixed32
  | bool
  | string
  | group
  | message
  | bytes
  | uint32
  | enum
  | sfixed32
  | sfixed64
  | sint32
  | sint64
  deriving DecidableEq, Repr

namespace FieldType

def all : List FieldType :=
  [.double, .float, .int64, .uint64, .int32, .fixed64, .fixed32, .bool, .string, .group, .message,
    .bytes, .uint32, .enum, .sfixed32, .sfixed64, .sint32, .sint64]

def name : FieldType → String
  | .double => "double"
  | .float => "float"
  | .int64 => "int64"
  | .uint64 => "uint64"
  | .int32 => "int32"
  | .fixed64 => "fixed64"
  | .fixed32 => "fixed32"
  | .bool => "bool"
  | .string => "string"
  | .group => "group"
  | .message => "message"
  | .bytes => "bytes"
  | .uint32 => "uint32"
  | .enum => "enum"
  | .sfixed32 => "sfixed32"
  | .sfixed64 => "sfixed64"
  | .sint32 => "sint32"
  | .sint64 => "sint64"

def code : FieldType → Nat
  | .double => 1
  | .float => 2
  | .int64 => 3
  | .uint64 => 4
  | .int32 => 5
  | .fixed64 => 6
  | .fixed32 => 7
  | .bool => 8
  | .string => 9
  | .group => 10
  | .message => 11
  | .bytes => 12
  | .uint32 => 13
  | .enum => 14
  | .sfixed32 => 15
  | .sfixed64 => 16
  | .sint32 => 17
  | .sint64 => 18

def ofName? (name : String) : Option FieldType :=
  all.find? (·.name == name)

def isInteger : FieldType → Bool
  | .int64 | .uint64 | .int32 | .fixed64 | .fixed32 | .uint32 | .sfixed32 | .sfixed64 | .sint32
  | .sint64 => true
  | _ => false

def isFloat : FieldType → Bool
  | .double | .float => true
  | _ => false

/-- Types that are declared elsewhere, so that a field has to name them. -/
def needsTypeName : FieldType → Bool
  | .message | .enum | .group => true
  | _ => false

end FieldType

inductive CodeError where
  | label (code : Int)
  | fieldType (code : Int)
  deriving DecidableEq, Repr

def CodeError.message : CodeError → String
  | .label code => "unknown field label code " ++ Decimal.ofInt code
  | .fieldType code => "unknown field type code " ++ Decimal.ofInt code

def Label.ofCode (code : Int) : Except CodeError Label :=
  match all.find? (·.code == code) with
  | some label => .ok label
  | none => .error (.label code)

def FieldType.ofCode (code : Int) : Except CodeError FieldType :=
  match all.find? (·.code == code) with
  | some type => .ok type
  | none => .error (.fieldType code)

structure Field where
  name : String
  number : UInt32
  label : Label := .optional
  type : FieldType
  /-- The reference to the type, for types that are declared elsewhere. -/
  typeName : Option String := none
  /-- The default value, as it is written in the schema. -/
  defaultValue : Option String := none
  /-- The reference to the extended message. -/
  extendee : Option String := none
  deriving DecidableEq, Repr

namespace Field

def isRepeated (field : Field) : Bool := field.label == .repeated

def isExtension (field : Field) : Bool := field.extendee.isSome

end Field

end ProtoScript
