import ProtoScript.Schema.File

/-! # Violations

Before a file is compiled it is checked: extensions name what they extend and other fields do
not, fields of declared types name their type, the field numbers of a message differ and so do
the value names of an enumeration. The check stops at the first violation.
-/

namespace ProtoScript

inductive Violation where
  | strayExtendee (scope field : String)
  | missingTypeName (scope field : String) (type : FieldType)
  | missingExtendee (scope field : String)
  | duplicateNumber (scope : String) (number : UInt32) (first second : String)
  | duplicateValue (enum value : String)
  deriving DecidableEq, Repr

def Violation.message : Violation → String
  | .strayExtendee scope field =>
    "validation error: Field '" ++ field ++ "' in '" ++ scope ++
      "' names an extendee but is not declared as an extension"
  | .missingTypeName scope field type =>
    "field '" ++ field ++ "' in '" ++ scope ++ "' has type " ++ type.name ++ " but no type name"
  | .missingExtendee scope field =>
    "extension field '" ++ field ++ "' in '" ++ scope ++ "' has no extendee"
  | .duplicateNumber scope number first second =>
    "duplicate field number " ++ Decimal.ofInt number.toNat ++ " in '" ++ scope ++ "' ('" ++
      first ++ "' and '" ++ second ++ "')"
  | .duplicateValue enum value =>
    "validation error: Duplicate enum value name '" ++ value ++ "' in enum '" ++ enum ++ "'"

def EnumValue.checkNames (enum : String) (seen : List String) :
    List EnumValue → Except Violation Unit
  | [] => .ok ()
  | value :: rest =>
    if value.name ∈ seen then .error (.duplicateValue enum value.name)
    else checkNames enum (value.name :: seen) rest

def Enumeration.check (scope : String) (enum : Enumeration) : Except Violation Unit :=
  EnumValue.checkNames (Dotted.qualify scope enum.name) [] enum.values

namespace Field

def checkType (scope : String) (field : Field) : Except Violation Unit :=
  if field.type.needsTypeName && field.typeName.isNone then
    .error (.missingTypeName scope field.name field.type)
  else .ok ()

def checkExtension (scope : String) (field : Field) : Except Violation Unit := do
  if !field.isExtension then throw (.missingExtendee scope field.name)
  field.checkType scope

/-- Check the fields of one message. The numbers already seen stand with their fields' names. -/
def checkMembers (scope : String) (seen : List (UInt32 × String)) :
    List Field → Except Violation Unit
  | [] => .ok ()
  | field :: rest => do
    if field.isExtension then throw (.strayExtendee scope field.name)
    field.checkType scope
    match seen.lookup field.number with
    | some first => throw (.duplicateNumber scope field.number first field.name)
    | none => checkMembers scope ((field.number, field.name) :: seen) rest

end Field

namespace Message

mutual

def check (scope : String) : Message → Except Violation Unit
  | ⟨name, fields, messages, enums, extensions⟩ => do
    let path := Dotted.qualify scope name
    Field.checkMembers path [] fields
    enums.forM (Enumeration.check path)
    checkAll path messages
    extensions.forM (Field.checkExtension path)

def checkAll (scope : String) : List Message → Except Violation Unit
  | [] => .ok ()
  | message :: rest => do
    message.check scope
    checkAll scope rest

end

end Message

/-- Find the first violation in a file. -/
def File.check (file : File) : Except Violation Unit := do
  file.enums.forM (Enumeration.check file.package)
  Message.checkAll file.package file.messages
  file.extensions.forM (Field.checkExtension file.package)

end ProtoScript
