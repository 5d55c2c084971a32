import ProtoScript.Json.Basic
import ProtoScript.Schema.File

/-! # Descriptors in JSON

Every descriptor is written as an object with all of its members. It is read from an object, in
which members with a default may be left out and unknown members do not count, or from an array
of the members in their order, from whose end members with a default may be left out.
-/

namespace ProtoScript

namespace Json

/-- Read one of several names. It may also be the only key of an object, with the value `null`. -/
def choice? {α : Type} (ofName? : String → Option α) : Json → Option α
  | .string name => ofName? name
  | .object [(name, .null)] => ofName? name
  | _ => none

def dictionary? : Json → Option Dictionary
  | .object members => do
    let bindings ← members.mapM fun (key, value) => value.string?.map fun text => (key, text)
    return Dictionary.ofList bindings
  | _ => none

def ofOption : Option String → Json
  | some text => .string text
  | none => .null

end Json

def Dictionary.toJson (d : Dictionary) : Json :=
  .object (d.entries.map fun (key, value) => (key, .string value))

namespace Label

def toJson (label : Label) : Json := .string label.name

def ofJson? (j : Json) : Option Label := j.choice? ofName?

end Label

namespace FieldType

def toJson (type : FieldType) : Json := .string type.name

def ofJson? (j : Json) : Option FieldType := j.choice? ofName?

end FieldType

namespace Field

def toJson (field : Field) : Json :=
  .object [
    ("name", .string field.name),
    ("number", .integer field.number.toNat),
    ("label", field.label.toJson),
    ("type", field.type.toJson),
    ("type_name", .ofOption field.typeName),
    ("default_value", .ofOption field.defaultValue),
    ("extendee", .ofOption field.extendee)]

def ofJson? (j : Json) : Option Field :=
  if j.isRecord 7 then do return {
    name := ← j.required 0 "name" Json.string?
    number := ← j.required 1 "number" Json.uint32?
    label := ← j.optional 2 "label" .optional Label.ofJson?
    type := ← j.required 3 "type" FieldType.ofJson?
    typeName := ← j.optional 4 "type_name" none (Json.nullable? Json.string?)
    defaultValue := ← j.optional 5 "default_value" none (Json.nullable? Json.string?)
    extendee := ← j.optional 6 "extendee" none (Json.nullable? Json.string?) }
  else none

end Field

namespace EnumValue

def toJson (value : EnumValue) : Json :=
  .object [("name", .string value.name), ("number", .integer value.number.toInt)]

def ofJson? (j : Json) : Option EnumValue :=
  if j.isRecord 2 then do return {
    name := ← j.required 0 "name" Json.string?
    number := ← j.required 1 "number" Json.int32? }
  else none

end EnumValue

namespace Enumeration

def toJson (enum : Enumeration) : Json :=
  .object [("name", .string enum.name), ("values", .array (enum.values.map EnumValue.toJson))]

def ofJson? (j : Json) : Option Enumeration :=
  if j.isRecord 2 then do return {
    name := ← j.required 0 "name" Json.string?
    values := ← j.optional 1 "values" [] (Json.list? EnumValue.ofJson?) }
  else none

end Enumeration

namespace Message

mutual

def toJson : Message → Json
  | ⟨name, fields, messages, enums, extensions⟩ =>
    .object [
      ("name", .string name),
      ("fields", .array (fields.map Field.toJson)),
      ("nested_types", .array (toJsonList messages)),
      ("nested_enums", .array (enums.map Enumeration.toJson)),
      ("extensions", .array (extensions.map Field.toJson))]

def toJsonList : List Message → List Json
  | [] => []
  | message :: rest => message.toJson :: toJsonList rest

end

def ofRecord? (read? : Json → Option Message) (j : Json) : Option Message :=
  if j.isRecord 5 then do return {
    name := ← j.required 0 "name" Json.string?
    fields := ← j.optional 1 "fields" [] (Json.list? Field.ofJson?)
    messages := ← j.optional 2 "nested_types" [] (Json.list? read?)
    enums := ← j.optional 3 "nested_enums" [] (Json.list? Enumeration.ofJson?)
    extensions := ← j.optional 4 "extensions" [] (Json.list? Field.ofJson?) }
  else none

/-- Read a message from a value whose arrays and objects are nested at most `depth` deep. -/
def ofJsonWithin? : (depth : Nat) → Json → Option Message
  | 0, _ => none
  | depth + 1, j => ofRecord? (ofJsonWithin? depth) j

def ofJson? (j : Json) : Option Message := ofJsonWithin? j.depth j

theorem ofRecord?_eq_none {read? : Json → Option Message} {j : Json} (h : j.depth = 0) :
    ofRecord? read? j = none := by
  simp [ofRecord?, Json.isRecord_eq_false h]

theorem ofRecord?_congr {j : Json} {f g : Json → Option Message}
    (h : ∀ i : Json, i.depth + 1 < j.depth → f i = g i) : ofRecord? f j = ofRecord? g j := by
  have hl : ∀ v, j.at? 2 "nested_types" = some v → Json.list? f v = Json.list? g v := by
    intro v hv
    have hd := Json.depth_lt_of_at? hv
    exact Json.list?_congr fun i hi => h i (by omega)
  rw [ofRecord?, ofRecord?, Json.optional_congr hl]

theorem ofJsonWithin?_eq {d e : Nat} {j : Json} (hd : j.depth ≤ d) (he : j.depth ≤ e) :
    ofJsonWithin? d j = ofJsonWithin? e j := by
  induction d generalizing e j with
  | zero =>
    cases e with
    | zero => rfl
    | succ e => rw [ofJsonWithin?, ofJsonWithin?, ofRecord?_eq_none (Nat.le_zero.mp hd)]
  | succ d ih =>
    cases e with
    | zero => rw [ofJsonWithin?, ofJsonWithin?, ofRecord?_eq_none (Nat.le_zero.mp he)]
    | succ e => exact ofRecord?_congr fun i hi => ih (by omega) (by omega)

theorem ofJson?_eq (j : Json) : ofJson? j = ofRecord? ofJson? j := by
  rw [ofJson?, ofJsonWithin?_eq (Nat.le_refl _) (Nat.le_succ _), ofJsonWithin?]
  exact ofRecord?_congr fun i hi => ofJsonWithin?_eq (by omega) (Nat.le_refl _)

end Message

namespace File

def toJson (file : File) : Json :=
  .object [
    ("name", .string file.name),
    ("package", .string file.package),
    ("options", file.options.toJson),
    ("enums", .array (file.enums.map Enumeration.toJson)),
    ("messages", .array (Message.toJsonList file.messages)),
    ("extensions", .array (file.extensions.map Field.toJson))]

def ofJson? (j : Json) : Option File :=
  if j.isRecord 6 then do return {
    name := ← j.required 0 "name" Json.string?
    package := ← j.optional 1 "package" "" Json.string?
    options := ← j.optional 2 "options" {} Json.dictionary?
    enums := ← j.optional 3 "enums" [] (Json.list? Enumeration.ofJson?)
    messages := ← j.optional 4 "messages" [] (Json.list? Message.ofJson?)
    extensions := ← j.optional 5 "extensions" [] (Json.list? Field.ofJson?) }
  else none

end File

end ProtoScript
