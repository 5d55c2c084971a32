import ProtoScript.Proofs.Dictionaries
import ProtoScript.Schema.Codec

/-! # Shapes of descriptors in JSON

Each value in the JSON form of a descriptor has a shape, which says how it is read. A record has
slots in a fixed order, each with a key, a shape and maybe a default value. What a record is read as
depends on what its slots hold and on nothing else.
-/

namespace ProtoScript

inductive Shape where
  | text
  | textOrNull
  | unsigned
  | signed
  | options
  | label
  | type
  | enumValue
  | enum
  | field
  | message
  | file
  | list (item : Shape)
  deriving DecidableEq, Repr

/-- A place for a value in a record. A slot without a default has to be filled. -/
structure Slot where
  key : String
  shape : Shape
  default? : Option Json

namespace Shape

@[reducible] def Value : Shape → Type
  | .text => String
  | .textOrNull => Option String
  | .unsigned => UInt32
  | .signed => Int32
  | .options => Dictionary
  | .label => Label
  | .type => FieldType
  | .enumValue => EnumValue
  | .enum => Enumeration
  | .field => Field
  | .message => Message
  | .file => File
  | .list item => List item.Value

def encode : (shape : Shape) → shape.Value → Json
  | .text => .string
  | .textOrNull => .ofOption
  | .unsigned => fun n => .integer n.toNat
  | .signed => fun n => .integer n.toInt
  | .options => Dictionary.toJson
  | .label => Label.toJson
  | .type => FieldType.toJson
  | .enumValue => EnumValue.toJson
  | .enum => Enumeration.toJson
  | .field => Field.toJson
  | .message => Message.toJson
  | .file => File.toJson
  | .list item => fun values => .array (values.map item.encode)

def decode : (shape : Shape) → Json → Option shape.Value
  | .text => Json.string?
  | .textOrNull => Json.nullable? Json.string?
  | .unsigned => Json.uint32?
  | .signed => Json.int32?
  | .options => Json.dictionary?
  | .label => Label.ofJson?
  | .type => FieldType.ofJson?
  | .enumValue => EnumValue.ofJson?
  | .enum => Enumeration.ofJson?
  | .field => Field.ofJson?
  | .message => Message.ofJson?
  | .file => File.ofJson?
  | .list item => Json.list? item.decode

/-- The slots of a record in their order. Other values have none. -/
def slots : Shape → List Slot
  | .enumValue => [⟨"name", .text, none⟩, ⟨"number", .signed, none⟩]
  | .enum => [⟨"name", .text, none⟩, ⟨"values", .list .enumValue, some (.array [])⟩]
  | .field => [
      ⟨"name", .text, none⟩,
      ⟨"number", .unsigned, none⟩,
      ⟨"label", .label, some (.string "optional")⟩,
      ⟨"type", .type, none⟩,
      ⟨"type_name", .textOrNull, some .null⟩,
      ⟨"default_value", .textOrNull, some .null⟩,
      ⟨"extendee", .textOrNull, some .null⟩]
  | .message => [
      ⟨"name", .text, none⟩,
      ⟨"fields", .list .field, some (.array [])⟩,
      ⟨"nested_types", .list .message, some (.array [])⟩,
      ⟨"nested_enums", .list .enum, some (.array [])⟩,
      ⟨"extensions", .list .field, some (.array [])⟩]
  | .file => [
      ⟨"name", .text, none⟩,
      ⟨"package", .text, some (.string "")⟩,
      ⟨"options", .options, some (.object [])⟩,
      ⟨"enums", .list .enum, some (.array [])⟩,
      ⟨"messages", .list .message, some (.array [])⟩,
      ⟨"extensions", .list .field, some (.array [])⟩]
  | _ => []

def IsRecord (shape : Shape) : Prop := shape.slots ≠ []

def keys (shape : Shape) : List String := shape.slots.map (·.key)

theorem nodup_keys (shape : Shape) : shape.keys.Nodup := by
  cases shape with
  | list item => exact List.nodup_nil
  | _ => decide

theorem slot_eq_of_key_eq {shape : Shape} {slot other : Slot} (hs : slot ∈ shape.slots)
    (ho : other ∈ shape.slots) (h : slot.key = other.key) : slot = other :=
  List.inj_on_of_nodup_map shape.nodup_keys hs ho h

end Shape

namespace Json

variable {α : Type} {j j' d : Json} {position : Nat} {key : String} {decode : Json → Option α}

def read (j : Json) (position : Nat) (key : String) (default? : Option Json)
    (decode : Json → Option α) : Option α :=
  ((j.at? position key).or default?).bind decode

theorem required_of_read
    (h : j.read position key none decode = j'.read position key none decode) :
    j.required position key decode = j'.required position key decode := by
  simpa only [read, required, Option.or_none] using h

theorem required_object_cons (entry : String × Json) (members : List (String × Json)) :
    (Json.object (entry :: members)).required position key decode =
      if key = entry.1 then decode entry.2
      else (Json.object members).required position key decode := by
  rw [required, at?, Dictionary.lookup_cons_eq_ite]
  split <;> rfl

theorem optional_object_cons (entry : String × Json) (members : List (String × Json))
    (default : α) : (Json.object (entry :: members)).optional position key default decode =
      if key = entry.1 then decode entry.2
      else (Json.object members).optional position key default decode := by
  rw [optional, at?, Dictionary.lookup_cons_eq_ite]
  by_cases hk : key = entry.1
  · rw [if_pos hk, if_pos hk]
  · rw [if_neg hk, if_neg hk]
    rfl

theorem optional_eq_read {default : α} (hd : decode d = some default) :
    j.optional position key default decode = j.read position key (some d) decode := by
  rw [optional, read]
  cases j.at? position key with
  | none => exact hd.symm
  | some value => rfl

theorem optional_of_read (default : α)
    (h : j.read position key (some d) decode = j'.read position key (some d) decode)
    (hd : decode d = some default) :
    j.optional position key default decode = j'.optional position key default decode := by
  rw [optional_eq_read hd, optional_eq_read hd, h]

end Json

def Slot.read (slot : Slot) (position : Nat) (j : Json) : Option slot.shape.Value :=
  j.read position slot.key slot.default? slot.shape.decode

namespace Shape

variable {shape : Shape} {j j' : Json} {first second : List (String × Json)}

theorem decode_eq_none (hr : shape.IsRecord) (hj : j.isRecord shape.slots.length = false) :
    shape.decode j = none := by
  cases shape with
  | enumValue => simp [decode, EnumValue.ofJson?, show j.isRecord 2 = false from hj]
  | enum => simp [decode, Enumeration.ofJson?, show j.isRecord 2 = false from hj]
  | field => simp [decode, Field.ofJson?, show j.isRecord 7 = false from hj]
  | message =>
    simp [decode, Message.ofJson?_eq, Message.ofRecord?, show j.isRecord 5 = false from hj]
  | file => simp [decode, File.ofJson?, show j.isRecord 6 = false from hj]
  | _ => exact absurd rfl hr

/-- Records that hold the same in all slots are read as the same. -/
theorem decode_congr (hr : shape.IsRecord) (hj : j.isRecord shape.slots.length = true)
    (hj' : j'.isRecord shape.slots.length = true)
    (h : ∀ entry ∈ shape.slots.zipIdx, entry.1.read entry.2 j = entry.1.read entry.2 j') :
    shape.decode j = shape.decode j' := by
  cases shape with
  | enumValue =>
    change Json.isRecord 2 _ = true at hj hj'
    simp only [slots, List.zipIdx_cons, Nat.reduceAdd, List.forall_mem_cons, Slot.read,
      decode] at h
    obtain ⟨hname, hnumber, -⟩ := h
    simp only [decode, EnumValue.ofJson?, if_pos hj, if_pos hj', Json.required_of_read hname,
      Json.required_of_read hnumber]
  | enum =>
    change Json.isRecord 2 _ = true at hj hj'
    simp only [slots, List.zipIdx_cons, Nat.reduceAdd, List.forall_mem_cons, Slot.read,
      decode] at h
    obtain ⟨hname, hvalues, -⟩ := h
    simp only [decode, Enumeration.ofJson?, if_pos hj, if_pos hj', Json.required_of_read hname,
      Json.optional_of_read [] hvalues rfl]
  | field =>
    change Json.isRecord 7 _ = true at hj hj'
    simp only [slots, List.zipIdx_cons, Nat.reduceAdd, List.forall_mem_cons, Slot.read,
      decode] at h
    obtain ⟨hname, hnumber, hlabel, htype, htypeName, hdefault, hextendee, -⟩ := h
    simp only [decode, Field.ofJson?, if_pos hj, if_pos hj', Json.required_of_read hname,
      Json.required_of_read hnumber, Json.optional_of_read .optional hlabel rfl,
      Json.required_of_read htype, Json.optional_of_read none htypeName rfl,
      Json.optional_of_read none hdefault rfl, Json.optional_of_read none hextendee rfl]
  | message =>
    change Json.isRecord 5 _ = true at hj hj'
    simp only [slots, List.zipIdx_cons, Nat.reduceAdd, List.forall_mem_cons, Slot.read,
      decode] at h
    obtain ⟨hname, hfields, hmessages, henums, hextensions, -⟩ := h
    simp only [decode, Message.ofJson?_eq, Message.ofRecord?, if_pos hj, if_pos hj',
      Json.required_of_read hname, Json.optional_of_read [] hfields rfl,
      Json.optional_of_read [] hmessages rfl, Json.optional_of_read [] henums rfl,
      Json.optional_of_read [] hextensions rfl]
  | file =>
    change Json.isRecord 6 _ = true at hj hj'
    simp only [slots, List.zipIdx_cons, Nat.reduceAdd, List.forall_mem_cons, Slot.read,
      decode] at h
    obtain ⟨hname, hpackage, hoptions, henums, hmessages, hextensions, -⟩ := h
    simp only [decode, File.ofJson?, if_pos hj, if_pos hj', Json.required_of_read hname,
      Json.optional_of_read "" hpackage rfl, Json.optional_of_read {} hoptions rfl,
      Json.optional_of_read [] henums rfl, Json.optional_of_read [] hmessages rfl,
      Json.optional_of_read [] hextensions rfl]
  | _ => exact absurd rfl hr

theorem decode_object_congr (hr : shape.IsRecord)
    (h : ∀ slot ∈ shape.slots, ((first.lookup slot.key).or slot.default?).bind slot.shape.decode =
      ((second.lookup slot.key).or slot.default?).bind slot.shape.decode) :
    shape.decode (.object first) = shape.decode (.object second) := by
  refine decode_congr hr rfl rfl fun entry he => h entry.1 ?_
  exact List.fst_mem_of_mem_zipIdx he

end Shape

section RoundTrip

variable {α : Type}

theorem mapM_map_eq_some {β : Type} {encode : α → β} {decode : β → Option α} {values : List α}
    (h : ∀ value ∈ values, decode (encode value) = some value) :
    (values.map encode).mapM decode = some values := by
  induction values with
  | nil => rfl
  | cons value rest ih =>
    obtain ⟨hv, hr⟩ := List.forall_mem_cons.mp h
    rw [List.map_cons, List.mapM_cons, hv, ih hr]
    rfl

theorem Json.list?_map {encode : α → Json} {decode : Json → Option α} {values : List α}
    (h : ∀ value ∈ values, decode (encode value) = some value) :
    Json.list? decode (.array (values.map encode)) = some values := by
  rw [list?, mapM_map_eq_some h]

theorem Json.uint32?_integer (n : UInt32) : Json.uint32? (.integer n.toNat) = some n := by
  have hn : 0 ≤ (n.toNat : Int) ∧ (n.toNat : Int) < UInt32.size :=
    ⟨Int.natCast_nonneg _, Int.ofNat_lt.mpr n.toNat_lt_size⟩
  unfold uint32? integer?
  rw [Option.bind_eq_bind, Option.bind_some, if_pos hn, Int.toNat_natCast, UInt32.ofNat_toNat]

theorem Json.int32?_integer (n : Int32) : Json.int32? (.integer n.toInt) = some n := by
  have hn : Int32.minValue.toInt ≤ n.toInt ∧ n.toInt ≤ Int32.maxValue.toInt :=
    ⟨n.minValue_le_toInt, n.toInt_le⟩
  unfold int32? integer?
  rw [Option.bind_eq_bind, Option.bind_some, if_pos hn, Int32.ofInt_toInt]

theorem Json.dictionary?_toJson (d : Dictionary) : Json.dictionary? d.toJson = some d := by
  rw [Dictionary.toJson, dictionary?, mapM_map_eq_some, Option.bind_eq_bind, Option.bind_some,
    Dictionary.ofList_entries]
  · rfl
  · intro entry _
    rfl

theorem Label.ofJson?_toJson (label : Label) : ofJson? label.toJson = some label := by
  cases label <;> rfl

theorem FieldType.ofJson?_toJson (type : FieldType) : ofJson? type.toJson = some type := by
  cases type <;> rfl

theorem Json.nullable?_ofOption (text : Option String) :
    Json.nullable? Json.string? (.ofOption text) = some text := by
  cases text <;> rfl

theorem EnumValue.ofJson?_toJson (value : EnumValue) : ofJson? value.toJson = some value := by
  rw [ofJson?, toJson, Json.isRecord, if_pos rfl]
  simp only [Json.required_object_cons, String.reduceEq, if_true, if_false]
  rw [Json.int32?_integer]
  rfl

theorem Enumeration.ofJson?_toJson (enum : Enumeration) : ofJson? enum.toJson = some enum := by
  rw [ofJson?, toJson, Json.isRecord, if_pos rfl]
  simp only [Json.required_object_cons, Json.optional_object_cons, String.reduceEq, if_true,
    if_false]
  rw [Json.list?_map fun value _ => value.ofJson?_toJson]
  rfl

theorem Field.ofJson?_toJson (field : Field) : ofJson? field.toJson = some field := by
  rw [ofJson?, toJson, Json.isRecord, if_pos rfl]
  simp only [Json.required_object_cons, Json.optional_object_cons, String.reduceEq, if_true,
    if_false]
  rw [Json.uint32?_integer, Label.ofJson?_toJson, FieldType.ofJson?_toJson,
    Json.nullable?_ofOption, Json.nullable?_ofOption, Json.nullable?_ofOption]
  rfl

namespace Message

theorem toJsonList_eq_map (messages : List Message) :
    toJsonList messages = messages.map toJson := by
  induction messages with
  | nil => rfl
  | cons message rest ih => rw [toJsonList, ih, List.map_cons]

theorem ofJson?_toJson_of_nested {message : Message}
    (h : ∀ inner ∈ message.messages, ofJson? inner.toJson = some inner) :
    ofJson? message.toJson = some message := by
  obtain ⟨name, fields, messages, enums, extensions⟩ := message
  rw [ofJson?_eq, toJson, ofRecord?, Json.isRecord, if_pos rfl]
  simp only [Json.required_object_cons, Json.optional_object_cons, String.reduceEq, if_true,
    if_false]
  rw [Json.list?_map fun field _ => field.ofJson?_toJson, toJsonList_eq_map, Json.list?_map h,
    Json.list?_map fun enum _ => enum.ofJson?_toJson,
    Json.list?_map fun field _ => field.ofJson?_toJson]
  rfl

theorem ofJson?_toJson_of_mem (messages : List Message) :
    ∀ message ∈ messages, ofJson? message.toJson = some message := by
  induction messages using forest_induction with
  | nil => simp
  | cons message rest ih ih' =>
    exact List.forall_mem_cons.mpr ⟨ofJson?_toJson_of_nested ih, ih'⟩

theorem ofJson?_toJson (message : Message) : ofJson? message.toJson = some message :=
  ofJson?_toJson_of_mem [message] message List.mem_cons_self

end Message

theorem File.ofJson?_toJson (file : File) : ofJson? file.toJson = some file := by
  rw [ofJson?, toJson, Json.isRecord, if_pos rfl]
  simp only [Json.required_object_cons, Json.optional_object_cons, String.reduceEq, if_true,
    if_false]
  rw [Json.dictionary?_toJson, Json.list?_map fun enum _ => enum.ofJson?_toJson,
    Message.toJsonList_eq_map, Json.list?_map fun message _ => message.ofJson?_toJson,
    Json.list?_map fun field _ => field.ofJson?_toJson]
  rfl

namespace Shape

/-- A descriptor that is written and read again is the same. -/
theorem decode_encode (shape : Shape) (value : shape.Value) :
    shape.decode (shape.encode value) = some value := by
  induction shape with
  | text => rfl
  | textOrNull => exact Json.nullable?_ofOption value
  | unsigned => exact Json.uint32?_integer value
  | signed => exact Json.int32?_integer value
  | options => exact Json.dictionary?_toJson value
  | label => exact Label.ofJson?_toJson value
  | type => exact FieldType.ofJson?_toJson value
  | enumValue => exact EnumValue.ofJson?_toJson value
  | enum => exact Enumeration.ofJson?_toJson value
  | field => exact Field.ofJson?_toJson value
  | message => exact Message.ofJson?_toJson value
  | file => exact File.ofJson?_toJson value
  | list item ih => exact Json.list?_map fun value _ => ih value

end Shape

end RoundTrip

end ProtoScript
