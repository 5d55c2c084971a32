import Mathlib.Data.List.Forall2
import ProtoScript.Proofs.Shapes

/-! # Spellings of descriptors in JSON

A descriptor may be written in other ways than it is encoded. The members of an object stand in any
order, a record may have members that it does not know and lack those that hold their defaults, and
labels and types may be keys of objects. A record may also be an array of what its slots hold. Such
changes may be made anywhere inside a value and any number of times, and the value is still read as
the same descriptor.
-/

namespace ProtoScript

/-- The second value comes from the first by changes at any places inside it. -/
inductive Changes (change : Shape → Json → Json → Prop) : Shape → Json → Json → Prop where
  | refl {shape : Shape} (j : Json) : Changes change shape j j
  | trans {shape : Shape} {first second third : Json} :
      Changes change shape first second → Changes change shape second third →
        Changes change shape first third
  | here {shape : Shape} {j j' : Json} : change shape j j' → Changes change shape j j'
  | member {shape : Shape} {j j' : Json} (slot : Slot) (before behind : List (String × Json)) :
      slot ∈ shape.slots → Changes change slot.shape j j' →
        Changes change shape (.object (before ++ (slot.key, j) :: behind))
          (.object (before ++ (slot.key, j') :: behind))
  | place {shape : Shape} {j j' : Json} (slot : Slot) (before behind : List Json) :
      shape.slots[before.length]? = some slot → Changes change slot.shape j j' →
        Changes change shape (.array (before ++ j :: behind)) (.array (before ++ j' :: behind))
  | item {shape : Shape} {j j' : Json} (before behind : List Json) :
      Changes change shape j j' →
        Changes change (.list shape) (.array (before ++ j :: behind))
          (.array (before ++ j' :: behind))

/-- Another way to write an object, a label or a type. -/
inductive Respelling : Shape → Json → Json → Prop where
  | reorder {shape : Shape} {members others : List (String × Json)} :
      (members.map Prod.fst).Nodup → members.Perm others →
        Respelling shape (.object members) (.object others)
  | addUnknown {shape : Shape} (before behind : List (String × Json)) (key : String)
      (value : Json) : shape.IsRecord → key ∉ shape.keys →
        Respelling shape (.object (before ++ behind)) (.object (before ++ (key, value) :: behind))
  | leaveOut {shape : Shape} {default : Json} (slot : Slot)
      (before behind : List (String × Json)) : slot ∈ shape.slots → slot.default? = some default →
        ((before ++ (slot.key, default) :: behind).map Prod.fst).Nodup →
        Respelling shape (.object (before ++ (slot.key, default) :: behind))
          (.object (before ++ behind))
  | asKey {shape : Shape} (name : String) : shape = .label ∨ shape = .type →
      Respelling shape (.string name) (.object [(name, .null)])

/-- A record is written as the array of what its slots hold. Slots at the end that hold their
defaults may be left out. -/
inductive Positional : Shape → Json → Json → Prop where
  | ofRecord {shape : Shape} (values defaults : List Json) : shape.IsRecord →
      values.length ≤ shape.slots.length →
      List.Forall₂ (fun slot value => slot.default? = some value)
        (shape.slots.drop values.length) defaults →
      Positional shape (.object (shape.keys.zip (values ++ defaults))) (.array values)

namespace Shape

variable {shape : Shape} {change : Shape → Json → Json → Prop} {j j' : Json}
  {first second : List (String × Json)}

section Records

theorem decode_object_of_lookup (hr : shape.IsRecord)
    (h : ∀ key ∈ shape.keys, first.lookup key = second.lookup key) :
    shape.decode (.object first) = shape.decode (.object second) := by
  refine decode_object_congr hr fun slot hs => ?_
  rw [h slot.key (List.mem_map_of_mem hs)]

theorem decode_object_append_defaults (hr : shape.IsRecord)
    (h : ∀ member ∈ second, ∃ slot ∈ shape.slots, slot.key = member.1 ∧
      slot.default? = some member.2) :
    shape.decode (.object (first ++ second)) = shape.decode (.object first) := by
  refine decode_object_congr hr fun slot hs => ?_
  rw [List.lookup_append]
  cases first.lookup slot.key with
  | some value => rfl
  | none =>
    rw [Option.none_or, Option.none_or]
    cases hl : second.lookup slot.key with
    | none => rfl
    | some value =>
      obtain ⟨other, ho, hk, hd⟩ := h _ (Json.mem_of_lookup hl)
      obtain rfl := slot_eq_of_key_eq ho hs hk
      rw [hd]
      rfl

theorem isRecord_of_mem {slot : Slot} (h : slot ∈ shape.slots) : shape.IsRecord :=
  List.ne_nil_of_mem h

theorem decode_object_of_member {slot : Slot} (hs : slot ∈ shape.slots)
    (h : slot.shape.decode j = slot.shape.decode j') (before behind : List (String × Json)) :
    shape.decode (.object (before ++ (slot.key, j) :: behind)) =
      shape.decode (.object (before ++ (slot.key, j') :: behind)) := by
  refine decode_object_congr (isRecord_of_mem hs) fun other ho => ?_
  rw [List.lookup_append, List.lookup_append]
  cases before.lookup other.key with
  | some value => rfl
  | none =>
    rw [Option.none_or, Option.none_or, Dictionary.lookup_cons_eq_ite,
      Dictionary.lookup_cons_eq_ite]
    by_cases hk : other.key = slot.key
    · obtain rfl := slot_eq_of_key_eq ho hs hk
      simpa using h
    · simp [hk]

theorem lookup_zip {keys : List String} {values : List Json} {i : Nat} {key : String}
    (hn : keys.Nodup) (hk : keys[i]? = some key) : (keys.zip values).lookup key = values[i]? := by
  induction keys generalizing values i with
  | nil => simp at hk
  | cons first rest ih =>
    obtain ⟨hf, hr⟩ := List.nodup_cons.mp hn
    cases values with
    | nil => rfl
    | cons value values =>
      rw [List.zip_cons_cons, Dictionary.lookup_cons_eq_ite]
      cases i with
      | zero =>
        obtain rfl : first = key := by simpa using hk
        rw [if_pos rfl]
        rfl
      | succ i =>
        have hne : key ≠ first := by
          rintro rfl
          exact hf (List.mem_of_getElem? hk)
        rw [if_neg hne, ih hr hk]
        rfl

/-- An array is read as the object with the same values under the keys of the slots. -/
theorem decode_array (hr : shape.IsRecord) (values : List Json) :
    shape.decode (.array values) =
      if values.length ≤ shape.keys.length then shape.decode (.object (shape.keys.zip values))
      else none := by
  have hk : shape.keys.length = shape.slots.length := List.length_map _
  by_cases hl : values.length ≤ shape.keys.length
  · rw [if_pos hl]
    refine decode_congr hr (by simpa [Json.isRecord, hk] using hl) rfl fun entry he => ?_
    have hs : shape.slots[entry.2]? = some entry.1 := List.mem_zipIdx_iff_getElem?.mp he
    have hi : shape.keys[entry.2]? = some entry.1.key := by
      rw [keys, List.getElem?_map, hs]
      rfl
    have ha : (Json.array values).at? entry.2 entry.1.key =
        (Json.object (shape.keys.zip values)).at? entry.2 entry.1.key :=
      (lookup_zip shape.nodup_keys hi).symm
    rw [Slot.read, Slot.read, Json.read, Json.read, ha]
  · rw [if_neg hl]
    exact decode_eq_none hr (by simpa [Json.isRecord, hk] using hl)

end Records

section Reordering

variable {α β : Type} {f : α → Option β}

theorem mapM_cons_eq_some_iff {a : α} {l : List α} {bs : List β} :
    (a :: l).mapM f = some bs ↔ ∃ b rest, f a = some b ∧ l.mapM f = some rest ∧ bs = b :: rest := by
  rw [List.mapM_cons]
  cases f a <;> cases l.mapM f <;> simp [eq_comm]

theorem exists_perm_mapM {l l' : List α} {bs : List β} (hp : l.Perm l')
    (h : l.mapM f = some bs) : ∃ bs', l'.mapM f = some bs' ∧ bs.Perm bs' := by
  induction hp generalizing bs with
  | nil => exact ⟨bs, h, .refl bs⟩
  | cons a _ ih =>
    obtain ⟨b, rest, hb, hr, rfl⟩ := mapM_cons_eq_some_iff.mp h
    obtain ⟨rest', hr', hp⟩ := ih hr
    exact ⟨b :: rest', mapM_cons_eq_some_iff.mpr ⟨b, rest', hb, hr', rfl⟩, hp.cons b⟩
  | swap a a' l =>
    obtain ⟨b', tail, hb', ht, rfl⟩ := mapM_cons_eq_some_iff.mp h
    obtain ⟨b, rest, hb, hr, rfl⟩ := mapM_cons_eq_some_iff.mp ht
    refine ⟨b :: b' :: rest, ?_, .swap ..⟩
    exact mapM_cons_eq_some_iff.mpr
      ⟨b, _, hb, mapM_cons_eq_some_iff.mpr ⟨b', rest, hb', hr, rfl⟩, rfl⟩
  | trans _ _ ih ih' =>
    obtain ⟨bs', hb, hp⟩ := ih h
    obtain ⟨bs'', hb', hp'⟩ := ih' hb
    exact ⟨bs'', hb', hp.trans hp'⟩

theorem keys_of_mapM {members : List (String × Json)} {bindings : List (String × String)}
    (h : members.mapM (fun (key, value) => value.string?.map fun text => (key, text)) =
      some bindings) : bindings.map Prod.fst = members.map Prod.fst := by
  induction members generalizing bindings with
  | nil =>
    obtain rfl : [] = bindings := Option.some.inj h
    rfl
  | cons member rest ih =>
    obtain ⟨binding, bindings, hb, hr, rfl⟩ := mapM_cons_eq_some_iff.mp h
    obtain ⟨text, _, rfl⟩ := Option.map_eq_some_iff.mp hb
    rw [List.map_cons, List.map_cons, ih hr]

theorem dictionary?_of_reorder (hn : (first.map Prod.fst).Nodup) (hp : first.Perm second) :
    Json.dictionary? (.object first) = Json.dictionary? (.object second) := by
  rw [Json.dictionary?, Json.dictionary?]
  cases h : first.mapM (fun (key, value) => value.string?.map fun text => (key, text)) with
  | some bindings =>
    obtain ⟨others, ho, hb⟩ := exists_perm_mapM hp h
    have hk : (bindings.map Prod.fst).Nodup := keys_of_mapM h ▸ hn
    rw [ho, Option.bind_eq_bind, Option.bind_some, Option.bind_some, Dictionary.ofList_perm hb hk]
  | none =>
    cases ho : second.mapM (fun (key, value) => value.string?.map fun text => (key, text)) with
    | none => rfl
    | some others =>
      obtain ⟨bindings, hb, _⟩ := exists_perm_mapM hp.symm ho
      rw [h] at hb
      simp at hb

theorem choice?_of_reorder (ofName? : String → Option α) (hp : first.Perm second) :
    Json.choice? ofName? (.object first) = Json.choice? ofName? (.object second) := by
  rcases first with _ | ⟨a, _ | ⟨b, rest⟩⟩
  · rw [hp.nil_eq]
  · rw [List.singleton_perm.mp hp]
  · have hl := hp.length_eq
    rcases second with _ | ⟨c, _ | ⟨d, more⟩⟩
    · simp at hl
    · simp at hl
    · simp [Json.choice?]

end Reordering

theorem decode_of_reorder (hn : (first.map Prod.fst).Nodup) (hp : first.Perm second) :
    shape.decode (.object first) = shape.decode (.object second) := by
  cases shape with
  | enumValue | enum | field | message | file =>
    exact decode_object_of_lookup (by simp [IsRecord, slots]) fun key _ => lookup_perm hp hn key
  | options => exact dictionary?_of_reorder hn hp
  | label => exact choice?_of_reorder Label.ofName? hp
  | type => exact choice?_of_reorder FieldType.ofName? hp
  | _ => rfl

theorem decode_of_respelling (h : Respelling shape j j') : shape.decode j = shape.decode j' := by
  cases h with
  | reorder hn hp => exact decode_of_reorder hn hp
  | addUnknown before behind key value hr hk =>
    refine decode_object_of_lookup hr fun known hm => ?_
    have hne : known ≠ key := fun he => hk (he ▸ hm)
    simp [List.lookup_append, Dictionary.lookup_cons_eq_ite, hne]
  | @leaveOut default slot before behind hs hd hn =>
    have hr := isRecord_of_mem hs
    calc shape.decode (.object (before ++ (slot.key, default) :: behind))
      _ = shape.decode (.object (before ++ behind ++ [(slot.key, default)])) := by
        refine decode_of_reorder hn ?_
        rw [List.append_assoc]
        exact List.Perm.append_left before (List.perm_append_singleton _ behind).symm
      _ = shape.decode (.object (before ++ behind)) := by
        refine decode_object_append_defaults hr fun member hm => ?_
        obtain rfl := List.mem_singleton.mp hm
        exact ⟨slot, hs, rfl, hd⟩
  | asKey name hs =>
    rcases hs with rfl | rfl <;> rfl

theorem zip_append (keys : List String) (values others : List Json) :
    keys.zip (values ++ others) =
      keys.zip values ++ (keys.drop values.length).zip others := by
  induction values generalizing keys with
  | nil => simp
  | cons value values ih =>
    cases keys with
    | nil => simp
    | cons key keys => simp [ih]

theorem decode_list_of_item (h : shape.decode j = shape.decode j') (before behind : List Json) :
    (list shape).decode (.array (before ++ j :: behind)) =
      (list shape).decode (.array (before ++ j' :: behind)) := by
  simp only [decode, Json.list?, List.mapM_append, List.mapM_cons, h]

theorem decode_array_of_place {slot : Slot} {before : List Json}
    (hs : shape.slots[before.length]? = some slot)
    (h : slot.shape.decode j = slot.shape.decode j') (behind : List Json) :
    shape.decode (.array (before ++ j :: behind)) =
      shape.decode (.array (before ++ j' :: behind)) := by
  have hm : slot ∈ shape.slots := List.mem_of_getElem? hs
  obtain ⟨hb, rfl⟩ := List.getElem?_eq_some_iff.mp hs
  have hk : shape.keys.drop before.length =
      shape.slots[before.length].key :: shape.keys.drop (before.length + 1) := by
    rw [keys, ← List.map_drop, List.drop_eq_getElem_cons hb, List.map_cons, List.map_drop]
  rw [decode_array (isRecord_of_mem hm), decode_array (isRecord_of_mem hm), zip_append,
    zip_append, hk, List.zip_cons_cons, List.zip_cons_cons, decode_object_of_member hm h]
  simp

theorem decode_of_changes
    (hc : ∀ shape j j', change shape j j' → shape.decode j = shape.decode j')
    (h : Changes change shape j j') : shape.decode j = shape.decode j' := by
  induction h with
  | refl => rfl
  | trans _ _ ih ih' => exact ih.trans ih'
  | here h => exact hc _ _ _ h
  | member slot before behind hs _ ih => exact decode_object_of_member hs ih before behind
  | place slot before behind hs _ ih => exact decode_array_of_place hs ih behind
  | item before behind _ ih => exact decode_list_of_item ih before behind

theorem exists_slot_of_mem_zip {slots : List Slot} {defaults : List Json} {member : String × Json}
    (h : List.Forall₂ (fun slot value => slot.default? = some value) slots defaults)
    (hm : member ∈ (slots.map (·.key)).zip defaults) :
    ∃ slot ∈ slots, slot.key = member.1 ∧ slot.default? = some member.2 := by
  induction h with
  | nil => simp at hm
  | @cons slot value slots defaults hd _ ih =>
    rw [List.map_cons, List.zip_cons_cons] at hm
    rcases List.mem_cons.mp hm with rfl | hm
    · exact ⟨slot, List.mem_cons_self, rfl, hd⟩
    · obtain ⟨other, ho, hk⟩ := ih hm
      exact ⟨other, List.mem_cons_of_mem _ ho, hk⟩

theorem decode_of_positional (h : Positional shape j j') : shape.decode j = shape.decode j' := by
  obtain ⟨values, defaults, hr, hl, hd⟩ := h
  have hk : values.length ≤ shape.keys.length := by simpa [keys] using hl
  rw [decode_array hr, if_pos hk, zip_append]
  refine decode_object_append_defaults hr fun member hm => ?_
  rw [keys, ← List.map_drop] at hm
  obtain ⟨slot, hs, hm⟩ := exists_slot_of_mem_zip hd hm
  exact ⟨slot, List.mem_of_mem_drop hs, hm⟩

/-- A descriptor is read back from the value that it is written as, and from every value that comes
from this one by reordering members, adding unknown ones, leaving out defaults and writing labels
and types as keys, at any places. -/
theorem decode_of_respelled (shape : Shape) (value : shape.Value) :
    shape.decode (shape.encode value) = some value ∧
      ∀ j, Changes Respelling shape (shape.encode value) j → shape.decode j = some value := by
  refine ⟨decode_encode shape value, fun j h => ?_⟩
  rw [← decode_of_changes (fun _ _ _ => decode_of_respelling) h, decode_encode]

def nestedFile : File where
  name := "a.proto"
  options := (({} : Dictionary).insert "json.namespace" "js").insert "json.suffix" ".pb.js"
  messages := [
    { name := "M"
      messages := [
        { name := "N"
          fields := [{ name := "f", number := 1, label := .repeated, type := .int32 }] }] }]

/-- The file from its last member to its first, without a package and with a member that is unknown.
The options are in another order, and in the field the type is a key and one default is left out. -/
def nestedFileRespelled : Json :=
  .object [
    ("extensions", .array []),
    ("messages", .array [.object [
      ("name", .string "M"),
      ("fields", .array []),
      ("nested_types", .array [.object [
        ("name", .string "N"),
        ("fields", .array [.object [
          ("name", .string "f"),
          ("number", .integer 1),
          ("label", .string "repeated"),
          ("type", .object [("int32", .null)]),
          ("type_name", .null),
          ("default_value", .null)]]),
        ("nested_types", .array []),
        ("nested_enums", .array []),
        ("extensions", .array [])]]),
      ("nested_enums", .array []),
      ("extensions", .array [])]]),
    ("enums", .array []),
    ("options", .object [("json.suffix", .string ".pb.js"), ("json.namespace", .string "js")]),
    ("comment", .array [.null]),
    ("name", .string "a.proto")]

theorem decode_of_respelled_nestedFile :
    Changes Respelling .file nestedFile.toJson nestedFileRespelled ∧
      File.ofJson? nestedFileRespelled = some nestedFile := by
  have hfield : Changes Respelling .field
      (Field.toJson { name := "f", number := 1, label := .repeated, type := .int32 })
      (.object [("name", .string "f"), ("number", .integer 1), ("label", .string "repeated"),
        ("type", .object [("int32", .null)]), ("type_name", .null), ("default_value", .null)]) :=
    .trans
      (.member ⟨"type", .type, none⟩
        [("name", .string "f"), ("number", .integer 1), ("label", .string "repeated")]
        [("type_name", .null), ("default_value", .null), ("extendee", .null)]
        (by simp [slots]) (.here (.asKey "int32" (.inr rfl))))
      (.here (.leaveOut ⟨"extendee", .textOrNull, some .null⟩
        [("name", .string "f"), ("number", .integer 1), ("label", .string "repeated"),
          ("type", .object [("int32", .null)]), ("type_name", .null), ("default_value", .null)]
        [] (by simp [slots]) rfl (by decide)))
  have hinner : Changes Respelling .message _ _ :=
    .member ⟨"fields", .list .field, some (.array [])⟩ [("name", .string "N")]
      [("nested_types", .array []), ("nested_enums", .array []), ("extensions", .array [])]
      (by simp [slots]) (.item [] [] hfield)
  have houter : Changes Respelling .message _ _ :=
    .member ⟨"nested_types", .list .message, some (.array [])⟩
      [("name", .string "M"), ("fields", .array [])]
      [("nested_enums", .array []), ("extensions", .array [])] (by simp [slots])
      (.item [] [] hinner)
  have hoptions : Changes Respelling .options
      (.object [("json.namespace", .string "js"), ("json.suffix", .string ".pb.js")])
      (.object [("json.suffix", .string ".pb.js"), ("json.namespace", .string "js")]) :=
    .here (.reorder (by decide) (.swap ..))
  have h : Changes Respelling .file nestedFile.toJson nestedFileRespelled :=
    .trans
      (.member ⟨"messages", .list .message, some (.array [])⟩
        [("name", .string "a.proto"), ("package", .string ""),
          ("options", nestedFile.options.toJson), ("enums", .array [])]
        [("extensions", .array [])] (by simp [slots]) (.item [] [] houter)) <|
    .trans
      (.member ⟨"options", .options, some (.object [])⟩
        [("name", .string "a.proto"), ("package", .string "")]
        [("enums", .array []), ("messages", _), ("extensions", .array [])] (by simp [slots])
        hoptions) <|
    .trans
      (.here (.leaveOut ⟨"package", .text, some (.string "")⟩ [("name", .string "a.proto")]
        [("options", _), ("enums", .array []), ("messages", _), ("extensions", .array [])]
        (by simp [slots]) rfl (by decide))) <|
    .trans
      (.here (.addUnknown [("name", .string "a.proto")]
        [("options", _), ("enums", .array []), ("messages", _), ("extensions", .array [])]
        "comment" (.array [.null]) (by simp [IsRecord, slots]) (by decide))) <|
    .here (.reorder (by decide) (List.reverse_perm _).symm)
  exact ⟨h, (decode_of_respelled .file nestedFile).2 _ h⟩

theorem exists_encode_eq (hr : shape.IsRecord) (value : shape.Value) :
    ∃ values : List Json, values.length = shape.keys.length ∧
      shape.encode value = .object (shape.keys.zip values) := by
  cases shape with
  | enumValue => exact ⟨[_, _], rfl, rfl⟩
  | enum => exact ⟨[_, _], rfl, rfl⟩
  | field => exact ⟨[_, _, _, _, _, _, _], rfl, rfl⟩
  | message =>
    obtain ⟨name, fields, messages, enums, extensions⟩ := value
    exact ⟨[_, _, _, _, _], rfl, rfl⟩
  | file => exact ⟨[_, _, _, _, _, _], rfl, rfl⟩
  | _ => exact absurd rfl hr

/-- An array of values is read as the record with these values under its first keys, whatever the
values are, and not read at all if there are more values than keys. So a descriptor is read back
also if records at any places in it are written as arrays, with or without the defaults at their
ends. -/
theorem positional_agrees_with_keyed (shape : Shape) :
    (shape.IsRecord → ∀ values : List Json,
      (values.length ≤ shape.keys.length →
        shape.decode (.array values) = shape.decode (.object (shape.keys.zip values))) ∧
      (shape.keys.length < values.length → shape.decode (.array values) = none)) ∧
    (shape.IsRecord → ∀ value : shape.Value, ∃ values : List Json,
      values.length = shape.keys.length ∧
        shape.encode value = .object (shape.keys.zip values)) ∧
    ∀ (value : shape.Value) (j : Json),
      Changes Positional shape (shape.encode value) j → shape.decode j = some value := by
  refine ⟨fun hr values => ⟨fun hl => ?_, fun hl => ?_⟩, exists_encode_eq, fun value j h => ?_⟩
  · rw [decode_array hr, if_pos hl]
  · rw [decode_array hr, if_neg (Nat.not_le.mpr hl)]
  · rw [← decode_of_changes (fun _ _ _ => decode_of_positional) h, decode_encode]

/-- The file as an array, with its messages and its field as arrays in it. -/
def nestedFilePositional : Json :=
  .array [
    .string "a.proto",
    .string "",
    .object [("json.namespace", .string "js"), ("json.suffix", .string ".pb.js")],
    .array [],
    .array [.array [
      .string "M",
      .array [],
      .array [.array [
        .string "N",
        .array [.array [.string "f", .integer 1, .string "repeated", .string "int32"]]]]]]]

theorem positional_agrees_with_keyed_nestedFile :
    Changes Positional .file nestedFile.toJson nestedFilePositional ∧
      File.ofJson? nestedFilePositional = some nestedFile ∧
      Field.ofJson? (.array [.string "f", .integer 1, .null, .string "int32"]) =
        Field.ofJson? (.object [("name", .string "f"), ("number", .integer 1), ("label", .null),
          ("type", .string "int32")]) := by
  have hfield : Changes Positional .field _ _ := .here (.ofRecord
    [.string "f", .integer 1, .string "repeated", .string "int32"] [.null, .null, .null]
    (by simp [IsRecord, slots]) (by decide) (by simp [slots]))
  have hinner : Changes Positional .message _ _ := .trans
    (.member ⟨"fields", .list .field, some (.array [])⟩ [("name", .string "N")]
      [("nested_types", .array []), ("nested_enums", .array []), ("extensions", .array [])]
      (by simp [slots]) (.item [] [] hfield))
    (.here (.ofRecord [.string "N", .array [_]] [.array [], .array [], .array []]
      (by simp [IsRecord, slots]) (by decide) (by simp [slots])))
  have houter : Changes Positional .message _ _ := .trans
    (.here (.ofRecord [.string "M", .array [], .array [_]] [.array [], .array []]
      (by simp [IsRecord, slots]) (by decide) (by simp [slots])))
    (.place ⟨"nested_types", .list .message, some (.array [])⟩ [.string "M", .array []] [] rfl
      (.item [] [] hinner))
  have h : Changes Positional .file nestedFile.toJson nestedFilePositional :=
    .trans
      (.here (.ofRecord
        [.string "a.proto", .string "", nestedFile.options.toJson, .array [], .array [_]]
        [.array []] (by simp [IsRecord, slots]) (by decide) (by simp [slots])))
      (.place ⟨"messages", .list .message, some (.array [])⟩
        [.string "a.proto", .string "", nestedFile.options.toJson, .array []] [] rfl
        (.item [] [] houter))
  exact ⟨h, (positional_agrees_with_keyed .file).2.2 nestedFile _ h,
    ((positional_agrees_with_keyed .field).1 (by simp [IsRecord, slots]) _).1 (by decide)⟩

end Shape

end ProtoScript
