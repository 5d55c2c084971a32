import ProtoScript.Proofs.Fields
import ProtoScript.Proofs.Scanning

/-! # Reading metadata back

The six elements of the metadata of a field are read back from their text. The default value is
written as it is and may hold any characters, among them those that divide the elements. It is found
from both ends of the text, since the elements in front of it are found from the left and a single
fixed element stands behind it. So different metadata have different texts, unless a name or a
reference holds the quote that ends it.
-/

namespace ProtoScript

open Scan

theorem Label.ofCode_code (label : Label) : ofCode label.code = .ok label := by
  cases label <;> rfl

theorem FieldType.ofCode_code (type : FieldType) : ofCode type.code = .ok type := by
  cases type <;> rfl

namespace Metadata

def readCode? {α : Type} (ofCode : Int → Except CodeError α) (text : List Char) :
    Option (α × List Char) := do
  let (digits, text) ← until? ',' text
  let text ← literal? " ".toList text
  let a ← (ofCode (Nat.ofDigitChars 10 digits 0)).toOption
  return (a, text)

def readReference? : List Char → Option (Option String × List Char)
  | '\'' :: text => (until? '\'' text).map fun (path, rest) => (some (String.ofList path), rest)
  | text => (literal? "null".toList text).map fun rest => (none, rest)

/-- Read the six elements of metadata. -/
def read? (text : List Char) : Option Metadata := do
  let text ← literal? "['".toList text
  let (name, text) ← until? '\'' text
  let text ← literal? ", ".toList text
  let (label, text) ← readCode? Label.ofCode text
  let (type, text) ← readCode? FieldType.ofCode text
  let (reference, text) ← readReference? text
  let text ← literal? ", ".toList text
  let default ← literalAtEnd? ", \x7b\x7d]".toList text
  return { name := String.ofList name, label, type, reference, default := String.ofList default }

/-- No quote ends the name or the reference early. -/
structure Delimited (m : Metadata) : Prop where
  name : '\'' ∉ m.name.toList
  reference : ∀ path, m.reference = some path → '\'' ∉ path.toList

theorem readCode?_append {α : Type} {ofCode : Int → Except CodeError α} {code : Nat} {a : α}
    (h : ofCode code = .ok a) (rest : List Char) :
    readCode? ofCode ((Decimal.ofInt code).toList ++ ',' :: (" ".toList ++ rest)) =
      some (a, rest) := by
  have hc : Nat.ofDigitChars 10 (Decimal.ofInt code).toList 0 = code := by
    rw [Decimal.toList_ofInt, Nat.ofDigitChars_ten_toDigits]
  have hd : ',' ∉ (Decimal.ofInt code).toList := Decimal.not_mem_ofInt (by decide) (by decide) code
  refine bind_eq_some (until?_append hd _) ?_
  refine bind_eq_some (literal?_append _ _) (bind_eq_some ?_ rfl)
  rw [hc, h]
  rfl

theorem readReference?_append {reference : Option String}
    (h : ∀ path, reference = some path → '\'' ∉ path.toList) (rest : List Char) :
    readReference? ((renderReference reference).toList ++ rest) = some (reference, rest) := by
  cases reference with
  | none => rfl
  | some path =>
    have hu := until?_append (h path rfl) rest
    simp [renderReference, readReference?, hu]

theorem toList_render (m : Metadata) :
    m.render.toList = "['".toList ++ (m.name.toList ++ '\'' :: (", ".toList ++
      ((Decimal.ofInt m.label.code).toList ++ ',' :: (" ".toList ++
      ((Decimal.ofInt m.type.code).toList ++ ',' :: (" ".toList ++
      ((renderReference m.reference).toList ++ (", ".toList ++
      (m.default.toList ++ ", \x7b\x7d]".toList))))))))) := by
  unfold render
  simp only [String.toList_append, List.append_assoc, -String.reduceToList]
  rfl

theorem read?_render {m : Metadata} (h : m.Delimited) : read? m.render.toList = some m := by
  rw [toList_render]
  refine bind_eq_some (literal?_append _ _) ?_
  refine bind_eq_some (until?_append h.name _) ?_
  refine bind_eq_some (literal?_append _ _) ?_
  refine bind_eq_some (readCode?_append m.label.ofCode_code _) ?_
  refine bind_eq_some (readCode?_append m.type.ofCode_code _) ?_
  refine bind_eq_some (readReference?_append h.reference _) ?_
  refine bind_eq_some (literal?_append _ _) ?_
  refine bind_eq_some (literalAtEnd?_append _ _) ?_
  rw [String.ofList_toList, String.ofList_toList]
  rfl

theorem eq_of_render_eq {m n : Metadata} (hm : m.Delimited) (hn : n.Delimited)
    (h : m.render = n.render) : m = n := by
  have hr := read?_render hm
  rw [h, read?_render hn] at hr
  exact (Option.some.inj hr).symm

end Metadata

namespace Field

variable {packages : Packages} {field : Field} {name text : String} {progress : Progress}

theorem runFrom_of_metadata_text
    (h : ((Metadata.render <$> field.metadata packages name).runFrom progress).1 = .ok text) :
    text = (field.entry packages name).render ∧
      ((field.reference? packages).runFrom progress).1 =
        .ok (field.entry packages name).reference ∧
      ((field.defaultLiteral packages).runFrom progress).1 =
        .ok (field.entry packages name).default := by
  rw [metadata_eq_yield, Build.map_yield] at h
  obtain ⟨ht, hf, _⟩ := Build.eq_of_runFrom_yield_eq_ok (Prod.ext h rfl)
  have hl : field.literalEvents.findSome? Event.failure? = none :=
    List.findSome?_eq_none_iff.mpr fun event he =>
      List.findSome?_eq_none_iff.mp hf event (mem_events_of_mem_literalEvents he)
  refine ⟨ht, ?_, ?_⟩
  · rw [reference?_eq_yield, Build.runFrom_yield, hf]
    rfl
  · rw [defaultLiteral_eq_yield, Build.runFrom_yield, hl]
    rfl

theorem quote_ne_null (value : String) : Quoted.quote value ≠ "null" := by
  intro h
  have hl := congrArg String.toList h
  rw [Quoted.toList_quote] at hl
  exact absurd (List.cons.inj hl).1 (by decide)

theorem defaultValue_eq_of_literal_eq {other : Field} (ht : field.type = .string)
    (ht' : other.type = .string) (h : field.literal packages = other.literal packages) :
    field.defaultValue = other.defaultValue := by
  unfold literal at h
  rw [ht, ht'] at h
  cases hv : field.defaultValue with
  | none =>
    cases hv' : other.defaultValue with
    | none => rfl
    | some value' =>
      rw [hv, hv'] at h
      exact absurd h.symm (quote_ne_null value')
  | some value =>
    cases hv' : other.defaultValue with
    | none =>
      rw [hv, hv'] at h
      exact absurd h (quote_ne_null value)
    | some value' =>
      rw [hv, hv'] at h
      rw [Quoted.quote_injective h]

/-- Fields with the same text of metadata, under names and with references that hold no quote, have
the same name, label, type, reference and default value, whatever characters the default value
holds. A string default value is the same as it is written in the schema. -/
theorem metadata_decodable {field other : Field} {name name' text : String}
    {progress progress' : Progress} (hn : '\'' ∉ name.toList) (hn' : '\'' ∉ name'.toList)
    (hr : ∀ path, ((field.reference? packages).runFrom progress).1 = .ok (some path) →
      '\'' ∉ path.toList)
    (hr' : ∀ path, ((other.reference? packages).runFrom progress').1 = .ok (some path) →
      '\'' ∉ path.toList)
    (h : ((Metadata.render <$> field.metadata packages name).runFrom progress).1 = .ok text)
    (h' : ((Metadata.render <$> other.metadata packages name').runFrom progress').1 = .ok text) :
    name = name' ∧ field.label = other.label ∧ field.type = other.type ∧
      (∃ reference, ((field.reference? packages).runFrom progress).1 = .ok reference ∧
        ((other.reference? packages).runFrom progress').1 = .ok reference) ∧
      (∃ literal, ((field.defaultLiteral packages).runFrom progress).1 = .ok literal ∧
        ((other.defaultLiteral packages).runFrom progress').1 = .ok literal) ∧
      (field.type = .string → field.defaultValue = other.defaultValue) := by
  obtain ⟨rfl, hp, hl⟩ := runFrom_of_metadata_text h
  obtain ⟨ht, hp', hl'⟩ := runFrom_of_metadata_text h'
  have hd : (field.entry packages name).Delimited := by
    refine ⟨hn, fun path he => hr path ?_⟩
    rw [hp, he]
  have hd' : (other.entry packages name').Delimited := by
    refine ⟨hn', fun path he => hr' path ?_⟩
    rw [hp', he]
  have he := Metadata.eq_of_render_eq hd hd' ht
  rw [← he] at hp' hl'
  have htype : field.type = other.type := congrArg Metadata.type he
  refine ⟨congrArg Metadata.name he, congrArg Metadata.label he, htype, ⟨_, hp, hp'⟩,
    ⟨_, hl, hl'⟩, fun hs => ?_⟩
  exact defaultValue_eq_of_literal_eq hs (htype ▸ hs) (congrArg Metadata.default he)

def closingField : Field where
  name := "x"
  number := 1
  type := .string
  typeName := some ".p.A"
  defaultValue := some "\", \x7b\x7d]"

theorem metadata_decodable_closingField :
    let packages := (({} : Packages).track "p" "js").track "q" "js"
    let other := { closingField with name := "y", number := 2, typeName := some ".q.A" }
    let text := "['e', 1, 9, 'js.A', \"\\\", \x7b\x7d]\", \x7b\x7d]"
    ((Metadata.render <$> closingField.metadata packages "e").runFrom {}).1 = .ok text ∧
      ((Metadata.render <$> other.metadata packages "e").runFrom {}).1 = .ok text ∧
      (∃ reference, ((closingField.reference? packages).runFrom {}).1 = .ok reference ∧
        ((other.reference? packages).runFrom {}).1 = .ok reference) ∧
      closingField.defaultValue = other.defaultValue := by
  intro packages other text
  have h : ((Metadata.render <$> closingField.metadata packages "e").runFrom {}).1 =
      .ok text := by
    decide +kernel
  have h' : ((Metadata.render <$> other.metadata packages "e").runFrom {}).1 = .ok text := by
    decide +kernel
  have hp : ((closingField.reference? packages).runFrom {}).1 = .ok (some "js.A") := by
    decide +kernel
  have hp' : ((other.reference? packages).runFrom {}).1 = .ok (some "js.A") := by
    decide +kernel
  have hq : ∀ path, (.ok (some "js.A") : Except CompileError (Option String)) = .ok (some path) →
      '\'' ∉ path.toList := by
    rintro path ⟨⟩
    decide
  have hn : '\'' ∉ "e".toList := by decide
  obtain ⟨_, _, _, hr, _, hs⟩ := metadata_decodable hn hn (hp ▸ hq) (hp' ▸ hq) h h'
  exact ⟨h, h', hr, hs rfl⟩

end Field

end ProtoScript
