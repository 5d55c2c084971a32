import ProtoScript.Metadata
import ProtoScript.Proofs.Scanning

/-! # Default values of string fields

The default value of a string field is a quoted string in the script. It is read back from its
opening quote, up to the first quote that no backslash stands in front of. That quote is the last
character of the literal, so a default value neither ends its literal early nor reaches into the
text behind it.
-/

namespace ProtoScript

namespace Field

variable {field : Field} {value : String}

theorem runFrom_defaultLiteral_string (ht : field.type = .string)
    (hv : field.defaultValue = some value) (packages : Packages) (progress : Progress) :
    (field.defaultLiteral packages).runFrom progress = (.ok (Quoted.quote value), progress) := by
  unfold defaultLiteral
  rw [hv, ht]
  rfl

/-- A string default value is written as a literal from which it is read back, up to exactly where
the literal ends. No proper part of the literal from its front on can be read. With any texts behind
them, the literals of different values are different. -/
theorem string_default_self_delimiting (packages : Packages) (progress : Progress) (field : Field)
    (value : String) (ht : field.type = .string) (hv : field.defaultValue = some value) :
    ∃ literal, (field.defaultLiteral packages).runFrom progress = (.ok literal, progress) ∧
      (∀ text : String,
        Quoted.scan? (literal ++ text).toList = some (value.toList, text.toList)) ∧
      (∀ front back, literal = front ++ back → back ≠ "" → Quoted.scan? front.toList = none) ∧
      ∀ (packages' : Packages) (progress' : Progress) (other : Field) (value' : String),
        other.type = .string → other.defaultValue = some value' →
        ∃ literal',
          (other.defaultLiteral packages').runFrom progress' = (.ok literal', progress') ∧
          ∀ text text', literal ++ text = literal' ++ text' → value = value' ∧ text = text' := by
  refine ⟨_, runFrom_defaultLiteral_string ht hv packages progress, ?_, ?_, ?_⟩
  · intro text
    rw [String.toList_append]
    exact Quoted.scan?_quote_append value text.toList
  · intro front back h hb
    exact Quoted.scan?_of_quote_eq_append h hb
  · intro packages' progress' other value' ht' hv'
    refine ⟨_, runFrom_defaultLiteral_string ht' hv' packages' progress', ?_⟩
    intro text text' h
    exact Quoted.quote_append_inj h

def backslashedField : Field where
  name := "x"
  number := 1
  type := .string
  defaultValue := some "\\\"\\"

theorem string_default_self_delimiting_backslashedField :
    let other : Field := { backslashedField with defaultValue := some "\\" }
    ∃ literal literal', literal = "\"\\\\\\\"\\\\\"" ∧
      (backslashedField.defaultLiteral {}).runFrom {} = (.ok literal, {}) ∧
      (other.defaultLiteral {}).runFrom {} = (.ok literal', {}) ∧
      Quoted.scan? (literal ++ "\", null").toList =
        some ("\\\"\\".toList, "\", null".toList) ∧
      Quoted.scan? "\"\\\\\\\"\\\\".toList = none ∧
      ∀ text text', literal ++ text ≠ literal' ++ text' := by
  intro other
  obtain ⟨literal, hl, hr, hf, ho⟩ :=
    string_default_self_delimiting {} {} backslashedField "\\\"\\" rfl rfl
  obtain ⟨literal', hl', hd⟩ := ho {} {} other "\\" rfl rfl
  have hq : (backslashedField.defaultLiteral {}).runFrom {} =
      (.ok (Quoted.quote "\\\"\\"), {}) :=
    runFrom_defaultLiteral_string rfl rfl {} {}
  have he : literal = "\"\\\\\\\"\\\\\"" := by
    rw [hl] at hq
    exact (Except.ok.inj (Prod.mk.inj hq).1).trans (by decide +kernel)
  refine ⟨literal, literal', he, hl, hl', hr _, hf _ "\"" (he.trans rfl) (by decide), ?_⟩
  intro text text' h
  exact absurd (hd text text' h).1 (by decide)

end Field

end ProtoScript
