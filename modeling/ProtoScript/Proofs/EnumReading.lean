import ProtoScript.Declaration
import ProtoScript.Proofs.Scanning

/-! # Reading enumerations back

The object of an enumeration is read back line by line: the path to which it is assigned from the
first line, and a value from each further line. The name of a value may hold what divides it from
the number and one value from the next, so the number is found from the end of the line. Hence
different enumerations have different objects, unless a name holds a line break.
-/

namespace ProtoScript

open Scan

namespace Declaration

def comma {α : Type} : List α → List Char
  | [] => []
  | _ :: _ => [',']

def commaEnded : List String → List (List Char)
  | [] => []
  | line :: rest => (line.toList ++ comma rest) :: commaEnded rest

theorem comma_commaEnded (lines : List String) : comma (commaEnded lines) = comma lines := by
  cases lines <;> rfl

theorem newline_not_mem_commaEnded {lines : List String}
    (h : ∀ line ∈ lines, '\n' ∉ line.toList) : ∀ line ∈ commaEnded lines, '\n' ∉ line := by
  induction lines with
  | nil => simp [commaEnded]
  | cons first rest ih =>
    obtain ⟨hf, hr⟩ := List.forall_mem_cons.mp h
    have hc : '\n' ∉ comma rest := by cases rest <;> simp [comma]
    refine List.forall_mem_cons.mpr ⟨?_, ih hr⟩
    simp [hf, hc]

theorem toList_commaLines (before : List Char) (lines : List String) :
    before ++ '\n' :: (commaLines lines).toList =
      ['\n'].intercalate (before :: commaEnded lines) ++ ['\n'] := by
  induction lines generalizing before with
  | nil => simp [commaLines, commaEnded]
  | cons line rest ih =>
    rw [commaEnded, List.intercalate_cons_cons, List.append_assoc, ← ih]
    cases rest with
    | nil => simp [commaLines, comma]
    | cons next rest => simp [commaLines, comma, String.intercalate_cons_cons]

end Declaration

namespace EnumValue

def read? (line : List Char) : Option EnumValue := do
  let text ← literal? "  /** @const */ ".toList line
  let (name, number) ← atLast? ' ' text
  let name ← literalAtEnd? ":".toList name
  return { name := String.ofList name, number := Int32.ofInt (Decimal.value number) }

def readAll? : List (List Char) → Option (List EnumValue)
  | [] => some []
  | line :: rest => do
    let line ← literalAtEnd? (Declaration.comma rest) line
    let value ← read? line
    let values ← readAll? rest
    return value :: values

theorem toList_renderValue (value : EnumValue) :
    (Declaration.renderValue value).toList = "  /** @const */ ".toList ++
      ((value.name.toList ++ ":".toList) ++
        ' ' :: (Decimal.ofInt value.number.toInt).toList) := by
  unfold Declaration.renderValue
  simp only [String.toList_append, List.append_assoc, -String.reduceToList]
  rfl

theorem read?_renderValue (value : EnumValue) :
    read? (Declaration.renderValue value).toList = some value := by
  have hb : ' ' ∉ (Decimal.ofInt value.number.toInt).toList :=
    Decimal.not_mem_ofInt (by decide) (by decide) _
  rw [toList_renderValue]
  refine bind_eq_some (literal?_append _ _) ?_
  refine bind_eq_some (atLast?_append hb _) ?_
  refine bind_eq_some (literalAtEnd?_append _ _) ?_
  rw [String.ofList_toList, Decimal.value_ofInt, Int32.ofInt_toInt]
  rfl

theorem newline_not_mem_renderValue {value : EnumValue} (h : '\n' ∉ value.name.toList) :
    '\n' ∉ (Declaration.renderValue value).toList := by
  have hd : '\n' ∉ (Decimal.ofInt value.number.toInt).toList :=
    Decimal.not_mem_ofInt (by decide) (by decide) _
  simp [toList_renderValue, h, hd]

theorem readAll?_commaEnded (values : List EnumValue) :
    readAll? (Declaration.commaEnded (values.map Declaration.renderValue)) = some values := by
  induction values with
  | nil => rfl
  | cons value rest ih =>
    rw [List.map_cons, Declaration.commaEnded, readAll?, Declaration.comma_commaEnded]
    refine bind_eq_some (literalAtEnd?_append _ _) ?_
    exact bind_eq_some value.read?_renderValue (bind_eq_some ih rfl)

end EnumValue

theorem Declaration.toList_render_enum (runtime path : String) (values : List EnumValue) :
    ((Declaration.enum path values).render runtime).toList =
      ['\n'].intercalate ((path.toList ++ " = \x7b".toList) ::
        commaEnded (values.map renderValue)) ++ "\n\x7d;\n\n".toList := by
  have hr : (Declaration.enum path values).render runtime =
      path ++ " = \x7b" ++ "\n" ++ commaLines (values.map renderValue) ++ "\x7d;\n\n" := by
    change path ++ (" = \x7b" ++ "\n") ++ commaLines (values.map renderValue) ++ _ = _
    simp only [String.append_assoc, -String.reduceAppend]
  have hl := toList_commaLines (path.toList ++ " = \x7b".toList) (values.map renderValue)
  calc
    _ = (path.toList ++ " = \x7b".toList ++
          '\n' :: (commaLines (values.map renderValue)).toList) ++ "\x7d;\n\n".toList := by
      simp only [hr, String.toList_append, List.append_assoc, -String.reduceToList]
      rfl
    _ = _ := by
      rw [hl, List.append_assoc]
      rfl

namespace Enumeration

/-- Read the object of an enumeration: the path to which it is assigned and the values in it. -/
def read? (text : List Char) : Option (String × List EnumValue) := do
  let text ← literalAtEnd? "\n\x7d;\n\n".toList text
  let heading ← (text.splitOn '\n').head?
  let path ← literalAtEnd? " = \x7b".toList heading
  let values ← EnumValue.readAll? (text.splitOn '\n').tail
  return (String.ofList path, values)

theorem read?_render (runtime : String) {path : String} {values : List EnumValue}
    (hp : '\n' ∉ path.toList) (hv : ∀ value ∈ values, '\n' ∉ value.name.toList) :
    read? ((Declaration.enum path values).render runtime).toList = some (path, values) := by
  have hs : (['\n'].intercalate ((path.toList ++ " = \x7b".toList) ::
      Declaration.commaEnded (values.map Declaration.renderValue))).splitOn '\n' =
        (path.toList ++ " = \x7b".toList) ::
          Declaration.commaEnded (values.map Declaration.renderValue) := by
    refine List.splitOn_intercalate '\n' (List.forall_mem_cons.mpr ⟨?_, ?_⟩) (by simp)
    · simp [hp]
    · refine Declaration.newline_not_mem_commaEnded (List.forall_mem_map.mpr fun value h => ?_)
      exact EnumValue.newline_not_mem_renderValue (hv value h)
  rw [Declaration.toList_render_enum]
  refine bind_eq_some (literalAtEnd?_append _ _) ?_
  rw [hs]
  refine bind_eq_some rfl (bind_eq_some (literalAtEnd?_append _ _) ?_)
  refine bind_eq_some (EnumValue.readAll?_commaEnded values) ?_
  rw [String.ofList_toList]
  rfl

/-- Enumerations with the same object, in scopes and with names that hold no line break, have the
same path and the same values in the same order. -/
theorem object_decodable (runtime runtime' scope scope' : String) (enum other : Enumeration)
    (hs : '\n' ∉ scope.toList) (hs' : '\n' ∉ scope'.toList)
    (hn : '\n' ∉ enum.name.toList) (hn' : '\n' ∉ other.name.toList)
    (hv : ∀ value ∈ enum.values, '\n' ∉ value.name.toList)
    (hv' : ∀ value ∈ other.values, '\n' ∉ value.name.toList)
    (h : (enum.declare scope).render runtime = (other.declare scope').render runtime') :
    scope ++ "." ++ enum.name = scope' ++ "." ++ other.name ∧ enum.values = other.values := by
  have hp : '\n' ∉ (Dotted.child scope enum.name).toList := by simp [Dotted.child, hs, hn]
  have hp' : '\n' ∉ (Dotted.child scope' other.name).toList := by simp [Dotted.child, hs', hn']
  have hr := read?_render runtime hp hv
  rw [declare] at h
  rw [h, declare, read?_render runtime' hp' hv'] at hr
  obtain ⟨hpath, hvalues⟩ := Prod.mk.inj (Option.some.inj hr)
  exact ⟨hpath.symm, hvalues.symm⟩

def punctuatedEnum : Enumeration where
  name := "C"
  values := [⟨"A: 1,", -1⟩, ⟨"", 2147483647⟩, ⟨"  /** @const */ B: 2", -2147483648⟩]

theorem object_decodable_punctuatedEnum :
    let other : Enumeration := { punctuatedEnum with name := "b.C" }
    let longer : Enumeration := { punctuatedEnum with values := ⟨"A", 1⟩ :: punctuatedEnum.values }
    (punctuatedEnum.declare "a.b").render "" = (other.declare "a").render "" ∧
      "a.b" ++ "." ++ punctuatedEnum.name = "a" ++ "." ++ other.name ∧
      punctuatedEnum.values = other.values ∧
      (punctuatedEnum.declare "a.b").render "" ≠ (longer.declare "a.b").render "" := by
  intro other longer
  have hv : ∀ value ∈ punctuatedEnum.values, '\n' ∉ value.name.toList := by decide
  have hv' : ∀ value ∈ longer.values, '\n' ∉ value.name.toList := by decide
  have he : (punctuatedEnum.declare "a.b").render "" = (other.declare "a").render "" := by
    decide +kernel
  obtain ⟨hp, hs⟩ := object_decodable "" "" "a.b" "a" punctuatedEnum other (by decide) (by decide)
    (by decide) (by decide) hv hv he
  refine ⟨he, hp, hs, fun h => ?_⟩
  have hl := (object_decodable "" "" "a.b" "a.b" punctuatedEnum longer (by decide) (by decide)
    (by decide) (by decide) hv hv' h).2
  exact absurd hl (by decide)

end Enumeration

end ProtoScript
