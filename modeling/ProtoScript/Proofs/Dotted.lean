import Mathlib.Data.List.Chain
import Mathlib.Data.List.TakeWhile
import ProtoScript.Text.Dotted

/-! # Dotted prefixes

A name lies below a scope if the scope and a dot stand in front of it. The names below a scope
are those that members of members of it have, at any depth. The scopes around a name are its dotted
prefixes, and each of them is a member of the one before it.
-/

namespace ProtoScript.Dotted

/-- The scope is a dotted prefix of the name. -/
def Below (scope name : String) : Prop := ∃ part, name = child scope part

/-- The name is the scope itself or lies below it. -/
def Within (scope name : String) : Prop := name = scope ∨ Below scope name

/-- The name of a member of a member, and so on, of a scope. -/
def descend (scope : String) (names : List String) : String := names.foldl child scope

variable {scope other name : String} {names : List String}

theorem below_iff_rest? : Below scope name ↔ (rest? scope name).isSome = true := by
  rw [Option.isSome_iff_exists]
  constructor
  · rintro ⟨part, rfl⟩
    exact ⟨"." ++ part, rest?_eq_some_iff.mpr ⟨part, rfl, by simp [child, String.append_assoc]⟩⟩
  · rintro ⟨rest, h⟩
    obtain ⟨part, rfl, rfl⟩ := rest?_eq_some_iff.mp h
    exact ⟨part, by simp [child, String.append_assoc]⟩

theorem within_iff : Within scope name ↔ within scope name = true := by
  simp [Within, within, below_iff_rest?]

instance : Decidable (Below scope name) := decidable_of_iff _ below_iff_rest?.symm

instance : Decidable (Within scope name) := decidable_of_iff _ within_iff.symm

theorem Below.length_lt (h : Below scope name) : scope.length < name.length := by
  obtain ⟨part, rfl⟩ := h
  have hd : ".".length = 1 := rfl
  simp only [child, String.length_append]
  omega

theorem Below.eq_of_length_eq (h : Below scope name) (h' : Below other name)
    (hl : scope.length = other.length) : scope = other := by
  obtain ⟨part, rfl⟩ := h
  obtain ⟨part', he⟩ := h'
  have hc : scope.toList ++ ("." ++ part).toList = other.toList ++ ("." ++ part').toList := by
    simpa [child] using congrArg String.toList he
  exact String.ext (List.append_inj_left hc hl)

theorem child_right_cancel (h : child scope name = child other name) : scope = other := by
  have hl : scope.toList ++ ("." ++ name).toList = other.toList ++ ("." ++ name).toList := by
    simpa [child] using congrArg String.toList h
  exact String.ext (List.append_cancel_right hl)

theorem append_dropScope_child (scope other name : String) :
    other ++ dropScope scope (child scope name) = child other name := by
  simp [child, String.append_assoc]

@[simp] theorem descend_nil (scope : String) : descend scope [] = scope := rfl

@[simp] theorem descend_cons (scope name : String) (names : List String) :
    descend scope (name :: names) = descend (child scope name) names := rfl

theorem descend_concat (scope : String) (names : List String) (name : String) :
    descend scope (names ++ [name]) = child (descend scope names) name := by
  rw [descend, List.foldl_append]
  rfl

theorem descend_eq_append (scope : String) (names : List String) :
    descend scope names = scope ++ descend "" names := by
  induction names generalizing scope with
  | nil => simp
  | cons name names ih =>
    rw [descend_cons, descend_cons, ih (child scope name), ih (child "" name)]
    simp [child, String.append_assoc]

theorem below_descend (scope : String) (hn : names ≠ []) : Below scope (descend scope names) := by
  obtain ⟨name, names, rfl⟩ := List.exists_cons_of_ne_nil hn
  refine ⟨name ++ descend "" names, ?_⟩
  rw [descend_cons, descend_eq_append]
  simp [child, String.append_assoc]

@[simp] theorem dropScope_descend (scope : String) (names : List String) :
    dropScope scope (descend scope names) = descend "" names := by
  rw [descend_eq_append, dropScope_append]

theorem trim_prefix (name : String) : (trim name).toList <+: (stripLeft name).toList := by
  rw [toList_trim, toList_stripLeft, ← List.reverse_suffix, List.reverse_reverse]
  exact List.dropWhile_suffix _

theorem head?_stripLeft_ne (name : String) : (stripLeft name).toList.head? ≠ some '.' := by
  rw [toList_stripLeft]
  intro h
  simpa [h] using List.head?_dropWhile_not (· == '.') name.toList

theorem head?_trim_ne (name : String) : (trim name).toList.head? ≠ some '.' := by
  intro h
  obtain ⟨rest, hr⟩ := trim_prefix name
  apply head?_stripLeft_ne name
  rw [← hr, List.head?_append, h, Option.some_or]

theorem getLast?_trim_ne (name : String) : (trim name).toList.getLast? ≠ some '.' := by
  rw [toList_trim, List.getLast?_reverse]
  intro h
  simpa [h] using
    List.head?_dropWhile_not (· == '.') (name.toList.dropWhile (· == '.')).reverse

def Trimmed (name : String) : Prop :=
  name.toList.head? ≠ some '.' ∧ name.toList.getLast? ≠ some '.'

instance : Decidable (Trimmed name) := inferInstanceAs (Decidable (_ ∧ _))

theorem trimmed_trim (name : String) : Trimmed (trim name) :=
  ⟨head?_trim_ne name, getLast?_trim_ne name⟩

@[simp] theorem stripLeft_dot (name : String) : stripLeft ("." ++ name) = stripLeft name := by
  simp [stripLeft]

theorem stripLeft_of_head?_ne (h : name.toList.head? ≠ some '.') : stripLeft name = name := by
  apply String.ext
  rw [toList_stripLeft]
  cases hc : name.toList with
  | nil => rfl
  | cons c rest =>
    have hn : c ≠ '.' := by simpa [hc] using h
    exact List.dropWhile_cons_of_neg (by simpa using hn)

@[simp] theorem stripLeft_stripLeft (name : String) : stripLeft (stripLeft name) = stripLeft name :=
  stripLeft_of_head?_ne (head?_stripLeft_ne name)

theorem stripLeft_dot_descend_trim (h : trim scope ≠ "") :
    stripLeft ("." ++ descend (trim scope) names) = descend (trim scope) names := by
  have hn : (trim scope).toList ≠ [] := fun he => h (String.toList_eq_nil_iff.mp he)
  obtain ⟨c, rest, hc⟩ := List.exists_cons_of_ne_nil hn
  have hd := head?_trim_ne scope
  rw [hc] at hd
  rw [stripLeft_dot, stripLeft_of_head?_ne]
  rw [descend_eq_append, String.toList_append, hc]
  exact hd

theorem within_iff_exists_append : Within scope name ↔
    ∃ rest, name.toList = scope.toList ++ rest ∧ (rest = [] ∨ rest.head? = some '.') := by
  constructor
  · rintro (rfl | ⟨part, rfl⟩)
    · exact ⟨[], by simp, .inl rfl⟩
    · exact ⟨'.' :: part.toList, by simp [child], .inr rfl⟩
  · rintro ⟨rest, hn, hr⟩
    cases rest with
    | nil => exact .inl (String.ext (by simpa using hn))
    | cons c rest =>
      obtain rfl : c = '.' := by simpa using hr
      exact .inr ⟨String.ofList rest, String.ext (by simp [child, hn])⟩

theorem Within.exists_append (h : Within scope name) : ∃ rest, name = scope ++ rest := by
  rcases h with rfl | ⟨part, rfl⟩
  · exact ⟨"", by simp⟩
  · exact ⟨"." ++ part, by simp [child, String.append_assoc]⟩

theorem within_append_iff {rest : String} :
    Within scope (scope ++ rest) ↔ rest = "" ∨ rest.toList.head? = some '.' := by
  rw [within_iff_exists_append, String.toList_append, ← String.toList_eq_nil_iff]
  constructor
  · rintro ⟨back, hb, hd⟩
    rwa [List.append_cancel_left hb]
  · intro hd
    exact ⟨rest.toList, rfl, hd⟩

theorem Within.append_of_append {rest : String} (h : Within scope (scope ++ rest))
    (other : String) : Within other (other ++ rest) :=
  within_append_iff.mpr (within_append_iff.mp h)

/-- Of two scopes around one name one is around the other. -/
theorem Within.total (h : Within scope name) (h' : Within other name) :
    Within scope other ∨ Within other scope := by
  obtain ⟨rest, hn, hr⟩ := within_iff_exists_append.mp h
  obtain ⟨rest', hn', hr'⟩ := within_iff_exists_append.mp h'
  have hp : ∀ part back : List Char, part ++ back = [] ∨ (part ++ back).head? = some '.' →
      part = [] ∨ part.head? = some '.' := by
    intro part back hb
    cases part with
    | nil => exact .inl rfl
    | cons c part => exact .inr (by simpa using hb)
  rcases List.append_eq_append_iff.mp (hn.symm.trans hn') with ⟨part, hs, rfl⟩ | ⟨part, hs, rfl⟩
  · exact .inl (within_iff_exists_append.mpr ⟨part, hs, hp part _ hr⟩)
  · exact .inr (within_iff_exists_append.mpr ⟨part, hs, hp part _ hr'⟩)

theorem mem_scopesFrom {seen rest : List Char} : name ∈ scopesFrom seen rest ↔
    ∃ front back, rest = front ++ back ∧ name.toList = seen ++ front ∧
      (back = [] ∨ back.head? = some '.') := by
  induction rest generalizing seen with
  | nil =>
    rw [scopesFrom, List.mem_singleton]
    constructor
    · rintro rfl
      exact ⟨[], [], rfl, by simp, .inl rfl⟩
    · rintro ⟨front, back, hb, hn, _⟩
      obtain ⟨rfl, rfl⟩ := List.append_eq_nil_iff.mp hb.symm
      exact String.ext (by simpa using hn)
  | cons c rest ih =>
    have hstep : name ∈ scopesFrom (seen ++ [c]) rest ↔ ∃ front back, rest = front ++ back ∧
        name.toList = seen ++ c :: front ∧ (back = [] ∨ back.head? = some '.') := by
      simp [ih]
    have hsplit : (∃ front back, c :: rest = front ++ back ∧ name.toList = seen ++ front ∧
        (back = [] ∨ back.head? = some '.')) ↔
          (c = '.' ∧ name = String.ofList seen) ∨ name ∈ scopesFrom (seen ++ [c]) rest := by
      rw [hstep]
      constructor
      · rintro ⟨front, back, he, hn, hb⟩
        cases front with
        | nil =>
          rw [List.nil_append] at he
          subst he
          exact .inl ⟨by simpa using hb, String.ext (by simpa using hn)⟩
        | cons d front =>
          obtain ⟨rfl, rfl⟩ := List.cons.inj he
          exact .inr ⟨front, back, rfl, hn, hb⟩
      · rintro (⟨rfl, rfl⟩ | ⟨front, back, rfl, hn, hb⟩)
        · exact ⟨[], '.' :: rest, rfl, by simp, .inr rfl⟩
        · exact ⟨c :: front, back, rfl, hn, hb⟩
    rw [hsplit, scopesFrom]
    by_cases hc : c = '.' <;> simp [hc]

theorem mem_scopes : scope ∈ scopes name ↔ Within scope name := by
  rw [scopes, mem_scopesFrom, within_iff_exists_append]
  constructor
  · rintro ⟨front, back, hn, hs, hb⟩
    exact ⟨back, by simp [hn, hs], hb⟩
  · rintro ⟨rest, hn, hr⟩
    exact ⟨scope.toList, rest, hn, rfl, hr⟩

theorem head?_scopesFrom (seen rest : List Char) :
    (scopesFrom seen rest).head? = some (String.ofList (seen ++ rest.takeWhile (· != '.'))) := by
  induction rest generalizing seen with
  | nil => simp [scopesFrom]
  | cons c rest ih =>
    rw [scopesFrom]
    by_cases hc : c = '.'
    · simp [hc]
    · simp [hc, ih]

theorem head?_scopes (name : String) : (scopes name).head? = some (root name) :=
  head?_scopesFrom [] name.toList

theorem isChain_scopesFrom (seen rest : List Char) :
    (scopesFrom seen rest).IsChain
      (fun outer inner => ∃ part, '.' ∉ part.toList ∧ inner = child outer part) := by
  induction rest generalizing seen with
  | nil => simp [scopesFrom]
  | cons c rest ih =>
    rw [scopesFrom]
    split
    · rename_i hc
      refine List.isChain_cons.mpr ⟨fun inner hi => ?_, ih _⟩
      rw [head?_scopesFrom, Option.mem_some_iff] at hi
      refine ⟨String.ofList (rest.takeWhile (· != '.')), fun hm => ?_, ?_⟩
      · rw [String.toList_ofList] at hm
        simpa using List.mem_takeWhile_imp hm
      · rw [← hi]
        exact String.ext (by simp [child, hc])
    · exact ih _

end ProtoScript.Dotted
