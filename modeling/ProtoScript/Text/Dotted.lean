/-! # Dotted names

Packages, namespaces and references are texts whose parts are divided by dots.
No part has to be an identifier, and parts may be empty.
-/

namespace ProtoScript.Dotted

def stripLeft (name : String) : String :=
  String.ofList (name.toList.dropWhile (· == '.'))

@[simp] theorem toList_stripLeft (name : String) :
    (stripLeft name).toList = name.toList.dropWhile (· == '.') := by
  simp [stripLeft]

def trim (name : String) : String :=
  String.ofList (((name.toList.dropWhile (· == '.')).reverse.dropWhile (· == '.')).reverse)

@[simp] theorem toList_trim (name : String) : (trim name).toList =
    ((name.toList.dropWhile (· == '.')).reverse.dropWhile (· == '.')).reverse := by
  simp [trim]

/-- The part of a name behind its first characters, as many as `scope` has. -/
def dropScope (scope name : String) : String :=
  String.ofList (name.toList.drop scope.length)

@[simp] theorem dropScope_append (scope rest : String) :
    dropScope scope (scope ++ rest) = rest := by
  simp [dropScope, ← String.length_toList]

/-- The part of `name` behind the dotted prefix `scope`, from the dot on. -/
def rest? (scope name : String) : Option String :=
  if (scope ++ ".").toList.isPrefixOf name.toList then some (dropScope scope name) else none

theorem rest?_eq_some_iff {scope name rest : String} :
    rest? scope name = some rest ↔ ∃ part, rest = "." ++ part ∧ name = scope ++ rest := by
  rw [rest?]
  constructor
  · intro h
    split at h
    · rename_i hp
      obtain ⟨cs, hcs⟩ := List.isPrefixOf_iff_prefix.mp hp
      have hn : name = scope ++ ("." ++ String.ofList cs) := String.ext (by simp [← hcs])
      rw [hn, dropScope_append] at h
      exact ⟨String.ofList cs, (Option.some.inj h).symm, by rw [hn, Option.some.inj h]⟩
    · simp at h
  · rintro ⟨part, rfl, rfl⟩
    have hp : (scope ++ ".").toList.isPrefixOf (scope ++ ("." ++ part)).toList = true :=
      List.isPrefixOf_iff_prefix.mpr ⟨part.toList, by simp⟩
    rw [if_pos hp, dropScope_append]

def within (scope name : String) : Bool :=
  name == scope || (rest? scope name).isSome

def child (scope name : String) : String :=
  scope ++ "." ++ name

/-- The name of a member of `scope`, where the empty scope is the top level. -/
def qualify (scope name : String) : String :=
  if scope.isEmpty then name else child scope name

def scopesFrom (seen : List Char) : List Char → List String
  | [] => [String.ofList seen]
  | c :: rest =>
    if c = '.' then String.ofList seen :: scopesFrom (seen ++ [c]) rest
    else scopesFrom (seen ++ [c]) rest

/-- The scopes around a name from the outermost to the name itself: `a`, `a.b` and `a.b.c`
for `a.b.c`. -/
def scopes (name : String) : List String :=
  scopesFrom [] name.toList

def root (name : String) : String :=
  String.ofList (name.toList.takeWhile (· != '.'))

end ProtoScript.Dotted
