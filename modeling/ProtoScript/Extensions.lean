import ProtoScript.Schema.Field

/-! # Recorded extensions

Extension fields are recorded while messages are declared, and registered when all messages
exist. They are grouped by the messages that they extend.
-/

namespace ProtoScript

/-- An extension field and the scope that declares it. -/
structure Extension where
  scope : String
  field : Field
  deriving DecidableEq, Repr

def Extension.target (extension : Extension) : String := extension.field.extendee.getD ""

/-- Extensions in groups of one extended message. Groups stand in the order of their first
extensions, and extensions in the order in which they were recorded. -/
structure Extensions where
  groups : List (String × List Extension) := []
  deriving DecidableEq, Repr

namespace Extensions

/-- Add an extension to its group, or behind all groups if it is the first of its group. -/
def addTo (extension : Extension) :
    List (String × List Extension) → List (String × List Extension)
  | [] => [(extension.target, [extension])]
  | group :: rest =>
    if group.1 = extension.target then (group.1, group.2 ++ [extension]) :: rest
    else group :: addTo extension rest

def record (extensions : Extensions) (extension : Extension) : Extensions :=
  ⟨addTo extension extensions.groups⟩

def recordAll (extensions : Extensions) (scope : String) (fields : List Field) : Extensions :=
  fields.foldl (fun recorded field => recorded.record ⟨scope, field⟩) extensions

def isEmpty (extensions : Extensions) : Bool := extensions.groups.isEmpty

def targets (extensions : Extensions) : List String := extensions.groups.map (·.1)

def toList (extensions : Extensions) : List Extension := extensions.groups.flatMap (·.2)

def size (extensions : Extensions) : Nat := extensions.toList.length

theorem length_flatMap_addTo (extension : Extension) (groups : List (String × List Extension)) :
    ((addTo extension groups).flatMap (·.2)).length = (groups.flatMap (·.2)).length + 1 := by
  induction groups with
  | nil => rfl
  | cons group rest ih =>
    rw [addTo]
    split
    · simp only [List.flatMap_cons, List.length_append, List.length_singleton]
      omega
    · simp only [List.flatMap_cons, List.length_append, ih]
      omega

@[simp] theorem size_record (extensions : Extensions) (extension : Extension) :
    (extensions.record extension).size = extensions.size + 1 :=
  length_flatMap_addTo extension extensions.groups

theorem map_fst_addTo (extension : Extension) (groups : List (String × List Extension)) :
    (addTo extension groups).map (·.1) =
      if extension.target ∈ groups.map (·.1) then groups.map (·.1)
      else groups.map (·.1) ++ [extension.target] := by
  induction groups with
  | nil => simp [addTo]
  | cons group rest ih =>
    rw [addTo]
    by_cases h : group.1 = extension.target
    · simp [h]
    · have hn : ¬ extension.target = group.1 := fun he => h he.symm
      simp only [h, if_false, List.map_cons, ih, List.mem_cons, hn, false_or]
      split <;> simp

theorem targets_record (extensions : Extensions) (extension : Extension) :
    (extensions.record extension).targets =
      if extension.target ∈ extensions.targets then extensions.targets
      else extensions.targets ++ [extension.target] :=
  map_fst_addTo extension extensions.groups

end Extensions

end ProtoScript
