import ProtoScript.Accessor
import ProtoScript.Proofs.Events
import ProtoScript.Registration

/-! # Fields as events and values

What is built from a field depends on the tracked packages alone. The metadata of a field resolve
the reference to its type, whatever the type is. Its default value and its accessors resolve at
most that reference again.
-/

namespace ProtoScript

theorem Accessor.Kind.exists_getter (field : Field) : ∃ kind ∈ ofField field,
    (∀ suffix, kind.method suffix = "get" ++ suffix) ∧
      ∀ type owner, kind.result type owner = type := by
  rw [ofField]
  split
  · exact ⟨.getItem, by simp, fun _ => rfl, fun _ _ => rfl⟩
  · exact ⟨.get, by simp, fun _ => rfl, fun _ _ => rfl⟩

namespace Field

def references (field : Field) : List Reference :=
  match field.typeName with
  | some typeName => [⟨typeName, "type of field '" ++ field.name ++ "'"⟩]
  | none => []

def events (field : Field) : List Event := field.references.map .resolve

def literal (packages : Packages) (field : Field) : String :=
  match field.defaultValue with
  | none => "null"
  | some value =>
    match field.type with
    | .bool => if readsTrue value then "true" else "false"
    | .string => Quoted.quote value
    | .enum =>
      match field.typeName with
      | some typeName => Dotted.child (packages.nameOf typeName) value
      | none => value
    | _ => value

def documented (packages : Packages) (field : Field) : String :=
  match field.type with
  | .double | .float => "Float"
  | .bool => "Boolean"
  | .string | .bytes => "String"
  | .message => (field.typeName.map packages.nameOf).getD "unknown"
  | .enum =>
    match field.typeName with
    | some typeName => "Int (" ++ packages.nameOf typeName ++ ")"
    | none => "Int"
  | .group => "unknown"
  | _ => "Int"

/-- The metadata of a field under a name of its own. -/
def entry (packages : Packages) (field : Field) (name : String) : Metadata where
  name := name
  label := field.label
  type := field.type
  reference := field.typeName.map packages.nameOf
  default := field.literal packages

def methodsIn (packages : Packages) (field : Field) : List Accessor :=
  (Accessor.Kind.ofField field).map fun kind =>
    { kind, name := field.name, number := field.number, type := field.documented packages }

def literalEvents (field : Field) : List Event :=
  if field.defaultValue.isSome ∧ field.type = .enum then field.events else []

def accessorEvents (field : Field) : List Event :=
  if field.type = .message ∨ field.type = .enum then field.events else []

theorem references_flatMap_events (fields : List Field) :
    Event.references (fields.flatMap events) = fields.flatMap references := by
  induction fields with
  | nil => rfl
  | cons field fields ih => simp [events, ih]

theorem recorded_flatMap_events (fields : List Field) :
    Event.recorded (fields.flatMap events) = [] := by
  induction fields with
  | nil => rfl
  | cons field fields ih => simp [events, ih]

variable {field : Field}

theorem exists_resolve_of_mem_events {event : Event} (h : event ∈ field.events) :
    ∃ reference, event = .resolve reference := by
  obtain ⟨reference, _, rfl⟩ := List.mem_map.mp h
  exact ⟨reference, rfl⟩

theorem mem_events_of_mem_literalEvents {event : Event} (h : event ∈ field.literalEvents) :
    event ∈ field.events := by
  rw [literalEvents] at h
  split at h
  · exact h
  · simp at h

theorem mem_events_of_mem_accessorEvents {event : Event} (h : event ∈ field.accessorEvents) :
    event ∈ field.events := by
  rw [accessorEvents] at h
  split at h
  · exact h
  · simp at h

theorem resolve_eq_yield (packages : Packages) (reference : Reference) :
    packages.resolve reference.context reference.text =
      Build.yield packages [.resolve reference] (packages.nameOf reference.text) := by
  refine Build.ext fun progress => ?_
  rw [Build.runFrom_yield, List.findSome?_singleton, Packages.resolve, Event.failure?,
    Reference.isQualified]
  by_cases h : reference.text.toList.head? = some '.'
  · simp [h, Packages.runFrom_normalize]
  · simp [h, Reference.error, Event.failure?, Reference.isQualified]

theorem reference?_eq_yield (packages : Packages) (field : Field) :
    field.reference? packages =
      Build.yield packages field.events (field.typeName.map packages.nameOf) := by
  rw [reference?, events, references]
  cases field.typeName with
  | none => rfl
  | some typeName =>
    simp only [resolve_eq_yield packages ⟨typeName, _⟩, Build.map_yield, Option.map_some,
      List.map_cons, List.map_nil]

theorem defaultLiteral_eq_yield (packages : Packages) (field : Field) :
    field.defaultLiteral packages =
      Build.yield packages field.literalEvents (field.literal packages) := by
  rw [defaultLiteral, literalEvents, literal, reference?_eq_yield]
  cases field.defaultValue with
  | none => rfl
  | some value =>
    cases field.type with
    | enum =>
      rw [if_pos ⟨rfl, rfl⟩]
      dsimp only
      exact Build.yield_bind_pure (by cases field.typeName <;> rfl)
    | _ => rfl

theorem docType_eq_yield (packages : Packages) (field : Field) :
    field.docType packages =
      Build.yield packages field.accessorEvents (field.documented packages) := by
  rw [docType, accessorEvents, documented, reference?_eq_yield]
  cases field.type with
  | enum =>
    rw [if_pos (.inr rfl)]
    dsimp only
    exact Build.yield_bind_pure (by cases field.typeName <;> rfl)
  | message =>
    rw [if_pos (.inl rfl)]
    exact Build.yield_bind_pure rfl
  | _ => rfl

/-- The metadata of a field resolve the reference to its type and nothing else. -/
theorem metadata_eq_yield (packages : Packages) (field : Field) (name : String) :
    field.metadata packages name =
      Build.yield packages field.events (field.entry packages name) := by
  have h : ∀ event ∈ field.literalEvents, event ∈ field.events ∧
      ∃ reference, event = .resolve reference := fun event he =>
    ⟨mem_events_of_mem_literalEvents he,
      exists_resolve_of_mem_events (mem_events_of_mem_literalEvents he)⟩
  have hy := Build.yield_append_of_resolved packages (field.entry packages name) [] h
  rw [List.append_nil, List.append_nil] at hy
  rw [metadata, reference?_eq_yield, defaultLiteral_eq_yield, ← hy]
  exact Build.yield_bind (Build.yield_bind_pure rfl)

theorem literal_of_enum {packages : Packages} {path value : String}
    (hr : field.typeName.map packages.nameOf = some path) (ht : field.type = .enum)
    (hv : field.defaultValue = some value) :
    field.literal packages = Dotted.child path value := by
  obtain ⟨typeName, hn, rfl⟩ := Option.map_eq_some_iff.mp hr
  simp only [literal, hv, ht, hn]

theorem accessors_eq_yield (packages : Packages) (field : Field) :
    field.accessors packages =
      Build.yield packages field.accessorEvents (field.methodsIn packages) := by
  rw [accessors, docType_eq_yield]
  exact Build.yield_bind_pure rfl

end Field

namespace Extension

def references (extension : Extension) : List Reference :=
  ⟨extension.target, "extendee of extension field '" ++ extension.field.name ++ "'"⟩ ::
    extension.field.references

def registration (packages : Packages) (extension : Extension) : Registration where
  target := packages.nameOf extension.target
  number := extension.field.number
  metadata :=
    extension.field.entry packages (Dotted.qualify extension.scope extension.field.name)

theorem register_eq_yield (packages : Packages) (extension : Extension) :
    extension.register packages = Build.yield packages (extension.references.map .resolve)
      (extension.registration packages) := by
  rw [register, Field.metadata_eq_yield, Field.resolve_eq_yield packages ⟨extension.target, _⟩,
    references, List.map_cons, ← List.singleton_append, ← Field.events]
  exact Build.yield_bind (Build.yield_bind_pure rfl)

theorem mapM_register_eq_yield (packages : Packages) (extensions : List Extension) :
    extensions.mapM (register packages) =
      Build.yield packages ((extensions.flatMap references).map .resolve)
        (extensions.map (registration packages)) := by
  rw [Build.mapM_eq_yield (register_eq_yield packages), List.map_flatMap]

end Extension

end ProtoScript
