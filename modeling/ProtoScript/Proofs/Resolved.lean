import ProtoScript.Proofs.History
import ProtoScript.Proofs.Statements

/-! # References that were resolved before

The metadata of a field are built first, and resolve the reference to its type. Its default value
and its accessors may resolve that reference again. This neither fails nor adds a warning, however
much has been built in between, and gives the name that stands in the metadata.
-/

namespace ProtoScript

theorem Event.Settled.mono {packages : Packages} {progress later : Progress}
    {reference : Reference} (h : Settled packages progress reference)
    (hs : progress.untracked ⊆ later.untracked) : Settled packages later reference :=
  h.imp_right fun hm => hs hm

namespace Build

variable {α β : Type} {packages : Packages} {events more : List Event}
  {progress after later : Progress} {a b : α}

/-- A build that only resolves references which another build has resolved does not fail after it
and adds nothing. -/
theorem runFrom_yield_of_resolved
    (h : (yield packages events a).runFrom progress = (.ok b, after))
    (hm : ∀ event ∈ more, event ∈ events ∧ ∃ reference, event = .resolve reference)
    (hl : after.untracked ⊆ later.untracked) (c : β) :
    (yield packages more c).runFrom later = (.ok c, later) := by
  obtain ⟨_, hf, rfl⟩ := eq_of_runFrom_yield_eq_ok h
  have hp : (performAll packages more).runFrom later = (.ok (), later) := by
    refine runFrom_performAll_of_settled fun event he => ?_
    obtain ⟨hi, reference, rfl⟩ := hm event he
    exact ⟨reference, rfl, List.findSome?_eq_none_iff.mp hf _ hi,
      (Event.settled_foldl_after hi).mono hl⟩
  rw [yield, runFrom_bind, hp]
  rfl

end Build

theorem Call.untracked_subset_of_mem_states {packages : Packages} {progress later : Progress}
    {calls : List Call} (h : later ∈ states packages progress calls) :
    progress.untracked ⊆ later.untracked := by
  intro reference hr
  have hw := (prefix_of_mem_states h).subset (List.mem_map_of_mem hr)
  exact (List.mem_map_of_injective untrackedMessage_injective).mp hw

theorem Accessor.contains_result (owner : String) (a : Accessor) :
    Text.Contains (a.render owner)
      (" * @return \x7b" ++ a.kind.result a.type owner ++ "\x7d\n */\n") := by
  refine ⟨"/**\n * " ++ a.kind.summary a.name ++ "\n" ++
    renderParameter (a.kind.parameter? a.type), owner ++ ".prototype." ++ a.method ++
    " = function(" ++ ((a.kind.parameter? a.type).map (·.2)).getD "" ++ ")\x7b\n" ++
    "  return " ++ a.call ++ ";\n\x7d;\n\n", ?_⟩
  unfold render
  simp only [String.append_assoc, -String.reduceAppend]

/-- Accessors have a documented type, and their comments show it. -/
def Accessor.Show (accessors : List Accessor) (type : String) : Prop :=
  (∀ a ∈ accessors, a.type = type) ∧
    ∀ owner, Text.Contains (String.join (accessors.map (render owner)))
      (" * @return \x7b" ++ type ++ "\x7d\n */\n")

namespace Field

variable {packages : Packages} {field : Field}

theorem show_methodsIn (packages : Packages) (field : Field) :
    Accessor.Show (field.methodsIn packages) (field.documented packages) := by
  constructor
  · intro a ha
    obtain ⟨kind, _, rfl⟩ := List.mem_map.mp ha
    rfl
  · intro owner
    obtain ⟨kind, hk, _, hr⟩ := Accessor.Kind.exists_getter field
    let a : Accessor :=
      { kind, name := field.name, number := field.number, type := field.documented packages }
    have ha : a ∈ field.methodsIn packages := List.mem_map_of_mem hk
    have hc := a.contains_result owner
    rw [hr] at hc
    exact (Text.contains_join (List.mem_map_of_mem ha)).trans hc

theorem runFrom_defaultLiteral_of_reference? {reference : Option String}
    {progress middle : Progress}
    (h : (field.reference? packages).runFrom progress = (.ok reference, middle)) :
    (field.defaultLiteral packages).runFrom middle = (.ok (field.literal packages), middle) := by
  rw [reference?_eq_yield] at h
  rw [defaultLiteral_eq_yield]
  refine Build.runFrom_yield_of_resolved h (fun event he => ?_) (List.Subset.refl _) _
  have hm := mem_events_of_mem_literalEvents he
  exact ⟨hm, exists_resolve_of_mem_events hm⟩

theorem documented_message {path : String} (ht : field.type = .message)
    (hr : field.typeName.map packages.nameOf = some path) : field.documented packages = path := by
  simp only [documented, ht, hr, Option.getD_some]

theorem documented_enum {path : String} (ht : field.type = .enum)
    (hr : field.typeName.map packages.nameOf = some path) :
    field.documented packages = "Int (" ++ path ++ ")" := by
  obtain ⟨typeName, hn, rfl⟩ := Option.map_eq_some_iff.mp hr
  simp only [documented, ht, hn]

end Field

/-- Resolving the reference to the type of a field is the only step of its metadata that may fail or
warn. Once the table of a message has been built, the accessors of its fields are built at any later
time, after any calls, and neither fail nor warn. The literal of the field holds the reference
between quotes. The default value of an enumeration field, which the literal holds too, and the
comments on the accessors show the same reference. -/
theorem Message.resolved_references_stay_resolved (packages : Packages) :
    (∀ (field : Field) (name : String) (progress middle : Progress) (reference : Option String),
      (field.reference? packages).runFrom progress = (.ok reference, middle) →
        ∃ literal, (field.defaultLiteral packages).runFrom middle = (.ok literal, middle) ∧
          (field.metadata packages name).runFrom progress =
            (.ok ⟨name, field.label, field.type, reference, literal⟩, middle) ∧
          ∀ path, reference = some path →
            Metadata.render ⟨name, field.label, field.type, reference, literal⟩ =
              "['" ++ name ++ "', " ++ Decimal.ofInt field.label.code ++ ", " ++
                Decimal.ofInt field.type.code ++ ", '" ++ path ++ "', " ++ literal ++
                ", \x7b\x7d]" ∧
            ∀ value, field.type = .enum → field.defaultValue = some value →
              literal = Dotted.child path value) ∧
    ∀ (message : Message) (progress after : Progress) (table : List (UInt32 × Metadata)),
      Build.runFrom (message.fields.mapM fun field =>
        return (field.number, ← field.metadata packages field.name)) progress = (.ok table, after) →
      ∀ (calls : List Call), ∀ later ∈ Call.states packages after calls,
        (∃ accessors, (message.fields.mapM (Field.accessors packages)).runFrom later =
          (.ok accessors, later)) ∧
        ∀ (i : Nat) (field : Field), message.fields[i]? = some field → ∃ entry accessors,
          table[i]? = some (field.number, entry) ∧
          (field.accessors packages).runFrom later = (.ok accessors, later) ∧
          ∀ path, entry.reference = some path →
            entry.render = "['" ++ field.name ++ "', " ++ Decimal.ofInt field.label.code ++ ", " ++
              Decimal.ofInt field.type.code ++ ", '" ++ path ++ "', " ++ entry.default ++
              ", \x7b\x7d]" ∧
            (∀ value, field.type = .enum → field.defaultValue = some value →
              entry.default = Dotted.child path value) ∧
            (field.type = .message → Accessor.Show accessors path) ∧
            (field.type = .enum → Accessor.Show accessors ("Int (" ++ path ++ ")")) := by
  constructor
  · intro field name progress middle reference h
    have hl := Field.runFrom_defaultLiteral_of_reference? h
    refine ⟨_, hl, ?_, ?_⟩
    · rw [Field.metadata, Build.runFrom_bind, h]
      dsimp only
      rw [Build.runFrom_bind, hl]
      rfl
    · rintro path rfl
      rw [Field.reference?_eq_yield] at h
      have hr := (Build.eq_of_runFrom_yield_eq_ok h).1
      exact ⟨Metadata.render_of_reference rfl, fun value => Field.literal_of_enum hr.symm⟩
  · intro message progress after table h calls later hl
    have hs := Call.untracked_subset_of_mem_states hl
    rw [mapM_metadata_eq_yield] at h
    constructor
    · rw [Build.mapM_eq_yield (Field.accessors_eq_yield packages)]
      exact ⟨_, Build.runFrom_yield_of_resolved h
        (fun _ => mem_flatMap_events_of_accessorEvents) hs _⟩
    · intro i field hi
      have hf : field ∈ message.fields := List.mem_of_getElem? hi
      refine ⟨field.entry packages field.name, field.methodsIn packages, ?_, ?_, ?_⟩
      · rw [(Build.eq_of_runFrom_yield_eq_ok h).1, Message.table, List.getElem?_map, hi]
        rfl
      · rw [Field.accessors_eq_yield]
        refine Build.runFrom_yield_of_resolved h (fun event he => ?_) hs _
        exact mem_flatMap_events_of_accessorEvents (List.mem_flatMap.mpr ⟨field, hf, he⟩)
      · intro path hr
        have hc := field.show_methodsIn packages
        refine ⟨Metadata.render_of_reference hr, fun value => Field.literal_of_enum hr,
          fun ht => ?_, fun ht => ?_⟩
        · rwa [Field.documented_message ht hr] at hc
        · rwa [Field.documented_enum ht hr] at hc

namespace Message

def documentedMessage : Message where
  name := "M"
  fields := [
    { name := "kind", number := 1, type := .enum, typeName := some ".p.Kind"
      defaultValue := some "A" },
    { name := "rest", number := 2, label := .repeated, type := .message, typeName := some ".x.Y" }]

theorem resolved_references_stay_resolved_documentedMessage :
    let packages := ({} : Packages).track "p" "js"
    let kind := documentedMessage.fields.head (by decide)
    let after : Progress := { untracked := ["x.Y"] }
    let later : Progress := { untracked := ["x.Y", "z.Q"] }
    (∃ literal, (kind.defaultLiteral packages).runFrom {} = (.ok literal, {}) ∧
      literal = "js.Kind.A") ∧
    later ∈ Call.states packages after [⟨.normalize ".z.Q", {}⟩] ∧
    (∃ accessors, (documentedMessage.fields.mapM (Field.accessors packages)).runFrom later =
      (.ok accessors, later)) ∧
    ∃ entry accessors, (kind.accessors packages).runFrom later = (.ok accessors, later) ∧
      Metadata.render entry = "['kind', 1, 14, 'js.Kind', js.Kind.A, \x7b\x7d]" ∧
      Accessor.Show accessors "Int (js.Kind)" := by
  intro packages kind after later
  obtain ⟨hd, ht⟩ := resolved_references_stay_resolved packages
  have hl : later ∈ Call.states packages after [⟨.normalize ".z.Q", {}⟩] := by decide +kernel
  obtain ⟨literal, hr, _, he⟩ := hd kind "kind" {} {} (some "js.Kind") (by decide +kernel)
  obtain ⟨ha, hi⟩ := ht documentedMessage {} after
    [(1, ⟨"kind", .optional, .enum, some "js.Kind", "js.Kind.A"⟩),
      (2, ⟨"rest", .repeated, .message, some "x.Y", "null"⟩)]
    (by decide +kernel) [⟨.normalize ".z.Q", {}⟩] later hl
  obtain ⟨entry, accessors, hn, hs, hc⟩ := hi 0 kind rfl
  have hp : entry.reference = some "js.Kind" := by
    rw [← (Prod.mk.inj (Option.some.inj hn)).2]
  obtain ⟨hm, hv, _, hc⟩ := hc "js.Kind" hp
  rw [hv "A" rfl rfl] at hm
  exact ⟨⟨literal, hr, (he "js.Kind" rfl).2 "A" rfl rfl⟩, hl, ha, entry, accessors, hs,
    hm.trans (by decide +kernel), hc rfl⟩

end Message

end ProtoScript
