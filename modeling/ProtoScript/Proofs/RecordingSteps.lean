import Mathlib.Data.List.DropRight
import ProtoScript.Proofs.Traversal

/-! # Extensions that are recorded step by step

Each step records extensions, or registers those that are recorded and so leaves none. A message
that cannot be declared to its end leaves recorded what it has recorded by then, and extensions that
cannot be registered are taken all the same. After any steps the groups hold exactly what was
recorded since the last registration, and none of them is empty.
-/

namespace ProtoScript

theorem Build.extensions_runFrom_yield {α : Type} (packages : Packages) (events : List Event)
    (a : α) (progress : Progress) :
    ((yield packages events a).runFrom progress).2.extensions =
      (Event.recorded (events.takeWhile (·.failure?.isNone))).foldl Extensions.record
        progress.extensions := by
  rw [runFrom_yield]
  cases hf : events.findSome? Event.failure? with
  | some error => exact Event.extensions_foldl_after packages _ progress
  | none =>
    have ht : events.takeWhile (·.failure?.isNone) = events := by
      refine List.takeWhile_eq_self_iff.mpr fun event he => ?_
      rw [List.findSome?_eq_none_iff.mp hf event he, Option.isNone_none]
    rw [ht]
    exact Event.extensions_foldl_after packages events progress

theorem Build.extensions_runFrom_registerExtensions (packages : Packages) (progress : Progress) :
    ((registerExtensions packages).runFrom progress).2.extensions = {} := by
  have hr : ∀ references : List Reference, Event.recorded
      ((references.map Event.resolve).takeWhile (·.failure?.isNone)) = [] := by
    intro references
    rw [List.takeWhile_map, Event.recorded_map_resolve]
  rw [registerExtensions, runFrom_bind, runFrom_takeExtensions]
  dsimp only
  rw [Extension.mapM_register_eq_yield, extensions_runFrom_yield, hr, List.foldl_nil]

namespace Extensions

/-- A step that records extensions or registers all of them. Messages are declared and extensions
registered with any packages, and with any references outside them kept before. -/
inductive Step where
  | record (extension : Extension)
  | recordAll (scope : String) (fields : List Field)
  | declare (packages : Packages) (untracked : List String) (scope : String) (message : Message)
  | register (packages : Packages) (untracked : List String)

namespace Step

def run (extensions : Extensions) : Step → Extensions
  | .record extension => extensions.record extension
  | .recordAll scope fields => extensions.recordAll scope fields
  | .declare packages untracked scope message =>
    ((message.declare packages scope).runFrom { untracked, extensions }).2.extensions
  | .register packages untracked =>
    ((Build.registerExtensions packages).runFrom { untracked, extensions }).2.extensions

def registers : Step → Bool
  | .register .. => true
  | _ => false

/-- The extensions that a step records. A message records its own and those of the messages in it
up to the first reference that is not fully qualified. -/
def recorded : Step → List Extension
  | .record extension => [extension]
  | .recordAll scope fields => fields.map (Extension.mk scope)
  | .declare _ _ scope message =>
    Event.recorded ((Message.events scope [message]).takeWhile (·.failure?.isNone))
  | .register .. => []

theorem recorded_of_registers {step : Step} (h : step.registers = true) : step.recorded = [] := by
  cases step with
  | register packages untracked => rfl
  | record | recordAll | declare => exact nomatch h

theorem run_eq_foldl_record (extensions : Extensions) (step : Step) :
    step.run extensions =
      step.recorded.foldl Extensions.record (if step.registers then {} else extensions) := by
  cases step with
  | record extension => rfl
  | recordAll scope fields => exact recordAll_eq_foldl extensions scope fields
  | declare packages untracked scope message =>
    rw [run, Message.declare_eq_yield (Message.declareAll_eq_yield packages _ _),
      ← Message.events_singleton]
    exact Build.extensions_runFrom_yield packages _ _ _
  | register packages untracked => exact Build.extensions_runFrom_registerExtensions packages _

end Step

def ofSteps (steps : List Step) : Extensions := steps.foldl Step.run {}

theorem ofSteps_concat (steps : List Step) (step : Step) :
    ofSteps (steps ++ [step]) = step.run (ofSteps steps) := by
  unfold ofSteps
  rw [List.foldl_append]
  rfl

/-- The extensions that were recorded since the last registration, in the order of recording. -/
def recordedSince (steps : List Step) : List Extension :=
  (steps.rtakeWhile (!·.registers)).flatMap Step.recorded

theorem recordedSince_concat (steps : List Step) (step : Step) :
    recordedSince (steps ++ [step]) =
      (if step.registers then [] else recordedSince steps) ++ step.recorded := by
  unfold recordedSince
  rw [List.rtakeWhile_concat]
  by_cases h : step.registers = true
  · simp [h, Step.recorded_of_registers h]
  · simp [h]

theorem ofSteps_eq_foldl_record (steps : List Step) :
    ofSteps steps = (recordedSince steps).foldl record {} := by
  induction steps using List.reverseRecOn with
  | nil => rfl
  | append_singleton steps step ih =>
    rw [ofSteps_concat, Step.run_eq_foldl_record, recordedSince_concat, List.foldl_append, ih]
    -- A registration forgets what was recorded before it, and any other step adds to that.
    split <;> rfl

theorem size_foldl_record (recorded : List Extension) (extensions : Extensions) :
    (recorded.foldl record extensions).size = extensions.size + recorded.length := by
  induction recorded generalizing extensions with
  | nil => rfl
  | cons extension recorded ih =>
    rw [List.foldl_cons, ih, size_record, List.length_cons]
    omega

theorem targets_foldl_record (recorded : List Extension) :
    (recorded.foldl record {}).targets = (recorded.map (·.target)).eraseDups := by
  induction recorded using List.reverseRecOn with
  | nil => rfl
  | append_singleton recorded extension ih =>
    rw [List.foldl_append, List.foldl_cons, List.foldl_nil, targets_record, ih, List.map_append,
      List.map_singleton, eraseDups_concat]
    simp only [List.mem_eraseDups]

theorem isEmpty_foldl_record (recorded : List Extension) :
    (recorded.foldl record {}).isEmpty = recorded.isEmpty := by
  cases recorded with
  | nil => rfl
  | cons extension recorded =>
    rw [isEmpty, groups_foldl_record, groupsOf, List.map_cons, List.eraseDups_cons]
    rfl

/-- Extensions after any steps, of which some may fail. Their number is that of the extensions
recorded since the last registration, and there is no group if and only if it is zero. The extended
messages are listed once each, in the order in which they were extended first since then, and the
group of a message holds what was recorded for it, in the order of recording. -/
theorem groups_hold_recorded_since_registration (steps : List Step) :
    let extensions := ofSteps steps
    let recorded := recordedSince steps
    extensions.size = recorded.length ∧
    (extensions.isEmpty = true ↔ extensions.size = 0) ∧
    extensions.targets.Nodup ∧
    (∀ target, target ∈ extensions.targets ↔
      ∃ extension ∈ recorded, extension.field.extendee.getD "" = target) ∧
    extensions.targets.Pairwise (fun earlier later =>
      (recorded.map (·.target)).idxOf earlier < (recorded.map (·.target)).idxOf later) ∧
    extensions.groups = extensions.targets.map fun target =>
      (target, recorded.filter (·.target = target)) := by
  intro extensions recorded
  have he : extensions = recorded.foldl record {} := ofSteps_eq_foldl_record steps
  have hs : extensions.size = recorded.length := by
    rw [he, size_foldl_record]
    exact Nat.zero_add _
  have ht : extensions.targets = (recorded.map (·.target)).eraseDups := by
    rw [he, targets_foldl_record]
  refine ⟨hs, ?_, ?_, fun target => ?_, ?_, ?_⟩
  · rw [hs, he, isEmpty_foldl_record, List.isEmpty_iff, List.length_eq_zero_iff]
  · rw [ht]
    exact nodup_eraseDups _
  · rw [ht, List.mem_eraseDups, List.mem_map]
    rfl
  · rw [ht]
    exact pairwise_idxOf_eraseDups _
  · rw [ht, he, groups_foldl_record]
    rfl

def brokenMessage : Message where
  name := "M"
  messages := [
    { name := "N"
      extensions := [{ name := "a", number := 1, type := .bool, extendee := some ".p.A" }] },
    { name := "O"
      fields := [{ name := "f", number := 1, type := .message, typeName := some "p.A" }]
      extensions := [{ name := "x", number := 2, type := .bool, extendee := some ".p.A" }] }]

/-- Steps of which the registration and the declaration fail. The extensions without an extended
message are in a group of their own. -/
def failingSteps : List Step := [
  .recordAll "js" [{ name := "e", number := 1, type := .bool }],
  .register {} [],
  .record ⟨"js", { name := "b", number := 2, type := .bool }⟩,
  .declare {} [] "js" brokenMessage,
  .recordAll "js" [
    { name := "d", number := 3, type := .bool, extendee := some ".p.A" },
    { name := "c", number := 4, type := .bool }]]

theorem groups_hold_recorded_since_registration_failingSteps :
    let extensions := ofSteps failingSteps
    ((Build.registerExtensions {}).runFrom { extensions := ofSteps (failingSteps.take 1) }).1 =
      .error (.unqualifiedReference "" "extendee of extension field 'e'") ∧
    ((brokenMessage.declare {} "js").runFrom {}).1 =
      .error (.unqualifiedReference "p.A" "type of field 'f'") ∧
    extensions.size = 4 ∧ extensions.isEmpty = false ∧ extensions.targets = ["", ".p.A"] ∧
    (extensions.groups.map fun group => group.2.map fun e => Dotted.child e.scope e.field.name) =
      [["js.b", "js.c"], ["js.M.N.a", "js.d"]] := by
  intro extensions
  obtain ⟨hs, he, _, _, _, hg⟩ := groups_hold_recorded_since_registration failingSteps
  have hf : extensions.size = 4 := by
    rw [hs]
    decide +kernel
  have ht : extensions.targets = ["", ".p.A"] := by decide +kernel
  refine ⟨by decide +kernel, by decide +kernel, hf, ?_, ht, ?_⟩
  · refine Bool.eq_false_iff.mpr fun h => ?_
    have hz : extensions.size = 0 := he.mp h
    omega
  · rw [hg, ht]
    decide +kernel

end Extensions

end ProtoScript
