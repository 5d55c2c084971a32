import ProtoScript.Build
import ProtoScript.Proofs.Grouping
import ProtoScript.Proofs.Tracking

/-! # Events of a build

Besides its result a build has two kinds of effects: it resolves references and records extensions.
A build is therefore described by the events that it performs and the value that it yields. It
fails at the first reference that is not fully qualified, and a reference that was resolved before
has no further effect.
-/

namespace ProtoScript

/-- A reference and the place where it stands. -/
structure Reference where
  text : String
  context : String
  deriving DecidableEq, Repr

namespace Reference

def isQualified (reference : Reference) : Bool := reference.text.toList.head? = some '.'

def bare (reference : Reference) : String := Dotted.stripLeft reference.text

def error (reference : Reference) : CompileError :=
  .unqualifiedReference reference.text reference.context

end Reference

inductive Event where
  | resolve (reference : Reference)
  | record (extension : Extension)
  deriving DecidableEq, Repr

namespace Event

def reference? : Event → Option Reference
  | .resolve reference => some reference
  | .record _ => none

def extension? : Event → Option Extension
  | .resolve _ => none
  | .record extension => some extension

def failure? : Event → Option CompileError
  | .resolve reference => if reference.isQualified then none else some reference.error
  | .record _ => none

def perform (packages : Packages) : Event → Build Unit
  | .resolve reference => do
    let _ ← packages.resolve reference.context reference.text
  | .record extension => Build.recordExtensions extension.scope [extension.field]

def after (packages : Packages) (progress : Progress) : Event → Progress
  | .resolve reference =>
    if packages.Tracks reference.bare ∨ reference.bare ∈ progress.untracked then progress
    else { progress with untracked := progress.untracked ++ [reference.bare] }
  | .record extension =>
    { progress with extensions := progress.extensions.record extension }

end Event

namespace Packages

/-- The JavaScript name of a reference, which is the reference itself if it is not located. -/
def nameOf (packages : Packages) (reference : String) : String :=
  (packages.locate? (Dotted.stripLeft reference)).getD (Dotted.stripLeft reference)

/-- The references outside all tracked packages, each once, in the order of first use. -/
def untracked (packages : Packages) (references : List Reference) : List String :=
  ((references.map (·.bare)).filter (¬ packages.Tracks ·)).eraseDups

variable {packages : Packages} {reference : String}

theorem untracked_concat (packages : Packages) (references : List Reference)
    (reference : Reference) :
    packages.untracked (references ++ [reference]) =
      if packages.Tracks reference.bare ∨ reference.bare ∈ packages.untracked references then
        packages.untracked references
      else packages.untracked references ++ [reference.bare] := by
  rw [untracked, List.map_append, List.filter_append]
  by_cases ht : packages.Tracks reference.bare
  · simp [ht, untracked]
  · have hf : ([reference].map (·.bare)).filter (¬ packages.Tracks ·) = [reference.bare] := by
      simp [ht]
    rw [hf, eraseDups_concat]
    simp [ht, untracked, List.mem_eraseDups]

theorem nameOf_of_locate? {name : String}
    (h : packages.locate? (Dotted.stripLeft reference) = some name) :
    packages.nameOf reference = name := by
  rw [nameOf, h, Option.getD_some]

theorem runFrom_normalize (packages : Packages) (reference : Reference) (progress : Progress) :
    (packages.normalize reference.text).runFrom progress =
      (.ok (packages.nameOf reference.text),
        (Event.resolve reference).after packages progress) := by
  rw [normalize, nameOf, ← Reference.bare]
  by_cases h : packages.Tracks reference.bare
  · obtain ⟨name, hn⟩ := Option.isSome_iff_exists.mp (locate?_isSome_iff.mpr h)
    rw [Event.after, if_pos (.inl h)]
    simp only [hn, Option.getD_some, Build.runFrom_pure]
  · have hn : packages.locate? reference.bare = none := locate?_eq_none_iff.mpr h
    simp only [hn, Option.getD_none, Build.runFrom_bind, Build.runFrom_noteUntracked,
      Build.runFrom_pure, Event.after]
    by_cases hm : reference.bare ∈ progress.untracked <;> simp [h, hm]

theorem runFrom_normalize_of_locate? {name : String}
    (h : packages.locate? (Dotted.stripLeft reference) = some name) (progress : Progress) :
    (packages.normalize reference).runFrom progress = (.ok name, progress) := by
  rw [normalize]
  simp only [h, Build.runFrom_pure]

theorem runFrom_normalize_of_not_tracks (h : ¬ packages.Tracks (Dotted.stripLeft reference))
    (progress : Progress) :
    (packages.normalize reference).runFrom progress =
      (.ok (Dotted.stripLeft reference),
        if Dotted.stripLeft reference ∈ progress.untracked then progress
        else
          { progress with untracked := progress.untracked ++ [Dotted.stripLeft reference] }) := by
  rw [runFrom_normalize packages ⟨reference, ""⟩, nameOf, locate?_eq_none_iff.mpr h, Event.after]
  simp only [Reference.bare, h, false_or, Option.getD_none]

end Packages

namespace Event

variable {packages : Packages} {progress : Progress} {event other : Event}

theorem runFrom_perform (packages : Packages) (event : Event) (progress : Progress) :
    (event.perform packages).runFrom progress =
      match event.failure? with
      | none => (.ok (), event.after packages progress)
      | some error => (.error error, progress) := by
  cases event with
  | record extension => rfl
  | resolve reference =>
    rw [perform, Build.runFrom_bind, Packages.resolve, failure?, Reference.isQualified]
    by_cases h : reference.text.toList.head? = some '.'
    · simp only [h, if_true, Packages.runFrom_normalize, decide_true, Build.runFrom_pure]
    · simp only [h, if_false, Build.runFrom_throw, decide_false, Bool.false_eq_true,
        Reference.error]

/-- Resolving the reference has no effect any more. -/
def Settled (packages : Packages) (progress : Progress) (reference : Reference) : Prop :=
  packages.Tracks reference.bare ∨ reference.bare ∈ progress.untracked

variable {reference : Reference} {events : List Event}

theorem after_resolve_of_settled (h : Settled packages progress reference) :
    (resolve reference).after packages progress = progress :=
  if_pos h

theorem settled_after_resolve (packages : Packages) (progress : Progress)
    (reference : Reference) :
    Settled packages ((resolve reference).after packages progress) reference := by
  rw [after]
  split
  · assumption
  · exact .inr (by simp)

theorem Settled.after (h : Settled packages progress reference) (event : Event) :
    Settled packages (event.after packages progress) reference := by
  refine h.imp_right fun hm => ?_
  cases event with
  | record extension => exact hm
  | resolve other =>
    rw [Event.after]
    split
    · exact hm
    · exact List.mem_append_left _ hm

theorem Settled.foldl_after (h : Settled packages progress reference) (events : List Event) :
    Settled packages (events.foldl (Event.after packages) progress) reference := by
  induction events generalizing progress with
  | nil => exact h
  | cons event events ih => exact ih (h.after event)

theorem settled_foldl_after (h : resolve reference ∈ events) :
    Settled packages (events.foldl (after packages) progress) reference := by
  induction events generalizing progress with
  | nil => simp at h
  | cons event events ih =>
    rcases List.mem_cons.mp h with rfl | h
    · exact (settled_after_resolve packages progress reference).foldl_after events
    · exact ih h

def references (events : List Event) : List Reference := events.filterMap reference?

def recorded (events : List Event) : List Extension := events.filterMap extension?

@[simp] theorem references_nil : references [] = [] := rfl

@[simp] theorem references_resolve (reference : Reference) (events : List Event) :
    references (resolve reference :: events) = reference :: references events := rfl

@[simp] theorem references_record (extension : Extension) (events : List Event) :
    references (record extension :: events) = references events := rfl

@[simp] theorem recorded_nil : recorded [] = [] := rfl

@[simp] theorem recorded_resolve (reference : Reference) (events : List Event) :
    recorded (resolve reference :: events) = recorded events := rfl

@[simp] theorem recorded_record (extension : Extension) (events : List Event) :
    recorded (record extension :: events) = extension :: recorded events := rfl

@[simp] theorem references_append (events more : List Event) :
    references (events ++ more) = references events ++ references more :=
  List.filterMap_append

@[simp] theorem recorded_append (events more : List Event) :
    recorded (events ++ more) = recorded events ++ recorded more :=
  List.filterMap_append

@[simp] theorem references_map_resolve (references : List Reference) :
    Event.references (references.map resolve) = references := by
  induction references with
  | nil => rfl
  | cons reference references ih => simp [ih]

@[simp] theorem references_map_record (extensions : List Extension) :
    references (extensions.map record) = [] := by
  induction extensions with
  | nil => rfl
  | cons extension extensions ih => simp [ih]

@[simp] theorem recorded_map_resolve (references : List Reference) :
    recorded (references.map resolve) = [] := by
  induction references with
  | nil => rfl
  | cons reference references ih => simp [ih]

@[simp] theorem recorded_map_record (extensions : List Extension) :
    recorded (extensions.map record) = extensions := by
  induction extensions with
  | nil => rfl
  | cons extension extensions ih => simp [ih]

theorem findSome?_failure? (events : List Event) :
    events.findSome? failure? =
      ((references events).find? (!·.isQualified)).map Reference.error := by
  induction events with
  | nil => rfl
  | cons event events ih =>
    rw [List.findSome?_cons, ih]
    cases event with
    | record extension => rfl
    | resolve reference =>
      rw [failure?, references_resolve, List.find?_cons]
      cases reference.isQualified <;> rfl

theorem extensions_foldl_after (packages : Packages) (events : List Event) (progress : Progress) :
    (events.foldl (after packages) progress).extensions =
      (recorded events).foldl Extensions.record progress.extensions := by
  induction events generalizing progress with
  | nil => rfl
  | cons event events ih =>
    rw [List.foldl_cons, ih]
    cases event with
    | record extension => rfl
    | resolve reference =>
      have he : ((resolve reference).after packages progress).extensions = progress.extensions := by
        rw [after]
        split <;> rfl
      rw [he]
      rfl

/-- The references that are not tracked stand behind those kept before, each once, in the order of
first use. -/
theorem untracked_foldl_after (packages : Packages) (events : List Event) (progress : Progress) :
    (events.foldl (after packages) progress).untracked = progress.untracked ++
      (packages.untracked (references events)).filter (· ∉ progress.untracked) := by
  induction events using List.reverseRecOn with
  | nil => simp [references, Packages.untracked]
  | append_singleton events event ih =>
    rw [List.foldl_append, List.foldl_cons, List.foldl_nil, references_append]
    cases event with
    | record extension => simpa [after] using ih
    | resolve reference =>
      have hm : reference.bare ∈ (events.foldl (after packages) progress).untracked ↔
          reference.bare ∈ progress.untracked ∨
            reference.bare ∈ packages.untracked (references events) := by
        rw [ih, List.mem_append, List.mem_filter]
        by_cases hp : reference.bare ∈ progress.untracked <;> simp [hp]
      simp only [references_resolve, references_nil, Packages.untracked_concat, after, hm]
      by_cases ht : packages.Tracks reference.bare
      · simp only [ht, true_or, if_true, ih]
      · by_cases hu : reference.bare ∈ packages.untracked (references events)
        · simp only [ht, hu, or_true, if_true, ih]
        · by_cases hp : reference.bare ∈ progress.untracked <;> simp [ht, hu, hp, ih]

theorem foldl_after_map_resolve (packages : Packages) (references : List Reference)
    (progress : Progress) :
    (references.map resolve).foldl (after packages) progress =
      { progress with
        untracked := progress.untracked ++
          (packages.untracked references).filter (· ∉ progress.untracked) } := by
  have hu := untracked_foldl_after packages (references.map resolve) progress
  have he := extensions_foldl_after packages (references.map resolve) progress
  rw [references_map_resolve] at hu
  rw [recorded_map_resolve, List.foldl_nil] at he
  rw [← hu, ← he]

theorem untracked_foldl_after_of_nil (packages : Packages) (events : List Event)
    (progress : Progress) (h : progress.untracked = []) :
    (events.foldl (after packages) progress).untracked =
      packages.untracked (references events) := by
  rw [untracked_foldl_after, h, List.nil_append, List.filter_eq_self.mpr (by simp)]

theorem untracked_append (packages : Packages) (first second : List Reference) :
    packages.untracked (first ++ second) = packages.untracked first ++
      (packages.untracked second).filter (· ∉ packages.untracked first) := by
  have h := untracked_foldl_after_of_nil packages (first.map resolve) {} rfl
  have ha := untracked_foldl_after_of_nil packages ((first ++ second).map resolve) {} rfl
  rw [List.map_append, List.foldl_append, untracked_foldl_after, h] at ha
  simpa using ha.symm

end Event

namespace Build

variable {α β : Type} {packages : Packages} {progress : Progress} {events more : List Event}

theorem ext {first second : Build α}
    (h : ∀ progress, first.runFrom progress = second.runFrom progress) : first = second :=
  funext h

def performAll (packages : Packages) (events : List Event) : Build Unit :=
  forM events (Event.perform packages)

theorem performAll_cons (packages : Packages) (event : Event) (events : List Event) :
    performAll packages (event :: events) =
      event.perform packages >>= fun _ => performAll packages events := rfl

theorem performAll_append (packages : Packages) (events more : List Event) :
    performAll packages (events ++ more) =
      performAll packages events >>= fun _ => performAll packages more := by
  rw [performAll, List.forM_append]
  rfl

/-- A list of events is performed up to the first one that fails. -/
theorem runFrom_performAll (packages : Packages) (events : List Event) (progress : Progress) :
    (performAll packages events).runFrom progress =
      match events.findSome? Event.failure? with
      | none => (.ok (), events.foldl (Event.after packages) progress)
      | some error => (.error error,
          (events.takeWhile (·.failure?.isNone)).foldl (Event.after packages) progress) := by
  induction events generalizing progress with
  | nil => rfl
  | cons event events ih =>
    rw [performAll_cons, runFrom_bind, Event.runFrom_perform, List.findSome?_cons]
    cases h : event.failure? with
    | none => simp only [ih, h, List.takeWhile_cons, Option.isNone_none, if_true, List.foldl_cons]
    | some error => simp [h]

theorem runFrom_performAll_of_qualified (packages : Packages)
    (h : ∀ reference ∈ Event.references events, reference.isQualified) (progress : Progress) :
    (performAll packages events).runFrom progress =
      (.ok (), events.foldl (Event.after packages) progress) := by
  have hf : (Event.references events).find? (!·.isQualified) = none := by simpa using h
  rw [runFrom_performAll, Event.findSome?_failure?, hf]
  rfl

/-- The build that performs events and yields a value. -/
def yield (packages : Packages) (events : List Event) (a : α) : Build α := do
  performAll packages events
  return a

theorem runFrom_yield (packages : Packages) (events : List Event) (a : α) (progress : Progress) :
    (yield packages events a).runFrom progress =
      match events.findSome? Event.failure? with
      | none => (.ok a, events.foldl (Event.after packages) progress)
      | some error => (.error error,
          (events.takeWhile (·.failure?.isNone)).foldl (Event.after packages) progress) := by
  rw [yield, runFrom_bind, runFrom_performAll]
  cases events.findSome? Event.failure? <;> rfl

theorem eq_of_runFrom_yield_eq_ok {a b : α} {after : Progress}
    (h : (yield packages events a).runFrom progress = (.ok b, after)) :
    b = a ∧ events.findSome? Event.failure? = none ∧
      after = events.foldl (Event.after packages) progress := by
  rw [runFrom_yield] at h
  cases hf : events.findSome? Event.failure? with
  | some error =>
    rw [hf] at h
    exact nomatch congrArg Prod.fst h
  | none =>
    rw [hf] at h
    obtain ⟨ha, hp⟩ := Prod.mk.inj h
    exact ⟨(Except.ok.inj ha).symm, rfl, hp.symm⟩

theorem runFrom_yield_of_qualified (packages : Packages) (a : α)
    (h : ∀ reference ∈ Event.references events, reference.isQualified) (progress : Progress) :
    (yield packages events a).runFrom progress =
      (.ok a, events.foldl (Event.after packages) progress) := by
  rw [yield, runFrom_bind, runFrom_performAll_of_qualified packages h]
  rfl

theorem runFrom_yield_of_unqualified {before rest : List Event} {reference : Reference}
    (packages : Packages) (a : α)
    (h : ∀ earlier ∈ Event.references before, earlier.isQualified) (hr : ¬ reference.isQualified)
    (progress : Progress) :
    (yield packages (before ++ .resolve reference :: rest) a).runFrom progress =
      (.error reference.error, before.foldl (Event.after packages) progress) := by
  have hf : (Event.resolve reference).failure? = some reference.error := if_neg hr
  rw [yield, runFrom_bind, performAll_append, runFrom_bind,
    runFrom_performAll_of_qualified packages h]
  dsimp only
  rw [performAll_cons, runFrom_bind, Event.runFrom_perform, hf]

theorem yield_bind {a : α} {b : β} {next : α → Build β} (h : next a = yield packages more b) :
    yield packages events a >>= next = yield packages (events ++ more) b := by
  simp only [yield, performAll_append, bind_assoc, pure_bind, h]

theorem yield_bind_pure {a : α} {b : β} {next : α → Build β} (h : next a = pure b) :
    yield packages events a >>= next = yield packages events b := by
  simp only [yield, bind_assoc, pure_bind, h]

theorem map_yield (f : α → β) (a : α) :
    f <$> yield packages events a = yield packages events (f a) := by
  simp only [yield, map_bind, map_pure]

theorem mapM_eq_yield {f : α → Build β} {g : α → β} {run : α → List Event}
    (h : ∀ a, f a = yield packages (run a) (g a)) (as : List α) :
    as.mapM f = yield packages (as.flatMap run) (as.map g) := by
  induction as with
  | nil => rfl
  | cons a as ih =>
    rw [List.mapM_cons, ih, h, List.flatMap_cons]
    exact yield_bind (yield_bind_pure rfl)

theorem runFrom_performAll_of_settled (h : ∀ event ∈ events, ∃ reference,
      event = .resolve reference ∧ event.failure? = none ∧
        Event.Settled packages progress reference) :
    (performAll packages events).runFrom progress = (.ok (), progress) := by
  induction events with
  | nil => rfl
  | cons event events ih =>
    obtain ⟨reference, rfl, hf, hs⟩ := h event List.mem_cons_self
    rw [performAll_cons, runFrom_bind, Event.runFrom_perform, hf,
      Event.after_resolve_of_settled hs]
    exact ih fun event he => h event (List.mem_cons_of_mem _ he)

/-- Resolving references that were resolved before adds nothing. -/
theorem performAll_append_of_resolved
    (h : ∀ event ∈ more, event ∈ events ∧ ∃ reference, event = .resolve reference) :
    performAll packages (events ++ more) = performAll packages events := by
  refine ext fun progress => ?_
  rw [performAll_append, runFrom_bind, runFrom_performAll]
  cases hf : events.findSome? Event.failure? with
  | some error => rfl
  | none =>
    refine runFrom_performAll_of_settled fun event he => ?_
    obtain ⟨hm, reference, rfl⟩ := h event he
    exact ⟨reference, rfl, List.findSome?_eq_none_iff.mp hf _ hm, Event.settled_foldl_after hm⟩

theorem yield_append_of_resolved (packages : Packages) (a : α) (rest : List Event)
    (h : ∀ event ∈ more, event ∈ events ∧ ∃ reference, event = .resolve reference) :
    yield packages (events ++ (more ++ rest)) a = yield packages (events ++ rest) a := by
  rw [yield, ← List.append_assoc, performAll_append, performAll_append_of_resolved h,
    ← performAll_append, ← yield]

end Build

end ProtoScript
