import ProtoScript.Proofs.Traversal

/-! # Independence of what was kept before

A build that resolves references keeps those outside all tracked packages. What it returns and what
it records does not depend on the references kept before it, and behind those it keeps what it would
keep on its own, less what is there already. This holds of single references as of nested messages,
and also where a build fails. Hence warnings are only ever added, and none is raised twice.
-/

namespace ProtoScript

namespace Progress

def warnings (progress : Progress) : List String := progress.untracked.map untrackedMessage

def fresh (progress : Progress) : Progress := { progress with untracked := [] }

def behind (progress : Progress) (kept : List String) : Progress :=
  { progress with untracked := kept ++ progress.untracked.filter (· ∉ kept) }

theorem behind_fresh (progress : Progress) :
    progress.fresh.behind progress.untracked = progress := by
  simp [fresh, behind]

theorem fresh_behind (progress : Progress) (kept : List String) :
    (progress.behind kept).fresh = progress.fresh := rfl

theorem behind_behind (progress : Progress) (first second : List String) :
    (progress.behind second).behind first =
      progress.behind (first ++ second.filter (· ∉ first)) := by
  have hf : (progress.untracked.filter (· ∉ second)).filter (· ∉ first) =
      progress.untracked.filter (· ∉ first ++ second.filter (· ∉ first)) := by
    rw [List.filter_filter]
    refine List.filter_congr fun a _ => ?_
    by_cases h : a ∈ first <;> simp [h]
  simp only [behind, List.filter_append, hf, List.append_assoc]

end Progress

namespace Build

variable {α β : Type}

/-- What the build returns and records is the same whatever references were kept before it. The
references that it keeps stand behind those, each once. -/
structure Oblivious (build : Build α) : Prop where
  runFrom_eq : ∀ progress, build.runFrom progress =
    ((build.runFrom progress.fresh).1, (build.runFrom progress.fresh).2.behind progress.untracked)
  nodup : ∀ progress, progress.untracked.Nodup → (build.runFrom progress).2.untracked.Nodup

namespace Oblivious

variable {build : Build α}

theorem pure (a : α) : Oblivious (pure a : Build α) := by
  constructor
  · intro progress
    rw [runFrom_pure, runFrom_pure, progress.behind_fresh]
  · intro progress hn
    exact hn

theorem throw (error : CompileError) : Oblivious (throw error : Build α) := by
  constructor
  · intro progress
    rw [runFrom_throw, runFrom_throw, progress.behind_fresh]
  · intro progress hn
    exact hn

theorem bind (hb : Oblivious build) {next : α → Build β} (hn : ∀ a, Oblivious (next a)) :
    Oblivious (build >>= next) := by
  constructor
  · intro progress
    rw [runFrom_bind, runFrom_bind, hb.runFrom_eq progress]
    rcases build.runFrom progress.fresh with ⟨error | a, middle⟩
    · rfl
    · dsimp only
      rw [(hn a).runFrom_eq (middle.behind _), (hn a).runFrom_eq middle, Progress.fresh_behind,
        Progress.behind_behind]
      rfl
  · intro progress hp
    have hm := hb.nodup progress hp
    rw [runFrom_bind]
    rcases hr : build.runFrom progress with ⟨error | a, middle⟩
    · rwa [hr] at hm
    · rw [hr] at hm
      exact (hn a).nodup middle hm

theorem map (f : α → β) (hb : Oblivious build) : Oblivious (f <$> build) := by
  rw [← bind_pure_comp]
  exact hb.bind fun a => pure (f a)

theorem noteUntracked (reference : String) : Oblivious (noteUntracked reference) := by
  constructor
  · intro progress
    rw [runFrom_noteUntracked, runFrom_noteUntracked]
    by_cases h : reference ∈ progress.untracked <;> simp [Progress.fresh, Progress.behind, h]
  · intro progress hp
    rw [runFrom_noteUntracked]
    dsimp only
    split
    · exact hp
    · next h => exact List.nodup_append.mpr ⟨hp, List.nodup_singleton _, by grind⟩

theorem recordExtensions (scope : String) (fields : List Field) :
    Oblivious (recordExtensions scope fields) := by
  constructor
  · intro progress
    simp [Progress.fresh, Progress.behind]
  · intro progress hp
    exact hp

theorem takeExtensions : Oblivious takeExtensions := by
  constructor
  · intro progress
    simp [Progress.fresh, Progress.behind]
  · intro progress hp
    exact hp

theorem normalize (packages : Packages) (reference : String) :
    Oblivious (packages.normalize reference) := by
  rw [Packages.normalize]
  cases packages.locate? (Dotted.stripLeft reference) with
  | some name => exact pure name
  | none => exact (noteUntracked _).bind fun _ => pure _

theorem resolve (packages : Packages) (context reference : String) :
    Oblivious (packages.resolve context reference) := by
  rw [Packages.resolve]
  split
  · exact normalize packages reference
  · exact throw _

theorem perform (packages : Packages) (event : Event) : Oblivious (event.perform packages) := by
  cases event with
  | resolve reference => exact (resolve packages _ _).bind fun _ => pure ()
  | record extension => exact recordExtensions _ _

theorem performAll (packages : Packages) (events : List Event) :
    Oblivious (performAll packages events) := by
  induction events with
  | nil => exact pure ()
  | cons event events ih =>
    rw [performAll_cons]
    exact (perform packages event).bind fun _ => ih

theorem yield (packages : Packages) (events : List Event) (a : α) :
    Oblivious (yield packages events a) :=
  (performAll packages events).bind fun _ => pure a

theorem registerExtensions (packages : Packages) : Oblivious (registerExtensions packages) := by
  rw [Build.registerExtensions]
  refine takeExtensions.bind fun extensions => ?_
  rw [Extension.mapM_register_eq_yield]
  exact yield packages _ _

end Oblivious

end Build

/-- The operations that resolve references. -/
inductive Operation where
  | normalize (reference : String)
  | resolve (context reference : String)
  | typeReference (field : Field)
  | docType (field : Field)
  | defaultLiteral (field : Field)
  | metadata (field : Field)
  | metadataUnder (name : String) (field : Field)
  | accessors (owner : String) (field : Field)
  | register (runtime indent : String) (extension : Extension)
  | declare (runtime scope : String) (message : Message)
  | registerRecorded (runtime : String)

namespace Operation

def build (packages : Packages) : Operation → Build (Option String)
  | .normalize reference => some <$> packages.normalize reference
  | .resolve context reference => some <$> packages.resolve context reference
  | .typeReference field => field.reference? packages
  | .docType field => some <$> field.docType packages
  | .defaultLiteral field => some <$> field.defaultLiteral packages
  | .metadata field => (some ·.render) <$> field.metadata packages field.name
  | .metadataUnder name field => (some ·.render) <$> field.metadata packages name
  | .accessors owner field =>
    (fun accessors => some (String.join (accessors.map (·.render owner)))) <$>
      field.accessors packages
  | .register runtime indent extension =>
    (some <| ·.render runtime indent) <$> extension.register packages
  | .declare runtime scope message =>
    (some <| Declaration.renderAll runtime ·) <$> message.declare packages scope
  | .registerRecorded runtime =>
    (some <| Registration.renderAll runtime ·) <$> Build.registerExtensions packages

theorem oblivious_build (packages : Packages) (operation : Operation) :
    (operation.build packages).Oblivious := by
  cases operation with
  | normalize reference => exact .map _ (.normalize packages reference)
  | resolve context reference => exact .map _ (.resolve packages context reference)
  | typeReference field =>
    rw [build, Field.reference?_eq_yield]
    exact .yield packages _ _
  | docType field =>
    rw [build, Field.docType_eq_yield]
    exact .map _ (.yield packages _ _)
  | defaultLiteral field =>
    rw [build, Field.defaultLiteral_eq_yield]
    exact .map _ (.yield packages _ _)
  | metadata field =>
    rw [build, Field.metadata_eq_yield]
    exact .map _ (.yield packages _ _)
  | metadataUnder name field =>
    rw [build, Field.metadata_eq_yield]
    exact .map _ (.yield packages _ _)
  | accessors owner field =>
    rw [build, Field.accessors_eq_yield]
    exact .map _ (.yield packages _ _)
  | register runtime indent extension =>
    rw [build, Extension.register_eq_yield]
    exact .map _ (.yield packages _ _)
  | declare runtime scope message =>
    rw [build, Message.declare_eq_yield (Message.declareAll_eq_yield packages _ _)]
    exact .map _ (.yield packages _ _)
  | registerRecorded runtime => exact .map _ (.registerExtensions packages)

end Operation

structure Call where
  operation : Operation
  extensions : Extensions := {}

namespace Call

/-- What a call returns, and what has been collected after it, also if it fails. -/
def run (packages : Packages) (progress : Progress) (call : Call) :
    Except CompileError (Option String) × Progress :=
  (call.operation.build packages).runFrom { progress with extensions := call.extensions }

/-- What has been collected before, between and after calls. -/
def states (packages : Packages) (progress : Progress) : List Call → List Progress
  | [] => [progress]
  | call :: calls => progress :: states packages (call.run packages progress).2 calls

theorem run_eq (packages : Packages) (progress : Progress) (call : Call) :
    call.run packages progress = ((call.run packages {}).1,
      (call.run packages {}).2.behind progress.untracked) :=
  (call.operation.oblivious_build packages).runFrom_eq _

end Call

theorem untrackedMessage_injective : Function.Injective untrackedMessage := by
  intro first second h
  unfold untrackedMessage at h
  exact String.append_right_inj _ |>.mp (String.append_left_inj _ |>.mp h)

namespace Progress

theorem warnings_behind (progress : Progress) (kept : List String) :
    (progress.behind kept).warnings = kept.map untrackedMessage ++
      progress.warnings.filter (· ∉ kept.map untrackedMessage) := by
  unfold warnings behind
  rw [List.map_append, List.filter_map]
  congr 2
  refine List.filter_congr fun reference _ => ?_
  simp only [Function.comp_apply, List.mem_map_of_injective untrackedMessage_injective]

theorem nodup_warnings_iff (progress : Progress) :
    progress.warnings.Nodup ↔ progress.untracked.Nodup :=
  List.nodup_map_iff untrackedMessage_injective

end Progress

namespace Call

variable {packages : Packages} {progress : Progress}

theorem warnings_run (packages : Packages) (progress : Progress) (call : Call) :
    (call.run packages progress).2.warnings = progress.warnings ++
      (call.run packages {}).2.warnings.filter (· ∉ progress.warnings) := by
  rw [run_eq, Progress.warnings_behind]
  rfl

theorem nodup_warnings_run (call : Call) (h : progress.warnings.Nodup) :
    (call.run packages progress).2.warnings.Nodup := by
  rw [Progress.nodup_warnings_iff] at h ⊢
  exact (call.operation.oblivious_build packages).nodup _ h

theorem prefix_of_mem_states {state : Progress} {calls : List Call}
    (h : state ∈ states packages progress calls) : progress.warnings <+: state.warnings := by
  induction calls generalizing progress with
  | nil =>
    obtain rfl := List.mem_singleton.mp h
    exact List.prefix_rfl
  | cons call calls ih =>
    rcases List.mem_cons.mp h with rfl | h
    · exact List.prefix_rfl
    · have hc : progress.warnings <+: (call.run packages progress).2.warnings := by
        rw [warnings_run]
        exact List.prefix_append _ _
      exact hc.trans (ih h)

theorem nodup_of_mem_states {state : Progress} {calls : List Call} (hd : progress.warnings.Nodup)
    (h : state ∈ states packages progress calls) : state.warnings.Nodup := by
  induction calls generalizing progress with
  | nil =>
    obtain rfl := List.mem_singleton.mp h
    exact hd
  | cons call calls ih =>
    rcases List.mem_cons.mp h with rfl | h
    · exact hd
    · exact ih (nodup_warnings_run call hd) h

theorem pairwise_prefix_states (packages : Packages) (progress : Progress) (calls : List Call) :
    (states packages progress calls).Pairwise
      (fun earlier later => earlier.warnings <+: later.warnings) := by
  induction calls generalizing progress with
  | nil => exact List.pairwise_singleton _ _
  | cons call calls ih =>
    refine List.pairwise_cons.mpr ⟨fun state hs => ?_, ih _⟩
    have hm : state ∈ states packages progress (call :: calls) := List.mem_cons_of_mem _ hs
    exact prefix_of_mem_states hm

/-- What a call returns and records does not depend on the references kept before it. Its warnings
stand behind those raised before, less what was raised already, also if it fails. Along any calls no
warning is raised twice, and the warnings of each state begin those of all later states. -/
theorem calls_independent_of_history (packages : Packages) (progress : Progress)
    (hd : progress.warnings.Nodup) :
    (∀ call : Call,
      (call.run packages progress).1 = (call.run packages {}).1 ∧
      (call.run packages progress).2.extensions = (call.run packages {}).2.extensions ∧
      (call.run packages progress).2.warnings = progress.warnings ++
        (call.run packages {}).2.warnings.filter (· ∉ progress.warnings)) ∧
    ∀ calls : List Call,
      (∀ state ∈ states packages progress calls, state.warnings.Nodup) ∧
      (states packages progress calls).Pairwise
        (fun earlier later => earlier.warnings <+: later.warnings) := by
  refine ⟨fun call => ⟨?_, ?_, warnings_run packages progress call⟩, fun calls =>
    ⟨fun state => nodup_of_mem_states hd, pairwise_prefix_states packages progress calls⟩⟩
  · rw [run_eq]
  · rw [run_eq]
    rfl

def failingCall : Call where
  operation := .declare "ProtoJson" "js"
    { name := "M"
      fields := [
        { name := "y", number := 1, type := .message, typeName := some ".x.Y" },
        { name := "q", number := 2, type := .message, typeName := some ".z.Q" },
        { name := "m", number := 3, type := .message, typeName := some "p.M" }] }

/-- An extension of a message outside all packages, whose own type is referred to in another
spelling. -/
def registeringCall : Call where
  operation := .registerRecorded "ProtoJson"
  extensions := ({} : Extensions).record ⟨"js",
    { name := "e", number := 1, type := .message, typeName := some "..z.Q"
      extendee := some ".w.E" }⟩

theorem calls_independent_of_history_failingCall :
    let packages := ({} : Packages).track "p" "js"
    let progress : Progress := { untracked := ["x.Y"] }
    progress.warnings.Nodup ∧
      (failingCall.run packages progress).1 =
        .error (.unqualifiedReference "p.M" "type of field 'm'") ∧
      (failingCall.run packages progress).2.warnings =
        ["Non tracked package name found \"x.Y\"", "Non tracked package name found \"z.Q\""] ∧
      (∀ state ∈ states packages progress [failingCall, registeringCall], state.warnings.Nodup) ∧
      (states packages progress [failingCall, registeringCall]).Pairwise
        (fun earlier later => earlier.warnings <+: later.warnings) := by
  intro packages progress
  have hd : progress.warnings.Nodup := by decide +kernel
  obtain ⟨hc, hs⟩ := calls_independent_of_history packages progress hd
  obtain ⟨hr, _, hw⟩ := hc failingCall
  refine ⟨hd, ?_, ?_, hs [failingCall, registeringCall]⟩
  · rw [hr]
    decide +kernel
  · rw [hw]
    decide +kernel

end Call

end ProtoScript
