import ProtoScript.Proofs.Outcome

/-! # Packages that a file does not refer to

One more tracked package changes neither the outcome of a compilation nor its script if no reference
of the file lies in the package. A reference that no tracked package covers may still lie in the
namespace of the new one, so that there may be fewer warnings.
-/

namespace ProtoScript

open Dotted

namespace Packages

/-- What the packages bind is bound in the extended ones too, and at most one package beside it. -/
structure Extends (extended packages : Packages) (added : String) : Prop where
  get?_of_ne : ∀ package, package ≠ added → extended.get? package = packages.get? package
  get?_of_some : ∀ package target, packages.get? package = some target →
    extended.get? package = some target

variable {packages extended : Packages} {package added reference : String}

theorem extends_track (h : packages.get? (trim package) = none) (target : String) :
    (packages.track package target).Extends packages (trim package) := by
  constructor
  · intro other hn
    rw [get?_track, if_neg fun hk => hn hk.1]
  · intro other bound hb
    have hn : other ≠ trim package := by
      rintro rfl
      simp [h] at hb
    rw [get?_track, if_neg fun hk => hn hk.1, hb]

namespace Extends

theorem trackFile (e : extended.Extends packages added) (file : File) :
    (extended.trackFile file).Extends (packages.trackFile file) added := by
  constructor
  · intro other hn
    rw [get?_trackFile, get?_trackFile, e.get?_of_ne other hn]
  · intro other bound hb
    rw [get?_trackFile] at hb ⊢
    by_cases hf : Binds other file
    · rwa [if_pos hf] at hb ⊢
    · rw [if_neg hf] at hb ⊢
      exact e.get?_of_some other bound hb

theorem tracks (e : extended.Extends packages added) (h : packages.Tracks reference) :
    extended.Tracks reference := by
  obtain ⟨p, n, hp, hw⟩ := h
  exact ⟨p, n, e.get?_of_some p n hp, hw⟩

theorem enclosing? (e : extended.Extends packages added) (hr : ¬ Within added reference) :
    extended.enclosing? reference = packages.enclosing? reference := by
  have hp : ∀ p, Below p reference → extended.get? p = packages.get? p := by
    intro p hb
    refine e.get?_of_ne p ?_
    rintro rfl
    exact hr (.inr hb)
  cases he : packages.enclosing? reference with
  | none =>
    refine enclosing?_eq_none_iff.mpr fun p n hg hb => ?_
    rw [hp p hb] at hg
    exact enclosing?_eq_none_iff.mp he p n hg hb
  | some b =>
    obtain ⟨p, n⟩ := b
    obtain ⟨hg, hb, hl⟩ := enclosing?_spec he
    refine enclosing?_of_longest (e.get?_of_some p n hg) hb fun q m hq hbq => ?_
    rw [hp q hbq] at hq
    exact hl q m hq hbq

theorem nameOf (e : extended.Extends packages added) (hr : ¬ Within added (stripLeft reference)) :
    extended.nameOf reference = packages.nameOf reference := by
  have hn : stripLeft reference ≠ added := fun he => hr (.inl he)
  unfold Packages.nameOf locate?
  rw [e.get?_of_ne _ hn, e.enclosing? hr]
  cases packages.get? (stripLeft reference) with
  | some target => rfl
  | none =>
    cases packages.enclosing? (stripLeft reference) with
    | some b => rfl
    | none =>
      dsimp only
      split <;> split <;> rfl

theorem untracked_sublist (e : extended.Extends packages added) (references : List Reference) :
    (extended.untracked references).Sublist (packages.untracked references) := by
  rw [untracked, untracked, eraseDups_filter, eraseDups_filter]
  refine List.monotone_filter_right _ fun name hn => ?_
  simp only [decide_eq_true_eq] at hn ⊢
  exact fun ht => hn (e.tracks ht)

end Extends

/-- The references have the same names, whichever of the packages are tracked. -/
def NameAlike (packages other : Packages) (references : List Reference) : Prop :=
  ∀ reference ∈ references, packages.nameOf reference.text = other.nameOf reference.text

end Packages

section NameAlike

/-! What is built from a file depends on the tracked packages through the names of its references
alone. -/

variable {packages other : Packages}

theorem Packages.NameAlike.typeName {field : Field} {text : String}
    (h : packages.NameAlike other field.references) (ht : field.typeName = some text) :
    packages.nameOf text = other.nameOf text :=
  (Field.forall_references_iff (p := fun text => packages.nameOf text = other.nameOf text)).mp h
    text ht

theorem Field.entry_congr {field : Field} (h : packages.NameAlike other field.references)
    (name : String) : field.entry packages name = field.entry other name := by
  unfold entry literal
  cases ht : field.typeName with
  | none => rfl
  | some text => simp only [Option.map_some, h.typeName ht]

theorem Field.methodsIn_congr {field : Field} (h : packages.NameAlike other field.references) :
    field.methodsIn packages = field.methodsIn other := by
  unfold methodsIn documented
  cases ht : field.typeName with
  | none => rfl
  | some text => simp only [Option.map_some, h.typeName ht]

theorem Extension.registration_congr {extension : Extension}
    (h : packages.NameAlike other extension.references) :
    extension.registration packages = extension.registration other := by
  obtain ⟨ht, hf⟩ := List.forall_mem_cons.mp h
  rw [registration, registration, ht, Field.entry_congr hf]

theorem Message.own_congr {message : Message}
    (h : packages.NameAlike other (message.fields.flatMap Field.references)) (scope : String) :
    message.own packages scope = message.own other scope := by
  have hf : ∀ field ∈ message.fields, packages.NameAlike other field.references :=
    fun field hf reference hr => h reference (List.mem_flatMap.mpr ⟨field, hf, hr⟩)
  have ht : message.table packages = message.table other :=
    List.map_congr_left fun field hm => by rw [Field.entry_congr (hf field hm)]
  have hm : message.fields.flatMap (Field.methodsIn packages) =
      message.fields.flatMap (Field.methodsIn other) :=
    List.flatMap_congr fun field hm => Field.methodsIn_congr (hf field hm)
  rw [own, own, ht, hm]

namespace File

variable {file : File}

theorem declarations_congr (h : packages.NameAlike other file.references) :
    file.declarations packages = file.declarations other := by
  rw [declarations, declarations, Message.declarations, Message.declarations]
  congr 1
  refine List.flatMap_congr fun m hm => Message.own_congr (fun reference hr => ?_) m.1
  exact h reference (List.mem_append_left _ (List.mem_flatMap.mpr ⟨m, hm, hr⟩))

theorem registrations_congr (h : packages.NameAlike other file.references) :
    file.registrations packages = file.registrations other := by
  refine List.map_congr_left fun extension hx => Extension.registration_congr fun reference hr => ?_
  exact h reference (List.mem_append_right _ (List.mem_flatMap.mpr ⟨extension, hx, hr⟩))

end File

end NameAlike

namespace Compiler

/-- The compiler when the clock reads something else. -/
def atTime (compiler : Compiler) (clock : Moment) : Compiler := { compiler with clock }

@[simp] theorem config_atTime (compiler : Compiler) (clock : Moment) :
    (compiler.atTime clock).config = compiler.config := by
  rw [atTime]

@[simp] theorem packages_atTime (compiler : Compiler) (clock : Moment) :
    (compiler.atTime clock).packages = compiler.packages := by
  rw [atTime]

theorem sameOutcome_of_extends {compiler other : Compiler} {file : File} {added : String}
    (hc : other.config = compiler.config)
    (hd : compiler.config.date other.clock = compiler.config.date compiler.clock)
    (e : (other.packagesFor file).Extends (compiler.packagesFor file) added)
    (hr : file.check = .ok () → ∀ reference ∈ file.references,
      ¬ Within added (stripLeft reference.text)) :
    SameOutcome (fun before behind =>
        behind.files = before.files ∧ behind.warnings.Sublist before.warnings)
      (compiler.compile file) (other.compile file) := by
  apply sameOutcome_compile rfl rfl rfl rfl
  intro hv
  have hn : (other.packagesFor file).NameAlike (compiler.packagesFor file) file.references :=
    fun reference hm => e.nameOf (hr hv reference hm)
  constructor
  · rw [outputOf, outputOf, scriptOf, scriptOf, hc, hd, File.declarations_congr hn,
      File.registrations_congr hn]
  · exact (e.untracked_sublist file.references).map _

/-- A compilation after one more package was tracked, which is new and around no reference of the
file. It fails with the same error, or it gives the same file and no new warnings. If no moment is
set for the banner, the clock has to read the same. -/
theorem compile_of_unrelated_package (compiler : Compiler) (file : File) (package target : String)
    (later : Moment) (hk : compiler.config.moment = none → later = compiler.clock)
    (hp : compiler.packages.get? (trim package) = none)
    (hr : ∀ field, file.HasMember field ∨ file.HasExtension field →
      ∀ text, field.typeName = some text ∨ field.extendee = some text →
        ¬ Within (trim package) (stripLeft text)) :
    SameOutcome (fun before behind =>
        behind.files = before.files ∧ behind.warnings.Sublist before.warnings)
      (compiler.compile file) (((compiler.track package target).atTime later).compile file) := by
  have e : (((compiler.track package target).atTime later).packagesFor file).Extends
      (compiler.packagesFor file) (trim package) := by
    rw [packagesFor, packagesFor, packages_atTime, packages_track]
    exact (Packages.extends_track hp target).trackFile file
  have hc : ((compiler.track package target).atTime later).config = compiler.config := by
    rw [config_atTime, config_track]
  refine sameOutcome_of_extends hc (Config.date_congr hk) e fun hv reference hm => ?_
  exact (File.forall_mem_references_iff
    (fun text => ¬ Within (trim package) (stripLeft text)) hv).mpr hr reference hm

def pinnedCompiler : Compiler where
  config := { moment := some ⟨2024, 1, 2, 3, 4, 5, 0⟩ }
  packages := ({} : Packages).track "d" "js"
  clock := ⟨2025, 12, 31, 23, 59, 59, 0⟩

theorem compile_of_unrelated_package_strayingFile :
    ∃ before behind : Output,
      pinnedCompiler.compile strayingFile = .ok before ∧
      ((pinnedCompiler.track "..j." "b").atTime ⟨2026, 1, 1, 0, 0, 0, 0⟩).compile strayingFile =
        .ok behind ∧
      behind.files = before.files ∧ behind.warnings.Sublist before.warnings ∧
      before.warnings.map (·.reference) = ["b.X", "c.E"] ∧
      behind.warnings.map (·.reference) = ["c.E"] := by
  have h := compile_of_unrelated_package pinnedCompiler strayingFile "..j." "b"
    ⟨2026, 1, 1, 0, 0, 0, 0⟩ nofun (by decide +kernel)
    ((File.forall_mem_references_iff (fun text => ¬ Within (trim "..j.") (stripLeft text))
      (by decide +kernel)).mp (by decide +kernel))
  obtain ⟨before, hb⟩ :=
    (exists_compile_eq_ok_iff pinnedCompiler strayingFile).mpr (by decide +kernel)
  obtain ⟨behind, hg, hf, hw⟩ := h.exists_ok hb
  refine ⟨before, behind, hb, hg, hf, hw, ?_, ?_⟩
  · rw [(eq_outputOf_of_compile_eq_ok hb).2]
    decide +kernel
  · rw [(eq_outputOf_of_compile_eq_ok hg).2]
    decide +kernel

end Compiler

end ProtoScript
