import ProtoScript.Compiler
import ProtoScript.Proofs.Traversal

/-! # What a compilation yields

A file that is compiled has a list of references in the order in which they are resolved. The first
of them that is not fully qualified ends the compilation. Without one, the script of the file is a
function of the file, the configuration and the tracked packages, and the warnings are about the
references that are not tracked.
-/

namespace ProtoScript

namespace File

/-- The messages of a file, each with its scope, every message before those in it. -/
def preorder (file : File) : List (String × Message) :=
  Message.preorder file.targetNamespace file.messages

/-- The extensions of a file in the order in which they are recorded, those of its messages
first. -/
def collected (file : File) : List Extension :=
  Message.collected file.targetNamespace file.messages ++
    file.extensions.map (Extension.mk file.targetNamespace)

/-- The extensions of a file in the order in which they are registered. -/
def registered (file : File) : List Extension := Extensions.grouped file.collected

/-- The references of a file in the order in which they are resolved: those of the fields of its
messages, then those of its extensions. -/
def references (file : File) : List Reference :=
  Message.references file.targetNamespace file.messages ++
    file.registered.flatMap Extension.references

def declarations (packages : Packages) (file : File) : List Declaration :=
  file.enums.map (Enumeration.declare file.targetNamespace) ++
    Message.declarations packages file.targetNamespace file.messages

def registrations (packages : Packages) (file : File) : List Registration :=
  file.registered.map (Extension.registration packages)

def events (file : File) : List Event :=
  Message.events file.targetNamespace file.messages ++
    (file.extensions.map (Extension.mk file.targetNamespace)).map .record

theorem references_events (file : File) :
    Event.references file.events = Message.references file.targetNamespace file.messages := by
  rw [events, Event.references_append, Message.references_events, Event.references_map_record,
    List.append_nil]

theorem recorded_events (file : File) : Event.recorded file.events = file.collected := by
  rw [events, Event.recorded_append, Message.recorded_events, Event.recorded_map_record, collected]

theorem build_eq (packages : Packages) (file : File) :
    file.build packages = (do
      let declared ← Build.yield packages file.events (file.declarations packages)
      let extensions ← Build.takeExtensions
      let registrations ← Build.yield packages
        ((extensions.toList.flatMap Extension.references).map .resolve)
        (extensions.toList.map (Extension.registration packages))
      return (declared, registrations)) := by
  rw [build, Message.declareAll_eq_yield, Build.recordExtensions_eq_yield packages,
    Build.registerExtensions]
  simp only [Build.yield, events, Build.performAll_append, bind_assoc, pure_bind,
    Extension.mapM_register_eq_yield]
  rfl

variable {file : File}

theorem toList_extensions_after_events (packages : Packages) (file : File) :
    (file.events.foldl (Event.after packages) {}).extensions.toList = file.registered := by
  rw [Event.extensions_foldl_after, recorded_events]
  exact Extensions.toList_foldl_record _

theorem runFrom_build (packages : Packages) (h : file.references.find? (!·.isQualified) = none) :
    (file.build packages).runFrom {} =
      (.ok (file.declarations packages, file.registrations packages),
        { untracked := packages.untracked file.references }) := by
  rw [references, List.find?_append, Option.or_eq_none_iff] at h
  -- The references of extensions are resolved behind all others, from where the events ended.
  rw [build_eq, Build.runFrom_bind, Build.runFrom_yield, Event.findSome?_failure?,
    references_events, h.1]
  simp only [Option.map_none, Build.runFrom_bind, Build.runFrom_takeExtensions,
    toList_extensions_after_events, Build.runFrom_yield, Event.findSome?_failure?,
    Event.references_map_resolve, h.2, Build.runFrom_pure, Event.foldl_after_map_resolve,
    Event.untracked_foldl_after_of_nil packages file.events {} rfl, references_events]
  rw [references, Event.untracked_append, registrations]

theorem runFrom_build_fst (packages : Packages) {reference : Reference}
    (h : file.references.find? (!·.isQualified) = some reference) :
    ((file.build packages).runFrom {}).1 = .error reference.error := by
  rw [references, List.find?_append] at h
  rw [build_eq, Build.runFrom_bind, Build.runFrom_yield, Event.findSome?_failure?,
    references_events]
  cases hm : (Message.references file.targetNamespace file.messages).find? (!·.isQualified) with
  | some first =>
    rw [hm, Option.some_or, Option.some_inj] at h
    subst h
    rfl
  | none =>
    rw [hm, Option.none_or] at h
    simp only [Option.map_none, Build.runFrom_bind, Build.runFrom_takeExtensions,
      toList_extensions_after_events, Build.runFrom_yield, Event.findSome?_failure?,
      Event.references_map_resolve, h, Option.map_some]

end File

namespace Compiler

/-- The packages that are tracked while a file is compiled. -/
def packagesFor (compiler : Compiler) (file : File) : Packages := compiler.packages.trackFile file

def scriptOf (compiler : Compiler) (file : File) : Script where
  source := file.name
  date := compiler.config.date compiler.clock
  target := file.targetNamespace
  runtime := compiler.config.runtime
  runtimeModule := compiler.config.runtimeModule
  declarations := file.declarations (compiler.packagesFor file)
  registrations := file.registrations (compiler.packagesFor file)

def outputOf (compiler : Compiler) (file : File) : Output where
  files := [⟨file.stem ++ file.suffix compiler.config.defaultSuffix,
    (compiler.scriptOf file).render⟩]
  warnings := ((compiler.packagesFor file).untracked file.references).map (Warning.mk file.name)

theorem script_eq (compiler : Compiler) (file : File) :
    compiler.script file =
      match file.check with
      | .error violation => .error (.violation violation)
      | .ok () =>
        if file.targetNamespace = "" then .error (.missingNamespace file.name)
        else match file.references.find? (!·.isQualified) with
          | some reference => .error reference.error
          | none => .ok (compiler.scriptOf file,
              (compiler.packagesFor file).untracked file.references) := by
  rw [script]
  cases file.check with
  | error violation => rfl
  | ok =>
    by_cases hn : file.targetNamespace = ""
    · simp only [hn, if_true]
      rfl
    · have he : file.targetNamespace.isEmpty = false := by simpa using hn
      simp only [he, hn, if_false, Bool.false_eq_true]
      cases h : file.references.find? (!·.isQualified) with
      | some reference =>
        rw [File.runFrom_build_fst (compiler.packages.trackFile file) h]
        rfl
      | none =>
        rw [File.runFrom_build (compiler.packages.trackFile file) h]
        rfl

/-- The outcome of a compilation: violations come first, then a missing namespace, then the first
reference that is not fully qualified. -/
theorem compile_eq (compiler : Compiler) (file : File) :
    compiler.compile file =
      match file.check with
      | .error violation => .error (.violation violation)
      | .ok () =>
        if file.targetNamespace = "" then .error (.missingNamespace file.name)
        else match file.references.find? (!·.isQualified) with
          | some reference => .error reference.error
          | none => .ok (compiler.outputOf file) := by
  rw [compile, script_eq]
  cases file.check with
  | error violation => rfl
  | ok =>
    dsimp only
    split
    · rfl
    · cases file.references.find? (!·.isQualified) <;> rfl

end Compiler

end ProtoScript
