import ProtoScript.Moment
import ProtoScript.Script

/-! # The compiler

A compiler turns schema files into scripts for a run-time library. It knows packages besides
those of the files that it is given.
-/

namespace ProtoScript

structure Config where
  runtime : String := "ProtoJson"
  runtimeModule : String := "ProtoJson"
  /-- The ending of generated files whose schema sets none. -/
  defaultSuffix : String := ".js"
  /-- The moment in the banners, if it is not to be read from the clock. -/
  moment : Option Moment := none
  deriving DecidableEq, Repr

/-- The date in a banner: the moment that is set, or else what the clock reads. -/
def Config.date (config : Config) (clock : Moment) : String := (config.moment.getD clock).render

theorem Config.date_congr {config : Config} {clock later : Moment}
    (h : config.moment = none → later = clock) : config.date later = config.date clock := by
  unfold date
  cases hm : config.moment with
  | none => rw [h hm]
  | some moment => rfl

structure Warning where
  file : String
  reference : String
  deriving DecidableEq, Repr

namespace Warning

def message (warning : Warning) : String := untrackedMessage warning.reference

def render (warning : Warning) : String := warning.file ++ ": " ++ warning.message

end Warning

structure OutputFile where
  name : String
  content : String
  deriving DecidableEq, Repr

structure Output where
  files : List OutputFile := []
  warnings : List Warning := []
  deriving DecidableEq, Repr

def Output.append (first second : Output) : Output where
  files := first.files ++ second.files
  warnings := first.warnings ++ second.warnings

instance : Append Output := ⟨Output.append⟩

@[simp] theorem Output.files_append (first second : Output) :
    (first ++ second).files = first.files ++ second.files := rfl

@[simp] theorem Output.warnings_append (first second : Output) :
    (first ++ second).warnings = first.warnings ++ second.warnings := rfl

def File.build (packages : Packages) (file : File) :
    Build (List Declaration × List Registration) := do
  let target := file.targetNamespace
  let messages ← Message.declareAll packages target file.messages
  Build.recordExtensions target file.extensions
  let registrations ← Build.registerExtensions packages
  return (file.enums.map (Enumeration.declare target) ++ messages, registrations)

structure Compiler where
  config : Config := {}
  packages : Packages := {}
  /-- What the clock reads when files are compiled, given from outside. -/
  clock : Moment := default
  deriving DecidableEq, Repr

namespace Compiler

def track (compiler : Compiler) (package target : String) : Compiler :=
  { compiler with packages := compiler.packages.track package target }

@[simp] theorem config_track (compiler : Compiler) (package target : String) :
    (compiler.track package target).config = compiler.config := by
  rw [track]

@[simp] theorem packages_track (compiler : Compiler) (package target : String) :
    (compiler.track package target).packages = compiler.packages.track package target := by
  rw [track]

def script (compiler : Compiler) (file : File) : Except CompileError (Script × List String) := do
  file.check.mapError .violation
  if file.targetNamespace.isEmpty then throw (.missingNamespace file.name)
  let (result, progress) := (file.build (compiler.packages.trackFile file)).runFrom {}
  let (declarations, registrations) ← result
  return ({
    source := file.name
    date := compiler.config.date compiler.clock
    target := file.targetNamespace
    runtime := compiler.config.runtime
    runtimeModule := compiler.config.runtimeModule
    declarations
    registrations }, progress.untracked)

/-- Compile one file. Its own package is tracked besides those that the compiler knows. -/
def compile (compiler : Compiler) (file : File) : Except CompileError Output := do
  let (script, untracked) ← compiler.script file
  return {
    files := [⟨file.stem ++ file.suffix compiler.config.defaultSuffix, script.render⟩]
    warnings := untracked.map (Warning.mk file.name) }

def compileNamed (compiler : Compiler) (files : List File) (name : String) :
    Except CompileError Output :=
  match files.find? (·.name == name) with
  | some file => compiler.compile file
  | none => throw (.missingFile name)

/-- Compile the named ones of some files, which all have their packages tracked. The first file
that fails ends the compilation. -/
def compileRequest (compiler : Compiler) (files : List File) (names : List String) :
    Except CompileError Output := do
  let compiler := { compiler with packages := compiler.packages.trackFiles files }
  let outputs ← names.mapM (compiler.compileNamed files)
  return outputs.foldl (· ++ ·) {}

end Compiler

end ProtoScript
