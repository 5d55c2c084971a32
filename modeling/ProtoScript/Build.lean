import ProtoScript.Extensions
import ProtoScript.Packages
import ProtoScript.Schema.Violation

/-! # Building with references

The parts of a script are built from descriptors whose references are moved into JavaScript
namespaces. Building keeps the references that no tracked package covers and the extensions
recorded so far, and keeps them also when it fails.
-/

namespace ProtoScript

inductive CompileError where
  | violation (cause : Violation)
  | unqualifiedReference (reference context : String)
  | missingNamespace (file : String)
  | missingFile (file : String)
  deriving DecidableEq, Repr

def CompileError.message : CompileError → String
  | .violation cause => "schema error: " ++ cause.message
  | .unqualifiedReference reference context =>
    "only fully qualified names are supported: '" ++ reference ++ "' (in " ++ context ++ ")"
  | .missingNamespace file => "file '" ++ file ++ "' has no package and no namespace option"
  | .missingFile file => "generation error: file '" ++ file ++ "' is not part of the request"

structure Progress where
  /-- The references outside all tracked packages, each once, in the order of first use. -/
  untracked : List String := []
  extensions : Extensions := {}
  deriving DecidableEq, Repr

abbrev Build (α : Type) : Type := ExceptT CompileError (StateM Progress) α

namespace Build

def runFrom {α : Type} (build : Build α) (progress : Progress) :
    Except CompileError α × Progress :=
  StateT.run (ExceptT.run build) progress

section

variable {α β : Type} (progress : Progress)

@[simp] theorem runFrom_pure (a : α) : runFrom (pure a) progress = (.ok a, progress) := rfl

@[simp] theorem runFrom_throw (error : CompileError) :
    runFrom (throw error : Build α) progress = (.error error, progress) := rfl

theorem runFrom_bind (build : Build α) (next : α → Build β) :
    runFrom (build >>= next) progress =
      match runFrom build progress with
      | (.ok a, progress) => runFrom (next a) progress
      | (.error error, progress) => (.error error, progress) := by
  simp only [runFrom, ExceptT.run_bind, StateT.run_bind]
  rcases (ExceptT.run build).run progress with ⟨_ | _, q⟩ <;> rfl

@[simp] theorem runFrom_map (f : α → β) (build : Build α) :
    runFrom (f <$> build) progress =
      ((runFrom build progress).1.map f, (runFrom build progress).2) := by
  rw [← bind_pure_comp, runFrom_bind]
  rcases runFrom build progress with ⟨_ | _, q⟩ <;> rfl

end

def noteUntracked (reference : String) : Build Unit :=
  modify fun progress =>
    if reference ∈ progress.untracked then progress
    else { progress with untracked := progress.untracked ++ [reference] }

def recordExtensions (scope : String) (fields : List Field) : Build Unit :=
  modify fun progress =>
    { progress with extensions := progress.extensions.recordAll scope fields }

def takeExtensions : Build Extensions :=
  modifyGet fun progress => (progress.extensions, { progress with extensions := {} })

section

variable (progress : Progress)

@[simp] theorem runFrom_noteUntracked (reference : String) :
    runFrom (noteUntracked reference) progress =
      (.ok (), if reference ∈ progress.untracked then progress
        else { progress with untracked := progress.untracked ++ [reference] }) := rfl

@[simp] theorem runFrom_recordExtensions (scope : String) (fields : List Field) :
    runFrom (recordExtensions scope fields) progress =
      (.ok (), { progress with extensions := progress.extensions.recordAll scope fields }) := rfl

@[simp] theorem runFrom_takeExtensions :
    runFrom takeExtensions progress =
      (.ok progress.extensions, { progress with extensions := {} }) := rfl

end

end Build

namespace Packages

/-- The JavaScript name of a reference, with or without dots in front. -/
def normalize (packages : Packages) (reference : String) : Build String := do
  let reference := Dotted.stripLeft reference
  match packages.locate? reference with
  | some name => return name
  | none =>
    Build.noteUntracked reference
    return reference

/-- The JavaScript name of a fully qualified reference, which has a dot in front. -/
def resolve (packages : Packages) (context reference : String) : Build String :=
  if reference.toList.head? = some '.' then packages.normalize reference
  else throw (.unqualifiedReference reference context)

end Packages

def untrackedMessage (reference : String) : String :=
  "Non tracked package name found \"" ++ reference ++ "\""

end ProtoScript
