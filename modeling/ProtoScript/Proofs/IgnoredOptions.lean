import ProtoScript.Proofs.Requests

/-! # Options that do not matter

Of the options of a file only those that name its namespace have an effect on generated code and on
warnings. The option for the ending and the configured default of it decide the name of a generated
file and nothing else.
-/

namespace ProtoScript

namespace File

/-- The files differ at most in options that do not name the namespace. -/
structure Resembles (file other : File) : Prop where
  name : file.name = other.name
  package : file.package = other.package
  enums : file.enums = other.enums
  messages : file.messages = other.messages
  extensions : file.extensions = other.extensions
  namespaceOption : file.options.get? "json.namespace" = other.options.get? "json.namespace"
  packageOption : file.options.get? "json.package" = other.options.get? "json.package"

namespace Resembles

variable {file other : File} {files others : List File}

theorem targetNamespace (h : file.Resembles other) :
    file.targetNamespace = other.targetNamespace := by
  unfold File.targetNamespace namespaceOption? packageOption?
  rw [h.namespaceOption, h.packageOption, h.package]

theorem check (h : file.Resembles other) : file.check = other.check := by
  unfold File.check
  rw [h.package, h.enums, h.messages, h.extensions]

theorem registered (h : file.Resembles other) : file.registered = other.registered := by
  unfold File.registered collected
  rw [h.targetNamespace, h.messages, h.extensions]

theorem references (h : file.Resembles other) : file.references = other.references := by
  unfold File.references
  rw [h.targetNamespace, h.messages, h.registered]

theorem trackFile (h : file.Resembles other) (packages : Packages) :
    packages.trackFile file = packages.trackFile other := by
  unfold Packages.trackFile
  rw [h.package, h.targetNamespace]

theorem scriptOf (h : file.Resembles other) (compiler : Compiler) :
    compiler.scriptOf file = compiler.scriptOf other := by
  unfold Compiler.scriptOf Compiler.packagesFor declarations registrations
  rw [h.name, h.targetNamespace, h.trackFile, h.enums, h.messages, h.registered]

theorem trackFiles (h : List.Forall₂ Resembles files others) (packages : Packages) :
    packages.trackFiles files = packages.trackFiles others := by
  induction h generalizing packages with
  | nil => rfl
  | cons hf _ ih =>
    unfold Packages.trackFiles at ih ⊢
    rw [List.foldl_cons, List.foldl_cons, hf.trackFile, ih]

theorem find?_name (h : List.Forall₂ Resembles files others) (name : String) :
    Option.Rel Resembles (files.find? (·.name == name)) (others.find? (·.name == name)) := by
  induction h with
  | nil => exact .none
  | @cons file other _ _ hf _ ih =>
    rw [List.find?_cons, List.find?_cons, ← hf.name]
    cases file.name == name with
    | true => exact .some hf
    | false => exact ih

end Resembles

end File

namespace Output

/-- The outputs have the same contents and warnings. The files of each have names of their own. -/
structure Alike (names otherNames : List String) (first second : Output) : Prop where
  contents : first.files.map (·.content) = second.files.map (·.content)
  warnings : first.warnings = second.warnings
  names_first : first.files.map (·.name) = names
  names_second : second.files.map (·.name) = otherNames

theorem Alike.append {a b a' b' : List String} {first second more further : Output}
    (h : Alike a a' first second) (hm : Alike b b' more further) :
    Alike (a ++ b) (a' ++ b') (first ++ more) (second ++ further) := by
  constructor
  · simp [h.contents, hm.contents]
  · simp [h.warnings, hm.warnings]
  · simp [h.names_first, hm.names_first]
  · simp [h.names_second, hm.names_second]

end Output

namespace Compiler

variable {compiler other : Compiler} {files others : List File}

theorem sameOutcome_compileRequest (related : List String → Output → Output → Prop)
    (hn : related [] {} {})
    (ha : ∀ {a b first second more further}, related a first second → related b more further →
      related (a ++ b) (first ++ more) (second ++ further))
    (hs : ∀ name, SameOutcome (related [name]) (compiler.compileRequest files [name])
      (other.compileRequest others [name])) (names : List String) :
    SameOutcome (related names) (compiler.compileRequest files names)
      (other.compileRequest others names) := by
  induction names with
  | nil => exact .ok hn
  | cons name rest ih =>
    rw [← List.singleton_append, compileRequest_append, compileRequest_append]
    have h := hs name
    generalize compiler.compileRequest files [name] = first,
      other.compileRequest others [name] = second at h ⊢
    generalize compiler.compileRequest files rest = more,
      other.compileRequest others rest = further at ih ⊢
    cases h with
    | error error => exact .error error
    | ok h =>
      cases ih with
      | error error => exact .error error
      | ok hr => exact .ok (ha h hr)

def withDefaultSuffix (compiler : Compiler) (suffix : String) : Compiler :=
  { compiler with config := { compiler.config with defaultSuffix := suffix } }

theorem tracking_withDefaultSuffix (compiler : Compiler) (suffix : String) (files : List File) :
    (compiler.withDefaultSuffix suffix).tracking files =
      (compiler.tracking files).withDefaultSuffix suffix := by
  rw [tracking, tracking, withDefaultSuffix, withDefaultSuffix]

theorem outputOf_withDefaultSuffix (compiler : Compiler) (suffix : String) (file : File) :
    (compiler.withDefaultSuffix suffix).outputOf file =
      { compiler.outputOf file with
        files := [⟨file.stem ++ file.suffix suffix, (compiler.scriptOf file).render⟩] } := by
  rw [outputOf, outputOf, scriptOf, scriptOf, packagesFor, packagesFor, withDefaultSuffix]
  rfl

/-- The name of the file that is generated for a requested name: the stem of the name and the
ending that the schema sets, or else the default one. -/
def generatedName (compiler : Compiler) (files : List File) (name : String) : String :=
  Path.stem name ++
    ((files.find? (·.name == name)).bind (·.options.get? "json.suffix")).getD
      compiler.config.defaultSuffix

theorem generatedName_of_find? (compiler : Compiler) {name : String} {file : File}
    (h : files.find? (·.name == name) = some file) :
    compiler.generatedName files name =
      file.stem ++ file.suffix compiler.config.defaultSuffix := by
  have hn : file.name = name := by simpa using List.find?_some h
  rw [generatedName, h, Option.bind_some, File.stem, hn, File.suffix, File.suffixOption?]

theorem outputOf_alike {file second : File} (h : file.Resembles second) (compiler : Compiler)
    (suffix : String) :
    Output.Alike [file.stem ++ file.suffix compiler.config.defaultSuffix]
      [second.stem ++ second.suffix suffix]
      (compiler.outputOf file) ((compiler.withDefaultSuffix suffix).outputOf second) := by
  rw [outputOf_withDefaultSuffix, outputOf, outputOf]
  constructor
  · simp only [List.map_cons, List.map_nil, h.scriptOf]
  · simp only [packagesFor, h.trackFile, h.references, h.name]
  · rfl
  · rfl

theorem sameOutcome_singleton (compiler : Compiler) (suffix : String)
    (h : List.Forall₂ File.Resembles files others) (name : String) :
    SameOutcome
      (Output.Alike [compiler.generatedName files name]
        [(compiler.withDefaultSuffix suffix).generatedName others name])
      (compiler.compileRequest files [name])
      ((compiler.withDefaultSuffix suffix).compileRequest others [name]) := by
  have ht : (compiler.withDefaultSuffix suffix).tracking others =
      (compiler.tracking files).withDefaultSuffix suffix := by
    rw [tracking_withDefaultSuffix, tracking, tracking, File.Resembles.trackFiles h]
  rw [compileRequest_singleton, compileRequest_singleton, ht, compileNamed, compileNamed]
  have hr := File.Resembles.find?_name h name
  generalize hf : files.find? (·.name == name) = found,
    hg : others.find? (·.name == name) = foundOther at hr ⊢
  cases hr with
  | none => exact .error _
  | some hr =>
    rw [generatedName_of_find? _ hf, generatedName_of_find? _ hg]
    exact sameOutcome_compile hr.name hr.check hr.targetNamespace hr.references fun _ =>
      outputOf_alike hr (compiler.tracking files) suffix

/-- A request whose files differ from those of another at most in options that do not name the
namespace, compiled with another default ending. Both fail with the same error, or both give the
same contents and the same warnings, and each names its files after the requested names and its own
endings. -/
theorem request_ignores_other_options (compiler : Compiler) (suffix : String)
    (files others : List File) (names : List String)
    (h : List.Forall₂ File.Resembles files others) :
    SameOutcome
      (Output.Alike (names.map (compiler.generatedName files))
        (names.map ((compiler.withDefaultSuffix suffix).generatedName others)))
      (compiler.compileRequest files names)
      ((compiler.withDefaultSuffix suffix).compileRequest others names) := by
  refine sameOutcome_compileRequest (fun names => Output.Alike
    (names.map (compiler.generatedName files))
    (names.map ((compiler.withDefaultSuffix suffix).generatedName others)))
    ⟨rfl, rfl, rfl, rfl⟩ ?_ (sameOutcome_singleton compiler suffix h) names
  intro a b first second more further hf hm
  rw [List.map_append, List.map_append]
  exact hf.append hm

def optionedFiles (first second third : Dictionary) : List File := [
  { name := "dir/a.proto"
    package := "p"
    options := first.insert "json.namespace" "js"
    messages := [
      { name := "A"
        fields := [
          { name := "b", number := 1, type := .message, typeName := some ".q.B" },
          { name := "c", number := 2, type := .message, typeName := some ".r.C" },
          { name := "y", number := 3, type := .message, typeName := some ".x.Y" }] }] },
  { name := "b.proto", package := "q", options := second, messages := [{ name := "B" }] },
  { name := "c.proto", package := "r", options := third.insert "json.package" "c" }]

theorem request_ignores_other_options_optionedFiles :
    ∃ first second : Output,
      ({} : Compiler).compileRequest
        (optionedFiles {} (({} : Dictionary).insert "json.suffix" "_b.js") {})
        ["dir/a.proto", "b.proto"] = .ok first ∧
      (({} : Compiler).withDefaultSuffix ".mjs").compileRequest
        (optionedFiles (({} : Dictionary).insert "json.suffix" ".es") {}
          (({} : Dictionary).insert "note" "x"))
        ["dir/a.proto", "b.proto"] = .ok second ∧
      first.files.map (·.content) = second.files.map (·.content) ∧
      first.files.map (·.name) = ["a.js", "b_b.js"] ∧
      second.files.map (·.name) = ["a.es", "b.mjs"] ∧
      first.warnings = [⟨"dir/a.proto", "x.Y"⟩] ∧ second.warnings = first.warnings := by
  have hr : List.Forall₂ File.Resembles
      (optionedFiles {} (({} : Dictionary).insert "json.suffix" "_b.js") {})
      (optionedFiles (({} : Dictionary).insert "json.suffix" ".es") {}
        (({} : Dictionary).insert "note" "x")) := by
    refine .cons ?_ (.cons ?_ (.cons ?_ .nil))
    all_goals exact ⟨rfl, rfl, rfl, rfl, rfl, by decide +kernel, by decide +kernel⟩
  have h := request_ignores_other_options {} ".mjs" _ _ ["dir/a.proto", "b.proto"] hr
  have hw : (({} : Compiler).compileRequest
      (optionedFiles {} (({} : Dictionary).insert "json.suffix" "_b.js") {})
      ["dir/a.proto", "b.proto"]).map (·.warnings) = .ok [⟨"dir/a.proto", "x.Y"⟩] := by
    decide +kernel
  cases hf : ({} : Compiler).compileRequest
      (optionedFiles {} (({} : Dictionary).insert "json.suffix" "_b.js") {})
      ["dir/a.proto", "b.proto"] with
  | error error => simp [hf, Except.map] at hw
  | ok first =>
    rw [hf, Except.map, Except.ok.injEq] at hw
    obtain ⟨second, hs, ha⟩ := h.exists_ok hf
    refine ⟨first, second, rfl, hs, ha.contents, ?_, ?_, hw, ha.warnings.symm⟩
    · rw [ha.names_first]
      decide +kernel
    · rw [ha.names_second]
      decide +kernel

end Compiler

end ProtoScript
