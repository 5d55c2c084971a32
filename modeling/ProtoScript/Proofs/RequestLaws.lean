import ProtoScript.Proofs.Requests

/-! # Laws of requests

A request compiles its names one after the other, and what a name gives does not depend on the names
around it. A request for one file alone is a compilation of that file. The order of the files does
not matter as long as they have different names and agree on the namespaces of packages.
-/

namespace ProtoScript

open Dotted

namespace Compiler

variable {compiler : Compiler} {files : List File} {file : File}

theorem compile_congr {other : Compiler} (hc : compiler.config = other.config)
    (hk : compiler.clock = other.clock)
    (hp : compiler.packagesFor file = other.packagesFor file) :
    compiler.compile file = other.compile file := by
  simp only [compile_eq, outputOf, scriptOf, hc, hk, hp]

theorem compileRequest_self (compiler : Compiler) (file : File) :
    compiler.compileRequest [file] [file.name] = compiler.compile file := by
  rw [compileRequest_singleton, compileNamed_name _ (List.pairwise_singleton ..)
    List.mem_cons_self]
  have hp : (compiler.tracking [file]).packagesFor file = compiler.packagesFor file := by
    rw [packagesFor, packagesFor, tracking, Packages.trackFiles, List.foldl_cons, List.foldl_nil,
      Packages.trackFile_trackFile]
  exact compile_congr (config_tracking compiler [file]) (by rw [tracking]) hp

/-- A request for the names of two lists fails as that for the first list, or else as that for the
second, or else returns what both return. Each name of a request gives what it gives alone, whatever
is requested before and behind it, and the first name that fails alone ends the request with its
error. A file that is requested alone is compiled as by itself. -/
theorem request_compiles_names_in_turn (compiler : Compiler) :
    (∀ (files : List File) (a b : List String), compiler.compileRequest files (a ++ b) =
      match compiler.compileRequest files a, compiler.compileRequest files b with
      | .error error, _ => .error error
      | .ok _, .error error => .error error
      | .ok first, .ok second => .ok {
          files := first.files ++ second.files
          warnings := first.warnings ++ second.warnings }) ∧
    (∀ (files : List File) (names : List String) (output : Output),
      compiler.compileRequest files names = .ok output ↔
        ∃ outputs, List.Forall₂ (fun name own => compiler.compileRequest files [name] = .ok own)
            names outputs ∧
          output.files = outputs.flatMap (·.files) ∧
          output.warnings = outputs.flatMap (·.warnings)) ∧
    (∀ (files : List File) (names : List String) (error : CompileError),
      compiler.compileRequest files names = .error error ↔
        ∃ before name behind, names = before ++ name :: behind ∧
          (∀ earlier ∈ before, ∃ own, compiler.compileRequest files [earlier] = .ok own) ∧
          compiler.compileRequest files [name] = .error error) ∧
    ∀ file : File, compiler.compileRequest [file] [file.name] = compiler.compile file := by
  exact ⟨compileRequest_append compiler, fun _ _ _ => compileRequest_eq_ok_iff,
    fun _ _ _ => compileRequest_eq_error_iff, compileRequest_self compiler⟩

section Order

variable {others : List File}

theorem compileNamed_perm (compiler : Compiler) (hp : files.Perm others)
    (hd : files.Pairwise (fun a b => a.name ≠ b.name)) (name : String) :
    compiler.compileNamed files name = compiler.compileNamed others name := by
  have hd' : others.Pairwise (fun a b => a.name ≠ b.name) := (hp.pairwise_iff Ne.symm).mp hd
  have hf : files.find? (·.name == name) = others.find? (·.name == name) := by
    refine Option.ext fun file => ?_
    rw [find?_name_eq_some_iff hd, find?_name_eq_some_iff hd', hp.mem_iff]
  rw [compileNamed, compileNamed, hf]

/-- The order of the files of a request does not matter if they have different names and those of
one package agree on its namespace. -/
theorem request_of_reordered_files (compiler : Compiler) (files others : List File)
    (names : List String) (hp : files.Perm others)
    (hd : files.Pairwise (fun a b => a.name ≠ b.name))
    (ha : ∀ f ∈ files, ∀ g ∈ files, trim f.package = trim g.package → trim f.package ≠ "" →
      f.targetNamespace ≠ "" → g.targetNamespace ≠ "" →
        f.targetNamespace = g.targetNamespace) :
    compiler.compileRequest files names = compiler.compileRequest others names := by
  have hb : ∀ f ∈ files, ∀ g ∈ files, ∀ k, Packages.Binds k f → Packages.Binds k g →
      f.targetNamespace = g.targetNamespace := by
    rintro f hf g hg k ⟨hkf, hk, hnf⟩ ⟨hkg, _, hng⟩
    exact ha f hf g hg (hkf.symm.trans hkg) (hkf ▸ hk) hnf hng
  have ht : compiler.tracking files = compiler.tracking others := by
    rw [tracking, tracking, Packages.trackFiles_perm compiler.packages hp hb]
  have hn : (compiler.tracking others).compileNamed files =
      (compiler.tracking others).compileNamed others :=
    funext (compileNamed_perm _ hp hd)
  rw [compileRequest_eq, compileRequest_eq, ht, hn]

def agreeingFiles : List File := [
  { name := "a.proto"
    package := "p.q"
    options := ({} : Dictionary).insert "json.namespace" "js"
    messages := [
      { name := "A"
        fields := [
          { name := "b", number := 1, type := .message, typeName := some ".p.q.B" },
          { name := "c", number := 2, type := .message, typeName := some ".r.C" },
          { name := "y", number := 3, type := .message, typeName := some ".x.Y" }] }] },
  { name := "b.proto"
    package := ".p.q."
    options := ({} : Dictionary).insert "json.package" ".js."
    messages := [{ name := "B" }] },
  { name := "c.proto", package := "r", messages := [{ name := "C" }] },
  { name := "d.proto"
    package := "p.q"
    options := ({} : Dictionary).insert "json.namespace" "." }]

theorem request_of_reordered_files_agreeingFiles :
    ∃ output, ({} : Compiler).compileRequest agreeingFiles ["a.proto", "b.proto"] = .ok output ∧
      ({} : Compiler).compileRequest agreeingFiles.reverse ["a.proto", "b.proto"] = .ok output ∧
      output.files.map (·.name) = ["a.js", "b.js"] ∧ output.warnings = [⟨"a.proto", "x.Y"⟩] := by
  have ho : (({} : Compiler).compileRequest agreeingFiles ["a.proto", "b.proto"]).map
      (fun output => (output.files.map (·.name), output.warnings)) =
        .ok (["a.js", "b.js"], [⟨"a.proto", "x.Y"⟩]) := by
    decide +kernel
  have hr := request_of_reordered_files {} agreeingFiles agreeingFiles.reverse
    ["a.proto", "b.proto"] (List.reverse_perm _).symm (by decide +kernel) (by decide +kernel)
  rw [← hr]
  cases h : ({} : Compiler).compileRequest agreeingFiles ["a.proto", "b.proto"] with
  | error error => simp [h, Except.map] at ho
  | ok output =>
    rw [h, Except.map, Except.ok.injEq, Prod.mk.injEq] at ho
    exact ⟨output, rfl, rfl, ho⟩

end Order

end Compiler

end ProtoScript
