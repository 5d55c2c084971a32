import Mathlib.Data.List.Forall2
import ProtoScript.Proofs.DeclaredTypes

/-! # Requests

A request compiles the named ones of some files with the packages of all of them tracked. It
compiles the names one after the other: it fails at the first name that fails alone, and otherwise
its result is what the names give alone, one behind the other.
-/

namespace ProtoScript

namespace Output

theorem append_assoc (a b c : Output) : a ++ b ++ c = a ++ (b ++ c) :=
  congrArg₂ Output.mk (List.append_assoc ..) (List.append_assoc ..)

@[simp] theorem empty_append (a : Output) : {} ++ a = a := rfl

@[simp] theorem append_empty (a : Output) : a ++ {} = a :=
  congrArg₂ Output.mk (List.append_nil _) (List.append_nil _)

theorem foldl_append (outputs : List Output) (start : Output) :
    outputs.foldl (· ++ ·) start = start ++ outputs.foldl (· ++ ·) {} := by
  induction outputs generalizing start with
  | nil => rw [List.foldl_nil, List.foldl_nil, append_empty]
  | cons output rest ih => rw [List.foldl_cons, List.foldl_cons, ih, ih ({} ++ output),
      empty_append, append_assoc]

end Output

namespace Compiler

variable {compiler : Compiler} {files : List File} {file : File} {names a b : List String}
  {output : Output} {error : CompileError}

theorem compileRequest_eq (compiler : Compiler) (files : List File) (names : List String) :
    compiler.compileRequest files names =
      (names.mapM ((compiler.tracking files).compileNamed files)).map
        (·.foldl (· ++ ·) {}) := by
  rw [compileRequest, ← tracking]
  cases names.mapM ((compiler.tracking files).compileNamed files) <;> rfl

theorem compileRequest_nil (compiler : Compiler) (files : List File) :
    compiler.compileRequest files [] = .ok {} := rfl

theorem compileRequest_singleton (compiler : Compiler) (files : List File) (name : String) :
    compiler.compileRequest files [name] = (compiler.tracking files).compileNamed files name := by
  rw [compileRequest_eq, List.mapM_cons, List.mapM_nil]
  cases (compiler.tracking files).compileNamed files name <;> rfl

theorem compileRequest_append (compiler : Compiler) (files : List File) (a b : List String) :
    compiler.compileRequest files (a ++ b) =
      match compiler.compileRequest files a, compiler.compileRequest files b with
      | .error error, _ => .error error
      | .ok _, .error error => .error error
      | .ok first, .ok second => .ok (first ++ second) := by
  simp only [compileRequest_eq, List.mapM_append]
  cases a.mapM ((compiler.tracking files).compileNamed files) with
  | error error => rfl
  | ok outputs =>
    cases b.mapM ((compiler.tracking files).compileNamed files) with
    | error error => rfl
    | ok more =>
      have hf : (outputs ++ more).foldl (· ++ ·) {} =
          outputs.foldl (· ++ ·) {} ++ more.foldl (· ++ ·) ({} : Output) := by
        rw [List.foldl_append, Output.foldl_append]
      exact congrArg Except.ok hf

theorem compileRequest_append_eq_ok_iff :
    compiler.compileRequest files (a ++ b) = .ok output ↔
      ∃ first second, compiler.compileRequest files a = .ok first ∧
        compiler.compileRequest files b = .ok second ∧ output = first ++ second := by
  rw [compileRequest_append]
  cases compiler.compileRequest files a with
  | error error => simp
  | ok first => cases compiler.compileRequest files b <;> simp [eq_comm]

theorem compileRequest_append_eq_error_iff :
    compiler.compileRequest files (a ++ b) = .error error ↔
      compiler.compileRequest files a = .error error ∨
        (∃ first, compiler.compileRequest files a = .ok first) ∧
          compiler.compileRequest files b = .error error := by
  rw [compileRequest_append]
  cases compiler.compileRequest files a with
  | error error => simp
  | ok first => cases compiler.compileRequest files b <;> simp

/-- A request succeeds if each of its names does, and its result is what they give, in order. -/
theorem compileRequest_eq_ok_iff :
    compiler.compileRequest files names = .ok output ↔
      ∃ outputs, List.Forall₂ (fun name own => compiler.compileRequest files [name] = .ok own)
          names outputs ∧
        output.files = outputs.flatMap (·.files) ∧
        output.warnings = outputs.flatMap (·.warnings) := by
  obtain ⟨generated, warnings⟩ := output
  induction names generalizing generated warnings with
  | nil =>
    rw [compileRequest_nil]
    constructor
    · rintro ⟨rfl⟩
      exact ⟨[], .nil, rfl, rfl⟩
    · rintro ⟨_, ⟨_⟩, rfl, rfl⟩
      rfl
  | cons name rest ih =>
    rw [← List.singleton_append, compileRequest_append_eq_ok_iff]
    constructor
    · rintro ⟨own, others, hn, hr, he⟩
      obtain ⟨outputs, ho, hf, hw⟩ := (ih others.files others.warnings).mp hr
      refine ⟨own :: outputs, .cons hn ho, ?_, ?_⟩
      · rw [he, Output.files_append, hf, List.flatMap_cons]
      · rw [he, Output.warnings_append, hw, List.flatMap_cons]
    · rintro ⟨_, h, rfl, rfl⟩
      obtain ⟨own, outputs, hn, ho, rfl⟩ := List.forall₂_cons_left_iff.mp h
      exact ⟨own, _, hn, (ih _ _).mpr ⟨outputs, ho, rfl, rfl⟩, rfl⟩

theorem compileRequest_eq_error_iff :
    compiler.compileRequest files names = .error error ↔
      ∃ before name behind, names = before ++ name :: behind ∧
        (∀ earlier ∈ before, ∃ own, compiler.compileRequest files [earlier] = .ok own) ∧
        compiler.compileRequest files [name] = .error error := by
  induction names with
  | nil => simp [compileRequest_nil]
  | cons name rest ih =>
    rw [← List.singleton_append, compileRequest_append_eq_error_iff, ih]
    constructor
    · rintro (hn | ⟨⟨own, hn⟩, before, failing, behind, rfl, hb, hf⟩)
      · exact ⟨[], name, rest, rfl, by simp, hn⟩
      · refine ⟨name :: before, failing, behind, rfl, ?_, hf⟩
        exact List.forall_mem_cons.mpr ⟨⟨own, hn⟩, hb⟩
    · rintro ⟨before, failing, behind, hs, hb, hf⟩
      cases before with
      | nil =>
        obtain ⟨rfl, rfl⟩ := List.cons.inj hs
        exact .inl hf
      | cons first before =>
        obtain ⟨rfl, rfl⟩ := List.cons.inj hs
        obtain ⟨hn, hb⟩ := List.forall_mem_cons.mp hb
        exact .inr ⟨hn, before, failing, behind, rfl, hb, hf⟩

theorem find?_name_eq_some_iff (hd : files.Pairwise (fun a b => a.name ≠ b.name)) {name : String} :
    files.find? (·.name == name) = some file ↔ file ∈ files ∧ file.name = name := by
  induction files with
  | nil => simp
  | cons first rest ih =>
    obtain ⟨hn, hd⟩ := List.pairwise_cons.mp hd
    by_cases h : first.name = name
    · have hr : file ∈ rest → file.name ≠ name := fun hf hn' => hn file hf (h.trans hn'.symm)
      rw [List.find?_cons_of_pos (by simpa using h), Option.some_inj, List.mem_cons]
      grind
    · rw [List.find?_cons_of_neg (by simpa using h), ih hd, List.mem_cons]
      grind

theorem compileNamed_name (compiler : Compiler)
    (hd : files.Pairwise (fun a b => a.name ≠ b.name)) (hf : file ∈ files) :
    compiler.compileNamed files file.name = compiler.compile file := by
  rw [compileNamed, (find?_name_eq_some_iff hd).mpr ⟨hf, rfl⟩]

theorem exists_compile_of_find? {name : String}
    (h : compiler.compileRequest files names = .ok output) (hn : name ∈ names)
    (hf : files.find? (·.name == name) = some file) :
    ∃ own, (compiler.tracking files).compile file = .ok own ∧
      ∀ generated ∈ own.files, generated ∈ output.files := by
  obtain ⟨before, behind, rfl⟩ := List.append_of_mem hn
  rw [← List.singleton_append] at h
  obtain ⟨first, _, _, hr, rfl⟩ := compileRequest_append_eq_ok_iff.mp h
  obtain ⟨own, second, ho, _, rfl⟩ := compileRequest_append_eq_ok_iff.mp hr
  rw [compileRequest_singleton, compileNamed, hf] at ho
  refine ⟨own, ho, fun generated hg => ?_⟩
  simp [hg]

theorem exists_compileNamed_eq_ok_iff (compiler : Compiler) (files : List File) (name : String) :
    (∃ output, compiler.compileNamed files name = .ok output) ↔
      ∃ file ∈ files.find? (·.name == name), file.check = .ok () ∧ file.targetNamespace ≠ "" ∧
        ∀ reference ∈ file.references, reference.isQualified := by
  rw [compileNamed]
  cases files.find? (·.name == name) with
  | none => simp
  | some file => simpa using exists_compile_eq_ok_iff compiler file

theorem exists_compileRequest_eq_ok_iff (compiler : Compiler) (files : List File)
    (names : List String) :
    (∃ output, compiler.compileRequest files names = .ok output) ↔
      ∀ name ∈ names, ∃ file ∈ files.find? (·.name == name), file.check = .ok () ∧
        file.targetNamespace ≠ "" ∧ ∀ reference ∈ file.references, reference.isQualified := by
  simp only [← exists_compileNamed_eq_ok_iff (compiler.tracking files),
    ← compileRequest_singleton]
  induction names with
  | nil => simp [compileRequest_nil]
  | cons name rest ih =>
    rw [List.forall_mem_cons, ← ih, ← List.singleton_append]
    simp only [compileRequest_append_eq_ok_iff]
    constructor
    · rintro ⟨_, first, second, hf, hs, _⟩
      exact ⟨⟨first, hf⟩, ⟨second, hs⟩⟩
    · rintro ⟨⟨first, hf⟩, ⟨second, hs⟩⟩
      exact ⟨_, first, second, hf, hs, rfl⟩

end Compiler

end ProtoScript
