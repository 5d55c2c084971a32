import ProtoScript.Proofs.LoadOrder
import ProtoScript.Proofs.Requests

/-! # References agree with declarations

Every file of a request has its package tracked when one of them is compiled. A reference to a type
that some file of the request declares therefore becomes the name to which the script of that file
assigns the type.
-/

namespace ProtoScript

open Dotted

namespace Compiler

variable {compiler : Compiler} {files : List File} {names : List String} {name : String}
  {file : File} {output : Output}

theorem name_of_mem_files {generated : OutputFile} (h : compiler.compile file = .ok output)
    (hg : generated ∈ output.files) :
    generated.name = file.stem ++ file.suffix compiler.config.defaultSuffix := by
  obtain ⟨_, rfl⟩ := eq_outputOf_of_compile_eq_ok h
  obtain rfl := List.mem_singleton.mp hg
  rfl

theorem exists_contains_entry {site : FieldSite} {field : Field}
    (h : compiler.compile file = .ok output) (hs : file.fieldAt? site = some field) :
    ∃ generated ∈ output.files, ∃ name,
      Text.Contains generated.content (field.entry (compiler.packagesFor file) name).render := by
  obtain ⟨_, rfl⟩ := eq_outputOf_of_compile_eq_ok h
  obtain ⟨call, name, hc, hm⟩ := exists_callAt?_contains compiler hs
  obtain ⟨behind, hr⟩ := Script.exists_render_eq (getElem?_statements_call hc)
  exact ⟨_, List.mem_cons_self, name, Text.Contains.trans ⟨_, behind, hr⟩ hm⟩

theorem exists_contains_declared_of_find? {outer : List String} {type : TypeDef}
    (h : compiler.compileRequest files names = .ok output) (hn : name ∈ names)
    (hf : files.find? (·.name == name) = some file) (hd : file.Declares outer type) :
    ∃ generated ∈ output.files,
      generated.name = file.stem ++ file.suffix compiler.config.defaultSuffix ∧ ∃ declaration,
      declaration = type.declaration ((compiler.tracking files).packagesFor file)
        (descend file.targetNamespace outer) ∧
      declaration.path = descend file.targetNamespace (outer ++ [type.name]) ∧
      Text.Contains generated.content (declaration.comment compiler.config.runtime ++
        (declaration.path ++ " = " ++ declaration.value compiler.config.runtime ++ ";\n\n")) := by
  obtain ⟨own, ho, hs⟩ := exists_compile_of_find? h hn hf
  obtain ⟨content, declaration, hc, hd⟩ := exists_contains_declared ho hd
  obtain ⟨generated, hg, rfl⟩ := List.mem_map.mp (hc ▸ List.mem_singleton_self content)
  have hk := name_of_mem_files ho hg
  rw [config_tracking] at hk hd
  exact ⟨generated, hs generated hg, hk, declaration, hd⟩

theorem exists_contains_literal_of_find? {site : FieldSite} {field : Field} {path : String}
    (h : compiler.compileRequest files names = .ok output) (hn : name ∈ names)
    (hf : files.find? (·.name == name) = some file) (hs : file.fieldAt? site = some field)
    (hr : field.typeName.map ((compiler.tracking files).packagesFor file).nameOf = some path) :
    ∃ generated ∈ output.files,
      generated.name = file.stem ++ file.suffix compiler.config.defaultSuffix ∧ ∃ key,
      Text.Contains generated.content ("['" ++ key ++ "', " ++
        Decimal.ofInt field.label.code ++ ", " ++ Decimal.ofInt field.type.code ++ ", '" ++
        path ++ "', " ++ field.literal ((compiler.tracking files).packagesFor file) ++
        ", \x7b\x7d]") := by
  obtain ⟨own, ho, hsub⟩ := exists_compile_of_find? h hn hf
  obtain ⟨generated, hg, key, hc⟩ := exists_contains_entry ho hs
  rw [Metadata.render_of_reference hr] at hc
  have hk := name_of_mem_files ho hg
  rw [config_tracking] at hk
  exact ⟨generated, hsub generated hg, hk, key, hc⟩

/-- References agree with declarations in a request whose files agree on the namespaces of
packages. When a file of the request is compiled, a reference to a type of another becomes the name
of the type below the namespace of that other file, unless a longer package is around it. No warning
is raised, and the script of the other file assigns the type to the same name. What a request
generates for the other file holds this assignment, and what it generates for the first one holds
the name in the literals of all fields that refer to the type. -/
theorem reference_agrees_with_declaration (compiler : Compiler) (files : List File) (f g : File)
    (outer : List String) (type : TypeDef)
    (ha : ∀ a ∈ files, ∀ b ∈ files, trim a.package = trim b.package →
      a.targetNamespace = b.targetNamespace)
    (hf : f ∈ files) (hg : g ∈ files) (hp : trim g.package ≠ "") (hn : g.targetNamespace ≠ "")
    (hd : g.Declares outer type)
    (hl : ∀ package target,
      ((compiler.tracking files).packagesFor f).get? package = some target →
        (trim g.package).length < package.length →
        ¬ Within package (descend (trim g.package) (outer ++ [type.name]))) :
    (∀ progress, (((compiler.tracking files).packagesFor f).normalize
        ("." ++ descend (trim g.package) (outer ++ [type.name]))).runFrom progress =
      (.ok (descend g.targetNamespace (outer ++ [type.name])), progress)) ∧
    (∀ output, (compiler.tracking files).compile g = .ok output →
      ∃ content declaration, output.files.map (·.content) = [content] ∧
        declaration = type.declaration ((compiler.tracking files).packagesFor g)
          (descend g.targetNamespace outer) ∧
        declaration.path = descend g.targetNamespace (outer ++ [type.name]) ∧
        Text.Contains content (declaration.comment compiler.config.runtime ++
          (declaration.path ++ " = " ++ declaration.value compiler.config.runtime ++ ";\n\n"))) ∧
    ∀ names output, compiler.compileRequest files names = .ok output →
      (∀ name ∈ names, files.find? (·.name == name) = some g →
        ∃ generated ∈ output.files,
          generated.name = g.stem ++ g.suffix compiler.config.defaultSuffix ∧ ∃ declaration,
          declaration = type.declaration ((compiler.tracking files).packagesFor g)
            (descend g.targetNamespace outer) ∧
          declaration.path = descend g.targetNamespace (outer ++ [type.name]) ∧
          Text.Contains generated.content (declaration.comment compiler.config.runtime ++
            (declaration.path ++ " = " ++ declaration.value compiler.config.runtime ++
              ";\n\n"))) ∧
      ∀ name ∈ names, files.find? (·.name == name) = some f →
        ∀ site field, f.fieldAt? site = some field →
          field.typeName = some ("." ++ descend (trim g.package) (outer ++ [type.name])) →
          ∃ generated ∈ output.files,
            generated.name = f.stem ++ f.suffix compiler.config.defaultSuffix ∧ ∃ key,
            Text.Contains generated.content ("['" ++ key ++ "', " ++
              Decimal.ofInt field.label.code ++ ", " ++ Decimal.ofInt field.type.code ++ ", '" ++
              descend g.targetNamespace (outer ++ [type.name]) ++ "', " ++
              field.literal ((compiler.tracking files).packagesFor f) ++ ", \x7b\x7d]") := by
  have hb : ((compiler.tracking files).packagesFor f).get? (trim g.package) =
      some g.targetNamespace := Packages.get?_trackFile_trackFiles ha hf hg hp hn
  refine ⟨Packages.runFrom_normalize_descend hp (by simp) hb hl,
    fun output ho => exists_contains_declared ho hd, fun names output h => ⟨?_, ?_⟩⟩
  · intro name hm hfound
    exact exists_contains_declared_of_find? h hm hfound hd
  · intro name hm hfound site field hs ht
    apply exists_contains_literal_of_find? h hm hfound hs
    rw [ht, Option.map_some, Packages.nameOf_of_locate?
      (Packages.locate?_stripLeft_descend hp (by simp) hb hl)]

def declaringFile : File where
  name := "b.proto"
  package := ".b.c."
  options := ({} : Dictionary).insert "json.namespace" "js.n"
  messages := [
    { name := "M"
      messages := [{ name := "N", enums := [{ name := "K", values := [⟨"A", 0⟩] }] }] }]

def referringFile : File where
  name := "a.proto"
  package := "b"
  messages := [
    { name := "L"
      fields := [{ name := "k", number := 1, type := .enum, typeName := some ".b.c.M.N.K" }] }]

/-- A compiler that knows a package longer than that of the enumeration, but not around it. -/
def knowingCompiler : Compiler where
  packages := ({} : Packages).track "b.c.Me" "me"

theorem reference_agrees_with_declaration_declaringFile :
    (∀ progress, (((knowingCompiler.tracking [referringFile, declaringFile]).packagesFor
      referringFile).normalize ".b.c.M.N.K").runFrom progress = (.ok "js.n.M.N.K", progress)) ∧
    ∃ output, knowingCompiler.compileRequest [referringFile, declaringFile]
        ["a.proto", "b.proto"] = .ok output ∧
      (∃ generated ∈ output.files, generated.name = "b.js" ∧ Text.Contains generated.content
        "js.n.M.N.K = \x7b\n  /** @const */ A: 0\n\x7d;\n\n") ∧
      ∃ generated ∈ output.files, generated.name = "a.js" ∧ ∃ key,
        Text.Contains generated.content
          ("['" ++ (key ++ "', 1, 14, 'js.n.M.N.K', null, \x7b\x7d]")) := by
  have hd : declaringFile.Declares ["M", "N"] (.enum ⟨"K", [⟨"A", 0⟩]⟩) :=
    @File.Declares.nested declaringFile ["M"] ⟨"N", [], [], [⟨"K", [⟨"A", 0⟩]⟩], []⟩ _
      (by simp [declaringFile, Message.at_cons_iff]) List.mem_cons_self
  have hl : ∀ e ∈ ((knowingCompiler.tracking [referringFile, declaringFile]).packagesFor
      referringFile).toList, (trim ".b.c.").length < e.1.length → ¬ Within e.1 "b.c.M.N.K" := by
    decide +kernel
  obtain ⟨hr, _, hc⟩ := reference_agrees_with_declaration knowingCompiler
    [referringFile, declaringFile] referringFile declaringFile ["M", "N"] _ (by decide +kernel)
    (by simp) (by simp) (by decide +kernel) (by decide +kernel) hd
    fun package target hg => hl (package, target) (Packages.mem_toList.mpr hg)
  obtain ⟨output, ho⟩ : ∃ output, knowingCompiler.compileRequest [referringFile, declaringFile]
      ["a.proto", "b.proto"] = .ok output :=
    (exists_compileRequest_eq_ok_iff ..).mpr (by decide +kernel)
  obtain ⟨hg, hf⟩ := hc _ output ho
  obtain ⟨generated, hm, hb, declaration, rfl, _, ht⟩ :=
    hg "b.proto" (by simp) (by decide +kernel)
  obtain ⟨other, ho', ha, key, hk⟩ :=
    hf "a.proto" (by simp) (by decide +kernel) (.member 0 0) _ rfl (by decide +kernel)
  refine ⟨hr, output, ho, ⟨generated, hm, hb.trans (by decide +kernel), ht⟩, other, ho',
    ha.trans (by decide +kernel), key, ?_⟩
  simp only [String.append_assoc] at hk
  exact hk

end Compiler

end ProtoScript
