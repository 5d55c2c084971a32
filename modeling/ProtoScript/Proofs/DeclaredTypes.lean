import ProtoScript.Proofs.Outcome
import ProtoScript.Proofs.Statements

/-! # Declared types

A file declares messages and enumerations, at any depth. Its script assigns each of them to its path
below the namespace of the file. A reference to a type becomes its path in the namespace of the
longest tracked package around it.
-/

namespace ProtoScript

open Dotted

inductive TypeDef where
  | message (message : Message)
  | enum (enum : Enumeration)

namespace TypeDef

def name : TypeDef → String
  | .message m => m.name
  | .enum e => e.name

def declaration (packages : Packages) (scope : String) : TypeDef → Declaration
  | .message m => .message scope m.name (m.table packages)
  | .enum e => e.declare scope

@[simp] theorem path_declaration (packages : Packages) (scope : String) (type : TypeDef) :
    (type.declaration packages scope).path = child scope type.name := by
  cases type <;> rfl

end TypeDef

namespace File

/-- A file declares a type inside messages of the given names. -/
inductive Declares (file : File) : List String → TypeDef → Prop where
  | enum {enum : Enumeration} : enum ∈ file.enums → Declares file [] (.enum enum)
  | message {outer : List String} {message : Message} :
      Message.At file.messages outer message → Declares file outer (.message message)
  | nested {outer : List String} {message : Message} {enum : Enumeration} :
      Message.At file.messages outer message → enum ∈ message.enums →
        Declares file (outer ++ [message.name]) (.enum enum)

variable {file : File} {outer : List String} {type : TypeDef}

theorem Declares.mem_declarations (h : file.Declares outer type) (packages : Packages) :
    type.declaration packages (descend file.targetNamespace outer) ∈
      file.declarations packages := by
  rw [declarations, Message.declarations, List.mem_append, List.mem_flatMap]
  cases h with
  | enum he => exact .inl (List.mem_map_of_mem he)
  | message ha =>
    refine .inr ⟨_, Message.mem_preorder.mpr ⟨_, ha, rfl⟩, ?_⟩
    exact List.mem_cons_self
  | nested ha he =>
    refine .inr ⟨_, Message.mem_preorder.mpr ⟨_, ha, rfl⟩, ?_⟩
    rw [descend_concat]
    exact List.mem_append_right _ (List.mem_map_of_mem he)

end File

namespace Packages

theorem get?_trackFile_trackFiles {packages : Packages} {files : List File} {f g : File}
    (ha : ∀ a ∈ files, ∀ b ∈ files, trim a.package = trim b.package →
      a.targetNamespace = b.targetNamespace)
    (hf : f ∈ files) (hg : g ∈ files) (hp : trim g.package ≠ "") (hn : g.targetNamespace ≠ "") :
    ((packages.trackFiles files).trackFile f).get? (trim g.package) = some g.targetNamespace := by
  rw [get?_trackFile]
  split
  · next hb => rw [ha f hf g hg hb.1.symm]
  · exact get?_trackFiles_of_agree hg ⟨rfl, hp, hn⟩ fun other ho => ha other ho g hg

section Longest

variable {packages : Packages} {package target : String} {names : List String}

theorem locate?_stripLeft_descend (hp : trim package ≠ "") (hn : names ≠ [])
    (hg : packages.get? (trim package) = some target)
    (hl : ∀ p n, packages.get? p = some n → (trim package).length < p.length →
      ¬ Within p (descend (trim package) names)) :
    packages.locate? (stripLeft ("." ++ descend (trim package) names)) =
      some (descend target names) := by
  rw [stripLeft_dot_descend_trim hp, locate?_of_longest hg (below_descend _ hn) fun p n h hw =>
    Nat.not_lt.mp fun hlt => hl p n h hlt hw, dropScope_descend, ← descend_eq_append]

theorem runFrom_normalize_descend (hp : trim package ≠ "") (hn : names ≠ [])
    (hg : packages.get? (trim package) = some target)
    (hl : ∀ p n, packages.get? p = some n → (trim package).length < p.length →
      ¬ Within p (descend (trim package) names)) (progress : Progress) :
    (packages.normalize ("." ++ descend (trim package) names)).runFrom progress =
      (.ok (descend target names), progress) :=
  runFrom_normalize_of_locate? (locate?_stripLeft_descend hp hn hg hl) progress

end Longest

end Packages

namespace Compiler

/-- The compiler with the packages of all given files tracked. -/
def tracking (compiler : Compiler) (files : List File) : Compiler :=
  { compiler with packages := compiler.packages.trackFiles files }

@[simp] theorem config_tracking (compiler : Compiler) (files : List File) :
    (compiler.tracking files).config = compiler.config := by
  rw [tracking]

variable {compiler : Compiler} {file : File} {output : Output} {declaration : Declaration}

theorem exists_contains_assignment (h : compiler.compile file = .ok output)
    (hd : declaration ∈ file.declarations (compiler.packagesFor file)) :
    ∃ content, output.files.map (·.content) = [content] ∧
      Text.Contains content (declaration.comment compiler.config.runtime ++
        (declaration.path ++ " = " ++ declaration.value compiler.config.runtime ++ ";\n\n")) := by
  obtain ⟨_, rfl⟩ := eq_outputOf_of_compile_eq_ok h
  refine ⟨_, rfl, ?_⟩
  have hm : declaration.render compiler.config.runtime ∈ (compiler.scriptOf file).statements :=
    List.mem_append_left _ (List.mem_map_of_mem hd)
  obtain ⟨n, hn⟩ := List.mem_iff_getElem?.mp hm
  obtain ⟨behind, hr⟩ := Script.exists_render_eq hn
  rw [← Declaration.render_eq_assignment]
  exact ⟨_, behind, hr⟩

/-- The script of a compiled file assigns each of its types, at the path of the type below the
namespace of the file. -/
theorem exists_contains_declared {outer : List String} {type : TypeDef}
    (h : compiler.compile file = .ok output) (hd : file.Declares outer type) :
    ∃ content declaration, output.files.map (·.content) = [content] ∧
      declaration = type.declaration (compiler.packagesFor file)
        (descend file.targetNamespace outer) ∧
      declaration.path = descend file.targetNamespace (outer ++ [type.name]) ∧
      Text.Contains content (declaration.comment compiler.config.runtime ++
        (declaration.path ++ " = " ++ declaration.value compiler.config.runtime ++ ";\n\n")) := by
  obtain ⟨content, hc, ht⟩ := exists_contains_assignment h (hd.mem_declarations _)
  refine ⟨content, _, hc, rfl, ?_, ht⟩
  rw [TypeDef.path_declaration, descend_concat]

end Compiler

end ProtoScript
