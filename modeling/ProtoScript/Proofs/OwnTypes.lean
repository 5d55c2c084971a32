import ProtoScript.Proofs.DeclaredTypes

/-! # References of a file to its own types

The package of a file is tracked while the file is compiled, so that it finds its own types in its
own namespace. A file without a package has a namespace only by an option. Nothing is tracked for
it, and its references to its own types stay as they are.
-/

namespace ProtoScript

open Dotted

/-- The fully qualified reference to what a file declares under the given names, from the outermost
message on. -/
def File.referenceTo (file : File) (names : List String) : String :=
  if trim file.package = "" then descend "" names else "." ++ descend (trim file.package) names

namespace Packages

variable {packages : Packages}

theorem not_tracks_of_get?_eq_none (h : ∀ package, packages.get? package = none)
    (reference : String) : ¬ packages.Tracks reference := by
  rintro ⟨package, target, hg, _⟩
  rw [h package] at hg
  simp at hg

end Packages

namespace Compiler

variable {config : Config} {clock : Moment} {file : File}

theorem get?_packagesFor_of_no_packages (hn : file.targetNamespace ≠ "") (package : String) :
    (({ config, clock } : Compiler).packagesFor file).get? package =
      if package = trim file.package ∧ package ≠ "" then some file.targetNamespace else none :=
  get?_packagesFor hn package

theorem runFrom_normalize_referenceTo {names : List String} (hn : file.targetNamespace ≠ "")
    (hp : trim file.package ≠ "") (hs : names ≠ []) (progress : Progress) :
    ((({ config, clock } : Compiler).packagesFor file).normalize
      (file.referenceTo names)).runFrom progress =
        (.ok (descend file.targetNamespace names), progress) := by
  rw [File.referenceTo, if_neg hp]
  apply Packages.runFrom_normalize_descend hp hs
  · rw [get?_packagesFor_of_no_packages hn, if_pos ⟨rfl, hp⟩]
  · intro package target hg hl
    rw [get?_packagesFor_of_no_packages hn] at hg
    split at hg
    · rename_i hc
      rw [hc.1] at hl
      exact absurd hl (Nat.lt_irrefl _)
    · simp at hg

theorem not_tracks_of_no_package (hn : file.targetNamespace ≠ "")
    (hp : trim file.package = "") (reference : String) :
    ¬ (({ config, clock } : Compiler).packagesFor file).Tracks reference := by
  refine Packages.not_tracks_of_get?_eq_none (fun package => ?_) reference
  rw [get?_packagesFor_of_no_packages hn, hp, if_neg]
  rintro ⟨he, hne⟩
  exact hne he

/-- References of a file to its own types, when no other packages are known. If the file has a
package, the reference to a type becomes the path to which the script assigns the type, and no
warning is raised. If it has none, the reference is only rid of the dots in front, and is kept for a
warning. -/
theorem own_type_reference (config : Config) (clock : Moment) (file : File) (output : Output)
    (outer : List String) (type : TypeDef)
    (h : ({ config, clock } : Compiler).compile file = .ok output) (hd : file.Declares outer type) :
    (trim file.package ≠ "" → ∀ progress,
      ((({ config, clock } : Compiler).packagesFor file).normalize
        (file.referenceTo (outer ++ [type.name]))).runFrom progress =
          (.ok (descend file.targetNamespace (outer ++ [type.name])), progress)) ∧
    (trim file.package = "" → ∀ progress,
      ((({ config, clock } : Compiler).packagesFor file).normalize
        (file.referenceTo (outer ++ [type.name]))).runFrom progress =
          (.ok (stripLeft (descend "" (outer ++ [type.name]))),
            if stripLeft (descend "" (outer ++ [type.name])) ∈ progress.untracked then progress
            else { progress with untracked :=
              progress.untracked ++ [stripLeft (descend "" (outer ++ [type.name]))] })) ∧
    ∃ content declaration, output.files.map (·.content) = [content] ∧
      declaration = type.declaration (({ config, clock } : Compiler).packagesFor file)
        (descend file.targetNamespace outer) ∧
      declaration.path = descend file.targetNamespace (outer ++ [type.name]) ∧
      Text.Contains content (declaration.comment config.runtime ++
        (declaration.path ++ " = " ++ declaration.value config.runtime ++ ";\n\n")) := by
  obtain ⟨hn, _⟩ := eq_outputOf_of_compile_eq_ok h
  refine ⟨fun hp => runFrom_normalize_referenceTo hn hp (by simp), fun hp progress => ?_,
    exists_contains_declared h hd⟩
  rw [File.referenceTo, if_pos hp]
  exact Packages.runFrom_normalize_of_not_tracks (not_tracks_of_no_package hn hp _) progress

def packagedFile : File where
  name := "a.proto"
  package := "p.q."
  options := ({} : Dictionary).insert "json.namespace" "js"
  messages := [{ name := "M", enums := [{ name := "K", values := [⟨"A", 1⟩] }] }]

theorem own_type_reference_packagedFile :
    (∀ progress, ((({} : Compiler).packagesFor packagedFile).normalize ".p.q.M.K").runFrom
      progress = (.ok "js.M.K", progress)) ∧
    ∃ output content, ({} : Compiler).compile packagedFile = .ok output ∧
      output.files.map (·.content) = [content] ∧
      Text.Contains content "js.M.K = \x7b\n  /** @const */ A: 1\n\x7d;\n\n" := by
  obtain ⟨output, h⟩ := (exists_compile_eq_ok_iff {} packagedFile).mpr (by decide +kernel)
  have hd : packagedFile.Declares ["M"] (.enum ⟨"K", [⟨"A", 1⟩]⟩) :=
    @File.Declares.nested packagedFile [] ⟨"M", [], [], [⟨"K", [⟨"A", 1⟩]⟩], []⟩ _
      (.here List.mem_cons_self) List.mem_cons_self
  obtain ⟨hr, _, content, declaration, hf, rfl, _, ht⟩ :=
    own_type_reference {} default packagedFile output ["M"] _ h hd
  exact ⟨hr (by decide +kernel), output, content, h, hf, ht⟩

def packagelessFile : File where
  name := "a.proto"
  options := ({} : Dictionary).insert "json.namespace" "js"
  messages := [
    { name := "M"
      fields := [{ name := "m", number := 1, type := .message, typeName := some ".M" }] }]

/-- Without a package the reference `.M` becomes `M`, while the message is declared as `js.M`, and
there is a warning. -/
theorem own_type_not_found_packagelessFile :
    (∃ output, ({} : Compiler).compile packagelessFile = .ok output ∧
      output.warnings = [⟨"a.proto", "M"⟩]) ∧
    (∃ message, packagelessFile.Declares [] (.message message) ∧ message.name = "M") ∧
    packagelessFile.referenceTo ["M"] = ".M" ∧
    descend packagelessFile.targetNamespace ["M"] = "js.M" ∧
    ((({} : Compiler).packagesFor packagelessFile).normalize ".M").runFrom {} =
      (.ok "M", { untracked := ["M"] }) ∧
    ¬ ∀ progress, ((({} : Compiler).packagesFor packagelessFile).normalize ".M").runFrom progress =
      (.ok "js.M", progress) := by
  have hr : ((({} : Compiler).packagesFor packagelessFile).normalize ".M").runFrom {} =
      (.ok "M", { untracked := ["M"] }) := by
    rw [Packages.runFrom_normalize_of_not_tracks (by decide +kernel)]
    rfl
  refine ⟨?_, ⟨_, .message (.here List.mem_cons_self), rfl⟩, by decide +kernel, by decide +kernel,
    hr, fun h => ?_⟩
  · obtain ⟨output, h⟩ := (exists_compile_eq_ok_iff {} packagelessFile).mpr (by decide +kernel)
    refine ⟨output, h, ?_⟩
    rw [(eq_outputOf_of_compile_eq_ok h).2]
    decide +kernel
  · rw [h {}] at hr
    exact absurd hr (by simp)

end Compiler

end ProtoScript
