import ProtoScript.Proofs.Agreement

/-! # Packages that files share

A package is tracked with one namespace. If files of a request have the same package but different
namespaces, each of them looks for all types of the package in its own namespace, also for those
that another file declares in the other one.
-/

namespace ProtoScript

open Dotted

namespace Packages

variable {packages : Packages} {package own other name : String}

theorem exists_locate?_child (hp : packages.get? package = some own) (name : String) :
    ∃ reference, packages.locate? (child package name) = some reference := by
  obtain ⟨p, n, hg, hw, hl⟩ :=
    exists_longest_within hp (.inr ⟨name, rfl⟩ : Within package (child package name))
  exact ⟨_, locate?_of_longest_within hg hw hl⟩

/-- A member of a package is moved into a namespace that is not that of the package exactly if the
longest tracked package around it is a longer one and has a namespace that moves it there. -/
theorem locate?_child_eq_some_iff (hp : packages.get? package = some own) (hne : own ≠ other) :
    packages.locate? (child package name) = some (child other name) ↔
      ∃ longer target, packages.get? longer = some target ∧ package.length < longer.length ∧
        Within longer (child package name) ∧
        (∀ p n, packages.get? p = some n → Within p (child package name) →
          p.length ≤ longer.length) ∧
        target ++ dropScope longer (child package name) = child other name := by
  have hb : Below package (child package name) := ⟨name, rfl⟩
  constructor
  · intro h
    obtain ⟨longer, target, hg, hw, hl⟩ := exists_longest_within hp (.inr hb)
    rw [locate?_of_longest_within hg hw hl, Option.some_inj] at h
    refine ⟨longer, target, hg, ?_, hw, hl, h⟩
    refine Nat.lt_of_le_of_ne (hl _ _ hp (.inr hb)) fun he => hne ?_
    have hbl : Below longer (child package name) := by
      refine hw.resolve_left fun hc => ?_
      exact Nat.lt_irrefl _ (he ▸ hc ▸ hb.length_lt)
    obtain rfl : package = longer := hb.eq_of_length_eq hbl he
    rw [hp, Option.some_inj] at hg
    subst hg
    rw [append_dropScope_child] at h
    exact child_right_cancel h
  · rintro ⟨longer, target, hg, _, hw, hl, h⟩
    rw [locate?_of_longest_within hg hw hl, h]

end Packages

namespace Compiler

variable {compiler : Compiler} {file : File} {output : Output} {site : FieldSite} {field : Field}

theorem exists_contains_constructor {message : Message} (h : compiler.compile file = .ok output)
    (hm : message ∈ file.messages) :
    ∃ content value, output.files.map (·.content) = [content] ∧
      Text.Contains content (child file.targetNamespace message.name ++ " = " ++ value) := by
  have hd : file.Declares [] (.message message) := .message (.here hm)
  obtain ⟨content, hc, ht⟩ := exists_contains_assignment h (hd.mem_declarations _)
  exact ⟨content, _, hc, ht.trans (((Text.Contains.refl _).append_left _).append_right _)⟩

/-- Two files of a request have the same package but different namespaces, and a field of the first
refers to a message of the second. The script of the second file assigns the message in the
namespace of that file. The reference in the metadata of the field is that path exactly if a longer
package around the message is tracked with a namespace that happens to move it there. Without a
longer package the reference is to the namespace of the first file. -/
theorem shared_package_reference_iff (compiler : Compiler) (files : List File)
    (names : List String) (output : Output) (f g : File) (message : Message) (site : FieldSite)
    (field : Field) (h : compiler.compileRequest files names = .ok output)
    (hd : files.Pairwise (fun a b => a.name ≠ b.name)) (hf : f ∈ files) (hn : f.name ∈ names)
    (hp : trim f.package = trim g.package) (he : trim g.package ≠ "")
    (hne : f.targetNamespace ≠ g.targetNamespace) (hm : message ∈ g.messages)
    (hs : f.fieldAt? site = some field)
    (ht : field.typeName = some ("." ++ child (trim g.package) message.name)) :
    (∀ other, (compiler.tracking files).compile g = .ok other →
      ∃ content value, other.files.map (·.content) = [content] ∧
        Text.Contains content (child g.targetNamespace message.name ++ " = " ++ value)) ∧
    ∃ own generated name reference, (compiler.tracking files).compile f = .ok own ∧
      generated ∈ own.files ∧ generated ∈ output.files ∧
      Text.Contains generated.content
        (field.entry ((compiler.tracking files).packagesFor f) name).render ∧
      (field.entry ((compiler.tracking files).packagesFor f) name).reference = some reference ∧
      (field.entry ((compiler.tracking files).packagesFor f) name).render =
        "['" ++ name ++ "', " ++ Decimal.ofInt field.label.code ++ ", " ++
          Decimal.ofInt field.type.code ++ ", '" ++ reference ++ "', " ++
          field.literal ((compiler.tracking files).packagesFor f) ++ ", \x7b\x7d]" ∧
      (reference = child g.targetNamespace message.name ↔
        ∃ longer target,
          ((compiler.tracking files).packagesFor f).get? longer = some target ∧
          (trim g.package).length < longer.length ∧
          Within longer (child (trim g.package) message.name) ∧
          (∀ p n, ((compiler.tracking files).packagesFor f).get? p = some n →
            Within p (child (trim g.package) message.name) → p.length ≤ longer.length) ∧
          target ++ dropScope longer (child (trim g.package) message.name) =
            child g.targetNamespace message.name) ∧
      ((∀ longer target, ((compiler.tracking files).packagesFor f).get? longer = some target →
          (trim g.package).length < longer.length →
          ¬ Within longer (child (trim g.package) message.name)) →
        reference = child f.targetNamespace message.name) := by
  refine ⟨fun other hother => exists_contains_constructor hother hm, ?_⟩
  obtain ⟨own, ho, hsub⟩ :=
    exists_compile_of_find? h hn ((find?_name_eq_some_iff hd).mpr ⟨hf, rfl⟩)
  obtain ⟨generated, hg, name, hc⟩ := exists_contains_entry ho hs
  have hb : ((compiler.tracking files).packagesFor f).get? (trim g.package) =
      some f.targetNamespace := by
    rw [get?_packagesFor (eq_outputOf_of_compile_eq_ok ho).1, if_pos ⟨hp.symm, he⟩]
  have hstrip : stripLeft ("." ++ child (trim g.package) message.name) =
      child (trim g.package) message.name :=
    @stripLeft_dot_descend_trim g.package [message.name] he
  obtain ⟨reference, hl⟩ := Packages.exists_locate?_child hb message.name
  have hr : field.typeName.map ((compiler.tracking files).packagesFor f).nameOf =
      some reference := by
    rw [ht, Option.map_some, Packages.nameOf_of_locate? (hstrip ▸ hl)]
  refine ⟨own, generated, name, reference, ho, hg, hsub generated hg, hc, hr,
    Metadata.render_of_reference hr, ?_, fun hlong => ?_⟩
  · rw [← Packages.locate?_child_eq_some_iff hb hne, hl, Option.some_inj]
  · have hown := Packages.locate?_of_longest hb ⟨message.name, rfl⟩ fun p n hp hw =>
      Nat.not_lt.mp fun hlt => hlong p n hp hlt hw
    rw [hl, Option.some_inj] at hown
    rw [hown, append_dropScope_child]

def firstSharingFile : File where
  name := "f.proto"
  package := "p"
  options := ({} : Dictionary).insert "json.namespace" "A"
  messages := [
    { name := "F"
      fields := [{ name := "t", number := 1, type := .message, typeName := some ".p.T" }] }]

def secondSharingFile : File where
  name := "g.proto"
  package := "p"
  options := ({} : Dictionary).insert "json.namespace" "B"
  messages := [{ name := "T" }]

theorem shared_package_reference_sharingFiles :
    ∃ output, ({} : Compiler).compileRequest [firstSharingFile, secondSharingFile] ["f.proto"] =
        .ok output ∧
      ∃ generated ∈ output.files, ∃ metadata,
        Text.Contains generated.content (Metadata.render metadata) ∧
        metadata.reference = some "A.T" ∧ metadata.reference ≠ some "B.T" ∧
        ∃ name, metadata.render = "['" ++ (name ++ "', 1, 11, 'A.T', null, \x7b\x7d]") := by
  obtain ⟨output, h⟩ := (exists_compileRequest_eq_ok_iff {} [firstSharingFile, secondSharingFile]
    ["f.proto"]).mpr (by decide +kernel)
  have hl : ∀ e ∈ ((({} : Compiler).tracking [firstSharingFile, secondSharingFile]).packagesFor
      firstSharingFile).toList, (trim "p").length < e.1.length → ¬ Within e.1 "p.T" := by
    decide +kernel
  obtain ⟨_, _, generated, name, reference, _, _, hg, hc, hr, ht, _, hlong⟩ :=
    shared_package_reference_iff {} [firstSharingFile, secondSharingFile] ["f.proto"] output
      firstSharingFile secondSharingFile { name := "T" } (.member 0 0) _ h (by decide +kernel)
      List.mem_cons_self List.mem_cons_self rfl (by decide +kernel) (by decide +kernel)
      List.mem_cons_self rfl (by decide +kernel)
  have hA : reference = "A.T" := hlong fun longer target hg => hl _ (Packages.mem_toList.mpr hg)
  rw [hA] at hr ht
  refine ⟨output, h, generated, hg, _, hc, hr, by simp [hr], name, ?_⟩
  rw [ht]
  simp only [String.append_assoc]
  rfl

end Compiler

end ProtoScript
