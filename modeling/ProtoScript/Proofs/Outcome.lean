import ProtoScript.Proofs.Nesting

/-! # Outcome and warnings of a compilation

A file is compiled exactly if it passes the check, has a namespace and refers to other types only
by fully qualified references. Neither the configuration nor the tracked packages matter for this.
The warnings of a compilation are about the references outside all tracked packages.
-/

namespace ProtoScript

namespace Field

variable {field : Field}

/-- The references of a field to its type and to the message that it extends start with a dot. -/
def Qualified (field : Field) : Prop :=
  ∀ text, field.typeName = some text ∨ field.extendee = some text → text.toList.head? = some '.'

theorem forall_references_iff {p : String → Prop} :
    (∀ reference ∈ field.references, p reference.text) ↔
      ∀ text, field.typeName = some text → p text := by
  rw [references]
  cases field.typeName <;> simp

theorem extendee_eq_none_of_checkMembers {scope : String} {seen : List (UInt32 × String)}
    {fields : List Field} (hc : checkMembers scope seen fields = .ok ()) (hf : field ∈ fields) :
    field.extendee = none := by
  induction fields generalizing seen with
  | nil => simp at hf
  | cons first rest ih =>
    rw [checkMembers] at hc
    by_cases hx : first.isExtension
    · simp [hx, throw, throwThe, MonadExceptOf.throw, bind, Except.bind] at hc
    · obtain ⟨_, hc⟩ := seq_eq_ok_iff.mp (by simpa [hx] using hc)
      cases hs : seen.lookup first.number with
      | some name => simp [hs, throw, throwThe, MonadExceptOf.throw] at hc
      | none =>
        rcases List.mem_cons.mp hf with rfl | hf
        · simpa [isExtension] using hx
        · exact ih (by simpa [hs] using hc) hf

theorem isSome_extendee_of_checkExtension {scope : String}
    (hc : field.checkExtension scope = .ok ()) : field.extendee.isSome := by
  rw [checkExtension] at hc
  by_cases hx : field.isExtension
  · exact hx
  · simp [hx, throw, throwThe, MonadExceptOf.throw, bind, Except.bind] at hc

end Field

theorem Extension.forall_references_iff {extension : Extension} {p : String → Prop}
    (h : extension.field.extendee.isSome) :
    (∀ reference ∈ extension.references, p reference.text) ↔
      ∀ text, extension.field.typeName = some text ∨ extension.field.extendee = some text →
        p text := by
  obtain ⟨extendee, hx⟩ := Option.isSome_iff_exists.mp h
  rw [references, List.forall_mem_cons, Field.forall_references_iff]
  simp only [target, hx, Option.getD_some, Option.some.injEq]
  constructor
  · rintro ⟨he, ht⟩ text (h | rfl)
    · exact ht text h
    · exact he
  · intro h
    exact ⟨h extendee (.inr rfl), fun text ht => h text (.inl ht)⟩

namespace File

variable {file : File} {field : Field}

/-- Some message of the file, at any depth, has the field. -/
def HasMember (file : File) (field : Field) : Prop :=
  ∃ names message, Message.At file.messages names message ∧ field ∈ message.fields

/-- The file declares the extension field, itself or in a message at any depth. -/
def HasExtension (file : File) (field : Field) : Prop :=
  field ∈ file.extensions ∨
    ∃ names message, Message.At file.messages names message ∧ field ∈ message.extensions

theorem check_eq_ok_iff : file.check = .ok () ↔
    (∀ enum ∈ file.enums, enum.check file.package = .ok ()) ∧
      Message.checkAll file.package file.messages = .ok () ∧
      ∀ field ∈ file.extensions, field.checkExtension file.package = .ok () := by
  rw [check, seq_eq_ok_iff, seq_eq_ok_iff, forM_eq_ok_iff, forM_eq_ok_iff]

theorem HasMember.extendee (h : file.HasMember field) (hc : file.check = .ok ()) :
    field.extendee = none := by
  obtain ⟨names, message, ha, hf⟩ := h
  obtain ⟨path, hv⟩ := Message.valid_of_at (check_eq_ok_iff.mp hc).2.1 ha
  exact Field.extendee_eq_none_of_checkMembers hv.fields hf

theorem HasExtension.extendee (h : file.HasExtension field) (hc : file.check = .ok ()) :
    field.extendee.isSome := by
  obtain ⟨_, hm, hx⟩ := check_eq_ok_iff.mp hc
  rcases h with h | ⟨names, message, ha, hf⟩
  · exact Field.isSome_extendee_of_checkExtension (hx field h)
  · obtain ⟨path, hv⟩ := Message.valid_of_at hm ha
    exact Field.isSome_extendee_of_checkExtension (hv.extensions field hf)

theorem hasMember_iff :
    file.HasMember field ↔ ∃ scope message, (scope, message) ∈ file.preorder ∧
      field ∈ message.fields := by
  simp only [HasMember, preorder, Message.mem_preorder]
  constructor
  · rintro ⟨names, message, ha, hf⟩
    exact ⟨_, message, ⟨names, ha, rfl⟩, hf⟩
  · rintro ⟨_, message, ⟨names, ha, _⟩, hf⟩
    exact ⟨names, message, ha, hf⟩

theorem hasExtension_iff :
    file.HasExtension field ↔ ∃ extension ∈ file.registered, extension.field = field := by
  simp only [HasExtension, registered, Extensions.mem_grouped, collected, List.mem_append,
    Message.mem_collected, Message.ownExtensions, List.mem_map]
  constructor
  · rintro (h | ⟨names, message, ha, hf⟩)
    · exact ⟨_, .inr ⟨field, h, rfl⟩, rfl⟩
    · exact ⟨_, .inl ⟨names, message, ha, field, hf, rfl⟩, rfl⟩
  · rintro ⟨_, ⟨names, message, ha, _, hf, rfl⟩ | ⟨_, h, rfl⟩, rfl⟩
    · exact .inr ⟨names, message, ha, hf⟩
    · exact .inl h

theorem forall_mem_references_iff (p : String → Prop) (hc : file.check = .ok ()) :
    (∀ reference ∈ file.references, p reference.text) ↔
      ∀ field, file.HasMember field ∨ file.HasExtension field →
        ∀ text, field.typeName = some text ∨ field.extendee = some text → p text := by
  -- The check leaves no member with an extendee and no extension without one. Otherwise a member
  -- could have an extendee that is never resolved.
  rw [references, List.forall_mem_append]
  constructor
  · rintro ⟨hm, hx⟩ field (hf | hf)
    · obtain ⟨scope, message, hs, hi⟩ := hasMember_iff.mp hf
      have ht := Field.forall_references_iff.mp fun reference hr =>
        hm reference (List.mem_flatMap.mpr ⟨_, hs, List.mem_flatMap.mpr ⟨field, hi, hr⟩⟩)
      rintro text (h | h)
      · exact ht text h
      · simp [hf.extendee hc] at h
    · have he := hf.extendee hc
      obtain ⟨extension, hr, rfl⟩ := hasExtension_iff.mp hf
      exact (Extension.forall_references_iff he).mp fun reference h =>
        hx reference (List.mem_flatMap.mpr ⟨extension, hr, h⟩)
  · intro h
    constructor
    · intro reference hr
      obtain ⟨m, hs, hr⟩ := List.mem_flatMap.mp hr
      obtain ⟨field, hf, hr⟩ := List.mem_flatMap.mp hr
      have hq := h field (.inl (hasMember_iff.mpr ⟨m.1, m.2, hs, hf⟩))
      exact Field.forall_references_iff.mpr (fun text ht => hq text (.inl ht)) reference hr
    · intro reference hr
      obtain ⟨extension, he, hr⟩ := List.mem_flatMap.mp hr
      have hx : file.HasExtension extension.field := hasExtension_iff.mpr ⟨extension, he, rfl⟩
      exact (Extension.forall_references_iff (hx.extendee hc)).mpr (h _ (.inr hx)) reference hr

theorem forall_references_iff (hc : file.check = .ok ()) :
    (∀ reference ∈ file.references, reference.isQualified) ↔
      ∀ field, file.HasMember field ∨ file.HasExtension field → field.Qualified := by
  simp only [Reference.isQualified, decide_eq_true_eq, Field.Qualified]
  exact forall_mem_references_iff (fun text => text.toList.head? = some '.') hc

end File

namespace Compiler

variable {file : File}

theorem exists_compile_eq_ok_iff (compiler : Compiler) (file : File) :
    (∃ output, compiler.compile file = .ok output) ↔
      file.check = .ok () ∧ file.targetNamespace ≠ "" ∧
        ∀ reference ∈ file.references, reference.isQualified := by
  rw [compile_eq]
  cases file.check with
  | error violation => simp
  | ok =>
    by_cases hn : file.targetNamespace = ""
    · simp [hn]
    · cases hr : file.references.find? (!·.isQualified) with
      | some reference =>
        have hm := List.mem_of_find?_eq_some hr
        have hq := List.find?_some hr
        simp only [Bool.not_eq_true'] at hq
        simp only [hn, if_false, reduceCtorEq, exists_false, true_and, ne_eq, not_false_eq_true,
          false_iff]
        intro h
        simp [h reference hm] at hq
      | none =>
        have hq := List.find?_eq_none.mp hr
        simp only [Bool.not_eq_true', Bool.not_eq_false] at hq
        simpa [hn] using hq

theorem compile_eq_error_iff (compiler : Compiler) (file : File) (error : CompileError) :
    compiler.compile file = .error error ↔
      (∃ violation, file.check = .error violation ∧ error = .violation violation) ∨
      (file.check = .ok () ∧ file.targetNamespace = "" ∧ error = .missingNamespace file.name) ∨
      (file.check = .ok () ∧ file.targetNamespace ≠ "" ∧
        ∃ reference, file.references.find? (!·.isQualified) = some reference ∧
          error = reference.error) := by
  rw [compile_eq]
  cases file.check with
  | error violation => simp [@eq_comm _ error]
  | ok =>
    by_cases hn : file.targetNamespace = ""
    · simp [hn, @eq_comm _ error]
    · simp only [hn, if_false, reduceCtorEq, false_and, exists_false, and_false, false_or,
        ne_eq, not_false_eq_true, true_and]
      cases file.references.find? (!·.isQualified) with
      | some reference => simp [@eq_comm _ error]
      | none => simp

/-- The outcome of a compilation. It succeeds exactly if the file passes the check, has a namespace
and all its fields are qualified. Otherwise the first violation is reported, or else the missing
namespace, or else the first reference that is not fully qualified. -/
theorem compile_outcome (compiler : Compiler) (file : File) :
    ((∃ output, compiler.compile file = .ok output) ↔
      file.check = .ok () ∧ file.targetNamespace ≠ "" ∧
        ∀ field, file.HasMember field ∨ file.HasExtension field → field.Qualified) ∧
    (∀ error, compiler.compile file = .error error ↔
      (∃ violation, file.check = .error violation ∧ error = .violation violation) ∨
      (file.check = .ok () ∧ file.targetNamespace = "" ∧ error = .missingNamespace file.name) ∨
      (file.check = .ok () ∧ file.targetNamespace ≠ "" ∧
        ∃ before reference behind, file.references = before ++ reference :: behind ∧
          (∀ earlier ∈ before, earlier.isQualified) ∧ reference.isQualified = false ∧
          error = .unqualifiedReference reference.text reference.context)) ∧
    ∀ other : Compiler,
      ((∃ output, compiler.compile file = .ok output) ↔
        ∃ output, other.compile file = .ok output) ∧
      ∀ error, compiler.compile file = .error error ↔ other.compile file = .error error := by
  refine ⟨?_, fun error => ?_, fun other => ⟨?_, fun error => ?_⟩⟩
  · rw [exists_compile_eq_ok_iff]
    exact and_congr_right fun hc => and_congr_right fun _ => File.forall_references_iff hc
  · rw [compile_eq_error_iff]
    simp only [List.find?_eq_some_iff_append, Bool.not_eq_true', Bool.not_not, Reference.error]
    refine or_congr_right (or_congr_right (and_congr_right fun _ => and_congr_right fun _ => ?_))
    constructor
    · rintro ⟨reference, ⟨hq, before, behind, hr, hb⟩, he⟩
      exact ⟨before, reference, behind, hr, hb, hq, he⟩
    · rintro ⟨before, reference, behind, hr, hb, hq, he⟩
      exact ⟨reference, ⟨hq, before, behind, hr, hb⟩, he⟩
  · rw [exists_compile_eq_ok_iff, exists_compile_eq_ok_iff]
  · rw [compile_eq_error_iff, compile_eq_error_iff]

/-- Two compilations fail with the same error, or both succeed with outputs that are related. -/
inductive SameOutcome (related : Output → Output → Prop) :
    Except CompileError Output → Except CompileError Output → Prop where
  | error (error : CompileError) : SameOutcome related (.error error) (.error error)
  | ok {first second : Output} : related first second →
      SameOutcome related (.ok first) (.ok second)

theorem SameOutcome.exists_ok {related : Output → Output → Prop}
    {first second : Except CompileError Output} {output : Output}
    (h : SameOutcome related first second) (hf : first = .ok output) :
    ∃ other, second = .ok other ∧ related output other := by
  cases h with
  | error error => cases hf
  | ok hr =>
    cases hf
    exact ⟨_, rfl, hr⟩

/-- Files with the same outcome of the check, the same namespace and the same references are
compiled with the same outcome, if their outputs are related where there are any. -/
theorem sameOutcome_compile {related : Output → Output → Prop} {compiler other : Compiler}
    {file second : File} (hn : file.name = second.name) (hc : file.check = second.check)
    (ht : file.targetNamespace = second.targetNamespace)
    (hr : file.references = second.references)
    (h : file.check = .ok () → related (compiler.outputOf file) (other.outputOf second)) :
    SameOutcome related (compiler.compile file) (other.compile second) := by
  rw [compile_eq, compile_eq, ← hc, ← ht, ← hr, ← hn]
  cases hk : file.check with
  | error violation => exact .error _
  | ok =>
    dsimp only
    split
    · exact .error _
    · cases file.references.find? (!·.isQualified) with
      | some reference => exact .error _
      | none => exact .ok (h hk)

theorem eq_outputOf_of_compile_eq_ok {compiler : Compiler} {output : Output}
    (h : compiler.compile file = .ok output) :
    file.targetNamespace ≠ "" ∧ output = compiler.outputOf file := by
  rw [compile_eq] at h
  cases hc : file.check with
  | error violation => simp [hc] at h
  | ok =>
    by_cases hn : file.targetNamespace = ""
    · simp [hc, hn] at h
    · refine ⟨hn, ?_⟩
      cases hr : file.references.find? (!·.isQualified) with
      | some reference => simp [hc, hn, hr] at h
      | none => simpa [hc, hn, hr, eq_comm] using h

theorem get?_packagesFor {compiler : Compiler} (hn : file.targetNamespace ≠ "") (package : String) :
    (compiler.packagesFor file).get? package =
      if package = Dotted.trim file.package ∧ package ≠ "" then some file.targetNamespace
      else compiler.packages.get? package := by
  rw [packagesFor, Packages.get?_trackFile]
  simp only [Packages.Binds, hn, ne_eq, not_false_eq_true, and_true]

/-- The warnings of a compilation. The package of the file is bound to its namespace, whatever the
compiler binds it to. References of the file that lie in no package and no namespace bound then are
reported in the order of their first occurrences. -/
theorem warnings_of_compile (compiler : Compiler) (file : File) (output : Output)
    (h : compiler.compile file = .ok output) :
    (∀ package, (compiler.packagesFor file).get? package =
      if package = Dotted.trim file.package ∧ package ≠ "" then some file.targetNamespace
      else compiler.packages.get? package) ∧
    output.warnings.map (fun warning => (warning.file, warning.message)) =
      (((file.references.map (Dotted.stripLeft ·.text)).filter fun name =>
          ¬ (compiler.packagesFor file).Tracks name).eraseDups).map
        fun name => (file.name, "Non tracked package name found \"" ++ name ++ "\"") := by
  obtain ⟨hn, rfl⟩ := eq_outputOf_of_compile_eq_ok h
  refine ⟨get?_packagesFor hn, ?_⟩
  rw [outputOf, List.map_map, Packages.untracked]
  rfl

/-- A file with references to its own package, to a namespace and to packages that no one tracks,
one of them in two spellings. -/
def strayingFile : File where
  name := "a.proto"
  package := ".a."
  messages := [
    { name := "M"
      fields := [
        { name := "x", number := 1, type := .message, typeName := some ".b.X" },
        { name := "y", number := 2, type := .message, typeName := some "..b.X" },
        { name := "m", number := 3, type := .message, typeName := some ".a.M" },
        { name := "n", number := 4, type := .message, typeName := some ".js.N" }] }]
  extensions := [
    { name := "z", number := 1, type := .enum, typeName := some ".b.X", extendee := some ".c.E" }]

theorem warnings_of_compile_strayingFile :
    ∃ output, ({ packages := ({} : Packages).track "d" "js" } : Compiler).compile strayingFile =
        .ok output ∧
      output.warnings.map (fun warning => (warning.file, warning.message)) =
        [("a.proto", "Non tracked package name found \"b.X\""),
          ("a.proto", "Non tracked package name found \"c.E\"")] := by
  obtain ⟨output, h⟩ := (exists_compile_eq_ok_iff
    { packages := ({} : Packages).track "d" "js" } strayingFile).mpr (by decide +kernel)
  refine ⟨output, h, ?_⟩
  rw [(warnings_of_compile _ strayingFile output h).2]
  decide +kernel

end Compiler

end ProtoScript
