import ProtoScript.Proofs.Outcome
import ProtoScript.Proofs.Statements

/-! # Registrations behind declarations

The extensions of a file are registered behind all that the file declares, each of them once. What
stands in front of the registrations is the script that the file has without its extensions.
-/

namespace ProtoScript

namespace Message

mutual

/-- A message without the extensions that it and the messages in it declare. -/
def withoutExtensions : Message → Message
  | ⟨name, fields, messages, enums, _⟩ =>
    ⟨name, fields, withoutExtensionsAll messages, enums, []⟩

def withoutExtensionsAll : List Message → List Message
  | [] => []
  | message :: rest => message.withoutExtensions :: withoutExtensionsAll rest

end

section

variable (message : Message)

@[simp] theorem name_withoutExtensions : message.withoutExtensions.name = message.name := by
  cases message
  rfl

@[simp] theorem fields_withoutExtensions : message.withoutExtensions.fields = message.fields := by
  cases message
  rfl

@[simp] theorem enums_withoutExtensions : message.withoutExtensions.enums = message.enums := by
  cases message
  rfl

@[simp] theorem messages_withoutExtensions :
    message.withoutExtensions.messages = withoutExtensionsAll message.messages := by
  cases message
  rfl

@[simp] theorem extensions_withoutExtensions : message.withoutExtensions.extensions = [] := by
  cases message
  rfl

end

theorem preorder_withoutExtensionsAll (scope : String) (messages : List Message) :
    preorder scope (withoutExtensionsAll messages) =
      (preorder scope messages).map fun m => (m.1, m.2.withoutExtensions) := by
  induction messages using forest_induction generalizing scope with
  | nil => rfl
  | cons message rest ih ih' =>
    simp only [preorder] at ih ih'
    simp [preorder, withoutExtensionsAll, ih, ih']

@[simp] theorem declarations_withoutExtensionsAll (packages : Packages) (scope : String)
    (messages : List Message) :
    declarations packages scope (withoutExtensionsAll messages) =
      declarations packages scope messages := by
  have ho : ∀ scope (message : Message),
      message.withoutExtensions.own packages scope = message.own packages scope := by
    intro scope message
    simp [own, table]
  rw [declarations, declarations, preorder_withoutExtensionsAll, List.flatMap_map]
  simp only [ho]

@[simp] theorem references_withoutExtensionsAll (scope : String) (messages : List Message) :
    references scope (withoutExtensionsAll messages) = references scope messages := by
  rw [references, references, preorder_withoutExtensionsAll, List.flatMap_map]
  simp only [fields_withoutExtensions]

@[simp] theorem collected_withoutExtensionsAll (scope : String) (messages : List Message) :
    collected scope (withoutExtensionsAll messages) = [] := by
  induction messages using forest_induction generalizing scope with
  | nil => rfl
  | cons message rest ih ih' =>
    simp only [collected] at ih ih'
    simp [collected, withoutExtensionsAll, ownExtensions, ih, ih']

theorem Valid.withoutExtensions {path : String} {message : Message} (h : Valid path message) :
    Valid path message.withoutExtensions where
  fields := by
    rw [fields_withoutExtensions]
    exact h.fields
  enums := by
    rw [enums_withoutExtensions]
    exact h.enums
  extensions := by simp

theorem checkAll_withoutExtensionsAll {scope : String} {messages : List Message}
    (h : checkAll scope messages = .ok ()) :
    checkAll scope (withoutExtensionsAll messages) = .ok () := by
  induction messages using forest_induction generalizing scope with
  | nil => rfl
  | cons message rest ih ih' =>
    obtain ⟨hv, hm, hr⟩ := checkAll_cons_eq_ok_iff.mp h
    rw [withoutExtensionsAll, checkAll_cons_eq_ok_iff, name_withoutExtensions,
      messages_withoutExtensions]
    exact ⟨hv.withoutExtensions, ih hm, ih' hr⟩

end Message

namespace File

def withoutExtensions (file : File) : File :=
  { file with messages := Message.withoutExtensionsAll file.messages, extensions := [] }

variable {file : File}

theorem declarations_withoutExtensions (packages : Packages) (file : File) :
    file.withoutExtensions.declarations packages = file.declarations packages := by
  simp only [declarations, withoutExtensions, Message.declarations_withoutExtensionsAll]
  rfl

theorem registered_withoutExtensions (file : File) : file.withoutExtensions.registered = [] := by
  simp only [registered, collected, withoutExtensions, Message.collected_withoutExtensionsAll]
  rfl

theorem references_withoutExtensions (file : File) :
    file.withoutExtensions.references =
      Message.references file.targetNamespace file.messages := by
  rw [references, registered_withoutExtensions, List.flatMap_nil, List.append_nil]
  exact Message.references_withoutExtensionsAll _ _

theorem check_withoutExtensions (h : file.check = .ok ()) :
    file.withoutExtensions.check = .ok () := by
  obtain ⟨he, hm, _⟩ := check_eq_ok_iff.mp h
  refine check_eq_ok_iff.mpr ⟨he, Message.checkAll_withoutExtensionsAll hm, ?_⟩
  simp [withoutExtensions]

end File

theorem Script.render_of_registrations_nil (script : Script) (h : script.registrations = []) :
    script.render = script.heading ++ Declaration.renderAll script.runtime script.declarations ++
      "\x7d)();\n" := by
  rw [Script.render, h, Registration.renderAll, List.map_nil, String.join_nil, String.append_empty]
  rfl

namespace Compiler

variable {compiler : Compiler} {file : File} {output : Output}

theorem scriptOf_withoutExtensions (compiler : Compiler) (file : File) :
    compiler.scriptOf file.withoutExtensions =
      { compiler.scriptOf file with registrations := [] } := by
  have hd := File.declarations_withoutExtensions (compiler.packagesFor file) file
  have hr : file.withoutExtensions.registrations (compiler.packagesFor file) = [] := by
    rw [File.registrations, File.registered_withoutExtensions, List.map_nil]
  simp only [scriptOf, ← hd, ← hr]
  rfl

theorem compile_withoutExtensions (h : compiler.compile file = .ok output) :
    compiler.compile file.withoutExtensions = .ok (compiler.outputOf file.withoutExtensions) := by
  obtain ⟨hc, hn, hq⟩ := (exists_compile_eq_ok_iff compiler file).mp ⟨output, h⟩
  obtain ⟨other, ho⟩ := (exists_compile_eq_ok_iff compiler file.withoutExtensions).mpr <| by
    refine ⟨File.check_withoutExtensions hc, hn, fun reference hr => hq reference ?_⟩
    rw [File.references_withoutExtensions] at hr
    exact List.mem_append_left _ hr
  rw [ho, (eq_outputOf_of_compile_eq_ok ho).2]

/-- The extensions of a compiled file are registered without an error, whatever was built before. -/
theorem runFrom_mapM_register (h : compiler.compile file = .ok output) (progress : Progress) :
    ((file.registered.mapM (Extension.register (compiler.packagesFor file))).runFrom
      progress).1 = .ok (file.registrations (compiler.packagesFor file)) := by
  obtain ⟨_, _, hq⟩ := (exists_compile_eq_ok_iff compiler file).mp ⟨output, h⟩
  have hf : (file.registered.flatMap Extension.references).find? (!·.isQualified) = none := by
    refine List.find?_eq_none.mpr fun reference hr => ?_
    simpa using hq reference (List.mem_append_right _ hr)
  rw [Extension.mapM_register_eq_yield, Build.runFrom_yield, Event.findSome?_failure?,
    Event.references_map_resolve, hf]
  rfl

/-- The extensions of a file are registered at the end of its script, each of them once. Those of
one message stand together, in the order in which they are collected, and the messages stand in the
order in which they are extended first. In front of the registrations stands the whole script of the
file without extensions. -/
theorem extensions_registered_in_groups (compiler : Compiler) (file : File) (output : Output)
    (h : compiler.compile file = .ok output) :
    ∃ content before registrations, output.files.map (·.content) = [content] ∧
      content = before ++ Registration.renderAll compiler.config.runtime registrations ++
        "\x7d)();\n" ∧
      (∀ progress, ((file.registered.mapM (Extension.register (compiler.packagesFor file))).runFrom
        progress).1 = .ok registrations) ∧
      file.registered.Perm file.collected ∧
      (∀ extension ∈ file.collected, ∃ earlier later,
        file.registered =
          earlier ++ file.collected.filter (·.target = extension.target) ++ later ∧
        ∀ other, other ∈ earlier ∨ other ∈ later → other.target ≠ extension.target) ∧
      (file.registered.map (·.target)).eraseDups = (file.collected.map (·.target)).eraseDups ∧
      before = (compiler.scriptOf file).heading ++ Declaration.renderAll compiler.config.runtime
        (file.declarations (compiler.packagesFor file)) ∧
      ∃ other, compiler.compile file.withoutExtensions = .ok other ∧
        other.files.map (·.content) = [before ++ "\x7d)();\n"] := by
  obtain ⟨_, rfl⟩ := eq_outputOf_of_compile_eq_ok h
  refine ⟨_, _, _, rfl, rfl, runFrom_mapM_register h, Extensions.grouped_perm _,
    fun extension he => Extensions.exists_grouped_eq he,
    Extensions.eraseDups_map_target_grouped _, rfl, _, compile_withoutExtensions h, ?_⟩
  rw [outputOf, scriptOf_withoutExtensions, List.map_cons, List.map_nil,
    Script.render_of_registrations_nil _ rfl]
  rfl

def extendingFile : File where
  name := "a.proto"
  package := "a"
  messages := [
    { name := "M"
      messages := [
        { name := "N"
          extensions := [
            { name := "x", number := 1, type := .bool, extendee := some ".a.N" }] }]
      extensions := [
        { name := "y", number := 2, type := .message, typeName := some ".a.M.N",
          extendee := some ".a.M" }] }]
  extensions := [{ name := "z", number := 3, type := .int32, extendee := some ".a.N" }]

theorem extensions_registered_in_groups_extendingFile :
    ∃ output content before, ({} : Compiler).compile extendingFile = .ok output ∧
      output.files.map (·.content) = [content] ∧
      content = before ++
        ("ProtoJson.extend(a.N, \x7b\n  1: ['a.M.N.x', 1, 8, null, null, \x7b\x7d]\n\x7d);\n\n" ++
        "ProtoJson.extend(a.N, \x7b\n  3: ['a.z', 1, 5, null, null, \x7b\x7d]\n\x7d);\n\n" ++
        "ProtoJson.extend(a.M, \x7b\n  2: ['a.M.y', 1, 11, 'a.M.N', null, \x7b\x7d]\n\x7d);\n\n") ++
        "\x7d)();\n" ∧
      ∃ other, ({} : Compiler).compile extendingFile.withoutExtensions = .ok other ∧
        other.files.map (·.content) = [before ++ "\x7d)();\n"] := by
  obtain ⟨output, h⟩ := (exists_compile_eq_ok_iff {} extendingFile).mpr (by decide +kernel)
  obtain ⟨content, before, registrations, hf, hc, hr, _, _, _, _, ho⟩ :=
    extensions_registered_in_groups {} extendingFile output h
  have he : registrations =
      extendingFile.registrations (({} : Compiler).packagesFor extendingFile) :=
    Except.ok.inj ((hr {}).symm.trans (runFrom_mapM_register h {}))
  refine ⟨output, content, before, h, hf, ?_, ho⟩
  rw [hc, he]
  refine congrArg (fun text => before ++ text ++ _) ?_
  decide +kernel

end Compiler

end ProtoScript
