import ProtoScript.Proofs.Outcome
import ProtoScript.Proofs.Statements

/-! # Assignments of a script

A script assigns the objects of its namespace from the root on, and then what its file declares, in
the order in which messages are visited. Nothing is assigned before the object that it is a member
of.
-/

namespace ProtoScript

open Dotted

inductive Assignment where
  | root (name : String)
  | scope (parent path : String)
  /-- A declaration in an object. That of an accessor is on the prototype of the object. -/
  | member (parent : String) (declaration : Declaration)
  deriving DecidableEq, Repr

namespace Assignment

def path : Assignment → String
  | .root name => name
  | .scope _ path => path
  | .member _ declaration => declaration.path

/-- The path of the object to which an assignment adds something. -/
def parent? : Assignment → Option String
  | .root _ => none
  | .scope parent _ => some parent
  | .member parent _ => some parent

def render (runtime : String) : Assignment → String
  | .root name => "var " ++ name ++ " = this." ++ name ++ " || \x7b\x7d;\n"
  | .scope _ path => path ++ " = " ++ path ++ " || \x7b\x7d;\n"
  | .member _ declaration => declaration.render runtime

theorem exists_render_eq (runtime : String) (assignment : Assignment) :
    ∃ lead value, assignment.render runtime = lead ++ (assignment.path ++ " = " ++ value) := by
  cases assignment with
  | root name =>
    refine ⟨"var ", "this." ++ name ++ " || \x7b\x7d;\n", ?_⟩
    change "var " ++ name ++ (" = " ++ "this.") ++ name ++ " || \x7b\x7d;\n" = _
    simp only [path, String.append_assoc, -String.reduceAppend]
  | scope parent path =>
    refine ⟨"", path ++ " || \x7b\x7d;\n", ?_⟩
    simp only [render, Assignment.path, String.append_assoc, String.empty_append]
  | member parent declaration =>
    refine ⟨declaration.comment runtime, declaration.value runtime ++ ";\n\n", ?_⟩
    rw [render, Declaration.render_eq_assignment]
    simp only [path, String.append_assoc]

/-- Every assignment stands behind one to its parent, unless the parent is known before. -/
def ParentsFirst (known : List String) : List Assignment → Prop
  | [] => True
  | assignment :: rest =>
    (∀ parent, assignment.parent? = some parent → parent ∈ known) ∧
      ParentsFirst (assignment.path :: known) rest

variable {known : List String} {assignments others : List Assignment}

theorem parentsFirst_append : ParentsFirst known (assignments ++ others) ↔
    ParentsFirst known assignments ∧
      ParentsFirst ((assignments.map path).reverse ++ known) others := by
  induction assignments generalizing known with
  | nil => simp [ParentsFirst]
  | cons assignment rest ih => simp [ParentsFirst, ih, and_assoc]

theorem parentsFirst_of_known
    (h : ∀ assignment ∈ assignments, ∀ parent, assignment.parent? = some parent →
      parent ∈ known) : ParentsFirst known assignments := by
  induction assignments generalizing known with
  | nil => trivial
  | cons assignment rest ih =>
    obtain ⟨ha, hr⟩ := List.forall_mem_cons.mp h
    refine ⟨ha, ih fun other ho parent hp => ?_⟩
    exact List.mem_cons_of_mem _ (hr other ho parent hp)

theorem ParentsFirst.exists_of_parent? {before behind : List Assignment} {assignment : Assignment}
    {parent : String} (h : ParentsFirst known (before ++ assignment :: behind))
    (hp : assignment.parent? = some parent) :
    parent ∈ known ∨ ∃ earlier ∈ before, earlier.path = parent := by
  have hm := (parentsFirst_append.mp h).2.1 parent hp
  rw [List.mem_append, List.mem_reverse, List.mem_map] at hm
  exact hm.symm

/-- The texts of the assignments stand in a text one behind the other. -/
inductive StandIn (runtime : String) : String → List Assignment → Prop where
  | nil (text : String) : StandIn runtime text []
  | cons (front : String) {assignment : Assignment} {back : String} {rest : List Assignment} :
      StandIn runtime back rest →
        StandIn runtime (front ++ assignment.render runtime ++ back) (assignment :: rest)

namespace StandIn

variable {runtime text : String} {before behind : List Assignment} {assignment : Assignment}

theorem append_text (h : StandIn runtime text assignments) (behind : String) :
    StandIn runtime (text ++ behind) assignments := by
  induction h with
  | nil text => exact .nil _
  | cons front _ ih =>
    rw [String.append_assoc]
    exact .cons front ih

theorem text_append (before : String) (h : StandIn runtime text assignments) :
    StandIn runtime (before ++ text) assignments := by
  cases h with
  | nil text => exact .nil _
  | cons front h =>
    rw [← String.append_assoc, ← String.append_assoc]
    exact .cons (before ++ front) h

theorem append {text' : String} (h : StandIn runtime text assignments)
    (h' : StandIn runtime text' others) :
    StandIn runtime (text ++ text') (assignments ++ others) := by
  induction h with
  | nil text => exact h'.text_append text
  | cons front _ ih =>
    rw [String.append_assoc]
    exact .cons front ih

theorem join (runtime : String) (assignments : List Assignment) :
    StandIn runtime (String.join (assignments.map (render runtime))) assignments := by
  induction assignments with
  | nil => exact .nil _
  | cons assignment rest ih =>
    rw [List.map_cons, String.join_cons]
    simpa using StandIn.cons "" ih

theorem exists_eq_append (h : StandIn runtime text (before ++ assignment :: behind)) :
    ∃ front back, text = front ++ assignment.render runtime ++ back ∧
      StandIn runtime front before := by
  induction before generalizing text with
  | nil =>
    obtain _ | @⟨front, _, back, _, _⟩ := h
    exact ⟨front, back, rfl, .nil _⟩
  | cons first rest ih =>
    obtain _ | @⟨front, _, back, _, hr⟩ := h
    obtain ⟨front', back', rfl, hf⟩ := ih hr
    refine ⟨front ++ first.render runtime ++ front', back', ?_, .cons front hf⟩
    simp only [String.append_assoc]

theorem contains (h : StandIn runtime text assignments) (ha : assignment ∈ assignments) :
    Text.Contains text (assignment.render runtime) := by
  obtain ⟨before, behind, rfl⟩ := List.append_of_mem ha
  obtain ⟨front, back, ht, _⟩ := h.exists_eq_append
  exact ⟨front, back, ht⟩

end StandIn

def ofScopes (scopes : List String) : List Assignment :=
  (scopes.zip scopes.tail).map fun s => .scope s.1 s.2

theorem map_path_ofScopes (scopes : List String) : (ofScopes scopes).map path = scopes.tail := by
  rw [ofScopes, List.map_map]
  exact List.map_snd_zip (by simp)

theorem parentsFirst_ofScopes {outer : String} {rest : List String} (h : outer ∈ known) :
    ParentsFirst known (ofScopes (outer :: rest)) := by
  induction rest generalizing outer known with
  | nil => trivial
  | cons inner rest ih =>
    refine ⟨fun parent hp => ?_, ih List.mem_cons_self⟩
    obtain rfl : outer = parent := Option.some.inj hp
    exact h

theorem map_render_ofScopes (runtime : String) (scopes : List String) :
    (ofScopes scopes).map (render runtime) =
      scopes.tail.map fun scope => scope ++ " = " ++ scope ++ " || \x7b\x7d;\n" := by
  rw [← map_path_ofScopes, ofScopes, List.map_map, List.map_map, List.map_map]
  rfl

def BelowParent (assignment : Assignment) : Prop :=
  ∀ parent, assignment.parent? = some parent → ∃ name, assignment.path = child parent name

theorem belowParent_member {parent : String} {declaration : Declaration}
    (h : ∃ name, declaration.path = child parent name) :
    (member parent declaration).BelowParent := by
  intro other ho
  obtain rfl : parent = other := Option.some.inj ho
  exact h

theorem belowParent_ofScopes {scopes : List String} {assignment : Assignment}
    (hc : scopes.IsChain (fun outer inner => ∃ part, '.' ∉ part.toList ∧ inner = child outer part))
    (h : assignment ∈ ofScopes scopes) : assignment.BelowParent := by
  induction scopes with
  | nil => simp [ofScopes] at h
  | cons outer rest ih =>
    cases rest with
    | nil => simp [ofScopes] at h
    | cons inner rest =>
      obtain ⟨⟨part, _, hp⟩, hc⟩ := List.isChain_cons_cons.mp hc
      rcases List.mem_cons.mp h with rfl | h
      · intro parent ho
        obtain rfl : outer = parent := Option.some.inj ho
        exact ⟨part, hp⟩
      · exact ih hc h

end Assignment

namespace Message

/-- The constructor of a message in a scope, and on the constructor the accessors of its fields and
its enumerations. -/
def members (packages : Packages) (scope : String) (message : Message) : List Assignment :=
  .member scope (.message scope message.name (message.table packages)) ::
    (message.fields.flatMap (Field.methodsIn packages)).map (fun accessor =>
      .member (child scope message.name) (.accessor (child scope message.name) accessor)) ++
    message.enums.map fun enum =>
      .member (child scope message.name) (enum.declare (child scope message.name))

/-- What is assigned for messages in a scope: for each of them its members, then what is assigned
for the messages in it. -/
def assignments (packages : Packages) (scope : String) (messages : List Message) :
    List Assignment :=
  visitAll (fun scope message => message.members packages scope) (fun _ _ => []) scope messages

theorem map_render_members (runtime : String) (packages : Packages) (scope : String)
    (message : Message) :
    (message.members packages scope).map (Assignment.render runtime) =
      (message.own packages scope).map (Declaration.render runtime) := by
  simp [members, own, Assignment.render, Function.comp_def]

theorem map_render_assignments (runtime : String) (packages : Packages) (scope : String)
    (messages : List Message) :
    (assignments packages scope messages).map (Assignment.render runtime) =
      (declarations packages scope messages).map (Declaration.render runtime) := by
  rw [assignments, visitAll_eq_flatMap_preorder, declarations, List.map_flatMap, List.map_flatMap]
  simp only [map_render_members]

theorem parentsFirst_members {packages : Packages} {scope : String} {known : List String}
    (h : scope ∈ known) (message : Message) :
    Assignment.ParentsFirst known (message.members packages scope) := by
  refine ⟨fun parent hp => ?_, Assignment.parentsFirst_of_known fun assignment ha parent hp => ?_⟩
  · obtain rfl : scope = parent := Option.some.inj hp
    exact h
  · have hc : child scope message.name = parent := by
      rcases List.mem_append.mp ha with ha | ha
      · obtain ⟨accessor, _, rfl⟩ := List.mem_map.mp ha
        exact Option.some.inj hp
      · obtain ⟨enum, _, rfl⟩ := List.mem_map.mp ha
        exact Option.some.inj hp
    rw [← hc]
    exact List.mem_cons_self

theorem child_mem_map_path_members (packages : Packages) (scope : String) (message : Message) :
    child scope message.name ∈ (message.members packages scope).map Assignment.path :=
  List.mem_cons_self

theorem parentsFirst_assignments {packages : Packages} {scope : String} {known : List String}
    (h : scope ∈ known) (messages : List Message) :
    Assignment.ParentsFirst known (assignments packages scope messages) := by
  induction messages using forest_induction generalizing scope known with
  | nil => trivial
  | cons message rest ih ih' =>
    rw [assignments, visitAll_cons, List.append_nil, Assignment.parentsFirst_append,
      Assignment.parentsFirst_append]
    refine ⟨⟨parentsFirst_members h message, ih ?_⟩, ih' ?_⟩
    · exact List.mem_append_left _
        (List.mem_reverse.mpr (child_mem_map_path_members packages scope message))
    · exact List.mem_append_right _ h

theorem belowParent_members {packages : Packages} {scope : String} {message : Message}
    {assignment : Assignment} (h : assignment ∈ message.members packages scope) :
    assignment.BelowParent := by
  rcases List.mem_append.mp h with h | h
  · rcases List.mem_cons.mp h with rfl | h
    · exact Assignment.belowParent_member ⟨message.name, rfl⟩
    · obtain ⟨accessor, _, rfl⟩ := List.mem_map.mp h
      refine Assignment.belowParent_member ⟨"prototype." ++ accessor.method, ?_⟩
      change child scope message.name ++ ("." ++ "prototype.") ++ accessor.method = _
      simp only [child, String.append_assoc, -String.reduceAppend]
  · obtain ⟨enum, _, rfl⟩ := List.mem_map.mp h
    exact Assignment.belowParent_member ⟨enum.name, rfl⟩

theorem belowParent_assignments {packages : Packages} {scope : String} {messages : List Message}
    {assignment : Assignment} (h : assignment ∈ assignments packages scope messages) :
    assignment.BelowParent := by
  obtain ⟨names, message, _, hm | hm⟩ := mem_visitAll.mp h
  · exact belowParent_members hm
  · simp at hm

end Message

namespace File

def members (packages : Packages) (file : File) : List Assignment :=
  file.enums.map (fun enum =>
    .member file.targetNamespace (enum.declare file.targetNamespace)) ++
    Message.assignments packages file.targetNamespace file.messages

def assignments (packages : Packages) (file : File) : List Assignment :=
  .root (root file.targetNamespace) ::
    (Assignment.ofScopes (scopes file.targetNamespace) ++ file.members packages)

theorem renderAll_declarations (runtime : String) (packages : Packages) (file : File) :
    Declaration.renderAll runtime (file.declarations packages) =
      String.join ((file.members packages).map (Assignment.render runtime)) := by
  rw [Declaration.renderAll, declarations, members, List.map_append, List.map_append,
    Message.map_render_assignments, List.map_map, List.map_map]
  rfl

theorem parentsFirst_members {known : List String} (packages : Packages) (file : File)
    (h : file.targetNamespace ∈ known) :
    Assignment.ParentsFirst known (file.members packages) := by
  rw [members, Assignment.parentsFirst_append]
  constructor
  · refine Assignment.parentsFirst_of_known fun assignment ha parent hp => ?_
    obtain ⟨enum, _, rfl⟩ := List.mem_map.mp ha
    obtain rfl : file.targetNamespace = parent := Option.some.inj hp
    exact h
  · exact Message.parentsFirst_assignments (List.mem_append_right _ h) file.messages

theorem parentsFirst_assignments (packages : Packages) (file : File) :
    Assignment.ParentsFirst [] (file.assignments packages) := by
  obtain ⟨rest, hs⟩ := List.head?_eq_some_iff.mp (head?_scopes file.targetNamespace)
  refine ⟨fun parent hp => by simp [Assignment.parent?] at hp, ?_⟩
  rw [Assignment.parentsFirst_append, hs, Assignment.map_path_ofScopes]
  refine ⟨Assignment.parentsFirst_ofScopes List.mem_cons_self, parentsFirst_members _ _ ?_⟩
  have hn : file.targetNamespace ∈ root file.targetNamespace :: rest :=
    hs ▸ mem_scopes.mpr (.inl rfl)
  simpa [Assignment.path, or_comm] using hn

theorem belowParent_of_mem_assignments {packages : Packages} {file : File}
    {assignment : Assignment} (h : assignment ∈ file.assignments packages) :
    assignment.BelowParent := by
  rcases List.mem_cons.mp h with rfl | h
  · intro parent hp
    simp [Assignment.parent?] at hp
  · rcases List.mem_append.mp h with h | h
    · exact Assignment.belowParent_ofScopes (isChain_scopesFrom _ _) h
    · rcases List.mem_append.mp h with h | h
      · obtain ⟨enum, _, rfl⟩ := List.mem_map.mp h
        exact Assignment.belowParent_member ⟨enum.name, rfl⟩
      · exact Message.belowParent_assignments h

end File

namespace Script

def shim (script : Script) : String :=
  "var " ++ script.runtime ++ " = this." ++ script.runtime ++ ";\n\n" ++
    "// Make it CommonJS compatible\nif (typeof exports !== 'undefined') \x7b\n" ++
    "  if (!" ++ script.runtime ++ " && typeof require !== 'undefined')\n" ++
    "    " ++ script.runtime ++ " = require('" ++ script.runtimeModule ++ "');\n" ++
    "  " ++ root script.target ++ " = exports;\n\x7d else \x7b\n" ++
    "  this." ++ root script.target ++ " = " ++ root script.target ++ ";\n\x7d\n"

theorem opening_eq (script : Script) :
    script.opening = "(function()\x7b\n/** @namespace */\n" ++
      (Assignment.root (root script.target)).render script.runtime ++ script.shim := by
  unfold opening shim
  simp only [Assignment.render, String.append_assoc, -String.reduceAppend]

theorem heading_eq (script : Script) :
    script.heading = script.banner ++ "(function()\x7b\n/** @namespace */\n" ++
      (Assignment.root (root script.target)).render script.runtime ++ script.shim ++
      String.join ((Assignment.ofScopes (Dotted.scopes script.target)).map
        (Assignment.render script.runtime)) ++ "\n" := by
  rw [heading, Script.scopes, Assignment.map_render_ofScopes, opening_eq]
  simp only [String.append_assoc]

end Script

namespace Compiler

theorem render_scriptOf (compiler : Compiler) (file : File) :
    (compiler.scriptOf file).render = (compiler.scriptOf file).heading ++
      String.join ((file.members (compiler.packagesFor file)).map
        (Assignment.render compiler.config.runtime)) ++
      Registration.renderAll compiler.config.runtime
        (file.registrations (compiler.packagesFor file)) ++ "\x7d)();\n" := by
  rw [← File.renderAll_declarations]
  rfl

theorem heading_scriptOf (compiler : Compiler) (file : File) :
    (compiler.scriptOf file).heading = (compiler.scriptOf file).banner ++
      "(function()\x7b\n/** @namespace */\n" ++
      (Assignment.root (root file.targetNamespace)).render compiler.config.runtime ++
      (compiler.scriptOf file).shim ++
      String.join ((Assignment.ofScopes (scopes file.targetNamespace)).map
        (Assignment.render compiler.config.runtime)) ++ "\n" :=
  Script.heading_eq _

theorem standIn_render_scriptOf (compiler : Compiler) (file : File) :
    Assignment.StandIn compiler.config.runtime (compiler.scriptOf file).render
      (file.assignments (compiler.packagesFor file)) := by
  have hs := (Assignment.StandIn.join compiler.config.runtime
    (Assignment.ofScopes (scopes file.targetNamespace))).append_text "\n"
  have hm := (Assignment.StandIn.join compiler.config.runtime
    (file.members (compiler.packagesFor file))).append_text
      (Registration.renderAll compiler.config.runtime
        (file.registrations (compiler.packagesFor file)) ++ "\x7d)();\n")
  have hr := (hs.append hm).text_append (compiler.scriptOf file).shim
  rw [render_scriptOf, heading_scriptOf, File.assignments]
  simpa only [String.append_assoc] using Assignment.StandIn.cons
    ((compiler.scriptOf file).banner ++ "(function()\x7b\n/** @namespace */\n") hr

/-- The script of a compiled file assigns the root of its namespace and the objects below it, one
part at a time, and then what the file declares: its enumerations and its messages, each message
before its accessors, its enumerations and the messages in it. Behind that stand only registrations.
Everything but the root is a member of some object, and in front of it the script assigns that
object. -/
theorem declarations_assigned_in_preorder (compiler : Compiler) (file : File) (output : Output)
    (h : compiler.compile file = .ok output) :
    ∃ content prologue, output.files.map (·.content) = [content] ∧
      content = prologue ++
        String.join ((file.members (compiler.packagesFor file)).map
          (Assignment.render compiler.config.runtime)) ++
        Registration.renderAll compiler.config.runtime
          (file.registrations (compiler.packagesFor file)) ++ "\x7d)();\n" ∧
      prologue = (compiler.scriptOf file).banner ++ "(function()\x7b\n/** @namespace */\n" ++
        (Assignment.root (root file.targetNamespace)).render compiler.config.runtime ++
        (compiler.scriptOf file).shim ++
        String.join ((Assignment.ofScopes (scopes file.targetNamespace)).map
          (Assignment.render compiler.config.runtime)) ++ "\n" ∧
      (scopes file.targetNamespace).head? = some (root file.targetNamespace) ∧
      (∀ path, path ∈ scopes file.targetNamespace ↔ Within path file.targetNamespace) ∧
      (scopes file.targetNamespace).IsChain
        (fun outer inner => ∃ part, '.' ∉ part.toList ∧ inner = child outer part) ∧
      (∀ assignment ∈ file.assignments (compiler.packagesFor file), ∃ lead value,
        assignment.render compiler.config.runtime =
          lead ++ (assignment.path ++ " = " ++ value)) ∧
      (∀ parent declaration, .member parent declaration ∈ file.members (compiler.packagesFor file) →
        declaration.Writes compiler.config.runtime
          ((Assignment.member parent declaration).render compiler.config.runtime)) ∧
      ∀ before assignment behind parent,
        file.assignments (compiler.packagesFor file) = before ++ assignment :: behind →
        assignment.parent? = some parent →
          (∃ name, assignment.path = child parent name) ∧
          ∃ earlier ∈ before, earlier.path = parent ∧
            ∃ front back,
              content = front ++ assignment.render compiler.config.runtime ++ back ∧
              Text.Contains front (earlier.render compiler.config.runtime) := by
  obtain ⟨_, rfl⟩ := eq_outputOf_of_compile_eq_ok h
  refine ⟨_, _, rfl, render_scriptOf compiler file, heading_scriptOf compiler file, head?_scopes _,
    fun path => mem_scopes, isChain_scopesFrom _ _,
    fun assignment _ => assignment.exists_render_eq _,
    fun _ declaration _ => declaration.writes_render _, ?_⟩
  intro before assignment behind parent hs hp
  have hm : assignment ∈ file.assignments (compiler.packagesFor file) := by
    rw [hs]
    exact List.mem_append_right _ List.mem_cons_self
  have hf := File.parentsFirst_assignments (compiler.packagesFor file) file
  have ht := standIn_render_scriptOf compiler file
  rw [hs] at hf ht
  obtain ⟨earlier, he, hpath⟩ := (hf.exists_of_parent? hp).resolve_left List.not_mem_nil
  obtain ⟨front, back, hc, hb⟩ := ht.exists_eq_append
  exact ⟨File.belowParent_of_mem_assignments hm parent hp, earlier, he, hpath, front, back, hc,
    hb.contains he⟩

def nestingFile : File where
  name := "b.proto"
  package := ".a.b"
  enums := [{ name := "E", values := [⟨"X", 0⟩] }]
  messages := [
    { name := "M"
      fields := [{ name := "x", number := 1, type := .bool }]
      enums := [{ name := "K" }]
      messages := [{ name := "N" }] }]

theorem declarations_assigned_in_preorder_nestingFile :
    (nestingFile.assignments (({} : Compiler).packagesFor nestingFile)).map Assignment.path =
      ["a", "a.b", "a.b.E", "a.b.M", "a.b.M.prototype.hasX", "a.b.M.prototype.getX",
        "a.b.M.prototype.setX", "a.b.M.prototype.clearX", "a.b.M.K", "a.b.M.N"] ∧
    ∃ output content, ({} : Compiler).compile nestingFile = .ok output ∧
      output.files.map (·.content) = [content] ∧
      ∃ front back comment lead value,
        content = front ++ (comment ++ ("a.b.M.N = ProtoJson.create(\x7b\n  fields: \x7b\n" ++
          "  \x7d,\n  ranges: [\n  ]\n\x7d);\n\n")) ++ back ∧
        Text.Contains front (lead ++ ("a.b.M" ++ " = " ++ value)) := by
  obtain ⟨output, h⟩ := (exists_compile_eq_ok_iff {} nestingFile).mpr (by decide +kernel)
  obtain ⟨content, _, hf, _, _, _, _, _, hr, hw, hp⟩ :=
    declarations_assigned_in_preorder {} nestingFile output h
  have hs : nestingFile.assignments (({} : Compiler).packagesFor nestingFile) =
      (nestingFile.assignments (({} : Compiler).packagesFor nestingFile)).dropLast ++
        [.member "a.b.M" (.message "a.b.M" "N" [])] := by
    decide +kernel
  obtain ⟨_, earlier, he, hpath, front, back, hc, ht⟩ := hp _ _ [] "a.b.M" hs rfl
  obtain ⟨lead, value, hl⟩ := hr earlier (hs ▸ List.mem_append_left _ he)
  obtain ⟨comment, hn⟩ := hw "a.b.M" (.message "a.b.M" "N" []) (by decide +kernel)
  rw [hn] at hc
  refine ⟨by decide +kernel, output, content, h, hf, front, back, comment, lead, value, hc, ?_⟩
  rw [← hpath, ← hl]
  exact ht

end Compiler

end ProtoScript
