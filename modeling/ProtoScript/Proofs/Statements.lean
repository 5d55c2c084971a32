import Mathlib.Data.List.TakeDrop
import ProtoScript.Script

/-! # Statements of a script

Between its opening and its end a script is a sequence of statements, which are declarations and
registrations. A declaration assigns to its path. Statements stand in the text of the script as
they stand in the sequence.
-/

namespace ProtoScript

namespace Text

def Contains (text part : String) : Prop := ∃ before behind, text = before ++ part ++ behind

variable {text part inner : String}

theorem Contains.trans (h : Contains text part) (h' : Contains part inner) :
    Contains text inner := by
  obtain ⟨before, behind, rfl⟩ := h
  obtain ⟨before', behind', rfl⟩ := h'
  exact ⟨before ++ before', behind' ++ behind, by simp only [String.append_assoc]⟩

theorem Contains.refl (text : String) : Contains text text := ⟨"", "", by simp⟩

theorem Contains.append_left (h : Contains text part) (behind : String) :
    Contains (text ++ behind) part :=
  Contains.trans ⟨"", behind, by simp⟩ h

theorem Contains.append_right (h : Contains text part) (before : String) :
    Contains (before ++ text) part :=
  Contains.trans ⟨before, "", by simp⟩ h

theorem contains_intercalate {separator line : String} {lines : List String} (h : line ∈ lines) :
    Contains (separator.intercalate lines) line := by
  induction lines with
  | nil => simp at h
  | cons first rest ih =>
    cases rest with
    | nil =>
      obtain rfl := List.mem_singleton.mp h
      rw [String.intercalate_singleton]
      exact .refl line
    | cons second rest =>
      rw [String.intercalate_cons_cons]
      rcases List.mem_cons.mp h with rfl | h
      · exact ((Contains.refl line).append_left _).append_left _
      · exact (ih h).append_right _

theorem contains_join {text : String} {texts : List String} (h : text ∈ texts) :
    Contains (String.join texts) text := by
  obtain ⟨before, behind, rfl⟩ := List.append_of_mem h
  exact ⟨String.join before, String.join behind, by simp [String.append_assoc]⟩

/-- A text assigns a function to a method on the prototype of a message, behind a comment. -/
def AssignsMethod (text owner method : String) : Prop :=
  ∃ comment parameter value, text = comment ++ (owner ++ ".prototype." ++ method ++
    " = function(" ++ parameter ++ ")\x7b\n" ++ "  return " ++ value ++ ";\n\x7d;\n\n")

end Text

/-- The literal of a field with a named type holds the name between quotes and the default value. -/
theorem Metadata.render_of_reference {m : Metadata} {path : String}
    (h : m.reference = some path) :
    m.render = "['" ++ m.name ++ "', " ++ Decimal.ofInt m.label.code ++ ", " ++
      Decimal.ofInt m.type.code ++ ", '" ++ path ++ "', " ++ m.default ++ ", \x7b\x7d]" := by
  obtain ⟨name, label, type, _, default⟩ := m
  obtain rfl : _ = some path := h
  change "['" ++ name ++ "', " ++ Decimal.ofInt label.code ++ ", " ++ Decimal.ofInt type.code ++
      ", " ++ ("'" ++ path ++ "'") ++ ", " ++ default ++ ", \x7b\x7d]" =
    "['" ++ name ++ "', " ++ Decimal.ofInt label.code ++ ", " ++ Decimal.ofInt type.code ++
      (", " ++ "'") ++ path ++ ("'" ++ ", ") ++ default ++ ", \x7b\x7d]"
  simp only [String.append_assoc, -String.reduceAppend]

theorem Accessor.assignsMethod_render (owner : String) (a : Accessor) :
    Text.AssignsMethod (a.render owner) owner a.method := by
  refine ⟨"/**\n * " ++ a.kind.summary a.name ++ "\n" ++
    renderParameter (a.kind.parameter? a.type) ++
    " * @return \x7b" ++ a.kind.result a.type owner ++ "\x7d\n */\n",
    ((a.kind.parameter? a.type).map (·.2)).getD "", a.call, ?_⟩
  unfold render
  simp only [String.append_assoc]

namespace Declaration

def comment (runtime : String) : Declaration → String
  | .enum _ _ => ""
  | .message scope _ _ =>
    "/**\n * @constructor\n" ++
      " * @augments \x7b" ++ runtime ++ ".Message\x7d\n" ++
      " * @extends " ++ runtime ++ ".Message\n" ++
      " * @memberOf " ++ scope ++ "\n" ++
      " * @param \x7bobject\x7d data - Optional, provide initial data to parse\n */\n"
  | .accessor owner a =>
    "/**\n * " ++ a.kind.summary a.name ++ "\n" ++
      Accessor.renderParameter (a.kind.parameter? a.type) ++
      " * @return \x7b" ++ a.kind.result a.type owner ++ "\x7d\n */\n"

def value (runtime : String) : Declaration → String
  | .enum _ values => "\x7b\n" ++ commaLines (values.map renderValue) ++ "\x7d"
  | .message _ _ table =>
    runtime ++ ".create(\x7b\n  fields: \x7b\n" ++ commaLines (table.map renderEntry) ++
      "  \x7d,\n  ranges: [\n  ]\n\x7d)"
  | .accessor _ a =>
    "function(" ++ ((a.kind.parameter? a.type).map (·.2)).getD "" ++ ")\x7b\n" ++
      "  return " ++ a.call ++ ";\n\x7d"

/-- A declaration is a comment and an assignment to its path. -/
theorem render_eq_assignment (runtime : String) (declaration : Declaration) :
    declaration.render runtime = declaration.comment runtime ++
      (declaration.path ++ " = " ++ declaration.value runtime ++ ";\n\n") := by
  cases declaration with
  | enum path values =>
    change path ++ (" = " ++ "\x7b\n") ++ commaLines (values.map renderValue) ++
        ("\x7d" ++ ";\n\n") =
      "" ++ (path ++ " = " ++ ("\x7b\n" ++ commaLines (values.map renderValue) ++ "\x7d") ++
        ";\n\n")
    simp only [String.append_assoc, String.empty_append, -String.reduceAppend]
  | message scope name table =>
    change comment runtime (.message scope name table) ++ Dotted.child scope name ++ " = " ++
        runtime ++ ".create(\x7b\n  fields: \x7b\n" ++ commaLines (table.map renderEntry) ++
        ("  \x7d,\n  ranges: [\n  ]\n\x7d)" ++ ";\n\n") =
      comment runtime (.message scope name table) ++ (Dotted.child scope name ++ " = " ++
        (runtime ++ ".create(\x7b\n  fields: \x7b\n" ++ commaLines (table.map renderEntry) ++
        "  \x7d,\n  ranges: [\n  ]\n\x7d)") ++ ";\n\n")
    simp only [String.append_assoc, -String.reduceAppend]
  | accessor owner a =>
    change comment runtime (.accessor owner a) ++ owner ++ ".prototype." ++ a.method ++
        (" = " ++ "function(") ++ ((a.kind.parameter? a.type).map (·.2)).getD "" ++ ")\x7b\n" ++
        "  return " ++ a.call ++ (";\n\x7d" ++ ";\n\n") =
      comment runtime (.accessor owner a) ++ (owner ++ ".prototype." ++ a.method ++ " = " ++
        ("function(" ++ ((a.kind.parameter? a.type).map (·.2)).getD "" ++ ")\x7b\n" ++
        "  return " ++ a.call ++ ";\n\x7d") ++ ";\n\n")
    simp only [String.append_assoc, -String.reduceAppend]

/-- A text is that of a declaration: it assigns a call of the run-time library to the path of a
message, a function to the method of an accessor, and an object to the path of an enumeration. -/
def Writes (runtime text : String) : Declaration → Prop
  | .message scope name table => ∃ comment, text = comment ++ (Dotted.child scope name ++ " = " ++
      runtime ++ ".create(\x7b\n  fields: \x7b\n" ++ commaLines (table.map renderEntry) ++
      "  \x7d,\n  ranges: [\n  ]\n\x7d);\n\n")
  | .accessor owner a => Text.AssignsMethod text owner a.method
  | .enum path values => text =
      path ++ " = \x7b\n" ++ commaLines (values.map renderValue) ++ "\x7d;\n\n"

theorem writes_render (runtime : String) (declaration : Declaration) :
    declaration.Writes runtime (declaration.render runtime) := by
  cases declaration with
  | message scope name table =>
    refine ⟨comment runtime (.message scope name table), ?_⟩
    unfold render comment
    simp only [String.append_assoc, -String.reduceAppend]
  | accessor owner a =>
    unfold render
    exact a.assignsMethod_render owner
  | enum path values =>
    unfold render
    exact rfl

theorem contains_commaLines {line : String} {lines : List String} (h : line ∈ lines) :
    Text.Contains (commaLines lines) line := by
  cases lines with
  | nil => simp at h
  | cons first rest =>
    rw [commaLines]
    · exact (Text.contains_intercalate h).append_left _
    · simp

theorem contains_render_message {table : List (UInt32 × Metadata)} {number : UInt32}
    {metadata : Metadata} (runtime scope name : String) (h : (number, metadata) ∈ table) :
    Text.Contains ((Declaration.message scope name table).render runtime) metadata.render := by
  have he : Text.Contains (renderEntry (number, metadata)) metadata.render :=
    (Text.Contains.refl _).append_right _
  have hl : Text.Contains (commaLines (table.map renderEntry)) metadata.render :=
    (contains_commaLines (List.mem_map_of_mem h)).trans he
  have hv : Text.Contains ((Declaration.message scope name table).value runtime)
      metadata.render :=
    (hl.append_right _).append_left _
  rw [render_eq_assignment]
  exact ((hv.append_right _).append_left _).append_right _

end Declaration

theorem Registration.contains_render (runtime indent : String) (r : Registration) :
    Text.Contains (r.render runtime indent) r.metadata.render :=
  ((((Text.Contains.refl _).append_right _).append_left _).append_left _).append_left _

namespace Script

def heading (script : Script) : String := script.banner ++ script.opening ++ script.scopes

def statements (script : Script) : List String :=
  script.declarations.map (Declaration.render script.runtime) ++
    script.registrations.map (Registration.render script.runtime "")

/-- The text of a script in front of the statement at a position. -/
def textBefore (script : Script) (n : Nat) : String :=
  script.heading ++ String.join (script.statements.take n)

theorem render_eq (script : Script) :
    script.render = script.heading ++ String.join script.statements ++ "\x7d)();\n" := by
  rw [statements, String.join_append, heading, ← String.append_assoc]
  rfl

variable {script : Script} {m n : Nat} {statement : String}

theorem textBefore_succ (h : script.statements[n]? = some statement) :
    script.textBefore (n + 1) = script.textBefore n ++ statement := by
  rw [textBefore, textBefore, List.take_add_one, h, String.join_append, ← String.append_assoc]
  simp

theorem exists_render_eq (h : script.statements[n]? = some statement) :
    ∃ behind, script.render = script.textBefore n ++ statement ++ behind := by
  have hj : String.join script.statements = String.join (script.statements.take (n + 1)) ++
      String.join (script.statements.drop (n + 1)) := by
    rw [← String.join_append, List.take_append_drop]
  refine ⟨String.join (script.statements.drop (n + 1)) ++ "\x7d)();\n", ?_⟩
  rw [render_eq, hj, ← textBefore_succ h, textBefore]
  simp only [String.append_assoc]

theorem length_pos_of_mem_statements (h : statement ∈ script.statements) :
    0 < statement.length := by
  rw [statements, List.mem_append] at h
  rcases h with h | h
  · obtain ⟨declaration, _, rfl⟩ := List.mem_map.mp h
    rw [Declaration.render_eq_assignment]
    simp only [String.length_append]
    have : ";\n\n".length = 3 := rfl
    omega
  · obtain ⟨registration, _, rfl⟩ := List.mem_map.mp h
    simp only [Registration.render, String.length_append]
    have : ".extend(".length = 8 := rfl
    omega

theorem length_textBefore_lt (hmn : m < n) (hn : n ≤ script.statements.length) :
    (script.textBefore m).length < (script.textBefore n).length := by
  induction n with
  | zero => omega
  | succ n ih =>
    have hs : script.statements[n]? = some script.statements[n] := List.getElem?_eq_getElem hn
    have hp := length_pos_of_mem_statements (List.mem_of_getElem? hs)
    rw [textBefore_succ hs, String.length_append]
    rcases Nat.lt_succ_iff_lt_or_eq.mp hmn with hlt | rfl
    · have := ih hlt (Nat.le_of_lt hn)
      omega
    · omega

theorem length_textBefore_lt_iff (hm : m ≤ script.statements.length)
    (hn : n ≤ script.statements.length) :
    (script.textBefore m).length < (script.textBefore n).length ↔ m < n := by
  refine ⟨fun h => ?_, fun h => length_textBefore_lt h hn⟩
  by_contra hnm
  rcases Nat.lt_or_eq_of_le (Nat.not_lt.mp hnm) with hlt | rfl
  · have := length_textBefore_lt hlt hm
    omega
  · omega

end Script

end ProtoScript
