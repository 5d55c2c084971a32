import Mathlib.Algebra.Ring.Nat
import ProtoScript.Proofs.Outcome
import ProtoScript.Proofs.Statements

/-! # Default values and the order of statements

The default value of an enumeration field is a member of the object of its enumeration, which is
read when the script is loaded. Whether the object exists by then depends on where the enumeration
and the field are declared. The statements of a message stand in one block, and blocks stand in
the order in which messages are visited.
-/

namespace ProtoScript

open Dotted

theorem getElem?_flatMap_of_getElem? {α β : Type} {f : α → List β} {l : List α} {a : α} {b : β}
    {i j : Nat} (ha : l[i]? = some a) (hb : (f a)[j]? = some b) :
    (l.flatMap f)[((l.take i).map fun a => (f a).length).sum + j]? = some b := by
  induction l generalizing i with
  | nil => simp at ha
  | cons first rest ih =>
    rw [List.flatMap_cons]
    cases i with
    | zero =>
      obtain rfl : first = a := by simpa using ha
      have hj : j < (f first).length := (List.getElem?_eq_some_iff.mp hb).1
      simp [List.getElem?_append_left hj, hb]
    | succ i =>
      rw [List.take_succ_cons, List.map_cons, List.sum_cons, Nat.add_assoc,
        List.getElem?_append_right (Nat.le_add_right _ _), Nat.add_sub_cancel_left]
      exact ih (by simpa using ha)

namespace Message

def size (message : Message) : Nat :=
  1 + (message.fields.flatMap Accessor.Kind.ofField).length + message.enums.length

theorem length_flatMap_methodsIn (packages : Packages) (fields : List Field) :
    (fields.flatMap (Field.methodsIn packages)).length =
      (fields.flatMap Accessor.Kind.ofField).length := by
  induction fields with
  | nil => rfl
  | cons field fields ih => simp [Field.methodsIn, ih]

@[simp] theorem length_own (packages : Packages) (scope : String) (message : Message) :
    (message.own packages scope).length = message.size := by
  simp only [own, size, List.length_append, List.length_cons, List.length_map,
    length_flatMap_methodsIn]
  omega

theorem getElem?_own_enum {packages : Packages} {scope : String} {message : Message} {k : Nat}
    {enum : Enumeration} (h : message.enums[k]? = some enum) :
    (message.own packages scope)[1 + (message.fields.flatMap Accessor.Kind.ofField).length + k]? =
      some (enum.declare (child scope message.name)) := by
  have hl : 1 + (message.fields.flatMap Accessor.Kind.ofField).length =
      (Declaration.message scope message.name (message.table packages) ::
        (message.fields.flatMap (Field.methodsIn packages)).map
          (.accessor (child scope message.name))).length := by
    rw [List.length_cons, List.length_map, length_flatMap_methodsIn]
    omega
  rw [own, hl, List.getElem?_append_right (Nat.le_add_right _ _), Nat.add_sub_cancel_left,
    List.getElem?_map, h]
  rfl

end Message

/-- Where an enumeration is declared: as one of the enumerations of the file, or as one of those of
a message, which is counted in the order in which messages are visited. -/
inductive EnumSite where
  | top (k : Nat)
  | nested (i k : Nat)
  deriving DecidableEq, Repr

/-- Where a field is declared: as one of the fields of a message, or as one of the extensions of the
file, which are counted in the order in which they are registered. -/
inductive FieldSite where
  | member (i k : Nat)
  | extension (j : Nat)
  deriving DecidableEq, Repr

/-- The enumeration is declared in the file itself or in a message that is visited before that of
the field. For extensions it does not matter where it is declared. -/
def EnumSite.Precedes : EnumSite → FieldSite → Prop
  | .nested i _, .member j _ => i < j
  | _, _ => True

namespace File

variable {file : File} {packages : Packages} {i j k : Nat}

def enumAt? (file : File) : EnumSite → Option (String × Enumeration)
  | .top k => file.enums[k]?.map fun enum => (file.targetNamespace, enum)
  | .nested i k => file.preorder[i]?.bind fun m =>
    m.2.enums[k]?.map fun enum => (child m.1 m.2.name, enum)

def fieldAt? (file : File) : FieldSite → Option Field
  | .member i k => file.preorder[i]?.bind fun m => m.2.fields[k]?
  | .extension j => file.registered[j]?.map (·.field)

def blockStart (file : File) (i : Nat) : Nat :=
  file.enums.length + ((file.preorder.take i).map (·.2.size)).sum

/-- The position of the statement that assigns the object of an enumeration. -/
def enumPosition (file : File) : EnumSite → Nat
  | .top k => k
  | .nested i k => file.blockStart i + (1 + ((file.preorder[i]?.map fun m =>
    (m.2.fields.flatMap Accessor.Kind.ofField).length).getD 0) + k)

/-- The position of the statement with the metadata of a field. -/
def callPosition (file : File) : FieldSite → Nat
  | .member i _ => file.blockStart i
  | .extension j => file.blockStart file.preorder.length + j

theorem getElem?_declarations_block {m : String × Message} {declaration : Declaration}
    (hm : file.preorder[i]? = some m) (hj : (m.2.own packages m.1)[j]? = some declaration) :
    (file.declarations packages)[file.blockStart i + j]? = some declaration := by
  have hb := getElem?_flatMap_of_getElem? hm (f := fun m => m.2.own packages m.1) hj
  simp only [Message.length_own] at hb
  rw [declarations, blockStart, Nat.add_assoc, List.getElem?_append_right (by simp),
    List.length_map, Nat.add_sub_cancel_left]
  exact hb

theorem length_declarations (packages : Packages) (file : File) :
    (file.declarations packages).length = file.blockStart file.preorder.length := by
  rw [declarations, blockStart, List.take_length, List.length_append, List.length_map,
    Message.declarations, List.length_flatMap]
  simp only [Message.length_own]
  rfl

theorem enums_length_le_blockStart (file : File) (i : Nat) :
    file.enums.length ≤ file.blockStart i :=
  Nat.le_add_right _ _

theorem blockStart_succ {m : String × Message} (hm : file.preorder[i]? = some m) :
    file.blockStart (i + 1) = file.blockStart i + m.2.size := by
  rw [blockStart, blockStart, List.take_add_one, hm, List.map_append, List.sum_append,
    Nat.add_assoc]
  simp

theorem blockStart_mono (hij : i ≤ j) : file.blockStart i ≤ file.blockStart j := by
  obtain ⟨d, rfl⟩ := Nat.exists_eq_add_of_le hij
  rw [blockStart, blockStart, List.take_add, List.map_append, List.sum_append]
  omega

variable {enumSite : EnumSite} {fieldSite : FieldSite} {scope : String} {enum : Enumeration}
  {field : Field}

theorem enumAt?_nested : file.enumAt? (.nested i k) = some (scope, enum) ↔
    ∃ m, file.preorder[i]? = some m ∧ m.2.enums[k]? = some enum ∧
      scope = child m.1 m.2.name := by
  simp only [enumAt?, Option.bind_eq_some_iff, Option.map_eq_some_iff, Prod.mk.injEq]
  constructor
  · rintro ⟨m, hm, _, hk, rfl, rfl⟩
    exact ⟨m, hm, hk, rfl⟩
  · rintro ⟨m, hm, hk, rfl⟩
    exact ⟨m, hm, enum, hk, rfl, rfl⟩

theorem enumPosition_bounds (he : file.enumAt? enumSite = some (scope, enum)) :
    match enumSite with
    | .top _ => file.enumPosition enumSite < file.enums.length
    | .nested i _ => file.blockStart i < file.enumPosition enumSite ∧
        file.enumPosition enumSite < file.blockStart (i + 1) ∧ i < file.preorder.length := by
  cases enumSite with
  | top k =>
    obtain ⟨_, hk, _⟩ := Option.map_eq_some_iff.mp he
    exact (List.getElem?_eq_some_iff.mp hk).1
  | nested i k =>
    obtain ⟨m, hm, hk, _⟩ := enumAt?_nested.mp he
    have hlt := (List.getElem?_eq_some_iff.mp hk).1
    simp only [enumPosition, hm, Option.map_some, Option.getD_some, blockStart_succ hm,
      Message.size]
    exact ⟨by omega, by omega, (List.getElem?_eq_some_iff.mp hm).1⟩

theorem enumPosition_lt_callPosition_iff (he : file.enumAt? enumSite = some (scope, enum)) :
    file.enumPosition enumSite < file.callPosition fieldSite ↔ enumSite.Precedes fieldSite := by
  have hb := enumPosition_bounds he
  cases enumSite with
  | top k =>
    refine iff_of_true ?_ trivial
    cases fieldSite with
    | member i _ => exact Nat.lt_of_lt_of_le hb (enums_length_le_blockStart file i)
    | extension j =>
      exact Nat.lt_of_lt_of_le hb
        (Nat.le_add_right_of_le (enums_length_le_blockStart file file.preorder.length))
  | nested i k =>
    obtain ⟨hs, hlt, hi⟩ := hb
    cases fieldSite with
    | member j _ =>
      constructor
      · intro h
        by_contra hn
        have hij : file.blockStart j ≤ file.blockStart i := blockStart_mono (Nat.not_lt.mp hn)
        exact Nat.lt_irrefl _ (Nat.lt_trans hs (Nat.lt_of_lt_of_le h hij))
      · intro h
        exact Nat.lt_of_lt_of_le hlt (blockStart_mono h)
    | extension j =>
      refine iff_of_true ?_ trivial
      exact Nat.lt_of_lt_of_le hlt (Nat.le_add_right_of_le (blockStart_mono hi))

theorem getElem?_declarations_enum (packages : Packages)
    (he : file.enumAt? enumSite = some (scope, enum)) :
    (file.declarations packages)[file.enumPosition enumSite]? = some (enum.declare scope) := by
  cases enumSite with
  | top k =>
    obtain ⟨e, hk, h⟩ := Option.map_eq_some_iff.mp he
    obtain ⟨rfl, rfl⟩ := Prod.mk.inj h
    have hlt := (List.getElem?_eq_some_iff.mp hk).1
    rw [declarations, enumPosition, List.getElem?_append_left (by simpa using hlt),
      List.getElem?_map, hk]
    rfl
  | nested i k =>
    obtain ⟨m, hm, hk, rfl⟩ := enumAt?_nested.mp he
    rw [enumPosition, hm, Option.map_some, Option.getD_some]
    exact getElem?_declarations_block hm (Message.getElem?_own_enum hk)

end File

namespace Compiler

/-- The statement with the metadata of the field at a site: the constructor of its message, or the
call that registers the extension. -/
def callAt? (compiler : Compiler) (file : File) : FieldSite → Option String
  | .member i _ => file.preorder[i]?.map fun m =>
    (Declaration.message m.1 m.2.name (m.2.table (compiler.packagesFor file))).render
      compiler.config.runtime
  | .extension j => file.registered[j]?.map fun extension =>
    (extension.registration (compiler.packagesFor file)).render compiler.config.runtime ""

variable {compiler : Compiler} {file : File} {enumSite : EnumSite} {fieldSite : FieldSite}
  {scope : String} {enum : Enumeration} {field : Field} {call : String}

theorem getElem?_statements_of_declarations {n : Nat} {declaration : Declaration}
    (h : (file.declarations (compiler.packagesFor file))[n]? = some declaration) :
    (compiler.scriptOf file).statements[n]? =
      some (declaration.render compiler.config.runtime) := by
  have hlt := (List.getElem?_eq_some_iff.mp h).1
  rw [Script.statements, List.getElem?_append_left (by simpa [scriptOf] using hlt),
    List.getElem?_map]
  simp only [scriptOf, h, Option.map_some]

theorem getElem?_statements_call (h : compiler.callAt? file fieldSite = some call) :
    (compiler.scriptOf file).statements[file.callPosition fieldSite]? = some call := by
  cases fieldSite with
  | member i k =>
    obtain ⟨m, hm, rfl⟩ := Option.map_eq_some_iff.mp h
    apply getElem?_statements_of_declarations
    exact File.getElem?_declarations_block hm (j := 0) rfl
  | extension j =>
    obtain ⟨extension, hj, rfl⟩ := Option.map_eq_some_iff.mp h
    have hl : ((compiler.scriptOf file).declarations.map
        (Declaration.render (compiler.scriptOf file).runtime)).length =
          file.blockStart file.preorder.length := by
      rw [List.length_map]
      exact File.length_declarations _ file
    rw [Script.statements, File.callPosition, List.getElem?_append_right (by omega), hl,
      Nat.add_sub_cancel_left, List.getElem?_map]
    simp only [scriptOf, File.registrations, List.getElem?_map, hj, Option.map_some]

theorem exists_callAt?_contains (compiler : Compiler) (h : file.fieldAt? fieldSite = some field) :
    ∃ call name, compiler.callAt? file fieldSite = some call ∧
      Text.Contains call (field.entry (compiler.packagesFor file) name).render := by
  cases fieldSite with
  | member i k =>
    obtain ⟨m, hm, hk⟩ := Option.bind_eq_some_iff.mp h
    have ht : (field.number, field.entry (compiler.packagesFor file) field.name) ∈
        m.2.table (compiler.packagesFor file) :=
      List.mem_map_of_mem (List.mem_of_getElem? hk)
    have hc : compiler.callAt? file (.member i k) = some ((Declaration.message m.1 m.2.name
        (m.2.table (compiler.packagesFor file))).render compiler.config.runtime) := by
      rw [callAt?, hm, Option.map_some]
    exact ⟨_, field.name, hc, Declaration.contains_render_message _ _ _ ht⟩
  | extension j =>
    obtain ⟨extension, hj, rfl⟩ := Option.map_eq_some_iff.mp h
    have hc : compiler.callAt? file (.extension j) = some ((extension.registration
        (compiler.packagesFor file)).render compiler.config.runtime "") := by
      rw [callAt?, hj, Option.map_some]
    exact ⟨_, _, hc, Registration.contains_render _ _ _⟩

/-- An enumeration and a field of it with a default value. The object of the enumeration is assigned
before the statement that reads the default value from it exactly if the field is an extension, or
the enumeration belongs to the file itself or to a message that is visited before that of the
field. It is assigned too late for the fields of its own message and of the messages visited before
that one. -/
theorem enum_assigned_before_default_iff (compiler : Compiler) (file : File) (output : Output)
    (enumSite : EnumSite) (fieldSite : FieldSite) (scope : String) (enum : Enumeration)
    (field : Field) (typeName token : String) (h : compiler.compile file = .ok output)
    (he : file.enumAt? enumSite = some (scope, enum)) (hf : file.fieldAt? fieldSite = some field)
    (ht : field.type = .enum) (hn : field.typeName = some typeName)
    (hv : field.defaultValue = some token)
    (hp : (compiler.packagesFor file).nameOf typeName = child scope enum.name) :
    ∃ content call metadata, output.files.map (·.content) = [content] ∧
      (∃ behind, content =
        (compiler.scriptOf file).textBefore (file.enumPosition enumSite) ++
          (child scope enum.name ++ " = \x7b\n" ++
            Declaration.commaLines (enum.values.map Declaration.renderValue) ++ "\x7d;\n\n") ++
          behind) ∧
      compiler.callAt? file fieldSite = some call ∧
      (∃ behind, content =
        (compiler.scriptOf file).textBefore (file.callPosition fieldSite) ++ call ++ behind) ∧
      Text.Contains call (Metadata.render metadata) ∧
      metadata.default = child (child scope enum.name) token ∧
      metadata.render = "['" ++ metadata.name ++ "', " ++ Decimal.ofInt field.label.code ++ ", " ++
        Decimal.ofInt field.type.code ++ ", '" ++ child scope enum.name ++ "', " ++
        child (child scope enum.name) token ++ ", \x7b\x7d]" ∧
      (((compiler.scriptOf file).textBefore (file.enumPosition enumSite)).length <
          ((compiler.scriptOf file).textBefore (file.callPosition fieldSite)).length ↔
        enumSite.Precedes fieldSite) := by
  obtain ⟨_, rfl⟩ := eq_outputOf_of_compile_eq_ok h
  obtain ⟨call, name, hc, hm⟩ := exists_callAt?_contains compiler hf
  have hse : (compiler.scriptOf file).statements[file.enumPosition enumSite]? =
      some ((enum.declare scope).render compiler.config.runtime) :=
    getElem?_statements_of_declarations (File.getElem?_declarations_enum _ he)
  have hsc := getElem?_statements_call hc
  have hr : field.typeName.map (compiler.packagesFor file).nameOf =
      some (child scope enum.name) := by
    rw [hn, Option.map_some, hp]
  have hd : (field.entry (compiler.packagesFor file) name).default =
      child (child scope enum.name) token := Field.literal_of_enum hr ht hv
  refine ⟨_, call, field.entry (compiler.packagesFor file) name, rfl,
    Script.exists_render_eq hse, hc, Script.exists_render_eq hsc, hm, hd, ?_, ?_⟩
  · rw [← hd]
    exact Metadata.render_of_reference hr
  · rw [Script.length_textBefore_lt_iff (Nat.le_of_lt (List.getElem?_eq_some_iff.mp hse).1)
      (Nat.le_of_lt (List.getElem?_eq_some_iff.mp hsc).1)]
    exact File.enumPosition_lt_callPosition_iff he

def lateEnumFile : File where
  name := "a.proto"
  package := "a"
  messages := [
    { name := "A"
      fields := [
        { name := "k"
          number := 1
          type := .enum
          typeName := some ".a.B.Kind"
          defaultValue := some "X" }] },
    { name := "B", enums := [{ name := "Kind", values := [⟨"X", 0⟩] }] }]

theorem enum_assigned_after_default_lateEnumFile :
    ∃ output content call, ({} : Compiler).compile lateEnumFile = .ok output ∧
      output.files.map (·.content) = [content] ∧
      (∃ behind, content = (({} : Compiler).scriptOf lateEnumFile).textBefore
          (lateEnumFile.enumPosition (.nested 1 0)) ++
        "a.B.Kind = \x7b\n  /** @const */ X: 0\n\x7d;\n\n" ++ behind) ∧
      (∃ behind, content = (({} : Compiler).scriptOf lateEnumFile).textBefore
          (lateEnumFile.callPosition (.member 0 0)) ++ call ++ behind) ∧
      (∃ metadata, Text.Contains call (Metadata.render metadata) ∧
        metadata.default = "a.B.Kind.X") ∧
      (∃ name, Text.Contains call
        ("['" ++ (name ++ "', 1, 14, 'a.B.Kind', a.B.Kind.X, \x7b\x7d]"))) ∧
      ¬ ((({} : Compiler).scriptOf lateEnumFile).textBefore
          (lateEnumFile.enumPosition (.nested 1 0))).length <
        ((({} : Compiler).scriptOf lateEnumFile).textBefore
          (lateEnumFile.callPosition (.member 0 0))).length := by
  obtain ⟨output, h⟩ := (exists_compile_eq_ok_iff {} lateEnumFile).mpr (by decide +kernel)
  obtain ⟨content, call, metadata, hf, he, _, hc, hm, hd, hr, hi⟩ :=
    enum_assigned_before_default_iff {} lateEnumFile output (.nested 1 0) (.member 0 0) "a.B"
      ⟨"Kind", [⟨"X", 0⟩]⟩ _ ".a.B.Kind" "X" h rfl rfl rfl rfl rfl (by decide +kernel)
  have ht : metadata.render = "['" ++ (metadata.name ++
      "', 1, 14, 'a.B.Kind', a.B.Kind.X, \x7b\x7d]") := by
    rw [hr]
    simp only [String.append_assoc]
    rfl
  refine ⟨output, content, call, h, hf, he, hc, ⟨metadata, hm, hd⟩, ⟨metadata.name, ht ▸ hm⟩,
    fun hl => ?_⟩
  simpa [EnumSite.Precedes] using hi.mp hl

end Compiler

end ProtoScript
