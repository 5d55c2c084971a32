import Mathlib.Data.List.Infix
import ProtoScript.Proofs.Traversal
import ProtoScript.Schema.Violation

/-! # The violations of a file

A file has a list of violations, one for each value, member or extension field that breaks a rule,
in the order of declaration. The check walks through the same declarations, remembers the names and
numbers it has seen and stops early. It reports the first of all violations.
-/

namespace ProtoScript

/-- The breaches of a rule along a list. The rule looks at an element and at those in front of
it. -/
def breaches {α : Type} (rule : List α → α → Option Violation) (l : List α) : List Violation :=
  (l.inits.zip l).filterMap fun p => rule p.1 p.2

def EnumValue.violation? (enum : String) (earlier : List EnumValue) (value : EnumValue) :
    Option Violation :=
  if ∃ other ∈ earlier, other.name = value.name then some (.duplicateValue enum value.name)
  else none

def Enumeration.violations (scope : String) (enum : Enumeration) : List Violation :=
  breaches (EnumValue.violation? (Dotted.qualify scope enum.name)) enum.values

namespace Field

def typeViolation? (scope : String) (field : Field) : Option Violation :=
  if field.type ∈ [.message, .enum, .group] ∧ field.typeName = none then
    some (.missingTypeName scope field.name field.type)
  else none

def numberViolation? (scope : String) (earlier : List Field) (field : Field) : Option Violation :=
  (earlier.find? (·.number = field.number)).map fun first =>
    .duplicateNumber scope field.number first.name field.name

/-- A member of a message has an extendee, or does not name its type, or has the number of an
earlier member. -/
def memberViolation? (scope : String) (earlier : List Field) (field : Field) : Option Violation :=
  if field.extendee ≠ none then some (.strayExtendee scope field.name)
  else (field.typeViolation? scope).or (field.numberViolation? scope earlier)

def extensionViolation? (scope : String) (field : Field) : Option Violation :=
  if field.extendee = none then some (.missingExtendee scope field.name)
  else field.typeViolation? scope

end Field

namespace Message

mutual

/-- The violations in a message: those of its fields, its enumerations, the messages in it and its
extensions. -/
def violations (scope : String) : Message → List Violation
  | ⟨name, fields, messages, enums, extensions⟩ =>
    breaches (Field.memberViolation? (Dotted.qualify scope name)) fields ++
      enums.flatMap (Enumeration.violations (Dotted.qualify scope name)) ++
      violationsAll (Dotted.qualify scope name) messages ++
      extensions.filterMap (Field.extensionViolation? (Dotted.qualify scope name))

def violationsAll (scope : String) : List Message → List Violation
  | [] => []
  | message :: rest => message.violations scope ++ violationsAll scope rest

end

end Message

def File.violations (file : File) : List Violation :=
  file.enums.flatMap (Enumeration.violations file.package) ++
    Message.violationsAll file.package file.messages ++
    file.extensions.filterMap (Field.extensionViolation? file.package)

def report (violations : List Violation) : Except Violation Unit :=
  match violations.head? with
  | some violation => .error violation
  | none => .ok ()

section Report

variable {α σ : Type}

theorem report_append (first second : List Violation) :
    report (first ++ second) = (report first >>= fun _ => report second) := by
  cases first <;> rfl

theorem report_eq_ok_iff {violations : List Violation} :
    report violations = .ok () ↔ violations = [] := by
  cases violations with
  | nil => exact iff_of_true rfl rfl
  | cons violation rest => exact iff_of_false nofun nofun

theorem report_eq_error_iff {violations : List Violation} {violation : Violation} :
    report violations = .error violation ↔ violations.head? = some violation := by
  unfold report
  cases violations.head? <;> simp

theorem forM_eq_report {check : α → Except Violation Unit} {violations : α → List Violation}
    (h : ∀ a, check a = report (violations a)) (as : List α) :
    as.forM check = report (as.flatMap violations) := by
  induction as with
  | nil => rfl
  | cons a as ih =>
    rw [List.flatMap_cons, report_append, ← h, ← ih]
    rfl

theorem breaches_cons (rule : List α → α → Option Violation) (a : α) (rest : List α) :
    breaches rule (a :: rest) =
      (rule [] a).toList ++ breaches (fun earlier => rule (a :: earlier)) rest := by
  unfold breaches
  rw [List.inits_cons, List.zip_cons_cons, List.filterMap_cons, List.zip_map_left,
    List.filterMap_map]
  cases rule [] a <;> rfl

/-- A check that walks along a list and remembers what it has seen reports the first breach, if what
it remembers tells it which breach the next element is. -/
theorem check_eq_report_breaches (check : σ → List α → Except Violation Unit) (next : σ → α → σ)
    (rule : List α → α → Option Violation) (Seen : σ → List α → Prop)
    (nil : ∀ state, check state [] = .ok ())
    (cons : ∀ state earlier a rest, Seen state earlier → check state (a :: rest) =
      (report (rule earlier a).toList >>= fun _ => check (next state a) rest))
    (step : ∀ state earlier a, Seen state earlier → rule earlier a = none →
      Seen (next state a) (earlier ++ [a]))
    {state : σ} {earlier : List α} (hs : Seen state earlier) (l : List α) :
    check state l = report (breaches (fun front => rule (earlier ++ front)) l) := by
  induction l generalizing state earlier with
  | nil => exact nil state
  | cons a rest ih =>
    rw [cons state earlier a rest hs, breaches_cons, List.append_nil, report_append]
    cases hr : rule earlier a with
    | some violation => rfl
    | none =>
      have hrest := ih (step state earlier a hs hr)
      simp only [List.append_assoc, List.singleton_append] at hrest
      rw [hrest]

end Report

theorem Enumeration.check_eq_report (scope : String) (enum : Enumeration) :
    enum.check scope = report (enum.violations scope) := by
  have hs : ∀ name, name ∈ ([] : List String) ↔ ∃ other ∈ ([] : List EnumValue),
      other.name = name := by
    simp
  refine check_eq_report_breaches (EnumValue.checkNames (Dotted.qualify scope enum.name))
    (fun seen value => value.name :: seen) _
    (fun seen earlier => ∀ name, name ∈ seen ↔ ∃ other ∈ earlier, other.name = name)
    (fun _ => rfl) ?_ ?_ hs enum.values
  · intro seen earlier value rest hs
    simp only [EnumValue.checkNames, EnumValue.violation?, hs]
    split <;> rfl
  · intro seen earlier value hs _ name
    simp only [List.mem_cons, hs, List.mem_append]
    grind

namespace Field

theorem checkType_eq_report (scope : String) (field : Field) :
    field.checkType scope = report (field.typeViolation? scope).toList := by
  have hn : field.type.needsTypeName = true ↔ field.type ∈ [.message, .enum, .group] := by
    cases field.type <;> decide
  simp only [checkType, typeViolation?, Bool.and_eq_true, hn, Option.isNone_iff_eq_none]
  split <;> rfl

theorem checkExtension_eq_report (scope : String) (field : Field) :
    field.checkExtension scope = report (field.extensionViolation? scope).toList := by
  rw [checkExtension, checkType_eq_report, isExtension, extensionViolation?]
  cases field.extendee <;> rfl

def Remembers (seen : List (UInt32 × String)) (earlier : List Field) : Prop :=
  ∀ number, seen.lookup number = (earlier.find? (·.number = number)).map (·.name)

theorem Remembers.concat {seen : List (UInt32 × String)} {earlier : List Field}
    (h : Remembers seen earlier) {field : Field}
    (hn : earlier.find? (·.number = field.number) = none) :
    Remembers ((field.number, field.name) :: seen) (earlier ++ [field]) := by
  intro number
  rw [List.lookup_cons, List.find?_append, Option.map_or, ← h number]
  by_cases he : number = field.number
  · subst he
    have hs : seen.lookup field.number = none := by rw [h, hn, Option.map_none]
    simp [hs]
  · have hf : ¬ field.number = number := fun h => he h.symm
    simp [hf, beq_eq_false_iff_ne.mpr he]

theorem checkMembers_cons (scope : String) {seen : List (UInt32 × String)} {earlier : List Field}
    (h : Remembers seen earlier) (field : Field) (rest : List Field) :
    checkMembers scope seen (field :: rest) =
      (report (field.memberViolation? scope earlier).toList >>= fun _ =>
        checkMembers scope ((field.number, field.name) :: seen) rest) := by
  rw [checkMembers, h, checkType_eq_report, isExtension, memberViolation?, numberViolation?]
  cases field.extendee with
  | some extendee => rfl
  | none =>
    cases field.typeViolation? scope with
    | some violation => rfl
    | none => cases earlier.find? (·.number = field.number) <;> rfl

theorem checkMembers_eq_report (scope : String) (fields : List Field) :
    checkMembers scope [] fields = report (breaches (memberViolation? scope) fields) := by
  have hs : Remembers [] [] := fun _ => rfl
  refine check_eq_report_breaches (checkMembers scope)
    (fun seen field => (field.number, field.name) :: seen) _ Remembers (fun _ => rfl)
    (fun seen earlier field rest h => checkMembers_cons scope h field rest) ?_ hs fields
  intro seen earlier field h hm
  refine h.concat ?_
  unfold memberViolation? at hm
  split at hm
  · simp at hm
  · simpa [numberViolation?] using (Option.or_eq_none_iff.mp hm).2

end Field

namespace Message

theorem check_eq_report {scope : String} {message : Message}
    (h : checkAll (Dotted.qualify scope message.name) message.messages =
      report (violationsAll (Dotted.qualify scope message.name) message.messages)) :
    message.check scope = report (message.violations scope) := by
  cases message
  rw [check, violations, h, Field.checkMembers_eq_report,
    forM_eq_report (Enumeration.check_eq_report _),
    forM_eq_report (Field.checkExtension_eq_report _), ← List.filterMap_eq_flatMap_toList]
  simp only [report_append, bind_assoc]

theorem checkAll_eq_report (scope : String) (messages : List Message) :
    checkAll scope messages = report (violationsAll scope messages) := by
  induction messages using forest_induction generalizing scope with
  | nil => rfl
  | cons message rest ih ih' =>
    rw [checkAll, violationsAll, check_eq_report (ih _), ih', report_append]

end Message

namespace File

/-- The check of a file passes if the file has no violations, and otherwise reports the first of all
violations. -/
theorem check_reports_first_violation (file : File) :
    (file.check = .ok () ↔ file.violations = []) ∧
      ∀ violation, file.check = .error violation ↔ file.violations.head? = some violation := by
  have h : file.check = report file.violations := by
    rw [check, violations, forM_eq_report (Enumeration.check_eq_report _),
      Message.checkAll_eq_report, forM_eq_report (Field.checkExtension_eq_report _),
      ← List.filterMap_eq_flatMap_toList]
    simp only [report_append, bind_assoc]
  rw [h]
  exact ⟨report_eq_ok_iff, fun _ => report_eq_error_iff⟩

example :
    ({ name := "a.proto"
       messages := [
        { name := "M"
          fields := [
            { name := "a", number := 1, type := .bool },
            { name := "b", number := 1, type := .bool },
            { name := "c", number := 1, type := .bool, extendee := some ".M" }]
          messages := [{ name := "N", fields := [{ name := "e", number := 2, type := .enum }] }] }]
       extensions := [{ name := "x", number := 3, type := .bool }] } : File).violations =
      [.duplicateNumber "M" 1 "a" "b", .strayExtendee "M" "c", .missingTypeName "M.N" "e" .enum,
        .missingExtendee "" "x"] := by
  decide +kernel

end File

end ProtoScript
