import ProtoScript.Proofs.Grouping
import ProtoScript.Proofs.Tracking

/-! # Packages that are tracked step by step

Each step tracks a package, with a namespace that is given or with that of a file. A step without a
package or without a namespace changes nothing, and it does not undo what was tracked before. Of
the other steps the last one for a package counts, so that every tracked package and every namespace
is one that a step has given.
-/

namespace ProtoScript.Packages

open Dotted

/-- A step that tracks a package. -/
inductive Step where
  | pair (package target : String)
  | ofFile (file : File)
  deriving DecidableEq, Repr

namespace Step

def package : Step → String
  | .pair package _ => package
  | .ofFile file => file.package

def target : Step → String
  | .pair _ target => target
  | .ofFile file => file.targetNamespace

def isFile : Step → Bool
  | .pair .. => false
  | .ofFile _ => true

def run (packages : Packages) : Step → Packages
  | .pair package target => packages.track package target
  | .ofFile file => packages.trackFile file

theorem run_eq_track (packages : Packages) (step : Step) :
    step.run packages = packages.track step.package step.target := by
  cases step <;> rfl

theorem run_of_empty {step : Step} (h : trim step.package = "" ∨ step.target = "")
    (packages : Packages) : step.run packages = packages := by
  rw [run_eq_track, track]
  exact if_pos (by simpa using h)

theorem trimmed_target {step : Step} (h : step.isFile = true) : Trimmed step.target := by
  cases step with
  | pair => simp [isFile] at h
  | ofFile file => exact trimmed_trim _

def Binds (package : String) (step : Step) : Prop :=
  package = trim step.package ∧ package ≠ "" ∧ step.target ≠ ""

instance (package : String) (step : Step) : Decidable (Binds package step) :=
  inferInstanceAs (Decidable (_ ∧ _ ∧ _))

end Step

/-- The packages after some steps, when none was tracked before. -/
def ofSteps (steps : List Step) : Packages := steps.foldl Step.run {}

variable {steps : List Step} {package target : String}

theorem ofSteps_concat (steps : List Step) (step : Step) :
    ofSteps (steps ++ [step]) = step.run (ofSteps steps) := by
  rw [ofSteps, List.foldl_append]
  rfl

theorem get?_ofSteps (steps : List Step) (k : String) :
    (ofSteps steps).get? k = (steps.filter (Step.Binds k ·)).getLast?.map Step.target := by
  have hr : Step.run = fun packages step => packages.track step.package step.target := by
    funext packages step
    exact step.run_eq_track packages
  have hn : ({} : Packages).get? k = none := rfl
  rw [ofSteps, hr, get?_foldl_track, hn, Option.or_none]
  rfl

theorem exists_step_of_get?_ofSteps (h : (ofSteps steps).get? package = some target) :
    ∃ step ∈ steps, step.Binds package ∧ step.target = target := by
  rw [get?_ofSteps, Option.map_eq_some_iff] at h
  obtain ⟨step, hl, ht⟩ := h
  obtain ⟨hm, hb⟩ := List.mem_filter.mp (List.mem_of_getLast? hl)
  exact ⟨step, hm, of_decide_eq_true hb, ht⟩

theorem exists_get?_ofSteps_iff :
    (∃ target, (ofSteps steps).get? package = some target) ↔
      ∃ step ∈ steps, step.Binds package := by
  constructor
  · rintro ⟨target, h⟩
    obtain ⟨step, hm, hb, _⟩ := exists_step_of_get?_ofSteps h
    exact ⟨step, hm, hb⟩
  · rintro ⟨step, hm, hb⟩
    have hn : steps.filter (Step.Binds package ·) ≠ [] :=
      List.ne_nil_of_mem (List.mem_filter.mpr ⟨hm, decide_eq_true hb⟩)
    rw [get?_ofSteps, List.getLast?_eq_some_getLast hn]
    exact ⟨_, rfl⟩

theorem target_ne_empty_of_get?_ofSteps (h : (ofSteps steps).get? package = some target) :
    target ≠ "" := by
  obtain ⟨step, _, hb, rfl⟩ := exists_step_of_get?_ofSteps h
  exact hb.2.2

/-- The packages of the steps that have effect, trimmed. -/
def boundBy (steps : List Step) : List String :=
  (steps.filter fun step => trim step.package ≠ "" ∧ step.target ≠ "").map (trim ·.package)

theorem mem_boundBy : package ∈ boundBy steps ↔ ∃ step ∈ steps, step.Binds package := by
  simp only [boundBy, List.mem_map, List.mem_filter, decide_eq_true_eq, Step.Binds]
  constructor
  · rintro ⟨step, ⟨hm, hp, ht⟩, rfl⟩
    exact ⟨step, hm, rfl, hp, ht⟩
  · rintro ⟨step, hm, rfl, hp, ht⟩
    exact ⟨step, ⟨hm, hp, ht⟩, rfl⟩

theorem sorted_keys (packages : Packages) :
    (packages.toList.map Prod.fst).Pairwise (· < ·) :=
  List.pairwise_map.mpr packages.bindings.sorted

theorem keys_ofSteps_perm (steps : List Step) :
    ((ofSteps steps).toList.map Prod.fst).Perm (boundBy steps).eraseDups := by
  refine (List.perm_ext_iff_of_nodup (ofSteps steps).bindings.nodup_keys
    (nodup_eraseDups _)).mpr fun package => ?_
  rw [List.mem_eraseDups, mem_boundBy, ← exists_get?_ofSteps_iff]
  simp only [List.mem_map, Prod.exists, exists_and_right, exists_eq_right, ← mem_toList]
  rfl

/-- Packages after any steps. Every tracked package is neither empty nor has it dots around it, and
every namespace is not empty; it has no dots around it either if all steps are files. The packages
are listed in increasing order, each of them once. A package has the namespace of the last step for
it that gives one, and a step without a package or without a namespace changes nothing. -/
theorem last_binding_counts (steps : List Step) :
    (∀ package target, (ofSteps steps).get? package = some target →
      package ≠ "" ∧ Trimmed package ∧ target ≠ "" ∧
        ((∀ step ∈ steps, step.isFile = true) → Trimmed target)) ∧
    ((ofSteps steps).toList.map Prod.fst).Pairwise (· < ·) ∧
    (∀ package target, (package, target) ∈ (ofSteps steps).toList ↔
      (ofSteps steps).get? package = some target) ∧
    (ofSteps steps).toList.length = (ofSteps steps).size ∧
    (ofSteps steps).size = (boundBy steps).eraseDups.length ∧
    (∀ package, package ≠ "" → (ofSteps steps).get? package =
      (steps.filter fun step => trim step.package = package ∧ step.target ≠ "").getLast?.map
        Step.target) ∧
    (∀ package, package = "" ∨ ¬ Trimmed package → (ofSteps steps).get? package = none) ∧
    ∀ step : Step, trim step.package = "" ∨ step.target = "" →
      ofSteps (steps ++ [step]) = ofSteps steps := by
  have hb : ∀ package target, (ofSteps steps).get? package = some target →
      package ≠ "" ∧ Trimmed package ∧ target ≠ "" ∧
        ((∀ step ∈ steps, step.isFile = true) → Trimmed target) := by
    intro package target h
    obtain ⟨step, hm, ⟨hp, hne, ht⟩, rfl⟩ := exists_step_of_get?_ofSteps h
    exact ⟨hne, hp ▸ trimmed_trim _, ht, fun hf => Step.trimmed_target (hf step hm)⟩
  refine ⟨hb, sorted_keys _, fun package target => mem_toList, rfl, ?_, ?_, ?_, ?_⟩
  · simpa [size] using (keys_ofSteps_perm steps).length_eq
  · intro package hne
    have hf : steps.filter (Step.Binds package ·) =
        steps.filter fun step => trim step.package = package ∧ step.target ≠ "" := by
      refine List.filter_congr fun step _ => ?_
      simp only [Step.Binds, hne, ne_eq, not_false_eq_true, true_and, eq_comm]
    rw [get?_ofSteps, hf]
  · intro package h
    refine Option.eq_none_iff_forall_ne_some.mpr fun target ht => ?_
    obtain ⟨hne, hp, _⟩ := hb package target ht
    exact h.elim hne fun hn => hn hp
  · intro step h
    rw [ofSteps_concat, Step.run_of_empty h]

/-- Steps that track `p` twice, and between them steps without effect. -/
def mixedSteps : List Step :=
  [.ofFile { name := "a.proto", package := ".p." }, .pair "q" ".js", .pair "p" "", .pair "." "x",
    .pair "p." "P"]

theorem last_binding_counts_mixedSteps :
    (ofSteps mixedSteps).get? "p" = some "P" ∧ ("P" ≠ "" ∧ Trimmed "p") ∧
    (ofSteps mixedSteps).get? "p." = none ∧ (ofSteps mixedSteps).get? "" = none ∧
    (ofSteps mixedSteps).size = 2 ∧
    ofSteps (mixedSteps ++ [.pair "p" ""]) = ofSteps mixedSteps := by
  obtain ⟨hb, _, _, _, hs, hl, hn, he⟩ := last_binding_counts mixedSteps
  have hp : (ofSteps mixedSteps).get? "p" = some "P" := by
    rw [hl "p" (by decide)]
    decide +kernel
  obtain ⟨_, ht, hne, _⟩ := hb "p" "P" hp
  refine ⟨hp, ⟨hne, ht⟩, hn "p." (.inr (by decide)), hn "" (.inl rfl), ?_, he _ (.inr rfl)⟩
  rw [hs]
  decide +kernel

end ProtoScript.Packages
