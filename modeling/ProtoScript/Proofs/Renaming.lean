import ProtoScript.Proofs.SegmentWalk
import ProtoScript.Proofs.TrackingSteps

/-! # References and the names they get

A reference in a tracked package is moved into a namespace, with what stands behind the package. The
name that it gets lies in the namespace, so that normalizing the name again finds it there, unless
another package comes in between. Different references get different names if namespaces overlap
only where their packages overlap in the same way.
-/

namespace ProtoScript.Packages

open Dotted

/-- The bindings do not chain: no namespace starts with a dot, and a package that is nested with a
namespace, either in the other, is bound to itself. -/
structure Unchained (packages : Packages) : Prop where
  head?_ne : ∀ package target, packages.get? package = some target →
    target.toList.head? ≠ some '.'
  eq_of_nested : ∀ package target other bound, packages.get? package = some target →
    packages.get? other = some bound → Within package bound ∨ Within bound package →
    target = package

/-- The bindings keep packages apart: different packages have different namespaces, and where one
namespace lies below the other, the packages do with the same part between them. -/
def Apart (packages : Packages) : Prop :=
  ∀ package target other bound, packages.get? package = some target →
    packages.get? other = some bound → package ≠ other →
    target ≠ bound ∧ ∀ part, bound = child target part → other = child package part

variable {packages : Packages} {package target other bound reference name : String}

theorem unchained_iff : packages.Unchained ↔
    (∀ b ∈ packages.toList, b.2.toList.head? ≠ some '.') ∧
      ∀ b ∈ packages.toList, ∀ c ∈ packages.toList,
        Within b.1 c.2 ∨ Within c.2 b.1 → b.2 = b.1 := by
  constructor
  · rintro ⟨hd, hn⟩
    exact ⟨fun b hb => hd b.1 b.2 (mem_toList.mp hb),
      fun b hb c hc => hn b.1 b.2 c.1 c.2 (mem_toList.mp hb) (mem_toList.mp hc)⟩
  · rintro ⟨hd, hn⟩
    exact ⟨fun package target hp => hd _ (mem_toList.mpr hp),
      fun package target other bound hp ho => hn _ (mem_toList.mpr hp) _ (mem_toList.mpr ho)⟩

instance : Decidable packages.Unchained := decidable_of_iff _ unchained_iff.symm

theorem apart_iff : packages.Apart ↔
    ∀ b ∈ packages.toList, ∀ c ∈ packages.toList, b.1 ≠ c.1 →
      b.2 ≠ c.2 ∧ ∀ rest ∈ rest? b.2 c.2, c.1 = b.1 ++ rest := by
  constructor
  · intro ha b hb c hc hne
    obtain ⟨hd, hn⟩ := ha b.1 b.2 c.1 c.2 (mem_toList.mp hb) (mem_toList.mp hc) hne
    refine ⟨hd, fun rest hr => ?_⟩
    obtain ⟨part, rfl, he⟩ := rest?_eq_some_iff.mp hr
    rw [← String.append_assoc] at he ⊢
    exact hn part he
  · intro ha package target other bound hp ho hne
    obtain ⟨hd, hn⟩ := ha _ (mem_toList.mpr hp) _ (mem_toList.mpr ho) hne
    refine ⟨hd, fun part he => ?_⟩
    rw [child, String.append_assoc] at he ⊢
    exact hn _ (rest?_eq_some_iff.mpr ⟨part, rfl, he⟩)

instance : Decidable packages.Apart := decidable_of_iff _ apart_iff.symm

theorem exists_target_of_locate? (h : packages.locate? reference = some name) :
    ∃ package target, packages.get? package = some target ∧ Within target name := by
  cases hw : packages.walk? reference with
  | some b =>
    obtain ⟨package, target⟩ := b
    obtain ⟨hp, hs, _⟩ := walk?_spec hw
    obtain ⟨rest, rfl, hl⟩ := exists_locate?_of_walk? hw
    rw [hl, Option.some_inj] at h
    exact ⟨package, target, hp, h ▸ hs.append_of_append target⟩
  | none =>
    rw [locate?_of_walk?_eq_none hw] at h
    split at h
    · rename_i ht
      rw [Option.some_inj] at h
      exact h ▸ isTarget_iff.mp ht
    · simp at h

namespace Unchained

theorem locate?_eq_self (hc : packages.Unchained) (hp : packages.get? package = some target)
    (ht : Within target name) : packages.locate? name = some name := by
  cases hw : packages.walk? name with
  | none => rw [locate?_of_walk?_eq_none hw, if_pos (isTarget_iff.mpr ⟨package, target, hp, ht⟩)]
  | some b =>
    -- The package that is found and the namespace are scopes of one name, so that they are nested.
    obtain ⟨other, bound⟩ := b
    obtain ⟨ho, hs, _⟩ := walk?_spec hw
    obtain rfl := hc.eq_of_nested other bound package target ho hp (hs.total ht)
    obtain ⟨rest, rfl, hl⟩ := exists_locate?_of_walk? hw
    exact hl

theorem stripLeft_eq_self (hc : packages.Unchained) (hp : packages.get? package = some target)
    (hn : target ≠ "") (ht : Within target name) : stripLeft name = name := by
  obtain ⟨rest, rfl⟩ := ht.exists_append
  have hs : target.toList ≠ [] := fun he => hn (String.toList_eq_nil_iff.mp he)
  apply stripLeft_of_head?_ne
  rw [String.toList_append, List.head?_append_of_ne_nil _ hs]
  exact hc.head?_ne package target hp

end Unchained

/-- Normalizing a name again changes nothing if the bindings do not chain: the same name results,
and no warning is added, also for a reference in no tracked package. -/
theorem normalize_idempotent (steps : List Step) (hc : (ofSteps steps).Unchained)
    (reference : String) (progress : Progress) :
    ∃ name behind,
      ((ofSteps steps).normalize reference).runFrom progress = (.ok name, behind) ∧
      ((ofSteps steps).normalize name).runFrom behind = (.ok name, behind) := by
  cases hl : (ofSteps steps).locate? (stripLeft reference) with
  | some name =>
    obtain ⟨package, target, hp, ht⟩ := exists_target_of_locate? hl
    refine ⟨name, progress, runFrom_normalize_of_locate? hl progress, ?_⟩
    apply runFrom_normalize_of_locate?
    rw [hc.stripLeft_eq_self hp (target_ne_empty_of_get?_ofSteps hp) ht]
    exact hc.locate?_eq_self hp ht
  | none =>
    have hn : ¬ (ofSteps steps).Tracks (stripLeft reference) := locate?_eq_none_iff.mp hl
    refine ⟨_, _, runFrom_normalize_of_not_tracks hn progress, ?_⟩
    rw [← stripLeft_stripLeft] at hn
    rw [runFrom_normalize_of_not_tracks hn, stripLeft_stripLeft, if_pos]
    split
    · assumption
    · simp

/-- Steps that track a package which the namespace of another one lies in. -/
def overlappingSteps : List Step := [.pair "js" "js", .ofFile { name := "a.proto", package := "q" },
  .pair "p" "js.p"]

theorem normalize_idempotent_overlappingSteps :
    (ofSteps overlappingSteps).Unchained ∧ ∃ behind,
      ((ofSteps overlappingSteps).normalize "..p.T").runFrom {} = (.ok "js.p.T", behind) ∧
      ((ofSteps overlappingSteps).normalize "js.p.T").runFrom behind = (.ok "js.p.T", behind) := by
  have hc : (ofSteps overlappingSteps).Unchained := by decide +kernel
  have hl : (ofSteps overlappingSteps).locate? (stripLeft "..p.T") = some "js.p.T" := by
    decide +kernel
  obtain ⟨name, behind, hf, hs⟩ := normalize_idempotent overlappingSteps hc "..p.T" {}
  obtain rfl : "js.p.T" = name := by
    rw [runFrom_normalize_of_locate? hl] at hf
    exact Except.ok.inj (Prod.mk.inj hf).1
  exact ⟨hc, behind, hf, hs⟩

theorem Apart.append_eq {rest back : String} (ha : packages.Apart)
    (hp : packages.get? package = some target) (ho : packages.get? other = some bound)
    (hw : Within target bound) (h : target ++ rest = bound ++ back) :
    package ++ rest = other ++ back := by
  by_cases hne : package = other
  · subst hne
    rw [hp, Option.some_inj] at ho
    subst ho
    rw [(String.append_right_inj target).mp h]
  · obtain ⟨hd, hn⟩ := ha package target other bound hp ho hne
    rcases hw with rfl | ⟨part, rfl⟩
    · exact absurd rfl hd
    · rw [hn part rfl]
      rw [child, String.append_assoc, String.append_assoc, String.append_right_inj] at h
      rw [child, String.append_assoc, String.append_assoc, h]

/-- Different references in tracked packages get different names if the bindings keep packages
apart. -/
theorem normalize_injective (packages : Packages) (ha : packages.Apart) (first second : String)
    (hf : ∃ package target, packages.get? package = some target ∧
      Within package (stripLeft first))
    (hs : ∃ package target, packages.get? package = some target ∧
      Within package (stripLeft second))
    (progress behind : Progress)
    (h : ((packages.normalize first).runFrom progress).1 =
      ((packages.normalize second).runFrom behind).1) :
    stripLeft first = stripLeft second := by
  obtain ⟨_, _, hg, hw⟩ := hf
  obtain ⟨package, target, hwf⟩ := exists_walk?_eq_some hg hw
  obtain ⟨_, _, hg, hw⟩ := hs
  obtain ⟨other, bound, hws⟩ := exists_walk?_eq_some hg hw
  obtain ⟨hp, hpw, _⟩ := walk?_spec hwf
  obtain ⟨ho, how, _⟩ := walk?_spec hws
  obtain ⟨rest, hr, hlf⟩ := exists_locate?_of_walk? hwf
  obtain ⟨back, hb, hls⟩ := exists_locate?_of_walk? hws
  rw [runFrom_normalize_of_locate? hlf, runFrom_normalize_of_locate? hls] at h
  have hn : target ++ rest = bound ++ back := Except.ok.inj h
  rw [hr] at hpw ⊢
  rw [hb] at how ⊢
  have hn' := how.append_of_append bound
  rw [← hn] at hn'
  rcases (hpw.append_of_append target).total hn' with hw | hw
  · exact ha.append_eq hp ho hw hn
  · exact (ha.append_eq ho hp hw hn.symm).symm

def nestedPackages : Packages := (({} : Packages).track "a" "A").track "a.b" "A.b"

theorem normalize_injective_nestedPackages :
    nestedPackages.Apart ∧
    ((nestedPackages.normalize ".a.b.T").runFrom {}).1 =
      ((nestedPackages.normalize "..a.b.T").runFrom { untracked := ["x"] }).1 ∧
    stripLeft ".a.b.T" = stripLeft "..a.b.T" := by
  have ha : nestedPackages.Apart := by decide +kernel
  have hf : nestedPackages.locate? (stripLeft ".a.b.T") = some "A.b.T" := by decide +kernel
  have hs : nestedPackages.locate? (stripLeft "..a.b.T") = some "A.b.T" := by decide +kernel
  have he : ((nestedPackages.normalize ".a.b.T").runFrom {}).1 =
      ((nestedPackages.normalize "..a.b.T").runFrom { untracked := ["x"] }).1 := by
    rw [runFrom_normalize_of_locate? hf, runFrom_normalize_of_locate? hs]
  refine ⟨ha, he, normalize_injective nestedPackages ha _ _ ?_ ?_ _ _ he⟩
  · exact ⟨"a", "A", by decide +kernel, by decide +kernel⟩
  · exact ⟨"a.b", "A.b", by decide +kernel, by decide +kernel⟩

end ProtoScript.Packages
