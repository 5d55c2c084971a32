import ProtoScript.Proofs.ByteOffsets
import ProtoScript.Proofs.Events

/-! # The walk from a reference outwards

The scopes of a reference are the reference itself and its dotted prefixes. A reference is moved
into the namespace of the first tracked package on the way from the innermost scope outwards. If
there is none, it stays as it is, and there is a warning unless it lies in a namespace.
-/

namespace ProtoScript

open Dotted

theorem Dotted.pairwise_length_scopes (name : String) :
    (scopes name).Pairwise (fun outer inner => outer.length < inner.length) := by
  have trans : IsTrans String (fun outer inner => outer.length < inner.length) :=
    ⟨fun _ _ _ => Nat.lt_trans⟩
  refine List.isChain_iff_pairwise.mp ((isChain_scopesFrom [] name.toList).imp ?_)
  rintro outer inner ⟨part, _, rfl⟩
  exact Below.length_lt ⟨part, rfl⟩

namespace Packages

/-- The first tracked package on the way from a reference through its dotted prefixes, from the
longest to the shortest. -/
def walk? (packages : Packages) (reference : String) : Option (String × String) :=
  (scopes reference).reverse.findSome? fun scope => (packages.get? scope).map (scope, ·)

variable {packages : Packages} {package target reference : String}

theorem walk?_eq_none_iff : packages.walk? reference = none ↔
    ∀ p n, packages.get? p = some n → ¬ Within p reference := by
  rw [walk?, List.findSome?_eq_none_iff]
  constructor
  · intro h p n hp hw
    have hn := h p (List.mem_reverse.mpr (mem_scopes.mpr hw))
    simp [hp] at hn
  · intro h scope hs
    rw [Option.map_eq_none_iff, Option.eq_none_iff_forall_ne_some]
    intro n hn
    exact h scope n hn (mem_scopes.mp (List.mem_reverse.mp hs))

theorem exists_walk?_eq_some (hp : packages.get? package = some target)
    (hw : Within package reference) : ∃ p n, packages.walk? reference = some (p, n) := by
  cases h : packages.walk? reference with
  | none => exact absurd hw (walk?_eq_none_iff.mp h package target hp)
  | some b => exact ⟨b.1, b.2, rfl⟩

/-- The walk ends at the longest tracked package around the reference. -/
theorem walk?_spec (h : packages.walk? reference = some (package, target)) :
    packages.get? package = some target ∧ Within package reference ∧
      ∀ p n, packages.get? p = some n → Within p reference → p.length ≤ package.length := by
  rw [walk?, List.findSome?_eq_some_iff] at h
  obtain ⟨inner, scope, outer, hl, hs, hi⟩ := h
  obtain ⟨n, hn, he⟩ := Option.map_eq_some_iff.mp hs
  obtain ⟨rfl, rfl⟩ := Prod.mk.inj he
  have hm : ∀ p, Within p reference ↔ p ∈ inner ++ scope :: outer := by
    intro p
    rw [← hl, List.mem_reverse, mem_scopes]
  have hp : (inner ++ scope :: outer).Pairwise
      (fun inner outer => outer.length < inner.length) := by
    rw [← hl]
    exact List.pairwise_reverse.mpr (pairwise_length_scopes reference)
  refine ⟨hn, (hm scope).mpr (by simp), fun p m hg hw => ?_⟩
  rcases List.mem_append.mp ((hm p).mp hw) with hmem | hmem
  · have hnone := hi p hmem
    simp [hg] at hnone
  · rcases List.mem_cons.mp hmem with rfl | hmem
    · exact Nat.le_refl _
    · exact Nat.le_of_lt ((List.pairwise_cons.mp (List.pairwise_append.mp hp).2.1).1 p hmem)

theorem exists_locate?_of_walk? (h : packages.walk? reference = some (package, target)) :
    ∃ rest, reference = package ++ rest ∧ packages.locate? reference = some (target ++ rest) := by
  obtain ⟨hp, hw, hl⟩ := walk?_spec h
  obtain ⟨rest, rfl⟩ := hw.exists_append
  exact ⟨rest, rfl, by rw [locate?_of_longest_within hp hw hl, dropScope_append]⟩

theorem locate?_of_walk?_eq_none (h : packages.walk? reference = none) :
    packages.locate? reference = if packages.isTarget reference then some reference else none := by
  have hn := walk?_eq_none_iff.mp h
  have hg : packages.get? reference = none :=
    Option.eq_none_iff_forall_ne_some.mpr fun n hg => hn reference n hg (.inl rfl)
  have he : packages.enclosing? reference = none :=
    enclosing?_eq_none_iff.mpr fun p n hp hb => hn p n hp (.inr hb)
  rw [locate?, hg, he]

/-- A reference is normalized by walking outwards through its scopes. The first tracked package is
replaced by its namespace, without a warning. If no scope is tracked, the reference stays as it is
and is kept for a warning, unless it lies in a namespace. The package found by a scan is any with
the most bytes of those around the reference, so that ties do not matter, and no byte offset is out
of range or inside of a character. -/
theorem normalize_walks_outwards (packages : Packages) (reference : String) (progress : Progress) :
    (∀ package target, packages.walk? (stripLeft reference) = some (package, target) →
      ∃ rest, stripLeft reference = package ++ rest ∧
        (packages.normalize reference).runFrom progress = (.ok (target ++ rest), progress)) ∧
    (packages.walk? (stripLeft reference) = none →
      ((∃ package target, packages.get? package = some target ∧
          Within target (stripLeft reference)) →
        (packages.normalize reference).runFrom progress = (.ok (stripLeft reference), progress)) ∧
      ((∀ package target, packages.get? package = some target →
          ¬ Within target (stripLeft reference)) →
        (packages.normalize reference).runFrom progress =
          (.ok (stripLeft reference),
            if stripLeft reference ∈ progress.untracked then progress
            else { progress with untracked := progress.untracked ++ [stripLeft reference] }))) ∧
    (∀ package target, packages.enclosing? (stripLeft reference) = some (package, target) ↔
      packages.get? package = some target ∧ Below package (stripLeft reference) ∧
        ∀ p n, packages.get? p = some n → Below p (stripLeft reference) →
          p.utf8ByteSize ≤ package.utf8ByteSize) ∧
    packages.locateByBytes (stripLeft reference) =
      .ok (packages.locate? (stripLeft reference)) := by
  refine ⟨?_, ?_, fun package target => enclosing?_eq_some_iff, locateByBytes_eq packages _⟩
  · intro package target h
    obtain ⟨rest, hr, hl⟩ := exists_locate?_of_walk? h
    exact ⟨rest, hr, runFrom_normalize_of_locate? hl progress⟩
  · intro h
    have hl := locate?_of_walk?_eq_none h
    constructor
    · intro ht
      rw [if_pos (isTarget_iff.mpr ht)] at hl
      exact runFrom_normalize_of_locate? hl progress
    · intro ht
      have hf : ¬ packages.isTarget (stripLeft reference) = true := by
        rw [isTarget_iff]
        rintro ⟨p, n, hp, hw⟩
        exact ht p n hp hw
      apply runFrom_normalize_of_not_tracks
      rw [← locate?_eq_none_iff, hl, if_neg hf]

def accentedPackages : Packages := (({} : Packages).track "é" "E").track "é.ü" "É"

theorem normalize_walks_outwards_accentedPackages :
    (accentedPackages.normalize "..é.ü.T").runFrom {} = (.ok "É.T", {}) ∧
    (accentedPackages.normalize "É.T").runFrom {} = (.ok "É.T", {}) ∧
    (accentedPackages.normalize ".éü.T").runFrom {} = (.ok "éü.T", { untracked := ["éü.T"] }) ∧
    accentedPackages.locateByBytes "é.ü.T" = .ok (some "É.T") := by
  obtain ⟨hs, _, _, hb⟩ := normalize_walks_outwards accentedPackages "..é.ü.T" {}
  obtain ⟨_, ht, _⟩ := normalize_walks_outwards accentedPackages "É.T" {}
  obtain ⟨_, hu, _⟩ := normalize_walks_outwards accentedPackages ".éü.T" {}
  obtain ⟨rest, hr, h⟩ := hs "é.ü" "É" (by decide +kernel)
  obtain rfl : rest = ".T" := by
    have he : stripLeft "..é.ü.T" = "é.ü" ++ ".T" := by decide +kernel
    exact (String.append_right_inj "é.ü").mp (hr.symm.trans he)
  have hl : accentedPackages.locate? "é.ü.T" = some "É.T" := by decide +kernel
  refine ⟨h, ?_, ?_, hl ▸ hb⟩
  · exact (ht (by decide +kernel)).1 ⟨"é.ü", "É", by decide +kernel, by decide +kernel⟩
  · refine (hu (by decide +kernel)).2 fun package target hp => ?_
    have hm : (package, target) ∈ accentedPackages.toList := mem_toList.mpr hp
    have hn : ∀ b ∈ accentedPackages.toList, ¬ Within b.2 (stripLeft ".éü.T") := by
      decide +kernel
    exact hn _ hm

end Packages

end ProtoScript
