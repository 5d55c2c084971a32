import Mathlib.Data.List.Induction
import ProtoScript.Packages
import ProtoScript.Proofs.Dictionaries
import ProtoScript.Proofs.Dotted

/-! # Tracked packages

Of the bindings of one package the last that has effect counts, so that files which agree on the
namespaces of packages are tracked in any order. A reference is located through the longest tracked
package around it, and not located exactly if it lies in no tracked package and in no namespace of
one.
-/

namespace ProtoScript

namespace Packages

open Dotted

variable {packages : Packages} {package target reference : String}

theorem mem_toList : (package, target) ∈ packages.toList ↔ packages.get? package = some target :=
  Dictionary.get?_eq_some_iff_mem.symm

theorem get?_track (packages : Packages) (package target k : String) :
    (packages.track package target).get? k =
      if k = trim package ∧ k ≠ "" ∧ target ≠ "" then some target else packages.get? k := by
  simp only [track]
  by_cases h : trim package = "" ∨ target = ""
  · have hn : ¬ (k = trim package ∧ k ≠ "" ∧ target ≠ "") := by
      rintro ⟨rfl, hp, ht⟩
      exact h.elim hp ht
    rw [if_neg hn, if_pos (by simpa using h)]
  · obtain ⟨hp, ht⟩ := not_or.mp h
    rw [if_neg (by simpa using h), get?, Dictionary.get?_insert]
    by_cases hk : k = trim package
    · simp [hk, hp, ht]
    · simp [hk, get?]

/-- Tracking the file binds the package. -/
def Binds (package : String) (file : File) : Prop :=
  package = trim file.package ∧ package ≠ "" ∧ file.targetNamespace ≠ ""

instance (package : String) (file : File) : Decidable (Binds package file) :=
  inferInstanceAs (Decidable (_ ∧ _ ∧ _))

theorem get?_trackFile (packages : Packages) (file : File) (k : String) :
    (packages.trackFile file).get? k =
      if Binds k file then some file.targetNamespace else packages.get? k :=
  get?_track ..

theorem ext_get? {first second : Packages}
    (h : ∀ package, first.get? package = second.get? package) : first = second := by
  obtain ⟨d⟩ := first
  obtain ⟨e⟩ := second
  obtain rfl : d = e := Dictionary.ext_get? h
  rfl

theorem trackFile_trackFile (packages : Packages) (file : File) :
    (packages.trackFile file).trackFile file = packages.trackFile file := by
  refine ext_get? fun k => ?_
  simp only [get?_trackFile]
  split <;> rfl

theorem trackFile_comm (packages : Packages) {f g : File}
    (h : ∀ k, Binds k f → Binds k g → f.targetNamespace = g.targetNamespace) :
    (packages.trackFile f).trackFile g = (packages.trackFile g).trackFile f := by
  refine ext_get? fun k => ?_
  simp only [get?_trackFile]
  by_cases hf : Binds k f
  · by_cases hg : Binds k g
    · rw [if_pos hg, if_pos hf, h k hf hg]
    · rw [if_neg hg, if_pos hf, if_pos hf]
  · rw [if_neg hf, if_neg hf]

theorem trackFiles_perm (packages : Packages) {files others : List File} (hp : files.Perm others)
    (h : ∀ f ∈ files, ∀ g ∈ files, ∀ k, Binds k f → Binds k g →
      f.targetNamespace = g.targetNamespace) :
    packages.trackFiles files = packages.trackFiles others :=
  hp.foldl_eq' (fun f hf g hg packages => trackFile_comm packages (h f hf g hg)) packages

theorem get?_foldl_track {α : Type} (package target : α → String) (packages : Packages)
    (bindings : List α) (k : String) :
    (bindings.foldl (fun packages b => packages.track (package b) (target b)) packages).get? k =
      ((bindings.filter fun b => k = trim (package b) ∧ k ≠ "" ∧ target b ≠ "").getLast?.map
        target).or (packages.get? k) := by
  induction bindings using List.reverseRecOn with
  | nil => rfl
  | append_singleton bindings b ih =>
    rw [List.foldl_append, List.foldl_cons, List.foldl_nil, get?_track, ih, List.filter_append]
    by_cases h : k = trim (package b) ∧ k ≠ "" ∧ target b ≠ ""
    · rw [if_pos h, List.filter_singleton, decide_eq_true h, cond_true, List.getLast?_concat,
        Option.map_some, Option.some_or]
    · rw [if_neg h, List.filter_singleton, decide_eq_false h, cond_false, List.append_nil]

theorem get?_trackFiles (packages : Packages) (files : List File) (k : String) :
    (packages.trackFiles files).get? k =
      ((files.filter (Binds k ·)).getLast?.map File.targetNamespace).or (packages.get? k) :=
  get?_foldl_track File.package File.targetNamespace packages files k

theorem get?_trackFiles_of_agree {files : List File} {file : File} (hf : file ∈ files)
    (hb : Binds package file)
    (ha : ∀ other ∈ files, trim other.package = trim file.package →
      other.targetNamespace = file.targetNamespace) :
    (packages.trackFiles files).get? package = some file.targetNamespace := by
  have hn : files.filter (Binds package ·) ≠ [] :=
    List.ne_nil_of_mem (List.mem_filter.mpr ⟨hf, decide_eq_true hb⟩)
  have hl := List.getLast_mem hn
  obtain ⟨hm, hd⟩ := List.mem_filter.mp hl
  have hp := (of_decide_eq_true hd).1
  rw [get?_trackFiles, List.getLast?_eq_some_getLast hn, Option.map_some, Option.some_or,
    ha _ hm (hp.symm.trans hb.1)]

def longerBy (size : String → Nat) (best : Option (String × String)) (binding : String × String) :
    Option (String × String) :=
  match best with
  | some b => if size binding.1 < size b.1 then some b else some binding
  | none => some binding

theorem foldl_longerBy_some (size : String → Nat) (b : String × String)
    (l : List (String × String)) :
    ∃ c ∈ b :: l, l.foldl (longerBy size) (some b) = some c ∧
      ∀ a ∈ b :: l, size a.1 ≤ size c.1 := by
  induction l generalizing b with
  | nil => exact ⟨b, by simp, rfl, by simp⟩
  | cons x l ih =>
    rw [List.foldl_cons, longerBy]
    split
    · rename_i hlt
      obtain ⟨c, hc, hf, hm⟩ := ih b
      refine ⟨c, by grind, hf, ?_⟩
      have hb := hm b List.mem_cons_self
      grind
    · rename_i hge
      obtain ⟨c, hc, hf, hm⟩ := ih x
      refine ⟨c, by grind, hf, ?_⟩
      have hx := hm x List.mem_cons_self
      grind

theorem foldl_longer_some (b : String × String) (l : List (String × String)) :
    ∃ c ∈ b :: l, l.foldl longer (some b) = some c ∧ ∀ a ∈ b :: l, a.1.length ≤ c.1.length :=
  foldl_longerBy_some String.length b l

theorem mem_filter_rest? : (package, target) ∈ packages.toList.filter
      (fun b => (rest? b.1 reference).isSome) ↔
    packages.get? package = some target ∧ Below package reference := by
  rw [List.mem_filter, mem_toList, below_iff_rest?]

theorem enclosing?_eq_none_iff : packages.enclosing? reference = none ↔
    ∀ p n, packages.get? p = some n → ¬ Below p reference := by
  rw [enclosing?]
  constructor
  · intro h p n hp hb
    have hm := mem_filter_rest?.mpr ⟨hp, hb⟩
    cases hl : packages.toList.filter (fun b => (rest? b.1 reference).isSome) with
    | nil => simp [hl] at hm
    | cons b l =>
      obtain ⟨c, _, hc, _⟩ := foldl_longer_some b l
      rw [hl, List.foldl_cons, longer, hc] at h
      simp at h
  · intro h
    have hl : packages.toList.filter (fun b => (rest? b.1 reference).isSome) = [] := by
      refine List.eq_nil_iff_forall_not_mem.mpr fun b hb => ?_
      obtain ⟨hp, hr⟩ := mem_filter_rest?.mp hb
      exact h _ _ hp hr
    rw [hl, List.foldl_nil]

theorem enclosing?_spec (h : packages.enclosing? reference = some (package, target)) :
    packages.get? package = some target ∧ Below package reference ∧
      ∀ p n, packages.get? p = some n → Below p reference → p.length ≤ package.length := by
  rw [enclosing?] at h
  cases hl : packages.toList.filter (fun b => (rest? b.1 reference).isSome) with
  | nil => simp [hl] at h
  | cons b l =>
    obtain ⟨c, hc, hf, hm⟩ := foldl_longer_some b l
    rw [hl, List.foldl_cons, longer, hf, Option.some_inj] at h
    subst h
    rw [← hl] at hc hm
    obtain ⟨hp, hr⟩ := mem_filter_rest?.mp hc
    exact ⟨hp, hr, fun p n hp hr => hm (p, n) (mem_filter_rest?.mpr ⟨hp, hr⟩)⟩

/-- A tracked package around a reference encloses it if no longer one does. -/
theorem enclosing?_of_longest (hp : packages.get? package = some target)
    (hb : Below package reference)
    (hl : ∀ p n, packages.get? p = some n → Below p reference → p.length ≤ package.length) :
    packages.enclosing? reference = some (package, target) := by
  cases he : packages.enclosing? reference with
  | none => exact absurd hb (enclosing?_eq_none_iff.mp he _ _ hp)
  | some b =>
    obtain ⟨q, n⟩ := b
    obtain ⟨hq, hr, hm⟩ := enclosing?_spec he
    obtain rfl : q = package :=
      hr.eq_of_length_eq hb (Nat.le_antisymm (hl _ _ hq hr) (hm _ _ hp hb))
    rw [hp, Option.some_inj] at hq
    rw [hq]

theorem isTarget_iff : packages.isTarget reference = true ↔
    ∃ p n, packages.get? p = some n ∧ Within n reference := by
  simp only [isTarget, List.any_eq_true, Prod.exists, mem_toList, within_iff]

/-- The reference lies in a tracked package or in the namespace of one. -/
def Tracks (packages : Packages) (reference : String) : Prop :=
  ∃ p n, packages.get? p = some n ∧ (Within p reference ∨ Within n reference)

theorem locate?_isSome_iff : (packages.locate? reference).isSome ↔ packages.Tracks reference := by
  rw [locate?]
  cases hg : packages.get? reference with
  | some n => exact iff_of_true rfl ⟨reference, n, hg, .inl (.inl rfl)⟩
  | none =>
    cases he : packages.enclosing? reference with
    | some b =>
      obtain ⟨p, n⟩ := b
      obtain ⟨hp, hb, _⟩ := enclosing?_spec he
      exact iff_of_true rfl ⟨p, n, hp, .inl (.inr hb)⟩
    | none =>
      have hn := enclosing?_eq_none_iff.mp he
      have ht : packages.Tracks reference ↔ packages.isTarget reference = true := by
        rw [isTarget_iff]
        constructor
        · rintro ⟨p, n, hp, (rfl | hb) | hw⟩
          · simp [hg] at hp
          · exact absurd hb (hn _ _ hp)
          · exact ⟨p, n, hp, hw⟩
        · rintro ⟨p, n, hp, hw⟩
          exact ⟨p, n, hp, .inr hw⟩
      rw [ht]
      cases packages.isTarget reference <;> simp

theorem locate?_eq_none_iff : packages.locate? reference = none ↔ ¬ packages.Tracks reference := by
  rw [← locate?_isSome_iff, Option.not_isSome_iff_eq_none]

instance (packages : Packages) (reference : String) : Decidable (packages.Tracks reference) :=
  decidable_of_iff _ locate?_isSome_iff

/-- A reference below a tracked package is moved into its namespace if no longer package is
around it. -/
theorem locate?_of_longest (hp : packages.get? package = some target)
    (hb : Below package reference)
    (hl : ∀ p n, packages.get? p = some n → Within p reference → p.length ≤ package.length) :
    packages.locate? reference = some (target ++ dropScope package reference) := by
  have hg : packages.get? reference = none := by
    refine Option.eq_none_iff_forall_ne_some.mpr fun n hn => ?_
    exact absurd (hl _ _ hn (.inl rfl)) (Nat.not_le.mpr hb.length_lt)
  rw [locate?, hg, enclosing?_of_longest hp hb fun p n hp hb => hl p n hp (.inr hb)]

theorem locate?_of_longest_within (hp : packages.get? package = some target)
    (hw : Within package reference)
    (hl : ∀ p n, packages.get? p = some n → Within p reference → p.length ≤ package.length) :
    packages.locate? reference = some (target ++ dropScope package reference) := by
  rcases hw with rfl | hb
  · have hd : dropScope reference reference = "" := by
      simpa using dropScope_append reference ""
    rw [locate?, hp, hd, String.append_empty]
  · exact locate?_of_longest hp hb hl

theorem exists_longest_within (hp : packages.get? package = some target)
    (hw : Within package reference) :
    ∃ p n, packages.get? p = some n ∧ Within p reference ∧
      ∀ q m, packages.get? q = some m → Within q reference → q.length ≤ p.length := by
  cases hg : packages.get? reference with
  | some n =>
    refine ⟨reference, n, hg, .inl rfl, ?_⟩
    rintro q m _ (rfl | hb)
    · exact Nat.le_refl _
    · exact Nat.le_of_lt hb.length_lt
  | none =>
    have hb : ∀ q m, packages.get? q = some m → Within q reference → Below q reference := by
      rintro q m hq (rfl | hb)
      · simp [hg] at hq
      · exact hb
    cases he : packages.enclosing? reference with
    | none => exact absurd (hb _ _ hp hw) (enclosing?_eq_none_iff.mp he _ _ hp)
    | some b =>
      obtain ⟨p, n⟩ := b
      obtain ⟨hp, hr, hm⟩ := enclosing?_spec he
      exact ⟨p, n, hp, .inr hr, fun q m hq hw => hm q m hq (hb q m hq hw)⟩

end Packages

end ProtoScript
