import Mathlib.Data.List.Nodup
import Mathlib.Data.List.Sort
import ProtoScript.Dictionary

/-! # Look-ups by keys that differ

In a list whose keys differ each key is looked up to the value that it is listed with, so that the
order does not matter. The entries of a dictionary are such a list, and a dictionary is determined
by its look-ups.
-/

namespace ProtoScript

section Lookup

variable {β : Type} {l other : List (String × β)} {key : String} {value : β}

theorem lookup_eq_some_iff_mem (h : (l.map Prod.fst).Nodup) :
    l.lookup key = some value ↔ (key, value) ∈ l := by
  induction l with
  | nil => simp
  | cons e l ih =>
    obtain ⟨he, hl⟩ := List.nodup_cons.mp h
    rw [Dictionary.lookup_cons_eq_ite, List.mem_cons]
    by_cases hk : key = e.1
    · subst hk
      have hn : (e.1, value) ∉ l := fun hm => he (List.mem_map.mpr ⟨_, hm, rfl⟩)
      simp [hn, Prod.ext_iff, eq_comm]
    · have hn : (key, value) ≠ e := fun h => hk (congrArg Prod.fst h)
      simp [hk, hn, ih hl]

theorem lookup_perm (hp : l.Perm other) (h : (l.map Prod.fst).Nodup) (key : String) :
    l.lookup key = other.lookup key := by
  have h' : (other.map Prod.fst).Nodup := (hp.map Prod.fst).nodup_iff.mp h
  ext value
  rw [lookup_eq_some_iff_mem h, lookup_eq_some_iff_mem h', hp.mem_iff]

end Lookup

namespace Dictionary

theorem nodup_keys (d : Dictionary) : (d.entries.map Prod.fst).Nodup := by
  refine List.pairwise_map.mpr (d.sorted.imp fun {a b} h he => ?_)
  exact String.lt_irrefl a.1 (he ▸ h)

theorem get?_eq_some_iff_mem {d : Dictionary} {key value : String} :
    d.get? key = some value ↔ (key, value) ∈ d.entries :=
  lookup_eq_some_iff_mem d.nodup_keys

theorem ext_get? {d e : Dictionary} (h : ∀ key, d.get? key = e.get? key) : d = e := by
  have hm : ∀ a, a ∈ d.entries ↔ a ∈ e.entries := by
    rintro ⟨key, value⟩
    rw [← get?_eq_some_iff_mem, ← get?_eq_some_iff_mem, h]
  have irrefl : Std.Irrefl fun a b : String × String => a.1 < b.1 :=
    ⟨fun a => String.lt_irrefl a.1⟩
  have antisymm : Std.Antisymm fun a b : String × String => a.1 < b.1 :=
    ⟨fun a _ hab hba => absurd (String.lt_trans hab hba) (String.lt_irrefl a.1)⟩
  obtain ⟨entries, hd⟩ := d
  obtain ⟨others, he⟩ := e
  obtain rfl : entries = others := hd.eq_of_mem_iff he hm
  rfl

theorem get?_foldl_insert (bindings : List (String × String))
    (h : (bindings.map Prod.fst).Nodup) (d : Dictionary) (key : String) :
    (bindings.foldl (fun d b => d.insert b.1 b.2) d).get? key =
      (bindings.lookup key).or (d.get? key) := by
  induction bindings generalizing d with
  | nil => rfl
  | cons b rest ih =>
    obtain ⟨hb, hr⟩ := List.nodup_cons.mp h
    rw [List.foldl_cons, ih hr, get?_insert, lookup_cons_eq_ite]
    by_cases hk : key = b.1
    · have hn : rest.lookup key = none := by
        refine List.lookup_eq_none_iff.mpr fun p hp => ?_
        have hne : b.1 ≠ p.1 := fun he => hb (he ▸ List.mem_map_of_mem hp)
        simpa [hk] using hne
      simp [hk, hk ▸ hn]
    · simp [hk]

theorem get?_ofList {bindings : List (String × String)} (h : (bindings.map Prod.fst).Nodup)
    (key : String) : (ofList bindings).get? key = bindings.lookup key := by
  have hn : ({} : Dictionary).get? key = none := rfl
  rw [ofList, get?_foldl_insert bindings h, hn, Option.or_none]

theorem ofList_entries (d : Dictionary) : ofList d.entries = d :=
  ext_get? fun key => get?_ofList d.nodup_keys key

theorem ofList_perm {first second : List (String × String)} (hp : first.Perm second)
    (h : (first.map Prod.fst).Nodup) : ofList first = ofList second := by
  refine ext_get? fun key => ?_
  rw [get?_ofList h, get?_ofList ((hp.map Prod.fst).nodup_iff.mp h), lookup_perm hp h]

end Dictionary

end ProtoScript
