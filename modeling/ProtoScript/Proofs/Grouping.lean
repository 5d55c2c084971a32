import Mathlib.Data.List.Induction
import Mathlib.Data.List.Nodup
import ProtoScript.Extensions

/-! # Grouping of recorded extensions

Extensions that were recorded one after the other stand in groups of one extended message. The
groups are in the order in which the messages were extended first, and each group keeps the order
of recording.
-/

namespace ProtoScript

section FirstUses

variable {α : Type} [DecidableEq α]

theorem eraseDups_concat (l : List α) (a : α) :
    (l ++ [a]).eraseDups = if a ∈ l then l.eraseDups else l.eraseDups ++ [a] := by
  rw [List.eraseDups_append]
  by_cases h : a ∈ l
  · simp [h, List.removeAll]
  · simp [h, List.removeAll, List.eraseDups_cons]

theorem nodup_eraseDups (l : List α) : l.eraseDups.Nodup := by
  induction l using List.reverseRecOn with
  | nil => exact List.nodup_nil
  | append_singleton l a ih =>
    rw [eraseDups_concat]
    split
    · exact ih
    · rename_i h
      have hn : a ∉ l.eraseDups := fun ha => h (List.mem_eraseDups.mp ha)
      exact List.nodup_append.mpr ⟨ih, by simp, by grind⟩

theorem pairwise_idxOf_eraseDups (l : List α) :
    l.eraseDups.Pairwise (fun a b => l.idxOf a < l.idxOf b) := by
  induction l using List.reverseRecOn with
  | nil => exact .nil
  | append_singleton l a ih =>
    have hl : ∀ b ∈ l.eraseDups, (l ++ [a]).idxOf b = l.idxOf b ∧ l.idxOf b < l.length := by
      intro b hb
      have hm : b ∈ l := List.mem_eraseDups.mp hb
      exact ⟨List.idxOf_append_of_mem hm, List.idxOf_lt_length_of_mem hm⟩
    have hp : l.eraseDups.Pairwise (fun b c => (l ++ [a]).idxOf b < (l ++ [a]).idxOf c) := by
      refine ih.imp_of_mem fun hb hc h => ?_
      rwa [(hl _ hb).1, (hl _ hc).1]
    rw [eraseDups_concat]
    split
    · exact hp
    · rename_i ha
      refine List.pairwise_append.mpr ⟨hp, List.pairwise_singleton _ _, fun b hb c hc => ?_⟩
      obtain rfl := List.mem_singleton.mp hc
      rw [(hl b hb).1, List.idxOf_append_of_notMem ha]
      exact Nat.lt_add_right _ (hl b hb).2

theorem eraseDups_filter (p : α → Bool) (l : List α) :
    (l.filter p).eraseDups = l.eraseDups.filter p := by
  induction l using List.reverseRecOn with
  | nil => rfl
  | append_singleton l a ih =>
    by_cases hp : p a
    · have hm : a ∈ l.filter p ↔ a ∈ l := by simp [hp]
      rw [List.filter_append, List.filter_singleton, hp, cond_true, eraseDups_concat,
        eraseDups_concat, ih]
      simp only [hm]
      split
      · rfl
      · simp [hp]
    · rw [List.filter_append, eraseDups_concat]
      split <;> simp [hp, ih]

theorem eraseDups_flatMap {keys : List α} {group : α → List α} (hn : keys.Nodup)
    (hg : ∀ key ∈ keys, group key ≠ [] ∧ ∀ a ∈ group key, a = key) :
    (keys.flatMap group).eraseDups = keys := by
  induction keys with
  | nil => rfl
  | cons key keys ih =>
    obtain ⟨hk, hn⟩ := List.nodup_cons.mp hn
    obtain ⟨⟨hne, hc⟩, hg⟩ := List.forall_mem_cons.mp hg
    have hfirst : (group key).eraseDups = [key] := by
      obtain ⟨a, rest, he⟩ := List.exists_cons_of_ne_nil hne
      have hr : rest.filter (fun b => !b == a) = [] := by
        refine List.filter_eq_nil_iff.mpr fun b hb => ?_
        have hba : b = a := (hc b (by simp [he, hb])).trans (hc a (by simp [he])).symm
        simp [hba]
      rw [he, List.eraseDups_cons, hr, hc a (by simp [he])]
      rfl
    have hrest : (keys.flatMap group).removeAll (group key) = keys.flatMap group := by
      refine List.filter_eq_self.mpr fun b hb => ?_
      obtain ⟨other, ho, hb⟩ := List.mem_flatMap.mp hb
      have hm : b ∉ group key := by
        intro hm
        exact hk (hc b hm ▸ (hg other ho).2 b hb ▸ ho)
      simpa using hm
    rw [List.flatMap_cons, List.eraseDups_append, hfirst, hrest, ih hn hg]
    rfl

end FirstUses

namespace Extensions

/-- The groups of extensions that were recorded in the given order. -/
def groupsOf (recorded : List Extension) : List (String × List Extension) :=
  (recorded.map (·.target)).eraseDups.map fun target =>
    (target, recorded.filter (·.target = target))

def grouped (recorded : List Extension) : List Extension :=
  (recorded.map (·.target)).eraseDups.flatMap fun target => recorded.filter (·.target = target)

theorem addTo_map (extension : Extension) {targets : List String} (hn : targets.Nodup)
    (group : String → List Extension) :
    addTo extension (targets.map fun target => (target, group target)) =
      if extension.target ∈ targets then
        targets.map fun target =>
          (target, if target = extension.target then group target ++ [extension] else group target)
      else targets.map (fun target => (target, group target)) ++
        [(extension.target, [extension])] := by
  induction targets with
  | nil => rfl
  | cons target targets ih =>
    obtain ⟨hm, hn⟩ := List.nodup_cons.mp hn
    rw [List.map_cons, addTo]
    by_cases h : target = extension.target
    · have hc : ∀ t ∈ targets, (t, group t) =
          (t, if t = extension.target then group t ++ [extension] else group t) := by
        intro t ht
        have hne : t ≠ extension.target := fun he => hm (h.trans he.symm ▸ ht)
        rw [if_neg hne]
      simp [h, List.map_congr_left hc]
    · have hne : extension.target ≠ target := fun he => h he.symm
      simp only [h, if_false, ih hn, List.mem_cons, hne, false_or]
      split <;> simp [h]

theorem filter_target_concat (recorded : List Extension) (extension : Extension)
    (target : String) :
    (recorded ++ [extension]).filter (·.target = target) =
      if target = extension.target then recorded.filter (·.target = target) ++ [extension]
      else recorded.filter (·.target = target) := by
  by_cases h : target = extension.target
  · simp [h]
  · have hne : extension.target ≠ target := fun he => h he.symm
    simp [h, hne]

/-- Recording one more extension adds it to its group, or starts the last group with it. -/
theorem addTo_groupsOf (recorded : List Extension) (extension : Extension) :
    addTo extension (groupsOf recorded) = groupsOf (recorded ++ [extension]) := by
  simp only [groupsOf, addTo_map extension (nodup_eraseDups _), List.map_append, List.map_cons,
    List.map_nil, eraseDups_concat, List.mem_eraseDups, filter_target_concat]
  by_cases h : extension.target ∈ recorded.map (·.target)
  · simp only [h, if_true]
  · have hc : ∀ t ∈ (recorded.map (·.target)).eraseDups, t ≠ extension.target :=
      fun t ht he => h (he ▸ List.mem_eraseDups.mp ht)
    have hf : recorded.filter (·.target = extension.target) = [] := by
      refine List.filter_eq_nil_iff.mpr fun e he => ?_
      have hne : e.target ≠ extension.target := fun ht => h (ht ▸ List.mem_map_of_mem he)
      simpa using hne
    simp only [h, if_false, List.map_append, List.map_cons, List.map_nil, if_true, hf,
      List.nil_append, List.append_cancel_right_eq]
    exact List.map_congr_left fun t ht => by rw [if_neg (hc t ht)]

theorem groups_foldl_record (recorded : List Extension) :
    (recorded.foldl record {}).groups = groupsOf recorded := by
  induction recorded using List.reverseRecOn with
  | nil => rfl
  | append_singleton recorded extension ih =>
    rw [List.foldl_append, List.foldl_cons, List.foldl_nil, record, ih, addTo_groupsOf]

theorem toList_foldl_record (recorded : List Extension) :
    (recorded.foldl record {}).toList = grouped recorded := by
  rw [toList, groups_foldl_record, groupsOf, List.flatMap_map, grouped]

theorem recordAll_eq_foldl (extensions : Extensions) (scope : String) (fields : List Field) :
    extensions.recordAll scope fields =
      (fields.map (Extension.mk scope)).foldl record extensions := by
  rw [recordAll, List.foldl_map]

theorem mem_grouped {recorded : List Extension} {extension : Extension} :
    extension ∈ grouped recorded ↔ extension ∈ recorded := by
  simp only [grouped, List.mem_flatMap, List.mem_eraseDups, List.mem_filter]
  constructor
  · rintro ⟨_, _, h, _⟩
    exact h
  · intro h
    exact ⟨extension.target, List.mem_map_of_mem h, h, by simp⟩

variable {recorded : List Extension} {extension : Extension}

theorem filter_flatMap_targets {targets : List String} (hn : targets.Nodup)
    (recorded : List Extension) (target : String) :
    (targets.flatMap fun t => recorded.filter (·.target = t)).filter (·.target = target) =
      if target ∈ targets then recorded.filter (·.target = target) else [] := by
  induction targets with
  | nil => rfl
  | cons first rest ih =>
    obtain ⟨hm, hn⟩ := List.nodup_cons.mp hn
    rw [List.flatMap_cons, List.filter_append, List.filter_filter, ih hn]
    by_cases h : target = first
    · subst h
      simp [hm]
    · have hf : recorded.filter (fun e => decide (e.target = target) && decide (e.target = first))
          = [] := by
        refine List.filter_eq_nil_iff.mpr fun e _ => ?_
        grind
      simp [h, hf]

theorem filter_grouped (recorded : List Extension) (target : String) :
    (grouped recorded).filter (·.target = target) = recorded.filter (·.target = target) := by
  rw [grouped, filter_flatMap_targets (nodup_eraseDups _)]
  split
  · rfl
  · rename_i h
    refine (List.filter_eq_nil_iff.mpr fun e he => ?_).symm
    have hne : e.target ≠ target := by
      intro ht
      exact h (List.mem_eraseDups.mpr (ht ▸ List.mem_map_of_mem he))
    simpa using hne

theorem grouped_perm (recorded : List Extension) : (grouped recorded).Perm recorded := by
  refine List.perm_iff_count.mpr fun e => ?_
  have hc : ∀ l : List Extension, (l.filter (·.target = e.target)).count e = l.count e :=
    fun l => List.count_filter (by simp)
  rw [← hc, filter_grouped, hc]

theorem mem_flatMap_targets {targets : List String}
    (h : extension ∈ targets.flatMap fun t => recorded.filter (·.target = t)) :
    extension.target ∈ targets := by
  obtain ⟨t, ht, he⟩ := List.mem_flatMap.mp h
  have hte : extension.target = t := by simpa using (List.mem_filter.mp he).2
  rwa [hte]

theorem exists_grouped_eq (h : extension ∈ recorded) :
    ∃ before behind, grouped recorded =
        before ++ recorded.filter (·.target = extension.target) ++ behind ∧
      ∀ other, other ∈ before ∨ other ∈ behind → other.target ≠ extension.target := by
  have hm : extension.target ∈ (recorded.map (·.target)).eraseDups :=
    List.mem_eraseDups.mpr (List.mem_map_of_mem h)
  obtain ⟨first, last, hs⟩ := List.append_of_mem hm
  have hn := nodup_eraseDups (recorded.map (·.target))
  rw [hs, List.nodup_middle, List.nodup_cons] at hn
  refine ⟨first.flatMap fun t => recorded.filter (·.target = t),
    last.flatMap fun t => recorded.filter (·.target = t), ?_, ?_⟩
  · rw [grouped, hs, List.flatMap_append, List.flatMap_cons, ← List.append_assoc]
  · intro other ho he
    have hmem : other.target ∈ first ++ last :=
      List.mem_append.mpr (ho.imp mem_flatMap_targets mem_flatMap_targets)
    exact hn.1 (he ▸ hmem)

theorem eraseDups_map_target_grouped (recorded : List Extension) :
    ((grouped recorded).map (·.target)).eraseDups = (recorded.map (·.target)).eraseDups := by
  rw [grouped, List.map_flatMap]
  refine eraseDups_flatMap (nodup_eraseDups _) fun target ht => ⟨?_, ?_⟩
  · obtain ⟨e, he, rfl⟩ := List.mem_map.mp (List.mem_eraseDups.mp ht)
    have hm : e ∈ recorded.filter (·.target = e.target) := List.mem_filter.mpr ⟨he, by simp⟩
    exact List.ne_nil_of_mem (List.mem_map_of_mem hm)
  · intro a ha
    obtain ⟨e, he, rfl⟩ := List.mem_map.mp ha
    simpa using (List.mem_filter.mp he).2

end Extensions

end ProtoScript
