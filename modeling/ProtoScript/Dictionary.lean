/-! # Dictionaries

A dictionary binds texts to texts. Its entries stand in increasing order of their keys, by code
points, so two dictionaries that bind the same keys to the same values are equal.
-/

namespace ProtoScript

theorem Dictionary.sorted_nil :
    ([] : List (String × String)).Pairwise (fun a b => a.1 < b.1) :=
  .nil

structure Dictionary where
  entries : List (String × String) := []
  sorted : entries.Pairwise (fun a b => a.1 < b.1) := by exact Dictionary.sorted_nil
  deriving DecidableEq, Repr

namespace Dictionary

/-- Put a binding at its place among sorted entries, in place of an earlier one of its key. -/
def insertEntry (key value : String) : List (String × String) → List (String × String)
  | [] => [(key, value)]
  | entry :: rest =>
    if key < entry.1 then (key, value) :: entry :: rest
    else if key = entry.1 then (key, value) :: rest
    else entry :: insertEntry key value rest

theorem mem_insertEntry {key value : String} {e : String × String} {l : List (String × String)}
    (h : e ∈ insertEntry key value l) : e = (key, value) ∨ e ∈ l := by
  induction l with
  | nil => simpa [insertEntry] using h
  | cons a l ih =>
    rw [insertEntry] at h
    split at h
    · simpa using h
    · split at h
      · rcases List.mem_cons.mp h with h | h
        · exact .inl h
        · exact .inr (List.mem_cons_of_mem _ h)
      · rcases List.mem_cons.mp h with rfl | h
        · exact .inr List.mem_cons_self
        · exact (ih h).imp id (List.mem_cons_of_mem _)

theorem sorted_insertEntry (key value : String) {l : List (String × String)}
    (h : l.Pairwise (fun a b => a.1 < b.1)) :
    (insertEntry key value l).Pairwise (fun a b => a.1 < b.1) := by
  induction l with
  | nil => simp [insertEntry]
  | cons a l ih =>
    obtain ⟨ha, hl⟩ := List.pairwise_cons.mp h
    rw [insertEntry]
    split
    · rename_i hk
      refine List.pairwise_cons.mpr ⟨fun e he => ?_, h⟩
      rcases List.mem_cons.mp he with rfl | he
      · exact hk
      · exact String.lt_trans hk (ha e he)
    · split
      · rename_i hk
        exact List.pairwise_cons.mpr ⟨fun e he => hk ▸ ha e he, hl⟩
      · rename_i hlt hne
        refine List.pairwise_cons.mpr ⟨fun e he => ?_, ih hl⟩
        rcases mem_insertEntry he with rfl | he
        · exact Std.lt_of_le_of_ne (Std.not_lt.mp hlt) (Ne.symm hne)
        · exact ha e he

def insert (d : Dictionary) (key value : String) : Dictionary where
  entries := insertEntry key value d.entries
  sorted := sorted_insertEntry key value d.sorted

def ofList (bindings : List (String × String)) : Dictionary :=
  bindings.foldl (fun d b => d.insert b.1 b.2) {}

def get? (d : Dictionary) (key : String) : Option String :=
  d.entries.lookup key

theorem lookup_cons_eq_ite {β : Type} (k : String) (e : String × β) (l : List (String × β)) :
    (e :: l).lookup k = if k = e.1 then some e.2 else l.lookup k := by
  rw [List.lookup_cons]
  by_cases h : k = e.1
  · simp [h]
  · simp [h, beq_eq_false_iff_ne.mpr h]

theorem lookup_insertEntry (key value k : String) (l : List (String × String)) :
    (insertEntry key value l).lookup k = if k = key then some value else l.lookup k := by
  induction l with
  | nil => rw [insertEntry, lookup_cons_eq_ite]
  | cons a l ih =>
    rw [insertEntry]
    split
    · rw [lookup_cons_eq_ite]
    · split
      · rename_i hk
        simp only [lookup_cons_eq_ite, hk]
        split <;> rfl
      · rename_i hk
        simp only [lookup_cons_eq_ite, ih]
        by_cases h : k = a.1
        · simp [h, Ne.symm hk]
        · simp [h]

@[simp] theorem get?_insert (d : Dictionary) (key value k : String) :
    (d.insert key value).get? k = if k = key then some value else d.get? k :=
  lookup_insertEntry key value k d.entries

end Dictionary

end ProtoScript
