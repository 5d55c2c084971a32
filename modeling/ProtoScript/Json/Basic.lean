/-! # JSON values

Numbers are kept apart by how they are written, since only an integer that fits 64 bits counts
as one. A record is read from an object or, by position, from an array.
-/

namespace ProtoScript

inductive Json where
  | null
  | bool (value : Bool)
  /-- A number without fraction and exponent that fits a signed or unsigned word of 64 bits. -/
  | integer (value : Int)
  /-- Any other number: `digits` times ten to the power `exponent`. -/
  | real (digits exponent : Int)
  | string (text : String)
  | array (items : List Json)
  | object (members : List (String × Json))
  deriving Repr, Inhabited

namespace Json

mutual

def depth : Json → Nat
  | .array items => depthItems items + 1
  | .object members => depthMembers members + 1
  | _ => 0

def depthItems : List Json → Nat
  | [] => 0
  | item :: rest => max item.depth (depthItems rest)

def depthMembers : List (String × Json) → Nat
  | [] => 0
  | (_, value) :: rest => max value.depth (depthMembers rest)

end

theorem depth_le_of_mem {items : List Json} {j : Json} (h : j ∈ items) :
    j.depth ≤ depthItems items := by
  induction items with
  | nil => simp at h
  | cons a items ih =>
    rw [depthItems]
    rcases List.mem_cons.mp h with rfl | h
    · exact Nat.le_max_left _ _
    · exact Nat.le_trans (ih h) (Nat.le_max_right _ _)

theorem depth_le_of_mem_members {members : List (String × Json)} {m : String × Json}
    (h : m ∈ members) : m.2.depth ≤ depthMembers members := by
  induction members with
  | nil => simp at h
  | cons a members ih =>
    rw [depthMembers]
    rcases List.mem_cons.mp h with rfl | h
    · exact Nat.le_max_left _ _
    · exact Nat.le_trans (ih h) (Nat.le_max_right _ _)

theorem mem_of_lookup {members : List (String × Json)} {key : String} {j : Json}
    (h : members.lookup key = some j) : (key, j) ∈ members := by
  induction members with
  | nil => simp at h
  | cons a members ih =>
    obtain ⟨k, v⟩ := a
    by_cases hk : key = k
    · subst hk
      simp_all
    · rw [List.lookup_cons, beq_eq_false_iff_ne.mpr hk] at h
      exact List.mem_cons_of_mem _ (ih h)

def string? : Json → Option String
  | .string text => some text
  | _ => none

def integer? : Json → Option Int
  | .integer value => some value
  | _ => none

def uint32? (j : Json) : Option UInt32 := do
  let n ← j.integer?
  if 0 ≤ n ∧ n < UInt32.size then some (UInt32.ofNat n.toNat) else none

def int32? (j : Json) : Option Int32 := do
  let n ← j.integer?
  if Int32.minValue.toInt ≤ n ∧ n ≤ Int32.maxValue.toInt then some (Int32.ofInt n) else none

def int64? (j : Json) : Option Int := do
  let n ← j.integer?
  if Int64.minValue.toInt ≤ n ∧ n ≤ Int64.maxValue.toInt then some n else none

def list? {α : Type} (decode : Json → Option α) : Json → Option (List α)
  | .array items => items.mapM decode
  | _ => none

theorem list?_congr {α : Type} {f g : Json → Option α} {j : Json}
    (h : ∀ i : Json, i.depth < j.depth → f i = g i) : list? f j = list? g j := by
  cases j with
  | array items =>
    have hi : ∀ i ∈ items, f i = g i := fun i hi => h i (by
      rw [depth]; exact Nat.lt_succ_of_le (depth_le_of_mem hi))
    simp only [list?]
    clear h
    induction items with
    | nil => simp
    | cons a items ih =>
      simp only [List.mapM_cons, hi a (by simp), ih (fun i h => hi i (by simp [h]))]
  | _ => rfl

def nullable? {α : Type} (decode : Json → Option α) : Json → Option (Option α)
  | .null => some none
  | j => (decode j).map some

/-- Whether a value is a record: an object, or an array of at most `size` items. -/
def isRecord (size : Nat) : Json → Bool
  | .object _ => true
  | .array items => items.length ≤ size
  | _ => false

/-- What a record holds at a place: the member with the key if it is an object, and the item at the
position if it is an array. -/
def at? (position : Nat) (key : String) : Json → Option Json
  | .object members => members.lookup key
  | .array items => items[position]?
  | _ => none

theorem isRecord_eq_false {size : Nat} {j : Json} (h : j.depth = 0) : j.isRecord size = false := by
  cases j <;> simp_all [depth, isRecord]

theorem depth_lt_of_at? {position : Nat} {key : String} {j v : Json}
    (h : j.at? position key = some v) : v.depth < j.depth := by
  cases j with
  | object members =>
    rw [depth]
    exact Nat.lt_succ_of_le (depth_le_of_mem_members (mem_of_lookup h))
  | array items =>
    rw [depth]
    exact Nat.lt_succ_of_le (depth_le_of_mem (List.mem_of_getElem? h))
  | _ => simp [at?] at h

def required {α : Type} (j : Json) (position : Nat) (key : String) (decode : Json → Option α) :
    Option α :=
  (j.at? position key).bind decode

/-- Read what a record holds at a place, which stands for `default` if it is left out. -/
def optional {α : Type} (j : Json) (position : Nat) (key : String) (default : α)
    (decode : Json → Option α) : Option α :=
  match j.at? position key with
  | some value => decode value
  | none => some default

theorem optional_congr {α : Type} {j : Json} {position : Nat} {key : String} {default : α}
    {f g : Json → Option α} (h : ∀ v, j.at? position key = some v → f v = g v) :
    j.optional position key default f = j.optional position key default g := by
  rw [optional, optional]
  split
  · exact h _ ‹_›
  · rfl

end Json

end ProtoScript
