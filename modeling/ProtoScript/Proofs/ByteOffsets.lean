import ProtoScript.Proofs.Tracking

/-! # Scopes by byte offsets

A scope in front of a name ends at a byte offset of the name. A dot behind the scope is found by the
byte at that offset, and the name is cut there. Whatever characters the name has, the byte is there
and the offset lies between two characters, so that references are located by byte offsets as they
are by characters. Scopes around one name are ordered by their bytes as by their characters, so that
the longest of them is the same.
-/

namespace ProtoScript

/-- A byte offset at which a text cannot be read or cut. -/
inductive OffsetError where
  | outOfRange (offset : Nat)
  | insideCharacter (offset : Nat)
  deriving DecidableEq, Repr

namespace Dotted

def byteAt (text : String) (offset : Nat) : Except OffsetError UInt8 :=
  if h : offset < text.toByteArray.size then .ok text.toByteArray[offset]
  else .error (.outOfRange offset)

def dropBytes (text : String) (offset : Nat) : Except OffsetError String :=
  if text.utf8ByteSize < offset then .error (.outOfRange offset)
  else if h : String.Pos.Raw.IsValid text ⟨offset⟩ then
    .ok (text.sliceFrom (text.pos ⟨offset⟩ h)).copy
  else .error (.insideCharacter offset)

def startsWithBytes (start text : String) : Bool :=
  (text.toByteArray.extract 0 start.utf8ByteSize).data == start.toByteArray.data

/-- Decide by bytes whether a scope is a dotted prefix of a name. -/
def belowByBytes (scope name : String) : Except OffsetError Bool :=
  if scope.utf8ByteSize < name.utf8ByteSize && startsWithBytes scope name then
    (· == '.'.toUInt8) <$> byteAt name scope.utf8ByteSize
  else .ok false

variable {scope other name : String}

theorem startsWithBytes_iff_extract : startsWithBytes scope name = true ↔
    name.toByteArray.extract 0 scope.utf8ByteSize = scope.toByteArray := by
  rw [startsWithBytes, beq_iff_eq, ByteArray.ext_iff]

theorem startsWithBytes_iff : startsWithBytes scope name = true ↔ ∃ rest, name = scope ++ rest := by
  rw [startsWithBytes_iff_extract]
  constructor
  · intro h
    have hl : scope.utf8ByteSize ≤ name.utf8ByteSize := by
      simpa using congrArg ByteArray.size h
    have hv : String.Pos.Raw.IsValid name ⟨scope.utf8ByteSize⟩ := by
      refine String.Pos.Raw.isValid_iff_isValidUTF8_extract_zero.mpr ⟨hl, ?_⟩
      change (name.toByteArray.extract 0 scope.utf8ByteSize).IsValidUTF8
      rw [h]
      exact scope.isValidUTF8
    obtain ⟨front, rest, rfl, he⟩ := String.Pos.Raw.isValid_iff_exists_append.mp hv
    have hf : scope.utf8ByteSize = front.utf8ByteSize := congrArg String.Pos.Raw.byteIdx he
    rw [hf, String.toByteArray_append, ByteArray.extract_append_eq_left (by simp)] at h
    exact ⟨rest, by rw [String.toByteArray_inj.mp h]⟩
  · rintro ⟨rest, rfl⟩
    rw [String.toByteArray_append, ByteArray.extract_append_eq_left (by simp)]

theorem utf8ByteSize_dot (scope : String) :
    (scope ++ ".").utf8ByteSize = scope.utf8ByteSize + 1 := by
  rw [String.utf8ByteSize_append]
  rfl

theorem byte_eq_dot_iff (hs : startsWithBytes scope name = true)
    (hl : scope.utf8ByteSize < name.toByteArray.size) :
    name.toByteArray[scope.utf8ByteSize] = '.'.toUInt8 ↔ Below scope name := by
  have hb : Below scope name ↔ startsWithBytes (scope ++ ".") name = true :=
    startsWithBytes_iff.symm
  have hd : (scope ++ ".").toByteArray = scope.toByteArray ++ ['.'.toUInt8].toByteArray := by
    rw [String.toByteArray_append]
    rfl
  have hn : name.toByteArray.extract 0 (scope.utf8ByteSize + 1) =
      scope.toByteArray ++ [name.toByteArray[scope.utf8ByteSize]].toByteArray := by
    rw [ByteArray.extract_eq_extract_append_extract scope.utf8ByteSize (Nat.zero_le _)
      (Nat.le_succ _), ByteArray.extract_add_one hl, startsWithBytes_iff_extract.mp hs]
  rw [hb, startsWithBytes_iff_extract, utf8ByteSize_dot, hn, hd]
  constructor
  · intro h
    rw [h]
  · intro h
    simpa [ByteArray.ext_iff, Array.push_eq_push] using h

theorem Below.utf8ByteSize_lt (h : Below scope name) : scope.utf8ByteSize < name.utf8ByteSize := by
  obtain ⟨part, rfl⟩ := h
  rw [child, String.utf8ByteSize_append, utf8ByteSize_dot]
  omega

theorem belowByBytes_eq (scope name : String) :
    belowByBytes scope name = .ok (rest? scope name).isSome := by
  rw [belowByBytes]
  split
  · rename_i h
    obtain ⟨hl, hs⟩ := Bool.and_eq_true_iff.mp h
    have hl : scope.utf8ByteSize < name.toByteArray.size := of_decide_eq_true hl
    have hb : (name.toByteArray[scope.utf8ByteSize] == '.'.toUInt8) =
        (rest? scope name).isSome := by
      rw [Bool.eq_iff_iff, beq_iff_eq, byte_eq_dot_iff hs hl, below_iff_rest?]
    rw [byteAt, dif_pos hl, ← hb]
    rfl
  · rename_i h
    have hn : ¬ Below scope name := by
      intro hb
      apply h
      rw [Bool.and_eq_true_iff, decide_eq_true_eq, startsWithBytes_iff]
      exact ⟨hb.utf8ByteSize_lt, Within.exists_append (.inr hb)⟩
    rw [Bool.eq_false_iff.mpr (mt below_iff_rest?.mpr hn)]

theorem dropBytes_append (scope rest : String) :
    dropBytes (scope ++ rest) scope.utf8ByteSize = .ok rest := by
  have hl : ¬ (scope ++ rest).utf8ByteSize < scope.utf8ByteSize := by
    rw [String.utf8ByteSize_append]
    omega
  have hv : String.Pos.Raw.IsValid (scope ++ rest) ⟨scope.utf8ByteSize⟩ :=
    String.Pos.Raw.isValid_rawEndPos.append_right rest
  rw [dropBytes, if_neg hl, dif_pos hv]
  exact congrArg Except.ok String.Pos.splits_append_rawEndPos.copy_sliceFrom_eq

theorem Below.utf8ByteSize_le_iff (h : Below scope name) (h' : Below other name) :
    scope.utf8ByteSize ≤ other.utf8ByteSize ↔ scope.length ≤ other.length := by
  rcases Within.total (.inr h) (.inr h') with (rfl | hlt) | (rfl | hgt)
  · exact iff_of_true (Nat.le_refl _) (Nat.le_refl _)
  · exact iff_of_true (Nat.le_of_lt hlt.utf8ByteSize_lt) (Nat.le_of_lt hlt.length_lt)
  · exact iff_of_true (Nat.le_refl _) (Nat.le_refl _)
  · exact iff_of_false (Nat.not_le.mpr hgt.utf8ByteSize_lt) (Nat.not_le.mpr hgt.length_lt)

end Dotted

namespace Packages

open Dotted

/-- The tracked package with the most bytes that is a dotted prefix of a reference, by one scan over
all bindings. -/
def enclosingByBytes (packages : Packages) (reference : String) :
    Except OffsetError (Option (String × String)) :=
  packages.toList.foldlM
    (fun best binding => do
      if ← belowByBytes binding.1 reference then return longerBy String.utf8ByteSize best binding
      else return best)
    none

def isTargetByBytes (packages : Packages) (reference : String) : Except OffsetError Bool :=
  packages.toList.anyM fun binding =>
    if reference == binding.2 then return true else belowByBytes binding.2 reference

def locateByBytes (packages : Packages) (reference : String) :
    Except OffsetError (Option String) :=
  match packages.get? reference with
  | some target => return some target
  | none => do
    match ← packages.enclosingByBytes reference with
    | some (package, target) =>
      let rest ← dropBytes reference package.utf8ByteSize
      return some (target ++ rest)
    | none => return if ← packages.isTargetByBytes reference then some reference else none

variable {packages : Packages} {package target reference : String}

/-- A tracked package encloses a reference if and only if it has the most bytes of those around
it. -/
theorem enclosing?_eq_some_iff : packages.enclosing? reference = some (package, target) ↔
    packages.get? package = some target ∧ Below package reference ∧
      ∀ p n, packages.get? p = some n → Below p reference →
        p.utf8ByteSize ≤ package.utf8ByteSize := by
  constructor
  · intro h
    obtain ⟨hp, hb, hl⟩ := enclosing?_spec h
    exact ⟨hp, hb, fun p n hq hr => (hr.utf8ByteSize_le_iff hb).mpr (hl p n hq hr)⟩
  · rintro ⟨hp, hb, hm⟩
    exact enclosing?_of_longest hp hb fun p n hq hr => (hr.utf8ByteSize_le_iff hb).mp (hm p n hq hr)

theorem enclosingByBytes_eq_foldl (packages : Packages) (reference : String) :
    packages.enclosingByBytes reference =
      .ok ((packages.toList.filter fun b => (rest? b.1 reference).isSome).foldl
        (longerBy String.utf8ByteSize) none) := by
  have hstep : ∀ (best : Option (String × String)) (binding : String × String),
      (do if ← belowByBytes binding.1 reference then
            return longerBy String.utf8ByteSize best binding
          else return best : Except OffsetError _) =
        pure (if (rest? binding.1 reference).isSome = true then
          longerBy String.utf8ByteSize best binding else best) := by
    intro best binding
    rw [belowByBytes_eq]
    cases (rest? binding.1 reference).isSome <;> rfl
  simp only [enclosingByBytes, hstep, List.foldlM_pure, List.foldl_filter]
  rfl

theorem enclosingByBytes_eq (packages : Packages) (reference : String) :
    packages.enclosingByBytes reference = .ok (packages.enclosing? reference) := by
  rw [enclosingByBytes_eq_foldl]
  congr 1
  cases hl : packages.toList.filter (fun b => (rest? b.1 reference).isSome) with
  | nil => rw [enclosing?, hl, List.foldl_nil, List.foldl_nil]
  | cons b l =>
    obtain ⟨⟨p, n⟩, hc, hf, hm⟩ := foldl_longerBy_some String.utf8ByteSize b l
    rw [← hl] at hc hm
    obtain ⟨hp, hb⟩ := mem_filter_rest?.mp hc
    rw [List.foldl_cons, longerBy, hf]
    refine (enclosing?_eq_some_iff.mpr ⟨hp, hb, fun q m hq hr => ?_⟩).symm
    exact hm (q, m) (mem_filter_rest?.mpr ⟨hq, hr⟩)

theorem isTargetByBytes_eq (packages : Packages) (reference : String) :
    packages.isTargetByBytes reference = .ok (packages.isTarget reference) := by
  have hstep : ∀ binding : String × String,
      (if reference == binding.2 then return true else belowByBytes binding.2 reference :
        Except OffsetError Bool) = pure (within binding.2 reference) := by
    intro binding
    rw [belowByBytes_eq, within]
    cases reference == binding.2 <;> rfl
  simp only [isTargetByBytes, hstep, List.anyM_pure]
  rfl

/-- No offset is out of range or inside of a character when a reference is located by bytes, and the
name is the same as by characters. -/
theorem locateByBytes_eq (packages : Packages) (reference : String) :
    packages.locateByBytes reference = .ok (packages.locate? reference) := by
  rw [locateByBytes, locate?, enclosingByBytes_eq, isTargetByBytes_eq]
  cases packages.get? reference with
  | some target => rfl
  | none =>
    cases he : packages.enclosing? reference with
    | none => rfl
    | some b =>
      obtain ⟨package, target⟩ := b
      obtain ⟨_, hb, _⟩ := enclosing?_spec he
      obtain ⟨rest, rfl⟩ := Within.exists_append (.inr hb)
      change (dropBytes (package ++ rest) package.utf8ByteSize >>= fun rest =>
        pure (some (target ++ rest))) = .ok (some (target ++ dropScope package (package ++ rest)))
      rw [dropBytes_append, dropScope_append]
      rfl

end Packages

end ProtoScript
