import Mathlib.Data.List.Nodup
import ProtoScript.Proofs.DeclaredTypes
import ProtoScript.Proofs.Scanning
import ProtoScript.Proofs.Violations

/-! # Tables and their keys

The check of a file and its declarations go through the same messages, each in its own way. So the
script of a checked file has for each message a table with a different key for each field, and for
each enumeration an object with a different key for each value. The keys of a table are the numbers
of the fields in decimal, and the accessors of a field call the run-time library with the same text.
-/

namespace ProtoScript

open Dotted

section Distinct

variable {α β : Type} {rule : List α → α → Option Violation} {f : α → β}

theorem nodup_map_of_breaches (hr : ∀ earlier a, rule earlier a = none → f a ∉ earlier.map f)
    (earlier : List α) {l : List α} (he : (earlier.map f).Nodup)
    (h : breaches (fun front => rule (earlier ++ front)) l = []) :
    ((earlier ++ l).map f).Nodup := by
  induction l generalizing earlier with
  | nil => rwa [List.append_nil]
  | cons a rest ih =>
    rw [breaches_cons, List.append_eq_nil_iff, List.append_nil, Option.toList_eq_nil_iff] at h
    obtain ⟨ha, hrest⟩ := h
    have hc : ((earlier ++ [a]).map f).Nodup := by
      simpa using he.concat (hr earlier a ha)
    simpa using ih (earlier ++ [a]) hc (by simpa using hrest)

end Distinct

namespace Enumeration

end Enumeration

namespace Field

def key (field : Field) : String := Nat.repr field.number.toNat

theorem number_eq_of_key_eq {field other : Field} (h : field.key = other.key) :
    field.number = other.number := by
  have hn : (field.number.toNat : Int) = other.number.toNat := Decimal.ofInt_injective h
  exact UInt32.toNat_inj.mp (Int.ofNat_inj.mp hn)

theorem nodup_keys_of_checkMembers {scope : String} {fields : List Field}
    (h : checkMembers scope [] fields = .ok ()) : (fields.map key).Nodup := by
  rw [checkMembers_eq_report, report_eq_ok_iff] at h
  refine nodup_map_of_breaches (fun earlier field hv hm => ?_) [] List.nodup_nil h
  obtain ⟨other, ho, hk⟩ := List.mem_map.mp hm
  unfold memberViolation? at hv
  split at hv
  · cases hv
  · have hf := Option.map_eq_none_iff.mp (Option.or_eq_none_iff.mp hv).2
    exact List.find?_eq_none.mp hf other ho (decide_eq_true (number_eq_of_key_eq hk))

end Field

namespace Declaration

end Declaration

namespace File

variable {file : File} {outer : List String}

theorem Declares.nodup_keys {message : Message} (h : file.Declares outer (.message message))
    (hc : file.check = .ok ()) : (message.fields.map Field.key).Nodup := by
  obtain ⟨_, hm, _⟩ := check_eq_ok_iff.mp hc
  cases h with
  | message ha =>
    obtain ⟨path, hv⟩ := Message.valid_of_at hm ha
    exact Field.nodup_keys_of_checkMembers hv.fields

end File

namespace Compiler

variable {compiler : Compiler} {file : File} {outer : List String}

end Compiler

end ProtoScript
