import ProtoScript.Text.Literals

/-! # Scanning printed texts

A scanner reads a part of a text from its front and returns it with the rest. Scanners read back
what printers write, whatever stands behind it.
-/

namespace ProtoScript

namespace Scan

def literal? : List Char → List Char → Option (List Char)
  | [], text => some text
  | _ :: _, [] => none
  | c :: literal, d :: text => if c = d then literal? literal text else none

def literalAtEnd? (literal text : List Char) : Option (List Char) :=
  (literal? literal.reverse text.reverse).map List.reverse

def until? (stop : Char) : List Char → Option (List Char × List Char)
  | [] => none
  | c :: text =>
    if c = stop then some ([], text)
    else (until? stop text).map fun (part, rest) => (c :: part, rest)

def atLast? (stop : Char) (text : List Char) : Option (List Char × List Char) :=
  (until? stop text.reverse).map fun (part, rest) => (rest.reverse, part.reverse)

theorem bind_eq_some {α β : Type} {scan : Option α} {next : α → Option β} {a : α} {b : β}
    (ha : scan = some a) (hb : next a = some b) : scan >>= next = some b := by
  rw [ha]
  exact hb

theorem literal?_append (literal rest : List Char) :
    literal? literal (literal ++ rest) = some rest := by
  induction literal with
  | nil => rfl
  | cons c literal ih => simp [literal?, ih]

theorem literalAtEnd?_append (before literal : List Char) :
    literalAtEnd? literal (before ++ literal) = some before := by
  rw [literalAtEnd?, List.reverse_append, literal?_append, Option.map_some, List.reverse_reverse]

theorem until?_append {stop : Char} {part : List Char} (h : stop ∉ part) (rest : List Char) :
    until? stop (part ++ stop :: rest) = some (part, rest) := by
  induction part with
  | nil => simp [until?]
  | cons c part ih =>
    obtain ⟨hc, hp⟩ := not_or.mp (mt List.mem_cons.mpr h)
    simp [until?, Ne.symm hc, ih hp]

theorem atLast?_append {stop : Char} {part : List Char} (h : stop ∉ part) (before : List Char) :
    atLast? stop (before ++ stop :: part) = some (before, part) := by
  have hp : stop ∉ part.reverse := mt List.mem_reverse.mp h
  have hr : (before ++ stop :: part).reverse = part.reverse ++ stop :: before.reverse := by simp
  simp [atLast?, hr, until?_append hp]

end Scan

namespace Decimal

def value : List Char → Int
  | '-' :: digits => -(Nat.ofDigitChars 10 digits 0 : Nat)
  | digits => (Nat.ofDigitChars 10 digits 0 : Nat)

theorem toList_ofInt (n : Nat) : (ofInt n).toList = Nat.toDigits 10 n :=
  Nat.toList_repr

theorem toList_ofInt_negSucc (n : Nat) :
    (ofInt (.negSucc n)).toList = '-' :: Nat.toDigits 10 (n + 1) := by
  simp [ofInt]

theorem not_mem_toDigits {c : Char} (h : ¬ c.isDigit) (n : Nat) : c ∉ Nat.toDigits 10 n :=
  fun hm => h (Nat.isDigit_of_mem_toDigits (by decide) (by decide) hm)

theorem not_mem_ofInt {c : Char} (hd : ¬ c.isDigit) (hm : c ≠ '-') (n : Int) :
    c ∉ (ofInt n).toList := by
  cases n with
  | ofNat n =>
    rw [Int.ofNat_eq_natCast, toList_ofInt]
    exact not_mem_toDigits hd n
  | negSucc n =>
    rw [toList_ofInt_negSucc, List.mem_cons, not_or]
    exact ⟨hm, not_mem_toDigits hd _⟩

theorem value_ofInt (n : Int) : value (ofInt n).toList = n := by
  cases n with
  | ofNat n =>
    rw [Int.ofNat_eq_natCast, toList_ofInt, value]
    · rw [Nat.ofDigitChars_ten_toDigits]
    · intro digits h
      have hm : '-' ∉ Nat.toDigits 10 n := not_mem_toDigits (by decide) n
      exact hm (h ▸ List.mem_cons_self)
  | negSucc n =>
    rw [toList_ofInt_negSucc, value, Nat.ofDigitChars_ten_toDigits]
    rfl

theorem ofInt_injective : Function.Injective ofInt := by
  intro m n h
  rw [← value_ofInt m, h, value_ofInt]

end Decimal

namespace Quoted

/-- Read a quoted string from behind its opening quote. A backslash stands in front of a character
that is read as it is, and the first other double quote ends the string. -/
def body? : List Char → Option (List Char × List Char)
  | [] => none
  | ['\\'] => none
  | '\\' :: c :: text => (body? text).map fun (part, rest) => (c :: part, rest)
  | c :: text =>
    if c = '"' then some ([], text)
    else (body? text).map fun (part, rest) => (c :: part, rest)

theorem body?_cons {c : Char} (h : c ≠ '"') (h' : c ≠ '\\') (text : List Char) :
    body? (c :: text) = (body? text).map fun (part, rest) => (c :: part, rest) := by
  rw [body?]
  · exact if_neg h
  · simp [h']
  · simp [h']

theorem body?_escapeChars_append (value rest : List Char) :
    body? (escapeChars value ++ '"' :: rest) = some (value, rest) := by
  induction value with
  | nil => rfl
  | cons c value ih =>
    rw [escapeChars]
    split
    · rw [List.cons_append, List.cons_append, body?, ih, Option.map_some]
    · next h =>
      obtain ⟨hq, hb⟩ := not_or.mp h
      rw [List.cons_append, body?_cons hq hb, ih, Option.map_some]

theorem body?_append {text part rest : List Char} (h : body? text = some (part, rest))
    (more : List Char) : body? (text ++ more) = some (part, rest ++ more) := by
  fun_induction body? text generalizing part with
  | case1 => cases h
  | case2 => cases h
  | case3 c text ih =>
    obtain ⟨⟨inner, _⟩, hi, he⟩ := Option.map_eq_some_iff.mp h
    cases he
    simp [body?, ih hi]
  | case4 text =>
    cases h
    rfl
  | case5 c text hb hs hq ih =>
    obtain ⟨⟨inner, _⟩, hi, he⟩ := Option.map_eq_some_iff.mp h
    cases he
    have hc : c ≠ '\\' := by
      rintro rfl
      cases text with
      | nil => exact hb rfl rfl
      | cons d text => exact hs d text rfl rfl
    rw [List.cons_append, body?_cons hq hc, ih hi, Option.map_some]

def scan? : List Char → Option (List Char × List Char)
  | '"' :: text => body? text
  | _ => none

theorem toList_quote (value : String) :
    (quote value).toList = '"' :: (escapeChars value.toList ++ ['"']) := by
  simp [quote, escape]

/-- A quoted string is read back, whatever stands behind it. -/
theorem scan?_quote_append (value : String) (rest : List Char) :
    scan? ((quote value).toList ++ rest) = some (value.toList, rest) := by
  rw [toList_quote, List.cons_append, List.append_assoc]
  exact body?_escapeChars_append value.toList rest

theorem scan?_append {text part rest : List Char} (h : scan? text = some (part, rest))
    (more : List Char) : scan? (text ++ more) = some (part, rest ++ more) := by
  unfold scan? at h
  split at h
  · exact body?_append h more
  · cases h

theorem quote_append_inj {value other rest rest' : String}
    (h : quote value ++ rest = quote other ++ rest') : value = other ∧ rest = rest' := by
  have hs := scan?_quote_append value rest.toList
  rw [← String.toList_append, h, String.toList_append, scan?_quote_append] at hs
  obtain ⟨hv, hr⟩ := Prod.mk.inj (Option.some.inj hs)
  exact ⟨String.ext hv.symm, String.ext hr.symm⟩

theorem quote_injective : Function.Injective quote := by
  intro value other h
  exact (quote_append_inj (congrArg (· ++ "") h)).1

theorem scan?_of_quote_eq_append {value front back : String} (h : quote value = front ++ back)
    (hb : back ≠ "") : scan? front.toList = none := by
  cases hs : scan? front.toList with
  | none => rfl
  | some read =>
    have hq := scan?_append hs back.toList
    have hv := scan?_quote_append value []
    rw [List.append_nil, h, String.toList_append, hq] at hv
    have hn : read.2 ++ back.toList = [] := (Prod.mk.inj (Option.some.inj hv)).2
    exact absurd (String.toList_eq_nil_iff.mp (List.append_eq_nil_iff.mp hn).2) hb

end Quoted

end ProtoScript
