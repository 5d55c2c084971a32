import ProtoScript.Json.Numeral

/-! # Reading JSON

The reader accepts one JSON value with blanks around it. Arrays and objects may be nested 127
deep. Of the members of an object with one key, the last counts.
-/

namespace ProtoScript.Json

namespace Reader

def isBlank (c : Char) : Bool :=
  c == ' ' || c == '\t' || c == '\n' || c == '\r'

def skipBlanks (text : List Char) : List Char :=
  text.dropWhile isBlank

def hexDigit? (c : Char) : Option Nat :=
  if '0' ≤ c ∧ c ≤ '9' then some (c.toNat - '0'.toNat)
  else if 'a' ≤ c ∧ c ≤ 'f' then some (c.toNat - 'a'.toNat + 10)
  else if 'A' ≤ c ∧ c ≤ 'F' then some (c.toNat - 'A'.toNat + 10)
  else none

def unit? (a b c d : Char) : Option Nat := do
  return ((← hexDigit? a) * 16 + (← hexDigit? b)) * 256 + (← hexDigit? c) * 16 + (← hexDigit? d)

def isHighSurrogate (unit : Nat) : Bool := 0xD800 ≤ unit && unit < 0xDC00

def isLowSurrogate (unit : Nat) : Bool := 0xDC00 ≤ unit && unit < 0xE000

def simpleEscape? : Char → Option Char
  | '"' => some '"'
  | '\\' => some '\\'
  | '/' => some '/'
  | 'b' => some '\x08'
  | 'f' => some '\x0c'
  | 'n' => some '\n'
  | 'r' => some '\r'
  | 't' => some '\t'
  | _ => none

def characters : List Char → Option (List Char × List Char)
  | '\\' :: 'u' :: a :: b :: c :: d :: rest => do
    let unit ← unit? a b c d
    if isHighSurrogate unit then
      match rest with
      | '\\' :: 'u' :: a :: b :: c :: d :: rest =>
        let low ← unit? a b c d
        if isLowSurrogate low then
          let (chars, rest) ← characters rest
          return (Char.ofNat (0x10000 + (unit - 0xD800) * 0x400 + (low - 0xDC00)) :: chars, rest)
        else none
      | _ => none
    else if isLowSurrogate unit then none
    else
      let (chars, rest) ← characters rest
      return (Char.ofNat unit :: chars, rest)
  | '\\' :: c :: rest => do
    let c ← simpleEscape? c
    let (chars, rest) ← characters rest
    return (c :: chars, rest)
  | '"' :: rest => some ([], rest)
  | c :: rest =>
    if c = '\\' ∨ c.toNat < 0x20 then none
    else do
      let (chars, rest) ← characters rest
      return (c :: chars, rest)
  | [] => none

def digits (text : List Char) : Option (List Char × List Char) :=
  let (read, rest) := text.span Char.isDigit
  if read.isEmpty then none else some (read, rest)

def fraction : List Char → Option (Option (List Char) × List Char)
  | '.' :: rest => (digits rest).map fun (read, rest) => (some read, rest)
  | rest => some (none, rest)

def exponent : List Char → Option (Option Int × List Char)
  | c :: rest =>
    if c = 'e' ∨ c = 'E' then
      match rest with
      | '-' :: rest => (digits rest).map fun (read, rest) =>
          (some (-(Nat.ofDigitChars 10 read 0 : Int)), rest)
      | '+' :: rest => (digits rest).map fun (read, rest) =>
          (some (Nat.ofDigitChars 10 read 0 : Int), rest)
      | rest => (digits rest).map fun (read, rest) =>
          (some (Nat.ofDigitChars 10 read 0 : Int), rest)
    else some (none, c :: rest)
  | [] => some (none, [])

def magnitude (negative : Bool) (text : List Char) : Option (Json × List Char) := do
  let (whole, rest) ← digits text
  if whole.length > 1 ∧ whole.head? = some '0' then none
  else
    let (places, rest) ← fraction rest
    let (exponent, rest) ← exponent rest
    let value ← Numeral.toJson? { negative, whole, places, exponent }
    return (value, rest)

def number : List Char → Option (Json × List Char)
  | '-' :: rest => magnitude true rest
  | rest => magnitude false rest

/-- An object whose keys differ, each with its last value. -/
def lastOfEach (members : List (String × Json)) : List (String × Json) :=
  members.foldr (fun m kept => if kept.any (·.1 == m.1) then kept else m :: kept) []

mutual

/-- Read a value whose arrays and objects are nested at most `depth` deep. Each call passes on
less fuel than it was given. -/
def value : (fuel depth : Nat) → List Char → Option (Json × List Char)
  | 0, _, _ => none
  | fuel + 1, depth, text =>
    match skipBlanks text with
    | 'n' :: 'u' :: 'l' :: 'l' :: rest => some (.null, rest)
    | 't' :: 'r' :: 'u' :: 'e' :: rest => some (.bool true, rest)
    | 'f' :: 'a' :: 'l' :: 's' :: 'e' :: rest => some (.bool false, rest)
    | '"' :: rest =>
      (characters rest).map fun (chars, rest) => (.string (String.ofList chars), rest)
    | '[' :: rest =>
      match depth with
      | 0 => none
      | depth + 1 =>
        match skipBlanks rest with
        | ']' :: rest => some (.array [], rest)
        | rest => (items fuel depth rest).map fun (read, rest) => (.array read, rest)
    | '\x7b' :: rest =>
      match depth with
      | 0 => none
      | depth + 1 =>
        match skipBlanks rest with
        | '\x7d' :: rest => some (.object [], rest)
        | rest => (members fuel depth rest).map fun (read, rest) =>
            (.object (lastOfEach read), rest)
    | rest => number rest

def items : (fuel depth : Nat) → List Char → Option (List Json × List Char)
  | 0, _, _ => none
  | fuel + 1, depth, text => do
    let (item, rest) ← value fuel depth text
    match skipBlanks rest with
    | ',' :: rest =>
      let (others, rest) ← items fuel depth rest
      return (item :: others, rest)
    | ']' :: rest => return ([item], rest)
    | _ => none

def members : (fuel depth : Nat) → List Char → Option (List (String × Json) × List Char)
  | 0, _, _ => none
  | fuel + 1, depth, text =>
    match skipBlanks text with
    | '"' :: rest => do
      let (key, rest) ← characters rest
      match skipBlanks rest with
      | ':' :: rest =>
        let (item, rest) ← value fuel depth rest
        match skipBlanks rest with
        | ',' :: rest =>
          let (others, rest) ← members fuel depth rest
          return ((String.ofList key, item) :: others, rest)
        | '\x7d' :: rest => return ([(String.ofList key, item)], rest)
        | _ => none
      | _ => none
    | _ => none

end

end Reader

def parse? (text : String) : Option Json :=
  match Reader.value (2 * text.length + 2) 127 text.toList with
  | some (j, rest) => if Reader.skipBlanks rest = [] then some j else none
  | none => none

end ProtoScript.Json
