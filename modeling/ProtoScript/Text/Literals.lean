/-! # Numerals and quoted strings

A quoted string stands between double quotes. Inside it, a backslash stands in front of each double
quote and each backslash, and of nothing else.
-/

namespace ProtoScript

namespace Decimal

def ofInt : Int → String
  | .ofNat n => Nat.repr n
  | .negSucc n => "-" ++ Nat.repr (n + 1)

def padded (width n : Nat) : String :=
  String.ofList (List.replicate (width - (Nat.repr n).length) '0') ++ Nat.repr n

end Decimal

namespace Quoted

def escapeChars : List Char → List Char
  | [] => []
  | c :: rest => if c = '"' ∨ c = '\\' then '\\' :: c :: escapeChars rest else c :: escapeChars rest

def escape (text : String) : String :=
  String.ofList (escapeChars text.toList)

def quote (text : String) : String :=
  "\"" ++ escape text ++ "\""

end Quoted

end ProtoScript
