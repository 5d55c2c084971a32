import ProtoScript.Json.Basic
import ProtoScript.Text.Literals

/-! # Writing JSON

Values are written without blanks. In strings, only quotes, backslashes and control characters
are escaped.
-/

namespace ProtoScript.Json

namespace Writer

def hexDigit (n : Nat) : Char :=
  Nat.digitChar n

def character (c : Char) : List Char :=
  if c = '"' then ['\\', '"']
  else if c = '\\' then ['\\', '\\']
  else if c = '\n' then ['\\', 'n']
  else if c = '\r' then ['\\', 'r']
  else if c = '\t' then ['\\', 't']
  else if c.toNat < 0x20 then
    ['\\', 'u', '0', '0', hexDigit (c.toNat / 16), hexDigit (c.toNat % 16)]
  else [c]

def string (text : String) : String :=
  "\"" ++ String.ofList (text.toList.flatMap character) ++ "\""

end Writer

mutual

def render : Json → String
  | .null => "null"
  | .bool true => "true"
  | .bool false => "false"
  | .integer n => Decimal.ofInt n
  | .real digits exponent => Decimal.ofInt digits ++ "e" ++ Decimal.ofInt exponent
  | .string text => Writer.string text
  | .array items => "[" ++ ",".intercalate (renderItems items) ++ "]"
  | .object members => "\x7b" ++ ",".intercalate (renderMembers members) ++ "\x7d"

def renderItems : List Json → List String
  | [] => []
  | item :: rest => item.render :: renderItems rest

def renderMembers : List (String × Json) → List String
  | [] => []
  | (key, value) :: rest => (Writer.string key ++ ":" ++ value.render) :: renderMembers rest

end

end ProtoScript.Json
