import SelectiveDisclosure.Json.Value
import SelectiveDisclosure.Octets

/-!
# Writing JSON

The compact form: no blank anywhere, members in the order of the value.
-/

set_option autoImplicit false

namespace SelectiveDisclosure.Json

/-- A quote, a backslash and the characters below the space are escaped, no others. -/
def escaped (c : Char) : List Char :=
  if c = '"' then ['\\', '"']
  else if c = '\\' then ['\\', '\\']
  else if c = '\x08' then ['\\', 'b']
  else if c = '\x0c' then ['\\', 'f']
  else if c = '\n' then ['\\', 'n']
  else if c = '\r' then ['\\', 'r']
  else if c = '\t' then ['\\', 't']
  else if c.toNat < 32 then
    ['\\', 'u', '0', '0', Nat.digitChar (c.toNat / 16), Nat.digitChar (c.toNat % 16)]
  else [c]

def stringChars (s : String) : List Char :=
  '"' :: s.toList.flatMap escaped ++ ['"']

def commaSeparated (parts : List (List Char)) : List Char :=
  [','].intercalate parts

def memberChars (name : String) (value : List Char) : List Char :=
  stringChars name ++ ':' :: value

def arrayChars (items : List (List Char)) : List Char :=
  '[' :: commaSeparated items ++ [']']

def objectChars (members : List (List Char)) : List Char :=
  '\x7b' :: commaSeparated members ++ ['\x7d']

namespace Value

mutual

def chars : Value → List Char
  | .null => ['n', 'u', 'l', 'l']
  | .bool true => ['t', 'r', 'u', 'e']
  | .bool false => ['f', 'a', 'l', 's', 'e']
  | .number n => n.chars
  | .string s => stringChars s
  | .array items => arrayChars (itemsChars items)
  | .object members => objectChars (membersChars members)

def itemsChars : List Value → List (List Char)
  | [] => []
  | v :: r => chars v :: itemsChars r

def membersChars : List (String × Value) → List (List Char)
  | [] => []
  | (k, v) :: r => memberChars k (chars v) :: membersChars r

end

def text (v : Value) : String :=
  String.ofList v.chars

def octets (v : Value) : Octets :=
  Octets.ofText v.text

end Value
end SelectiveDisclosure.Json
