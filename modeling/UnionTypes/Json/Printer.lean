import UnionTypes.Json.Basic

/-!
# Printing JSON

The compact text of a value: no blanks, entries in their order, and in strings only the quote, the
backslash and control characters escaped.
-/

namespace UnionTypes.Json

def hexDigit (n : Nat) : Char :=
  if n < 10 then Char.ofNat ('0'.toNat + n) else Char.ofNat ('a'.toNat + n - 10)

/-- How a character is written inside a string: those that have a short escape with it, other
control characters by their code, and every other character as it is. -/
def escape (c : Char) : List Char :=
  match c with
  | '"' => ['\\', '"']
  | '\\' => ['\\', '\\']
  | '\n' => ['\\', 'n']
  | '\r' => ['\\', 'r']
  | '\t' => ['\\', 't']
  | c =>
    if c.toNat = 8 then ['\\', 'b']
    else if c.toNat = 12 then ['\\', 'f']
    else if c.toNat < 32 then
      ['\\', 'u', '0', '0', hexDigit (c.toNat / 16), hexDigit (c.toNat % 16)]
    else [c]

def quote (s : String) : String :=
  "\"" ++ String.ofList (s.toList.flatMap escape) ++ "\""

mutual

/-- The compact text of a value. Nothing is written for a gap. -/
def print : Json → String
  | .null => "null"
  | .bool b => if b then "true" else "false"
  | .num spelling => spelling
  | .str s => quote s
  | .arr items => "[" ++ ",".intercalate (printAll items) ++ "]"
  | .obj entries => "\x7b" ++ ",".intercalate (printEntries entries) ++ "\x7d"
  | .gap _ => ""

def printAll : List Json → List String
  | [] => []
  | v :: vs => print v :: printAll vs

def printEntries : List (String × Json) → List String
  | [] => []
  | (key, v) :: es => (quote key ++ ":" ++ print v) :: printEntries es

end

end UnionTypes.Json
