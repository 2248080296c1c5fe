import UnionTypes.Json.Basic

/-!
# The lexemes of JSON

A text is cut into brackets, separators, strings and scalars. Blanks between them go away. Where
the text holds nothing of this kind the list ends with `broken`. A string is a lexeme also if it
spells half of a character and so no text.
-/

namespace UnionTypes.Json

inductive Token where
  | openArray
  | closeArray
  | openObject
  | closeObject
  | comma
  | colon
  /-- A string with its escapes resolved, or `none` if it spells no text. -/
  | text (s : Option String)
  /-- A number, a truth value or null. -/
  | scalar (v : Json)
  /-- Nothing that JSON knows. -/
  | broken

def isBlank (c : Char) : Bool :=
  c == ' ' || c == '\t' || c == '\n' || c == '\r'

/-- The lexeme that a character is by itself. -/
def punctuation? : Char → Option Token
  | '[' => some .openArray
  | ']' => some .closeArray
  | '{' => some .openObject
  | '}' => some .closeObject
  | ',' => some .comma
  | ':' => some .colon
  | _ => none

/-! ### Strings -/

def hexValue? (c : Char) : Option Nat :=
  if c.isDigit then some (c.toNat - '0'.toNat)
  else if 'a' ≤ c ∧ c ≤ 'f' then some (c.toNat - 'a'.toNat + 10)
  else if 'A' ≤ c ∧ c ≤ 'F' then some (c.toNat - 'A'.toNat + 10)
  else none

/-- The code unit that four hexadecimal digits spell. -/
def codeUnit? (a b c d : Char) : Option Nat := do
  let high := 16 * (← hexValue? a) + (← hexValue? b)
  let low := 16 * (← hexValue? c) + (← hexValue? d)
  return 256 * high + low

/-- Whether the code unit is the first half of a pair. -/
def isLeading (u : Nat) : Bool := 0xD800 ≤ u && u < 0xDC00

/-- Whether the code unit is the second half of a pair. -/
def isTrailing (u : Nat) : Bool := 0xDC00 ≤ u && u < 0xE000

/-- The character that two halves of a pair stand for. -/
def ofPair (u v : Nat) : Char :=
  Char.ofNat (0x10000 + (u - 0xD800) * 0x400 + (v - 0xDC00))

/-- The character of an escape of one letter. -/
def shortEscape? : Char → Option Char
  | '"' => some '"'
  | '\\' => some '\\'
  | '/' => some '/'
  | 'b' => some (Char.ofNat 8)
  | 'f' => some (Char.ofNat 12)
  | 'n' => some '\n'
  | 'r' => some '\r'
  | 't' => some '\t'
  | _ => none

/-- Cuts a string off at its closing quote: what stands before the quote, and what follows it. The
characters passed already come along, last one first. -/
def cutString (passed : List Char) : List Char → Option (List Char × List Char)
  | '"' :: cs => some (passed.reverse, cs)
  | '\\' :: c :: cs => cutString (c :: '\\' :: passed) cs
  | c :: cs => cutString (c :: passed) cs
  | [] => none

/-- Resolves the escapes between the quotes of a string: the code points of the characters, and the
code units that are spelled by digits. Control characters have to be escaped. The codes read already
come along, last one first. -/
def unescape (read : List Nat) : List Char → Option (List Nat)
  | '\\' :: 'u' :: a :: b :: c :: d :: cs => do unescape ((← codeUnit? a b c d) :: read) cs
  | '\\' :: c :: cs => do unescape ((← shortEscape? c).toNat :: read) cs
  | c :: cs => if c.toNat < 32 then none else unescape (c.toNat :: read) cs
  | [] => some read.reverse

/-- The text that the codes spell. A first half and the second half behind it make one character,
and a half on its own makes none. The characters read already come along, last one first. -/
def joinPairs (read : List Char) : List Nat → Option String
  | [] => some (String.ofList read.reverse)
  | u :: us =>
    if isLeading u then
      match us with
      | v :: us => if isTrailing v then joinPairs (ofPair u v :: read) us else none
      | [] => none
    else if isTrailing u then none
    else joinPairs (Char.ofNat u :: read) us

/-! ### Scalars -/

/-- Whether the character can stand in a number or a word. -/
def isWordChar (c : Char) : Bool :=
  c.isAlphanum || c == '-' || c == '+' || c == '.'

/-- Drops a run of digits, which must not be empty. -/
def dropDigits? (cs : List Char) : Option (List Char) :=
  match cs with
  | c :: _ => if c.isDigit then some (cs.dropWhile Char.isDigit) else none
  | [] => none

/-- Drops the whole part of a number: a zero alone, or digits that do not begin with one. -/
def dropWhole? : List Char → Option (List Char)
  | '0' :: cs => some cs
  | cs => dropDigits? cs

/-- Drops the fraction of a number, if there is one. -/
def dropFraction? : List Char → Option (List Char)
  | '.' :: cs => dropDigits? cs
  | cs => some cs

/-- Drops the exponent of a number, if there is one. -/
def dropExponent? : List Char → Option (List Char)
  | c :: cs =>
    if c == 'e' || c == 'E' then
      match cs with
      | '+' :: cs | '-' :: cs => dropDigits? cs
      | cs => dropDigits? cs
    else some (c :: cs)
  | [] => some []

def isNumber (word : List Char) : Bool :=
  let unsigned := match word with
    | '-' :: cs => cs
    | cs => cs
  ((dropWhole? unsigned).bind dropFraction?).bind dropExponent? matches some []

/-- The scalar that a word spells. -/
def scalar? (word : List Char) : Option Json :=
  if isNumber word then some (.num (String.ofList word))
  else match String.ofList word with
    | "null" => some .null
    | "true" => some (.bool true)
    | "false" => some (.bool false)
    | _ => none

/-! ### Whole texts -/

theorem length_le_of_cutString {passed cs raw rest : List Char}
    (h : cutString passed cs = some (raw, rest)) : rest.length ≤ cs.length := by
  fun_induction cutString passed cs with
  | case1 => simp_all
  | case2 _ c cs ih => have := ih h; simp; omega
  | case3 _ c cs _ _ ih => have := ih h; simp; omega
  | case4 => simp at h

def scan (cs : List Char) : List Token :=
  match cs with
  | [] => []
  | c :: cs =>
    if isBlank c then scan cs
    else match punctuation? c with
      | some t => t :: scan cs
      | none =>
        if c == '"' then
          match h : cutString [] cs with
          | some (raw, rest) =>
            have := length_le_of_cutString h
            match unescape [] raw with
            | some codes => .text (joinPairs [] codes) :: scan rest
            | none => [.broken]
          | none => [.broken]
        else
          match scalar? (c :: cs.takeWhile isWordChar) with
          | some v =>
            have := (cs.dropWhile_sublist isWordChar).length_le
            .scalar v :: scan (cs.dropWhile isWordChar)
          | none => [.broken]
termination_by cs.length
decreasing_by all_goals simp_all; try omega

end UnionTypes.Json
