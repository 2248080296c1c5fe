import UnionTypes.Json.Token
import UnionTypes.Settings.Basic

/-!
# Settings documents

A document sets one thing a line, as in `max_union_length = 8`. Between and behind the settings
there may be blank lines, blanks and comments. Keys may be quoted; values are truth values and
whole numbers, in decimal notation with a sign or in hexadecimal, octal or binary notation without
one, with single underscores between digits. A document in which anything else stands, or a key
that is not known or was set before, is malformed as a whole.
-/

namespace UnionTypes.Settings

/-! ### Lines -/

def isLineBlank (c : Char) : Bool := c == ' ' || c == '\t'

/-- Whether the character may stand in a comment or between quotes: no control character but the
tabulator. -/
def isPrintable (c : Char) : Bool :=
  c == '\t' || (32 ≤ c.toNat && c.toNat != 127)

/-- The lines of a document. A line ends with a line feed, before which a carriage return belongs
to the ending; the last line has no ending. -/
def lines (current : List Char) : List Char → List (List Char)
  | [] => [current.reverse]
  | '\r' :: '\n' :: cs | '\n' :: cs => current.reverse :: lines [] cs
  | c :: cs => lines (c :: current) cs

/-- Whether nothing stands here but blanks and a comment. -/
def isVoid (cs : List Char) : Bool :=
  match cs.dropWhile isLineBlank with
  | [] => true
  | c :: cs => c == '#' && cs.all isPrintable

/-! ### Keys -/

def isBareKeyChar (c : Char) : Bool := c.isAlphanum || c == '_' || c == '-'

/-- The character with the code that the hexadecimal digits spell. -/
def ofHex? (digits : List Char) : Option Char := do
  let code ← digits.foldlM (fun n c => do return 16 * n + (← Json.hexValue? c)) 0
  if code.isValidChar then some (Char.ofNat code) else none

/-- The character of an escape of one letter. -/
def keyEscape? (c : Char) : Option Char :=
  if c == 'e' then some (Char.ofNat 27)
  else if c == '/' then none
  else Json.shortEscape? c

/-- Resolves the escapes of a key in double quotes, which ends at the next such quote: the key, and
what follows the quote. The characters read already come along, last one first. -/
def quotedKey? (read : List Char) : List Char → Option (String × List Char)
  | '"' :: cs => some (String.ofList read.reverse, cs)
  | '\\' :: 'x' :: a :: b :: cs => do quotedKey? ((← ofHex? [a, b]) :: read) cs
  | '\\' :: 'u' :: a :: b :: c :: d :: cs => do quotedKey? ((← ofHex? [a, b, c, d]) :: read) cs
  | '\\' :: 'U' :: a :: b :: c :: d :: e :: f :: g :: h :: cs => do
    quotedKey? ((← ofHex? [a, b, c, d, e, f, g, h]) :: read) cs
  | '\\' :: c :: cs => do quotedKey? ((← keyEscape? c) :: read) cs
  | c :: cs => if isPrintable c then quotedKey? (c :: read) cs else none
  | [] => none

/-- Reads a key: without quotes, in double quotes with escapes, or in single quotes as it stands. -/
def key? : List Char → Option (String × List Char)
  | '"' :: cs => quotedKey? [] cs
  | '\'' :: cs =>
    match cs.span (· != '\'') with
    | (key, _ :: rest) => if key.all isPrintable then some (String.ofList key, rest) else none
    | _ => none
  | cs =>
    match cs.span isBareKeyChar with
    | ([], _) => none
    | (key, rest) => some (String.ofList key, rest)

/-! ### Values -/

inductive Value where
  | flag (b : Bool)
  | number (n : Nat)
deriving DecidableEq, Repr

/-- Reads digits of the given base with single underscores between them. The flag says whether a
digit stands just before. -/
def digits? (base value : Nat) : (afterDigit : Bool) → List Char → Option Nat
  | afterDigit, [] => if afterDigit then some value else none
  | true, '_' :: cs => digits? base value false cs
  | _, c :: cs =>
    match Json.hexValue? c with
    | some d => if d < base then digits? base (base * value + d) true cs else none
    | none => none

/-- Reads a decimal number without a sign, which does not begin with a zero unless it is zero. -/
def decimal? : List Char → Option Nat
  | ['0'] => some 0
  | '0' :: _ => none
  | cs => digits? 10 0 false cs

/-- Reads a whole number. Of the numbers with a minus only zero is a size. -/
def number? : List Char → Option Nat
  | '0' :: 'x' :: cs => digits? 16 0 false cs
  | '0' :: 'o' :: cs => digits? 8 0 false cs
  | '0' :: 'b' :: cs => digits? 2 0 false cs
  | '+' :: cs => decimal? cs
  | '-' :: cs => (decimal? cs).filter (· == 0)
  | cs => decimal? cs

def value? (cs : List Char) : Option Value :=
  match String.ofList cs with
  | "true" => some (.flag true)
  | "false" => some (.flag false)
  | _ => ((number? cs).filter (· < sizeBound)).map .number

/-! ### Documents -/

/-- What a line sets, and `none` for a line that sets nothing. -/
def line? (cs : List Char) : Option (Option (String × Value)) :=
  if isVoid cs then some none
  else do
    let (key, rest) ← key? (cs.dropWhile isLineBlank)
    match rest.dropWhile isLineBlank with
    | '=' :: rest =>
      let (word, rest) := (rest.dropWhile isLineBlank).span fun c => !isLineBlank c && c != '#'
      let value ← value? word
      if isVoid rest then some (some (key, value)) else none
    | _ => none

/-- The settings with one more of them set. -/
def set? (s : Settings) (key : String) (value : Value) : Option Settings :=
  match key, value with
  | "diagnostics", .flag b => some { s with diagnostics := b }
  | "max_union_length", .number n => some { s with maxUnionLength := n }
  | "qualified_names", .flag b => some { s with qualifiedNames := b }
  | _, _ => none

/-- The text without the mark that may stand before it. -/
def dropMark : List Char → List Char
  | c :: cs => if c.toNat = 0xFEFF then cs else c :: cs
  | [] => []

/-- The settings that a document gives, of whatever size. -/
def read? (text : String) : Option Settings := do
  let entries := (← (lines [] (dropMark text.toList)).mapM line?).filterMap id
  if (entries.map (·.1)).Nodup then
    entries.foldlM (fun s e => s.set? e.1 e.2) {}
  else none

/-- The settings that a document gives, unless they are refused. -/
def ofDocument (text : String) : Except ReadFailure Settings :=
  match read? text with
  | some s => s.check.mapError .refused
  | none => .error .malformed

/-- The settings that a file gives, from its content if there is such a file. -/
def ofFile (content : Option ByteArray) : Except ReadFailure Settings :=
  match content.bind String.fromUTF8? with
  | some text => ofDocument text
  | none => .error .malformed

end UnionTypes.Settings
