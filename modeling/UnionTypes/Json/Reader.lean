import UnionTypes.Json.Token

/-!
# Reading JSON

Lexemes are put together with a stack of the arrays and objects that are still open. Reading always
gives a value: where the text goes wrong, or stops too early, everything that is still open is
closed around a torn value, so that what stands before that place can be decoded.

A string that spells no text, and an array or object inside too many others, is read to its end and
leaves a gap: a decoder that has no use for it passes over it, and one that has fails there.
-/

namespace UnionTypes.Json

/-- An array or object that is still open, with what it holds so far, last one first. -/
inductive Frame where
  | array (items : List Json)
  /-- The key is the one whose value is read next, or was read last. It is `none` if it spells no
  text. -/
  | object (entries : List (String × Json)) (key : Option String)

/-- What has to come next. -/
inductive Expected where
  | value
  /-- A value, or the end of the array. -/
  | firstItem
  /-- A key, or the end of the object. -/
  | firstKey
  | key
  | colon
  /-- A comma, or the end of what is open. -/
  | separator

/-- How far the reading has come. -/
inductive Progress where
  | reading (frames : List Frame) (expected : Expected)
  | done (v : Json)

/-- As many arrays and objects as this can be looked into, one inside the other. -/
def maxNesting : Nat := 127

/-- What is left of a value that cannot be shown. -/
def hide (v : Json) (g : Gap) : Json := .gap (if v.isWhole then g else .torn)

/-- The entry of a key, which may spell no text. -/
def entry : Option String → Json → String × Json
  | some key, v => (key, v)
  | none, v => ("", hide v .unnamed)

def Frame.add (v : Json) : Frame → Frame
  | .array items => .array (v :: items)
  | .object entries key => .object (entry key v :: entries) key

def Frame.content : Frame → Json
  | .array items => .arr items.reverse
  | .object entries _ => .obj entries.reverse

/-- The array or object that a frame comes to inside the others. It cannot be looked into if they
are too many. -/
def Frame.close (f : Frame) (outer : List Frame) : Json :=
  if (outer.drop (maxNesting - 1)).isEmpty then f.content else hide f.content .unreadable

/-- Puts a value into the innermost open array or object. -/
def place (v : Json) : List Frame → Progress
  | [] => .done v
  | f :: fs => .reading (f.add v :: fs) .separator

/-- The reading after one more lexeme, or `none` if the lexeme is out of place. -/
def step : List Frame → Expected → Token → Option Progress
  | fs, .value, t | fs, .firstItem, t =>
    match t, fs with
    | .scalar v, fs => some (place v fs)
    | .text (some s), fs => some (place (.str s) fs)
    | .text none, fs => some (place (.gap .unreadable) fs)
    | .openArray, fs => some (.reading (.array [] :: fs) .firstItem)
    | .openObject, fs => some (.reading (.object [] none :: fs) .firstKey)
    -- an array may end where its first item would stand, and not after a comma
    | .closeArray, .array [] :: fs => some (place (Frame.close (.array []) fs) fs)
    | _, _ => none
  | .object entries _ :: fs, .firstKey, .text key | .object entries _ :: fs, .key, .text key =>
    some (.reading (.object entries key :: fs) .colon)
  | .object entries key :: fs, .firstKey, .closeObject
  | .object entries key :: fs, .separator, .closeObject =>
    some (place (Frame.close (.object entries key) fs) fs)
  | fs, .colon, .colon => some (.reading fs .value)
  | .array items :: fs, .separator, .closeArray => some (place (Frame.close (.array items) fs) fs)
  | .array items :: fs, .separator, .comma => some (.reading (.array items :: fs) .value)
  | .object entries key :: fs, .separator, .comma =>
    some (.reading (.object entries key :: fs) .key)
  | _, _, _ => none

/-- Closes all that is open around a value. -/
def closeAround (v : Json) : List Frame → Json
  | [] => v
  | f :: fs => closeAround ((f.add v).close fs) fs

/-- What came of reading a text. -/
structure Reading where
  value : Json
  /-- Nothing follows the value. -/
  clean : Bool

/-- Puts the lexemes together. -/
def assemble (fs : List Frame) (expected : Expected) : List Token → Reading
  | [] => ⟨closeAround (.gap .torn) fs, false⟩
  | t :: ts =>
    match step fs expected t with
    | none => ⟨closeAround (.gap .torn) fs, false⟩
    | some (.done v) => ⟨v, ts.isEmpty⟩
    | some (.reading fs expected) => assemble fs expected ts

/-- Reads a text as far as it is JSON. -/
def read (text : String) : Reading :=
  assemble [] .value (scan text.toList)

/-- Reads a text that is JSON from start to end. What cannot be looked into is left as gaps. -/
def parse? (text : String) : Option Json :=
  let r := read text
  if r.clean && r.value.isWhole then some r.value else none

end UnionTypes.Json
