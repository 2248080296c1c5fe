import UnionTypes.Failure
import UnionTypes.Json.Basic
import UnionTypes.Ty.Assignable
import UnionTypes.Warning.Collector

/-!
# Settings

What a user can set: whether warnings are collected, above which size unions are reported, and
whether classes are shown with their modules. Settings are read from a JSON value here and from a
document of their own form in the module beside this one.
-/

namespace UnionTypes

/-- What a user can set. -/
structure Settings where
  diagnostics : Bool := false
  /-- Unions with more members than this are reported. -/
  maxUnionLength : Nat := defaultLimit
  qualifiedNames : Bool := false
deriving DecidableEq, Repr

namespace Settings

/-- One more than the largest size that can be set: sizes are words of 64 bits. -/
def sizeBound : Nat := 18446744073709551616

/-- Makes the collector follow the settings. What it has kept stays. -/
def apply (s : Settings) (c : Collector) : Collector :=
  { c with enabled := s.diagnostics, limit := s.maxUnionLength }

/-- The structural context that shows names as the settings say. -/
def context (s : Settings) : Context := .structural s.qualifiedNames

/-- Settings under which every union would be reported are refused. -/
def check (s : Settings) : Except Failure Settings :=
  if s.maxUnionLength = 0 then
    .error (.invalidSettings "max_union_length must be at least 1")
  else .ok s

/-- The value of a run of decimal digits. -/
def natural? (digits : List Char) : Option Nat :=
  if digits ≠ [] ∧ digits.all Char.isDigit then
    some (digits.foldl (fun n c => 10 * n + (c.toNat - '0'.toNat)) 0)
  else none

/-- The size that a JSON number spells: no sign, no fraction, no exponent. -/
def size? : Json → Option Nat
  | .num spelling => (natural? spelling.toList).filter (· < sizeBound)
  | _ => none

/-- A field's value where it is given, and its default where it is not. -/
def given {α : Type} (default : α) (decode : Json → Option α) : Option Json → Option α
  | some v => decode v
  | none => some default

/-- The settings that three fields give, of which any may be missing. -/
def ofFields (diagnostics maxUnionLength qualifiedNames : Option Json) : Option Settings := do
  let default : Settings := {}
  return {
    diagnostics := ← given default.diagnostics Json.bool? diagnostics
    maxUnionLength := ← given default.maxUnionLength size? maxUnionLength
    qualifiedNames := ← given default.qualifiedNames Json.bool? qualifiedNames }

def keys : List String := ["diagnostics", "max_union_length", "qualified_names"]

/-- The settings that a JSON value gives: an object in which any field may be missing and no other
may stand, or an array of the fields from the first on. Any size is accepted. -/
def decode : Json → Option Settings
  | .obj entries =>
    let names := entries.map (·.1)
    if names.Nodup ∧ ∀ name ∈ names, name ∈ keys then
      ofFields (entries.lookup "diagnostics") (entries.lookup "max_union_length")
        (entries.lookup "qualified_names")
    else none
  | .arr items =>
    if items.length ≤ keys.length then ofFields items[0]? items[1]? items[2]? else none
  | _ => none

end Settings

end UnionTypes
