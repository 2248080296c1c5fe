/-!
# JSON values

Documents as data. The entries of an object keep their order and may repeat a key, and a number
keeps its spelling, because whoever decodes a document decides what either means.

Texts that are not quite JSON are values too. A `Gap` stands for what could not be read, and
`isWhole` tells the gaps that may be passed over from those that may not.
-/

namespace UnionTypes

/-- What stands in a document for something that could not be read. -/
inductive Gap where
  /-- The text stops being JSON here. -/
  | torn
  /-- A value that is JSON and cannot be looked into: a string that spells no text, or an array or
  object inside too many others. -/
  | unreadable
  /-- The value of an entry whose key spells no text. The entry has the empty key. -/
  | unnamed
deriving DecidableEq, Repr

inductive Json where
  | null
  | bool (b : Bool)
  /-- A number as it is spelled. -/
  | num (spelling : String)
  | str (s : String)
  | arr (items : List Json)
  | obj (entries : List (String × Json))
  | gap (g : Gap)
deriving Inhabited

namespace Json

mutual

/-- Whether the value is JSON from start to end, so that whoever does not look into it can pass over
it. An entry without a name is no harm inside the value. -/
def isWhole : Json → Bool
  | .gap g => g == .unreadable
  | .arr items => allWhole items
  | .obj entries => allEntriesWhole entries
  | _ => true

def allWhole : List Json → Bool
  | [] => true
  | v :: vs => isWhole v && allWhole vs

/-- Whether the values of all entries that have a name are whole. -/
def allEntriesWhole : List (String × Json) → Bool
  | [] => true
  | (_, .gap .unnamed) :: es => allEntriesWhole es
  | (_, v) :: es => isWhole v && allEntriesWhole es

end

def bool? : Json → Option Bool
  | .bool b => some b
  | _ => none

def str? : Json → Option String
  | .str s => some s
  | _ => none

def arr? : Json → Option (List Json)
  | .arr items => some items
  | _ => none

/-- The fields of a record, in the order of the names. A record is an object, in which a field may
be missing, none may come twice and entries of other names have only to be whole; or it is an array
of exactly the fields. -/
def fields? (names : List String) : Json → Option (List (Option Json))
  | .arr items => if items.length = names.length then some (items.map some) else none
  | .obj entries =>
    let known := entries.filter fun e => names.contains e.1
    let others := entries.filter fun e => !names.contains e.1
    if (known.map (·.1)).Nodup && others.all (·.2.isWhole) then
      some (names.map fun name => known.lookup name)
    else none
  | _ => none

end Json

/-- How a document comes to whoever decodes it. -/
inductive Delivery where
  /-- All at once, so that the entries of an object can be counted before they are decoded. -/
  | whole
  /-- As a stream, of which nothing is known before it is reached. -/
  | streamed
deriving DecidableEq, Repr

end UnionTypes
