import UnionTypes.Class.Lineage

/-!
# Members of a class

What a class answers when a name is looked up on it, and which names it offers for completion.
Both walk the inheritance tree in depth-first pre-order, and in both a class shadows what it
inherits: the first attribute with a name is the one that counts, even when it then turns out not
to permit the access that was asked for.
-/

namespace UnionTypes

/-- How much a resolved name is to be preferred. -/
inductive Rate where
  | high
  | normal
  | low
deriving DecidableEq, Repr

/-- The weight by which results are compared; the higher one wins. -/
def Rate.weight : Rate → Int
  | .high => 1000
  | .normal => 0
  | .low => -1000

/-- The attribute that a name stands for, and the qualified name of the class that declares it. -/
structure Member where
  owner : String
  name : String
  kind : AttributeKind
deriving DecidableEq, Repr

/-- One answer to the question what a name stands for. -/
structure Resolution where
  member : Member
  rate : Rate
deriving DecidableEq, Repr

namespace Class

/-- What a search through a class comes to. -/
inductive Search where
  /-- The name was found and permits the access. -/
  | found (r : Resolution)
  /-- The name was found and does not permit the access. -/
  | blocked
  | missing
deriving DecidableEq, Repr

def attribute? (c : Class) (name : String) : Option Attribute :=
  c.attributes.find? (·.name == name)

/-- The attribute as a member of the class that declares it. -/
def member (c : Class) (a : Attribute) : Member :=
  { owner := c.qualifiedName, name := a.name, kind := a.kind }

mutual

/-- Searches the class and then its bases. An inherited hit has the low rate, whatever rate a hit
in the class itself would have. -/
def search (name : String) (access : Access) (rate : Rate) : Class → Search
  | c@⟨_, _, _, _, _, _, bases⟩ =>
    match c.attribute? name with
    | some a => if a.permits access then .found ⟨c.member a, rate⟩ else .blocked
    | none => searchBases name access bases

def searchBases (name : String) (access : Access) : List Class → Search
  | [] => .missing
  | b :: bs =>
    match search name access .low b with
    -- a blocked hit ends the search as well: the name is found, and shadows the rest
    | .missing => searchBases name access bs
    | hit => hit

end

theorem search_eq (name : String) (access : Access) (rate : Rate) (c : Class) :
    c.search name access rate =
      match c.attribute? name with
      | some a => if a.permits access then .found ⟨c.member a, rate⟩ else .blocked
      | none => searchBases name access c.bases := by
  cases c; rw [search]

/-- What the name stands for on an instance of the class. An empty list says that the access is
impossible; no answer at all says that the class cannot tell, because it makes up attributes while
the program runs. -/
def resolve (c : Class) (name : String) (access : Access) : Option (List Resolution) :=
  match c.search name access .normal with
  | .found r => some [r]
  | .blocked => some []
  | .missing => if c.dynamicAttributes then none else some []

def startsWith (stem name : String) : Bool :=
  stem.toList.isPrefixOf name.toList

/-- Adds the attributes of one class body that start with the stem and whose names are new. -/
def offer (stem : String) (c : Class) (offered : List Member) : List Member :=
  c.attributes.foldl
    (fun ms a =>
      -- a name that is offered already was declared by a class that shadows this one
      if startsWith stem a.name && !ms.any (·.name == a.name) then ms ++ [c.member a] else ms)
    offered

mutual

/-- Adds what the class and then its bases offer to what is offered already. -/
def collect (stem : String) : Class → List Member → List Member
  | c@⟨_, _, _, _, _, _, bases⟩, offered => collectBases stem bases (c.offer stem offered)

def collectBases (stem : String) : List Class → List Member → List Member
  | [], offered => offered
  | b :: bs, offered => collectBases stem bs (collect stem b offered)

end

theorem collect_eq (stem : String) (c : Class) (offered : List Member) :
    collect stem c offered = collectBases stem c.bases (c.offer stem offered) := by
  cases c; rw [collect]

/-- The members whose names start with the stem, each name once. -/
def complete (c : Class) (stem : String) : List Member :=
  collect stem c []

end Class

end UnionTypes
