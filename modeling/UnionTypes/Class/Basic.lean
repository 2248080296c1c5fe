/-!
# Classes

A nominal class: its name and home module, four flags, the attributes its body declares and the
classes it inherits from. Two classes are the same when they agree in all of this, so equality is
structural, and it is decidable.
-/

namespace UnionTypes

inductive AttributeKind where
  | method
  | field
  | property
deriving DecidableEq, Repr

/-- How a program touches an attribute. -/
inductive Access where
  | read
  | write
  | delete
deriving DecidableEq, Repr

/-- An attribute declared in the body of a class. -/
structure Attribute where
  name : String
  kind : AttributeKind
  /-- A readonly attribute can be read and nothing else. -/
  readonly : Bool := false
deriving DecidableEq, Repr

namespace Attribute

/-- A method, which can be rebound. -/
def method (name : String) : Attribute := { name, kind := .method }

def field (name : String) : Attribute := { name, kind := .field }

/-- A property that has a getter only. -/
def property (name : String) : Attribute := { name, kind := .property, readonly := true }

/-- The same attribute, closed to writing and deleting. -/
def freeze (a : Attribute) : Attribute := { a with readonly := true }

def permits (a : Attribute) (access : Access) : Bool :=
  !a.readonly || access == .read

@[simp] theorem permits_read (a : Attribute) : a.permits .read = true :=
  Bool.or_true _

end Attribute

/-- A class, with the classes it inherits from held inside it. -/
structure Class where
  name : String
  /-- The module that defines the class, if one is known. -/
  moduleName : Option String := none
  builtin : Bool := false
  /-- The class answers for names that it does not declare. -/
  dynamicAttributes : Bool := false
  /-- Cleared when the source that defined the class is gone. -/
  valid : Bool := true
  attributes : List Attribute := []
  bases : List Class := []

namespace Class

/-! ### Equality

A class holds a list of classes, so the two functions below follow that shape. -/

mutual

/-- Decides equality of classes, field by field. -/
def decEq : (a b : Class) → Decidable (a = b)
  | ⟨n, m, b, d, v, as, bs⟩, ⟨n', m', b', d', v', as', bs'⟩ =>
    match (inferInstance : Decidable ((n, m, b, d, v, as) = (n', m', b', d', v', as'))),
      decEqList bs bs' with
    | isTrue h, isTrue h' => isTrue (by cases h; cases h'; rfl)
    | isFalse h, _ => isFalse (by intro e; cases e; exact h rfl)
    | _, isFalse h => isFalse (by intro e; cases e; exact h rfl)

def decEqList : (as bs : List Class) → Decidable (as = bs)
  | [], [] => isTrue rfl
  | [], _ :: _ => isFalse nofun
  | _ :: _, [] => isFalse nofun
  | a :: as, b :: bs =>
    match decEq a b, decEqList as bs with
    | isTrue h, isTrue h' => isTrue (by cases h; cases h'; rfl)
    | isFalse h, _ => isFalse (by intro e; cases e; exact h rfl)
    | _, isFalse h => isFalse (by intro e; cases e; exact h rfl)

end

instance : DecidableEq Class := decEq

/-! ### Building a class -/

/-- The module whose classes are shown without it. -/
def builtinsModule : String := "builtins"

def definedIn (c : Class) (moduleName : String) : Class :=
  { c with moduleName := some moduleName }

def asBuiltin (c : Class) : Class :=
  { c with builtin := true, moduleName := some builtinsModule }

/-- The same class, answering for names that it does not declare. -/
def allowAnyAttribute (c : Class) : Class :=
  { c with dynamicAttributes := true }

/-- The same class with further attributes, after those it has. -/
def declare (c : Class) (attributes : List Attribute) : Class :=
  { c with attributes := c.attributes ++ attributes }

/-- The same class with one more base, after those it has. -/
def extend (c : Class) (base : Class) : Class :=
  { c with bases := c.bases ++ [base] }

/-- The same class after its source went away. -/
def invalidate (c : Class) : Class :=
  { c with valid := false }

/-! ### Names -/

/-- The name with its module in front, if it has one. -/
def qualifiedName (c : Class) : String :=
  match c.moduleName with
  | some m => m ++ "." ++ c.name
  | none => c.name

/-- The name as shown: where qualified names are asked for, every class with a module outside the
language's own is shown with it. -/
def shownName (qualified : Bool) (c : Class) : String :=
  match c.moduleName with
  | some m => if qualified && m != builtinsModule then c.qualifiedName else c.name
  | none => c.name

/-- Whether this is the class at the top of every hierarchy. -/
def isObject (c : Class) : Bool :=
  c.builtin && c.name == "object"

end Class

end UnionTypes
