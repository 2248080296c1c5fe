import UnionTypes.Class.Basic

/-!
# Types

A type is a class, one of the two null types, a union, or a dynamic type. A union stores its
members in the order in which they came; a weak union admits, besides its members, that the value
is absent. A dynamic type is a weak union of another make: it compares like one and is shown
differently.

Equality of types, written `==`, does not see the order of members, nor whether a weak union is a
dynamic type. The syntax of types is free; `Ty.WellFormed` singles out the types that the
operations of this library build.
-/

namespace UnionTypes

/-- The makings of a union: stored members, and whether absence is admitted besides. -/
structure UnionOf (α : Type) where
  members : List α
  weak : Bool

inductive Ty where
  /-- The instances of a class. -/
  | cls (c : Class)
  /-- The null value, a member like any other. -/
  | none
  /-- Possibly the null value: it makes a union weak and is never stored in one. -/
  | weakNone
  /-- A value of one of the members. -/
  | union (u : UnionOf Ty)
  /-- A value known only while the program runs, seen so far as one of the members. -/
  | dynamic (u : UnionOf Ty)

abbrev Union := UnionOf Ty

namespace Ty

/-- The union inside a union or a dynamic type. -/
def toUnion? : Ty → Option Union
  | .union u | .dynamic u => some u
  | _ => Option.none

def toClass? : Ty → Option Class
  | .cls c => some c
  | _ => Option.none

def isNull : Ty → Bool
  | .none | .weakNone => true
  | _ => false

/-! ### Equality -/

mutual

/-- Whether two types are equal: unions and dynamic types when they are equally weak and store the
same members in whatever order, other types when they are identical. -/
def same : Ty → Ty → Bool
  | .cls a, t => match t with | .cls b => a == b | _ => false
  | .none, t => match t with | .none => true | _ => false
  | .weakNone, t => match t with | .weakNone => true | _ => false
  | .union ⟨ms, w⟩, t | .dynamic ⟨ms, w⟩, t =>
    match t.toUnion? with
    -- nothing is stored twice, so of two lists of one length it is enough to compare one way
    | some v => w == v.weak && ms.length == v.members.length && allAmong ms v.members
    | Option.none => false

/-- Whether each type of the first list equals some type of the second. -/
def allAmong : List Ty → List Ty → Bool
  | [], _ => true
  | m :: ms, ns => ns.any (fun n => same m n) && allAmong ms ns

end

instance : BEq Ty := ⟨same⟩

theorem beq_eq_same (s t : Ty) : (s == t) = s.same t := rfl

theorem allAmong_eq_all (ms ns : List Ty) :
    allAmong ms ns = ms.all fun m => ns.any fun n => m == n := by
  induction ms with
  | nil => rfl
  | cons m ms ih => rw [allAmong, ih, List.all_cons]; rfl

/-- Whether a union may store the type: it may store classes and the null value. -/
def Storable : Ty → Prop
  | .cls _ | .none => True
  | _ => False

instance : DecidablePred Storable := fun t => by
  cases t <;> simp only [Storable] <;> infer_instance

end Ty

namespace UnionOf

/-- Unions are equal when they are equally weak and store the same members in whatever order. -/
instance : BEq Union where
  beq u v := u.weak == v.weak && u.members.length == v.members.length &&
    Ty.allAmong u.members v.members

def size (u : Union) : Nat := u.members.length

def contains (u : Union) (t : Ty) : Bool := u.members.any (· == t)

/-- Whether every stored member of the second union is stored in the first. -/
def includes (u v : Union) : Bool := v.members.all u.contains

/-- The members as a reader sees them: a weak union begins with the absent value, written `none`. -/
def logicalMembers (u : Union) : List (Option Ty) :=
  (if u.weak then [none] else []) ++ u.members.map some

/-- A union is well formed when it stores something, stores nothing twice, and stores only classes
and the null value. -/
structure WellFormed (u : Union) : Prop where
  members_ne_nil : u.members ≠ []
  distinct : u.members.Pairwise fun s t => (s == t) = false
  storable : ∀ t ∈ u.members, t.Storable

instance (u : Union) : Decidable u.WellFormed :=
  decidable_of_iff (u.members ≠ [] ∧ (u.members.Pairwise fun s t => (s == t) = false) ∧
      ∀ t ∈ u.members, t.Storable)
    ⟨fun ⟨h, h', h''⟩ => ⟨h, h', h''⟩, fun ⟨h, h', h''⟩ => ⟨h, h', h''⟩⟩

end UnionOf

/-- A type is well formed when the union inside it is, and weak if the type is dynamic. -/
def Ty.WellFormed : Ty → Prop
  | .union u => u.WellFormed
  | .dynamic u => u.WellFormed ∧ u.weak = true
  | _ => True

instance : DecidablePred Ty.WellFormed := fun t => by
  cases t <;> simp only [Ty.WellFormed] <;> infer_instance

end UnionTypes
