import Mathlib.Algebra.Ring.Nat
import UnionTypes.Proofs.Ty.Congruence
import UnionTypes.Ty.Hash

/-!
# Equal types hash alike

A set that finds its members by their hashes is sound only if equality is an equivalence and equal
members have equal hashes. Neither is plain here: equality compares the lengths of two lists and
then looks one way only, and a hash has to forget the order that the lists are in.

* **`Ty.beq_equivalence`** — among well-formed types `==` is equality of outlines, so it is an
  equivalence;
* **`Ty.toNat_hashSum`** — the members of a union enter its hash by a sum modulo a word, which a
  rearrangement does not change (`Ty.hashSum_of_perm`);
* **`Ty.hashTokens_congr`** — so equal types feed the same tokens to a hasher, whatever the hash of
  a member is.
-/

namespace UnionTypes.Ty

/-! ## Equality -/

theorem beq_equivalence :
    Equivalence fun a b : { t : Ty // t.WellFormed } => (a.val == b.val) = true := by
  have houtline : ∀ a b : { t : Ty // t.WellFormed },
      (a.val == b.val) = true ↔ a.val.outline = b.val.outline :=
    fun a b => (outline_eq_iff a.property b.property).symm
  constructor
  · intro a
    exact a.property.beq_self
  · intro a b hab
    rw [houtline] at hab ⊢
    exact hab.symm
  · intro a b c hab hbc
    rw [houtline] at hab hbc ⊢
    exact hab.trans hbc

/-- Types that have unions inside are equal if these are equally weak and one stores the members of
the other in whatever order. -/
theorem beq_iff_perm {a b : Ty} {u v : Union} (ha : a.WellFormed) (hb : b.WellFormed)
    (hu : a.toUnion? = some u) (hv : b.toUnion? = some v) :
    (a == b) = true ↔ u.weak = v.weak ∧ u.members.Perm v.members := by
  have hwu : u.WellFormed := ha.of_toUnion? hu
  have hwv : v.WellFormed := hb.of_toUnion? hv
  rw [beq_eq_of_toUnion? hu hv, UnionOf.beq_iff hwu hwv,
    List.perm_ext_iff_of_nodup hwu.nodup hwv.nodup]

/-! ## Hashes -/

variable {finish : List HashToken → UInt64}

/-- The hashes of the members are added up, and what goes beyond a word is lost. Induction on the
list; the remainder may be taken at every step or once at the end. -/
theorem toNat_hashSum (ms : List Ty) :
    (hashSum finish ms).toNat =
      (ms.map fun m => (finish (m.hashTokens finish)).toNat).sum % UInt64.size := by
  induction ms with
  | nil => rfl
  | cons m ms ih =>
    rw [hashSum, UInt64.toNat_add, ih, List.map_cons, List.sum_cons]
    show (_ + _ % UInt64.size) % UInt64.size = _
    rw [Nat.add_mod_mod]

theorem hashSum_of_perm {ms ns : List Ty} (h : ms.Perm ns) :
    hashSum finish ms = hashSum finish ns := by
  apply UInt64.toNat_inj.mp
  rw [toNat_hashSum, toNat_hashSum, (h.map _).sum_nat]

theorem hashTokens_of_toUnion? {t : Ty} {u : Union} (hu : t.toUnion? = some u) :
    t.hashTokens finish = [.tag 3, .word (hashSum finish u.members), .flag u.weak] := by
  rcases toUnion?_eq_some_iff.mp hu with rfl | rfl
  · rw [hashTokens]
  · rw [hashTokens]

theorem hashTokens_congr {a b : Ty} (ha : a.WellFormed) (hb : b.WellFormed)
    (h : (a == b) = true) : a.hashTokens finish = b.hashTokens finish := by
  cases hu : a.toUnion? with
  | none =>
    -- what is no union is equal to itself alone
    rw [(beq_iff_eq_of_left hu).mp h]
  | some u =>
    obtain ⟨v, hv, hweak, hmembers⟩ := (alike_of_beq ha hb h).exists_toUnion? hu
    rw [hashTokens_of_toUnion? hu, hashTokens_of_toUnion? hv, hashSum_of_perm hmembers, hweak]

/-- **Equality is an equivalence that hashing respects.** On well-formed types `==` is reflexive,
symmetric and transitive. It does not see the order of members, and a dynamic type equals just the
weak unions of the same members. Equal types feed the same tokens to a hasher, whatever hash the
tokens of a member are turned into; of a union they are a tag, the sum of the hashes of its members
modulo a word, and the flag. -/
theorem equality_and_hash (finish : List HashToken → UInt64) :
    Equivalence (fun a b : { t : Ty // t.WellFormed } => (a.val == b.val) = true) ∧
    (∀ (a b : Ty) (u v : Union), a.WellFormed → b.WellFormed →
      a.toUnion? = some u → b.toUnion? = some v →
      ((a == b) = true ↔ u.weak = v.weak ∧ u.members.Perm v.members)) ∧
    (∀ d u : Union, (Ty.dynamic d).WellFormed → (Ty.union u).WellFormed →
      ((Ty.dynamic d == Ty.union u) = true ↔
        u.weak = true ∧ ∀ m, m ∈ d.members ↔ m ∈ u.members)) ∧
    (∀ a b : Ty, a.WellFormed → b.WellFormed → (a == b) = true →
      a.hashTokens finish = b.hashTokens finish) ∧
    (∀ (t : Ty) (u : Union), t.toUnion? = some u → ∃ sum : UInt64,
      t.hashTokens finish = [.tag 3, .word sum, .flag u.weak] ∧
      sum.toNat = (u.members.map fun m => (finish (m.hashTokens finish)).toNat).sum %
        UInt64.size) := by
  refine ⟨beq_equivalence, fun a b u v ha hb hu hv => beq_iff_perm ha hb hu hv, ?dynamic,
    fun a b ha hb h => hashTokens_congr ha hb h, ?tokens⟩
  case dynamic =>
    intro d u hd hu
    have hweak : d.weak = true := hd.2
    rw [beq_eq_of_toUnion? (u := d) (v := u) rfl rfl, UnionOf.beq_iff hd.1 hu, hweak,
      @eq_comm _ true]
  case tokens =>
    intro t u hu
    exact ⟨hashSum finish u.members, hashTokens_of_toUnion? hu, toNat_hashSum u.members⟩

/-- A dynamic type and a weak union of the same two members in the other order. -/
theorem equality_and_hash_of_dynamic :
    let int : Ty := .cls Class.Builtin.int
    let a : Ty := .dynamic ⟨[int, .none], true⟩
    let b : Ty := .union ⟨[.none, int], true⟩
    (a == b) = true ∧ (b == a) = true ∧
      a.hashTokens HashToken.digest = b.hashTokens HashToken.digest := by
  intro int a b
  obtain ⟨hequiv, hperm, hdynamic, htokens, -⟩ := equality_and_hash HashToken.digest
  have ha : a.WellFormed := by decide
  have hb : b.WellFormed := by decide
  have hab : (a == b) = true :=
    (hperm a b _ _ ha hb rfl rfl).mpr ⟨rfl, List.Perm.swap _ _ _⟩
  have hback : (b == a) = true := hequiv.symm (x := ⟨a, ha⟩) (y := ⟨b, hb⟩) hab
  exact ⟨hab, hback, htokens a b ha hb hab⟩

end UnionTypes.Ty
