import Mathlib.Order.Lattice
import Mathlib.Data.Set.Basic
import UnionTypes.Class.Builtin
import UnionTypes.Proofs.Ty.Merge

/-!
# Merging is a semilattice operation

Up to `==`, merging is associative, commutative and idempotent, on types and on absent operands
alike. A direct proof would set the branches of a join against each other three operands at a time.
Instead every operand is mapped to its `Outline`, the part of it that equality sees:

* an outline is the set of what is stored, whether it is weak, and whether there is a union; the
  outlines form a join semilattice by the laws of `∪` and `∨`;
* **`Outline.of_eq_iff`** — well-formed operands are equal just if their outlines are;
* **`Outline.of_merge`** — the outline of a merge is the join of the outlines;
* **`Outline.of_mergeAll_le_iff`** — the outline of a merge of many is the least one above them all.

Absence is an outline too: nothing is stored, and it is weak.
-/

namespace UnionTypes

/-! ## Outlines -/

/-- What can be stored without a union: one thing at most, and weakly only the null value. -/
def Bare (members : Set Ty) (weak : Prop) : Prop :=
  (∀ s ∈ members, ∀ t ∈ members, s = t) ∧ (weak → ∀ t ∈ members, t = .none)

/-- What stays bare was bare before anything was added. -/
theorem Bare.mono {members members' : Set Ty} {weak weak' : Prop} (h : Bare members' weak')
    (hmembers : members ⊆ members') (hweak : weak → weak') : Bare members weak :=
  ⟨fun s hs t ht => h.1 s (hmembers hs) t (hmembers ht),
    fun hw t ht => h.2 (hweak hw) t (hmembers ht)⟩

/-- The part of an operand that equality sees. -/
@[ext] structure Outline where
  members : Set Ty
  weak : Prop
  union : Prop
  /-- What is not bare needs a union. -/
  union_of_not_bare : ¬ Bare members weak → union

namespace Outline

/-- Both sets together, with a union if there was one or if there has to be one now. -/
instance : Max Outline where
  max x y :=
    { members := x.members ∪ y.members
      weak := x.weak ∨ y.weak
      union := x.union ∨ y.union ∨ ¬ Bare (x.members ∪ y.members) (x.weak ∨ y.weak)
      union_of_not_bare := fun h => Or.inr (Or.inr h) }

variable (x y z : Outline)

theorem members_max : (x ⊔ y).members = x.members ∪ y.members := rfl

theorem weak_max : (x ⊔ y).weak = (x.weak ∨ y.weak) := rfl

theorem union_max : (x ⊔ y).union =
    (x.union ∨ y.union ∨ ¬ Bare (x.members ∪ y.members) (x.weak ∨ y.weak)) := rfl

theorem max_comm' : x ⊔ y = y ⊔ x := by
  ext1
  · rw [members_max, members_max, Set.union_comm]
  · rw [weak_max, weak_max, or_comm]
  · rw [union_max, union_max, Set.union_comm, or_comm (a := x.weak), or_left_comm]

/-- If two of three need a union then so do all three, so it does not matter which two come
first. -/
theorem max_assoc' : x ⊔ y ⊔ z = x ⊔ (y ⊔ z) := by
  ext1
  · simp only [members_max, Set.union_assoc]
  · simp only [weak_max, or_assoc]
  · simp only [union_max, members_max, weak_max, Set.union_assoc, or_assoc]
    have hleft : Bare (x.members ∪ (y.members ∪ z.members)) (x.weak ∨ y.weak ∨ z.weak) →
        Bare (x.members ∪ y.members) (x.weak ∨ y.weak) := fun h =>
      h.mono (Set.union_subset_union_right _ Set.subset_union_left) (by tauto)
    have hright : Bare (x.members ∪ (y.members ∪ z.members)) (x.weak ∨ y.weak ∨ z.weak) →
        Bare (y.members ∪ z.members) (y.weak ∨ z.weak) := fun h =>
      h.mono Set.subset_union_right (by tauto)
    refine propext ?_
    tauto

theorem max_self' : x ⊔ x = x := by
  ext1
  · rw [members_max, Set.union_self]
  · rw [weak_max, or_self]
  · rw [union_max, Set.union_self, or_self, ← or_assoc, or_self]
    exact propext ⟨fun h => h.elim id x.union_of_not_bare, Or.inl⟩

instance : SemilatticeSup Outline := SemilatticeSup.mk' max_comm' max_assoc' max_self'

end Outline

/-! ## The outline of an operand -/

/-- A type that is no union is bare: it stores one thing, and weakly only the null value. -/
theorem Ty.bare_contents {t : Ty} (h : t.isUnion = false) :
    Bare {m | m ∈ t.contents.members} (t.contents.weak = true) := by
  rw [Ty.contents_of_isUnion_eq_false h]
  refine ⟨by simp, fun hweak => ?_⟩
  simpa using Ty.stored_eq_none_of_isWeakNone hweak

/-- The outline of a type. -/
def Ty.outline (t : Ty) : Outline where
  members := {m | m ∈ t.contents.members}
  weak := t.contents.weak = true
  union := t.isUnion = true
  union_of_not_bare := by
    intro h
    by_contra hunion
    exact h (Ty.bare_contents (Bool.eq_false_iff.mpr hunion))

/-- The outline of absence. -/
def Outline.absent : Outline where
  members := ∅
  weak := True
  union := False
  union_of_not_bare := by simp [Bare]

/-- The outline of an operand. -/
def Outline.of : Option Ty → Outline
  | some t => t.outline
  | none => absent

theorem Ty.outline_eq_iff {s t : Ty} (hs : s.WellFormed) (ht : t.WellFormed) :
    s.outline = t.outline ↔ (s == t) = true := by
  rw [Ty.beq_iff hs ht, Outline.ext_iff]
  constructor
  · rintro ⟨hmembers, hweak, hunion⟩
    refine ⟨Bool.eq_iff_iff.mpr (iff_of_eq hunion), Bool.eq_iff_iff.mpr (iff_of_eq hweak), ?_⟩
    exact fun m => Set.ext_iff.mp hmembers m
  · rintro ⟨hunion, hweak, hmembers⟩
    refine ⟨Set.ext hmembers, ?_, ?_⟩
    · show (s.contents.weak = true) = (t.contents.weak = true)
      rw [hweak]
    · show (s.isUnion = true) = (t.isUnion = true)
      rw [hunion]

/-- Equality sees the outline and nothing else. -/
theorem Outline.of_eq_iff {a b : Option Ty} (ha : ∀ t ∈ a, t.WellFormed)
    (hb : ∀ t ∈ b, t.WellFormed) : Outline.of a = Outline.of b ↔ (a == b) = true := by
  -- a type stores something, and absence does not
  have hne : ∀ t : Ty, t.WellFormed → Outline.absent ≠ t.outline := by
    intro t ht h
    obtain ⟨m, hm⟩ := List.exists_mem_of_ne_nil _ ht.contents.members_ne_nil
    have hmem : m ∈ Outline.absent.members := by rw [h]; exact hm
    exact hmem
  cases a with
  | none =>
    cases b with
    | none => simp
    | some b => exact iff_of_false (hne b (hb b rfl)) (by simp)
  | some a =>
    cases b with
    | none => exact iff_of_false (hne a (ha a rfl)).symm (by simp)
    | some b =>
      rw [Option.some_beq_some]
      exact Ty.outline_eq_iff (ha a rfl) (hb b rfl)

/-! ## Merging follows the outlines -/

/-- Two types that are no unions need one together if they store different things. -/
theorem Ty.bare_union_iff {a b : Ty} (ha : a.isUnion = false) (hb : b.isUnion = false) :
    Bare (a.outline.members ∪ b.outline.members) (a.outline.weak ∨ b.outline.weak) ↔
      a.stored = b.stored := by
  have hmem : ∀ t : Ty, t.isUnion = false → ∀ m, m ∈ t.outline.members ↔ m = t.stored := by
    intro t ht m
    show m ∈ t.contents.members ↔ m = t.stored
    rw [Ty.contents_of_isUnion_eq_false ht, List.mem_singleton]
  have hweak : ∀ t : Ty, t.isUnion = false → t.outline.weak → t.stored = .none := by
    intro t ht h
    have h : t.contents.weak = true := h
    rw [Ty.contents_of_isUnion_eq_false ht] at h
    exact Ty.stored_eq_none_of_isWeakNone h
  constructor
  · intro h
    exact h.1 _ (Or.inl ((hmem a ha _).mpr rfl)) _ (Or.inr ((hmem b hb _).mpr rfl))
  · intro heq
    have hall : ∀ m ∈ a.outline.members ∪ b.outline.members, m = a.stored := by
      rintro m (hm | hm)
      · exact (hmem a ha m).mp hm
      · rw [heq]; exact (hmem b hb m).mp hm
    refine ⟨fun s hs t ht => (hall s hs).trans (hall t ht).symm, ?_⟩
    rintro (h | h) t ht
    · rw [hall t ht, hweak a ha h]
    · rw [hall t ht, heq, hweak b hb h]

theorem Ty.outline_join {a b : Ty} (ha : a.WellFormed) (hb : b.WellFormed) (k : Collector) :
    ((a.join b).value k).outline = a.outline ⊔ b.outline := by
  have hjoin : Ty.IsJoin a b ((a.join b).value k) := Ty.isJoin_join ha hb k
  ext1
  · show {m | m ∈ ((a.join b).value k).contents.members} = _
    rw [hjoin.contents]
    exact Set.ext fun m => UnionOf.mem_merged ha.contents hb.contents
  · show (((a.join b).value k).contents.weak = true) = _
    rw [hjoin.contents]
    exact Bool.or_eq_true _ _
  · show (((a.join b).value k).isUnion = true) =
      (a.isUnion = true ∨ b.isUnion = true ∨
        ¬ Bare (a.outline.members ∪ b.outline.members) (a.outline.weak ∨ b.outline.weak))
    rw [← Bool.not_eq_false, hjoin.isUnion_eq_false_iff]
    cases ha1 : a.isUnion with
    | true => simp
    | false =>
      cases hb1 : b.isUnion with
      | true => simp
      | false => simp [Ty.bare_union_iff ha1 hb1]

/-- Weakening a type joins the outline of absence to its outline. -/
theorem Ty.outline_weaken {t : Ty} (ht : t.WellFormed) :
    t.weaken.outline = Outline.absent ⊔ t.outline := by
  have hmembers : (∅ : Set Ty) ∪ t.outline.members = t.outline.members := Set.empty_union _
  ext1
  · show {m | m ∈ t.weaken.contents.members} = ∅ ∪ t.outline.members
    rw [hmembers, Ty.contents_weaken ht]
    rfl
  · show (t.weaken.contents.weak = true) = (True ∨ t.outline.weak)
    rw [Ty.contents_weaken ht]
    simp
  · show (t.weaken.isUnion = true) =
      (False ∨ t.isUnion = true ∨ ¬ Bare (∅ ∪ t.outline.members) (True ∨ t.outline.weak))
    rw [Ty.isUnion_weaken, hmembers]
    cases t with
    | cls c => simp [Bare, Ty.outline, Ty.contents, Ty.isNull]
    | none => simp [Bare, Ty.outline, Ty.contents, Ty.isNull, Ty.isUnion, Ty.toUnion?]
    | weakNone => simp [Bare, Ty.outline, Ty.contents, Ty.isNull, Ty.isUnion, Ty.toUnion?]
    | union u => simp [Ty.isUnion, Ty.toUnion?]
    | dynamic u => simp [Ty.isUnion, Ty.toUnion?]

theorem Outline.of_merge {a b : Option Ty} (ha : ∀ t ∈ a, t.WellFormed)
    (hb : ∀ t ∈ b, t.WellFormed) (k : Collector) :
    Outline.of ((merge a b).value k) = Outline.of a ⊔ Outline.of b := by
  cases a with
  | none =>
    cases b with
    | none => exact (sup_idem Outline.absent).symm
    | some b => exact Ty.outline_weaken (hb b rfl)
  | some a =>
    cases b with
    | none => exact (Ty.outline_weaken (ha a rfl)).trans (sup_comm _ _)
    | some b => exact Ty.outline_join (ha a rfl) (hb b rfl) k

/-- What holds of a join of outlines just if it holds of one of the two holds of a merge of many
just if it holds of one of the operands. Induction on the operands that are still to come, for any
operand that they are merged into. -/
theorem Outline.of_mergeAll_iff {p : Outline → Prop} (hp : ∀ x y, p (x ⊔ y) ↔ p x ∨ p y)
    {ts : List (Option Ty)} (hne : ts ≠ []) (hts : ∀ o ∈ ts, ∀ t ∈ o, t.WellFormed)
    (k : Collector) :
    p (Outline.of ((mergeAll ts).value k)) ↔ ∃ o ∈ ts, p (Outline.of o) := by
  cases ts with
  | nil => exact absurd rfl hne
  | cons o ts =>
    rw [List.forall_mem_cons] at hts
    rw [List.exists_mem_cons_iff]
    obtain ⟨ho, hts⟩ := hts
    show p (Outline.of ((ts.foldlM merge o).value k)) ↔ _
    clear hne
    induction ts generalizing o k with
    | nil => simp
    | cons q ts ih =>
      rw [List.forall_mem_cons] at hts
      obtain ⟨hq, hts⟩ := hts
      have hmerged := wellFormed_merge ho hq k
      rw [List.foldlM_cons, WarnM.value_bind, ih _ _ hmerged hts, Outline.of_merge ho hq, hp,
        List.exists_mem_cons_iff, or_assoc]

/-- The outline of a merge of many is the least one above theirs. -/
theorem Outline.of_mergeAll_le_iff {ts : List (Option Ty)} (hne : ts ≠ [])
    (hts : ∀ o ∈ ts, ∀ t ∈ o, t.WellFormed) (k : Collector) (x : Outline) :
    Outline.of ((mergeAll ts).value k) ≤ x ↔ ∀ o ∈ ts, Outline.of o ≤ x := by
  -- one outline fails to be below `x` just if a join with it does
  have hsplit : ∀ y z : Outline, ¬ y ⊔ z ≤ x ↔ ¬ y ≤ x ∨ ¬ z ≤ x := by
    intro y z
    rw [sup_le_iff, not_and_or]
  rw [← not_iff_not, Outline.of_mergeAll_iff (p := (¬ · ≤ x)) hsplit hne hts]
  push Not
  rfl

theorem Outline.of_mergeAll_append {xs ys : List (Option Ty)} (hxne : xs ≠ []) (hyne : ys ≠ [])
    (hxs : ∀ o ∈ xs, ∀ t ∈ o, t.WellFormed) (hys : ∀ o ∈ ys, ∀ t ∈ o, t.WellFormed)
    (k k₁ k₂ : Collector) :
    Outline.of ((mergeAll (xs ++ ys)).value k) =
      Outline.of ((mergeAll xs).value k₁) ⊔ Outline.of ((mergeAll ys).value k₂) := by
  have hxys : ∀ o ∈ xs ++ ys, ∀ t ∈ o, t.WellFormed := fun o ho =>
    (List.mem_append.mp ho).elim (hxs o) (hys o)
  refine eq_of_forall_ge_iff fun x => ?_
  rw [Outline.of_mergeAll_le_iff (List.append_ne_nil_of_left_ne_nil hxne ys) hxys, sup_le_iff,
    Outline.of_mergeAll_le_iff hxne hxs, Outline.of_mergeAll_le_iff hyne hys,
    List.forall_mem_append]

/-- A merge of many is not above another if its operands are among the other's, up to equality. -/
theorem Outline.of_mergeAll_le {xs ys : List (Option Ty)} (hxne : xs ≠ []) (hyne : ys ≠ [])
    (hxs : ∀ o ∈ xs, ∀ t ∈ o, t.WellFormed) (hys : ∀ o ∈ ys, ∀ t ∈ o, t.WellFormed)
    (hsub : ∀ x ∈ xs, ∃ y ∈ ys, x == y) (k k' : Collector) :
    Outline.of ((mergeAll xs).value k) ≤ Outline.of ((mergeAll ys).value k') := by
  refine (Outline.of_mergeAll_le_iff hxne hxs k _).mpr fun x hx => ?_
  obtain ⟨y, hy, heq⟩ := hsub x hx
  rw [(Outline.of_eq_iff (hxs x hx) (hys y hy)).mpr heq]
  exact (Outline.of_mergeAll_le_iff hyne hys k' _).mp le_rfl y hy

/-! ## The laws -/

/-- **The semilattice laws of merging**, up to `==`: associativity, commutativity and idempotence
for two operands, and for many, that a list may be merged in two halves, and that neither the order
of the operands nor their repetition matters. The collectors are those that the two sides happen to
begin with. -/
theorem merge_laws {a b c : Option Ty} {xs ys : List (Option Ty)} (ha : ∀ t ∈ a, t.WellFormed)
    (hb : ∀ t ∈ b, t.WellFormed) (hc : ∀ t ∈ c, t.WellFormed)
    (hxs : ∀ o ∈ xs, ∀ t ∈ o, t.WellFormed) (hys : ∀ o ∈ ys, ∀ t ∈ o, t.WellFormed)
    (k k' : Collector) :
    (WarnM.value (do merge a (← merge b c)) k == WarnM.value (do merge (← merge a b) c) k') ∧
    ((merge a b).value k == (merge b a).value k') ∧
    ((merge a a).value k == a) ∧
    (xs ≠ [] → ys ≠ [] →
      (mergeAll (xs ++ ys)).value k ==
        WarnM.value (do merge (← mergeAll xs) (← mergeAll ys)) k') ∧
    ((∀ x ∈ xs, ∃ y ∈ ys, x == y) → (∀ y ∈ ys, ∃ x ∈ xs, y == x) →
      (mergeAll xs).value k == (mergeAll ys).value k') := by
  have hab : ∀ k, ∀ t ∈ (merge a b).value k, t.WellFormed := wellFormed_merge ha hb
  have hbc : ∀ k, ∀ t ∈ (merge b c).value k, t.WellFormed := wellFormed_merge hb hc
  have hallx : ∀ k, ∀ t ∈ (mergeAll xs).value k, t.WellFormed := wellFormed_mergeAll hxs
  have hally : ∀ k, ∀ t ∈ (mergeAll ys).value k, t.WellFormed := wellFormed_mergeAll hys
  refine ⟨?assoc, ?comm, ?idem, ?append, ?exchange⟩
  case assoc =>
    rw [WarnM.value_bind, WarnM.value_bind]
    refine (Outline.of_eq_iff (wellFormed_merge ha (hbc _) _) (wellFormed_merge (hab _) hc _)).mp ?_
    rw [Outline.of_merge ha (hbc _), Outline.of_merge hb hc, Outline.of_merge (hab _) hc,
      Outline.of_merge ha hb, sup_assoc]
  case comm =>
    refine (Outline.of_eq_iff (hab _) (wellFormed_merge hb ha _)).mp ?_
    rw [Outline.of_merge ha hb, Outline.of_merge hb ha, sup_comm]
  case idem =>
    refine (Outline.of_eq_iff (wellFormed_merge ha ha _) ha).mp ?_
    rw [Outline.of_merge ha ha, sup_idem]
  case append =>
    intro hxne hyne
    have hxys : ∀ k, ∀ t ∈ (mergeAll (xs ++ ys)).value k, t.WellFormed :=
      wellFormed_mergeAll fun o ho => (List.mem_append.mp ho).elim (hxs o) (hys o)
    rw [WarnM.value_bind, WarnM.value_bind]
    refine (Outline.of_eq_iff (hxys _) (wellFormed_merge (hallx _) (hally _) _)).mp ?_
    rw [Outline.of_merge (hallx _) (hally _)]
    exact Outline.of_mergeAll_append hxne hyne hxs hys _ _ _
  case exchange =>
    intro hxy hyx
    by_cases hxne : xs = []
    · obtain rfl : ys = [] := List.eq_nil_iff_forall_not_mem.mpr fun y hy => by
        obtain ⟨x, hx, -⟩ := hyx y hy
        rw [hxne] at hx
        exact List.not_mem_nil hx
      rw [hxne]
      rfl
    · have hyne : ys ≠ [] := by
        obtain ⟨x, hx⟩ := List.exists_mem_of_ne_nil _ hxne
        obtain ⟨y, hy, -⟩ := hxy x hx
        exact List.ne_nil_of_mem hy
      refine (Outline.of_eq_iff (hallx _) (hally _)).mp (le_antisymm ?_ ?_)
      · exact Outline.of_mergeAll_le hxne hyne hxs hys hxy k k'
      · exact Outline.of_mergeAll_le hyne hxne hys hxs hyx k' k

/-- Absence, a dynamic null and a union of one class, in either grouping; and two lists with the
same elements, one of them in another order and with a repetition. -/
theorem merge_laws_of_absent :
    (WarnM.value (do
        merge none (← merge (some (.dynamic ⟨[.none], true⟩))
          (some (.union ⟨[.cls Class.Builtin.int], false⟩)))) {} ==
      WarnM.value (do
        merge (← merge none (some (.dynamic ⟨[.none], true⟩)))
          (some (.union ⟨[.cls Class.Builtin.int], false⟩))) {}) ∧
    (mergeAll [some .weakNone, none, some (.cls Class.Builtin.str)]).value {} ==
      (mergeAll [some (.cls Class.Builtin.str), some .weakNone, none, some .weakNone]).value {} := by
  have hlaws := @merge_laws none (some (.dynamic ⟨[.none], true⟩))
    (some (.union ⟨[.cls Class.Builtin.int], false⟩))
    [some .weakNone, none, some (.cls Class.Builtin.str)]
    [some (.cls Class.Builtin.str), some .weakNone, none, some .weakNone]
    (by decide) (by decide) (by decide) (by decide) (by decide) {} {}
  exact ⟨hlaws.1, hlaws.2.2.2.2 (by decide) (by decide)⟩

end UnionTypes
