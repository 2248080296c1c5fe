import UnionTypes.Proofs.Ty.Canonical
import UnionTypes.Proofs.Ty.Member
import UnionTypes.Proofs.Ty.Validity

/-!
# Equal types are interchangeable

`==` does not see the order of members, nor whether a weak union is a dynamic type. No operation
lets on about either, except to show a type: two equal types are `Ty.Alike`, what one of them stores
is a rearrangement of what the other stores, and every operation is settled by what is stored.

* **`Ty.alike_of_beq`** — the one place where equality is taken apart;
* **`Ty.exclude_congr`** — what is left of equal types is compact, hence canonical, and so equal;
* **`Ty.congruence`** — all operations at once.
-/

namespace UnionTypes

namespace Ty

/-- The types are of one make, but for the order of what they store. -/
structure Alike (a b : Ty) : Prop where
  isUnion : a.isUnion = b.isUnion
  weak : a.contents.weak = b.contents.weak
  members : a.contents.members.Perm b.contents.members

variable {a b e t : Ty}

theorem alike_of_beq (ha : a.WellFormed) (hb : b.WellFormed) (h : (a == b) = true) : Alike a b := by
  obtain ⟨hunion, hweak, hmem⟩ := (beq_iff ha hb).mp h
  exact ⟨hunion, hweak, (List.perm_ext_iff_of_nodup ha.contents.nodup hb.contents.nodup).mpr hmem⟩

theorem Alike.beq (h : Alike a b) (ha : a.WellFormed) (hb : b.WellFormed) : (a == b) = true :=
  (beq_iff ha hb).mpr ⟨h.isUnion, h.weak, fun _ => h.members.mem_iff⟩

/-- Where one of two alike types has a union inside, so has the other. -/
theorem Alike.exists_toUnion? (h : Alike a b) {u : Union} (hu : a.toUnion? = some u) :
    ∃ v, b.toUnion? = some v ∧ u.weak = v.weak ∧ u.members.Perm v.members := by
  obtain ⟨hunion, hweak, hmembers⟩ := h
  rw [isUnion_of_toUnion? hu] at hunion
  obtain ⟨v, hv⟩ := Option.isSome_iff_exists.mp hunion.symm
  rw [contents_of_toUnion? hu, contents_of_toUnion? hv] at hweak hmembers
  exact ⟨v, hv, hweak, hmembers⟩

theorem WellFormed.beq_self (ht : t.WellFormed) : (t == t) = true :=
  (beq_iff ht ht).mpr ⟨rfl, rfl, fun _ => Iff.rfl⟩

end Ty

theorem beq_self_of_wellFormed {o : Option Ty} (ho : ∀ t ∈ o, t.WellFormed) : (o == o) = true := by
  cases o with
  | none => rfl
  | some t => exact (ho t rfl).beq_self

/-! ## Merging and wrapping -/

theorem merge_congr {a a' b b' : Option Ty} (ha : ∀ t ∈ a, t.WellFormed)
    (ha' : ∀ t ∈ a', t.WellFormed) (hb : ∀ t ∈ b, t.WellFormed) (hb' : ∀ t ∈ b', t.WellFormed)
    (haa : (a == a') = true) (hbb : (b == b') = true) (k k' : Collector) :
    ((merge a b).value k == (merge a' b').value k') = true := by
  refine (Outline.of_eq_iff (wellFormed_merge ha hb k) (wellFormed_merge ha' hb' k')).mp ?_
  rw [Outline.of_merge ha hb, Outline.of_merge ha' hb', (Outline.of_eq_iff ha ha').mpr haa,
    (Outline.of_eq_iff hb hb').mpr hbb]

namespace Ty

variable {a b e t : Ty}

theorem weaken_congr (ha : a.WellFormed) (hb : b.WellFormed) (h : (a == b) = true) :
    (a.weaken == b.weaken) = true := by
  refine (outline_eq_iff ha.weaken hb.weaken).mp ?_
  rw [outline_weaken ha, outline_weaken hb, (outline_eq_iff ha hb).mpr h]

theorem contents_toDynamic (ht : t.WellFormed) :
    t.toDynamic.contents = { t.contents with weak := true } := by
  cases t with
  | dynamic u =>
    obtain ⟨members, weak⟩ := u
    obtain rfl : weak = true := ht.2
    rfl
  | _ => rfl

theorem isUnion_toDynamic (t : Ty) : t.toDynamic.isUnion = true := by
  cases t <;> rfl

theorem toDynamic_congr (ha : a.WellFormed) (hb : b.WellFormed) (h : (a == b) = true) :
    (a.toDynamic == b.toDynamic) = true := by
  refine Alike.beq ⟨?_, ?_, ?_⟩ ha.toDynamic hb.toDynamic
  · rw [isUnion_toDynamic, isUnion_toDynamic]
  · rw [contents_toDynamic ha, contents_toDynamic hb]
  · rw [contents_toDynamic ha, contents_toDynamic hb]
    exact (alike_of_beq ha hb h).members

end Ty

/-! ## Contexts -/

/-- The context gives the same answer about types that are equal. -/
def Context.Congruent (ctx : Context) : Prop :=
  ∀ (e e' : Ty) (actual actual' : Option Ty), e.WellFormed → e'.WellFormed →
    (∀ t ∈ actual, t.WellFormed) → (∀ t ∈ actual', t.WellFormed) →
    (e == e') = true → (actual == actual') = true → ctx.accepts e actual = ctx.accepts e' actual'

theorem Ty.admits_congr {e e' a a' : Ty} (he : e.WellFormed) (he' : e'.WellFormed)
    (ha : a.WellFormed) (ha' : a'.WellFormed) (hee : (e == e') = true) (haa : (a == a') = true) :
    e.admits a = e'.admits a' := by
  have hmem := fun m => (alike_of_beq ha ha' haa).members.mem_iff (a := m)
  have hexp := fun m => (alike_of_beq he he' hee).members.mem_iff (a := m)
  rw [Bool.eq_iff_iff, admits_iff he ha, admits_iff he' ha']
  simp only [hmem, hexp]

theorem Context.structural_congruent (qualifiedNames : Bool) :
    (Context.structural qualifiedNames).Congruent := by
  intro e e' actual actual' he he' ha ha' hee haa
  cases actual with
  | none =>
    cases actual' with
    | none => rfl
    | some t => cases haa
  | some s =>
    cases actual' with
    | none => cases haa
    | some t => exact Ty.admits_congr he he' (ha s rfl) (ha' t rfl) hee haa

theorem Context.Congruent.drops_eq {ctx : Context} (hctx : ctx.Congruent) {t t' : Option Ty}
    (ht : ∀ s ∈ t, s.WellFormed) (ht' : ∀ s ∈ t', s.WellFormed) (h : (t == t') = true)
    {o : Option Ty} (ho : ∀ s ∈ o, s.WellFormed) : ctx.drops t o = ctx.drops t' o := by
  cases t with
  | none =>
    cases t' with
    | none => rfl
    | some e => cases h
  | some e =>
    cases t' with
    | none => cases h
    | some e' =>
      exact hctx e e' o o (ht e rfl) (ht' e' rfl) ho ho h (beq_self_of_wellFormed ho)

/-! ## Narrowing -/

namespace UnionOf

theorem compact_congr {ms ms' : List Ty} (hms : Fit ms) (h : ms.Perm ms') (weak : Bool) :
    (compact ⟨ms, weak⟩ == compact ⟨ms', weak⟩) = true := by
  have hms' : Fit ms' :=
    ⟨h.nodup_iff.mp hms.nodup, fun t ht => hms.storable t (h.mem_iff.mpr ht)⟩
  cases hr : compact ⟨ms, weak⟩ with
  | none =>
    obtain rfl : ms = [] := compact_eq_none_iff.mp hr
    rw [h.nil_eq.symm]
    rfl
  | some r =>
    cases hs : compact ⟨ms', weak⟩ with
    | none =>
      obtain rfl : ms' = [] := compact_eq_none_iff.mp hs
      rw [h.eq_nil] at hr
      cases hr
    | some s =>
      -- equality compares outlines, and those of compact forms come from the members alone
      have hcr : r.Canonical := canonical_of_compact hms hr
      have hcs : s.Canonical := canonical_of_compact hms' hs
      have hr : r.contents = ⟨ms, weak⟩ := (contents_of_compact hms hr).1
      have hs : s.contents = ⟨ms', weak⟩ := (contents_of_compact hms' hs).1
      refine (Ty.outline_eq_iff hcr.wellFormed hcs.wellFormed).mp (hcr.tight.ext hcs.tight ?_ ?_)
      · show {m | m ∈ r.contents.members} = {m | m ∈ s.contents.members}
        rw [hr, hs]
        exact Set.ext fun m => h.mem_iff
      · show (r.contents.weak = true) = (s.contents.weak = true)
        rw [hr, hs]

theorem exclude_congr {u v : Union} (hu : u.WellFormed) (hv : v.WellFormed)
    (hweak : u.weak = v.weak) (h : u.members.Perm v.members) {ctx : Context} {t t' : Option Ty}
    (hdrops : ∀ o : Option Ty, (∀ s ∈ o, s.WellFormed) → ctx.drops t o = ctx.drops t' o)
    (k k' : Collector) :
    ((u.exclude t ctx).value k == (v.exclude t' ctx).value k') = true := by
  have hkeeps : u.keepsAbsence t ctx = v.keepsAbsence t' ctx := by
    rw [keepsAbsence, keepsAbsence, hweak, hdrops none (by simp)]
  have hkept : (u.kept t ctx).Perm (v.kept t' ctx) := by
    have hsame : v.kept t' ctx = v.members.filter fun m => !ctx.drops t (some m) := by
      refine List.filter_congr fun m hm => ?_
      rw [hdrops (some m) (by simpa using (hv.storable m hm).wellFormed)]
    rw [hsame]
    exact h.filter _
  rw [value_exclude hu, value_exclude hv, hkeeps]
  exact compact_congr (hu.fit.filter _) hkept _

theorem withoutAbsence_congr {u v : Union} (hu : u.WellFormed) (hv : v.WellFormed)
    (hweak : u.weak = v.weak) (h : u.members.Perm v.members) :
    (u.withoutAbsence == v.withoutAbsence) = true := by
  obtain ⟨ms, weak⟩ := u
  obtain ⟨ns, weak'⟩ := v
  obtain rfl : weak = weak' := hweak
  have h : ms.Perm ns := h
  match ms, ns with
  | [], _ => exact absurd rfl hu.members_ne_nil
  | _, [] => exact absurd rfl hv.members_ne_nil
  | [m], n :: ns =>
    obtain ⟨rfl, rfl⟩ : n = m ∧ ns = [] := by simpa using h.symm.eq_singleton
    exact hu.withoutAbsence.beq_self
  | a :: b :: ms, [n] => simpa using h.length_eq
  | a :: b :: ms, c :: d :: ns =>
    refine Ty.Alike.beq ⟨rfl, rfl, h⟩ ?_ ?_
    · exact hu.withWeak false
    · exact hv.withWeak false

end UnionOf

theorem Ty.exclude_congr {a a' : Ty} (ha : a.WellFormed) (ha' : a'.WellFormed)
    (h : (a == a') = true) {ctx : Context} (hctx : ctx.Congruent) {t t' : Option Ty}
    (ht : ∀ s ∈ t, s.WellFormed) (ht' : ∀ s ∈ t', s.WellFormed) (htt : (t == t') = true)
    (k k' : Collector) :
    ((a.exclude t ctx).value k == (a'.exclude t' ctx).value k') = true := by
  have hdrops : ∀ o : Option Ty, (∀ s ∈ o, s.WellFormed) → ctx.drops t o = ctx.drops t' o :=
    fun o ho => hctx.drops_eq ht ht' htt ho
  cases hu : a.toUnion? with
  | some u =>
    obtain ⟨v, hv, hweak, hmembers⟩ := (alike_of_beq ha ha' h).exists_toUnion? hu
    rw [exclude_of_toUnion? hu, exclude_of_toUnion? hv]
    exact UnionOf.exclude_congr (ha.of_toUnion? hu) (ha'.of_toUnion? hv) hweak hmembers hdrops k k'
  | none =>
    -- what is no union is equal to itself alone
    obtain rfl : a = a' := (beq_iff_eq_of_left hu).mp h
    rw [value_exclude_of_toUnion?_eq_none hu, value_exclude_of_toUnion?_eq_none hu,
      hdrops (some a) (by simpa using ha)]
    split
    · rfl
    · exact ha.beq_self

/-! ## Queries -/

namespace Ty.Alike

variable {a b : Ty}

theorem isBuiltin_eq (h : Alike a b) (ha : a.WellFormed) (hb : b.WellFormed) :
    a.isBuiltin = b.isBuiltin := by
  rw [Ty.isBuiltin_eq ha, Ty.isBuiltin_eq hb, h.isUnion, h.weak, h.members.all_eq]

theorem validate_iff (h : Alike a b) (ha : a.WellFormed) (hb : b.WellFormed)
    (message message' : String) (k k' : Collector) :
    WarnM.value (a.validate message).run k = .ok () ↔
      WarnM.value (b.validate message').run k' = .ok () := by
  have hreached : a.reached.Perm b.reached := h.members.flatMap_right _
  rw [value_validate_eq_ok_iff ha, value_validate_eq_ok_iff hb]
  exact forall_congr' fun c => imp_congr_left hreached.mem_iff

theorem mem_complete_iff (h : Alike a b) (stem : String) (m : Member) :
    m ∈ a.complete stem ↔ m ∈ b.complete stem := by
  rw [mem_complete_iff_exists, mem_complete_iff_exists]
  exact exists_congr fun s => and_congr_left' h.members.mem_iff

theorem resolve_rel (h : Alike a b) (name : String) (access : Access) :
    Option.Rel List.Perm (a.resolve name access) (b.resolve name access) := by
  rw [resolve_eq_resolveAll, resolve_eq_resolveAll name access b]
  have hnone : resolveAll name access a.contents.members = Option.none ↔
      resolveAll name access b.contents.members = Option.none := by
    rw [resolveAll_eq_none_iff, resolveAll_eq_none_iff]
    exact forall_congr' fun m => imp_congr_left h.members.mem_iff
  have hperm := h.members.flatMap_right fun m => (m.resolve name access).getD []
  rw [← getD_resolveAll, ← getD_resolveAll] at hperm
  -- a pool that is empty is not yet absent, so the two are compared apart from `hperm`
  cases hl : resolveAll name access a.contents.members with
  | none =>
    rw [hnone.mp hl]
    exact .none
  | some l =>
    cases hr : resolveAll name access b.contents.members with
    | none =>
      rw [hnone.mpr hr] at hl
      cases hl
    | some r =>
      rw [hl, hr] at hperm
      exact .some hperm

end Ty.Alike

/-! ## All operations -/

/-- **Equality is a congruence.** Types that are equal, in whatever order they store their members
and whether they are dynamic or weak unions, are interchangeable as operands of merges, as what is
weakened, narrowed or made dynamic, as what a context compares, if it compares equal types alike as
the structural ones do, and as what is asked for its members, its validity or its origin. -/
theorem Ty.congruence {a a' b b' : Ty} (ha : a.WellFormed) (ha' : a'.WellFormed)
    (hb : b.WellFormed) (hb' : b'.WellFormed) (haa : (a == a') = true) (hbb : (b == b') = true)
    (k k' : Collector) :
    ((merge (some a) (some b)).value k == (merge (some a') (some b')).value k') = true ∧
    ((merge (some a) Option.none).value k == (merge (some a') Option.none).value k') = true ∧
    ((merge Option.none (some a)).value k == (merge Option.none (some a')).value k') = true ∧
    (a.weaken == a'.weaken) = true ∧
    (∀ (ctx : Context) (t t' : Option Ty), ctx.Congruent → (∀ s ∈ t, s.WellFormed) →
      (∀ s ∈ t', s.WellFormed) → (t == t') = true →
      ((a.exclude t ctx).value k == (a'.exclude t' ctx).value k') = true) ∧
    (∀ qualifiedNames, (Context.structural qualifiedNames).Congruent) ∧
    (∀ u u', a.toUnion? = some u → a'.toUnion? = some u' →
      (u.withoutAbsence == u'.withoutAbsence) = true) ∧
    (a.toDynamic == a'.toDynamic) = true ∧
    a.isBuiltin = a'.isBuiltin ∧
    (∀ message, WarnM.value (a.validate message).run k = .ok () ↔
      WarnM.value (a'.validate message).run k' = .ok ()) ∧
    (∀ stem m, m ∈ a.complete stem ↔ m ∈ a'.complete stem) ∧
    (∀ name access, Option.Rel List.Perm (a.resolve name access) (a'.resolve name access)) := by
  have halike : Alike a a' := alike_of_beq ha ha' haa
  have hwf : ∀ {t : Ty}, t.WellFormed → ∀ s ∈ some t, s.WellFormed := by
    rintro t ht s ⟨rfl⟩
    exact ht
  have habsent : ∀ s ∈ (Option.none : Option Ty), s.WellFormed := by simp
  refine ⟨?merge, ?absentRight, ?absentLeft, weaken_congr ha ha' haa, ?exclude,
    Context.structural_congruent, ?withoutAbsence, toDynamic_congr ha ha' haa,
    halike.isBuiltin_eq ha ha', fun message => halike.validate_iff ha ha' message message k k',
    halike.mem_complete_iff, halike.resolve_rel⟩
  case merge => exact merge_congr (hwf ha) (hwf ha') (hwf hb) (hwf hb') haa hbb k k'
  case absentRight => exact merge_congr (hwf ha) (hwf ha') habsent habsent haa rfl k k'
  case absentLeft => exact merge_congr habsent habsent (hwf ha) (hwf ha') rfl haa k k'
  case exclude =>
    intro ctx t t' hctx ht ht' htt
    exact exclude_congr ha ha' haa hctx ht ht' htt k k'
  case withoutAbsence =>
    intro u u' hu hu'
    obtain ⟨-, hweak, hmembers⟩ := halike
    rw [contents_of_toUnion? hu, contents_of_toUnion? hu'] at hweak hmembers
    exact UnionOf.withoutAbsence_congr (ha.of_toUnion? hu) (ha'.of_toUnion? hu') hweak hmembers

/-- A weak union and a dynamic type of the same two members in the other order. -/
theorem Ty.congruence_of_dynamic :
    let int : Ty := .cls Class.Builtin.int
    let a : Ty := .union ⟨[int, .none], true⟩
    let a' : Ty := .dynamic ⟨[.none, int], true⟩
    let b : Ty := .union ⟨[int], false⟩
    ((merge (some a) (some b)).value {} == (merge (some a') (some b)).value {}) = true ∧
    ((a.exclude (some .none) .plain).value {} == (a'.exclude (some .none) .plain).value {}) = true ∧
    a.isBuiltin = a'.isBuiltin ∧
    Option.Rel List.Perm (a.resolve "__bool__" .read) (a'.resolve "__bool__" .read) := by
  intro int a a' b
  obtain ⟨hmerge, -, -, -, hexclude, hplain, -, -, hbuiltin, -, -, hresolve⟩ :=
    @congruence a a' b b (by decide) (by decide) (by decide) (by decide) (by decide) (by decide)
      {} {}
  exact ⟨hmerge, hexclude .plain _ _ (hplain false) (by simp [WellFormed]) (by simp [WellFormed]) rfl,
    hbuiltin, hresolve "__bool__" .read⟩

end UnionTypes
