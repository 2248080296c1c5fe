import UnionTypes.Class.Builtin
import UnionTypes.Proofs.Ty.Decode
import UnionTypes.Proofs.Ty.Narrow
import UnionTypes.Proofs.Ty.Validity

/-!
# Every type that can be built is well formed

The syntax of types is free: a union may store unions, store something twice, or store nothing. No
operation of the library builds such a type. `Constructible` is the closure of the classes and the
two null types under all operations that return types, applied in any order, with any context, and
with the collector in any state; `Constructible.representation` is the invariant of that closure.

Each operation keeps well-formedness by a lemma of its own (`wellFormed_merge`, `wellFormed_ofList`,
`wellFormed_exclude`, `yields_decode`, ...), and the invariant follows by induction on how a type
was built.
-/

namespace UnionTypes

/-- A type that some sequence of operations builds. A union on its own is given as the type that it
is inside of. -/
inductive Constructible : Ty → Prop where
  | cls (c : Class) : Constructible (.cls c)
  | none : Constructible .none
  | weakNone : Constructible .weakNone
  /-- A stored member, read off a union. -/
  | member {t m : Ty} {u : Union} (ht : Constructible t) (hu : t.toUnion? = some u)
      (hm : m ∈ u.members) : Constructible m
  /-- The union inside a type, on its own. -/
  | inner {t : Ty} {u : Union} (ht : Constructible t) (hu : t.toUnion? = some u) :
      Constructible (.union u)
  | join {a b : Ty} (k : Collector) (ha : Constructible a) (hb : Constructible b) :
      Constructible ((a.join b).value k)
  | weaken {t : Ty} (ht : Constructible t) : Constructible t.weaken
  | merge {a b : Option Ty} {k : Collector} {t : Ty} (ha : ∀ s ∈ a, Constructible s)
      (hb : ∀ s ∈ b, Constructible s) (h : (merge a b).value k = some t) : Constructible t
  | mergeAll {ts : List (Option Ty)} {k : Collector} {t : Ty}
      (hts : ∀ o ∈ ts, ∀ s ∈ o, Constructible s) (h : (mergeAll ts).value k = some t) :
      Constructible t
  | ofList {ts : List Ty} {weak : Bool} {k : Collector} {u : Union}
      (hts : ∀ s ∈ ts, Constructible s)
      (h : WarnM.value (UnionOf.ofList ts weak).run k = .ok u) : Constructible (.union u)
  | toDynamic {t : Ty} (ht : Constructible t) : Constructible t.toDynamic
  | unionToDynamic {u : Union} (hu : Constructible (.union u)) : Constructible u.toDynamic
  | exclude {t r : Ty} {target : Option Ty} {ctx : Context} {k : Collector}
      (ht : Constructible t) (h : (t.exclude target ctx).value k = some r) : Constructible r
  | unionExclude {u : Union} {r : Ty} {target : Option Ty} {ctx : Context} {k : Collector}
      (hu : Constructible (.union u)) (h : (u.exclude target ctx).value k = some r) :
      Constructible r
  | withoutAbsence {u : Union} (hu : Constructible (.union u)) : Constructible u.withoutAbsence
  | decode {delivery : Delivery} {v : Json} {k : Collector} {t : Ty}
      (h : WarnM.value (Ty.decode delivery v).run k = .ok t) : Constructible t
  | decodeUnion {delivery : Delivery} {v : Json} {k : Collector} {u : Union}
      (h : WarnM.value (Ty.decodeUnion delivery v).run k = .ok u) : Constructible (.union u)
  | parse {text : String} {k : Collector} {t : Ty}
      (h : WarnM.value (Ty.parse text).run k = .ok t) : Constructible t

namespace Constructible

/-- Whatever can be built is well formed. Induction on how it was built: one case per operation,
each by the lemma of that operation. -/
theorem wellFormed {t : Ty} (h : Constructible t) : t.WellFormed := by
  induction h with
  | cls c => trivial
  | none => trivial
  | weakNone => trivial
  | member _ hu hm ih => exact ((ih.of_toUnion? hu).storable _ hm).wellFormed
  | inner _ hu ih => exact ih.of_toUnion? hu
  | join k _ _ iha ihb => exact (Ty.isJoin_join iha ihb k).wellFormed
  | weaken _ ih => exact ih.weaken
  | merge _ _ h iha ihb => exact wellFormed_merge iha ihb _ _ h
  | mergeAll _ h ih => exact wellFormed_mergeAll ih _ _ h
  | ofList _ h ih => exact UnionOf.wellFormed_ofList ih h
  | toDynamic _ ih => exact ih.toDynamic
  | unionToDynamic _ ih => exact UnionOf.WellFormed.toDynamic ih
  | exclude _ h ih => exact Ty.wellFormed_exclude ih h
  | unionExclude _ h ih => exact UnionOf.wellFormed_exclude ih h
  | withoutAbsence _ ih => exact UnionOf.WellFormed.withoutAbsence ih
  | decode h => exact (Ty.yields_decode _ _).ensures _ _ h
  | decodeUnion h => exact (Ty.yields_decodeUnion _ _).ensures _ _ h
  | parse h => exact (Ty.yields_parse _).ensures _ _ h

/-- **The representation invariant.** Whatever can be built, a union inside it stores something,
stores nothing twice, and stores no union, no dynamic type and no weak null type, so that its check
finds no fault; and the union inside a dynamic type is weak. -/
theorem representation {t : Ty} (h : Constructible t) :
    (∀ u, t.toUnion? = some u →
      u.members ≠ [] ∧
      u.members.Pairwise (fun a b => (a == b) = false) ∧
      (∀ m ∈ u.members, m.toUnion? = Option.none ∧ m ≠ .weakNone) ∧
      UnionOf.fault? u.members = Option.none) ∧
    ∀ u, t = .dynamic u → u.weak = true := by
  have ht : t.WellFormed := h.wellFormed
  constructor
  · intro u hu
    have hwf : u.WellFormed := ht.of_toUnion? hu
    refine ⟨hwf.members_ne_nil, hwf.distinct, fun m hm => ?_, hwf.fault?_eq_none⟩
    have hm : m.Storable := hwf.storable m hm
    refine ⟨hm.toUnion?_eq_none, ?_⟩
    rintro rfl
    exact hm
  · rintro u rfl
    exact ht.2

/-- A dynamic type is read from a document that nests a union in it, and then takes in a class. -/
theorem representation_of_decoded_join :
    Constructible (.union ⟨[.none, .cls Class.Builtin.int], true⟩) ∧
      UnionOf.fault? [.none, .cls Class.Builtin.int] = Option.none := by
  have hdecode : WarnM.value (Ty.decode .whole (.obj [("Dynamic", .obj
      [("members", .arr [.obj [("Union", .obj [("members", .arr [.str "None"]),
          ("weak", .bool false)])], .str "WeakNone"]),
        ("weak", .bool false)])])).run {} = .ok (.dynamic ⟨[.none], true⟩) := rfl
  have hjoin : Constructible (.union ⟨[.none, .cls Class.Builtin.int], true⟩) :=
    .join {} (.decode hdecode) (.cls Class.Builtin.int)
  exact ⟨hjoin, (hjoin.representation.1 _ rfl).2.2.2⟩

end Constructible

end UnionTypes
