import UnionTypes.Class.Builtin
import UnionTypes.Proofs.Ty.UnionDocument
import UnionTypes.Ty.Encode

/-!
# Reading what was written

Types are read more freely than they are written: a union is written field by field and read by
flattening what its members decode to, and a dynamic type is written as its union and read by
weakening one. On well-formed types none of this makes a difference, so what was written is read
back as it was.

* **`Class.decode_encode`** — a class is read back with all its fields and bases;
* **`Ty.decode_encode`** — a well-formed type is read back, and nothing happens on the way but that
  the size of a union is checked;
* **`Ty.encode_round_trip`** — so a type may be written and read again, wherever it comes from.
-/

namespace UnionTypes

/-! ## Classes -/

theorem Attribute.decode_encode (a : Attribute) : Attribute.decode a.encode = some a := by
  obtain ⟨name, kind, readonly⟩ := a
  cases kind <;> rfl

namespace Class

theorem decodeAttributes_map_encode (attributes : List Attribute) :
    decodeAttributes (.arr (attributes.map Attribute.encode)) = some attributes := by
  show (attributes.map Attribute.encode).mapM Attribute.decode = some attributes
  induction attributes with
  | nil => rfl
  | cons a as ih =>
    rw [List.map_cons, List.mapM_cons, Attribute.decode_encode, ih]
    rfl

mutual

theorem decode_encode : (c : Class) → decode c.encode = some c
  | ⟨name, moduleName, builtin, dynamicAttributes, valid, attributes, bases⟩ => by
    have hattributes := decodeAttributes_map_encode attributes
    have hbases : decodeBases (.arr (encodeAll bases)) = some bases := by
      rw [decodeBases]
      exact decodeAll_encodeAll bases
    cases moduleName with
    | none =>
      simp [encode, decode, decodeFields, decodeModule, hattributes, hbases, Draft.fill?,
        Draft.finish?, Json.str?, Json.bool?]
    | some m =>
      simp [encode, decode, decodeFields, decodeModule, hattributes, hbases, Draft.fill?,
        Draft.finish?, Json.str?, Json.bool?]

theorem decodeAll_encodeAll : (cs : List Class) → decodeAll (encodeAll cs) = some cs
  | [] => by rw [encodeAll, decodeAll]
  | c :: cs => by
    rw [encodeAll, decodeAll, decode_encode c, decodeAll_encodeAll cs]
    rfl

end

end Class

/-! ## Types -/

namespace Ty

variable {delivery : Delivery}

theorem decode_encode_of_storable {m : Ty} (hm : m.Storable) :
    decode delivery m.encode = pure m := by
  cases m with
  | cls c => simp [encode, decode, Class.decode_encode, orMalformed]
  | none => rw [encode, decode]
  | weakNone => exact hm.elim
  | union u => exact hm.elim
  | dynamic u => exact hm.elim

theorem decodeAll_encodeAll {ms : List Ty} (hms : ∀ m ∈ ms, m.Storable) :
    decodeAll delivery (encodeAll ms) = pure ms := by
  induction ms with
  | nil => rw [encodeAll, decodeAll]
  | cons m ms ih =>
    rw [encodeAll, decodeAll, decode_encode_of_storable (hms m List.mem_cons_self),
      ih fun n hn => hms n (List.mem_cons_of_mem m hn)]
    simp

/-- What is stored already flat is flattened to itself, so that only its size is checked. -/
theorem ofDecoded_members {u : Union} (hu : u.WellFormed) :
    UnionOf.ofDecoded u.members u.weak = do warnIfLarge u.size; return u := by
  have hmembers : u.members.isEmpty = false := by simpa using hu.members_ne_nil
  unfold UnionOf.ofDecoded
  rw [UnionOf.flatten_of_fit hu.fit]
  simp only [hmembers, Bool.false_eq_true, if_false]
  rfl

theorem decodeUnion_encode {u : Union} (hu : u.WellFormed) :
    decodeUnion delivery (.obj [("members", .arr (encodeAll u.members)), ("weak", .bool u.weak)]) =
      do warnIfLarge u.size; return u := by
  rw [decodeUnion_of_describes (Json.describesUnion_record _ _), decodeAll_encodeAll hu.storable,
    pure_bind, ofDecoded_members hu]

/-- A well-formed type is read back as it was written. On the way the size of a union is checked,
and nothing else happens. -/
theorem decode_encode {t : Ty} (ht : t.WellFormed) :
    decode delivery t.encode = do
      if let some u := t.toUnion? then
        warnIfLarge u.size
      return t := by
  cases t with
  | cls c => exact decode_encode_of_storable trivial
  | none => exact decode_encode_of_storable trivial
  | weakNone => rw [encode, decode]; rfl
  | union u =>
    rw [encode, decode_union_tag, decodeUnion_encode ht]
    simp [toUnion?]
  | dynamic u =>
    -- reading makes the union weak, and it is weak already
    have hweak : u.toDynamic = .dynamic u := by
      obtain ⟨members, weak⟩ := u
      obtain rfl : weak = true := ht.2
      rfl
    rw [encode, decode_dynamic_tag, decodeUnion_encode ht.1]
    simp [toUnion?, hweak]

/-- **Writing and reading are inverse to each other.** A well-formed type is read back as it was
written, however the document comes and whatever the collector holds: the same variant with the same
members in the same order, equally weak, and with every field of every class. And whatever a
document describes is well formed, so it can be written and read again. -/
theorem encode_round_trip :
    (∀ t : Ty, t.WellFormed → ∀ delivery k,
      WarnM.value (decode delivery t.encode).run k = .ok t) ∧
    ∀ delivery v k t, WarnM.value (decode delivery v).run k = .ok t →
      ∀ delivery' k', WarnM.value (decode delivery' t.encode).run k' = .ok t := by
  have hread : ∀ t : Ty, t.WellFormed → ∀ delivery k,
      WarnM.value (decode delivery t.encode).run k = .ok t := by
    intro t ht delivery k
    rw [decode_encode ht]
    cases t <;> rfl
  refine ⟨hread, fun delivery v k t hv => hread t ?_⟩
  exact (yields_decode delivery v).ensures k t hv

/-- A dynamic type of a class with a base and of the null value; and what comes of a document that
repeats a member and nests a union, which is not how the type is written. -/
theorem encode_round_trip_of_dynamic :
    let t : Ty := .dynamic ⟨[.cls Class.Builtin.bool, .none], true⟩
    let v : Json := .obj [("Union", .arr [.arr [.str "None", .str "WeakNone",
      .obj [("Union", .arr [.arr [.str "None"], .bool false])]], .bool false])]
    WarnM.value (decode .streamed t.encode).run {} = .ok t ∧
    WarnM.value (decode .whole v).run {} = .ok (.union ⟨[.none], true⟩) ∧
    WarnM.value (decode .streamed (Ty.union ⟨[.none], true⟩).encode).run {} =
      .ok (.union ⟨[.none], true⟩) := by
  intro t v
  have hv : WarnM.value (decode .whole v).run {} = .ok (.union ⟨[.none], true⟩) := rfl
  exact ⟨encode_round_trip.1 t (by decide) .streamed {}, hv,
    encode_round_trip.2 .whole v {} _ hv .streamed {}⟩

end Ty

end UnionTypes
