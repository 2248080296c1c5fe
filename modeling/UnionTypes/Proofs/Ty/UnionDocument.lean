import UnionTypes.Class.Builtin
import UnionTypes.Proofs.Ty.Contents
import UnionTypes.Proofs.Ty.Decode

/-!
# Unions in a document

A document describes a union by a list of members and a flag, as a record or as a pair.
`Json.DescribesUnion` covers both, with the entries of the record in any order and others among
them, and **`Ty.decodeUnion_of_describes`** says once what decoding comes to: the members are
decoded one after the other, and what was decoded is made into a union. So a document builds a union
as a caller does (**`Ty.decodeUnion_agrees`**), and a member that is refused, at whatever depth,
refuses the whole document (`Ty.refused_of_within`).
-/

namespace UnionTypes

/-- The document describes a union by these members and this flag. It is an object with one entry
for each, among other entries that can be passed over, or an array of the two. -/
inductive Json.DescribesUnion (items : List Json) (weak : Bool) : Json → Prop where
  | object {entries : List (String × Json)}
      (hmembers : entries.filter (·.1 == "members") = [("members", .arr items)])
      (hweak : entries.filter (·.1 == "weak") = [("weak", .bool weak)])
      (hothers : ∀ e ∈ entries, e.1 ≠ "members" → e.1 ≠ "weak" → e.2.isWhole = true) :
      DescribesUnion items weak (.obj entries)
  | array : DescribesUnion items weak (.arr [.arr items, .bool weak])

/-- The first document is the second, or stands somewhere among the members of the union or the
dynamic type that the second describes. -/
inductive Json.Within (i : Json) : Json → Prop where
  | self : Within i i
  | member {tag : String} {items : List Json} {weak : Bool} {v j : Json}
      (htag : tag = "Union" ∨ tag = "Dynamic") (hv : v.DescribesUnion items weak)
      (hj : j ∈ items) (hi : Within i j) : Within i (.obj [(tag, v)])

theorem Json.describesUnion_record (items : List Json) (weak : Bool) :
    Json.DescribesUnion items weak (.obj [("members", .arr items), ("weak", .bool weak)]) :=
  .object rfl rfl (by simp)

theorem exists_mem_of_forall₂ {α β : Type} {R : α → β → Prop} {as : List α} {bs : List β}
    (h : List.Forall₂ R as bs) {a : α} (ha : a ∈ as) : ∃ b ∈ bs, R a b := by
  induction h with
  | nil => exact absurd ha List.not_mem_nil
  | cons hab _ ih =>
    rcases List.mem_cons.mp ha with rfl | ha
    · exact ⟨_, List.mem_cons_self, hab⟩
    · obtain ⟨b, hb, hr⟩ := ih ha
      exact ⟨b, List.mem_cons_of_mem _ hb, hr⟩

namespace Ty

variable {delivery : Delivery} {items : List Json} {weak : Bool} {v : Json}

/-! ## What a description comes to -/

/-- The entries of a description give its two fields, whichever of them is still to come. Induction
on the entries; a field that was found is not met again. -/
theorem decodeUnionFields_eq {entries : List (String × Json)} {members? : Option (List Ty)}
    {weak? : Option Bool}
    (hmembers : entries.filter (·.1 == "members") =
      if members?.isSome then [] else [("members", .arr items)])
    (hweak : entries.filter (·.1 == "weak") =
      if weak?.isSome then [] else [("weak", .bool weak)])
    (hfound : ∀ w ∈ weak?, w = weak)
    (hothers : ∀ e ∈ entries, e.1 ≠ "members" → e.1 ≠ "weak" → e.2.isWhole = true) :
    decodeUnionFields delivery members? weak? entries =
      members?.elim (decodeAll delivery items) pure >>= fun ts => pure (some ts, some weak) := by
  induction entries generalizing members? weak? with
  | nil =>
    cases members? with
    | none => simp at hmembers
    | some ts =>
      cases weak? with
      | none => simp at hweak
      | some w =>
        obtain rfl : w = weak := hfound w rfl
        rw [decodeUnionFields, Option.elim, pure_bind]
  | cons e es ih =>
    obtain ⟨key, v⟩ := e
    have hrest : ∀ e ∈ es, e.1 ≠ "members" → e.1 ≠ "weak" → e.2.isWhole = true :=
      fun e he => hothers e (List.mem_cons_of_mem _ he)
    unfold decodeUnionFields
    split
    · cases members? with
      | some ts => simp at hmembers
      | none =>
        obtain ⟨rfl, hnone⟩ : v = .arr items ∧ es.filter (·.1 == "members") = [] := by
          simpa using hmembers
        have hih := fun ts => @ih (some ts) weak? hnone (by simpa using hweak) hfound hrest
        simp [decodeMembers, hih]
    · cases weak? with
      | some w => simp at hweak
      | none =>
        obtain ⟨rfl, hnone⟩ : v = .bool weak ∧ es.filter (·.1 == "weak") = [] := by
          simpa using hweak
        have hih := @ih members? (some weak) (by simpa using hmembers) hnone (by simp) hrest
        simp [Json.bool?, orMalformed, hih]
    · next hkey hkey' =>
      have hwhole : v.isWhole = true := hothers _ List.mem_cons_self hkey hkey'
      rw [List.filter_cons_of_neg (by simpa using hkey)] at hmembers
      rw [List.filter_cons_of_neg (by simpa using hkey')] at hweak
      simp [hwhole, ih hmembers hweak hfound hrest]

theorem decodeUnion_of_describes (hv : v.DescribesUnion items weak) :
    decodeUnion delivery v =
      decodeAll delivery items >>= fun ts => UnionOf.ofDecoded ts weak := by
  cases hv with
  | @object entries hmembers hweak hothers =>
    have hfields := @decodeUnionFields_eq delivery items weak entries Option.none Option.none
      hmembers hweak (by simp) hothers
    rw [decodeUnion, hfields]
    simp
  | array => rw [decodeUnion, decodeMembers]

theorem decode_union_tag (delivery : Delivery) (v : Json) :
    decode delivery (.obj [("Union", v)]) = Ty.union <$> decodeUnion delivery v := by
  simp [decode]

theorem decode_dynamic_tag (delivery : Delivery) (v : Json) :
    decode delivery (.obj [("Dynamic", v)]) = UnionOf.toDynamic <$> decodeUnion delivery v := by
  simp [decode]

/-! ## Members that are refused -/

open DecodeM (value_bind_of_ok value_bind_of_error value_bind_eq_ok_iff)

/-- What a document comes to does not depend on the collector. -/
theorem value_decode_eq (delivery : Delivery) (v : Json) (k k' : Collector) :
    WarnM.value (decode delivery v).run k = WarnM.value (decode delivery v).run k' :=
  (yields_decode delivery v).steady.value_eq k k'

theorem value_decodeAll_eq_ok_iff {ts : List Ty} {k : Collector} :
    WarnM.value (decodeAll delivery items).run k = .ok ts ↔
      List.Forall₂ (fun j t => ∃ k, WarnM.value (decode delivery j).run k = .ok t) items ts := by
  induction items generalizing ts k with
  | nil =>
    rw [decodeAll, List.forall₂_nil_left_iff]
    exact ⟨fun h => (Except.ok.inj h).symm, fun h => h ▸ rfl⟩
  | cons j items ih =>
    rw [decodeAll, List.forall₂_cons_left_iff]
    simp only [value_bind_eq_ok_iff, ih]
    constructor
    · rintro ⟨t, hj, rest, hrest, h⟩
      exact ⟨t, rest, ⟨k, hj⟩, hrest, (Except.ok.inj h).symm⟩
    · rintro ⟨t, rest, ⟨k', hj⟩, hrest, rfl⟩
      exact ⟨t, value_decode_eq delivery j k k' ▸ hj, rest, hrest, rfl⟩

/-- The first member that is refused refuses all, for its own reason. -/
theorem value_decodeAll_of_first {before after : List Json} {j : Json} {e : ReadFailure}
    (hbefore : ∀ i ∈ before, ∃ k t, WarnM.value (decode delivery i).run k = .ok t)
    (hj : ∃ k, WarnM.value (decode delivery j).run k = .error e) (k : Collector) :
    WarnM.value (decodeAll delivery (before ++ j :: after)).run k = .error e := by
  induction before generalizing k with
  | nil =>
    obtain ⟨k', hj⟩ := hj
    rw [List.nil_append, decodeAll, value_bind_of_error (value_decode_eq delivery j k k' ▸ hj)]
  | cons i before ih =>
    obtain ⟨k', t, hi⟩ := hbefore i List.mem_cons_self
    have hrest := ih fun i hi => hbefore i (List.mem_cons_of_mem _ hi)
    rw [List.cons_append, decodeAll, value_bind_of_ok (value_decode_eq delivery i k k' ▸ hi),
      value_bind_of_error (hrest _)]

theorem exists_value_decodeAll_error {j : Json} (hj : j ∈ items)
    (herror : ∃ k e, WarnM.value (decode delivery j).run k = .error e) (k : Collector) :
    ∃ e, WarnM.value (decodeAll delivery items).run k = .error e := by
  cases hall : WarnM.value (decodeAll delivery items).run k with
  | error e => exact ⟨e, rfl⟩
  | ok ts =>
    obtain ⟨t, -, k', ht⟩ := exists_mem_of_forall₂ (value_decodeAll_eq_ok_iff.mp hall) hj
    obtain ⟨k'', e, he⟩ := herror
    rw [value_decode_eq delivery j k' k'', he] at ht
    cases ht

/-- A document in which a member is refused, at whatever depth, is refused. Induction on the way
down to that member. -/
theorem refused_of_within {i d : Json} (h : i.Within d)
    (hi : ∃ k e, WarnM.value (decode delivery i).run k = .error e) :
    ∃ k e, WarnM.value (decode delivery d).run k = .error e := by
  induction h with
  | self => exact hi
  | member htag hv hj _ ih =>
    obtain ⟨e, he⟩ := exists_value_decodeAll_error hj ih {}
    refine ⟨{}, e, ?_⟩
    rcases htag with rfl | rfl
    · rw [decode_union_tag, DecodeM.value_map, decodeUnion_of_describes hv, value_bind_of_error he]
      rfl
    · rw [decode_dynamic_tag, DecodeM.value_map, decodeUnion_of_describes hv,
        value_bind_of_error he]
      rfl

/-! ## Documents and callers -/

/-- Members that are accepted make the union that a caller would make of them. -/
theorem value_decodeUnion_of_forall₂ (hv : v.DescribesUnion items weak) {ts : List Ty}
    (hts : List.Forall₂ (fun j t => ∃ k, WarnM.value (decode delivery j).run k = .ok t) items ts)
    (k k' : Collector) :
    WarnM.value (decodeUnion delivery v).run k =
      (WarnM.value (UnionOf.ofList ts weak).run k').mapError .refused := by
  have hall : WarnM.value (decodeAll delivery items).run k = .ok ts :=
    value_decodeAll_eq_ok_iff.mpr hts
  rw [decodeUnion_of_describes hv, value_bind_of_ok hall, UnionOf.value_ofDecoded,
    UnionOf.value_ofList]
  split <;> rfl

theorem weak_of_dynamic_tag {d : Json} {t : Ty} {k : Collector}
    (ht : WarnM.value (decode delivery (.obj [("Dynamic", d)])).run k = .ok t) :
    t.contents.weak = true := by
  rw [decode_dynamic_tag, map_eq_pure_bind] at ht
  obtain ⟨u, -, ht⟩ := value_bind_eq_ok_iff.mp ht
  obtain rfl : u.toDynamic = t := Except.ok.inj ht
  rfl

theorem weak_of_dynamic_member (hv : v.DescribesUnion items weak) {d : Json}
    (hd : .obj [("Dynamic", d)] ∈ items) {u : Union} {k : Collector}
    (hu : WarnM.value (decodeUnion delivery v).run k = .ok u) : u.weak = true := by
  rw [decodeUnion_of_describes hv] at hu
  obtain ⟨ts, hall, hu⟩ := value_bind_eq_ok_iff.mp hu
  obtain ⟨t, ht, k', hdt⟩ := exists_mem_of_forall₂ (value_decodeAll_eq_ok_iff.mp hall) hd
  have hweak : ts.any (·.contents.weak) = true :=
    List.any_eq_true.mpr ⟨t, ht, weak_of_dynamic_tag hdt⟩
  rw [UnionOf.value_ofDecoded] at hu
  split at hu
  next => cases hu
  next =>
    obtain rfl : UnionOf.flatten ts weak = u := Except.ok.inj hu
    rw [UnionOf.weak_flatten, hweak, Bool.or_true]

/-- **A document builds a union as a caller does.** The first member that is refused refuses the
union, for its own reason, and a member that is refused at whatever depth refuses it too. If all
members are accepted, the union is the one that a caller would make of them; if a caller could make
none, it is refused for that. The tags of unions and dynamic types tell the same members apart only
by the variant and the flag, and a dynamic member makes the union weak. -/
theorem decodeUnion_agrees (hv : v.DescribesUnion items weak) (k k' : Collector) :
    (∀ before j after e, items = before ++ j :: after →
      (∀ i ∈ before, ∃ k t, WarnM.value (decode delivery i).run k = .ok t) →
      (∃ k, WarnM.value (decode delivery j).run k = .error e) →
      WarnM.value (decodeUnion delivery v).run k = .error e) ∧
    (∀ i j, j ∈ items → i.Within j →
      (∃ k e, WarnM.value (decode delivery i).run k = .error e) →
      ∃ e, WarnM.value (decodeUnion delivery v).run k = .error e) ∧
    (∀ ts, List.Forall₂ (fun j t => ∃ k, WarnM.value (decode delivery j).run k = .ok t) items ts →
      WarnM.value (decodeUnion delivery v).run k =
        match WarnM.value (UnionOf.ofList ts weak).run k' with
        | .ok u => .ok u
        | .error _ =>
          .error (.refused (.invalidArgument "a union needs at least one member"))) ∧
    WarnM.value (decode delivery (.obj [("Union", v)])).run k =
      (WarnM.value (decodeUnion delivery v).run k).map .union ∧
    WarnM.value (decode delivery (.obj [("Dynamic", v)])).run k =
      (WarnM.value (decodeUnion delivery v).run k).map
        (fun u => .dynamic { members := u.members, weak := true }) ∧
    ∀ d u, .obj [("Dynamic", d)] ∈ items →
      WarnM.value (decodeUnion delivery v).run k = .ok u → u.weak = true := by
  refine ⟨?first, ?within, ?accepted, ?union, ?dynamic, ?weak⟩
  case first =>
    rintro before j after e rfl hbefore hj
    rw [decodeUnion_of_describes hv, value_bind_of_error (value_decodeAll_of_first hbefore hj k)]
  case within =>
    intro i j hj hij hi
    obtain ⟨e, he⟩ := exists_value_decodeAll_error hj (refused_of_within hij hi) k
    exact ⟨e, by rw [decodeUnion_of_describes hv, value_bind_of_error he]⟩
  case accepted =>
    intro ts hts
    rw [value_decodeUnion_of_forall₂ hv hts k k', UnionOf.value_ofList]
    split <;> rfl
  case union => rw [decode_union_tag, DecodeM.value_map]
  case dynamic => rw [decode_dynamic_tag, DecodeM.value_map]; rfl
  case weak => exact fun d u hd hu => weak_of_dynamic_member hv hd hu

/-- A record in which the flag comes first and one entry means nothing: of its members the one is
dynamic and the other a union with the weak null type in it. And a list of which one member could be
stored, while the other describes a union with nothing to store two levels down. -/
theorem decodeUnion_agrees_of_nested :
    let inner : Json := .obj [("Union", .arr [.arr [.str "None", .str "WeakNone"], .bool false])]
    let v : Json := .obj [("weak", .bool false), ("note", .null),
      ("members", .arr [.obj [("Dynamic", .arr [.arr [.str "None"], .bool false])], inner])]
    let empty : Json := .obj [("Union", .arr [.arr [.str "WeakNone"], .bool true])]
    let outer : Json := .obj [("Union", .arr [.arr [.str "None", empty], .bool false])]
    WarnM.value (decodeUnion .streamed v).run {} = .ok ⟨[.none], true⟩ ∧
    ∃ e, WarnM.value (decodeUnion .whole (.arr [.arr [.str "None", outer], .bool false])).run {} =
      .error e := by
  intro inner v empty outer
  have hv : v.DescribesUnion [.obj [("Dynamic", .arr [.arr [.str "None"], .bool false])], inner]
      false := .object rfl rfl (by simp [Json.isWhole])
  have haccepted := (@decodeUnion_agrees .streamed _ _ v hv {} {}).2.2.1
    [.dynamic ⟨[.none], true⟩, .union ⟨[.none], true⟩]
    (.cons ⟨{}, rfl⟩ (.cons ⟨{}, rfl⟩ .nil))
  have hwithin : empty.Within outer :=
    .member (Or.inl rfl) .array (List.mem_cons_of_mem _ List.mem_cons_self) .self
  have hrefused := (@decodeUnion_agrees .whole [.str "None", outer] false _ .array {} {}).2.1
    empty outer (List.mem_cons_of_mem _ List.mem_cons_self) hwithin ⟨{}, _, rfl⟩
  exact ⟨haccepted, hrefused⟩

end Ty

end UnionTypes
