import UnionTypes.Proofs.Ty.Flatten
import UnionTypes.Ty.Decode

/-!
# Decoding gives well-formed types

A document may nest unions and repeat members; what is decoded from it does not. `DecodeM.Yields`
says that whatever a decoder accepts has a property, and that the collector has no say in what it
accepts. The rules for `pure`, `throw` and `>>=` take it through the decoders, and the recursion is
theirs: a union is flattened from types that were decoded before it, so these are well formed
already.
-/

namespace UnionTypes

/-! ### One decoder after another -/

namespace DecodeM

variable {α β : Type} {x : DecodeM α} {k : Collector}

theorem value_bind_of_ok {a : α} (h : WarnM.value x.run k = .ok a) (f : α → DecodeM β) :
    WarnM.value (x >>= f).run k = WarnM.value (f a).run (x.run.run k).2 := by
  rw [ExceptT.run_bind, WarnM.value_bind, h]

theorem value_bind_of_error {e : ReadFailure} (h : WarnM.value x.run k = .error e)
    (f : α → DecodeM β) : WarnM.value (x >>= f).run k = .error e := by
  rw [ExceptT.run_bind, WarnM.value_bind, h]
  rfl

theorem value_bind_eq_ok_iff {f : α → DecodeM β} {b : β} :
    WarnM.value (x >>= f).run k = .ok b ↔
      ∃ a, WarnM.value x.run k = .ok a ∧ WarnM.value (f a).run (x.run.run k).2 = .ok b := by
  cases hx : WarnM.value x.run k with
  | ok a =>
    rw [value_bind_of_ok hx]
    refine ⟨fun h => ⟨a, rfl, h⟩, ?_⟩
    rintro ⟨a', ha, h⟩
    obtain rfl := Except.ok.inj ha
    exact h
  | error e =>
    rw [value_bind_of_error hx]
    refine ⟨nofun, ?_⟩
    rintro ⟨a, ha, -⟩
    cases ha

theorem value_map (f : α → β) (x : DecodeM α) (k : Collector) :
    WarnM.value (f <$> x).run k = (WarnM.value x.run k).map f := by
  rw [ExceptT.run_map, WarnM.value_map]

end DecodeM

/-! ### Properties of what is accepted -/

/-- Whatever the decoder accepts has the property. -/
def DecodeM.Ensures {α : Type} (x : DecodeM α) (p : α → Prop) : Prop :=
  ∀ k a, WarnM.value x.run k = .ok a → p a

/-- What the decoder comes to does not depend on the collector, and if it accepts, what it returns
has the property. -/
structure DecodeM.Yields {α : Type} (x : DecodeM α) (p : α → Prop) : Prop where
  steady : WarnM.Steady x.run
  ensures : Ensures x p

namespace DecodeM.Yields

variable {α β : Type} {p : α → Prop} {q : β → Prop}

theorem pure {a : α} (ha : p a) : Yields (pure a) p where
  steady := .pure _
  ensures := by
    intro k b hb
    cases hb
    exact ha

theorem throw (e : ReadFailure) : Yields (throw e) p where
  steady := .pure _
  ensures := by
    intro k b hb
    cases hb

theorem bind {x : DecodeM α} {f : α → DecodeM β} (hx : Yields x p)
    (hf : ∀ a, p a → Yields (f a) q) : Yields (x >>= f) q where
  steady := by
    rw [ExceptT.run_bind]
    refine hx.steady.bind fun k => ?_
    cases hxk : WarnM.value x.run k with
    | error e => exact .pure _
    | ok a => exact (hf a (hx.ensures k a hxk)).steady
  ensures := by
    intro k b hb
    obtain ⟨a, hxk, hb⟩ := value_bind_eq_ok_iff.mp hb
    exact (hf a (hx.ensures k a hxk)).ensures _ b hb

theorem map {x : DecodeM α} {f : α → β} (hx : Yields x p) (hf : ∀ a, p a → q (f a)) :
    Yields (f <$> x) q := by
  rw [map_eq_pure_bind]
  exact hx.bind fun a ha => .pure (hf a ha)

/-- A test that may give up leaves its failure to what comes after. -/
theorem guard {c : Bool} {e : ReadFailure} {rest : DecodeM α} (h : c = false → Yields rest p) :
    Yields (if c = true then (MonadExcept.throw e >>= fun _ : PUnit => rest) else rest) p := by
  cases c with
  | true => exact (throw (p := fun _ => False) e).bind fun _ h => h.elim
  | false => exact h rfl

theorem orMalformed {o : Option α} (h : ∀ a ∈ o, p a) : Yields (orMalformed o) p := by
  cases o with
  | none => exact throw _
  | some a => exact pure (h a rfl)

end DecodeM.Yields

/-! ### The decoders of types -/

open DecodeM (Yields)

theorem UnionOf.value_ofDecoded (ts : List Ty) (weak : Bool) (k : Collector) :
    WarnM.value (UnionOf.ofDecoded ts weak).run k =
      if (flatten ts weak).members.isEmpty then .error (.refused .emptyUnion)
      else .ok (flatten ts weak) := by
  unfold UnionOf.ofDecoded
  cases hempty : (flatten ts weak).members.isEmpty with
  | true => simp only [hempty, if_true]; rfl
  | false => simp only [hempty, Bool.false_eq_true, if_false]; rfl

theorem UnionOf.yields_ofDecoded {ts : List Ty} (hts : ∀ t ∈ ts, t.WellFormed) (weak : Bool) :
    Yields (UnionOf.ofDecoded ts weak) UnionOf.WellFormed where
  steady := by
    unfold UnionOf.ofDecoded
    dsimp only
    split
    · exact .pure _
    · exact (steady_ofMembers _ _).map _
  ensures := by
    intro k u hu
    rw [value_ofDecoded] at hu
    split at hu
    next => cases hu
    next hempty =>
      obtain rfl : flatten ts weak = u := Except.ok.inj hu
      exact wellFormed_flatten hts (by simpa using hempty)

namespace Ty

mutual

theorem yields_decode (delivery : Delivery) :
    (v : Json) → Yields (decode delivery v) WellFormed
  | .obj ((tag, content) :: more) => by
    have hunion : Yields (decodeUnion delivery content) UnionOf.WellFormed :=
      yields_decodeUnion delivery content
    have hnone : Yields (pure Ty.none) WellFormed := .pure trivial
    have hweakNone : Yields (pure Ty.weakNone) WellFormed := .pure trivial
    have hcls : Yields (Ty.cls <$> orMalformed (Class.decode content)) WellFormed :=
      Yields.map (p := fun _ => True) (.orMalformed fun _ _ => trivial) fun _ _ => trivial
    -- what may still stand behind the content decides on the type as it is
    have hend : ∀ t : Ty, t.WellFormed → Yields (if (!more.isEmpty) = true then
        (throw ReadFailure.malformed >>= fun _ : PUnit => pure t) else pure t) WellFormed :=
      fun t ht => .guard fun _ => .pure ht
    unfold decode
    refine .guard fun _ => ?_
    dsimp only
    split
    · exact Yields.bind hnone hend
    · exact Yields.bind hweakNone hend
    · exact Yields.bind hcls hend
    · exact Yields.bind (.map hunion fun _ hu => hu) hend
    · exact Yields.bind (.map hunion fun _ hu => hu.toDynamic) hend
    · exact Yields.bind (.throw _) hend
  | .str s => by
    unfold decode
    split
    · exact .pure trivial
    · exact .pure trivial
    · contradiction
    · exact .throw _
  | .obj [] => by unfold decode; exact .throw _
  | .null => by unfold decode; exact .throw _
  | .bool _ => by unfold decode; exact .throw _
  | .num _ => by unfold decode; exact .throw _
  | .arr _ => by unfold decode; exact .throw _
  | .gap _ => by unfold decode; exact .throw _

theorem yields_decodeUnion (delivery : Delivery) :
    (v : Json) → Yields (decodeUnion delivery v) UnionOf.WellFormed
  | .obj entries => by
    unfold decodeUnion
    refine (yields_decodeUnionFields delivery entries Option.none Option.none nofun).bind ?_
    intro fields hfields
    split
    · exact UnionOf.yields_ofDecoded (hfields _ rfl) _
    · exact .throw _
  | .arr (members :: rest) => by
    unfold decodeUnion
    refine (yields_decodeMembers delivery members).bind ?_
    intro ts hts
    split
    · exact UnionOf.yields_ofDecoded hts _
    · exact .throw _
  | .arr [] => by unfold decodeUnion; exact .throw _
  | .null => by unfold decodeUnion; exact .throw _
  | .bool _ => by unfold decodeUnion; exact .throw _
  | .num _ => by unfold decodeUnion; exact .throw _
  | .str _ => by unfold decodeUnion; exact .throw _
  | .gap _ => by unfold decodeUnion; exact .throw _

theorem yields_decodeUnionFields (delivery : Delivery) :
    (entries : List (String × Json)) → ∀ members weak, (∀ ts ∈ members, ∀ t ∈ ts, t.WellFormed) →
      Yields (decodeUnionFields delivery members weak entries) fun fields =>
        ∀ ts ∈ fields.1, ∀ t ∈ ts, t.WellFormed
  | [] => by
    intro members weak hmembers
    unfold decodeUnionFields
    exact .pure hmembers
  | (key, v) :: es => by
    intro members weak hmembers
    have hrest := yields_decodeUnionFields delivery es
    unfold decodeUnionFields
    split
    · refine .guard fun _ => (yields_decodeMembers delivery v).bind fun ts hts => ?_
      exact hrest (some ts) weak fun us hus => Option.some.inj hus ▸ hts
    · refine .guard fun _ => Yields.bind (.orMalformed fun _ _ => trivial) fun w _ => ?_
      exact hrest members (some w) hmembers
    · exact .guard fun _ => hrest members weak hmembers

theorem yields_decodeMembers (delivery : Delivery) :
    (v : Json) → Yields (decodeMembers delivery v) fun ts => ∀ t ∈ ts, t.WellFormed
  | .arr items => by
    unfold decodeMembers
    exact yields_decodeAll delivery items
  | .null => by unfold decodeMembers; exact .throw _
  | .bool _ => by unfold decodeMembers; exact .throw _
  | .num _ => by unfold decodeMembers; exact .throw _
  | .str _ => by unfold decodeMembers; exact .throw _
  | .obj _ => by unfold decodeMembers; exact .throw _
  | .gap _ => by unfold decodeMembers; exact .throw _

theorem yields_decodeAll (delivery : Delivery) :
    (vs : List Json) → Yields (decodeAll delivery vs) fun ts => ∀ t ∈ ts, t.WellFormed
  | [] => by
    unfold decodeAll
    exact .pure (by simp)
  | v :: vs => by
    have htail := yields_decodeAll delivery vs
    unfold decodeAll
    refine (yields_decode delivery v).bind fun t ht => htail.bind fun ts hts => ?_
    exact .pure (by simpa using ⟨ht, hts⟩)

end

/-- A text that is accepted gives a well-formed type. -/
theorem yields_parse (text : String) : Yields (parse text) WellFormed := by
  unfold parse
  refine (yields_decode .streamed _).bind fun t ht => ?_
  exact .guard fun _ => .pure ht

end Ty

end UnionTypes
