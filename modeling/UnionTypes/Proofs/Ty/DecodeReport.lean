import UnionTypes.Class.Builtin
import UnionTypes.Proofs.Ty.Growth
import UnionTypes.Proofs.Ty.RoundTrip

/-!
# What decoding reports

A document that describes a union describes the unions among its members on the way, and each of
them has its size checked as soon as it is complete. `Json.unionNodes` lists them as they stand in
the document, without decoding anything: those among the members first, in the order of the members,
then the union that they are members of.

* **`DecodeM.Reports`** — if the decoder accepts, each of the nodes describes a union, and the
  warnings are about those of these unions that are above the limit;
* **`DecodeM.Reports.bind`**, **`Ty.reports_complete`** — nodes add up as decoders follow on each
  other, and a union that is complete adds itself behind the nodes among its members;
* **`Ty.reports_decode`** — so what is decoded is reported node by node, by the recursion of the
  decoders.

The size that counts is that of the flattened union. A null value that is stored in a weak union is
not remarked on, as it is where a caller builds the union.
-/

namespace UnionTypes

/-! ## The unions in a document -/

namespace Json

mutual

/-- The unions and the dynamic types that the document describes, each as what stands behind its
tag: those among the members of another before it, in the order of the members. -/
def unionNodes : Json → List Json
  | .obj ((tag, content) :: _) =>
    if tag = "Union" ∨ tag = "Dynamic" then innerNodes content ++ [content] else []
  | _ => []

/-- The nodes among the members of the union that is described here. -/
def innerNodes : Json → List Json
  | .obj entries => entryNodes entries
  | .arr (members :: _) => memberNodes members
  | _ => []

/-- The nodes among the members that the entries give. What other entries hold is passed over. -/
def entryNodes : List (String × Json) → List Json
  | [] => []
  | (key, v) :: es => (if key = "members" then memberNodes v else []) ++ entryNodes es

def memberNodes : Json → List Json
  | .arr items => allNodes items
  | _ => []

def allNodes : List Json → List Json
  | [] => []
  | v :: vs => unionNodes v ++ allNodes vs

end

theorem unionNodes_of_tag {tag : String} (htag : tag = "Union" ∨ tag = "Dynamic") (content : Json)
    (more : List (String × Json)) :
    unionNodes (.obj ((tag, content) :: more)) = innerNodes content ++ [content] := by
  rw [unionNodes, if_pos htag]

theorem entryNodes_members (v : Json) (es : List (String × Json)) :
    entryNodes (("members", v) :: es) = memberNodes v ++ entryNodes es := by
  rw [entryNodes, if_pos rfl]

theorem entryNodes_of_ne {key : String} (hkey : key ≠ "members") (v : Json)
    (es : List (String × Json)) : entryNodes ((key, v) :: es) = entryNodes es := by
  rw [entryNodes, if_neg hkey, List.nil_append]

end Json

/-- The warnings about those of the unions that are above the limit, in the order of the unions. -/
def sizeWarnings (limit : Nat) (us : List Union) : List Warning :=
  (us.filter fun u => limit < u.size).map fun u => tooLarge u.size

theorem sizeWarnings_append (limit : Nat) (us vs : List Union) :
    sizeWarnings limit (us ++ vs) = sizeWarnings limit us ++ sizeWarnings limit vs := by
  rw [sizeWarnings, List.filter_append, List.map_append, sizeWarnings, sizeWarnings]

theorem Collector.checkSize_eq_addAll_sizeWarnings (k : Collector) (u : Union) :
    k.checkSize u.size = k.addAll (sizeWarnings k.limit [u]) := by
  rw [checkSize_eq_addAll, sizeWarnings, List.filter_singleton]
  by_cases habove : k.limit < u.size <;> simp [habove, tooLarge]

/-! ## Decoders that report nodes -/

/-- The document describes the union, whatever the collector. -/
def Ty.Describes (delivery : Delivery) (v : Json) (u : Union) : Prop :=
  ∀ k, WarnM.value (Ty.decodeUnion delivery v).run k = .ok u

namespace DecodeM

/-- If the decoder accepts, the nodes describe unions, and it raises the warnings about those of
them that are above the limit, in the order of the nodes, and no others. -/
def Reports {α : Type} (delivery : Delivery) (x : DecodeM α) (nodes : List Json) : Prop :=
  ∀ k a, WarnM.value x.run k = .ok a →
    ∃ us, List.Forall₂ (Ty.Describes delivery) nodes us ∧
      WarnM.after x.run k = k.addAll (sizeWarnings k.limit us)

variable {α β : Type} {delivery : Delivery} {x : DecodeM α} {f : α → DecodeM β}
  {nodes rest : List Json}

theorem after_bind_of_ok {k : Collector} {a : α} (h : WarnM.value x.run k = .ok a)
    (f : α → DecodeM β) :
    WarnM.after (x >>= f).run k = WarnM.after (f a).run (WarnM.after x.run k) := by
  rw [ExceptT.run_bind, WarnM.after_bind, h]

namespace Reports

theorem pure (a : α) : Reports delivery (pure a) [] := by
  intro k b _
  exact ⟨[], .nil, (Collector.addAll_nil k).symm⟩

theorem throw (e : ReadFailure) : Reports delivery (throw e : DecodeM α) nodes := by
  intro k a h
  cases h

theorem bind (hx : Reports delivery x nodes) (hf : ∀ a, Reports delivery (f a) rest) :
    Reports delivery (x >>= f) (nodes ++ rest) := by
  intro k b h
  obtain ⟨a, hxk, hb⟩ := value_bind_eq_ok_iff.mp h
  obtain ⟨us, hus, hafter⟩ := hx k a hxk
  obtain ⟨vs, hvs, hafter'⟩ := hf a (WarnM.after x.run k) b hb
  refine ⟨us ++ vs, List.rel_append hus hvs, ?_⟩
  rw [after_bind_of_ok hxk, hafter', hafter, Collector.limit_addAll, sizeWarnings_append,
    Collector.addAll_append]

/-- What comes after the last node reports nothing. -/
theorem bindQuiet (hx : Reports delivery x nodes) (hf : ∀ a, Reports delivery (f a) []) :
    Reports delivery (x >>= f) nodes := by
  have h := hx.bind hf
  rwa [List.append_nil] at h

/-- What comes before the first node reports nothing. -/
theorem quietBind (hx : Reports delivery x []) (hf : ∀ a, Reports delivery (f a) rest) :
    Reports delivery (x >>= f) rest :=
  hx.bind hf

theorem map (g : α → β) (hx : Reports delivery x nodes) : Reports delivery (g <$> x) nodes := by
  rw [map_eq_pure_bind]
  exact hx.bindQuiet fun a => pure (g a)

theorem guard {c : Bool} {e : ReadFailure} {y : DecodeM α} (hy : Reports delivery y nodes) :
    Reports delivery (if c = true then (MonadExcept.throw e >>= fun _ : PUnit => y) else y)
      nodes := by
  cases c with
  | true => exact quietBind (throw e) fun _ => hy
  | false => exact hy

theorem orMalformed (o : Option α) : Reports delivery (orMalformed o) [] := by
  cases o with
  | none => exact throw _
  | some a => exact pure a

end Reports

end DecodeM

/-! ## The decoders of types -/

open DecodeM (Reports)

namespace Ty

variable {delivery : Delivery}

theorem after_ofDecoded {ts : List Ty} {weak : Bool} {k : Collector} {u : Union}
    (h : WarnM.value (UnionOf.ofDecoded ts weak).run k = .ok u) :
    WarnM.after (UnionOf.ofDecoded ts weak).run k = k.checkSize u.size := by
  have hvalue := h
  rw [UnionOf.value_ofDecoded] at hvalue
  unfold UnionOf.ofDecoded
  cases hempty : (UnionOf.flatten ts weak).members.isEmpty with
  | true => simp [hempty] at hvalue
  | false =>
    obtain rfl : UnionOf.flatten ts weak = u := by simpa [hempty] using hvalue
    simp only [hempty, Bool.false_eq_true, if_false]
    rfl

/-- A decoder of a union that ends by making the union of what it has decoded reports the union
last. -/
theorem reports_complete {β : Type} {v : Json} {nodes : List Json} {x : DecodeM β}
    {f : β → DecodeM Union} (hdecode : decodeUnion delivery v = x >>= f)
    (hx : Reports delivery x nodes)
    (hf : ∀ b k u, WarnM.value (f b).run k = .ok u →
      WarnM.after (f b).run k = k.checkSize u.size) :
    Reports delivery (decodeUnion delivery v) (nodes ++ [v]) := by
  intro k u h
  have hv : Describes delivery v u := fun k' =>
    (yields_decodeUnion delivery v).steady.value_eq k' k ▸ h
  rw [hdecode] at h ⊢
  obtain ⟨b, hxk, hb⟩ := DecodeM.value_bind_eq_ok_iff.mp h
  obtain ⟨us, hus, hafter⟩ := hx k b hxk
  refine ⟨us ++ [u], List.rel_append hus (.cons hv .nil), ?_⟩
  have hlast : WarnM.after (f b).run (WarnM.after x.run k) =
      (WarnM.after x.run k).checkSize u.size := hf b _ u hb
  rw [DecodeM.after_bind_of_ok hxk, hlast, Collector.checkSize_eq_addAll_sizeWarnings, hafter,
    Collector.limit_addAll, sizeWarnings_append, Collector.addAll_append]

mutual

theorem reports_decode (delivery : Delivery) :
    (v : Json) → Reports delivery (decode delivery v) v.unionNodes
  | .obj ((tag, content) :: more) => by
    have hunion := reports_decodeUnion delivery content
    -- what may still stand behind the content raises no warning
    have hend : ∀ t : Ty, Reports delivery (if (!more.isEmpty) = true then
        (throw ReadFailure.malformed >>= fun _ : PUnit => pure t) else pure t) [] :=
      fun t => .guard (.pure t)
    unfold decode
    refine .guard ?_
    dsimp only
    split
    · exact Reports.bindQuiet (.pure _) hend
    · exact Reports.bindQuiet (.pure _) hend
    · exact Reports.bindQuiet (.map _ (.orMalformed _)) hend
    · rw [Json.unionNodes_of_tag (Or.inl rfl)]
      exact Reports.bindQuiet (.map _ hunion) hend
    · rw [Json.unionNodes_of_tag (Or.inr rfl)]
      exact Reports.bindQuiet (.map _ hunion) hend
    · exact Reports.bindQuiet (.throw _) hend
  | .str s => by
    unfold decode
    split
    · exact .pure _
    · exact .pure _
    · contradiction
    · exact .throw _
  | .obj [] => by unfold decode; exact .throw _
  | .null => by unfold decode; exact .throw _
  | .bool _ => by unfold decode; exact .throw _
  | .num _ => by unfold decode; exact .throw _
  | .arr _ => by unfold decode; exact .throw _
  | .gap _ => by unfold decode; exact .throw _

theorem reports_decodeUnion (delivery : Delivery) :
    (v : Json) → Reports delivery (decodeUnion delivery v) (v.innerNodes ++ [v])
  | .obj entries => by
    have hfields := reports_decodeUnionFields delivery entries Option.none Option.none
    refine reports_complete (by rw [decodeUnion]) hfields ?_
    intro fields k u h
    split at h
    · exact after_ofDecoded h
    · cases h
  | .arr (members :: rest) => by
    refine reports_complete (by rw [decodeUnion]) (reports_decodeMembers delivery members) ?_
    intro ts k u h
    split at h
    · exact after_ofDecoded h
    · cases h
  | .arr [] => by unfold decodeUnion; exact .throw _
  | .null => by unfold decodeUnion; exact .throw _
  | .bool _ => by unfold decodeUnion; exact .throw _
  | .num _ => by unfold decodeUnion; exact .throw _
  | .str _ => by unfold decodeUnion; exact .throw _
  | .gap _ => by unfold decodeUnion; exact .throw _

theorem reports_decodeUnionFields (delivery : Delivery) :
    (entries : List (String × Json)) → ∀ members weak,
      Reports delivery (decodeUnionFields delivery members weak entries) (Json.entryNodes entries)
  | [] => by
    intro members weak
    unfold decodeUnionFields
    exact .pure _
  | (key, v) :: es => by
    intro members weak
    have hrest := reports_decodeUnionFields delivery es
    unfold decodeUnionFields
    split
    · rw [Json.entryNodes_members]
      exact .guard ((reports_decodeMembers delivery v).bind fun ts => hrest (some ts) weak)
    · rw [Json.entryNodes_of_ne (by decide)]
      exact .guard (Reports.quietBind (.orMalformed _) fun w => hrest members (some w))
    · next hkey _ =>
      rw [Json.entryNodes_of_ne hkey]
      exact .guard (hrest members weak)

theorem reports_decodeMembers (delivery : Delivery) :
    (v : Json) → Reports delivery (decodeMembers delivery v) v.memberNodes
  | .arr items => by
    unfold decodeMembers
    exact reports_decodeAll delivery items
  | .null => by unfold decodeMembers; exact .throw _
  | .bool _ => by unfold decodeMembers; exact .throw _
  | .num _ => by unfold decodeMembers; exact .throw _
  | .str _ => by unfold decodeMembers; exact .throw _
  | .obj _ => by unfold decodeMembers; exact .throw _
  | .gap _ => by unfold decodeMembers; exact .throw _

theorem reports_decodeAll (delivery : Delivery) :
    (vs : List Json) → Reports delivery (decodeAll delivery vs) (Json.allNodes vs)
  | [] => by
    unfold decodeAll
    exact .pure _
  | v :: vs => by
    unfold decodeAll
    refine (reports_decode delivery v).bind fun t => ?_
    exact (reports_decodeAll delivery vs).bindQuiet fun ts => .pure _

end

/-- A text is reported on like the document that it spells. What is found wrong with the text after
that raises no warning. -/
theorem reports_parse (text : String) :
    Reports .streamed (parse text) (Json.read text).value.unionNodes := by
  unfold parse
  exact (reports_decode .streamed _).bindQuiet fun t => .guard (.pure t)

/-- Reading what was written checks one size at most, that of the union inside the type. -/
theorem after_decode_encode {t : Ty} (ht : t.WellFormed) (delivery : Delivery) (k : Collector) :
    WarnM.after (decode delivery t.encode).run k =
      k.addAll (match t.toUnion? with
        | some u => if k.limit < u.size then [tooLarge u.size] else []
        | Option.none => []) := by
  rw [decode_encode ht]
  cases hu : t.toUnion? with
  | some u => exact k.checkSize_eq_addAll u.size
  | none => exact k.addAll_nil.symm

/-- **What decoding reports.** If a document is accepted, every node of it that is decoded as a
union or a dynamic type describes a union. In the order of the nodes, with those among the members
before the one that they are members of, one warning is raised about each of these unions that
stores more members than the limit allows, and no other warning is raised. It is the same for a text
as for the document that it spells. So a type that is written and read again is reported once at
most, just if the union inside it is above the limit. -/
theorem decode_reports :
    (∀ delivery v k t, WarnM.value (decode delivery v).run k = .ok t →
      ∃ us : List Union,
        List.Forall₂ (fun node u => ∀ k', WarnM.value (decodeUnion delivery node).run k' = .ok u)
          v.unionNodes us ∧
        WarnM.after (decode delivery v).run k =
          { k with kept := k.kept ++ if k.enabled then sizeWarnings k.limit us else [] }) ∧
    (∀ text k t, WarnM.value (parse text).run k = .ok t →
      ∃ us : List Union,
        List.Forall₂ (fun node u => ∀ k', WarnM.value (decodeUnion .streamed node).run k' = .ok u)
          (Json.read text).value.unionNodes us ∧
        WarnM.after (parse text).run k =
          { k with kept := k.kept ++ if k.enabled then sizeWarnings k.limit us else [] }) ∧
    ∀ t : Ty, t.WellFormed → ∀ delivery k,
      WarnM.after (decode delivery t.encode).run k =
        { k with kept := k.kept ++ if k.enabled then
            match t.toUnion? with
            | some u => if k.limit < u.size then [tooLarge u.size] else []
            | Option.none => []
          else [] } := by
  refine ⟨fun delivery v k t h => ?document, fun text k t h => ?text, fun t ht delivery k => ?again⟩
  case document =>
    obtain ⟨us, hus, hafter⟩ := reports_decode delivery v k t h
    exact ⟨us, hus, hafter.trans (k.addAll_eq _)⟩
  case text =>
    obtain ⟨us, hus, hafter⟩ := reports_parse text k t h
    exact ⟨us, hus, hafter.trans (k.addAll_eq _)⟩
  case again => rw [after_decode_encode ht, Collector.addAll_eq]

/-- A weak union stores the null value, a class of its own and one of the union among its members; a
dynamic type among them is not above the limit, and the entry that nobody knows is passed over,
though it describes a union. The warning that was kept before stays. -/
theorem decode_reports_of_nested :
    let bare (name : String) : Json := .obj [("Class",
      .arr [.str name, .null, .bool false, .bool false, .bool true, .arr [], .arr []])]
    let single : Json := .arr [.arr [.str "WeakNone", .str "None"], .bool false]
    let inner : Json := .arr [.arr [bare "A", .str "None"], .bool true]
    let outer : Json := .obj [("note", .obj [("Union", inner)]), ("weak", .bool false),
      ("members", .arr [.obj [("Dynamic", single)], .obj [("Union", inner)], bare "B"])]
    let v : Json := .obj [("Union", outer)]
    let k : Collector := { enabled := true, limit := 1, kept := [tooLarge 9] }
    let t : Ty := .union ⟨[.none, .cls { name := "A" }, .cls { name := "B" }], true⟩
    v.unionNodes = [single, inner, outer] ∧
      WarnM.value (decode .whole v).run k = .ok t ∧
      WarnM.after (decode .whole v).run k =
        { k with kept := [tooLarge 9, tooLarge 2, tooLarge 3] } ∧
      WarnM.after (decode .streamed t.encode).run k =
        { k with kept := [tooLarge 9, tooLarge 3] } := by
  intro bare single inner outer v k t
  have hnodes : v.unionNodes = [single, inner, outer] := rfl
  have hvalue : WarnM.value (decode .whole v).run k = .ok t := rfl
  obtain ⟨us, hus, hafter⟩ := decode_reports.1 .whole v k t hvalue
  rw [hnodes] at hus
  -- what a node describes is settled by decoding it
  obtain _ | ⟨hsingle, _ | ⟨hinner, _ | ⟨houter, _ | _⟩⟩⟩ := hus
  obtain rfl := Except.ok.inj (hsingle k)
  obtain rfl := Except.ok.inj (hinner k)
  obtain rfl := Except.ok.inj (houter k)
  exact ⟨hnodes, hvalue, hafter, decode_reports.2.2 t (by decide) .streamed k⟩

end Ty

end UnionTypes
