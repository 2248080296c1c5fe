import UnionTypes.Proofs.Class.Resolve
import UnionTypes.Ty.Member

/-!
# Access only removes readonly hits

A search takes the same way whatever the access: it ends at the first attribute of the name, and
only there it matters what is to be done with the attribute. `Class.hit?` is where it ends, with the
answer that reading gets. A hit that does not permit the access makes an answer all the same, an
empty one; so whether a type answers at all, and from which attributes, has nothing to do with the
access:

* **`Ty.respondents`** — the classes that answer for a type, member after member;
* **`Class.pool_answer`** — answers put together are the answer of the classes together;
* **`Ty.resolve_eq_answer`** — a type answers with those hits of its respondents that permit the
  access;
* **`Ty.access_removes_readonly`** — hence writing gets what reading gets, less the readonly hits.
-/

namespace UnionTypes

/-- Where a search for a name ends. -/
structure Hit where
  /-- The attribute that counts for the name. -/
  declared : Attribute
  /-- What the search is answered with if the attribute permits the access. -/
  answer : Resolution

namespace Class

/-- Where a search for the name ends, if the class or one that it inherits from declares it. -/
def hit? (c : Class) (name : String) : Option Hit :=
  (c.declaration? name).map fun d =>
    { declared := d.2
      answer := {
        member := d.1.member d.2
        rate := if (c.attribute? name).isSome then .normal else .low } }

/-- The hits in the classes of a list, in their order. -/
def hits (name : String) (cs : List Class) : List Hit := cs.filterMap (·.hit? name)

/-- Whether the class has an answer to the name, be it that there is no such attribute. -/
def tells (c : Class) (name : String) : Bool := (c.hit? name).isSome || !c.dynamicAttributes

/-- What the classes of a list answer together: the hits that permit the access, unless none of the
classes can tell. -/
def answer (name : String) (access : Access) (cs : List Class) : Option (List Resolution) :=
  if cs.any (·.tells name) then
    some (((hits name cs).filter (·.declared.permits access)).map Hit.answer)
  else none

/-- A hit is the first declaration of the name in the lineage. The rate tells whether the walk
passed a class before it. -/
theorem hit?_eq_some_iff {c : Class} {name : String} {h : Hit} :
    c.hit? name = some h ↔ ∃ passed owner, c.FirstDeclares name passed owner h.declared ∧
      h.answer = { member := owner.member h.declared
                   rate := if passed = [] then .normal else .low } := by
  unfold hit?
  rw [Option.map_eq_some_iff]
  constructor
  · rintro ⟨⟨owner, a⟩, hdecl, rfl⟩
    obtain ⟨passed, hfirst⟩ := declaration?_eq_some_iff.mp hdecl
    refine ⟨passed, owner, hfirst, ?_⟩
    simp only [hfirst.isSome_attribute?_iff]
  · rintro ⟨passed, owner, hfirst, hanswer⟩
    refine ⟨(owner, h.declared), declaration?_eq_some_iff.mpr ⟨passed, hfirst⟩, ?_⟩
    simp only [hfirst.isSome_attribute?_iff]
    rw [← hanswer]

theorem resolve_eq_answer (c : Class) (name : String) (access : Access) :
    c.resolve name access = answer name access [c] := by
  rw [resolve_eq]
  unfold answer hits tells hit?
  cases hdecl : c.declaration? name with
  | none => cases hdynamic : c.dynamicAttributes <;> simp [hdecl, hdynamic]
  | some d => cases hpermits : d.2.permits access <;> simp [hdecl, hpermits]

/-- Classes that cannot tell have no hits. -/
theorem hits_eq_nil {name : String} {cs : List Class} (h : cs.any (·.tells name) = false) :
    hits name cs = [] := by
  unfold hits
  rw [List.filterMap_eq_nil_iff]
  intro c hc
  have htells : ¬ c.tells name = true := List.any_eq_false.mp h c hc
  cases hhit : c.hit? name with
  | none => rfl
  | some x => exact absurd (by simp [tells, hhit]) htells

theorem hits_append (name : String) (cs ds : List Class) :
    hits name (cs ++ ds) = hits name cs ++ hits name ds :=
  List.filterMap_append

/-- Answers put together are the answer of the classes together. Where one side cannot tell it adds
no hit either, so the other side stands alone. -/
theorem pool_answer (name : String) (access : Access) (cs ds : List Class) :
    pool (answer name access cs) (answer name access ds) = answer name access (cs ++ ds) := by
  unfold answer
  rw [List.any_append, hits_append]
  cases hcs : cs.any (·.tells name) with
  | false =>
    rw [hits_eq_nil hcs, Bool.false_or, List.nil_append]
    rfl
  | true =>
    cases hds : ds.any (·.tells name) with
    | false =>
      rw [hits_eq_nil hds, Bool.or_false, List.append_nil]
      rfl
    | true =>
      rw [List.filter_append, List.map_append]
      rfl

end Class

namespace Ty

mutual

/-- The classes that answer for a value of the type, in stored order. The null types have a class of
their own. -/
def respondents : Ty → List Class
  | .cls c => [c]
  | .none | .weakNone => [Class.Builtin.noneType]
  | .union ⟨ms, _⟩ | .dynamic ⟨ms, _⟩ => respondentsAll ms

def respondentsAll : List Ty → List Class
  | [] => []
  | m :: ms => respondents m ++ respondentsAll ms

end

mutual

theorem resolve_eq_answer (name : String) (access : Access) :
    (t : Ty) → t.resolve name access = Class.answer name access t.respondents
  | .cls c => c.resolve_eq_answer name access
  | .none => Class.Builtin.noneType.resolve_eq_answer name access
  | .weakNone => Class.Builtin.noneType.resolve_eq_answer name access
  | .union ⟨ms, _⟩ => by rw [resolve, respondents, resolveAll_eq_answer name access ms]
  | .dynamic ⟨ms, _⟩ => by rw [resolve, respondents, resolveAll_eq_answer name access ms]

theorem resolveAll_eq_answer (name : String) (access : Access) :
    (ms : List Ty) → resolveAll name access ms = Class.answer name access (respondentsAll ms)
  | [] => rfl
  | m :: ms => by
    rw [resolveAll, respondentsAll, resolve_eq_answer name access m,
      resolveAll_eq_answer name access ms, Class.pool_answer]

end

/-- The access has no say in whether there is an answer. -/
theorem resolve_eq_none_iff {t : Ty} {name : String} {access : Access} :
    t.resolve name access = Option.none ↔ t.respondents.any (·.tells name) = false := by
  rw [resolve_eq_answer, Class.answer]
  cases t.respondents.any (·.tells name) <;> simp

/-- If there is an answer, it consists of the hits that permit the access. -/
theorem resolve_eq_some_iff {t : Ty} {name : String} {access : Access} {rs : List Resolution} :
    t.resolve name access = some rs ↔ t.respondents.any (·.tells name) = true ∧
      rs = ((Class.hits name t.respondents).filter (·.declared.permits access)).map
        Hit.answer := by
  rw [resolve_eq_answer, Class.answer]
  cases t.respondents.any (·.tells name) with
  | false => simp
  | true =>
    rw [if_pos rfl, Option.some_inj, eq_comm]
    simp

/-- **Access only removes readonly hits.** A type answers to a name for every access or for none,
and writing and deleting are answered alike. If there is an answer, reading is answered with all the
hits, and writing with those that are not readonly, in the same order and with nothing changed in
them. A hit is always the first declaration of the name in the lineage of the class that answers, so
what a readonly attribute blocks is not made up for by another one behind it. -/
theorem access_removes_readonly (t : Ty) (name : String) :
    (∀ access access', t.resolve name access = Option.none ↔
      t.resolve name access' = Option.none) ∧
    t.resolve name .write = t.resolve name .delete ∧
    (∀ rs, t.resolve name .read = some rs → ∃ ws, t.resolve name .write = some ws ∧
      ws.Sublist rs ∧
      rs = (Class.hits name t.respondents).map Hit.answer ∧
      ws = ((Class.hits name t.respondents).filter fun h => !h.declared.readonly).map
        Hit.answer) ∧
    (∀ (c : Class) (h : Hit), c.hit? name = some h ↔
      ∃ passed owner, c.FirstDeclares name passed owner h.declared ∧
        h.answer = { member := owner.member h.declared
                     rate := if passed = [] then .normal else .low }) := by
  have hwrite : ∀ h : Hit, h.declared.permits .write = !h.declared.readonly :=
    fun h => Bool.or_false _
  have hdelete : ∀ h : Hit, h.declared.permits .delete = !h.declared.readonly :=
    fun h => Bool.or_false _
  refine ⟨?absent, ?delete, ?present, fun c h => Class.hit?_eq_some_iff⟩
  case absent =>
    intro access access'
    rw [resolve_eq_none_iff, resolve_eq_none_iff]
  case delete =>
    rw [resolve_eq_answer, resolve_eq_answer, Class.answer, Class.answer]
    simp only [hwrite, hdelete]
  case present =>
    intro rs hread
    obtain ⟨htells, hrs⟩ := resolve_eq_some_iff.mp hread
    have hall : (Class.hits name t.respondents).filter (·.declared.permits .read) =
        Class.hits name t.respondents :=
      List.filter_eq_self.mpr fun h _ => h.declared.permits_read
    rw [hall] at hrs
    refine ⟨_, resolve_eq_some_iff.mpr ⟨htells, rfl⟩, ?_, hrs, ?_⟩
    · rw [hrs]
      exact List.filter_sublist.map _
    · simp only [hwrite]

/-- A class that inherits a readonly attribute, and behind it two of the same name that can be
written; a class that declares the name itself; and a class that makes up its attributes. Writing is
left with the second one's. -/
theorem access_removes_readonly_of_blocked :
    let top : Class := { name := "Top", attributes := [.property "rank", .field "rank"] }
    let side : Class := { name := "Side", attributes := [.field "rank"] }
    let c : Class := { name := "Item", bases := [top, side] }
    let d : Class := { name := "Card", attributes := [.field "rank"] }
    let e : Class := { name := "Proxy", dynamicAttributes := true }
    let t : Ty := .union ⟨[.cls c, .cls d, .cls e], true⟩
    t.resolve "rank" .read =
        some [⟨⟨"Top", "rank", .property⟩, .low⟩, ⟨⟨"Card", "rank", .field⟩, .normal⟩] ∧
      t.resolve "rank" .write = some [⟨⟨"Card", "rank", .field⟩, .normal⟩] ∧
      t.resolve "rank" .delete = t.resolve "rank" .write := by
  intro top side c d e t
  have hread : t.resolve "rank" .read =
      some [⟨⟨"Top", "rank", .property⟩, .low⟩, ⟨⟨"Card", "rank", .field⟩, .normal⟩] := rfl
  obtain ⟨-, hdelete, hpresent, -⟩ := access_removes_readonly t "rank"
  obtain ⟨ws, hws, -, -, hkept⟩ := hpresent _ hread
  refine ⟨hread, ?_, hdelete.symm⟩
  rw [hws, hkept]
  rfl

end Ty

end UnionTypes
