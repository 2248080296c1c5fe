import UnionTypes.Class.Lineage
import UnionTypes.Proofs.Ty.Contents
import UnionTypes.Proofs.Warning.Steady
import UnionTypes.Ty.Validity

/-!
# The check for validity finds the first invalid class

`Ty.validate` goes down the members of a type and the bases of each class until it meets a class
whose source is gone. `Ty.reached` is the way it takes, as one list; the check comes to the first
invalid class on it (**`Ty.run_validate`**), so it succeeds just if there is none
(`Ty.value_validate_eq_ok_iff`), and what it reports is that one class and nothing else
(**`Ty.validate_reports_first`**).
-/

namespace UnionTypes

/-- What a check comes to that finds this class to be the first invalid one, or finds none. -/
def Class.report (message : String) (k : Collector) :
    Option Class → Except Failure Unit × Collector
  | none => (.ok (), k)
  | some c =>
    (.error (.invalidType message c.qualifiedName),
      k.add { reason := .invalidMember c.qualifiedName })

/-- Two checks one after the other come to what a check of both lists would. -/
theorem run_check_append {first rest : FallibleM Unit} {cs ds : List Class} {message : String}
    (hfirst : ∀ k, first.run.run k = Class.report message k (cs.find? (!·.valid)))
    (hrest : ∀ k, rest.run.run k = Class.report message k (ds.find? (!·.valid))) (k : Collector) :
    (first >>= fun _ => rest).run.run k =
      Class.report message k ((cs ++ ds).find? (!·.valid)) := by
  rw [ExceptT.run_bind, StateT.run_bind, hfirst, List.find?_append]
  cases cs.find? (!·.valid) with
  | none => exact hrest k
  | some c => rfl

namespace Class

theorem find?_invalid_eq_none_iff {cs : List Class} :
    cs.find? (!·.valid) = none ↔ ∀ c ∈ cs, c.valid = true := by
  simp [List.find?_eq_none]

/-- A check of the classes succeeds just if all of them are valid. -/
theorem report_eq_ok_iff {message : String} {k : Collector} {cs : List Class} :
    (report message k (cs.find? (!·.valid))).1 = .ok () ↔ ∀ c ∈ cs, c.valid = true := by
  rw [← find?_invalid_eq_none_iff]
  cases cs.find? (!·.valid) with
  | none => simp [report]
  | some c => simp [report]

theorem run_validateAll_of_forall {message : String} {cs : List Class}
    (h : ∀ c ∈ cs, ∀ k,
      (c.validate message).run.run k = report message k (c.lineage.find? (!·.valid)))
    (k : Collector) :
    (validateAll message cs).run.run k =
      report message k ((lineages cs).find? (!·.valid)) := by
  induction cs generalizing k with
  | nil => rfl
  | cons c cs ih =>
    rw [validateAll, lineages]
    exact run_check_append (h c List.mem_cons_self)
      (ih fun d hd => h d (List.mem_cons_of_mem c hd)) k

theorem run_validate (message : String) (c : Class) (k : Collector) :
    (c.validate message).run.run k = report message k (c.lineage.find? (!·.valid)) := by
  induction c using induction_on_bases generalizing k with
  | step c ih =>
    have hbases := run_validateAll_of_forall ih k
    obtain ⟨_, _, _, _, valid, _, bases⟩ := c
    rw [validate, lineage_eq]
    cases valid with
    | true => exact hbases
    | false => rfl

theorem value_validate_eq_ok_iff (message : String) (c : Class) (k : Collector) :
    WarnM.value (c.validate message).run k = .ok () ↔ ∀ d ∈ c.lineage, d.valid = true := by
  rw [WarnM.value, run_validate, report_eq_ok_iff]

end Class

/-- The check of the stored members passes on every well-formed union. -/
theorem UnionOf.WellFormed.fault?_eq_none {u : Union} (hu : u.WellFormed) :
    UnionOf.fault? u.members = none := by
  have hempty : u.members.isEmpty = false := by simpa using hu.members_ne_nil
  have hfind : (u.members.find? fun m => !decide m.Storable) = none := by
    refine List.find?_eq_none.mpr fun m hm => ?_
    simpa using hu.storable m hm
  simp [UnionOf.fault?, hempty, hfind]

namespace Ty

/-- The inheritance tree of the class that the type is, if it is one. -/
def lineage : Ty → List Class
  | .cls c => c.lineage
  | _ => []

/-- The classes that a check of the type goes through, by membership and inheritance. -/
def reached (t : Ty) : List Class := t.contents.members.flatMap lineage

theorem run_validateAll {message : String} {ms : List Ty} (hms : ∀ m ∈ ms, m.Storable)
    (k : Collector) :
    (validateAll message ms).run.run k =
      Class.report message k ((ms.flatMap lineage).find? (!·.valid)) := by
  induction ms generalizing k with
  | nil => rfl
  | cons m ms ih =>
    have hm : m.Storable := hms m List.mem_cons_self
    rw [validateAll, List.flatMap_cons]
    refine run_check_append ?_ (ih fun n hn => hms n (List.mem_cons_of_mem m hn)) k
    cases m with
    | cls c => exact c.run_validate message
    | none => exact fun _ => rfl
    | _ => exact hm.elim

theorem validate_of_toUnion? {t : Ty} (ht : t.WellFormed) {u : Union} (hu : t.toUnion? = some u)
    (message : String) : t.validate message = validateAll message u.members := by
  have hfault : UnionOf.fault? u.members = Option.none := (ht.of_toUnion? hu).fault?_eq_none
  rcases toUnion?_eq_some_iff.mp hu with rfl | rfl
  · rw [validate, hfault]
  · rw [validate, hfault]

theorem run_validate {t : Ty} (ht : t.WellFormed) (message : String) (k : Collector) :
    (t.validate message).run.run k = Class.report message k (t.reached.find? (!·.valid)) := by
  cases hu : t.toUnion? with
  | some u =>
    rw [validate_of_toUnion? ht hu, run_validateAll (ht.of_toUnion? hu).storable, reached,
      contents_of_toUnion? hu]
  | none =>
    cases t with
    | cls c =>
      have hone : (Ty.cls c).reached = c.lineage := List.append_nil _
      rw [hone]
      exact c.run_validate message k
    | none => rfl
    | weakNone => rfl
    | union u => cases hu
    | dynamic u => cases hu

theorem value_validate_eq_ok_iff {t : Ty} (ht : t.WellFormed) (message : String) (k : Collector) :
    WarnM.value (t.validate message).run k = .ok () ↔ ∀ c ∈ t.reached, c.valid = true := by
  rw [WarnM.value, run_validate ht, Class.report_eq_ok_iff]

/-- **The check is exact and reports once.** It succeeds just if every class that the type reaches
is valid, and then it does nothing to the collector. Otherwise it fails because of the first class
on the way that is not, with the caller's message, and raises one warning, of the same class. -/
theorem validate_reports_first {t : Ty} (ht : t.WellFormed) (message : String) (k : Collector) :
    (WarnM.value (t.validate message).run k = .ok () ↔ ∀ c ∈ t.reached, c.valid = true) ∧
    (WarnM.value (t.validate message).run k = .ok () →
      WarnM.after (t.validate message).run k = k) ∧
    ∀ passed c rest, t.reached = passed ++ c :: rest → (∀ d ∈ passed, d.valid = true) →
      c.valid = false →
      WarnM.value (t.validate message).run k = .error (.invalidType message c.qualifiedName) ∧
      WarnM.after (t.validate message).run k =
        { k with kept := k.kept ++
            if k.enabled then [{ reason := .invalidMember c.qualifiedName }] else [] } := by
  refine ⟨value_validate_eq_ok_iff ht message k, ?success, ?failure⟩
  case success =>
    rw [value_validate_eq_ok_iff ht, ← Class.find?_invalid_eq_none_iff]
    intro hnone
    rw [WarnM.after, run_validate ht, hnone, Class.report]
  case failure =>
    intro passed c rest hreached hpassed hc
    have hfirst : t.reached.find? (!·.valid) = some c := by
      refine List.find?_eq_some_iff_append.mpr ⟨by simp [hc], passed, rest, hreached, ?_⟩
      simpa using hpassed
    rw [WarnM.value, WarnM.after, run_validate ht, hfirst]
    exact ⟨rfl, k.addAll_eq [_]⟩

/-- Of a union with two members that reach invalid classes, the first one in the tree of the first
member is reported, and the warning that was kept before stays. The null value has no tree. -/
theorem validate_reports_first_of_bases :
    let gone : Class := { name := "Gone", moduleName := some "app", valid := false }
    let stale : Class := { name := "Stale", valid := false }
    let heir : Class := { name := "Heir", bases := [{ name := "Sound" }, gone, stale] }
    let t : Ty := .union ⟨[.none, .cls heir, .cls stale], true⟩
    let k : Collector := { enabled := true, kept := [{ reason := .redundantNull }] }
    WarnM.value (t.validate "reparse").run k = .error (.invalidType "reparse" "app.Gone") ∧
      (WarnM.after (t.validate "reparse").run k).kept =
        [{ reason := .redundantNull }, { reason := .invalidMember "app.Gone" }] ∧
      WarnM.value (Ty.weakNone.validate "reparse").run k = .ok () := by
  intro gone stale heir t k
  have hreached : t.reached = [heir, { name := "Sound" }] ++ gone :: [stale, stale] := rfl
  have hreport := (validate_reports_first (t := t) (by decide) "reparse" k).2.2
    [heir, { name := "Sound" }] gone [stale, stale] hreached (by decide) rfl
  refine ⟨hreport.1, congrArg Collector.kept hreport.2, ?_⟩
  exact (validate_reports_first (t := .weakNone) trivial "reparse" k).1.mpr (by decide)

end Ty

end UnionTypes
