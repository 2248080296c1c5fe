import UnionTypes.Proofs.Ty.Validity
import UnionTypes.Ty.Narrow

/-!
# Every operation on types is steady

No operation asks the collector for anything but what to do with a warning: none of them takes
another way because warnings are kept, or because the limit is a different one. So each of them is
`WarnM.Steady`. An exclusion asks whether warnings are kept before it raises one, but that comes to
the same as raising it (`UnionOf.exclude_eq`). The proofs go along the definitions, and nothing is
asked of the types, which need not be well formed.
-/

namespace UnionTypes

open WarnM (Steady)

/-! ### Building and merging -/

namespace UnionOf

theorem steady_ofList (ts : List Ty) (weak : Bool) : Steady (ofList ts weak).run := by
  unfold ofList
  dsimp only
  have hbuild : Steady (ofMembers (flatten ts weak).members (flatten ts weak).weak) :=
    steady_ofMembers _ _
  split
  · exact .pure _
  · split
    · exact ((Steady.warn _).map Except.ok).bindExcept fun _ => hbuild.map Except.ok
    · exact hbuild.map Except.ok

end UnionOf

namespace Ty

theorem steady_joinSingles (a b : Ty) : Steady (joinSingles a b) := by
  unfold joinSingles
  exact .ite (.pure _) ((UnionOf.steady_ofMembers _ _).bind fun _ => .pure _)

theorem steady_joinSingle (whole : Ty) (u : Union) (t : Ty) (first : Bool) :
    Steady (joinSingle whole u t first) := by
  unfold joinSingle
  refine .ite (.pure _) (.ite (.pure _) ?_)
  exact (UnionOf.steady_ofMembers _ _).bind fun _ => .pure _

theorem steady_joinUnions (u v : Union) : Steady (joinUnions u v) := by
  unfold joinUnions
  exact .ite (.pure _) (.ite (.pure _) (UnionOf.steady_ofMembers _ _))

theorem steady_join (a b : Ty) : Steady (a.join b) := by
  unfold join
  refine .ite (.pure _) ?_
  split
  · exact (steady_joinUnions _ _).bind fun _ => .pure _
  · exact steady_joinSingle _ _ _ _
  · exact steady_joinSingle _ _ _ _
  · exact steady_joinSingles _ _

end Ty

theorem steady_merge (a b : Option Ty) : Steady (merge a b) := by
  cases a with
  | none => cases b <;> exact .pure _
  | some a =>
    cases b with
    | none => exact .pure _
    | some b => exact (Ty.steady_join a b).bind fun _ => .pure _

theorem steady_mergeAll (ts : List (Option Ty)) : Steady (mergeAll ts) := by
  cases ts with
  | nil => exact .pure _
  | cons t ts => exact .foldlM steady_merge ts t

/-! ### Narrowing -/

theorem UnionOf.steady_exclude (u : Union) (target : Option Ty) (ctx : Context) :
    Steady (u.exclude target ctx) := by
  -- whether warnings are kept is not steady by itself, so the question has to go first
  rw [UnionOf.exclude_eq]
  dsimp only
  split
  · exact (Steady.warn _).bind fun _ => steady_mergeAll _
  · exact steady_mergeAll _

theorem Ty.steady_exclude (t : Ty) (target : Option Ty) (ctx : Context) :
    Steady (t.exclude target ctx) := by
  unfold Ty.exclude
  split
  · exact UnionOf.steady_exclude _ _ _
  · exact .pure _

/-! ### Checking -/

theorem steady_reject {α : Type} (message member : String) :
    Steady (reject (α := α) message member).run :=
  ((Steady.warn _).map Except.ok).bindExcept fun _ => .pure _

theorem Class.steady_validate (message : String) (c : Class) :
    Steady (c.validate message).run := by
  -- a check comes to a report, and a report keeps one warning at most
  cases hfind : c.lineage.find? (!·.valid) with
  | none =>
    refine ⟨.ok (), fun _ => [], fun k => ?_⟩
    rw [c.run_validate, hfind, Collector.addAll_nil]
    rfl
  | some d =>
    refine ⟨.error (.invalidType message d.qualifiedName),
      fun _ => [{ reason := .invalidMember d.qualifiedName }], fun k => ?_⟩
    rw [c.run_validate, hfind]
    rfl

namespace Ty

mutual

theorem steady_validate (message : String) : (t : Ty) → Steady (t.validate message).run
  | .cls c => by
    rw [validate]
    exact c.steady_validate message
  | .none => by rw [validate]; exact .pure _
  | .weakNone => by rw [validate]; exact .pure _
  | .union ⟨ms, _⟩ => by
    rw [validate]
    split
    · exact steady_reject message _
    · exact steady_validateAll message ms
  | .dynamic ⟨ms, _⟩ => by
    rw [validate]
    split
    · exact steady_reject message _
    · exact steady_validateAll message ms

theorem steady_validateAll (message : String) :
    (ms : List Ty) → Steady (validateAll message ms).run
  | [] => by rw [validateAll]; exact .pure _
  | m :: ms => by
    rw [validateAll]
    exact (steady_validate message m).bindExcept fun _ => steady_validateAll message ms

end

end Ty

end UnionTypes
