import UnionTypes.Proofs.Ty.Decode
import UnionTypes.Proofs.Ty.Steady
import UnionTypes.Ty.Member

/-!
# Warnings have no influence

An `Operation` is a call of one of the operations on types, and its `Outcome` is all that the caller
gets to see of it: what it returns, or why it was refused. A `Script` is a caller that makes
finitely many calls, and may choose each of them by the outcomes it has seen before.

Whatever script runs, the collector it begins with has no influence on the outcomes
(`Script.noninterference`): not whether warnings are kept, not the limit, not the warnings kept
before. In turn the script has no other influence on the collector than to add warnings at its end.
One operation is steady because each of the functions behind it is, and a whole run is steady
because an outcome, and with it the choice of the next operation, is the same for every collector.
-/

namespace UnionTypes

open WarnM (Steady)

/-- What a caller gets to see of an operation. -/
inductive Outcome where
  /-- A type, or none where nothing is known or nothing is left. -/
  | type (t : Option Ty)
  | union (r : Except Failure Union)
  | decoded (r : Except ReadFailure Ty)
  | decodedUnion (r : Except ReadFailure Union)
  | verdict (r : Except Failure Unit)
  | resolutions (r : Option (List Resolution))
  | members (ms : List Member)
  | text (s : String)

/-- A call of an operation with its arguments, which need not be well formed. -/
inductive Operation where
  | merge (a b : Option Ty)
  | mergeAll (ts : List (Option Ty))
  | join (a b : Ty)
  | weaken (t : Option Ty)
  | makeUnion (ts : List Ty) (weak : Bool)
  | makeDynamic (t : Ty)
  | exclude (t : Ty) (target : Option Ty) (ctx : Context)
  | withoutAbsence (u : Union)
  | decode (delivery : Delivery) (document : Json)
  | decodeUnion (delivery : Delivery) (document : Json)
  | parse (text : String)
  | validate (message : String) (t : Ty)
  | resolve (name : String) (access : Access) (t : Ty)
  | complete (stem : String) (t : Ty)
  | display (ctx : Context) (t : Ty)

namespace Operation

def perform : Operation → WarnM Outcome
  | merge a b => .type <$> UnionTypes.merge a b
  | mergeAll ts => .type <$> UnionTypes.mergeAll ts
  | join a b => (.type ∘ some) <$> a.join b
  | weaken t => return .type (UnionTypes.weaken t)
  | makeUnion ts weak => .union <$> (UnionOf.ofList ts weak).run
  | makeDynamic t => return .type (some t.toDynamic)
  | exclude t target ctx => .type <$> t.exclude target ctx
  | withoutAbsence u => return .type (some u.withoutAbsence)
  | decode delivery document => .decoded <$> (Ty.decode delivery document).run
  | decodeUnion delivery document => .decodedUnion <$> (Ty.decodeUnion delivery document).run
  | parse text => .decoded <$> (Ty.parse text).run
  | validate message t => .verdict <$> (t.validate message).run
  | resolve name access t => return .resolutions (t.resolve name access)
  | complete stem t => return .members (t.complete stem)
  | display ctx t => return .text (t.name ctx)

/-- One operation is steady, for any arguments: each is by the function that it calls. -/
theorem steady_perform (op : Operation) : Steady op.perform := by
  cases op with
  | merge a b => exact (steady_merge a b).map _
  | mergeAll ts => exact (steady_mergeAll ts).map _
  | join a b => exact (Ty.steady_join a b).map _
  | weaken t => exact .pure _
  | makeUnion ts weak => exact (UnionOf.steady_ofList ts weak).map _
  | makeDynamic t => exact .pure _
  | exclude t target ctx => exact (t.steady_exclude target ctx).map _
  | withoutAbsence u => exact .pure _
  | decode delivery document => exact (Ty.yields_decode delivery document).steady.map _
  | decodeUnion delivery document => exact (Ty.yields_decodeUnion delivery document).steady.map _
  | parse text => exact (Ty.yields_parse text).steady.map _
  | validate message t => exact (t.steady_validate message).map _
  | resolve name access t => exact .pure _
  | complete stem t => exact .pure _
  | display ctx t => exact .pure _

end Operation

/-- A caller that makes finitely many calls. Each is chosen by the outcomes of those before it,
oldest first. -/
abbrev Script := List (List Outcome → Operation)

namespace Script

/-- Performs the operations one after another, and returns the outcomes of all, after those that
were seen before. -/
def perform : Script → (seen : List Outcome) → WarnM (List Outcome)
  | [], seen => return seen
  | choose :: rest, seen => do
    let outcome ← (choose seen).perform
    perform rest (seen ++ [outcome])

/-- A whole run is steady. Induction on the script, for any outcomes seen before: the rest of the
script goes on from what the first operation returned. -/
theorem steady_perform (s : Script) (seen : List Outcome) : Steady (s.perform seen) := by
  induction s generalizing seen with
  | nil => exact .pure _
  | cons choose rest ih =>
    have hfirst : Steady (choose seen).perform := Operation.steady_perform _
    exact hfirst.bind fun k => ih _

/-- Two runs of a script see the same outcomes, whatever collectors they begin with. Each leaves the
flag and the limit of its collector alone, and only puts warnings behind those that are kept there,
none at all if warnings are not kept. -/
theorem noninterference (s : Script) (k k' : Collector) :
    (s.perform []).value k = (s.perform []).value k' ∧
      ∃ ws, (s.perform []).after k = { k with kept := k.kept ++ ws } ∧
        (k.enabled = false → ws = []) := by
  have hsteady : Steady (s.perform []) := s.steady_perform []
  exact ⟨hsteady.value_eq k k', hsteady.after_eq k⟩

/-- A script merges two classes and then excludes from the result what it got. A collector that
keeps warnings ends with two more, one that keeps none stays empty, and nothing is left of the type
in either run. -/
theorem noninterference_of_exclusion :
    let int : Ty := .cls Class.Builtin.int
    let str : Ty := .cls Class.Builtin.str
    let s : Script := [fun _ => .merge (some int) (some str), fun seen =>
      match seen with
      | [.type (some t)] => .exclude t (some t) .plain
      | _ => .weaken none]
    let outcomes : List Outcome := [.type (some (.union ⟨[int, str], false⟩)), .type none]
    let k : Collector := { enabled := true, limit := 1 }
    (s.perform []).value {} = outcomes ∧ (s.perform []).value k = outcomes ∧
      (s.perform []).after {} = {} ∧
      (s.perform []).after k = { k with kept := [{ reason := .unionTooLarge 2 },
        { reason := .excludedAll 2, typeName := some "int | str" }] } := by
  intro int str s outcomes k
  obtain ⟨hsame, ws, hafter, hnone⟩ := s.noninterference {} k
  have hvalue : (s.perform []).value {} = outcomes := rfl
  have hbare : (s.perform []).after {} = {} := by rw [hafter, hnone rfl, List.append_nil]
  have hkept : (s.perform []).after k = { k with kept := [{ reason := .unionTooLarge 2 },
      { reason := .excludedAll 2, typeName := some "int | str" }] } := by decide
  exact ⟨hvalue, hsame.symm.trans hvalue, hbare, hkept⟩

end Script

end UnionTypes
