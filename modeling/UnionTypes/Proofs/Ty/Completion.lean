import UnionTypes.Proofs.Class.Member
import UnionTypes.Ty.Member

/-!
# A longer stem only narrows what is offered

Completion asks of every attribute whether its name starts with the stem, and meanwhile it keeps
note of the names that it has offered, and in a union of the members. The notes do not get in the
way of the test: attributes of one name pass it together or fail it together. So it may as well be
made at the end, on what the empty stem offers:

* **`Class.restrict_foldl_offerMember`** — of one class, with everything it inherits;
* **`filter_eraseDups`** — of the members of a union put behind each other;
* **`Ty.complete_eq_restrict`** — and so of every type.

Whoever types on may keep the list that is shown and strike members out, character by character
(`Class.typeOn`).
-/

namespace UnionTypes

namespace Class

/-- The members whose names start with the stem, in their order. -/
def restrict (stem : String) (ms : List Member) : List Member :=
  ms.filter fun m => startsWith stem m.name

/-- What is left of the members shown for a stem while one character after another is typed behind
it: at each step, of those still shown, the ones whose names start with all that was typed. -/
def typeOn (stem : String) (shown : List Member) : List Char → List Member
  | [] => shown
  | c :: typed => typeOn (stem.push c) (restrict (stem.push c) shown) typed

theorem startsWith_iff {stem name : String} :
    startsWith stem name = true ↔ stem.toList <+: name.toList :=
  List.isPrefixOf_iff_prefix

theorem restrict_append (stem : String) (ms ns : List Member) :
    restrict stem (ms ++ ns) = restrict stem ms ++ restrict stem ns :=
  List.filter_append ms ns

/-- What is restricted to a stem may be restricted to a longer one directly. -/
theorem restrict_restrict {stem longer : String} (h : stem.toList <+: longer.toList)
    (ms : List Member) : restrict longer (restrict stem ms) = restrict longer ms := by
  unfold restrict
  rw [List.filter_filter]
  apply List.filter_congr
  intro m _
  cases hlonger : startsWith longer m.name with
  | false => rw [Bool.false_and]
  | true =>
    have hstem : startsWith stem m.name = true :=
      startsWith_iff.mpr (h.trans (startsWith_iff.mp hlonger))
    rw [hstem, Bool.true_and]

/-! ### One class -/

/-- Of a name that starts with the stem, the restriction leaves every member that has it. -/
theorem any_restrict {stem name : String} (h : startsWith stem name = true) (ms : List Member) :
    (restrict stem ms).any (·.name == name) = ms.any (·.name == name) := by
  unfold restrict
  rw [List.any_filter]
  congr 1
  funext m
  cases hname : m.name == name with
  | false => rw [Bool.and_false]
  | true => rw [eq_of_beq hname, h, Bool.true_and]

/-- One more member is offered for the stem just if it is offered for the empty stem and the
restriction leaves it. -/
theorem restrict_offerMember (stem : String) (offered : List Member) (m : Member) :
    restrict stem (offerMember "" offered m) = offerMember stem (restrict stem offered) m := by
  have hempty : startsWith "" m.name = true := startsWith_iff.mpr List.nil_prefix
  have hlast : restrict stem (offered ++ [m]) =
      restrict stem offered ++ if startsWith stem m.name then [m] else [] := by
    rw [restrict_append]
    exact congrArg (restrict stem offered ++ ·) List.filter_cons
  unfold offerMember
  rw [hempty, Bool.true_and]
  cases hstem : startsWith stem m.name with
  | false =>
    rw [Bool.false_and, if_neg Bool.false_ne_true]
    split
    · rw [hlast, hstem, if_neg Bool.false_ne_true, List.append_nil]
    · rfl
  | true =>
    rw [any_restrict hstem, Bool.true_and]
    split
    · rw [hlast, hstem, if_pos rfl]
    · rfl

theorem restrict_foldl_offerMember (stem : String) (ms offered : List Member) :
    restrict stem (ms.foldl (offerMember "") offered) =
      ms.foldl (offerMember stem) (restrict stem offered) := by
  induction ms generalizing offered with
  | nil => rfl
  | cons m ms ih => rw [List.foldl_cons, ih, restrict_offerMember, List.foldl_cons]

theorem complete_eq_restrict (c : Class) (stem : String) :
    c.complete stem = restrict stem (c.complete "") := by
  rw [complete, complete, collect_eq_foldl, collect_eq_foldl, restrict_foldl_offerMember]
  rfl

end Class

/-! ### Unions -/

/-- Freeing a list of repetitions and selecting from it can be done in either order. Induction on
the length: the first element stays or goes, and what equals it goes with it. -/
theorem filter_eraseDups {α : Type} [BEq α] [LawfulBEq α] (p : α → Bool) (l : List α) :
    l.eraseDups.filter p = (l.filter p).eraseDups := by
  match l with
  | [] => rfl
  | a :: l =>
    have hshorter : (l.filter fun b => !b == a).length ≤ l.length := List.length_filter_le _ _
    have ih := filter_eraseDups p (l.filter fun b => !b == a)
    rw [List.eraseDups_cons]
    by_cases ha : p a = true
    · have hswap : (l.filter fun b => !b == a).filter p = (l.filter p).filter fun b => !b == a := by
        simp only [List.filter_filter, Bool.and_comm]
      rw [List.filter_cons_of_pos ha, List.filter_cons_of_pos ha, List.eraseDups_cons, ih, hswap]
    · have hsame : (l.filter fun b => !b == a).filter p = l.filter p := by
        rw [List.filter_filter]
        apply List.filter_congr
        intro b _
        cases hb : b == a with
        | true => rw [eq_of_beq hb, Bool.eq_false_iff.mpr ha, Bool.false_and]
        | false => rw [Bool.not_false, Bool.and_true]
      rw [List.filter_cons_of_neg ha, List.filter_cons_of_neg ha, ih, hsame]
termination_by l.length

namespace Ty

open UnionTypes.Class (restrict typeOn)

mutual

/-- A type offers for a stem what it offers for the empty one, less the members whose names do not
start with the stem. -/
theorem complete_eq_restrict (stem : String) :
    (t : Ty) → t.complete stem = restrict stem (t.complete "")
  | .cls c => c.complete_eq_restrict stem
  | .none => Class.Builtin.noneType.complete_eq_restrict stem
  | .weakNone => Class.Builtin.noneType.complete_eq_restrict stem
  | .union ⟨ms, _⟩ => by
    rw [complete, complete, completeAll_eq_restrict stem ms]
    exact (filter_eraseDups _ _).symm
  | .dynamic ⟨ms, _⟩ => by
    rw [complete, complete, completeAll_eq_restrict stem ms]
    exact (filter_eraseDups _ _).symm

theorem completeAll_eq_restrict (stem : String) :
    (ms : List Ty) → completeAll stem ms = restrict stem (completeAll "" ms)
  | [] => rfl
  | m :: ms => by
    rw [completeAll, completeAll, Class.restrict_append, complete_eq_restrict stem m,
      completeAll_eq_restrict stem ms]

end

/-! ### Typing on -/

theorem complete_push (t : Ty) (stem : String) (c : Char) :
    t.complete (stem.push c) = restrict (stem.push c) (t.complete stem) := by
  have hlonger : stem.toList <+: (stem.push c).toList := by
    rw [String.toList_push]
    exact List.prefix_append _ _
  rw [complete_eq_restrict (stem.push c), complete_eq_restrict stem,
    Class.restrict_restrict hlonger]

/-- Induction on what is typed. The invariant is that the members shown are those that the type
offers for all that was typed so far. -/
theorem typeOn_complete (t : Ty) (stem : String) (typed : List Char) :
    typeOn stem (t.complete stem) typed = t.complete (stem ++ String.ofList typed) := by
  induction typed generalizing stem with
  | nil =>
    have hsame : stem ++ String.ofList [] = stem := by apply String.toList_inj.mp; simp
    rw [hsame]
    rfl
  | cons c typed ih =>
    have hnext : stem ++ String.ofList (c :: typed) = stem.push c ++ String.ofList typed := by
      apply String.toList_inj.mp
      simp
    rw [typeOn, ← complete_push, ih, hnext]

/-- **A longer stem only narrows what is offered.** What a type offers for a stem are the members
that it offers for the empty stem and whose names start with the stem, in the same order. So
striking out members while one character after another is typed leaves what asking for the whole
would give. -/
theorem complete_narrows (t : Ty) (stem : String) :
    t.complete stem =
      (t.complete "").filter (fun m => decide (stem.toList <+: m.name.toList)) ∧
    ∀ typed : String, typeOn stem (t.complete stem) typed.toList = t.complete (stem ++ typed) := by
  constructor
  · rw [complete_eq_restrict]
    apply List.filter_congr
    intro m _
    rw [Bool.eq_iff_iff, Class.startsWith_iff, decide_eq_true_iff]
  · intro typed
    rw [typeOn_complete, String.ofList_toList]

end Ty

end UnionTypes
