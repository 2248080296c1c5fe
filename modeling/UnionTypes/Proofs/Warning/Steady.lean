import UnionTypes.Proofs.Warning.Value

/-!
# The collector only takes in

What a collector keeps, and whether it keeps anything, has no influence on the computation that
fills it. `WarnM.Steady` says so of one computation: with every collector it returns the same value,
and it leaves the collector as it was but for warnings at the end, which depend on nothing but the
limit. Raising a warning and checking a size are steady, and what is made of steady parts is steady:
one computation after another, a choice between two, a fold, a computation that may fail.

The value of a steady computation is a matter of the computation alone (`Steady.value_eq`), so a
statement about one run holds of every run. What it does to the collector is to put warnings at the
end (`Steady.after_eq`).
-/

namespace UnionTypes

namespace Collector

/-- Keeps all the warnings, in their order. -/
def addAll (c : Collector) (ws : List Warning) : Collector :=
  if c.enabled then { c with kept := c.kept ++ ws } else c

variable (c : Collector)

@[simp] theorem addAll_nil : c.addAll [] = c := by
  simp [addAll]

@[simp] theorem limit_addAll (ws : List Warning) : (c.addAll ws).limit = c.limit := by
  unfold addAll
  split <;> rfl

theorem addAll_append (ws vs : List Warning) : c.addAll (ws ++ vs) = (c.addAll ws).addAll vs := by
  unfold addAll
  cases h : c.enabled with
  | true => simp
  | false => simp [h]

/-- Whatever comes, only the warnings kept are more, and only if warnings are kept at all. -/
theorem addAll_eq (ws : List Warning) :
    c.addAll ws = { c with kept := c.kept ++ if c.enabled then ws else [] } := by
  unfold addAll
  split
  · rfl
  · rw [List.append_nil]

theorem checkSize_eq_addAll (size : Nat) :
    c.checkSize size =
      c.addAll (if c.limit < size then [{ reason := .unionTooLarge size }] else []) := by
  unfold checkSize
  split
  · rfl
  · rw [addAll_nil]

end Collector

namespace WarnM

variable {α β : Type}

/-- The computation returns the same value with every collector, and does nothing to the collector
but add warnings that depend on the limit alone. -/
def Steady (x : WarnM α) : Prop :=
  ∃ (a : α) (log : Nat → List Warning), ∀ k, x.run k = (a, k.addAll (log k.limit))

namespace Steady

/-- The value of a steady computation is the same with every collector. -/
theorem value_eq {x : WarnM α} (hx : Steady x) (k k' : Collector) : x.value k = x.value k' := by
  obtain ⟨a, log, hrun⟩ := hx
  rw [value, value, hrun, hrun]

/-- A steady computation leaves the flag and the limit as they were, and what it leaves besides is
more warnings at the end, or none at all if warnings are not kept. -/
theorem after_eq {x : WarnM α} (hx : Steady x) (k : Collector) :
    ∃ ws, x.after k = { k with kept := k.kept ++ ws } ∧ (k.enabled = false → ws = []) := by
  obtain ⟨a, log, hrun⟩ := hx
  have hafter : x.after k = k.addAll (log k.limit) := by rw [after, hrun]
  refine ⟨if k.enabled then log k.limit else [], hafter.trans (k.addAll_eq _), ?_⟩
  intro hdisabled
  rw [hdisabled, if_neg Bool.false_ne_true]

theorem pure (a : α) : Steady (pure a) :=
  ⟨a, fun _ => [], fun k => by rw [Collector.addAll_nil]; rfl⟩

/-- The second computation matters only as it follows on what the first returns. -/
theorem bind {x : WarnM α} {f : α → WarnM β} (hx : Steady x)
    (hf : ∀ k, Steady (f (x.value k))) : Steady (x >>= f) := by
  obtain ⟨a, log, hrun⟩ := hx
  have ha : x.value {} = a := by rw [value, hrun]
  obtain ⟨b, log', hrun'⟩ := ha ▸ hf {}
  refine ⟨b, fun limit => log limit ++ log' limit, fun k => ?_⟩
  have hsplit : (x >>= f).run k = (f (x.run k).1).run (x.run k).2 := rfl
  rw [hsplit, hrun, hrun', Collector.limit_addAll, Collector.addAll_append]

theorem map {x : WarnM α} (f : α → β) (hx : Steady x) : Steady (f <$> x) := by
  rw [map_eq_pure_bind]
  exact hx.bind fun k => pure (f (x.value k))

/-- A computation that may fail goes on only if it has not failed yet. -/
theorem bindExcept {ε : Type} {x : ExceptT ε WarnM α} {f : α → ExceptT ε WarnM β}
    (hx : Steady x.run) (hf : ∀ a, Steady (f a).run) : Steady (x >>= f).run := by
  rw [ExceptT.run_bind]
  refine hx.bind fun k => ?_
  cases x.run.value k with
  | ok a => exact hf a
  | error e => exact pure _

/-- Steady steps make a steady fold. Induction on the list, for any start. -/
theorem foldlM {f : β → α → WarnM β} (hf : ∀ b a, Steady (f b a)) (xs : List α) (b : β) :
    Steady (xs.foldlM f b) := by
  induction xs generalizing b with
  | nil => exact pure b
  | cons a xs ih =>
    rw [List.foldlM_cons]
    exact (hf b a).bind fun k => ih _

theorem ite {c : Prop} [Decidable c] {x y : WarnM α} (hx : Steady x) (hy : Steady y) :
    Steady (if c then x else y) := by
  split
  · exact hx
  · exact hy

theorem warn (w : Warning) : Steady (warn w) :=
  ⟨(), fun _ => [w], fun _ => rfl⟩

theorem warnIfLarge (size : Nat) : Steady (warnIfLarge size) :=
  ⟨(), fun limit => if limit < size then [{ reason := .unionTooLarge size }] else [],
    fun k => by rw [← Collector.checkSize_eq_addAll]; rfl⟩

end Steady

end WarnM

end UnionTypes
