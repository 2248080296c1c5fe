import UnionTypes.Warning.Collector

/-!
# Values of computations that warn

A computation in `WarnM` returns a value and leaves a collector behind. Most statements about types
are about the value alone. `WarnM.value` takes it out of a run that begins with a given collector,
and the lemmas below follow the value through `pure`, `>>=` and a fold, so that a statement for
every collector needs no look at the warnings. `WarnM.after` takes out the collector, for the
statements that are about the warnings.
-/

namespace UnionTypes

namespace WarnM

variable {α β : Type}

/-- What the computation returns if it begins with the given collector. -/
def value (x : WarnM α) (k : Collector) : α := (x.run k).1

/-- The collector that the computation leaves behind if it begins with the given one. -/
def after (x : WarnM α) (k : Collector) : Collector := (x.run k).2

@[simp] theorem value_pure (a : α) (k : Collector) : value (pure a) k = a := rfl

@[simp] theorem value_bind (x : WarnM α) (f : α → WarnM β) (k : Collector) :
    value (x >>= f) k = value (f (value x k)) (x.run k).2 := rfl

@[simp] theorem value_map (f : α → β) (x : WarnM α) (k : Collector) :
    value (f <$> x) k = f (value x k) := rfl

@[simp] theorem after_pure (a : α) (k : Collector) : after (pure a) k = k := rfl

@[simp] theorem after_bind (x : WarnM α) (f : α → WarnM β) (k : Collector) :
    after (x >>= f) k = after (f (value x k)) (after x k) := rfl

@[simp] theorem after_map (f : α → β) (x : WarnM α) (k : Collector) :
    after (f <$> x) k = after x k := rfl

/-- What every step of a fold keeps, the whole fold keeps. Induction on the list; the collector
that a step leaves behind is the one that the rest begins with. -/
theorem value_foldlM_of_step {p : β → Prop} {f : β → α → WarnM β} (xs : List α)
    (hstep : ∀ b, p b → ∀ a ∈ xs, ∀ k, p ((f b a).value k)) :
    ∀ b, p b → ∀ k, p ((xs.foldlM f b).value k) := by
  induction xs with
  | nil =>
    intro b hb k
    simpa using hb
  | cons a xs ih =>
    intro b hb k
    rw [List.foldlM_cons, value_bind]
    have hhead : p ((f b a).value k) := hstep b hb a List.mem_cons_self k
    exact ih (fun b hb a ha k => hstep b hb a (List.mem_cons_of_mem _ ha) k) _ hhead _

end WarnM

end UnionTypes
