import UnionTypes.Warning.Basic

/-!
# Collecting warnings

A collector keeps the warnings raised while it is enabled, oldest first, until they are taken or
cleared. It also holds the size above which a union is reported. Operations on types that may warn
run in `WarnM`: they read the collector and add to it, and they change nothing else.
-/

namespace UnionTypes

/-- The size above which unions are reported, unless another one is set. -/
def defaultLimit : Nat := 8

/-- Warnings kept for later. -/
structure Collector where
  /-- Warnings are kept only while this is set. -/
  enabled : Bool := false
  /-- Unions with more members than this are reported. -/
  limit : Nat := defaultLimit
  /-- The warnings kept, oldest first. -/
  kept : List Warning := []
deriving DecidableEq, Repr

namespace Collector

def enable (c : Collector) : Collector := { c with enabled := true }

/-- From now on warnings are dropped. Those already kept stay. -/
def disable (c : Collector) : Collector := { c with enabled := false }

def setLimit (c : Collector) (limit : Nat) : Collector := { c with limit }

def add (c : Collector) (w : Warning) : Collector :=
  if c.enabled then { c with kept := c.kept ++ [w] } else c

/-- Keeps a warning about a union of this size if it is above the limit. -/
def checkSize (c : Collector) (size : Nat) : Collector :=
  if c.limit < size then c.add { reason := .unionTooLarge size } else c

/-- Hands out all warnings kept, and keeps none of them. -/
def take (c : Collector) : List Warning × Collector :=
  (c.kept, { c with kept := [] })

def clear (c : Collector) : Collector := { c with kept := [] }

end Collector

/-- A computation that may raise warnings. -/
abbrev WarnM := StateM Collector

/-- Whether a warning that is raised now is kept. -/
def warningsKept : WarnM Bool :=
  return (← get).enabled

def warn (w : Warning) : WarnM Unit :=
  modify fun c => c.add w

/-- Raises a warning if a union of this size is above the limit. -/
def warnIfLarge (size : Nat) : WarnM Unit :=
  modify fun c => c.checkSize size

theorem Collector.add_of_not_enabled {c : Collector} (h : c.enabled = false) (w : Warning) :
    c.add w = c := by
  rw [add, h, if_neg Bool.false_ne_true]

/-- A warning that is not kept leaves no trace, so it makes no difference to ask first. -/
theorem warningsKept_bind_warn {α : Type} (p : Bool) (w : Warning) (x : WarnM α) :
    (do
      if p && (← warningsKept) then
        warn w
      x) =
    (do
      if p then
        warn w
      x) := by
  funext k
  show (if p && k.enabled then warn w >>= fun _ => x else x).run k =
    (if p then warn w >>= fun _ => x else x).run k
  cases p with
  | false => rfl
  | true =>
    cases hkept : k.enabled with
    | true => rfl
    | false =>
      show x.run k = x.run (k.add w)
      rw [Collector.add_of_not_enabled hkept]

end UnionTypes
