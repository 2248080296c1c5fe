import UnionTypes.Proofs.Warning.Steady
import UnionTypes.Settings.Basic

/-!
# Every warning is delivered once

A collector is switched on and off, told what to report, filled and emptied, in any order. A `Run`
tells what came of a list of commands: what each `take` handed out, what each `clear` threw away,
and the collector that is left. On the other side stands what was raised while warnings were kept,
which `Collector.recorded` reads off the commands alone, each warning with the commands that were
still to come. These settle what becomes of it: the first of them that empties the collector either
takes it or clears it (`isCleared`).

* **`Command.perform_eq`** — all that one command does to a collector;
* **`run_accounts`** — what is taken or still kept is, in its order, what was recorded and not
  cleared, and what is cleared is the rest. By induction on the commands: the first one hands on
  what is kept, with what it raises behind it (`select_records_of_not_empties`), or settles what
  becomes of all of it (`select_records_of_empties`);
* **`run_append_settings`** — commands that only set something leave all of this as it is.
-/

namespace UnionTypes.Collector

/-! ## Commands and runs -/

inductive Command where
  | enable
  | disable
  | setLimit (limit : Nat)
  | apply (s : Settings)
  | add (w : Warning)
  | checkSize (size : Nat)
  | take
  | clear

namespace Command

/-- The collector after the command. -/
def perform (c : Collector) : Command → Collector
  | enable => c.enable
  | disable => c.disable
  | setLimit limit => c.setLimit limit
  | apply s => s.apply c
  | add w => c.add w
  | checkSize size => c.checkSize size
  | take => c.take.2
  | clear => c.clear

/-- What the command hands out, if it takes what is kept. -/
def handsOut (c : Collector) : Command → List (List Warning)
  | take => [c.take.1]
  | _ => []

/-- What the command throws away, if it clears what is kept. -/
def throwsAway (c : Collector) : Command → List (List Warning)
  | clear => [c.kept]
  | _ => []

/-- Whether warnings are kept from now on, if the command says so. -/
def enabled? : Command → Option Bool
  | enable => some true
  | disable => some false
  | apply s => some s.diagnostics
  | _ => none

/-- The limit from now on, if the command sets it. -/
def limit? : Command → Option Nat
  | setLimit limit => some limit
  | apply s => some s.maxUnionLength
  | _ => none

/-- The warnings that the command raises under this limit. -/
def raised (limit : Nat) : Command → List Warning
  | add w => [w]
  | checkSize size => if limit < size then [{ reason := .unionTooLarge size }] else []
  | _ => []

/-- Whether the command leaves nothing in the collector. -/
def empties : Command → Bool
  | take | clear => true
  | _ => false

/-- Whether the command does no more than to set the flag or the limit. -/
def isSetting : Command → Bool
  | enable | disable | setLimit _ | apply _ => true
  | _ => false

end Command

/-- What comes of a list of commands. -/
structure Run where
  /-- What each `take` handed out, the first one first. -/
  taken : List (List Warning)
  /-- What each `clear` threw away, the first one first. -/
  cleared : List (List Warning)
  /-- The collector that is left. -/
  final : Collector

/-- Performs the commands one after another. -/
def run (c : Collector) : List Command → Run
  | [] => { taken := [], cleared := [], final := c }
  | cmd :: later =>
    let rest := run (cmd.perform c) later
    { taken := cmd.handsOut c ++ rest.taken
      cleared := cmd.throwsAway c ++ rest.cleared
      final := rest.final }

/-! ## What is recorded -/

/-- A warning with the commands that were still to come when it was raised. -/
abbrev Record := Warning × List Command

/-- The warnings that the commands raise while warnings are kept, the first one first. The flag and
the limit are those in force at the start. -/
def recorded (enabled : Bool) (limit : Nat) : List Command → List Record
  | [] => []
  | cmd :: later =>
    (if enabled then cmd.raised limit else []).map (·, later) ++
      recorded (cmd.enabled?.getD enabled) (cmd.limit?.getD limit) later

/-- All that passes through the collector: what it holds at the start, and what the commands record
in it. -/
def records (c : Collector) (cmds : List Command) : List Record :=
  c.kept.map (·, cmds) ++ recorded c.enabled c.limit cmds

/-- Whether the commands throw away what is kept when they begin: of those that empty the collector
the first is a `clear`. -/
def isCleared (later : List Command) : Bool :=
  match later.find? Command.empties with
  | some .clear => true
  | _ => false

/-- The warnings of the records whose later commands have the property. -/
def select (p : List Command → Bool) (rs : List Record) : List Warning :=
  (rs.filter fun r => p r.2).map (·.1)

variable {c : Collector} {cmd : Command} {later : List Command} {p : List Command → Bool}

theorem isCleared_cons_of_not_empties (h : cmd.empties = false) (later : List Command) :
    isCleared (cmd :: later) = isCleared later := by
  rw [isCleared, List.find?_cons, h]
  rfl

theorem select_append (p : List Command → Bool) (rs qs : List Record) :
    select p (rs ++ qs) = select p rs ++ select p qs := by
  rw [select, List.filter_append, List.map_append, select, select]

/-- Warnings with the same commands to come share their fate. -/
theorem select_map_pair (p : List Command → Bool) (ws : List Warning) (later : List Command) :
    select p (ws.map (·, later)) = if p later then ws else [] := by
  unfold select
  cases h : p later with
  | true => simp [List.filter_map, Function.comp_def, h]
  | false => simp [List.filter_map, Function.comp_def, h]

theorem select_records (p : List Command → Bool) (c : Collector) (cmds : List Command) :
    select p (c.records cmds) =
      (if p cmds then c.kept else []) ++ select p (recorded c.enabled c.limit cmds) := by
  rw [records, select_append, select_map_pair]

/-! ## One command -/

/-- All that a command does: it sets the flag and the limit or leaves them as they are, and either
it empties the collector or it puts what it raises at the end, if warnings are kept. -/
theorem Command.perform_eq (cmd : Command) (c : Collector) :
    cmd.perform c =
      { enabled := cmd.enabled?.getD c.enabled
        limit := cmd.limit?.getD c.limit
        kept := if cmd.empties then []
          else c.kept ++ if c.enabled then cmd.raised c.limit else [] } := by
  -- a setting raises nothing, so nothing is put at the end
  have hsame : c.kept = c.kept ++ if c.enabled then [] else [] := by rw [ite_self, List.append_nil]
  cases cmd with
  | add w => exact c.addAll_eq [w]
  | checkSize size => exact (c.checkSize_eq_addAll size).trans (c.addAll_eq _)
  | take => rfl
  | clear => rfl
  | enable => exact congrArg (Collector.mk true c.limit) hsame
  | disable => exact congrArg (Collector.mk false c.limit) hsame
  | setLimit limit => exact congrArg (Collector.mk c.enabled limit) hsame
  | apply s => exact congrArg (Collector.mk s.diagnostics s.maxUnionLength) hsame

/-- A command that empties nothing hands on what is kept to the commands behind it, with what it
raises. -/
theorem select_records_of_not_empties (h : cmd.empties = false) (hp : p (cmd :: later) = p later) :
    select p (c.records (cmd :: later)) = select p ((cmd.perform c).records later) := by
  rw [select_records, select_records, recorded, select_append, select_map_pair, hp, cmd.perform_eq, h]
  cases p later <;> simp

/-- A command that empties the collector settles what becomes of all that is kept, and raises
nothing. -/
theorem select_records_of_empties (h : cmd.empties = true) :
    select p (c.records (cmd :: later)) =
      (if p (cmd :: later) then c.kept else []) ++ select p ((cmd.perform c).records later) := by
  have hraised : cmd.raised c.limit = [] := by
    cases cmd with
    | take | clear => rfl
    | _ => cases h
  rw [select_records, select_records, recorded, select_append, select_map_pair, hraised,
    cmd.perform_eq, h]
  cases p later <;> simp

/-! ## A whole run -/

/-- What is taken or still kept, and what is cleared. Induction on the commands, for any collector
that they begin with. -/
theorem run_accounts (c : Collector) (cmds : List Command) :
    (c.run cmds).taken.flatten ++ (c.run cmds).final.kept =
      select (fun later => !isCleared later) (c.records cmds) ∧
    (c.run cmds).cleared.flatten = select isCleared (c.records cmds) := by
  induction cmds generalizing c with
  | nil =>
    rw [select_records, select_records]
    exact ⟨(List.append_nil _).symm, rfl⟩
  | cons cmd later ih =>
    obtain ⟨hdelivered, hcleared⟩ := ih (cmd.perform c)
    cases hempties : cmd.empties with
    | false =>
      have hfate := isCleared_cons_of_not_empties hempties later
      rw [select_records_of_not_empties hempties (by simp only [hfate]),
        select_records_of_not_empties hempties hfate, ← hdelivered, ← hcleared]
      -- nothing is handed out or thrown away yet
      cases cmd with
      | take | clear => cases hempties
      | _ => exact ⟨rfl, rfl⟩
    | true =>
      rw [select_records_of_empties hempties, select_records_of_empties hempties, ← hdelivered,
        ← hcleared]
      cases cmd with
      | take => exact ⟨List.append_assoc _ _ _, rfl⟩
      | clear => exact ⟨rfl, rfl⟩
      | _ => cases hempties

/-- The commands behind go on from the collector that those before them leave. -/
theorem run_append (c : Collector) (cmds more : List Command) :
    c.run (cmds ++ more) =
      { taken := (c.run cmds).taken ++ ((c.run cmds).final.run more).taken
        cleared := (c.run cmds).cleared ++ ((c.run cmds).final.run more).cleared
        final := ((c.run cmds).final.run more).final } := by
  induction cmds generalizing c with
  | nil => rfl
  | cons cmd later ih =>
    rw [List.cons_append, run, ih, run]
    simp only [List.append_assoc]

/-- Settings hand out nothing, throw nothing away and leave what is kept as it is. -/
theorem run_settings {settings : List Command} (h : ∀ cmd ∈ settings, cmd.isSetting = true)
    (c : Collector) :
    (c.run settings).taken = [] ∧ (c.run settings).cleared = [] ∧
      (c.run settings).final.kept = c.kept := by
  induction settings generalizing c with
  | nil => exact ⟨rfl, rfl, rfl⟩
  | cons cmd later ih =>
    obtain ⟨hcmd, hlater⟩ := List.forall_mem_cons.mp h
    obtain ⟨htaken, hcleared, hkept⟩ := ih hlater (cmd.perform c)
    cases cmd with
    | enable | disable | setLimit | apply => exact ⟨htaken, hcleared, hkept⟩
    | _ => cases hcmd

/-- After any run, settings change nothing of what was taken, cleared or kept until then. -/
theorem run_append_settings (c : Collector) (cmds : List Command) {settings : List Command}
    (h : ∀ cmd ∈ settings, cmd.isSetting = true) :
    (c.run (cmds ++ settings)).taken = (c.run cmds).taken ∧
      (c.run (cmds ++ settings)).cleared = (c.run cmds).cleared ∧
      (c.run (cmds ++ settings)).final.kept = (c.run cmds).final.kept := by
  obtain ⟨htaken, hcleared, hkept⟩ := run_settings h (c.run cmds).final
  refine ⟨?_, ?_, ?_⟩
  · rw [run_append, htaken, List.append_nil]
  · rw [run_append, hcleared, List.append_nil]
  · rw [run_append, hkept]

/-- **Every warning is delivered once, in order.** In any run, what the takes handed out, one after
the other, and what is still kept behind it, are the warnings that were raised while warnings were
kept, those about a size if it was above the limit of that moment, less those that a `clear` threw
away. These are the ones after which it was a `clear` that first emptied the collector. What the
collector held at the start counts as raised before all others. And wherever in a run the flag or
the limit is set, what is kept at that point stays as it is. -/
theorem delivers_once (c : Collector) (cmds : List Command) :
    (c.run cmds).taken.flatten ++ (c.run cmds).final.kept =
      ((c.kept.map (·, cmds) ++ recorded c.enabled c.limit cmds).filter
        fun record => !isCleared record.2).map (·.1) ∧
    (c.run cmds).cleared.flatten =
      ((c.kept.map (·, cmds) ++ recorded c.enabled c.limit cmds).filter
        fun record => isCleared record.2).map (·.1) ∧
    ∀ settings : List Command, (∀ cmd ∈ settings, cmd.isSetting = true) →
      (c.run (cmds ++ settings)).taken = (c.run cmds).taken ∧
      (c.run (cmds ++ settings)).cleared = (c.run cmds).cleared ∧
      (c.run (cmds ++ settings)).final.kept = (c.run cmds).final.kept := by
  obtain ⟨hdelivered, hcleared⟩ := run_accounts c cmds
  exact ⟨hdelivered, hcleared, fun settings h => run_append_settings c cmds h⟩

/-- A collector that keeps nothing is switched on, given another limit, switched off and on again by
settings, taken from and cleared. Of seven warnings two are not kept, and one is about a size that
is not above the limit any more; one is cleared. Then it is switched off, with one warning in it. -/
theorem delivers_once_of_toggled :
    let stale (name : String) : Warning := { reason := .invalidMember name }
    let large : Warning := { reason := .unionTooLarge 5 }
    let cmds : List Command := [.checkSize 9, .enable, .add (stale "A"), .setLimit 3, .checkSize 5,
      .disable, .add (stale "B"), .apply { diagnostics := true, maxUnionLength := 5 }, .take,
      .checkSize 5, .add (stale "C"), .clear, .add (stale "D")]
    ((run {} cmds).taken.flatten ++ (run {} cmds).final.kept = [stale "A", large, stale "D"]) ∧
      (run {} cmds).cleared.flatten = [stale "C"] ∧
      (run {} (cmds ++ [.disable, .setLimit 0])).final.kept = [stale "D"] := by
  intro stale large cmds
  obtain ⟨hdelivered, hcleared, hsettings⟩ := delivers_once {} cmds
  exact ⟨hdelivered, hcleared, (hsettings [.disable, .setLimit 0] (by decide)).2.2⟩

end UnionTypes.Collector
