import Mathlib.Data.List.Basic

/-! # A database session

What a connection does with the commands sent over it: they are run in the
order they were sent in, and inside a transaction nothing takes effect before
its commit. A command that fails in a transaction aborts it, up to a rollback
to a savepoint. -/

namespace Ez4.Library

inductive Command (α : Type)
  | begin
  | commit
  | rollback
  | savepoint
  | release
  | rollbackTo
  /-- A setting of the session, without an effect. -/
  | set
  | run (statement : α)
deriving DecidableEq, Repr

/-- What the surroundings decide of a command: that it fails, or that the
connection is lost, a commit being applied or not. -/
inductive Verdict (ε : Type)
  | succeeds
  | fails (error : ε)
  | lost (applied : Bool)
deriving DecidableEq, Repr

inductive Reply (ε : Type)
  | ok
  | failed (error : ε)
  /-- The transaction is aborted, or there is none where one is needed. -/
  | refused
  | lost
deriving DecidableEq, Repr

structure OpenTransaction (α : Type) where
  work : List α := []
  /-- What was done at each savepoint, the last one first. -/
  savepoints : List (List α) := []
  aborted : Bool := false
deriving DecidableEq, Repr

structure Session (α : Type) where
  transaction : Option (OpenTransaction α) := none
  effects : List α := []
  closed : Bool := false
deriving DecidableEq, Repr

/-- The commands that end a transaction. -/
def Command.isEnd {α : Type} : Command α → Bool
  | .commit | .rollback => true
  | _ => false

namespace Session

variable {α ε : Type} (s : Session α)

/-- A command outside of a transaction. -/
def runOutside (command : Command α) : Session α × Reply ε :=
  match command with
  | .begin => ({ s with transaction := some {} }, .ok)
  | .run statement => ({ s with effects := s.effects ++ [statement] }, .ok)
  | .commit | .rollback | .set => (s, .ok)
  | .savepoint | .release | .rollbackTo => (s, .refused)

def abort (t : OpenTransaction α) : Session α :=
  { s with transaction := some { t with aborted := true } }

/-- A command that succeeds in a transaction that isn't aborted. -/
def runInside (t : OpenTransaction α) (command : Command α) : Session α × Reply ε :=
  match command with
  | .run statement => ({ s with transaction := some { t with work := t.work ++ [statement] } }, .ok)
  | .savepoint =>
    ({ s with transaction := some { t with savepoints := t.work :: t.savepoints } }, .ok)
  | .release =>
    match t.savepoints with
    | _ :: rest => ({ s with transaction := some { t with savepoints := rest } }, .ok)
    | [] => (s.abort t, .refused)
  | .begin | .set | .commit | .rollback | .rollbackTo => (s, .ok)

def commit (t : OpenTransaction α) : Session α :=
  { s with transaction := none, effects := s.effects ++ t.work }

/-- A command in a transaction, on a connection that isn't lost. -/
def runIn (t : OpenTransaction α) (command : Command α) (error : Option ε) :
    Session α × Reply ε :=
  match command with
  | .rollback => ({ s with transaction := none }, .ok)
  | .commit =>
    if t.aborted then ({ s with transaction := none }, .ok)
    else
      match error with
      | some error => ({ s with transaction := none }, .failed error)
      | none => (s.commit t, .ok)
  | .rollbackTo =>
    match t.savepoints with
    | saved :: _ => ({ s with transaction := some { t with work := saved, aborted := false } }, .ok)
    | [] => (s.abort t, .refused)
  | command =>
    if t.aborted then (s, .refused)
    else
      match error with
      | some error => (s.abort t, .failed error)
      | none => s.runInside t command

def lose (command : Command α) (applied : Bool) : Session α :=
  match command, s.transaction, applied with
  | .commit, some t, true =>
    if t.aborted then { s with transaction := none, closed := true }
    else { s.commit t with closed := true }
  | _, _, _ => { s with transaction := none, closed := true }

/-- A command is run and answered. -/
def run (command : Command α) (verdict : Verdict ε) : Session α × Reply ε :=
  if s.closed then (s, .lost)
  else
    match verdict, s.transaction with
    | .lost applied, _ => (s.lose command applied, .lost)
    | .fails error, none => (s, .failed error)
    | .fails error, some t => s.runIn t command (some error)
    | .succeeds, none => s.runOutside command
    | .succeeds, some t => s.runIn t command none

/-- Nothing that is run takes effect on its own. -/
def Held : Prop := s.transaction.isSome = true ∨ s.closed = true

variable {s} {command : Command α} {verdict : Verdict ε}

theorem held_begin (h : s.transaction = none) (hclosed : s.closed = false)
    (hok : (s.run (ε := ε) .begin verdict).2 = .ok) :
    (s.run .begin verdict).1.Held ∧ (s.run .begin verdict).1.effects = s.effects := by
  cases verdict <;> simp_all [run, runOutside, Held]

theorem held_lose (applied : Bool) (hend : command.isEnd = false) :
    (s.lose command applied).Held ∧ (s.lose command applied).effects = s.effects := by
  unfold lose
  split
  · cases hend
  · exact ⟨.inr rfl, rfl⟩

/-- **In a transaction, nothing but its end has an effect.** -/
theorem Held.run (h : s.Held) (hend : command.isEnd = false) :
    (s.run command verdict).1.Held ∧ (s.run command verdict).1.effects = s.effects := by
  unfold Session.run
  split
  · exact ⟨h, rfl⟩
  · rename_i hclosed
    obtain ⟨t, ht⟩ : ∃ t, s.transaction = some t :=
      Option.isSome_iff_exists.mp (h.resolve_right hclosed)
    have hrunIn : ∀ error : Option ε, (s.runIn t command error).1.Held ∧
        (s.runIn t command error).1.effects = s.effects := by
      intro error
      unfold runIn
      split
      · cases hend
      · cases hend
      · split
        · exact ⟨.inl rfl, rfl⟩
        · exact ⟨.inl rfl, rfl⟩
      · split
        · exact ⟨h, rfl⟩
        · split
          · exact ⟨.inl rfl, rfl⟩
          · unfold runInside
            split
            · exact ⟨.inl rfl, rfl⟩
            · exact ⟨.inl rfl, rfl⟩
            · split
              · exact ⟨.inl rfl, rfl⟩
              · exact ⟨.inl rfl, rfl⟩
            all_goals exact ⟨h, rfl⟩
    rw [ht]
    cases verdict with
    | succeeds => exact hrunIn none
    | fails error => exact hrunIn (some error)
    | lost applied => exact held_lose applied hend

/-- **A rollback leaves nothing of its transaction.** -/
theorem Held.rollback (h : s.Held) : (s.run .rollback verdict).1.effects = s.effects := by
  unfold Session.run
  split
  · rfl
  · rename_i hclosed
    obtain ⟨t, ht⟩ : ∃ t, s.transaction = some t :=
      Option.isSome_iff_exists.mp (h.resolve_right hclosed)
    rw [ht]
    cases verdict <;> rfl

end Session

end Ez4.Library
