import Ez4.Library.Machine
import Ez4.Library.PartialMap

/-! # The lock of a workspace

Any number of `withLock` calls on one lock directory, whose file operations
interleave. A call is known by its `owner`, and may die at any step. -/
namespace Ez4.Agent.WorkspaceLock
open Ez4.Library

def timeoutMs : Nat := 5 * 60000

def staleMs : Nat := 10 * 60000

/-! ## The lock directory -/

structure OwnerFile where
  content : Nat
  mtime : Nat
deriving DecidableEq, Repr

structure LockDir where
  /-- The call whose `mkdir` made it. -/
  madeBy : Nat
  mtime : Nat
  owner : Option OwnerFile := none
deriving DecidableEq, Repr

namespace LockDir

/-- The time that says how old the lock is. -/
def stamp (d : LockDir) : Nat := (d.owner.map OwnerFile.mtime).getD d.mtime

/-- `writeFile`, which makes the owner file or replaces what it has. -/
def writeOwner (d : LockDir) (owner now : Nat) : LockDir where
  madeBy := d.madeBy
  mtime := if d.owner.isSome then d.mtime else now
  owner := some { content := owner, mtime := now }

def unlinkOwner (d : LockDir) (now : Nat) : LockDir :=
  if d.owner.isSome then { d with mtime := now, owner := none } else d

/-- `utimes` -/
def touchOwner (d : LockDir) (date : Nat) : LockDir :=
  { d with owner := d.owner.map fun file => { file with mtime := date } }

end LockDir

/-! ## A call -/

/-- Why a call removes the lock directory. -/
inductive Removal
  /-- It was found stale, and was made by the given call. -/
  | stale (madeBy : Nat)
  | unwritten
  | release
deriving DecidableEq, Repr

inductive Phase
  | trying
  | statOwner
  | statLock
  /-- A time was read, off the lock of the given call. -/
  | judging (mtime madeBy : Nat)
  | undecided
  | sleeping (wakes : Nat)
  | made
  /-- In `fn`, and the date of a heartbeat that read the owner. -/
  | running (beat : Option Nat)
  /-- `fn` has settled. -/
  | ending (beat : Option Nat)
  | removing (why : Removal) (emptied : Bool)
  | done
  | failed
deriving DecidableEq, Repr

/-- Where a call goes on once the directory is removed. -/
def Removal.after : Removal → Phase
  | .stale _ => .trying
  | .unwritten => .failed
  | .release => .done

structure Call where
  start : Nat
  phase : Phase := .trying
  alive : Bool := true
deriving DecidableEq, Repr

structure System where
  now : Nat := 0
  lock : Option LockDir := none
  calls : Nat → Option Call := fun _ => none

inductive Event
  | starts (call : Nat)
  /-- The next file operation of the call, or what follows from it. -/
  | acts (call : Nat)
  | writeFails (call : Nat)
  | beats (call : Nat)
  | settles (call : Nat)
  | dies (call : Nat)
  | ticks (ms : Nat)
deriving DecidableEq, Repr

namespace System

variable (s : System) (c : Nat)

/-- Whether the owner file has the call's own `owner`. -/
def ownedBy : Bool := (s.lock.bind LockDir.owner).any (·.content == c)

/-- What a call does to the lock next, and where it goes on. -/
def act (call : Call) : Option (Option LockDir × Phase) :=
  match call.phase with
  | .trying =>
    match s.lock with
    | none => some (some { madeBy := c, mtime := s.now }, .made)
    | some d => some (some d, .statOwner)
  | .statOwner =>
    match s.lock.bind LockDir.owner, s.lock with
    | some file, some d => some (s.lock, .judging file.mtime d.madeBy)
    | _, _ => some (s.lock, .statLock)
  | .statLock =>
    match s.lock with
    | some d => some (some d, .judging d.mtime d.madeBy)
    | none => some (none, .undecided)
  | .judging mtime madeBy =>
    if staleMs < s.now - mtime then some (s.lock, .removing (.stale madeBy) false)
    else some (s.lock, .undecided)
  | .undecided =>
    if timeoutMs ≤ s.now - call.start then some (s.lock, .failed)
    else some (s.lock, .sleeping (s.now + 2000))
  | .sleeping wakes => if wakes ≤ s.now then some (s.lock, .trying) else none
  | .made =>
    match s.lock with
    | some d => some (some (d.writeOwner c s.now), .running none)
    | none => some (none, .removing .unwritten false)
  | .ending none =>
    if s.ownedBy c then some (s.lock, .removing .release false) else some (s.lock, .done)
  | .removing why false => some (s.lock.map (·.unlinkOwner s.now), .removing why true)
  | .removing why true =>
    -- a directory with a file is not removed
    if (s.lock.bind LockDir.owner).isSome then some (s.lock, .failed) else some (none, why.after)
  | .running _ | .ending (some _) | .done | .failed => none

/-- The heartbeat reads the owner, and touches it later. -/
def beat : Phase → Option (Option LockDir × Phase)
  | .running none => some (s.lock, .running (if s.ownedBy c then some s.now else none))
  | .ending none => some (s.lock, .ending (if s.ownedBy c then some s.now else none))
  | .running (some date) => some (s.lock.map (·.touchOwner date), .running none)
  | .ending (some date) => some (s.lock.map (·.touchOwner date), .ending none)
  | _ => none

def setCall (call : Call) : System := { s with calls := put s.calls c (some call) }

def alive (f : Call → Option System) : Option System :=
  (s.calls c).bind fun call => if call.alive then f call else none

def move (f : Call → Option (Option LockDir × Phase)) : Option System :=
  s.alive c fun call => (f call).map fun (lock, phase) =>
    { s with lock }.setCall c { call with phase }

def step (s : System) : Event → Option System
  | .starts c => if (s.calls c).isSome then none else some (s.setCall c { start := s.now })
  | .acts c => s.move c (s.act c)
  | .writeFails c => s.move c fun call =>
    if call.phase = .made then some (s.lock, .removing .unwritten false) else none
  | .beats c => s.move c fun call => s.beat c call.phase
  | .settles c => s.move c fun call =>
    match call.phase with
    | .running beat => some (s.lock, .ending beat)
    | _ => none
  | .dies c => s.alive c fun call => some (s.setCall c { call with alive := false })
  | .ticks ms => some { s with now := s.now + ms }

end System

def machine : Machine System Event where
  init := {}
  step := System.step

end Ez4.Agent.WorkspaceLock
