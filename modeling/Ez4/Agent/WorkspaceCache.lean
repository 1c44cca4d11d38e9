import Ez4.Library.KeyedMap
import Ez4.Library.Machine
import Ez4.Library.PartialMap

/-! # The cache of a workspace repository

`publishWorkspace`, `checkoutWorkspace` and `refreshCache` (`runtime.ts`) of any
number of invocations over the cache of one repository, a git command or a file
operation at a time. A name is the agent and the id that a ref and its lease
are made of. -/
namespace Ez4.Agent.WorkspaceCache
open Ez4.Library

variable {Name Head : Type} [DecidableEq Name]

def fourteenDaysMs : Nat := 14 * 24 * 60 * 60 * 1000

/-! ## Invocations -/

inductive Job (Name Head : Type)
  | publish (name : Name) (head : Head)
  /-- With the ref that is handed over, if any. -/
  | checkout (ref : Option (Name × Head))
  | refresh
deriving DecidableEq

/-- The steps of `touchLease`. -/
inductive Touch
  | utimes
  | writeFile
  | utimesAgain
deriving DecidableEq, Repr

inductive Phase (Name : Type)
  | pushing
  | preparing
  | locking
  /-- It makes the repository if there is none, and fetches the branches. -/
  | updating
  | listing
  /-- The refs whose lease is still to be read. -/
  | checking (rest : List Name)
  | pruning (name : Name) (rest : List Name)
  /-- The ref is deleted, and its lease is not yet. -/
  | dropping (name : Name) (rest : List Name)
  | touching (touch : Touch)
  | fetching
  /-- A checkout has found its ref or not. -/
  | done (found : Bool)
  | failed
deriving DecidableEq

structure Invocation (Name Head : Type) where
  job : Job Name Head
  nowMs : Nat
  /-- The `nowMs` of its `refreshCache`. -/
  refreshMs : Nat
  phase : Phase Name
deriving DecidableEq

/-- The name whose lease the job touches. -/
def Job.name? : Job Name Head → Option Name
  | .publish name _ => some name
  | .checkout ref => ref.map Prod.fst
  | .refresh => none

/-! ## The cache -/

structure System (Name Head : Type) [DecidableEq Name] where
  now : Nat := 0
  refs : KeyedMap (Prod.fst : Name × Head → Name) := ∅
  /-- The times of the lease files. -/
  leases : Name → Option Nat := fun _ => none
  locked : Bool := false
  invocations : Nat → Option (Invocation Name Head) := fun _ => none
  /-- The names whose lease has been older than 14 days at some time. -/
  lapsed : Name → Bool := fun _ => false

inductive Event (Name Head : Type)
  | starts (invocation : Nat) (job : Job Name Head)
  | acts (invocation : Nat)
  /-- A command or a file operation fails. -/
  | fails (invocation : Nat)
  | ticks (ms : Nat)

namespace System

variable (s : System Name Head) (i : Nat)

def setPhase (inv : Invocation Name Head) (phase : Phase Name) : System Name Head :=
  { s with invocations := put s.invocations i (some { inv with phase }) }

/-- Notes the leases that are too old by now. -/
def age : System Name Head :=
  { s with lapsed := fun name => s.lapsed name || (s.leases name).any fun mtime =>
      decide (mtime + fourteenDaysMs < s.now) }

/-- Where a job goes on after its `refreshCache`. -/
def refreshed : Job Name Head → Phase Name
  | .checkout (some _) => .touching .utimes
  | _ => .done false

/-- Where a job goes on after `touchLease`. -/
def touched : Job Name Head → Phase Name
  | .checkout _ => .fetching
  | _ => .done true

def touch (inv : Invocation Name Head) (name : Name) : Touch → System Name Head
  | .utimes =>
    match s.leases name with
    | some _ => { s with leases := put s.leases name (some inv.nowMs) }.setPhase
        i inv (touched inv.job)
    | none => s.setPhase i inv (.touching .writeFile)
  | .writeFile => { s with leases := put s.leases name (some s.now) }.setPhase
      i inv (.touching .utimesAgain)
  | .utimesAgain =>
    match s.leases name with
    | some _ => { s with leases := put s.leases name (some inv.nowMs) }.setPhase
        i inv (touched inv.job)
    | none => s.setPhase i inv .failed

def act (inv : Invocation Name Head) : Option (System Name Head) :=
  match inv.phase with
  | .pushing =>
    match inv.job with
    | .publish name head => some ({ s with refs := s.refs.set (name, head) }.setPhase i inv
        (.touching .utimes))
    | _ => none
  | .preparing => some (s.setPhase i { inv with refreshMs := s.now } .locking)
  | .locking => if s.locked then none else some ({ s with locked := true }.setPhase i inv .updating)
  | .updating => some (s.setPhase i inv .listing)
  | .listing => some (s.setPhase i inv (.checking s.refs.keys))
  | .checking [] => some ({ s with locked := false }.setPhase i inv (refreshed inv.job))
  | .checking (name :: rest) =>
    let prune := match s.leases name with
      | some mtime => decide (fourteenDaysMs < inv.refreshMs - mtime)
      | none => true
    some (s.setPhase i inv (if prune then .pruning name rest else .checking rest))
  | .pruning name rest => some ({ s with refs := s.refs.erase name }.setPhase i inv
      (.dropping name rest))
  | .dropping name rest =>
    some ({ s with leases := put s.leases name none }.setPhase i inv (.checking rest))
  | .touching step => inv.job.name?.map fun name => s.touch i inv name step
  | .fetching =>
    match inv.job with
    | .checkout (some (name, _)) => some (s.setPhase i inv (.done (s.refs.has name)))
    | _ => none
  | .done _ | .failed => none

/-- What throws, or is caught: a listing that fails has no refs, a lease that is not read is pruned,
and what fails of a deletion is passed over. -/
def fail (inv : Invocation Name Head) : Option (System Name Head) :=
  match inv.phase with
  | .pushing | .preparing | .locking | .fetching => some (s.setPhase i inv .failed)
  | .updating => some ({ s with locked := false }.setPhase i inv .failed)
  | .listing => some (s.setPhase i inv (.checking []))
  | .checking (name :: rest) => some (s.setPhase i inv (.pruning name rest))
  | .pruning name rest => some (s.setPhase i inv (.dropping name rest))
  | .dropping _ rest => some (s.setPhase i inv (.checking rest))
  | .touching .utimes => some (s.setPhase i inv (.touching .writeFile))
  | .touching _ => some (s.setPhase i inv .failed)
  | .checking [] | .done _ | .failed => none

def firstPhase : Job Name Head → Phase Name
  | .publish _ _ => .pushing
  | _ => .preparing

def start (job : Job Name Head) : System Name Head :=
  let inv := { job, nowMs := s.now, refreshMs := s.now, phase := firstPhase job }
  { s with invocations := put s.invocations i (some inv) }

def step (s : System Name Head) : Event Name Head → Option (System Name Head)
  | .starts i job => if (s.invocations i).isSome then none else some (s.start i job)
  | .acts i => ((s.invocations i).bind (s.act i)).map age
  | .fails i => (s.invocations i).bind (s.fail i)
  | .ticks ms => some { s with now := s.now + ms }.age

end System

def machine : Machine (System Name Head) (Event Name Head) where
  init := {}
  step := System.step

end Ez4.Agent.WorkspaceCache
