import Ez4.Library.KeyedMap
import Ez4.Library.PartialMap

/-! # Linked services of a deploy

`prepareLinkedContext` of `deploy/services.ts`. The contexts that are built are
objects of a heap, shared through `contextCache`. What the handlers answer is a
parameter, and so is the hash of a linked key. -/
namespace Ez4.Project.LinkedServices
open Ez4.Library

/-! ## Services -/

/-- What is linked: a service of the metadata, and the options that are merged into its own. -/
structure Reference (Opt : Type) where
  service : String
  options : Opt

/-- A record of the references under their linked names. -/
abbrev Links (Opt : Type) := KeyedMap (Prod.fst : String × Reference Opt → String)

abbrev Variables (V : Type) := KeyedMap (Prod.fst : String × V → String)

/-- What `deploy:prepareLinkedService` answers. -/
structure Source (Opt R V : Type) where
  remaining : R
  services : Option (Links Opt)
  vars : Option (Variables V)

/-- A service that has linked services: the target of the deploy (`none`), or a linked service. -/
abbrev Target (Opt : Type) := Option (Reference Opt)

variable {Opt R V Key : Type}

/-! ## Contexts -/

/-- A linked context: `remaining`, and the address of its own linked contexts. -/
structure LinkedContext (R : Type) where
  remaining : R
  context : Option Nat
deriving DecidableEq

abbrev Contexts (R : Type) := KeyedMap (Prod.fst : String × LinkedContext R → String)

structure State (R V Key : Type) where
  contexts : Nat → Option (Contexts R) := fun _ => none
  next : Nat := 0
  /-- The address that the cached linked context has as its `context`. -/
  contextCache : Key → Option Nat := fun _ => none
  /-- What `assignServiceVariables` was called with, the last call first. -/
  assigned : List (Variables V) := []

/-- An empty context, which is cached before it is filled. -/
def State.allocate [DecidableEq Key] (s : State R V Key) (key : Key) : State R V Key :=
  { s with
    contexts := put s.contexts s.next (some ∅)
    next := s.next + 1
    contextCache := put s.contextCache key (some s.next) }

def State.fill (s : State R V Key) (address : Nat) (contexts : Contexts R) : State R V Key :=
  { s with contexts := put s.contexts address (some contexts) }

def State.assign (s : State R V Key) (vars : Option (Variables V)) : State R V Key :=
  { s with assigned := vars.toList ++ s.assigned }

variable [DecidableEq Key] (answer : Target Opt → Reference Opt → Option (Source Opt R V))
  (linkedKey : String → R → Key)

/-- The body of the loop over the linked services of a target. -/
def linkOne (build : Target Opt → Links Opt → State R V Key → Option (Contexts R × State R V Key))
    (target : Target Opt) (done : Contexts R × State R V Key) (link : String × Reference Opt) :
    Option (Contexts R × State R V Key) :=
  match answer target link.2 with
  | none => some done
  | some source =>
    let key := linkedKey link.2.service source.remaining
    match done.2.contextCache key, source.services with
    | some address, _ =>
      some (done.1.set (link.1, ⟨source.remaining, some address⟩), done.2.assign source.vars)
    | none, none => some (done.1.set (link.1, ⟨source.remaining, none⟩), done.2.assign source.vars)
    | none, some services =>
      (build (some link.2) services (done.2.allocate key)).map fun (subContext, s) =>
        (done.1.set (link.1, ⟨source.remaining, some done.2.next⟩),
          (s.fill done.2.next subContext).assign source.vars)

/-- `buildLinkedContexts`, unless it is nested deeper than the fuel. -/
def buildLinkedContexts :
    Nat → Target Opt → Links Opt → State R V Key → Option (Contexts R × State R V Key)
  | 0, _, _, _ => none
  | fuel + 1, target, services, s =>
    services.values.foldlM (linkOne answer linkedKey (buildLinkedContexts fuel) target) (∅, s)

/-! ## Variables -/

inductive VariablesError
  | duplicate (name : String)
  | missingSupport
deriving DecidableEq, Repr

/-- The loop of `assignServiceVariables`. -/
def assignOne [DecidableEq V] (held : Variables V) (entry : String × V) :
    Except VariablesError (Variables V) :=
  match held.get? entry.1 with
  | some other => if other.2 = entry.2 then .ok (held.set entry) else .error (.duplicate entry.1)
  | none => .ok (held.set entry)

def assignServiceVariables [DecidableEq V] (held : Option (Variables V)) (vars : Variables V) :
    Except VariablesError (Option (Variables V)) :=
  match held with
  | none => .error .missingSupport
  | some held => (vars.values.foldlM assignOne held).map some

/-- What is left of the target: its context, the heap and its variables. The first call of
`assignServiceVariables` that throws is what the whole throws. -/
def prepareLinkedContext [DecidableEq V] (fuel : Nat) (services : Links Opt)
    (held : Option (Variables V)) :
    Option (Except VariablesError
      (Contexts R × (Nat → Option (Contexts R)) × Option (Variables V))) :=
  (buildLinkedContexts answer linkedKey fuel none services {}).map fun (linkedContexts, s) =>
    (s.assigned.reverse.foldlM assignServiceVariables held).map fun vars =>
      (linkedContexts, s.contexts, vars)

/-! ## What the contexts stand for -/

/-- What is found under a path of one or more linked names: the rest of the answer, and whether it
has linked contexts of its own. -/
abbrev Found (R : Type) := R × Bool

/-- Through the contexts that were built. -/
def findContext (contexts : Nat → Option (Contexts R)) :
    Contexts R → String → List String → Option (Found R)
  | here, name, [] => (here.get? name).map fun entry => (entry.2.remaining, entry.2.context.isSome)
  | here, name, next :: more =>
    (here.get? name).bind fun entry => entry.2.context.bind fun address =>
      (contexts address).bind fun inner => findContext contexts inner next more

/-- Through the answers themselves, without a cache. -/
def findSource : Target Opt → Links Opt → String → List String → Option (Found R)
  | target, here, name, [] =>
    (here.get? name).bind fun link => (answer target link.2).map fun source =>
      (source.remaining, source.services.isSome)
  | target, here, name, next :: more =>
    (here.get? name).bind fun link => (answer target link.2).bind fun source =>
      source.services.bind fun inner => findSource (some link.2) inner next more

end Ez4.Project.LinkedServices
