import Mathlib.Data.List.Nodup
import Ez4.Utils.Prototype

/-! # Services that require the VPC

`isLinkedContextVpcRequired` of `utils/service.ts`. Linked contexts refer to
each other in any way, so they are objects of a heap. -/
namespace Ez4.Project.LinkedVpc
open Ez4.Utils

/-! ## Linked contexts -/

/-- What the walk reads of a linked context: whether it requires the VPC, and
the record of its own linked contexts. -/
structure LinkedContext (n : Nat) where
  requireVpc : Option Bool
  context : Option (Fin n)
deriving DecidableEq

/-- A record of linked contexts, in the order of its keys. -/
structure Record (n : Nat) where
  entries : List (String × LinkedContext n)
  nodup : (entries.map Prod.fst).Nodup

/-- The records that there are. -/
abbrev Contexts (n : Nat) := Fin n → Record n

/-- The keys of `LinkedServices`. -/
abbrev ServiceNames := { names : List String // names.Nodup }

/-- A record, and the services to go through when not all of its own. -/
abbrev Loop (n : Nat) := Fin n × Option ServiceNames

variable {n : Nat}

def Record.names (record : Record n) : ServiceNames :=
  ⟨record.entries.map Prod.fst, record.nodup⟩

/-- The names a loop goes through: those of `services ?? context`. -/
def serviceNames (contexts : Contexts n) (loop : Loop n) : List String :=
  (loop.2.getD (contexts loop.1).names).val

/-- `context[serviceName]` -/
def linkedContext (contexts : Contexts n) (loop : Loop n) (name : String) :
    Option (LinkedContext n) :=
  (contexts loop.1).entries.lookup name

/-! ## The walk -/

/-- `resolutionCache` -/
abbrev Cache := List (String × Bool)

inductive WalkError
  | typeError
  | outOfFuel
deriving DecidableEq

/-- What the walk answers: a boolean, or what every object inherits. -/
inductive Answer
  | own (value : Bool)
  | inherited
deriving DecidableEq

def Answer.isTruthy : Answer → Bool
  | .own value => value
  | .inherited => true

/-- `resolutionCache[serviceName]`, where the name is in it. -/
def Cache.find (cache : Cache) (name : String) : Option Answer :=
  match property (fun name => List.lookup name cache) name with
  | .own value => some (.own value)
  | .inherited => some .inherited
  | .absent => none

abbrev Walk := Except WalkError (Answer × Cache)

/-- The loop over the services, with the walk of an inner context. -/
def walkServices (contexts : Contexts n) (isVpcRequired : Loop n → Cache → Walk) (loop : Loop n) :
    List String → Cache → Walk
  | [], cache => .ok (.own false, cache)
  | name :: names, cache =>
    match cache.find name with
    | some answer => .ok (answer, cache)
    | none =>
      match linkedContext contexts loop name with
      | none => .error .typeError
      | some linked =>
        let requireVpc := linked.requireVpc.getD false
        let cache := (name, requireVpc) :: cache
        if requireVpc then .ok (.own true, cache)
        else
          match linked.context with
          | none => walkServices contexts isVpcRequired loop names cache
          | some inner =>
            match isVpcRequired (inner, none) cache with
            | .error error => .error error
            | .ok (answer, cache) =>
              if answer.isTruthy then .ok (.own true, cache)
              else walkServices contexts isVpcRequired loop names cache

/-- The fuel counts nested calls. -/
def isVpcRequired (contexts : Contexts n) : Nat → Loop n → Cache → Walk
  | 0, _, _ => .error .outOfFuel
  | fuel + 1, loop, cache =>
    walkServices contexts (isVpcRequired contexts fuel) loop (serviceNames contexts loop) cache

def isLinkedContextVpcRequired (contexts : Contexts n) (fuel : Nat) (context : Fin n)
    (services : Option ServiceNames) : Except WalkError Answer :=
  (isVpcRequired contexts fuel (context, services) []).map Prod.fst

/-- It ends with the answer, however deep the calls may nest from some depth on. -/
def Returns (contexts : Contexts n) (context : Fin n) (services : Option ServiceNames)
    (answer : Answer) : Prop :=
  ∃ depth, ∀ fuel ≥ depth, isLinkedContextVpcRequired contexts fuel context services = .ok answer

/-! ## What a function uses -/

/-- A loop goes through a linked context of this name, or one inside does. -/
inductive Uses (contexts : Contexts n) (start : Loop n) : Loop n → String → Prop
  | start {name : String} : name ∈ serviceNames contexts start → Uses contexts start start name
  | nested {loop : Loop n} {name inside : String} {linked : LinkedContext n} {inner : Fin n} :
    Uses contexts start loop name → linkedContext contexts loop name = some linked →
    linked.context = some inner → inside ∈ serviceNames contexts (inner, none) →
    Uses contexts start (inner, none) inside

/-- Some linked context reached from the services in use has `requireVpc`. -/
def Requires (contexts : Contexts n) (start : Loop n) : Prop :=
  ∃ loop name linked, Uses contexts start loop name ∧
    linkedContext contexts loop name = some linked ∧ linked.requireVpc = some true

/-- The linked context of a name requires the VPC, or one inside it does. -/
def NeedsVpc (contexts : Contexts n) (loop : Loop n) (name : String) : Prop :=
  ∃ linked, linkedContext contexts loop name = some linked ∧
    (linked.requireVpc = some true ∨
      ∃ inner, linked.context = some inner ∧ Requires contexts (inner, none))

/-- A name that two of the records gone through have in common comes after all
that needs the VPC in both, and no name is one that every object has. -/
structure KeepsRequirements (contexts : Contexts n) (start : Loop n) : Prop where
  plain : ∀ loop name, Uses contexts start loop name → name ∉ objectPrototypeNames
  shared : ∀ loop other name, loop ≠ other → Uses contexts start loop name →
    Uses contexts start other name → ∀ before after,
    serviceNames contexts loop = before ++ name :: after →
    ∀ later ∈ name :: after, ¬ NeedsVpc contexts loop later

end Ez4.Project.LinkedVpc
