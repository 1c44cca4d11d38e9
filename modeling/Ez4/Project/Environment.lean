import Ez4.Library.KeyedMap
import Ez4.Library.Machine
import Ez4.Utils.Prototype

/-! # The environment of an invocation

`process.env` as the proxy of `watchProcessVariables` answers it, with the
scopes of any number of nested and concurrent `runWithVariables`. The warnings
of `reportHiddenVariable` are left out: no reading depends on them. -/
namespace Ez4.Project.Environment
open Ez4.Library Ez4.Utils

/-! ## Objects of texts -/

/-- The own properties of an object whose values are texts. -/
abbrev Variables := KeyedMap (Prod.fst : String × String → String)

/-- What a property reads as, with the functions and the prototype every object inherits. -/
inductive Value
  | text (text : String)
  | member (name : String)
deriving DecidableEq, Repr

namespace Variables

variable (v : Variables) (name : String)

def own : Option String := (v.get? name).map Prod.snd

/-- `name in v` -/
def isIn : Bool := v.has name || objectPrototypeNames.contains name

/-- `v[name]` -/
def read : Option Value :=
  match v.own name with
  | some text => some (.text text)
  | none => if objectPrototypeNames.contains name then some (.member name) else none

/-- `v[name] = text` on a plain object, whose `__proto__` only takes objects. -/
def assign (text : String) : Variables := if name = "__proto__" then v else v.set (name, text)

end Variables

/-! ## Settings -/

structure Settings where
  strict : Bool := false
  allowed : List String := []
deriving DecidableEq, Repr

inductive NamePattern
  | startsWith (text : String)
  | is (text : String)
deriving DecidableEq, Repr

def NamePattern.test (name : String) : NamePattern → Bool
  | .startsWith text => text.toList.isPrefixOf name.toList
  | .is text => name == text

def runtimeVariables : List NamePattern :=
  [.startsWith "AWS_", .startsWith "LAMBDA_", .is "_HANDLER", .startsWith "NODE_", .is "TZ",
    .is "LANG", .startsWith "LC_", .is "PATH", .is "HOME", .is "TMPDIR", .is "PWD"]

def isVisibleVariable (settings : Settings) (name : String) : Bool :=
  if !settings.strict then true
  else settings.allowed.contains name || runtimeVariables.any (·.test name)

/-! ## Scopes -/

structure Scope where
  /-- The scope `runWithVariables` was called in, which the code does not keep. -/
  parent : Option Nat
  scopeVariables : Variables
deriving DecidableEq

/-- The real environment and the scopes, in the order they were started. -/
structure Process where
  target : Variables
  scopes : List Scope := []
deriving DecidableEq

structure Descriptor where
  value : Value
  configurable : Bool := true
  enumerable : Bool := true
  writable : Bool := true
deriving DecidableEq, Repr

def getDefinedVariables (linked : Variables) : Variables :=
  linked.values.foldl
    (fun defined entry => if entry.2 ≠ "" then defined.assign entry.1 entry.2 else defined) ∅

namespace Process

variable (settings : Settings) (s : Process) (caller : Option Nat) (name : String)

/-- `variablesScope.getStore()?.scopeVariables` -/
def store : Option Variables := caller.bind fun id => (s.scopes[id]?).map Scope.scopeVariables

def runWithVariables (linked : Variables) : Process :=
  { s with scopes := s.scopes ++ [{
      parent := caller
      scopeVariables := ((s.store caller).getD ∅).spread (getDefinedVariables linked) }] }

def setVariables (id : Nat) (scopeVariables : Variables) : Process :=
  { s with scopes := s.scopes.modify id ({ · with scopeVariables }) }

def set (text : String) : Process :=
  match caller, s.store caller with
  | some id, some scopeVariables =>
    if scopeVariables.isIn name then s.setVariables id (scopeVariables.assign name text)
    else { s with target := s.target.set (name, text) }
  | _, _ => { s with target := s.target.set (name, text) }

def deleteProperty : Process :=
  match caller, s.store caller with
  | some id, some scopeVariables =>
    if scopeVariables.isIn name then s.setVariables id (scopeVariables.erase name)
    else { s with target := s.target.erase name }
  | _, _ => { s with target := s.target.erase name }

def get : Option Value :=
  match s.store caller with
  | none => s.target.read name
  | some scopeVariables =>
    if scopeVariables.isIn name then scopeVariables.read name
    else if !isVisibleVariable settings name then none
    else s.target.read name

def has : Bool :=
  match s.store caller with
  | none => s.target.isIn name
  | some scopeVariables =>
    scopeVariables.isIn name || (isVisibleVariable settings name && s.target.isIn name)

def ownKeys : List String :=
  match s.store caller with
  | none => s.target.keys
  | some scopeVariables =>
    (s.target.keys.filter (isVisibleVariable settings) ++ scopeVariables.keys).eraseDups

/-- `Reflect.getOwnPropertyDescriptor(target, name)` -/
def targetDescriptor : Option Descriptor := (s.target.own name).map fun text => { value := .text text }

def getOwnPropertyDescriptor : Option Descriptor :=
  match s.store caller with
  | none => s.targetDescriptor name
  | some scopeVariables =>
    if scopeVariables.isIn name then (scopeVariables.read name).map fun value => { value }
    else if !isVisibleVariable settings name then none
    else s.targetDescriptor name

end Process

/-! ## Runs -/

inductive Operation
  | runWithVariables (linked : Variables)
  | set (name text : String)
  | deleteProperty (name : String)
  | get (name : String)
  | has (name : String)
  | ownKeys
  | getOwnPropertyDescriptor (name : String)
deriving DecidableEq

/-- An operation, and the scope it is made in unless it is outside any callback. -/
structure Event where
  caller : Option Nat
  operation : Operation
deriving DecidableEq

def Process.apply (s : Process) (caller : Option Nat) : Operation → Process
  | .runWithVariables linked => s.runWithVariables caller linked
  | .set name text => s.set caller name text
  | .deleteProperty name => s.deleteProperty caller name
  | .get _ | .has _ | .ownKeys | .getOwnPropertyDescriptor _ => s

/-- The process and what happened, the last event first. -/
structure Emulation where
  process : Process
  past : List Event := []
deriving DecidableEq

def Emulation.step (s : Emulation) (event : Event) : Option Emulation :=
  if ∀ id ∈ event.caller, id < s.process.scopes.length then
    some { process := s.process.apply event.caller event.operation, past := event :: s.past }
  else none

/-- Every order of the operations of the callbacks and of the code outside them. -/
def emulator (target : Variables) : Machine Emulation Event where
  init := { process := { target } }
  step := Emulation.step

/-! ## What an invocation is to see -/

/-- The four ways of reading a variable in a callback say the same. -/
structure Agrees (settings : Settings) (s : Process) (id : Nat) (name : String) : Prop where
  has : s.has settings (some id) name = (s.get settings (some id) name).isSome
  keys : name ∈ s.ownKeys settings (some id) ↔ (s.get settings (some id) name).isSome = true
  descriptor : (s.getOwnPropertyDescriptor settings (some id) name).map Descriptor.value =
    s.get settings (some id) name

/-- The text an event of the callback writes to the variable, or that it deletes it. -/
def Event.tells (event : Event) (id : Nat) (name : String) : Option (Option String) :=
  match event.operation with
  | .set written text => if event.caller = some id ∧ written = name then some (some text) else none
  | .deleteProperty deleted =>
    if event.caller = some id ∧ deleted = name then some none else none
  | _ => none

/-- What the callback last wrote to the variable, and `some none` after deleting it. -/
def said (past : List Event) (id : Nat) (name : String) : Option (Option String) :=
  past.findSome? (·.tells id name)

def Remembers (settings : Settings) (s : Emulation) : Prop :=
  ∀ id name last, said s.past id name = some last →
    s.process.get settings (some id) name = last.map .text

/-- The scope of a callback that runs in another one. -/
inductive IsWithin (s : Process) (outer : Nat) : Nat → Prop
  | same : IsWithin s outer outer
  | nested {inner id : Nat} {scope : Scope} (hscope : s.scopes[inner]? = some scope)
      (hparent : scope.parent = some id) (h : IsWithin s outer id) : IsWithin s outer inner

/-- A caller reads the same before and after. -/
structure ReadsTheSame (settings : Settings) (s t : Process) (caller : Option Nat) : Prop where
  get : ∀ name, t.get settings caller name = s.get settings caller name
  has : ∀ name, t.has settings caller name = s.has settings caller name
  keys : t.ownKeys settings caller = s.ownKeys settings caller
  descriptor : ∀ name, t.getOwnPropertyDescriptor settings caller name =
    s.getOwnPropertyDescriptor settings caller name

def Operation.isChange : Operation → Bool
  | .set _ _ | .deleteProperty _ => true
  | _ => false

/-- What is changed in a callback is seen in no callback outside it, nor outside any. -/
def IsIsolated (settings : Settings) (s : Process) (event : Event) : Prop :=
  ∀ id, event.caller = some id → event.operation.isChange = true →
    ∀ caller, (∀ other, caller = some other → ¬ IsWithin s id other) →
      ReadsTheSame settings s (s.apply event.caller event.operation) caller

end Ez4.Project.Environment
