import Mathlib.Logic.Basic

/-! # Properties of an object literal

An object made by a literal answers the names of `Object.prototype` too, with
functions and a prototype of its own. -/
namespace Ez4.Utils

def objectPrototypeNames : List String :=
  ["constructor", "hasOwnProperty", "isPrototypeOf", "propertyIsEnumerable", "toLocaleString",
    "toString", "valueOf", "__proto__", "__defineGetter__", "__defineSetter__", "__lookupGetter__",
    "__lookupSetter__"]

/-- What `record[name]` finds. -/
inductive Property (α : Type)
  | own (value : α)
  | inherited
  | absent

/-- `record[name]` -/
def property {α : Type} (record : String → Option α) (name : String) : Property α :=
  match record name with
  | some value => .own value
  | none => if objectPrototypeNames.contains name then .inherited else .absent

end Ez4.Utils
