import Ez4.Utils.Value
import Mathlib.Data.List.MinMax
import Mathlib.Data.Prod.Lex
import Mathlib.Order.Lex

/-! # The routes of the local gateway

`getMatchingRoute` (`utils/route.ts`): every pattern of the request's method,
and every `ANY` pattern after them, is matched with the path, and the most
specific match so far is kept. `D` is what a route carries besides its pattern,
`E` what a request carries besides its method and path. -/
namespace Ez4.Gateway.Route
open Ez4.Utils

/-- Ordered by precedence, from the least. -/
inductive SegmentType
  | greedy
  | parameter
  | literal
deriving DecidableEq, Repr

namespace SegmentType

/-- The value of the enumeration. -/
def precedence : SegmentType → Nat
  | greedy => 0
  | parameter => 1
  | literal => 2

theorem precedence_injective : Function.Injective precedence := by
  intro a b h
  cases a <;> cases b <;> first | rfl | exact absurd h (by decide)

instance : LinearOrder SegmentType := LinearOrder.lift' precedence precedence_injective

theorem lt_iff {a b : SegmentType} : a < b ↔ a.precedence < b.precedence := Iff.rfl

end SegmentType

abbrev Parameters := List (String × String)

structure RoutePathMatch where
  parameters : Parameters
  segments : List SegmentType
  greedy : Bool
deriving DecidableEq, Repr

/-- `EmulatorRequestEvent` -/
structure Request (E : Type) where
  method : String
  path : String
  rest : E
deriving DecidableEq, Repr

structure MatchingRoute (D E : Type) where
  route : D
  request : Request E
  parameters : Parameters
deriving DecidableEq, Repr

/-- The patterns of each method, in the order they are enumerated. -/
abbrev Routes (D : Type) := List (String × List (String × D))

variable {D E : Type}

/-! ## Parts of a path -/

/-- `text.split('/').filter((part) => !!part)` -/
def partsOf (text : String) : List String :=
  ((text.toList.splitOn '/').map String.ofList).filter (· ≠ "")

/-- `parts.join('/')` -/
def join : List String → String
  | [] => ""
  | [part] => part
  | part :: rest => part ++ "/" ++ join rest

def startsWith (text : String) (c : Char) : Bool := text.toList.head? == some c

def endsWith (text : String) (c : Char) : Bool := text.toList.getLast? == some c

/-- `text.slice(1, -1)` -/
def sliceBraces (text : String) : String := String.ofList text.toList.tail.dropLast

/-- `text.slice(0, -1)` -/
def dropEnd (text : String) : String := String.ofList text.toList.dropLast

/-- `parameters[name] = value`, which sets no property of the name `__proto__`. -/
def setParameter (parameters : Parameters) (name value : String) : Parameters :=
  if name = "__proto__" then parameters else assign parameters name value

/-! ## Matching a pattern -/

/-- The loop of `matchRoutePath` from one position on, with what it has so far. -/
def matchParts (parameters : Parameters) (segments : List SegmentType) :
    List String → List String → Option RoutePathMatch
  | [], [] => some ⟨parameters, segments, false⟩
  -- `patternParts.length !== pathParts.length`
  | [], _ :: _ => none
  -- `pathPart === undefined`
  | _ :: _, [] => none
  | patternPart :: patternParts, pathPart :: pathParts =>
    if !startsWith patternPart '{' || !endsWith patternPart '}' then
      if patternPart ≠ pathPart then none
      else matchParts parameters (segments ++ [.literal]) patternParts pathParts
    else
      let parameterName := sliceBraces patternPart
      if endsWith parameterName '+' then
        some ⟨setParameter parameters (dropEnd parameterName) (join (pathPart :: pathParts)),
          segments ++ [.greedy], true⟩
      else
        matchParts (setParameter parameters parameterName pathPart) (segments ++ [.parameter])
          patternParts pathParts

def matchRoutePath (pattern path : String) : Option RoutePathMatch :=
  matchParts [] [] (partsOf pattern) (partsOf path)

/-! ## Choosing a route -/

/-- The loop over the segments of both. -/
def firstDifference : List SegmentType → List SegmentType → Bool
  | a :: segments, b :: current =>
    if a ≠ b then b.precedence < a.precedence else firstDifference segments current
  | _, _ => false

def isMoreSpecific (m current : RoutePathMatch) : Bool :=
  if m.greedy ≠ current.greedy then !m.greedy else firstDifference m.segments current.segments

/-- `bestRoute` and `bestMatch` after one more pattern. -/
def visitPattern (path : String) (best : Option (D × RoutePathMatch)) (entry : String × D) :
    Option (D × RoutePathMatch) :=
  match matchRoutePath entry.1 path with
  | none => best
  | some m =>
    match best with
    | none => some (entry.2, m)
    | some (bestRoute, bestMatch) =>
      if isMoreSpecific m bestMatch then some (entry.2, m) else some (bestRoute, bestMatch)

/-- `routes[method] ?? {}` -/
def methodRoutes (routes : Routes D) (method : String) : List (String × D) :=
  (find routes method).getD []

def getMatchingRoute (routes : Routes D) (request : Request E) : Option (MatchingRoute D E) :=
  let best := [request.method, "ANY"].foldl
    (fun best method => (methodRoutes routes method).foldl (visitPattern request.path) best) none
  best.map fun (bestRoute, bestMatch) => ⟨bestRoute, request, bestMatch.parameters⟩

end Ez4.Gateway.Route
