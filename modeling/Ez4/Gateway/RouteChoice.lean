import Ez4.Gateway.Route
import Ez4.Library.Argmax
import Mathlib.Data.List.Lex
import Mathlib.Data.List.Pairwise

/-! # The route that is chosen

A pattern is a list of segments, up to the first greedy one. What it matches,
what its parameters are and when it is more specific than another one are said
on segments, and `getMatchingRoute` keeps the most specific pattern that
matches, whatever the order of the declarations. -/
namespace Ez4.Gateway.Route
open Ez4.Utils Ez4.Library

/-- What a part of a pattern stands for. -/
inductive Segment
  | literal (text : String)
  | parameter (name : String)
  | greedy (name : String)
deriving DecidableEq, Repr

abbrev Pattern := List Segment

def segmentOf (part : String) : Segment :=
  if !startsWith part '{' || !endsWith part '}' then .literal part
  else if endsWith (sliceBraces part) '+' then .greedy (dropEnd (sliceBraces part))
  else .parameter (sliceBraces part)

def patternOf (pattern : String) : Pattern := (partsOf pattern).map segmentOf

namespace Pattern

/-- The pattern matches the parts of a path. A greedy segment takes one part at
least, and all that are left. -/
inductive Matches : Pattern → List String → Prop
  | done : Matches [] []
  | literal {text : String} {pattern : Pattern} {parts : List String} :
    Matches pattern parts → Matches (.literal text :: pattern) (text :: parts)
  | parameter {name part : String} {pattern : Pattern} {parts : List String} :
    Matches pattern parts → Matches (.parameter name :: pattern) (part :: parts)
  | greedy {name part : String} {pattern : Pattern} {parts : List String} :
    Matches (.greedy name :: pattern) (part :: parts)

/-- A greedy segment ends the route. -/
def kinds : Pattern → List SegmentType
  | [] => []
  | .literal _ :: rest => .literal :: kinds rest
  | .parameter _ :: rest => .parameter :: kinds rest
  | .greedy _ :: _ => [.greedy]

def isGreedy : Pattern → Bool
  | [] => false
  | .literal _ :: rest => isGreedy rest
  | .parameter _ :: rest => isGreedy rest
  | .greedy _ :: _ => true

def names : Pattern → List String
  | [] => []
  | .literal _ :: rest => names rest
  | .parameter name :: rest => name :: names rest
  | .greedy name :: _ => [name]

/-- The pattern without the names of its parameters: the kind of each segment,
with the text of a literal one. -/
def unnamed : Pattern → List (SegmentType × String)
  | [] => []
  | .literal text :: rest => (.literal, text) :: unnamed rest
  | .parameter _ :: rest => (.parameter, "") :: unnamed rest
  | .greedy _ :: _ => [(.greedy, "")]

/-- The parameters after a match, in the order they are set. -/
def bind (parameters : Parameters) : Pattern → List String → Parameters
  | .literal _ :: rest, _ :: parts => bind parameters rest parts
  | .parameter name :: rest, part :: parts => bind (setParameter parameters name part) rest parts
  | .greedy name :: _, parts => setParameter parameters name (join parts)
  | _, _ => parameters

/-- The parameters put back into the pattern. -/
def restore (parameters : Parameters) : Pattern → List String
  | [] => []
  | .literal text :: rest => text :: restore parameters rest
  | .parameter name :: rest => (find parameters name).getD "" :: restore parameters rest
  | .greedy name :: _ => [(find parameters name).getD ""]

/-- A full match wins over a greedy one, and then the better segment at the
first place where the two differ. -/
def MoreSpecific (p q : Pattern) : Prop :=
  (p.isGreedy = false ∧ q.isGreedy = true) ∨
    p.isGreedy = q.isGreedy ∧ ∃ common a b rest rest',
      p.kinds = common ++ a :: rest ∧ q.kinds = common ++ b :: rest' ∧ b < a

variable {p q : Pattern} {parts : List String}

/-! ## The parameters -/

theorem find_bind {parameters : Parameters} {name : String} (h : name ∉ p.names) :
    find (bind parameters p parts) name = find parameters name := by
  have hset : ∀ parameters other value, name ≠ other →
      find (setParameter parameters other value) name = find parameters name := by
    intro parameters other value hne
    unfold setParameter
    split
    · rfl
    · rw [find_assign, if_neg (Ne.symm hne)]
  induction p generalizing parameters parts with
  | nil => rfl
  | cons segment rest ih =>
    cases segment <;> cases parts
    all_goals simp only [names, List.mem_cons, not_or] at h
    case literal.nil => rfl
    case literal.cons => exact ih h
    case parameter.nil => rfl
    case parameter.cons => rw [bind, ih h.2, hset _ _ _ h.1]
    case greedy.nil => exact hset _ _ _ h.1
    case greedy.cons => exact hset _ _ _ h.1

theorem find_setParameter {parameters : Parameters} {name value : String} (h : name ≠ "__proto__") :
    find (setParameter parameters name value) name = some value := by
  rw [setParameter, if_neg h, find_assign, if_pos rfl]

theorem join_cons_congr {part : String} {l l' : List String} (h : join l = join l')
    (hnil : l = [] ↔ l' = []) : join (part :: l) = join (part :: l') := by
  cases l <;> cases l'
  · rfl
  · exact absurd (hnil.mp rfl) (by simp)
  · exact absurd (hnil.mpr rfl) (by simp)
  · exact congrArg (part ++ "/" ++ ·) h

theorem restore_eq_nil (h : p.Matches parts) (parameters : Parameters) :
    restore parameters p = [] ↔ parts = [] := by
  cases h <;> simp [restore]

/-- Parameters of distinct names, put back into the pattern, give the path. -/
theorem join_restore (h : p.Matches parts) (hn : p.names.Nodup) (hp : "__proto__" ∉ p.names)
    (parameters : Parameters) : join (restore (bind parameters p parts) p) = join parts := by
  induction h generalizing parameters with
  | done => rfl
  | literal h ih => exact join_cons_congr (ih hn hp parameters) (restore_eq_nil h _)
  | @parameter name part pattern parts h ih =>
    rw [names, List.nodup_cons] at hn
    rw [names, List.mem_cons, not_or] at hp
    rw [bind, restore, find_bind hn.1, find_setParameter (Ne.symm hp.1)]
    exact join_cons_congr (ih hn.2 hp.2 _) (restore_eq_nil h _)
  | greedy =>
    rw [names, List.mem_singleton] at hp
    rw [bind, restore, find_setParameter (Ne.symm hp)]
    rfl

/-! ## Two patterns that match one path -/

/-- None is a proper beginning of the other. -/
theorem kinds_eq_of_prefix (hp : p.Matches parts) (hq : q.Matches parts)
    (hg : p.isGreedy = q.isGreedy) (h : p.kinds <+: q.kinds) : p.kinds = q.kinds := by
  induction hp generalizing q with
  | done =>
    cases hq
    rfl
  | literal hp ih =>
    cases hq <;> simp only [kinds, List.cons_prefix_cons, reduceCtorEq, false_and] at h
    case literal hq => exact congrArg (SegmentType.literal :: ·) (ih hq hg h.2)
  | parameter hp ih =>
    cases hq <;> simp only [kinds, List.cons_prefix_cons, reduceCtorEq, false_and] at h
    case parameter hq => exact congrArg (SegmentType.parameter :: ·) (ih hq hg h.2)
  | greedy =>
    cases hq <;> simp only [kinds, List.cons_prefix_cons, reduceCtorEq, false_and] at h
    case greedy => rfl

theorem unnamed_eq_of_kinds (hp : p.Matches parts) (hq : q.Matches parts)
    (h : p.kinds = q.kinds) : p.unnamed = q.unnamed := by
  induction hp generalizing q with
  | done =>
    cases hq
    rfl
  | literal hp ih =>
    cases hq <;> simp only [kinds, List.cons.injEq, reduceCtorEq, false_and, true_and] at h
    case literal hq => exact congrArg ((SegmentType.literal, _) :: ·) (ih hq h)
  | parameter hp ih =>
    cases hq <;> simp only [kinds, List.cons.injEq, reduceCtorEq, false_and, true_and] at h
    case parameter hq => exact congrArg ((SegmentType.parameter, "") :: ·) (ih hq h)
  | greedy =>
    cases hq <;> simp only [kinds, List.cons.injEq, reduceCtorEq, false_and] at h
    case greedy => rfl

end Pattern

/-! ## What the code computes, on segments -/

/-- The match of a pattern, with its parameters and segments. -/
def matchOf (pattern : Pattern) (parts : List String) : RoutePathMatch :=
  ⟨Pattern.bind [] pattern parts, pattern.kinds, pattern.isGreedy⟩

theorem matchParts_of_matches {patternParts parts : List String}
    (h : Pattern.Matches (patternParts.map segmentOf) parts) (parameters : Parameters)
    (segments : List SegmentType) :
    matchParts parameters segments patternParts parts =
      some ⟨Pattern.bind parameters (patternParts.map segmentOf) parts,
        segments ++ Pattern.kinds (patternParts.map segmentOf),
        Pattern.isGreedy (patternParts.map segmentOf)⟩ := by
  induction patternParts generalizing parts parameters segments with
  | nil =>
    cases h
    simp [matchParts, Pattern.bind, Pattern.kinds, Pattern.isGreedy]
  | cons patternPart patternParts ih =>
    rw [List.map_cons] at h ⊢
    by_cases hbraces : (!startsWith patternPart '{' || !endsWith patternPart '}') = true
    · rw [segmentOf, if_pos hbraces] at h ⊢
      cases h with
      | literal h =>
        rw [matchParts, if_pos hbraces, if_neg (by simp), ih h]
        simp [Pattern.bind, Pattern.kinds, Pattern.isGreedy]
    · rw [segmentOf, if_neg hbraces] at h ⊢
      by_cases hplus : endsWith (sliceBraces patternPart) '+' = true
      · rw [if_pos hplus] at h ⊢
        generalize hname : dropEnd (sliceBraces patternPart) = name at h ⊢
        cases h with
        | greedy =>
          rw [matchParts, if_neg hbraces, if_pos hplus, hname]
          rfl
      · rw [if_neg hplus] at h ⊢
        cases h with
        | parameter h =>
          rw [matchParts, if_neg hbraces, if_neg hplus, ih h]
          simp [Pattern.bind, Pattern.kinds, Pattern.isGreedy]

theorem matches_of_matchParts {patternParts parts : List String} {parameters : Parameters}
    {segments : List SegmentType} {m : RoutePathMatch}
    (h : matchParts parameters segments patternParts parts = some m) :
    Pattern.Matches (patternParts.map segmentOf) parts := by
  induction patternParts generalizing parts parameters segments with
  | nil =>
    cases parts with
    | nil => exact .done
    | cons part parts => exact absurd h (by simp [matchParts])
  | cons patternPart patternParts ih =>
    cases parts with
    | nil => exact absurd h (by simp [matchParts])
    | cons part parts =>
      rw [List.map_cons, segmentOf]
      rw [matchParts] at h
      by_cases hbraces : (!startsWith patternPart '{' || !endsWith patternPart '}') = true
      · rw [if_pos hbraces] at h ⊢
        by_cases hpart : patternPart = part
        · rw [if_neg (not_not.mpr hpart)] at h
          exact hpart ▸ .literal (ih h)
        · rw [if_pos hpart] at h
          exact absurd h (by simp)
      · rw [if_neg hbraces] at h ⊢
        by_cases hplus : endsWith (sliceBraces patternPart) '+' = true
        · rw [if_pos hplus]
          generalize dropEnd (sliceBraces patternPart) = name
          exact .greedy
        · rw [if_neg hplus] at h ⊢
          exact .parameter (ih h)

theorem matchRoutePath_eq_some_iff {pattern path : String} {m : RoutePathMatch} :
    matchRoutePath pattern path = some m ↔
      (patternOf pattern).Matches (partsOf path) ∧ m = matchOf (patternOf pattern) (partsOf path) := by
  constructor
  · intro h
    have hm := matches_of_matchParts h
    rw [matchRoutePath, matchParts_of_matches hm] at h
    exact ⟨hm, (Option.some.inj h).symm⟩
  · rintro ⟨hm, rfl⟩
    exact matchParts_of_matches hm [] []

theorem firstDifference_iff {as bs : List SegmentType} :
    firstDifference as bs = true ↔ ∃ common a b rest rest',
      as = common ++ a :: rest ∧ bs = common ++ b :: rest' ∧ b < a := by
  induction as generalizing bs with
  | nil => simp [firstDifference]
  | cons a as ih =>
    cases bs with
    | nil => simp [firstDifference]
    | cons b bs =>
      rw [firstDifference]
      by_cases hab : a = b
      · rw [if_neg (not_not.mpr hab), ih, hab]
        constructor
        · rintro ⟨common, x, y, rest, rest', rfl, rfl, hlt⟩
          exact ⟨b :: common, x, y, rest, rest', rfl, rfl, hlt⟩
        · rintro ⟨common, x, y, rest, rest', has, hbs, hlt⟩
          cases common with
          | nil =>
            rw [List.nil_append, List.cons.injEq] at has hbs
            exact absurd (has.1.symm.trans hbs.1) hlt.ne'
          | cons c common =>
            rw [List.cons_append, List.cons.injEq] at has hbs
            exact ⟨common, x, y, rest, rest', has.2, hbs.2, hlt⟩
      · rw [if_pos hab, decide_eq_true_iff]
        constructor
        · intro hlt
          exact ⟨[], a, b, as, bs, rfl, rfl, hlt⟩
        · rintro ⟨common, x, y, rest, rest', has, hbs, hlt⟩
          cases common with
          | nil =>
            rw [List.nil_append, List.cons.injEq] at has hbs
            rw [has.1, hbs.1]
            exact hlt
          | cons c common =>
            rw [List.cons_append, List.cons.injEq] at has hbs
            exact absurd (has.1.trans hbs.1.symm) hab

theorem isMoreSpecific_iff {p q : Pattern} {parts : List String} :
    isMoreSpecific (matchOf p parts) (matchOf q parts) = true ↔ p.MoreSpecific q := by
  unfold isMoreSpecific Pattern.MoreSpecific matchOf
  by_cases hg : p.isGreedy = q.isGreedy
  · rw [if_neg (not_not.mpr hg), firstDifference_iff]
    constructor
    · intro h
      exact .inr ⟨hg, h⟩
    · rintro (⟨hp, hq⟩ | ⟨-, h⟩)
      · exact absurd (hp.symm.trans (hg.trans hq)) (by simp)
      · exact h
  · rw [if_pos hg]
    cases hp : p.isGreedy <;> cases hq : q.isGreedy <;> simp_all

/-! ## Matches of one path in order -/

/-- The place of a match among those of one path. -/
def specificity (m : RoutePathMatch) : Bool ×ₗ List SegmentType := toLex (!m.greedy, m.segments)

theorem lt_iff_firstDifference {as bs : List SegmentType} (h : bs <+: as → bs = as) :
    bs < as ↔ firstDifference as bs = true := by
  induction as generalizing bs with
  | nil => simp [firstDifference]
  | cons a as ih =>
    cases bs with
    | nil => exact absurd (h List.nil_prefix) (by simp)
    | cons b bs =>
      rw [firstDifference, List.cons_lt_cons_iff]
      by_cases hab : a = b
      · rw [if_neg (not_not.mpr hab), ← ih fun hbs => ?_]
        · simp [hab]
        · exact (List.cons.inj (h (by rw [hab]; exact List.cons_prefix_cons.mpr ⟨rfl, hbs⟩))).2
      · rw [if_pos hab, decide_eq_true_iff]
        simp [Ne.symm hab, SegmentType.lt_iff]

theorem specificity_lt_iff {p q : Pattern} {parts : List String} (hp : p.Matches parts)
    (hq : q.Matches parts) :
    specificity (matchOf q parts) < specificity (matchOf p parts) ↔ p.MoreSpecific q := by
  rw [← @isMoreSpecific_iff p q parts, specificity, specificity, Prod.Lex.toLex_lt_toLex]
  unfold isMoreSpecific matchOf
  by_cases hg : p.isGreedy = q.isGreedy
  · have hprefix : q.kinds <+: p.kinds → q.kinds = p.kinds :=
      Pattern.kinds_eq_of_prefix hq hp hg.symm
    rw [if_neg (not_not.mpr hg), ← lt_iff_firstDifference hprefix]
    simp [hg]
  · rw [if_pos hg]
    cases hp : p.isGreedy <;> cases hq : q.isGreedy <;> simp_all

theorem unnamed_eq_of_specificity {p q : Pattern} {parts : List String} (hp : p.Matches parts)
    (hq : q.Matches parts)
    (h : specificity (matchOf p parts) = specificity (matchOf q parts)) : p.unnamed = q.unnamed := by
  have hkinds : p.kinds = q.kinds := congrArg (fun s => (ofLex s).2) h
  exact Pattern.unnamed_eq_of_kinds hp hq hkinds

/-! ## The loop over the patterns -/

/-- The routes whose pattern matches, with their matches. -/
def candidates (path : String) (entries : List (String × D)) : List (D × RoutePathMatch) :=
  entries.filterMap fun entry => (matchRoutePath entry.1 path).map (entry.2, ·)

theorem mem_candidates {path : String} {entries : List (String × D)} {c : D × RoutePathMatch} :
    c ∈ candidates path entries ↔ ∃ pattern, (pattern, c.1) ∈ entries ∧
      (patternOf pattern).Matches (partsOf path) ∧
        c.2 = matchOf (patternOf pattern) (partsOf path) := by
  simp only [candidates, List.mem_filterMap, Option.map_eq_some_iff, matchRoutePath_eq_some_iff]
  constructor
  · rintro ⟨⟨pattern, route⟩, hmem, m, ⟨hm, rfl⟩, rfl⟩
    exact ⟨pattern, hmem, hm, rfl⟩
  · rintro ⟨pattern, hmem, hm, hc⟩
    exact ⟨(pattern, c.1), hmem, _, ⟨hm, rfl⟩, by rw [← hc]⟩

/-- What is kept over a list of patterns is the first of the best. -/
theorem foldl_visitPattern {path : String} {entries : List (String × D)}
    {best : Option (D × RoutePathMatch)}
    (hbest : ∀ c ∈ best, ∃ pattern : Pattern, pattern.Matches (partsOf path) ∧
      c.2 = matchOf pattern (partsOf path)) :
    entries.foldl (visitPattern path) best =
      (candidates path entries).foldl
        (List.argAux fun b c => specificity c.2 < specificity b.2) best := by
  induction entries generalizing best with
  | nil => rfl
  | cons entry entries ih =>
    rw [List.foldl_cons, candidates, List.filterMap_cons]
    cases hm : matchRoutePath entry.1 path with
    | none =>
      have hvisit : visitPattern path best entry = best := by rw [visitPattern, hm]
      rw [hvisit]
      exact ih hbest
    | some m =>
      obtain ⟨hmatches, rfl⟩ := matchRoutePath_eq_some_iff.mp hm
      have hvisit : visitPattern path best entry =
          List.argAux (fun b c => specificity c.2 < specificity b.2) best
            (entry.2, matchOf (patternOf entry.1) (partsOf path)) := by
        rw [visitPattern, hm]
        cases best with
        | none => rfl
        | some c =>
          obtain ⟨pattern, hpattern, hc⟩ := hbest c rfl
          obtain ⟨route, current⟩ := c
          obtain rfl := hc
          exact if_congr (isMoreSpecific_iff.trans (specificity_lt_iff hmatches hpattern).symm)
            rfl rfl
      rw [Option.map_some, List.foldl_cons, ← hvisit]
      refine ih fun c hc => ?_
      rw [hvisit, List.argAux] at hc
      cases best with
      | none => exact ⟨_, hmatches, by rw [← Option.some.inj hc]⟩
      | some b =>
        dsimp only at hc
        split at hc
        · exact ⟨_, hmatches, by rw [← Option.some.inj hc]⟩
        · exact Option.some.inj hc ▸ hbest b rfl

/-- The routes that may take a request: those of its method, then the `ANY` ones. -/
theorem getMatchingRoute_eq (routes : Routes D) (request : Request E) :
    getMatchingRoute routes request =
      (List.argmax (fun c => specificity c.2)
        (candidates request.path (methodRoutes routes request.method) ++
          candidates request.path (methodRoutes routes "ANY"))).map
        fun c => ⟨c.1, request, c.2.parameters⟩ := by
  have happend : candidates request.path (methodRoutes routes request.method) ++
      candidates request.path (methodRoutes routes "ANY") =
      candidates request.path (methodRoutes routes request.method ++ methodRoutes routes "ANY") :=
    List.filterMap_append.symm
  rw [getMatchingRoute, List.argmax, happend, ← foldl_visitPattern (fun c hc => absurd hc (Option.not_mem_none c)),
    List.foldl_append]
  rfl

/-! ## The choice -/

/-- No two patterns of a method are the same but for the names of their parameters. -/
def Distinct (routes : Routes D) : Prop :=
  ∀ method, (methodRoutes routes method).Pairwise fun entry other =>
    (patternOf entry.1).unnamed ≠ (patternOf other.1).unnamed

def Reordered (routes routes' : Routes D) : Prop :=
  ∀ method, (methodRoutes routes method).Perm (methodRoutes routes' method)

/-- The result is the route of a pattern that matches, and none that matches is better. -/
structure Chosen (routes : Routes D) (request : Request E) (result : MatchingRoute D E)
    (method pattern : String) : Prop where
  ofMethod : method = request.method ∨ method = "ANY"
  declared : (pattern, result.route) ∈ methodRoutes routes method
  isMatch : (patternOf pattern).Matches (partsOf request.path)
  ofRequest : result.request = request
  mostSpecific : ∀ other, other = request.method ∨ other = "ANY" →
    ∀ entry ∈ methodRoutes routes other, (patternOf entry.1).Matches (partsOf request.path) →
      ¬ (patternOf entry.1).MoreSpecific (patternOf pattern)
  /-- An `ANY` route is chosen only over less specific ones of the method. -/
  methodFirst : method ≠ request.method →
    ∀ entry ∈ methodRoutes routes request.method,
      (patternOf entry.1).Matches (partsOf request.path) →
        (patternOf pattern).MoreSpecific (patternOf entry.1)
  restored : (patternOf pattern).names.Nodup → "__proto__" ∉ (patternOf pattern).names →
    join ((patternOf pattern).restore result.parameters) = join (partsOf request.path)

variable {routes routes' : Routes D} {request : Request E}

theorem getMatchingRoute_eq_none_iff : getMatchingRoute routes request = none ↔
    ∀ method, method = request.method ∨ method = "ANY" →
      ∀ entry ∈ methodRoutes routes method,
        ¬ (patternOf entry.1).Matches (partsOf request.path) := by
  have hnil : ∀ method, candidates request.path (methodRoutes routes method) = [] ↔
      ∀ entry ∈ methodRoutes routes method,
        ¬ (patternOf entry.1).Matches (partsOf request.path) := by
    intro method
    rw [List.eq_nil_iff_forall_not_mem]
    constructor
    · intro h entry hmem hm
      exact h (entry.2, matchOf (patternOf entry.1) (partsOf request.path))
        (mem_candidates.mpr ⟨entry.1, hmem, hm, rfl⟩)
    · intro h c hc
      obtain ⟨pattern, hmem, hm, -⟩ := mem_candidates.mp hc
      exact h (pattern, c.1) hmem hm
  rw [getMatchingRoute_eq, Option.map_eq_none_iff, List.argmax_eq_none, List.append_eq_nil_iff,
    hnil, hnil]
  simp only [forall_eq_or_imp, forall_eq]

theorem getMatchingRoute_chosen {result : MatchingRoute D E}
    (h : getMatchingRoute routes request = some result) :
    ∃ method pattern, Chosen routes request result method pattern := by
  classical
  rw [getMatchingRoute_eq, Option.map_eq_some_iff] at h
  obtain ⟨c, hc, rfl⟩ := h
  have hmost : ∀ other, other = request.method ∨ other = "ANY" →
      ∀ entry ∈ methodRoutes routes other, (patternOf entry.1).Matches (partsOf request.path) →
        specificity (matchOf (patternOf entry.1) (partsOf request.path)) ≤ specificity c.2 := by
    intro other hother entry hmem hm
    have hentry : (entry.2, matchOf (patternOf entry.1) (partsOf request.path)) ∈
        candidates request.path (methodRoutes routes other) :=
      mem_candidates.mpr ⟨entry.1, hmem, hm, rfl⟩
    have hboth : (entry.2, matchOf (patternOf entry.1) (partsOf request.path)) ∈
        candidates request.path (methodRoutes routes request.method) ++
          candidates request.path (methodRoutes routes "ANY") := by
      rcases hother with rfl | rfl
      · exact List.mem_append_left _ hentry
      · exact List.mem_append_right _ hentry
    exact List.le_of_mem_argmax (f := fun c : D × RoutePathMatch => specificity c.2) hboth hc
  by_cases hmethod : c ∈ candidates request.path (methodRoutes routes request.method)
  · obtain ⟨pattern, hmem, hm, hmatch⟩ := mem_candidates.mp hmethod
    refine ⟨request.method, pattern, .inl rfl, hmem, hm, rfl, ?_, fun hne => absurd rfl hne, ?_⟩
    · intro other hother entry hentry hmatches
      rw [← specificity_lt_iff hmatches hm, ← hmatch]
      exact not_lt.mpr (hmost other hother entry hentry hmatches)
    · intro hn hp
      rw [hmatch]
      exact Pattern.join_restore hm hn hp []
  · have hany := (List.mem_append.mp (List.argmax_mem hc)).resolve_left hmethod
    obtain ⟨pattern, hmem, hm, hmatch⟩ := mem_candidates.mp hany
    refine ⟨"ANY", pattern, .inr rfl, hmem, hm, rfl, ?_, ?_, ?_⟩
    · intro other hother entry hentry hmatches
      rw [← specificity_lt_iff hmatches hm, ← hmatch]
      exact not_lt.mpr (hmost other hother entry hentry hmatches)
    · intro _ entry hentry hmatches
      have hmem : (entry.2, matchOf (patternOf entry.1) (partsOf request.path)) ∈
          candidates request.path (methodRoutes routes request.method) :=
        mem_candidates.mpr ⟨entry.1, hentry, hmatches, rfl⟩
      rw [← specificity_lt_iff hm hmatches, ← hmatch]
      exact lt_of_not_ge fun hle => hmethod (Argmax.mem_left hc hmem hle)
    · intro hn hp
      rw [hmatch]
      exact Pattern.join_restore hm hn hp []

/-- Two routes of one method that match equally well are one. -/
theorem eq_of_specificity (hd : Distinct routes) {method : String} {c c' : D × RoutePathMatch}
    (hc : c ∈ candidates request.path (methodRoutes routes method))
    (hc' : c' ∈ candidates request.path (methodRoutes routes method))
    (h : specificity c.2 = specificity c'.2) : c = c' := by
  obtain ⟨pattern, hmem, hm, hmatch⟩ := mem_candidates.mp hc
  obtain ⟨pattern', hmem', hm', hmatch'⟩ := mem_candidates.mp hc'
  have hunnamed : (patternOf pattern).unnamed = (patternOf pattern').unnamed :=
    unnamed_eq_of_specificity hm hm' (hmatch ▸ hmatch' ▸ h)
  have hentry : (pattern, c.1) = (pattern', c'.1) := by
    by_contra hne
    have : Std.Symm fun entry other : String × D =>
        (patternOf entry.1).unnamed ≠ (patternOf other.1).unnamed := ⟨fun _ _ => Ne.symm⟩
    exact (hd method).forall hmem hmem' hne hunnamed
  obtain ⟨rfl, hroute⟩ := Prod.mk.inj hentry
  exact Prod.ext hroute (hmatch.trans hmatch'.symm)

theorem getMatchingRoute_reordered (hd : Distinct routes) (h : Reordered routes routes') :
    getMatchingRoute routes' request = getMatchingRoute routes request := by
  classical
  have hperm : ∀ method, (candidates request.path (methodRoutes routes method)).Perm
      (candidates request.path (methodRoutes routes' method)) :=
    fun method => (h method).filterMap _
  rw [getMatchingRoute_eq, getMatchingRoute_eq]
  exact congrArg _ (Argmax.eq_of_perm (fun c hc c' hc' => eq_of_specificity hd hc hc')
    (fun c hc c' hc' => eq_of_specificity hd hc hc') (hperm _) (hperm _)).symm

/-- **The most specific route takes the request**, whatever the order of the declarations. -/
theorem getMatchingRoute_spec (routes : Routes D) (hd : Distinct routes) (request : Request E) :
    (getMatchingRoute routes request = none ↔
      ∀ method, method = request.method ∨ method = "ANY" →
        ∀ entry ∈ methodRoutes routes method,
          ¬ (patternOf entry.1).Matches (partsOf request.path)) ∧
    (∀ result, getMatchingRoute routes request = some result →
      ∃ method pattern, Chosen routes request result method pattern) ∧
    ∀ routes', Reordered routes routes' →
      getMatchingRoute routes' request = getMatchingRoute routes request :=
  ⟨getMatchingRoute_eq_none_iff, fun _ h => getMatchingRoute_chosen h,
    fun _ h => getMatchingRoute_reordered hd h⟩

namespace Sample

def pets : Routes Nat :=
  [("ANY", [("/{proxy+}", 0)]),
    ("GET", [("/pets/{proxy+}", 1), ("/pets/dog/{id}", 2), ("/pets/dog/1", 3)])]

theorem pets_distinct : Distinct pets := by
  intro method
  by_cases hany : method = "ANY"
  · subst hany
    decide
  · by_cases hget : method = "GET"
    · subst hget
      decide
    · have hnone : methodRoutes pets method = [] := by
        simp [methodRoutes, pets, find_cons, Ne.symm hany, Ne.symm hget]
      rw [hnone]
      exact .nil

/-- The last of the declared routes takes its path, also when it is declared first. -/
theorem pets_chosen : (getMatchingRoute pets ⟨"GET", "/pets/dog/1", ()⟩).map (·.route) = some 3 ∧
    ∀ routes', Reordered pets routes' → getMatchingRoute routes' ⟨"GET", "/pets/dog/1", ()⟩ =
      getMatchingRoute pets ⟨"GET", "/pets/dog/1", ()⟩ :=
  ⟨by decide, (getMatchingRoute_spec pets pets_distinct ⟨"GET", "/pets/dog/1", ()⟩).2.2⟩

/-- Of two parameters of one name the last value is kept, and of two patterns
that differ after a greedy parameter the first one is. -/
theorem not_restored_nor_reordered :
    (getMatchingRoute [("GET", [("/{id}/{id}", 0)])] ⟨"GET", "/1/2", ()⟩ =
        some ⟨0, ⟨"GET", "/1/2", ()⟩, [("id", "2")]⟩ ∧
      join ((patternOf "/{id}/{id}").restore [("id", "2")]) ≠ join (partsOf "/1/2")) ∧
    (getMatchingRoute [("GET", [("/{a+}/x", 0), ("/{b+}/y", 1)])] ⟨"GET", "/1", ()⟩).map
        (·.route) = some 0 ∧
    (getMatchingRoute [("GET", [("/{b+}/y", 1), ("/{a+}/x", 0)])] ⟨"GET", "/1", ()⟩).map
        (·.route) = some 1 := by
  decide

end Sample

end Ez4.Gateway.Route
