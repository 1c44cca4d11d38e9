import Mathlib.Data.Fintype.Order
import Ez4.Dynamo.WhereReading

/-! # Filters that keep their meaning

What is prepared of a tree of filters means the conjunction of its fields, when
no `NOT` is empty, no operand is undefined, no field has both operators and
nested fields, and the schema that is found for a nested list has elements when
its own has. -/
namespace Ez4.Dynamo
open Ez4.Utils Ez4.Schema Ez4.PgSql Library Library.Lexing Library.Precedence Library.Markers

/-! ## What is prepared -/

/-- The operations mean the parts, one by one. -/
structure MadeOf (prepared : Prepared) (parts : List (Operation × Condition)) : Prop where
  operations : prepared.operations = parts.map fun part => part.1.1
  values : prepared.values = parts.flatMap fun part => part.1.2
  means : ∀ part ∈ parts, OperationMeans part.1 part.2

theorem MadeOf.append {p q : Prepared} {a b : List (Operation × Condition)} (hp : MadeOf p a)
    (hq : MadeOf q b) : MadeOf (p.append q) (a ++ b) where
  operations := by rw [Prepared.append, hp.operations, hq.operations, List.map_append]
  values := by rw [Prepared.append, hp.values, hq.values, List.flatMap_append]
  means part hpart := (List.mem_append.mp hpart).elim (hp.means part) (hq.means part)

theorem MadeOf.empty_iff {p : Prepared} {parts : List (Operation × Condition)}
    (h : MadeOf p parts) : p.operations = [] ↔ parts = [] := by
  rw [h.operations, List.map_eq_nil_iff]

/-- The operations mean the conjunction of the conditions, and there are some
when there are conditions. -/
structure PreparedMeans (prepared : Prepared) (conditions : List Condition) : Prop where
  made : ∃ parts, MadeOf prepared parts ∧
    ∀ {L : Type} [Lattice L] [BoundedOrder L] (neg : L → L) (w : Test → L),
      evalAll neg w (parts.map Prod.snd) = evalAll neg w conditions
  empty_iff : prepared.operations = [] ↔ conditions = []

/-- The same for the disjunction of the conjunctions that are not empty. -/
structure AlternativesMeant (prepared : Prepared) (lists : List (List Condition)) : Prop where
  made : ∃ parts, MadeOf prepared parts ∧
    ∀ {L : Type} [Lattice L] [BoundedOrder L] (neg : L → L) (w : Test → L),
      evalAny neg w (parts.map Prod.snd) =
        evalAny neg w ((lists.filter fun conditions => !conditions.isEmpty).map .conj)
  empty_iff : prepared.operations = [] ↔ lists.filter (fun conditions => !conditions.isEmpty) = []

section
variable {p q : Prepared} {a b : List Condition} {operation : Operation} {condition : Condition}

theorem OperationMeans.congr {other : Condition} (h : OperationMeans operation condition)
    (heq : ∀ {L : Type} [Lattice L] [BoundedOrder L] (neg : L → L) (w : Test → L),
      other.eval neg w = condition.eval neg w) : OperationMeans operation other := by
  intro literals L _ _ neg v hv
  have hchain := h literals neg v hv
  rwa [worth, ← heq] at hchain

theorem MadeOf.nil : MadeOf {} [] := ⟨rfl, rfl, by simp⟩

theorem MadeOf.single (h : OperationMeans operation condition) :
    MadeOf { operations := [operation.1], values := operation.2 } [(operation, condition)] :=
  ⟨rfl, by simp, by simpa using h⟩

theorem PreparedMeans.nil : PreparedMeans {} [] := ⟨⟨[], .nil, fun _ _ => rfl⟩, by simp⟩

theorem PreparedMeans.single (h : OperationMeans operation condition) :
    PreparedMeans { operations := [operation.1], values := operation.2 } [condition] :=
  ⟨⟨_, .single h, fun _ _ => rfl⟩, by simp⟩

theorem PreparedMeans.append (hp : PreparedMeans p a) (hq : PreparedMeans q b) :
    PreparedMeans (p.append q) (a ++ b) := by
  obtain ⟨parts, hparts, hsame⟩ := hp.made
  obtain ⟨parts', hparts', hsame'⟩ := hq.made
  refine ⟨⟨parts ++ parts', hparts.append hparts', fun neg w => ?_⟩, ?_⟩
  · rw [List.map_append, evalAll_append, evalAll_append, hsame, hsame']
  · rw [Prepared.append, List.append_eq_nil_iff, List.append_eq_nil_iff, hp.empty_iff, hq.empty_iff]

/-- What is prepared twice means the same. -/
theorem PreparedMeans.twice (hp : PreparedMeans p a) (hq : PreparedMeans q a) :
    PreparedMeans (p.append q) a := by
  obtain ⟨⟨parts, hparts, hsame⟩, hempty⟩ := hp.append hq
  refine ⟨⟨parts, hparts, fun neg w => ?_⟩, by rw [hempty, List.append_eq_nil_iff, and_self]⟩
  rw [hsame, evalAll_append, inf_idem]

theorem AlternativesMeant.nil : AlternativesMeant {} [] := ⟨⟨[], .nil, fun _ _ => rfl⟩, by simp⟩

theorem AlternativesMeant.append {lists lists' : List (List Condition)}
    (hp : AlternativesMeant p lists) (hq : AlternativesMeant q lists') :
    AlternativesMeant (p.append q) (lists ++ lists') := by
  obtain ⟨parts, hparts, hsame⟩ := hp.made
  obtain ⟨parts', hparts', hsame'⟩ := hq.made
  refine ⟨⟨parts ++ parts', hparts.append hparts', fun neg w => ?_⟩, ?_⟩
  · rw [List.map_append, evalAny_append, hsame, hsame', List.filter_append, List.map_append,
      evalAny_append]
  · rw [Prepared.append, List.filter_append, List.append_eq_nil_iff, List.append_eq_nil_iff,
      hp.empty_iff, hq.empty_iff]

/-! ## Joining what is prepared -/

/-- The part of a text that an operation is. -/
def partOf (literals : Literals Value) {L : Type} [Lattice L] [BoundedOrder L] (neg : L → L)
    (v : List Tree → L) (part : Operation × Condition) : Markers.Part L :=
  ⟨part.1.1.toList, part.1.2.map literals.lexeme, worth literals neg v part.2⟩

theorem MadeOf.chains {parts : List (Operation × Condition)} (h : MadeOf p parts)
    (literals : Literals Value) {L : Type} [Lattice L] [BoundedOrder L] (neg : L → L)
    {v : List Tree → L} (hv : ReadsConstants v) :
    ∀ part ∈ parts.map (partOf literals neg v), IsChain neg v part := by
  intro part hpart
  obtain ⟨made, hmade, rfl⟩ := List.mem_map.mp hpart
  exact h.means made hmade literals neg v hv

theorem MadeOf.joined_parts {parts : List (Operation × Condition)} (h : MadeOf p parts)
    (literals : Literals Value) {L : Type} [Lattice L] [BoundedOrder L] (neg : L → L)
    (v : List Tree → L) (separator : String) (value : List L → L) :
    joined separator.toList value (parts.map (partOf literals neg v)) =
      ⟨(separator.intercalate p.operations).toList, p.values.map literals.lexeme,
        value (parts.map fun part => worth literals neg v part.2)⟩ := by
  rw [joined, h.operations, h.values, String.toList_intercalate, List.map_map, List.map_map,
    List.map_map, List.flatMap_map, List.map_flatMap]
  rfl

/-- **The operations joined with `AND`** mean the conjunction. -/
theorem PreparedMeans.conjunction (h : PreparedMeans p a) (hne : a ≠ []) :
    OperationMeans (conjunction p.operations, p.values) (.conj a) := by
  obtain ⟨parts, hparts, hsame⟩ := h.made
  intro literals L _ _ neg v hv
  have hne' : parts ≠ [] := fun hnil => hne (h.empty_iff.mp (hparts.empty_iff.mpr hnil))
  have hchain := isChain_and (by simpa using hne') (hparts.chains literals neg hv)
  rw [hparts.joined_parts literals neg v] at hchain
  have hvalue : infAll (parts.map fun part => worth literals neg v part.2) =
      worth literals neg v (.conj a) := by
    rw [worth, Formula.eval, ← hsame, evalAll_eq, List.map_map]
    rfl
  rwa [hvalue] at hchain

/-- The text of the only operation, or of all of them. -/
theorem inner_eq_conjunction {operations : List String} (hne : operations ≠ []) :
    (if operations.length > 1 then Dynamo.conjunction operations
      else operations.head?.getD "undefined") = Dynamo.conjunction operations := by
  rcases operations with - | ⟨operation, - | ⟨next, rest⟩⟩
  · exact absurd rfl hne
  · simp [Dynamo.conjunction]
  · exact if_pos (by simp)

theorem PreparedMeans.negated (h : PreparedMeans p a) (hne : a ≠ []) :
    PreparedMeans p.negated [.neg (.conj a)] := by
  have hoperations : p.operations ≠ [] := fun hnil => hne (h.empty_iff.mp hnil)
  have hmeans : OperationMeans ("NOT (" ++ Dynamo.conjunction p.operations ++ ")", p.values)
      (.neg (.conj a)) := by
    intro literals L _ _ neg v hv
    have hunit := (h.conjunction hne literals neg v hv).negated
    rw [String.toList_append, String.toList_append, List.append_assoc]
    exact hunit.chain
  have hnegated : p.negated =
      { operations := ["NOT (" ++ Dynamo.conjunction p.operations ++ ")"], values := p.values } := by
    rw [Prepared.negated, inner_eq_conjunction hoperations]
  rw [hnegated]
  exact .single hmeans

theorem OperationMeans.group (h : OperationMeans operation condition) :
    OperationMeans ("(" ++ operation.1 ++ ")", operation.2) condition := by
  intro literals L _ _ neg v hv
  have hunit := (h literals neg v hv).group
  rw [String.toList_append, String.toList_append, List.append_assoc]
  exact hunit.chain

/-- An item of `OR` stands as one operation. -/
theorem PreparedMeans.item (h : PreparedMeans p a) : AlternativesMeant (p.item true) [a] := by
  obtain ⟨operations, values⟩ := p
  by_cases hne : a = []
  · subst hne
    obtain rfl : operations = [] := h.empty_iff.mpr rfl
    obtain ⟨parts, hparts, -⟩ := h.made
    obtain rfl := hparts.empty_iff.mp rfl
    exact ⟨⟨[], hparts, fun _ _ => rfl⟩, iff_of_true rfl rfl⟩
  · have hconjunction := h.conjunction hne
    have hfilter : [a].filter (fun conditions => !conditions.isEmpty) = [a] := by simpa using hne
    have hone : ∀ text, OperationMeans (text, values) (.conj a) →
        AlternativesMeant { operations := [text], values } [a] := fun text htext =>
      ⟨⟨_, .single htext, fun _ _ => by rw [hfilter]; rfl⟩, by simp [hne]⟩
    rcases operations with - | ⟨operation, - | ⟨next, rest⟩⟩
    · exact absurd (h.empty_iff.mp rfl) hne
    · rw [Dynamo.conjunction, String.intercalate_singleton] at hconjunction
      exact hone operation hconjunction
    · exact hone _ hconjunction.group

/-- **The operations joined with `OR`** mean the disjunction. -/
theorem AlternativesMeant.group {lists : List (List Condition)} (h : AlternativesMeant p lists) :
    PreparedMeans (p.group true) (alternatives lists) := by
  obtain ⟨operations, values⟩ := p
  obtain ⟨parts, hparts, hsame⟩ := h.made
  have hempty := h.empty_iff
  rw [alternatives]
  generalize lists.filter (fun conditions => !conditions.isEmpty) = items at hempty hsame
  have hoperations := hparts.operations
  have hvalues := hparts.values
  dsimp only at hoperations hvalues
  cases items with
  | nil =>
    obtain rfl : operations = [] := hempty.mpr rfl
    obtain rfl := hparts.empty_iff.mp rfl
    exact ⟨⟨[], hparts, fun _ _ => rfl⟩, iff_of_true rfl rfl⟩
  | cons first items =>
    rcases parts with - | ⟨part, - | ⟨next, parts⟩⟩
    · cases hempty.mp hoperations
    · -- a group of one is left as it is
      have heq : ∀ {L : Type} [Lattice L] [BoundedOrder L] (neg : L → L) (w : Test → L),
          (Formula.disj ((first :: items).map .conj)).eval neg w = part.2.eval neg w :=
        fun neg w => (hsame neg w).symm.trans (sup_bot_eq _)
      have hsingle := PreparedMeans.single ((hparts.means part (by simp)).congr heq)
      rw [hoperations, hvalues]
      simpa [Prepared.group] using hsingle
    · have hmeans : OperationMeans ("(" ++ " OR ".intercalate operations ++ ")", values)
          (.disj ((first :: items).map .conj)) := by
        intro literals L _ _ neg v hv
        have hunit := isUnit_or (by simp) (hparts.chains literals neg hv)
        rw [hparts.joined_parts literals neg v] at hunit
        have hvalue : supAll (((part :: next :: parts).map (partOf literals neg v)).map
            Markers.Part.value) =
            worth literals neg v (.disj ((first :: items).map .conj)) := by
          rw [worth, Formula.eval, ← hsame, evalAny_eq, List.map_map, List.map_map]
          rfl
        rw [hvalue] at hunit
        rw [String.toList_append, String.toList_append, List.append_assoc]
        exact hunit.chain
      have hgroup : Prepared.group true { operations, values } =
          { operations := ["(" ++ " OR ".intercalate operations ++ ")"], values } := by
        simp [Prepared.group, hoperations]
      rw [hgroup]
      exact .single hmeans

end

/-! ## Entries of a field -/

theorem prepareOperation_of_not_mem {operator : String} (h : operator ∉ operatorNames)
    (value : Value) (schema : Option AnySchema) (path : String) :
    prepareOperation operator value schema path = .ok none := by
  unfold prepareOperation
  split
  all_goals first | rfl | exact absurd (by decide) h

section
variable {deepEqual : AnySchema → AnySchema → Bool} {found own : Option AnySchema} {path : String}
  {names : List String} {nested : Except WhereError Prepared}

theorem means_operators (hpath : PathReads path names) {fields : Fields}
    (h : ∀ entry ∈ fields, operatorNames.contains entry.1 = true ∧
      keepsOperator found own entry.1 entry.2 = true) :
    ∃ prepared, prepareEntries found path nested fields = .ok prepared ∧
      PreparedMeans prepared (entriesMeaning deepEqual own names fields) := by
  induction fields with
  | nil => exact ⟨_, rfl, .nil⟩
  | cons entry rest ih =>
    obtain ⟨operator, value⟩ := entry
    obtain ⟨hoperator, hkeeps⟩ := h _ List.mem_cons_self
    obtain ⟨prepared, hrest, hmeans⟩ := ih fun e he => h e (List.mem_cons_of_mem _ he)
    obtain ⟨operation, hoperation, hone⟩ :=
      means_operator hpath (List.contains_iff_mem.mp hoperator) hkeeps
    have hdefined : value.isUndefined = false := by
      cases value with
      | undefined => simp [keepsOperator] at hkeeps
      | _ => rfl
    refine ⟨_, by rw [prepareEntries, hoperation, hrest]; rfl, ?_⟩
    rw [entriesMeaning, if_pos hoperator, hdefined, if_neg Bool.false_ne_true]
    exact (PreparedMeans.single hone).append hmeans

/-- Fields without operators have all of them prepared for each of them. -/
theorem means_repeated {conditions : List Condition} {prepared : Prepared}
    (hnested : nested = .ok prepared) (hmeans : PreparedMeans prepared conditions)
    {fields : Fields} (hne : fields ≠ []) (h : ∀ entry ∈ fields, operatorNames.contains entry.1 = false) :
    ∃ prepared, prepareEntries found path nested fields = .ok prepared ∧
      PreparedMeans prepared conditions := by
  subst hnested
  induction fields with
  | nil => exact absurd rfl hne
  | cons entry rest ih =>
    obtain ⟨key, value⟩ := entry
    have hkey : key ∉ operatorNames := fun hmem => by
      have := h _ List.mem_cons_self
      rw [List.contains_iff_mem.mpr hmem] at this
      cases this
    have hoperation := prepareOperation_of_not_mem hkey value found path
    by_cases hrest : rest = []
    · subst hrest
      refine ⟨_, by rw [prepareEntries, hoperation]; rfl, ?_⟩
      have happend := hmeans.append .nil
      rwa [List.append_nil] at happend
    · obtain ⟨others, hothers, hmeans'⟩ := ih hrest fun e he => h e (List.mem_cons_of_mem _ he)
      exact ⟨_, by rw [prepareEntries, hoperation, hothers]; rfl, hmeans.twice hmeans'⟩

/-- Entries that are no operators are fields. -/
theorem entriesMeaning_of_fields {fields : Fields}
    (h : ∀ entry ∈ fields, operatorNames.contains entry.1 = false) :
    entriesMeaning deepEqual own names fields = fieldsMeaning deepEqual own names fields := by
  induction fields with
  | nil => rw [entriesMeaning, fieldsMeaning]
  | cons entry rest ih =>
    obtain ⟨key, value⟩ := entry
    have hkey : operatorNames.contains key = false := h _ List.mem_cons_self
    rw [entriesMeaning, fieldsMeaning, hkey, if_neg Bool.false_ne_true,
      ih fun e he => h e (List.mem_cons_of_mem _ he)]

end

/-! ## Trees of filters -/

/-- The text of a path, when there is one, reads as the names. -/
def PathIs (path : Option String) (names : List String) : Prop :=
  (path = none ∧ names = []) ∨ ∃ text, path = some text ∧ PathReads text names

section
variable {deepEqual : AnySchema → AnySchema → Bool} {root own : Option AnySchema}
  {path : Option String} {names : List String} {fieldName : String}

theorem not_group (h : (!isGroupName fieldName) = true) :
    fieldName ≠ "NOT" ∧ ¬ (fieldName = "AND" ∨ fieldName = "OR") := by
  simp only [isGroupName, Bool.not_eq_true', Bool.or_eq_false_iff, decide_eq_false_iff_not] at h
  exact ⟨h.1.1, not_or.mpr ⟨h.1.2, h.2⟩⟩

/-- A field that is no object, by the operator that stands for it. -/
theorem means_value (hpath : PathIs path names) (hname : isQuotable fieldName = true)
    {operator : String} {value : Value} (hoperator : operatorNames.contains operator = true)
    (hkeeps : ∀ found, keepsOperator found none operator value = true) :
    ∃ prepared, prepareValue deepEqual root path fieldName (operator, value) = .ok prepared ∧
      PreparedMeans prepared [operatorMeaning none (names ++ [fieldName]) operator value] := by
  have hentry : ∀ found, ∀ entry ∈ [(operator, value)], operatorNames.contains entry.1 = true ∧
      keepsOperator found none entry.1 entry.2 = true := by
    intro found entry he
    obtain rfl := List.mem_singleton.mp he
    exact ⟨hoperator, hkeeps found⟩
  obtain ⟨prepared, hrun, hmeans⟩ := @means_operators deepEqual _ none _ _ (.ok {})
    (pathReads_fieldPath hpath hname) _ (hentry (propertyOf deepEqual root fieldName))
  have hdefined : value.isUndefined = false := by
    cases value with
    | undefined => simpa [keepsOperator] using hkeeps none
    | _ => rfl
  refine ⟨prepared, hrun, ?_⟩
  rwa [entriesMeaning, if_pos hoperator, hdefined, if_neg Bool.false_ne_true, entriesMeaning]
    at hmeans

mutual

theorem means_fields (fields : List (String × Value)) (root own : Option AnySchema)
    (path : Option String) (names : List String) (hpath : PathIs path names)
    (h : keepsFields deepEqual root own names fields = true) :
    ∃ prepared, prepareFields deepEqual root path fields = .ok prepared ∧
      PreparedMeans prepared (fieldsMeaning deepEqual own names fields) := by
  match fields with
  | [] => exact ⟨_, by rw [prepareFields]; rfl, by rw [fieldsMeaning]; exact .nil⟩
  | (fieldName, value) :: rest =>
    rw [keepsFields, Bool.and_eq_true] at h
    obtain ⟨prepared, hrun, hmeans⟩ := means_field fieldName value root own path names hpath h.1
    obtain ⟨others, hothers, hmeans'⟩ := means_fields rest root own path names hpath h.2
    refine ⟨_, by rw [prepareFields, hrun, hothers]; rfl, ?_⟩
    rw [fieldsMeaning]
    exact hmeans.append hmeans'

theorem means_field (fieldName : String) (value : Value) (root own : Option AnySchema)
    (path : Option String) (names : List String) (hpath : PathIs path names)
    (h : keepsField deepEqual root own names fieldName value = true) :
    ∃ prepared, prepareField deepEqual root path fieldName value = .ok prepared ∧
      PreparedMeans prepared (fieldMeaning deepEqual own names fieldName value) := by
  match value with
  | .undefined => exact ⟨_, by rw [prepareField], by rw [fieldMeaning]; exact .nil⟩
  | .obj fields =>
    rw [keepsField] at h
    rw [prepareField, fieldMeaning]
    by_cases hnot : fieldName = "NOT"
    · rw [if_pos hnot, Bool.and_eq_true] at h
      rw [if_pos hnot, if_pos hnot]
      obtain ⟨prepared, hrun, hmeans⟩ := means_fields fields root own path names hpath h.2
      rw [hrun]
      have hne : fieldsMeaning deepEqual own names fields ≠ [] := by simpa using h.1
      generalize fieldsMeaning deepEqual own names fields = conditions at hmeans hne
      refine ⟨_, rfl, ?_⟩
      cases conditions with
      | nil => exact absurd rfl hne
      | cons condition conditions => exact hmeans.negated hne
    · rw [if_neg hnot] at h
      simp only [Bool.and_eq_true] at h
      obtain ⟨⟨hgroup, hname⟩, hentries⟩ := h
      rw [if_neg hnot, if_neg hnot, if_neg (not_group hgroup).2]
      have hfield := pathReads_fieldPath hpath hname
      rcases Bool.or_eq_true_iff.mp hentries with hoperators | hfields
      · refine means_operators hfield fun entry he => ?_
        exact Bool.and_eq_true_iff.mp (List.all_eq_true.mp hoperators entry he)
      · rw [Bool.and_eq_true] at hfields
        have hkeys : ∀ entry ∈ fields, operatorNames.contains entry.1 = false := fun entry he => by
          simpa using List.all_eq_true.mp hfields.1 entry he
        obtain ⟨prepared, hrun, hmeans⟩ := means_fields fields root
          (propertyOf deepEqual own fieldName) (some (fieldPath path fieldName))
          (names ++ [fieldName]) (.inr ⟨_, rfl, hfield⟩) hfields.2
        rw [entriesMeaning_of_fields hkeys]
        by_cases hne : fields = []
        · subst hne
          exact ⟨_, rfl, by rw [fieldsMeaning]; exact .nil⟩
        · exact means_repeated hrun hmeans hne hkeys
  | .arr items =>
    rw [keepsField] at h
    rw [prepareField, fieldMeaning]
    by_cases hand : fieldName = "AND"
    · subst hand
      rw [if_pos (.inl rfl)] at h
      rw [if_neg (by decide), if_pos (.inl rfl), if_pos rfl]
      obtain ⟨prepared, hrun, hmeans⟩ := means_conjuncts items root own path names hpath h
      have hisOr : decide ("AND" = "OR") = false := rfl
      rw [hisOr, hrun]
      exact ⟨_, rfl, hmeans⟩
    · by_cases hor : fieldName = "OR"
      · subst hor
        rw [if_pos (.inr rfl)] at h
        rw [if_neg (by decide), if_pos (.inr rfl), if_neg (by decide), if_pos rfl]
        obtain ⟨prepared, hrun, hmeans⟩ := means_disjuncts items root own path names hpath h
        have hisOr : decide ("OR" = "OR") = true := rfl
        rw [hisOr, hrun]
        exact ⟨_, rfl, hmeans.group⟩
      · have hlogical : ¬ (fieldName = "AND" ∨ fieldName = "OR") := not_or.mpr ⟨hand, hor⟩
        rw [if_neg hlogical, Bool.and_eq_true, decide_eq_true_iff] at h
        rw [if_neg h.1, if_neg hlogical, if_neg hand, if_neg hor]
        exact means_value hpath h.2 (by decide) fun _ => rfl
  | .null =>
    rw [keepsField, Bool.and_eq_true] at h
    · rw [prepareField, if_neg (not_group h.1).1, if_neg (not_group h.1).2, fieldMeaning]
      exact means_value hpath h.2 (by decide) fun _ => rfl
    all_goals nofun
  | .bool _ | .num _ | .str _ =>
    rw [keepsField, Bool.and_eq_true] at h
    · rw [prepareField, if_neg (not_group h.1).1, if_neg (not_group h.1).2, fieldMeaning]
      · exact means_value hpath h.2 (by decide) fun _ => rfl
      all_goals nofun
    all_goals nofun

theorem means_conjuncts (items : List Value) (root own : Option AnySchema)
    (path : Option String) (names : List String) (hpath : PathIs path names)
    (h : keepsItems deepEqual root own names items = true) :
    ∃ prepared, prepareItems deepEqual root path false items = .ok prepared ∧
      PreparedMeans prepared (itemsMeaning deepEqual own names items).flatten := by
  match items with
  | [] => exact ⟨_, by rw [prepareItems]; rfl, by rw [itemsMeaning]; exact .nil⟩
  | .obj fields :: rest =>
    rw [keepsItems, Bool.and_eq_true] at h
    obtain ⟨prepared, hrun, hmeans⟩ := means_fields fields root own path names hpath h.1
    obtain ⟨others, hothers, hmeans'⟩ := means_conjuncts rest root own path names hpath h.2
    refine ⟨_, by rw [prepareItems, hrun, hothers]; rfl, ?_⟩
    rw [itemsMeaning, List.flatten_cons]
    exact hmeans.append hmeans'
  | .undefined :: rest =>
    rw [keepsItems] at h
    rw [prepareItems, itemsMeaning]
    · exact means_conjuncts rest root own path names hpath h
    all_goals nofun

theorem means_disjuncts (items : List Value) (root own : Option AnySchema)
    (path : Option String) (names : List String) (hpath : PathIs path names)
    (h : keepsItems deepEqual root own names items = true) :
    ∃ prepared, prepareItems deepEqual root path true items = .ok prepared ∧
      AlternativesMeant prepared (itemsMeaning deepEqual own names items) := by
  match items with
  | [] => exact ⟨_, by rw [prepareItems]; rfl, by rw [itemsMeaning]; exact .nil⟩
  | .obj fields :: rest =>
    rw [keepsItems, Bool.and_eq_true] at h
    obtain ⟨prepared, hrun, hmeans⟩ := means_fields fields root own path names hpath h.1
    obtain ⟨others, hothers, hmeans'⟩ := means_disjuncts rest root own path names hpath h.2
    refine ⟨_, by rw [prepareItems, hrun, hothers]; rfl, ?_⟩
    rw [itemsMeaning]
    exact hmeans.item.append hmeans'
  | .undefined :: rest =>
    rw [keepsItems] at h
    rw [prepareItems, itemsMeaning]
    · exact means_disjuncts rest root own path names hpath h
    all_goals nofun

end

end

/-! ## The text of a condition -/

/-- Some values of the trees that read the constants. -/
def constantsOnly : List Tree → Bool
  | [_, _, .leaf (.word ['1'])] => true
  | _ => false

theorem readsConstants : ReadsConstants constantsOnly := ⟨rfl, rfl⟩

theorem OperationMeans.readsAs {operation : Operation} {condition : Condition}
    (h : OperationMeans operation condition) : ReadsAs operation.1 operation.2 condition where
  markers := by
    let literals : Literals Value := ⟨fun _ => .symbol '*', fun _ => rfl, fun _ => rfl⟩
    have hread := (h literals not constantsOnly readsConstants).read.1
    simpa using hread
  reads literals := by
    obtain ⟨-, ts, hts, -⟩ := (h literals not constantsOnly readsConstants).read
    refine ⟨ts, hts, fun neg v hv => ?_⟩
    obtain ⟨-, ts', hts', hvalue⟩ := (h literals neg v hv).read
    obtain rfl := Option.some.inj (hts.symm.trans hts')
    exact hvalue

/-- **A filter keeps its meaning** when no `NOT` in it is empty, its operators
have operands, no field mixes operators with fields, and the schema that is
found for a field with a list has elements when its own has. -/
theorem keepsMeaning_of_keepsFields (deepEqual : AnySchema → AnySchema → Bool)
    (schema : ObjectSchema) (where_ : Fields)
    (h : keepsFields deepEqual (some (.object schema)) (some (.object schema)) [] where_ = true) :
    KeepsMeaning deepEqual schema where_ := by
  obtain ⟨prepared, hrun, hmeans⟩ := means_fields where_ (some (.object schema))
    (some (.object schema)) none [] (.inl ⟨rfl, rfl⟩) h
  refine ⟨conjunction prepared.operations, prepared.values, by rw [prepareWhereFields, hrun]; rfl, ?_⟩
  generalize fieldsMeaning deepEqual (some (.object schema)) [] where_ = conditions at hmeans
  cases conditions with
  | nil =>
    have hoperations := hmeans.empty_iff.mpr rfl
    obtain ⟨parts, hparts, -⟩ := hmeans.made
    obtain rfl := hparts.empty_iff.mp hoperations
    exact ⟨by rw [hoperations]; rfl, hparts.values⟩
  | cons condition conditions => exact (hmeans.conjunction (by simp)).readsAs

/-! ## Samples -/

namespace Sample

/-- A list of texts in an object, and a list at the top. -/
def schema : ObjectSchema :=
  .mk {} none {} [("id", .string {}), ("price", .number {}), ("tags", .array {} {} (.string {})),
    ("meta", .object (.mk {} none {} [("labels", .array {} {} (.string {}))] none))] none

def texts (items : List String) : Value := .arr (items.map .str)

/-- The list of labels is tested by a schema that the table has not. -/
def nestedList : Fields := [("meta", .obj [("labels", .obj [("contains", texts ["a", "b"])])])]

theorem nestedList_forgotten : ¬ KeepsMeaning (fun _ _ => false) schema nestedList := by
  rintro ⟨text, values, hrun, hreads⟩
  have hrun' : prepareWhereFields (fun _ _ => false) nestedList schema = .ok ("1 = 1", []) := rfl
  obtain ⟨rfl, rfl⟩ := Prod.mk.inj (Except.ok.inj (hrun'.symm.trans hrun))
  let literals : Literals Value := ⟨fun _ => .symbol '*', fun _ => rfl, fun _ => rfl⟩
  obtain ⟨ts, hts, hvalue⟩ := hreads.reads literals
  have hts' : filledTrees "1 = 1".toList [] =
      some [wordTree "1", symbolTree '=', wordTree "1"] := by rfl
  obtain rfl := Option.some.inj (hts'.symm.trans hts)
  have hboth := hvalue not constantsOnly readsConstants
  revert hboth
  decide

/-- Operators, lists, nested fields and groups in groups. -/
def groups : Fields :=
  [("id", .str "a"), ("price", .obj [("gte", .num (.finite 1)), ("lt", .num (.finite 9))]),
    ("tags", .obj [("isIn", .arr [texts ["a", "b"], texts ["c"]])]),
    ("OR", .arr [.obj [("id", .null), ("price", .num (.finite 2))], .obj [],
      .obj [("AND", .arr [.obj [("meta", .obj [("labels", .obj [("contains", .str "c")])])]])]]),
    ("NOT", .obj [("tags", .obj [("contains", texts ["a", "b"])]), ("price", .undefined)])]

theorem groups_keepMeaning : KeepsMeaning (fun _ _ => false) schema groups :=
  keepsMeaning_of_keepsFields (fun _ _ => false) schema groups rfl

end Sample

end Ez4.Dynamo
