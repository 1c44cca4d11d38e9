import Ez4.Dynamo.WhereMeaning

/-! # How the operations of a condition read

Each text that `prepareOperation` writes, read with its values in the places of
its markers: it has the value of what its operator tests. -/
namespace Ez4.Dynamo
open Ez4.Utils Ez4.Schema Library Library.Lexing Library.Precedence Library.Markers

/-! ## Paths -/

theorem plain_intercalate {separator : List Tree} {pieces : List (List Tree)}
    (hseparator : ∀ tree ∈ separator, isPlain tree = true)
    (h : ∀ piece ∈ pieces, ∀ tree ∈ piece, isPlain tree = true) :
    ∀ tree ∈ List.intercalate separator pieces, isPlain tree = true := by
  induction pieces with
  | nil => simp [List.intercalate]
  | cons piece pieces ih =>
    have hpiece := h piece List.mem_cons_self
    cases pieces with
    | nil => simpa [List.intercalate] using hpiece
    | cons next pieces =>
      intro tree ht
      rw [intercalate_cons_cons] at ht
      rcases List.mem_append.mp ht with ht | ht
      · exact hpiece tree ht
      · rcases List.mem_append.mp ht with ht | ht
        · exact hseparator tree ht
        · exact ih (fun p hp => h p (List.mem_cons_of_mem _ hp)) tree ht

theorem plain_pathTrees {path : List String} : ∀ tree ∈ pathTrees path, isPlain tree = true := by
  refine plain_intercalate (by simp [isPlain, isKeyword, symbolTree]) fun piece hp => ?_
  obtain ⟨name, -, rfl⟩ := List.mem_map.mp hp
  simp [isPlain, isKeyword, nameTree]

/-- The text of a path reads as the names. -/
structure PathReads (text : String) (path : List String) : Prop where
  nonempty : path ≠ []
  fills : Fills text.toList [] (flattenAll (pathTrees path))

theorem head_pathTrees {path : List String} (hne : path ≠ []) :
    ∃ name rest, pathTrees path = nameTree name :: rest := by
  obtain ⟨name, path, rfl⟩ := List.exists_cons_of_ne_nil hne
  cases path with
  | nil => exact ⟨name, [], by simp [pathTrees, List.intercalate]⟩
  | cons next path =>
    refine ⟨name, [symbolTree '.'] ++ pathTrees (next :: path), ?_⟩
    rw [pathTrees, List.map_cons, List.map_cons, intercalate_cons_cons]
    rfl

theorem fills_name {name : String} (h : isQuotable name = true) :
    Fills ('"' :: (name.toList ++ ['"'])) [] (flattenAll [nameTree name]) := by
  have hmem : '"' ∉ name.toList := by simpa [isQuotable] using h
  have hlexes := @Lexes.quoted '"' rfl name.toList
  rw [doubleQuotes_of_not_mem hmem] at hlexes
  exact .of_lexes hlexes rfl

/-- The path of a field at the top, or under another path. -/
theorem pathReads_fieldPath {path : Option String} {names : List String} {name : String}
    (hpath : (path = none ∧ names = []) ∨ ∃ text, path = some text ∧ PathReads text names)
    (hname : isQuotable name = true) : PathReads (fieldPath path name) (names ++ [name]) := by
  refine ⟨by simp, ?_⟩
  rcases hpath with ⟨rfl, rfl⟩ | ⟨text, rfl, hreads⟩
  · have hfills := fills_name hname
    simpa [fieldPath, pathTrees, List.intercalate] using hfills
  · have hdot : FillsClosed ".".toList [] (flattenAll [symbolTree '.']) :=
      .of_closed (by decide) (by decide)
    have hfills := hreads.fills.append (hdot.append (fills_name hname)) (by simp [Boundary]; decide)
    have htrees : pathTrees (names ++ [name]) =
        pathTrees names ++ ([symbolTree '.'] ++ [nameTree name]) := by
      rw [pathTrees, List.map_append, intercalate_append _ (by simpa using hreads.nonempty) (by simp)]
      simp [pathTrees, List.intercalate]
    rw [htrees, flattenAll_append, flattenAll_append]
    simpa [fieldPath] using hfills

/-! ## Texts that are one test -/

/-- What a condition is worth when its tests have the values of their texts. -/
def worth (literals : Literals Value) {L : Type} [Lattice L] [BoundedOrder L] (neg : L → L)
    (v : List Tree → L) (condition : Condition) : L :=
  condition.eval neg fun test => v (test.trees literals)

/-- The text of the operation, with its values, has the value of the condition. -/
def OperationMeans (operation : Operation) (condition : Condition) : Prop :=
  ∀ (literals : Literals Value) {L : Type} [Lattice L] [BoundedOrder L] (neg : L → L)
    (v : List Tree → L), ReadsConstants v →
      IsChain neg v ⟨operation.1.toList, operation.2.map literals.lexeme,
        worth literals neg v condition⟩

section
variable {literals : Literals Value} {L : Type} [Lattice L] [BoundedOrder L] {neg : L → L}
  {v : List Tree → L} {path : String} {names : List String}

theorem isUnit_of_sealed {text : List Char} {lexemes : List Lexeme} {ts : List Tree}
    (hfills : Fills text lexemes (flattenAll ts)) (hsealed : Sealed ts)
    (hnot : ∀ tree ∈ ts.head?, isKeyword "NOT" tree = false) (hlength : 1 < ts.length) :
    IsUnit neg v ⟨text, lexemes, v ts⟩ := by
  refine ⟨ts, ?_, hfills, .atom hsealed hnot fun inner heq => ?_⟩
  · rintro rfl
    simp at hlength
  · subst heq
    simp at hlength

/-- A path with something after it. -/
theorem isUnit_suffix (hpath : PathReads path names) {suffix : List Char} {lexemes : List Lexeme}
    {rest : List Tree} (hfills : Fills suffix lexemes (flattenAll rest))
    (hboundary : Boundary suffix) (hsealed : Sealed rest) (hne : rest ≠ []) :
    IsUnit neg v ⟨path.toList ++ suffix, lexemes, v (pathTrees names ++ rest)⟩ := by
  have hboth := hpath.fills.append hfills hboundary
  rw [← flattenAll_append, List.nil_append] at hboth
  refine isUnit_of_sealed hboth ((Sealed.of_plain plain_pathTrees).append hsealed) ?_ ?_
  · obtain ⟨name, others, heq⟩ := head_pathTrees hpath.nonempty
    rw [heq]
    rintro tree ⟨⟩
    rfl
  · obtain ⟨name, others, heq⟩ := head_pathTrees hpath.nonempty
    have := List.length_pos_iff.mpr hne
    rw [heq, List.length_append, List.length_cons]
    omega

/-- A function of a path and a value. -/
theorem isUnit_call (hpath : PathReads path names) (function opening : String)
    (hopening : FillsClosed opening.toList [] (flattenAll [wordTree function] ++ [.left]))
    (hplain : isPlain (wordTree function) = true)
    (hpositive : isKeyword "NOT" (wordTree function) = false) (value : Value) :
    IsUnit neg v ⟨(opening ++ path ++ ", ?)").toList, [literals.lexeme value],
      v [wordTree function, .group
        (pathTrees names ++ [symbolTree ',', .leaf (literals.lexeme value)])]⟩ := by
  have hvalue : Fills ", ?".toList [literals.lexeme value]
      (flattenAll [symbolTree ',', .leaf (literals.lexeme value)]) :=
    FillsClosed.fills ⟨[.lexeme (.symbol ','), .lexeme (.symbol '?')], by decide, rfl, rfl⟩
  have hinner := hpath.fills.append hvalue (by decide)
  rw [← flattenAll_append, List.nil_append] at hinner
  have hfills := hinner.wrapped [wordTree function] hopening
  have htext : (opening ++ path ++ ", ?)").toList =
      opening.toList ++ ((path.toList ++ ", ?".toList) ++ [')']) := by
    simp
  rw [htext]
  refine isUnit_of_sealed hfills (.of_plain ?_) ?_ (by simp)
  · exact List.forall_mem_cons.mpr ⟨hplain, by simp [isPlain, isKeyword]⟩
  · rintro tree ⟨⟩
    exact hpositive

/-- `? IN path` -/
theorem isUnit_element (hpath : PathReads path names) (value : Value) :
    IsUnit neg v ⟨("? IN " ++ path).toList, [literals.lexeme value],
      v ([.leaf (literals.lexeme value), wordTree "IN"] ++ pathTrees names)⟩ := by
  have hopening : FillsClosed "? IN ".toList [literals.lexeme value]
      (flattenAll [.leaf (literals.lexeme value), wordTree "IN"]) :=
    ⟨[.lexeme (.symbol '?'), .lexeme (.word "IN".toList)], by decide, rfl, rfl⟩
  have hfills := hopening.append hpath.fills
  rw [← flattenAll_append, List.append_nil] at hfills
  rw [String.toList_append]
  refine isUnit_of_sealed hfills (.append (.of_plain ?_) (.of_plain plain_pathTrees)) ?_ ?_
  · exact List.forall_mem_cons.mpr ⟨literals.plain value, by decide⟩
  · rintro tree ⟨⟩
    exact literals.positive value
  · simp

/-! ## Operators -/

/-- What `prepareOperation` writes between the path and the marker. -/
theorem fills_comparison (comparison : Comparison) (value : Value) :
    Fills (' ' :: (comparison.symbols ++ [' ', '?'])) [literals.lexeme value]
      (flattenAll (comparison.symbols.map symbolTree ++ [.leaf (literals.lexeme value)])) := by
  refine FillsClosed.fills ⟨comparison.symbols.map (fun c => .lexeme (.symbol c)) ++
    [.lexeme (.symbol '?')], ?_, ?_, ?_⟩ <;> cases comparison
  all_goals first | decide | rfl

theorem plain_comparison (comparison : Comparison) (value : Value) :
    ∀ tree ∈ comparison.symbols.map symbolTree ++ [.leaf (literals.lexeme value)],
      isPlain tree = true := by
  intro tree ht
  rcases List.mem_append.mp ht with ht | ht
  · obtain ⟨c, -, rfl⟩ := List.mem_map.mp ht
    rfl
  · obtain rfl := List.mem_singleton.mp ht
    exact literals.plain value

theorem isUnit_compare (hpath : PathReads path names) (comparison : Comparison) (value : Value) :
    IsUnit neg v ⟨path.toList ++ (' ' :: (comparison.symbols ++ [' ', '?'])),
      [literals.lexeme value], v ((Test.compare names comparison value).trees literals)⟩ :=
  isUnit_suffix hpath (fills_comparison comparison value) (by simp [Boundary]; decide)
    (.of_plain (plain_comparison comparison value)) (by simp)

theorem sealed_between (low high : Value) :
    Sealed [wordTree "BETWEEN", .leaf (literals.lexeme low), wordTree "AND",
      .leaf (literals.lexeme high)] := by
  have hlow := literals.plain low
  have hhigh := literals.plain high
  simp only [isPlain, Bool.and_eq_true, Bool.not_eq_true'] at hlow hhigh
  obtain ⟨⟨hlow_or, hlow_and⟩, hlow_between⟩ := hlow
  obtain ⟨⟨hhigh_or, hhigh_and⟩, hhigh_between⟩ := hhigh
  have hbetween : isKeyword "BETWEEN" (wordTree "BETWEEN") = true ∧
      isKeyword "AND" (wordTree "BETWEEN") = false ∧
      isKeyword "OR" (wordTree "BETWEEN") = false := by decide
  have hand : isKeyword "AND" (wordTree "AND") = true ∧
      isKeyword "BETWEEN" (wordTree "AND") = false ∧
      isKeyword "OR" (wordTree "AND") = false := by decide
  refine ⟨by simp [hbetween, hand, hlow_or, hhigh_or], ?_⟩
  simp [andEnd, hbetween, hand, hlow_and, hlow_between, hhigh_and, hhigh_between]

theorem isUnit_between (hpath : PathReads path names) (low high : Value) :
    IsUnit neg v ⟨path.toList ++ " BETWEEN ? AND ?".toList,
      [literals.lexeme low, literals.lexeme high],
      v ((Test.between names low high).trees literals)⟩ := by
  refine isUnit_suffix hpath (FillsClosed.fills ⟨[.lexeme (.word "BETWEEN".toList),
    .lexeme (.symbol '?'), .lexeme (.word "AND".toList), .lexeme (.symbol '?')], ?_, ?_, ?_⟩)
    (by decide) (sealed_between low high) (by simp)
  · decide
  · rfl
  · rfl

/-- What is written after the path of a test for a missing value or for null. -/
theorem fills_is (last : String) (h : last = "MISSING" ∨ last = "null") (expected : Bool) :
    Fills (" IS ".toList ++ (if expected then last else "NOT " ++ last).toList) []
      (flattenAll (if expected then [wordTree "IS", wordTree last]
        else [wordTree "IS", wordTree "NOT", wordTree last])) := by
  rcases h with rfl | rfl <;> cases expected
  · exact .of_lexes (@Lexes.of_scan _ _ [.lexeme (.word "IS".toList), .lexeme (.word "NOT".toList)]
      (by decide)) rfl
  · exact .of_lexes (@Lexes.of_scan _ _ [.lexeme (.word "IS".toList)] (by decide)) rfl
  · exact .of_lexes (@Lexes.of_scan _ _ [.lexeme (.word "IS".toList), .lexeme (.word "NOT".toList)]
      (by decide)) rfl
  · exact .of_lexes (@Lexes.of_scan _ _ [.lexeme (.word "IS".toList)] (by decide)) rfl

theorem isUnit_missing (hpath : PathReads path names) (expected : Bool) :
    IsUnit neg v ⟨path.toList ++ (" IS ".toList ++ (if expected then "MISSING"
      else "NOT " ++ "MISSING").toList), [], v ((Test.missing names expected).trees literals)⟩ := by
  refine isUnit_suffix hpath (fills_is "MISSING" (.inl rfl) expected) (by simp [Boundary]; decide)
    (.of_plain ?_) ?_ <;> cases expected <;> decide

theorem isUnit_null (hpath : PathReads path names) (expected : Bool) :
    IsUnit neg v ⟨path.toList ++ (" IS ".toList ++ (if expected then "null"
      else "NOT " ++ "null").toList), [], v ((Test.null names expected).trees literals)⟩ := by
  refine isUnit_suffix hpath (fills_is "null" (.inr rfl) expected) (by simp [Boundary]; decide)
    (.of_plain ?_) ?_ <;> cases expected <;> decide

theorem fills_questions {values : List Value} (hne : values ≠ []) :
    Fills (", ".intercalate (values.map fun _ => "?")).toList (values.map literals.lexeme)
      (flattenAll (List.intercalate [symbolTree ','] (values.map fun value =>
        [.leaf (literals.lexeme value)]))) := by
  have hone : ∀ value : Value, Fills "?".toList [literals.lexeme value]
      (flattenAll [.leaf (literals.lexeme value)]) := fun value =>
    FillsClosed.fills ⟨[.lexeme (.symbol '?')], by decide, rfl, rfl⟩
  have hcomma : Separator ", ".toList [symbolTree ','] :=
    ⟨by decide, by decide, .of_closed (by decide) (by decide)⟩
  rw [String.toList_intercalate, List.map_map]
  induction values with
  | nil => exact absurd rfl hne
  | cons value values ih =>
    cases values with
    | nil => simpa [List.intercalate] using hone value
    | cons next values =>
      have hboth := (hone value).separated hcomma (ih (by simp))
      simp only [List.map_cons, intercalate_cons_cons, Function.comp_apply] at hboth ⊢
      exact hboth

theorem isUnit_isIn (hpath : PathReads path names) {values : List Value} (hne : values ≠ []) :
    IsUnit neg v ⟨(path ++ " IN [" ++ ", ".intercalate (values.map fun _ => "?") ++ "]").toList,
      values.map literals.lexeme, v ((Test.isIn names values).trees literals)⟩ := by
  have hopening : FillsClosed " IN [".toList [] (flattenAll [wordTree "IN", symbolTree '[']) :=
    .of_closed (by decide) (by decide)
  have hclosing : Fills "]".toList [] (flattenAll [symbolTree ']']) :=
    FillsClosed.fills (.of_closed (by decide) (by decide))
  have hquestions := @fills_questions literals values hne
  have hsuffix := hopening.append (hquestions.append hclosing (by decide))
  rw [← flattenAll_append, ← flattenAll_append, List.nil_append, List.append_nil] at hsuffix
  simp only [String.toList_append, List.append_assoc] at hsuffix ⊢
  refine isUnit_suffix hpath hsuffix (by simp [Boundary]; decide) ?_ (by simp)
  refine .append (.of_plain (by decide)) (.append (.of_plain ?_) (.of_plain (by decide)))
  refine plain_intercalate (by decide) fun piece hp => ?_
  obtain ⟨value, -, rfl⟩ := List.mem_map.mp hp
  simpa using literals.plain value

/-! ## Several tests -/

/-- One test for each of the values. -/
theorem isChain_each {values : List Value} (hne : values ≠ []) {text : String}
    {trees : Value → List Tree}
    (h : ∀ value, IsUnit neg v ⟨text.toList, [literals.lexeme value], v (trees value)⟩) :
    IsChain neg v ⟨(" AND ".intercalate (values.map fun _ => text)).toList,
      values.map literals.lexeme, infAll (values.map fun value => v (trees value))⟩ := by
  have hparts : ∀ part ∈ values.map fun value =>
      (⟨text.toList, [literals.lexeme value], v (trees value)⟩ : Markers.Part L),
      IsChain neg v part := by
    intro part hp
    obtain ⟨value, -, rfl⟩ := List.mem_map.mp hp
    exact (h value).chain
  have hchain := isChain_and (by simpa using hne) hparts
  rw [joined, List.map_map, List.map_map, List.flatMap_map] at hchain
  rw [String.toList_intercalate, List.map_map, List.map_eq_flatMap (f := literals.lexeme)]
  exact hchain

theorem isUnit_lists (hpath : PathReads path names) {lists : List (List Value)} (hne : lists ≠ [])
    (h : ∀ values ∈ lists, values ≠ []) :
    IsUnit neg v ⟨("(" ++ " OR ".intercalate (lists.map fun values =>
        "(" ++ elementsIn path values ++ ")") ++ ")").toList,
      lists.flatten.map literals.lexeme,
      supAll (lists.map fun values => infAll (values.map fun value =>
        v ((Test.element names value).trees literals)))⟩ := by
  have hparts : ∀ part ∈ lists.map fun values =>
      (⟨("(" ++ elementsIn path values ++ ")").toList, values.map literals.lexeme,
        infAll (values.map fun value => v ((Test.element names value).trees literals))⟩ :
        Markers.Part L),
      IsChain neg v part := by
    intro part hp
    obtain ⟨values, hvalues, rfl⟩ := List.mem_map.mp hp
    have hchain := @isChain_each literals L _ _ neg v values (h values hvalues) _ _ fun value =>
      isUnit_element hpath value
    rw [String.toList_append, String.toList_append, List.append_assoc]
    exact hchain.group.chain
  have hunit := isUnit_or (by simpa using hne) hparts
  rw [joined, List.map_map, List.map_map, List.flatMap_map] at hunit
  rw [String.toList_append, String.toList_append, List.append_assoc, String.toList_intercalate,
    List.map_map, List.map_flatten]
  exact hunit

end

/-! ## What an operator means -/

section
variable {path : String} {names : List String}

theorem means_compare (hpath : PathReads path names) (comparison : Comparison) (value : Value)
    {suffix : String} (h : suffix.toList = ' ' :: (comparison.symbols ++ [' ', '?'])) :
    OperationMeans (path ++ suffix, [value]) (.atom (.compare names comparison value)) := by
  intro literals L _ _ neg v _
  have hchain := (@isUnit_compare literals L _ _ neg v path names hpath comparison value).chain
  rwa [← h, ← String.toList_append] at hchain

/-- No list has the attribute. -/
theorem means_never : OperationMeans ("1 = 0", []) (.disj []) := by
  intro literals L _ _ neg v hv
  have hfills : Fills "1 = 0".toList [] (flattenAll [wordTree "1", symbolTree '=', wordTree "0"]) :=
    .of_lexes (@Lexes.of_scan _ _ [.lexeme (.word ['1']), .lexeme (.symbol '=')] (by decide)) rfl
  have hunit : IsUnit neg v ⟨_, [], v [wordTree "1", symbolTree '=', wordTree "0"]⟩ :=
    isUnit_of_sealed hfills (.of_plain (by decide)) (by decide) (by decide)
  rw [hv.never] at hunit
  exact hunit.chain

/-- There is nothing that the attribute does not contain. -/
theorem means_always : OperationMeans ("1 = 1", []) (.conj []) := by
  intro literals L _ _ neg v hv
  have hfills : Fills "1 = 1".toList [] (flattenAll [wordTree "1", symbolTree '=', wordTree "1"]) :=
    .of_lexes (@Lexes.of_scan _ _ [.lexeme (.word ['1']), .lexeme (.symbol '=')] (by decide)) rfl
  have hunit : IsUnit neg v ⟨_, [], v [wordTree "1", symbolTree '=', wordTree "1"]⟩ :=
    isUnit_of_sealed hfills (.of_plain (by decide)) (by decide) (by decide)
  rw [hv.always] at hunit
  exact hunit.chain

theorem not_isUndefined_of_mem_arrayUnique {values : Value} {value : Value}
    (h : value ∈ arrayUnique values) : value.isUndefined = false := by
  have hfold : ∀ (elements unique : List Value), (∀ value ∈ unique, value.isUndefined = false) →
      ∀ value ∈ elements.foldl (fun unique value =>
        if value.isUndefined || unique.any value.strictEq then unique else unique ++ [value]) unique,
        value.isUndefined = false := by
    intro elements
    induction elements with
    | nil => exact fun _ hunique => hunique
    | cons element elements ih =>
      intro unique hunique
      refine ih _ ?_
      dsimp only
      split
      · exact hunique
      · rename_i hnew
        intro value hvalue
        rcases List.mem_append.mp hvalue with hvalue | hvalue
        · exact hunique value hvalue
        · obtain rfl := List.mem_singleton.mp hvalue
          exact Bool.eq_false_iff.mpr fun hundefined => hnew (by simp [hundefined])
  exact hfold _ [] (by simp) value h

/-- No value that is bound is undefined. -/
theorem isEmptyArray_sanitizeValues (values : Value) :
    isEmptyArray (sanitizeValues values) = (sanitizeValues values).isEmpty := by
  rcases hvalues : sanitizeValues values with - | ⟨value, rest⟩
  · rfl
  · have hmem : value ∈ sanitizeValues values := by simp [hvalues]
    have hdefined := not_isUndefined_of_mem_arrayUnique (List.mem_filter.mp hmem).1
    simp [isEmptyArray, hdefined]

theorem prepareIsIn_plain {schema : Option AnySchema} (h : hasElements schema = false)
    (value : Value) : prepareIsIn schema path value =
      if (sanitizeValues value).isEmpty then .ok ("1 = 0", [])
      else .ok (path ++ " IN [" ++ ", ".intercalate ((sanitizeValues value).map fun _ => "?") ++ "]",
        sanitizeValues value) := by
  rw [prepareIsIn, h, ← isEmptyArray_sanitizeValues]
  cases hempty : isEmptyArray (sanitizeValues value) <;> simp [hempty] <;> rfl

theorem prepareIsIn_elements {schema : Option AnySchema} (h : hasElements schema = true)
    (items : List Value) : prepareIsIn schema path (.arr items) =
      if (listsOf (.arr items)).isEmpty then .ok ("1 = 0", [])
      else .ok ("(" ++ " OR ".intercalate ((listsOf (.arr items)).map fun values =>
          "(" ++ elementsIn path values ++ ")") ++ ")", (listsOf (.arr items)).flatten) := by
  have hlists : ∀ lists : List (List Value),
      (if !(lists.map fun values => "(" ++ elementsIn path values ++ ")").isEmpty then
        Except.ok ("(" ++ " OR ".intercalate (lists.map fun values =>
          "(" ++ elementsIn path values ++ ")") ++ ")", lists.flatten)
      else (.ok ("1 = 0", []) : Except WhereError Operation)) =
      if lists.isEmpty then .ok ("1 = 0", [])
      else .ok ("(" ++ " OR ".intercalate (lists.map fun values =>
        "(" ++ elementsIn path values ++ ")") ++ ")", lists.flatten) := by
    intro lists
    cases lists <;> rfl
  rw [prepareIsIn, h, if_neg (by decide)]
  exact hlists (listsOf (.arr items))

/-- `isIn` -/
theorem means_isIn (hpath : PathReads path names) {found own : Option AnySchema}
    (helements : hasElements found = hasElements own) (items : List Value) :
    ∃ operation, prepareIsIn found path (.arr items) = .ok operation ∧
      OperationMeans operation (operatorMeaning own names "isIn" (.arr items)) := by
  cases hown : hasElements own with
  | false =>
    have hmeaning : operatorMeaning own names "isIn" (.arr items) =
        if (sanitizeValues (.arr items)).isEmpty then .disj []
        else .atom (.isIn names (sanitizeValues (.arr items))) := by
      rw [← isEmptyArray_sanitizeValues, operatorMeaning, hown]
      rfl
    rw [hmeaning, prepareIsIn_plain (helements.trans hown)]
    generalize sanitizeValues (.arr items) = values
    cases values with
    | nil => exact ⟨_, rfl, means_never⟩
    | cons value values =>
      refine ⟨_, rfl, ?_⟩
      intro literals L _ _ neg v _
      exact (isUnit_isIn hpath (by simp)).chain
  | true =>
    have hmeaning : operatorMeaning own names "isIn" (.arr items) =
        .disj ((listsOf (.arr items)).map fun values =>
          .conj (values.map fun value => .atom (.element names value))) := by
      rw [operatorMeaning, hown]
      rfl
    have hlists : ∀ values ∈ listsOf (.arr items), values ≠ [] := by
      rintro values hvalues rfl
      simp [listsOf, isEmptyArray] at hvalues
    rw [hmeaning, prepareIsIn_elements (helements.trans hown)]
    generalize listsOf (.arr items) = lists at hlists
    cases lists with
    | nil => exact ⟨_, rfl, means_never⟩
    | cons first lists =>
      refine ⟨_, rfl, ?_⟩
      intro literals L _ _ neg v _
      have hunit := @isUnit_lists literals L _ _ neg v path names hpath _ (by simp) hlists
      have hvalue : worth literals neg v (.disj ((first :: lists).map fun values =>
          .conj (values.map fun value => .atom (.element names value)))) =
          supAll ((first :: lists).map fun values => infAll (values.map fun value =>
            v ((Test.element names value).trees literals))) := by
        rw [worth, Formula.eval, evalAny_eq, List.map_map]
        congr 1
        refine List.map_congr_left fun values _ => ?_
        rw [Function.comp_apply, Formula.eval, evalAll_eq, List.map_map]
        rfl
      rw [hvalue]
      exact hunit.chain

/-- `contains` -/
theorem means_contains (hpath : PathReads path names) {found own : Option AnySchema} {value : Value}
    (h : ∀ items, value = .arr items → hasElements found = hasElements own) :
    OperationMeans (prepareContains found path value)
      (operatorMeaning own names "contains" value) := by
  have hcall : ∀ (literals : Literals Value) {L : Type} [Lattice L] [BoundedOrder L] (neg : L → L)
      (v : List Tree → L) (value : Value), IsUnit neg v ⟨("contains(" ++ path ++ ", ?)").toList,
        [literals.lexeme value], v ((Test.contains names value).trees literals)⟩ := by
    intro literals L _ _ neg v value
    exact isUnit_call hpath "contains" "contains(" (.of_closed (by decide) (by decide)) (by decide)
      (by decide) value
  by_cases hlist : ∃ items, value = .arr items
  · obtain ⟨items, rfl⟩ := hlist
    have hmeaning : operatorMeaning own names "contains" (.arr items) =
        if hasElements own then
          .conj ((sanitizeValues (.arr items)).map fun value => .atom (.contains names value))
        else .conj [] := rfl
    rw [hmeaning, prepareContains, h items rfl, isEmptyArray_sanitizeValues]
    generalize sanitizeValues (.arr items) = values
    cases hasElements own with
    | false => simpa using means_always
    | true =>
      cases values with
      | nil => exact means_always
      | cons first values =>
        intro literals L _ _ neg v _
        have hchain := isChain_each (List.cons_ne_nil first values) (hcall literals neg v)
        have hvalue : worth literals neg v (.conj ((first :: values).map fun value =>
            .atom (.contains names value))) =
            infAll ((first :: values).map fun value =>
              v ((Test.contains names value).trees literals)) := by
          rw [worth, Formula.eval, evalAll_eq, List.map_map]
          rfl
        rw [if_pos rfl, hvalue]
        exact hchain
  · have hone : prepareContains found path value = ("contains(" ++ path ++ ", ?)", [value]) ∧
        operatorMeaning own names "contains" value = .atom (.contains names value) := by
      cases value with
      | arr items => exact absurd ⟨items, rfl⟩ hlist
      | _ => exact ⟨rfl, rfl⟩
    rw [hone.1, hone.2]
    intro literals L _ _ neg v _
    exact (hcall literals neg v value).chain

theorem means_missing (hpath : PathReads path names) (expected : Bool) :
    OperationMeans (path ++ " IS " ++ (if expected then "MISSING" else "NOT MISSING"), [])
      (.atom (.missing names expected)) := by
  intro literals L _ _ neg v _
  have hchain := (@isUnit_missing literals L _ _ neg v path names hpath expected).chain
  rw [String.toList_append, String.toList_append, List.append_assoc]
  cases expected <;> exact hchain

theorem means_null (hpath : PathReads path names) (expected : Bool) :
    OperationMeans (path ++ " IS " ++ (if expected then "null" else "NOT null"), [])
      (.atom (.null names expected)) := by
  intro literals L _ _ neg v _
  have hchain := (@isUnit_null literals L _ _ neg v path names hpath expected).chain
  rw [String.toList_append, String.toList_append, List.append_assoc]
  cases expected <;> exact hchain

theorem means_missingOrNull (hpath : PathReads path names) :
    OperationMeans ("(" ++ path ++ " IS MISSING OR " ++ path ++ " IS null)", [])
      (.disj [.atom (.missing names true), .atom (.null names true)]) := by
  intro literals L _ _ neg v _
  have hmissing := (@isUnit_missing literals L _ _ neg v path names hpath true).chain
  have hnull := (@isUnit_null literals L _ _ neg v path names hpath true).chain
  have hunit := isUnit_or (List.cons_ne_nil _ _) 
    (List.forall_mem_cons.mpr ⟨hmissing, List.forall_mem_singleton.mpr hnull⟩)
  have htext : ("(" ++ path ++ " IS MISSING OR " ++ path ++ " IS null)").toList =
      '(' :: (List.intercalate " OR ".toList [path.toList ++ (" IS ".toList ++ "MISSING".toList),
        path.toList ++ (" IS ".toList ++ "null".toList)] ++ [')']) := by
    simp [List.intercalate]
  rw [htext]
  exact hunit.chain

theorem means_presentAndNotNull (hpath : PathReads path names) :
    OperationMeans ("(" ++ path ++ " IS NOT MISSING AND " ++ path ++ " IS NOT null)", [])
      (.conj [.atom (.missing names false), .atom (.null names false)]) := by
  intro literals L _ _ neg v _
  have hmissing := (@isUnit_missing literals L _ _ neg v path names hpath false).chain
  have hnull := (@isUnit_null literals L _ _ neg v path names hpath false).chain
  have hchain := isChain_and (List.cons_ne_nil _ _) 
    (List.forall_mem_cons.mpr ⟨hmissing, List.forall_mem_singleton.mpr hnull⟩)
  have htext : ("(" ++ path ++ " IS NOT MISSING AND " ++ path ++ " IS NOT null)").toList =
      '(' :: (List.intercalate " AND ".toList
        [path.toList ++ (" IS ".toList ++ ("NOT " ++ "MISSING").toList),
          path.toList ++ (" IS ".toList ++ ("NOT " ++ "null").toList)] ++ [')']) := by
    simp [List.intercalate]
  rw [htext]
  exact hchain.group.chain

/-- **An operator means what it tests**, in the text that is written for it. -/
theorem means_operator (hpath : PathReads path names) {found own : Option AnySchema}
    {operator : String} (hoperator : operator ∈ operatorNames) {value : Value}
    (hkeeps : keepsOperator found own operator value = true) :
    ∃ operation, prepareOperation operator value found path = .ok (some operation) ∧
      OperationMeans operation (operatorMeaning own names operator value) := by
  simp only [operatorNames, List.mem_cons, List.not_mem_nil, or_false] at hoperator
  rcases hoperator with rfl | rfl | rfl | rfl | rfl | rfl | rfl | rfl | rfl | rfl | rfl | rfl | rfl
  · exact ⟨_, rfl, means_compare hpath .equal value (by decide)⟩
  · exact ⟨_, rfl, means_compare hpath .not value (by decide)⟩
  · exact ⟨_, rfl, means_compare hpath .gt value (by decide)⟩
  · exact ⟨_, rfl, means_compare hpath .gte value (by decide)⟩
  · exact ⟨_, rfl, means_compare hpath .lt value (by decide)⟩
  · exact ⟨_, rfl, means_compare hpath .lte value (by decide)⟩
  · -- `isIn`
    obtain ⟨items, rfl⟩ : ∃ items, value = .arr items := by
      cases value with
      | arr items => exact ⟨items, rfl⟩
      | _ => cases hkeeps
    obtain ⟨operation, hrun, hmeans⟩ :=
      means_isIn hpath (by simpa [keepsOperator] using hkeeps) items
    exact ⟨operation, by rw [prepareOperation, hrun]; rfl, hmeans⟩
  · -- `isBetween`
    obtain ⟨low, high, rfl⟩ : ∃ low high, value = .arr [low, high] := by
      rcases value with _ | _ | _ | _ | _ | items | _
      case arr =>
        rcases items with - | ⟨low, - | ⟨high, - | ⟨other, rest⟩⟩⟩
        · cases hkeeps
        · cases hkeeps
        · exact ⟨low, high, rfl⟩
        · cases hkeeps
      all_goals cases hkeeps
    refine ⟨_, rfl, ?_⟩
    intro literals L _ _ neg v _
    have hchain := (@isUnit_between literals L _ _ neg v path names hpath low high).chain
    rw [← String.toList_append] at hchain
    exact hchain
  · exact ⟨_, rfl, means_missing hpath value.truthy⟩
  · exact ⟨_, rfl, means_null hpath value.truthy⟩
  · refine ⟨_, rfl, ?_⟩
    rw [operatorMeaning]
    cases value.truthy with
    | true => exact means_missingOrNull hpath
    | false => exact means_presentAndNotNull hpath
  · refine ⟨_, rfl, ?_⟩
    intro literals L _ _ neg v _
    exact (isUnit_call hpath "begins_with" "begins_with(" (.of_closed (by decide) (by decide))
      (by decide) (by decide) value).chain
  · refine ⟨_, rfl, means_contains hpath fun items heq => ?_⟩
    subst heq
    simpa [keepsOperator] using hkeeps

end

end Ez4.Dynamo
