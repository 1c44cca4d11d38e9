import Mathlib.Algebra.GroupWithZero.Nat
import Mathlib.Data.List.Basic

/-! # Text as UTF-16 units, measured in UTF-8 bytes

A program that keeps text as UTF-16 units and cuts it to a number of UTF-8
bytes may cut a character in two. A lone surrogate counts as the replacement
character, of three bytes. -/
namespace Ez4.Library.Utf16

/-! ## Units -/

/-- A character of two units. -/
def isWide (c : Char) : Bool := decide (0x10000 ≤ c.toNat)

def highSurrogate (c : Char) : Nat := 0xD800 + (c.toNat - 0x10000) / 0x400

def lowSurrogate (c : Char) : Nat := 0xDC00 + (c.toNat - 0x10000) % 0x400

def charUnits (c : Char) : List Nat :=
  if isWide c then [highSurrogate c, lowSurrogate c] else [c.toNat]

def units (text : List Char) : List Nat := text.flatMap charUnits

def isHigh (unit : Nat) : Bool := decide (0xD800 ≤ unit ∧ unit < 0xDC00)

def isLow (unit : Nat) : Bool := decide (0xDC00 ≤ unit ∧ unit < 0xE000)

/-- The UTF-8 bytes of a unit that is no half of a pair. -/
def unitBytes (unit : Nat) : Nat := if unit < 0x80 then 1 else if unit < 0x800 then 2 else 3

/-- The UTF-8 bytes of a text. -/
def byteLength : List Nat → Nat
  | [] => 0
  | [unit] => unitBytes unit
  | unit :: next :: rest =>
    if isHigh unit && isLow next then 4 + byteLength rest
    else unitBytes unit + byteLength (next :: rest)

/-- The UTF-8 bytes of some characters. -/
def size (text : List Char) : Nat := (text.map Char.utf8Size).sum

@[simp] theorem size_nil : size [] = 0 := rfl

@[simp] theorem size_cons (c : Char) (text : List Char) :
    size (c :: text) = c.utf8Size + size text := by
  simp [size]

@[simp] theorem size_append (text more : List Char) : size (text ++ more) = size text + size more := by
  simp [size]

theorem utf8Size_eq (c : Char) : c.utf8Size =
    if c.toNat ≤ 0x7F then 1 else if c.toNat ≤ 0x7FF then 2 else if c.toNat ≤ 0xFFFF then 3 else 4 := rfl

theorem utf8Size_of_isWide {c : Char} (h : isWide c = true) : c.utf8Size = 4 := by
  have h := of_decide_eq_true h
  rw [utf8Size_eq, if_neg (by omega), if_neg (by omega), if_neg (by omega)]

theorem utf8Size_of_not_isWide {c : Char} (h : isWide c = false) :
    c.utf8Size = unitBytes c.toNat ∧ c.utf8Size ≤ 3 := by
  have h := of_decide_eq_false h
  rw [utf8Size_eq, unitBytes]
  by_cases h1 : c.toNat ≤ 0x7F
  · rw [if_pos h1, if_pos (by omega)]
    exact ⟨rfl, by decide⟩
  · by_cases h2 : c.toNat ≤ 0x7FF
    · rw [if_neg h1, if_pos h2, if_neg (by omega), if_pos (by omega)]
      exact ⟨rfl, by decide⟩
    · rw [if_neg h1, if_neg h2, if_pos (by omega), if_neg (by omega), if_neg (by omega)]
      exact ⟨rfl, by decide⟩

theorem toNat_lt (c : Char) : c.toNat < 0xD800 ∨ 0xDFFF < c.toNat ∧ c.toNat < 0x110000 := c.valid

theorem isHigh_highSurrogate (c : Char) : isHigh (highSurrogate c) = true := by
  have h := toNat_lt c
  rw [isHigh, highSurrogate, decide_eq_true_eq]
  omega

theorem isLow_lowSurrogate (c : Char) : isLow (lowSurrogate c) = true := by
  rw [isLow, lowSurrogate, decide_eq_true_eq]
  omega

/-- A character of one unit is no surrogate. -/
theorem not_isHigh_toNat {c : Char} (h : isWide c = false) : isHigh c.toNat = false := by
  have h := of_decide_eq_false h
  have hvalid := toNat_lt c
  rw [isHigh, decide_eq_false_iff_not]
  omega

@[simp] theorem units_nil : units [] = [] := rfl

@[simp] theorem units_cons (c : Char) (text : List Char) :
    units (c :: text) = charUnits c ++ units text := rfl

@[simp] theorem units_append (text more : List Char) :
    units (text ++ more) = units text ++ units more := List.flatMap_append

theorem byteLength_charUnits (c : Char) (rest : List Nat) :
    byteLength (charUnits c ++ rest) = c.utf8Size + byteLength rest := by
  unfold charUnits
  cases hwide : isWide c with
  | true =>
    change byteLength (highSurrogate c :: lowSurrogate c :: rest) = _
    rw [byteLength, isHigh_highSurrogate, isLow_lowSurrogate, utf8Size_of_isWide hwide]
    rfl
  | false =>
    rw [(utf8Size_of_not_isWide hwide).1]
    cases rest with
    | nil => rfl
    | cons next rest =>
      change byteLength (c.toNat :: next :: rest) = _
      rw [byteLength, not_isHigh_toNat hwide]
      rfl

/-- The bytes of a text are those of its characters. -/
theorem byteLength_units (text : List Char) (rest : List Nat) :
    byteLength (units text ++ rest) = size text + byteLength rest := by
  induction text with
  | nil => simp
  | cons c text ih =>
    rw [units_cons, List.append_assoc, byteLength_charUnits, ih, size_cons, Nat.add_assoc]

theorem unitBytes_pos (unit : Nat) : 1 ≤ unitBytes unit := by
  unfold unitBytes
  split
  · decide
  · split <;> decide

/-- One unit more is some bytes more. -/
theorem byteLength_lt_concat (text : List Nat) (unit : Nat) :
    byteLength text < byteLength (text ++ [unit]) := by
  induction text using byteLength.induct with
  | case1 => exact unitBytes_pos unit
  | case2 first =>
    change unitBytes first < byteLength [first, unit]
    have hunit := unitBytes_pos unit
    rw [byteLength]
    split
    · unfold unitBytes
      split
      · decide
      · split <;> simp [byteLength]
    · change _ < unitBytes first + unitBytes unit
      omega
  | case3 first next rest hpair ih =>
    change _ < byteLength (first :: next :: (rest ++ [unit]))
    rw [byteLength, byteLength, if_pos hpair, if_pos hpair]
    omega
  | case4 first next rest hpair ih =>
    change _ < byteLength (first :: next :: (rest ++ [unit]))
    rw [byteLength, byteLength, if_neg hpair, if_neg hpair]
    have ih : byteLength (next :: rest) < byteLength (next :: (rest ++ [unit])) := ih
    omega

theorem byteLength_le_append (text more : List Nat) :
    byteLength text ≤ byteLength (text ++ more) := by
  induction more generalizing text with
  | nil => simp
  | cons unit more ih =>
    have hmore := ih (text ++ [unit])
    rw [List.append_assoc] at hmore
    exact Nat.le_trans (Nat.le_of_lt (byteLength_lt_concat text unit)) hmore

/-! ## Reading the units -/

def joinSurrogates (high low : Nat) : Char :=
  Char.ofNat (0x10000 + (high - 0xD800) * 0x400 + (low - 0xDC00))

/-- The character of a unit, or a lone surrogate. -/
def readUnit (unit : Nat) : Char ⊕ Nat :=
  if unit.isValidChar then .inl (Char.ofNat unit) else .inr unit

/-- The characters of a text with its lone surrogates. -/
def read : List Nat → List (Char ⊕ Nat)
  | [] => []
  | [unit] => [readUnit unit]
  | unit :: next :: rest =>
    if isHigh unit && isLow next then .inl (joinSurrogates unit next) :: read rest
    else readUnit unit :: read (next :: rest)

def replacement : Char := '\uFFFD'

/-- The characters as they are encoded. -/
def decode (text : List Nat) : List Char := (read text).map (Sum.elim id fun _ => replacement)

theorem ofNat_toNat (c : Char) : Char.ofNat c.toNat = c := Char.ofNat_toNat c

theorem joinSurrogates_eq {c : Char} (h : isWide c = true) :
    joinSurrogates (highSurrogate c) (lowSurrogate c) = c := by
  have h := of_decide_eq_true h
  have hsame : 0x10000 + (highSurrogate c - 0xD800) * 0x400 + (lowSurrogate c - 0xDC00) =
      c.toNat := by
    unfold highSurrogate lowSurrogate
    omega
  rw [joinSurrogates, hsame, ofNat_toNat]

theorem readUnit_toNat (c : Char) : readUnit c.toNat = .inl c := by
  have hvalid : c.toNat.isValidChar := c.valid
  rw [readUnit, if_pos hvalid, ofNat_toNat]

theorem readUnit_highSurrogate (c : Char) : readUnit (highSurrogate c) = .inr (highSurrogate c) := by
  have hhigh := of_decide_eq_true (isHigh_highSurrogate c)
  have hinvalid : ¬ (highSurrogate c).isValidChar := by
    unfold Nat.isValidChar
    omega
  rw [readUnit, if_neg hinvalid]

/-- A high surrogate with no low one after it is alone. -/
theorem read_highSurrogate (c : Char) {next : Nat} (h : isLow next = false) (rest : List Nat) :
    read (highSurrogate c :: next :: rest) = .inr (highSurrogate c) :: read (next :: rest) := by
  rw [read, h, Bool.and_false, readUnit_highSurrogate]
  rfl

theorem read_charUnits (c : Char) (rest : List Nat) :
    read (charUnits c ++ rest) = .inl c :: read rest := by
  unfold charUnits
  cases hwide : isWide c with
  | true =>
    change read (highSurrogate c :: lowSurrogate c :: rest) = _
    rw [read, isHigh_highSurrogate, isLow_lowSurrogate, joinSurrogates_eq hwide]
    rfl
  | false =>
    cases rest with
    | nil => exact congrArg (· :: []) (readUnit_toNat c)
    | cons next rest =>
      change read (c.toNat :: next :: rest) = _
      rw [read, not_isHigh_toNat hwide, readUnit_toNat]
      rfl

/-- The units of a text are read as its characters. -/
theorem read_units (text : List Char) (rest : List Nat) :
    read (units text ++ rest) = text.map .inl ++ read rest := by
  induction text with
  | nil => rfl
  | cons c text ih =>
    rw [units_cons, List.append_assoc, read_charUnits, ih]
    rfl

theorem decode_units (text : List Char) : decode (units text) = text := by
  have hread := read_units text []
  rw [List.append_nil, read, List.append_nil] at hread
  rw [decode, hread, List.map_map]
  exact List.map_id text

/-! ## Cutting to a number of bytes -/

/-- Units are taken away at the end while the text is too long, so many times at most. -/
def clip (size : Nat) : Nat → List Nat → List Nat
  | 0, text => text
  | times + 1, text =>
    if size < byteLength text then clip size times text.dropLast else text

/-- The whole characters at the start of a text that fit. -/
def cut : Nat → List Char → List Char
  | _, [] => []
  | size, c :: text => if c.utf8Size ≤ size then c :: cut (size - c.utf8Size) text else []

/-- The high surrogate of the character that is cut in two, where there is one. -/
def half : Nat → List Char → Option Nat
  | _, [] => none
  | size, c :: text =>
    if c.utf8Size ≤ size then half (size - c.utf8Size) text
    else if isWide c ∧ 3 ≤ size then some (highSurrogate c)
    else none

/-- The longest start of a text that fits. -/
structure Longest (size : Nat) (text start : List Nat) : Prop where
  isPrefix : start <+: text
  fits : byteLength start ≤ size
  next : ∀ unit, start ++ [unit] <+: text → size < byteLength (start ++ [unit])

theorem Longest.clip_eq {limit times : Nat} {text start : List Nat} (h : Longest limit text start)
    (htimes : text.length ≤ start.length + times) : clip limit times text = start := by
  obtain ⟨more, rfl⟩ := h.isPrefix
  induction times generalizing more with
  | zero =>
    rw [List.length_append] at htimes
    obtain rfl := List.length_eq_zero_iff.mp (show more.length = 0 by omega)
    exact List.append_nil start
  | succ times ih =>
    rcases List.eq_nil_or_concat more with rfl | ⟨init, last, hmore⟩
    · rw [List.append_nil, clip, if_neg (Nat.not_lt.mpr h.fits)]
    · rw [List.concat_eq_append] at hmore
      subst hmore
      have hlong : limit < byteLength (start ++ (init ++ [last])) := by
        cases init with
        | nil => exact h.next last (List.prefix_refl _)
        | cons unit init =>
          have hsplit : start ++ (unit :: init ++ [last]) = (start ++ [unit]) ++ (init ++ [last]) := by
            simp
          have hnext := h.next unit ⟨init ++ [last], hsplit.symm⟩
          rw [hsplit]
          exact Nat.lt_of_lt_of_le hnext (byteLength_le_append _ _)
      have hdrop : (start ++ (init ++ [last])).dropLast = start ++ init := by
        rw [← List.append_assoc, List.dropLast_concat]
      rw [clip, if_pos hlong, hdrop]
      refine ih init ⟨List.prefix_append _ _, h.fits, fun unit hunit => ?_⟩ ?_
      · refine h.next unit (hunit.trans ?_)
        rw [← List.append_assoc]
        exact List.prefix_append _ _
      · rw [List.length_append, List.length_append, List.length_singleton] at htimes
        rw [List.length_append]
        omega

theorem Longest.charUnits {limit : Nat} {c : Char} {text start : List Nat}
    (h : Longest (limit - c.utf8Size) text start) (hfits : c.utf8Size ≤ limit) :
    Longest limit (charUnits c ++ text) (charUnits c ++ start) where
  isPrefix := (List.prefix_append_right_inj _).mpr h.isPrefix
  fits := by
    have hstart := h.fits
    rw [byteLength_charUnits]
    omega
  next unit hunit := by
    rw [List.append_assoc, List.prefix_append_right_inj] at hunit
    have hnext := h.next unit hunit
    rw [List.append_assoc, byteLength_charUnits]
    omega

theorem byteLength_highSurrogate (c : Char) : byteLength [highSurrogate c] = 3 := by
  have hhigh := of_decide_eq_true (isHigh_highSurrogate c)
  rw [byteLength, unitBytes, if_neg (by omega), if_neg (by omega)]

/-- A character that does not fit, and what is left of it. -/
theorem longest_of_utf8Size_lt {limit : Nat} {c : Char} (hlong : limit < c.utf8Size)
    (text : List Nat) :
    Longest limit (charUnits c ++ text)
      (if isWide c ∧ 3 ≤ limit then some (highSurrogate c) else none : Option Nat).toList := by
  have hbytes : byteLength (charUnits c) = c.utf8Size := by
    simpa [byteLength] using byteLength_charUnits c []
  cases hwide : isWide c with
  | true =>
    rw [charUnits, if_pos hwide] at hbytes ⊢
    by_cases hthree : 3 ≤ limit
    · rw [if_pos ⟨rfl, hthree⟩]
      refine ⟨⟨lowSurrogate c :: text, by simp⟩, ?_, fun unit hunit => ?_⟩
      · change byteLength [highSurrogate c] ≤ limit
        rw [byteLength_highSurrogate]
        exact hthree
      · have hunit : [highSurrogate c, unit] <+: highSurrogate c :: lowSurrogate c :: text := hunit
        have hlow : [unit] <+: lowSurrogate c :: text := (List.cons_prefix_cons.mp hunit).2
        rw [(List.cons_prefix_cons.mp hlow).1]
        change limit < byteLength [highSurrogate c, lowSurrogate c]
        rw [hbytes]
        exact hlong
    · rw [if_neg fun h => hthree h.2]
      refine ⟨List.nil_prefix, Nat.zero_le _, fun unit hunit => ?_⟩
      have hunit : [unit] <+: highSurrogate c :: lowSurrogate c :: text := hunit
      rw [(List.cons_prefix_cons.mp hunit).1]
      change limit < byteLength [highSurrogate c]
      rw [byteLength_highSurrogate]
      omega
  | false =>
    rw [charUnits, if_neg (by rw [hwide]; decide)] at hbytes ⊢
    rw [if_neg (by simp)]
    refine ⟨List.nil_prefix, Nat.zero_le _, fun unit hunit => ?_⟩
    have hunit : [unit] <+: c.toNat :: text := hunit
    rw [(List.cons_prefix_cons.mp hunit).1]
    change limit < byteLength [c.toNat]
    rw [hbytes]
    exact hlong

/-- **What is left of a text: its whole characters that fit, and a half of the next one where
three bytes are left.** -/
theorem longest_units (limit : Nat) (text : List Char) :
    Longest limit (units text) (units (cut limit text) ++ (half limit text).toList) := by
  induction text generalizing limit with
  | nil => exact ⟨List.prefix_refl _, Nat.zero_le _, fun unit hunit => by simp at hunit⟩
  | cons c text ih =>
    rw [cut, half]
    by_cases hfits : c.utf8Size ≤ limit
    · rw [if_pos hfits, if_pos hfits, units_cons, units_cons, List.append_assoc]
      exact (ih (limit - c.utf8Size)).charUnits hfits
    · rw [if_neg hfits, if_neg hfits, units_nil, List.nil_append, units_cons]
      exact longest_of_utf8Size_lt (Nat.not_le.mp hfits) _

theorem clip_units (limit : Nat) (text : List Char) :
    clip limit (units text).length (units text) =
      units (cut limit text) ++ (half limit text).toList :=
  (longest_units limit text).clip_eq (Nat.le_add_left _ _)

theorem size_cut_le (limit : Nat) (text : List Char) : size (cut limit text) ≤ limit := by
  induction text generalizing limit with
  | nil => exact Nat.zero_le _
  | cons c text ih =>
    rw [cut]
    split
    · have hrest := ih (limit - c.utf8Size)
      rw [size_cons]
      omega
    · exact Nat.zero_le _

theorem cut_isPrefix (limit : Nat) (text : List Char) : cut limit text <+: text := by
  induction text generalizing limit with
  | nil => exact List.prefix_refl _
  | cons c text ih =>
    rw [cut]
    split
    · exact List.cons_prefix_cons.mpr ⟨rfl, ih _⟩
    · exact List.nil_prefix

/-- A text is cut before the first character that does not fit. -/
theorem cut_eq_or_lt (limit : Nat) (text : List Char) : cut limit text = text ∨
    ∃ c rest, text = cut limit text ++ c :: rest ∧ limit < size (cut limit text) + c.utf8Size := by
  induction text generalizing limit with
  | nil => exact .inl rfl
  | cons c text ih =>
    rw [cut]
    split
    · rename_i hfits
      rcases ih (limit - c.utf8Size) with hall | ⟨next, rest, htext, hlong⟩
      · exact .inl (congrArg (c :: ·) hall)
      · refine .inr ⟨next, rest, congrArg (c :: ·) htext, ?_⟩
        rw [size_cons]
        omega
    · rename_i hfits
      exact .inr ⟨c, text, rfl, by simpa using hfits⟩

/-- A text is cut right after a start that fills the limit. -/
theorem cut_append_of_size (start more : List Char) :
    cut (size start) (start ++ more) = start ∧ half (size start) (start ++ more) = none := by
  induction start with
  | nil =>
    cases more with
    | nil => exact ⟨rfl, rfl⟩
    | cons c more =>
      have hpos := c.utf8Size_pos
      rw [List.nil_append, size_nil, cut, half, if_neg (by omega), if_neg (by omega),
        if_neg (by omega)]
      exact ⟨rfl, rfl⟩
  | cons c start ih =>
    rw [List.cons_append, cut, half, size_cons, if_pos (by omega), if_pos (by omega),
      Nat.add_sub_cancel_left]
    exact ⟨congrArg (c :: ·) ih.1, ih.2⟩

/-- A text that fits is not cut. -/
theorem cut_of_size_le {limit : Nat} {text : List Char} (h : size text ≤ limit) :
    cut limit text = text := by
  induction text generalizing limit with
  | nil => rfl
  | cons c text ih =>
    rw [size_cons] at h
    rw [cut, if_pos (by omega), ih (by omega)]

theorem exists_of_half_eq {limit : Nat} {text : List Char} {unit : Nat}
    (h : half limit text = some unit) : ∃ c, unit = highSurrogate c := by
  induction text generalizing limit with
  | nil => cases h
  | cons c text ih =>
    rw [half] at h
    split at h
    · exact ih h
    · split at h
      · exact ⟨c, (Option.some.inj h).symm⟩
      · cases h

/-- What is read of a text that is cut. -/
theorem read_clip (limit : Nat) (text : List Char) :
    read (units (cut limit text) ++ (half limit text).toList) =
      (cut limit text).map .inl ++ (half limit text).toList.map .inr := by
  rw [read_units]
  cases hhalf : half limit text with
  | none => rfl
  | some unit =>
    obtain ⟨c, rfl⟩ := exists_of_half_eq hhalf
    exact congrArg (_ ++ [·]) (readUnit_highSurrogate c)

theorem map_inl_append_inj {α β : Type} {as as' : List α} {bs bs' : List β} :
    as.map Sum.inl ++ bs.map Sum.inr = as'.map Sum.inl ++ bs'.map Sum.inr ↔ as = as' ∧ bs = bs' := by
  refine ⟨fun h => ?_, fun ⟨hl, hr⟩ => by rw [hl, hr]⟩
  have hl := congrArg (List.filterMap Sum.getLeft?) h
  have hr := congrArg (List.filterMap Sum.getRight?) h
  simp [List.filterMap_append, List.filterMap_map, Function.comp_def] at hl hr
  exact ⟨hl, hr⟩

/-- **Texts are the same once they are cut if they have the same whole characters and the same
half.** -/
theorem clip_units_inj {limit : Nat} {text other : List Char} :
    clip limit (units text).length (units text) = clip limit (units other).length (units other) ↔
      cut limit text = cut limit other ∧ half limit text = half limit other := by
  rw [clip_units, clip_units]
  refine ⟨fun h => ?_, fun ⟨hcut, hhalf⟩ => by rw [hcut, hhalf]⟩
  have hread := congrArg read h
  rw [read_clip, read_clip, map_inl_append_inj] at hread
  refine ⟨hread.1, ?_⟩
  cases hleft : half limit text <;> cases hright : half limit other <;>
    simp [hleft, hright] at hread ⊢
  exact hread.2

/-! ## A character cut in two -/

/-- The first character that does not fit. -/
def unfit : Nat → List Char → Option Char
  | _, [] => none
  | size, c :: text => if c.utf8Size ≤ size then unfit (size - c.utf8Size) text else some c

/-- Nothing but a wide character does not fit. -/
def WideUnfit (limit : Nat) (text : List Char) : Prop := ∀ c, unfit limit text = some c → isWide c = true

/-- Three bytes more than whole characters fill are left free by a wide character alone. -/
theorem cut_add_three {limit : Nat} {text : List Char} (hsize : size (cut limit text) = limit)
    (hwide : WideUnfit limit text) : cut (limit + 3) text = cut limit text ∧
      half (limit + 3) text = (unfit limit text).map highSurrogate := by
  induction text generalizing limit with
  | nil => exact ⟨rfl, rfl⟩
  | cons c text ih =>
    by_cases hfits : c.utf8Size ≤ limit
    · rw [WideUnfit, unfit, if_pos hfits] at hwide
      rw [cut, if_pos hfits, size_cons] at hsize
      rw [cut, cut, half, unfit, if_pos (by omega), if_pos hfits, if_pos (by omega), if_pos hfits,
        show limit + 3 - c.utf8Size = limit - c.utf8Size + 3 by omega]
      obtain ⟨hcut, hhalf⟩ := ih (by omega) hwide
      exact ⟨congrArg (c :: ·) hcut, hhalf⟩
    · rw [cut, if_neg hfits, size_nil] at hsize
      rw [WideUnfit, unfit, if_neg hfits] at hwide
      have hwide := hwide c rfl
      have hfour := utf8Size_of_isWide hwide
      rw [cut, cut, half, unfit, if_neg (by omega), if_neg hfits, if_neg (by omega), if_neg hfits,
        if_pos ⟨hwide, by omega⟩]
      exact ⟨rfl, rfl⟩

theorem cut_sub_three {limit : Nat} {text : List Char}
    (hsize : size (cut (limit + 3) text) = limit) :
    cut limit text = cut (limit + 3) text ∧ WideUnfit limit text := by
  induction text generalizing limit with
  | nil => exact ⟨rfl, fun c hc => by cases hc⟩
  | cons c text ih =>
    rw [WideUnfit, unfit]
    by_cases hmore : c.utf8Size ≤ limit + 3
    · rw [cut, if_pos hmore, size_cons] at hsize
      have hfits : c.utf8Size ≤ limit := by omega
      rw [show limit + 3 - c.utf8Size = limit - c.utf8Size + 3 by omega] at hsize
      obtain ⟨hcut, hwide⟩ := @ih (limit - c.utf8Size) (by omega)
      rw [cut, cut, if_pos hfits, if_pos hmore, if_pos hfits,
        show limit + 3 - c.utf8Size = limit - c.utf8Size + 3 by omega]
      exact ⟨congrArg (c :: ·) hcut, hwide⟩
    · rw [cut, if_neg hmore, size_nil] at hsize
      have hfits : ¬ c.utf8Size ≤ limit := by omega
      rw [cut, cut, if_neg hfits, if_neg hmore, if_neg hfits]
      refine ⟨rfl, fun other hother => ?_⟩
      obtain rfl := Option.some.inj hother
      by_contra hnarrow
      have hthree := (utf8Size_of_not_isWide (eq_false_of_ne_true hnarrow)).2
      omega

theorem size_cut_of_half {limit : Nat} {text : List Char} {unit : Nat}
    (h : half limit text = some unit) : size (cut limit text) + 3 = limit := by
  induction text generalizing limit with
  | nil => cases h
  | cons c text ih =>
    rw [half] at h
    rw [cut]
    split at h
    · rename_i hfits
      have hrest := ih h
      rw [if_pos hfits, size_cons]
      omega
    · rename_i hfits
      split at h
      · rename_i hwide
        have hfour := utf8Size_of_isWide hwide.1
        rw [if_neg hfits, size_nil]
        omega
      · cases h

theorem half_eq_none {limit : Nat} {text : List Char} (h : size (cut limit text) + 3 ≠ limit) :
    half limit text = none := by
  by_contra hsome
  obtain ⟨unit, hunit⟩ := Option.ne_none_iff_exists'.mp hsome
  exact h (size_cut_of_half hunit)

/-- **Texts that are cut to the same whole characters but not to the same units.** -/
theorem cut_eq_and_half_ne_iff {limit : Nat} {text other : List Char} :
    cut (limit + 3) text = cut (limit + 3) other ∧
        half (limit + 3) text ≠ half (limit + 3) other ↔
      size (cut limit text) = limit ∧ cut limit text = cut limit other ∧
        WideUnfit limit text ∧ WideUnfit limit other ∧
        (unfit limit text).map highSurrogate ≠ (unfit limit other).map highSurrogate := by
  constructor
  · rintro ⟨hcut, hne⟩
    have hsize : size (cut (limit + 3) text) = limit := by
      cases hhalf : half (limit + 3) text with
      | some unit => exact Nat.add_right_cancel (size_cut_of_half hhalf)
      | none =>
        obtain ⟨unit, hunit⟩ := Option.ne_none_iff_exists'.mp (hhalf ▸ hne.symm)
        rw [hcut]
        exact Nat.add_right_cancel (size_cut_of_half hunit)
    obtain ⟨htext, hwide⟩ := cut_sub_three hsize
    obtain ⟨hother, hwide'⟩ := cut_sub_three (hcut ▸ hsize)
    have hsize' : size (cut limit text) = limit := by rw [htext, hsize]
    have hsame : cut limit text = cut limit other := by rw [htext, hcut, hother]
    refine ⟨hsize', hsame, hwide, hwide', ?_⟩
    rw [← (cut_add_three hsize' hwide).2, ← (cut_add_three (hsame ▸ hsize') hwide').2]
    exact hne
  · rintro ⟨hsize, hsame, hwide, hwide', hne⟩
    obtain ⟨hcut, hhalf⟩ := cut_add_three hsize hwide
    obtain ⟨hcut', hhalf'⟩ := cut_add_three (hsame ▸ hsize) hwide'
    rw [hcut, hcut', hhalf, hhalf']
    exact ⟨hsame, hne⟩

end Ez4.Library.Utf16
