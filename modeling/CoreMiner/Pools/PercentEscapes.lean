/-
  CoreMiner.Pools.PercentEscapes — which texts `url_decode` accepts (`PoolURI.cpp`; the table of
  `STRATUM.md`).

  The two characters behind a percent sign go through a stream, which skips a blank, takes a sign,
  and leaves what is no digit where it is. The loop skips both in any case. So besides two digits
  it takes a blank or a sign and a digit, and a digit with anything behind it (`readHex_isSome`),
  and then characters get lost. A text is decoded as it should be exactly if it has no such
  escape, or another one that is refused (`urlDecode_exact_iff`).
-/

import CoreMiner.Pools.Uri

namespace CoreMiner.Pools

open DevCore

/-! ## The loop by its index -/

/-- The loop of `url_decode` from index `i` on; each access has its bound. -/
def urlDecodeFrom (s : List Char) (i : Nat) (out : List Char) : Option (List Char) :=
  if h : i < s.length then
    if s[i] = '%' then
      if h3 : i + 3 ≤ s.length then
        match readHex (s.get ⟨i + 1, Nat.lt_of_succ_lt h3⟩) s[i + 2] with
        | some value => urlDecodeFrom s (i + 3) (out ++ [charOf value])
        | none => none
      else none
    else if s[i] = '+' then urlDecodeFrom s (i + 1) (out ++ [' '])
    else urlDecodeFrom s (i + 1) (out ++ [s[i]])
  else some out
termination_by s.length - i

/-! ## What is wanted -/

def wellFormed : List Char → Bool
  | [] => true
  | c :: s =>
    (if c = '%' then match s with
      | d :: e :: _ => isHexDigit d && isHexDigit e
      | _ => false
    else true) && wellFormed s

/-- Each `%hh` is replaced by the byte, each plus by a blank, and all else is kept. -/
def replaced : List Char → List Char
  | [] => []
  | c :: s =>
    if c = '%' then match s with
      | d :: e :: s => Char.ofNat (hexValue [d, e]) :: replaced s
      | _ => []
    else if c = '+' then ' ' :: replaced s
    else c :: replaced s

def DecodesExactly (s : List Char) : Prop :=
  ((urlDecodeFrom s 0 []).isSome = true ↔ wellFormed s = true) ∧
    (wellFormed s = true → urlDecodeFrom s 0 [] = some (replaced s))

/-! ## Escapes -/

def escapes : List Char → List (List Char)
  | [] => []
  | c :: s =>
    if c = '%' then match s with
      | d :: e :: s => [d, e] :: escapes s
      | s => [s]
    else escapes s

def isByte : List Char → Bool
  | [d, e] => isHexDigit d && isHexDigit e
  | _ => false

/-- What the stream takes besides: a blank or a sign and a digit, or a digit and something else, unless they are the
    prefix of a number. -/
def isLenient : List Char → Bool
  | [d, e] => (isSpace d || d = '-' || d = '+') && isHexDigit e ||
      isHexDigit d && !isHexDigit e && !(d = '0' && (e = 'x' || e = 'X'))
  | _ => false

theorem not_isHexDigit {d : Char} (h : isSpace d = true ∨ d = '-' ∨ d = '+') : isHexDigit d = false := by
  rcases h with h | rfl | rfl
  · by_contra hd
    rw [isSpace_of_isHexDigit (Bool.not_eq_false _ ▸ hd)] at h
    cases h
  · decide
  · decide

/-- The stream takes two digits, and what is lenient. -/
theorem readHex_isSome (d e : Char) : (readHex d e).isSome = (isByte [d, e] || isLenient [d, e]) := by
  unfold readHex
  by_cases hsign : isSpace d = true ∨ d = '-' ∨ d = '+'
  · have hd := not_isHexDigit hsign
    have hright : (isByte [d, e] || isLenient [d, e]) = isHexDigit e := by
      have hsign' : (isSpace d || d = '-' || d = '+') = true := by simpa [or_assoc] using hsign
      simp [isByte, isLenient, hd, hsign']
    rw [hright]
    rcases hsign with h | rfl | rfl
    · rw [if_pos h]
      cases he : fromHexChar e <;> simp [isHexDigit, he]
    · rw [if_neg (by decide), if_pos rfl]
      cases he : fromHexChar e <;> simp [isHexDigit, he]
    · rw [if_neg (by decide), if_neg (by decide), if_pos rfl]
      cases he : fromHexChar e <;> simp [isHexDigit, he]
  · obtain ⟨hspace, hminus, hplus⟩ : isSpace d = false ∧ d ≠ '-' ∧ d ≠ '+' := by simpa using hsign
    rw [if_neg (by simp [hspace]), if_neg hminus, if_neg hplus]
    cases hd : fromHexChar d with
    | none => simp [isByte, isLenient, isHexDigit, hd, hspace, hminus, hplus]
    | some v =>
      have hdigit : isHexDigit d = true := by rw [isHexDigit, hd]; rfl
      by_cases hpre : d = '0' ∧ (e = 'x' ∨ e = 'X')
      · have he : isHexDigit e = false := by rcases hpre.2 with rfl | rfl <;> decide
        have hpre' : (d = '0' && (e = 'x' || e = 'X')) = true := by simpa using hpre
        simp only [if_pos hpre, isByte, isLenient, he, hpre']
        simp
      · simp only [if_neg hpre]
        have hpre' : (d = '0' && (e = 'x' || e = 'X')) = false := by simpa using hpre
        cases he : fromHexChar e with
        | none => simp [isByte, isLenient, isHexDigit, he, hd, hspace, hminus, hplus, hpre']
        | some w => simp [isByte, isHexDigit, he, hd]

theorem readHex_of_isByte {d e : Char} (h : isByte [d, e] = true) : readHex d e = some (hexValue [d, e] : Int) := by
  obtain ⟨hd, he⟩ : isHexDigit d = true ∧ isHexDigit e = true := by simpa [isByte] using h
  have hsign : ¬ (isSpace d = true ∨ d = '-' ∨ d = '+') := by
    intro hsign
    rw [not_isHexDigit hsign] at hd
    cases hd
  obtain ⟨hspace, hminus, hplus⟩ : isSpace d = false ∧ d ≠ '-' ∧ d ≠ '+' := by simpa using hsign
  have hx : ¬ (d = '0' ∧ (e = 'x' ∨ e = 'X')) := by
    rintro ⟨-, rfl | rfl⟩ <;> exact absurd he (by decide)
  obtain ⟨v, hv⟩ := Option.isSome_iff_exists.mp hd
  obtain ⟨w, hw⟩ := Option.isSome_iff_exists.mp he
  unfold readHex
  rw [if_neg (by simp [hspace]), if_neg hminus, if_neg hplus]
  simp only [hv, hw, if_neg hx]
  simp [hexValue, hexDigits, hv, hw, Lib.Digits.value, Nat.mul_comm]

theorem charOf_hexValue (d e : Char) : charOf (hexValue [d, e] : Int) = Char.ofNat (hexValue [d, e]) := by
  have hlt : hexValue [d, e] < 16 ^ 2 := hexValue_lt [d, e]
  rw [charOf]
  congr 1
  omega

section step

variable {c : Char} {s : List Char}

theorem wellFormed_cons (h : c ≠ '%') : wellFormed (c :: s) = wellFormed s := by
  conv_lhs => unfold wellFormed
  rw [if_neg h, Bool.true_and]

theorem urlDecode_cons (h : c ≠ '%') : urlDecode (c :: s) = (urlDecode s).map ((if c = '+' then ' ' else c) :: ·) := by
  conv_lhs => unfold urlDecode
  rw [if_neg h]
  split <;> rfl

theorem replaced_cons (h : c ≠ '%') : replaced (c :: s) = (if c = '+' then ' ' else c) :: replaced s := by
  conv_lhs => unfold replaced
  rw [if_neg h]
  split <;> rfl

theorem urlDecode_short (h : s.length ≤ 1) : urlDecode ('%' :: s) = none := by
  match s, h with
  | [], _ => rfl
  | [_], _ => rfl

end step

theorem length_le_one {s : List Char} (h : ∀ d e s', s = d :: e :: s' → False) : s.length ≤ 1 := by
  match s, h with
  | [], _ => decide
  | [_], _ => exact Nat.le_refl 1
  | _ :: _ :: _, h => exact (h _ _ _ rfl).elim

theorem isByte_short {s : List Char} (h : s.length ≤ 1) : isByte s = false ∧ isLenient s = false := by
  match s, h with
  | [], _ => exact ⟨rfl, rfl⟩
  | [_], _ => exact ⟨rfl, rfl⟩

theorem ne_percent_of_isHexDigit {c : Char} (h : isHexDigit c = true) : c ≠ '%' := by
  rintro rfl
  exact absurd h (by decide)

/-- A text is well-formed if the escapes the loop meets are; there are no others. -/
theorem wellFormed_iff (s : List Char) : wellFormed s = true ↔ ∀ x ∈ escapes s, isByte x = true := by
  fun_induction escapes s with
  | case1 => simp [wellFormed]
  | case2 d e s ih =>
    have hskip (h : isByte [d, e] = true) : wellFormed (d :: e :: s) = wellFormed s := by
      obtain ⟨hd, he⟩ : isHexDigit d = true ∧ isHexDigit e = true := by simpa [isByte] using h
      rw [wellFormed_cons (ne_percent_of_isHexDigit hd), wellFormed_cons (ne_percent_of_isHexDigit he)]
    have hunfold : wellFormed ('%' :: d :: e :: s) = (isByte [d, e] && wellFormed (d :: e :: s)) := rfl
    rw [hunfold, Bool.and_eq_true, List.forall_mem_cons, ← ih]
    exact and_congr_right fun h => by rw [hskip h]
  | case3 s hshort =>
    have hlength := length_le_one hshort
    have hno : wellFormed ('%' :: s) = false := by
      match s, hlength with
      | [], _ => rfl
      | [_], _ => rfl
    simp [(isByte_short hlength).1, hno]
  | case4 c s hc ih =>
    rw [wellFormed_cons hc]
    exact ih

/-! ## What the loop does -/

theorem urlDecodeFrom_eq (s : List Char) (i : Nat) (out : List Char) :
    urlDecodeFrom s i out = (urlDecode (s.drop i)).map (out ++ ·) := by
  fun_induction urlDecodeFrom s i out with
  | case1 i out h hc h3 value hread ih =>
    rw [List.get_eq_getElem] at hread
    rw [ih, List.drop_eq_getElem_cons h, List.drop_eq_getElem_cons (show i + 1 < s.length by omega),
      List.drop_eq_getElem_cons (show i + 2 < s.length by omega), urlDecode, if_pos hc]
    simp only [hread]
    cases urlDecode (s.drop (i + 3)) <;> simp
  | case2 i out h hc h3 hread =>
    rw [List.get_eq_getElem] at hread
    rw [List.drop_eq_getElem_cons h, List.drop_eq_getElem_cons (show i + 1 < s.length by omega),
      List.drop_eq_getElem_cons (show i + 2 < s.length by omega), urlDecode, if_pos hc]
    simp only [hread]
    rfl
  | case3 i out h hc h3 =>
    have hshort : (s.drop (i + 1)).length ≤ 1 := by
      rw [List.length_drop]
      omega
    rw [List.drop_eq_getElem_cons h, hc, urlDecode_short hshort]
    rfl
  | case4 i out h hc hplus ih =>
    rw [ih, List.drop_eq_getElem_cons h, urlDecode_cons hc, if_pos hplus]
    cases urlDecode (s.drop (i + 1)) <;> simp
  | case5 i out h hc hplus ih =>
    rw [ih, List.drop_eq_getElem_cons h, urlDecode_cons hc, if_neg hplus]
    cases urlDecode (s.drop (i + 1)) <;> simp
  | case6 i out h =>
    rw [List.drop_of_length_le (by omega), urlDecode]
    simp

theorem urlDecode_isSome (s : List Char) :
    (urlDecode s).isSome = true ↔ ∀ x ∈ escapes s, isByte x = true ∨ isLenient x = true := by
  fun_induction escapes s with
  | case1 => simp [urlDecode]
  | case2 d e s ih =>
    have hread : (readHex d e).isSome = true ↔ isByte [d, e] = true ∨ isLenient [d, e] = true := by
      rw [readHex_isSome, Bool.or_eq_true]
    rw [List.forall_mem_cons, ← ih, ← hread, urlDecode, if_pos rfl]
    cases hr : readHex d e with
    | none => simp
    | some value => simp
  | case3 s hshort =>
    have hlength := length_le_one hshort
    simp [urlDecode_short hlength, isByte_short hlength]
  | case4 c s hc ih =>
    rw [← ih, urlDecode_cons hc, Option.isSome_map]

theorem urlDecode_of_wellFormed {s : List Char} (h : ∀ x ∈ escapes s, isByte x = true) :
    urlDecode s = some (replaced s) := by
  fun_induction escapes s with
  | case1 => rfl
  | case2 d e s ih =>
    rw [List.forall_mem_cons] at h
    rw [urlDecode, if_pos rfl, replaced, if_pos rfl]
    simp only [readHex_of_isByte h.1, ih h.2, charOf_hexValue, Option.map_some]
  | case3 s hshort =>
    have hbyte := h s (List.mem_singleton.mpr rfl)
    rw [(isByte_short (length_le_one hshort)).1] at hbyte
    cases hbyte
  | case4 c s hc ih =>
    rw [urlDecode_cons hc, replaced_cons hc, ih h]
    rfl

/-- A text is decoded as it should be exactly if no escape of it is lenient, or one is refused. -/
theorem urlDecode_exact_iff (s : List Char) : DecodesExactly s ↔
    ((∀ x ∈ escapes s, isByte x = true ∨ isLenient x = true) → ∀ x ∈ escapes s, isByte x = true) := by
  have hrun : urlDecodeFrom s 0 [] = urlDecode s := by
    rw [urlDecodeFrom_eq, List.drop_zero]
    simp
  rw [DecodesExactly, hrun, urlDecode_isSome, wellFormed_iff, and_iff_left urlDecode_of_wellFormed]
  exact ⟨fun h => h.mp, fun h => ⟨h, fun hall x hx => .inl (hall x hx)⟩⟩

/-- `%4z` is taken for the byte 4, and the `z` is lost. -/
theorem letter_dropped : ¬ DecodesExactly "%4z".toList ∧
    urlDecodeFrom "%4z".toList 0 [] = some ['\x04'] := by
  rw [urlDecode_exact_iff, urlDecodeFrom_eq]
  decide +kernel

end CoreMiner.Pools
