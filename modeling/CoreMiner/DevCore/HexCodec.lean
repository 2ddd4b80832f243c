/-
  CoreMiner.DevCore.HexCodec — bytes and their hexadecimal texts (`CommonData.cpp`: `fromHex`;
  `CommonData.h`: `toHex`; `FixedHash.h`: `hex` and the constructor from a string).

  `fromHex` walks over the text with an index of 32 bits, while the text's size has 64. Its reads
  never leave the text (`fromHexIndexed_ne_pastEnd`). Up to 2^32 - 1 characters the loop reads the
  text to its end (`fromHexIndexed_eq`), and then it accepts hexadecimal texts only, gives the
  number they denote, and reads back what `toHex` printed. The index never gets to the end of a
  longer text: it wraps around, and the loop ends by an exception or not at all
  (`fromHexLoop_of_long`). So the codec is right exactly on the shorter texts (`hex_codec_iff`).
-/

import CoreMiner.DevCore.Hex

namespace CoreMiner.DevCore

open Lib

/-! ## The loop by its indices -/

/-- What keeps `fromHex` from returning bytes. -/
inductive HexStop where
  | badHexCharacter
  /-- A character behind the terminating NUL was read. -/
  | pastEnd
  /-- The loop goes on. -/
  | running
  deriving DecidableEq

/-- `_s[i]`: a NUL stands behind the last character. -/
def charAt (s : List Char) (i : Nat) : Except HexStop Char :=
  if h : i < s.length then .ok s[i] else if i = s.length then .ok '\x00' else .error .pastEnd

def refuse : WhenError → Except HexStop (List UInt8)
  | .throw => .error .badHexCharacter
  | .dontThrow => .ok []

def fromHexLoop (s : List Char) (when_ : WhenError) : Nat → UInt32 → List UInt8 → Except HexStop (List UInt8)
  | 0, _, _ => .error .running
  | rounds + 1, i, ret =>
    if i.toNat < s.length then do
      let h ← charAt s i.toNat
      let l ← charAt s (i + 1).toNat
      match fromHexChar h, fromHexChar l with
      | some h, some l => fromHexLoop s when_ rounds (i + 2) (ret ++ [UInt8.ofNat (h * 16 + l)])
      | _, _ => refuse when_
    else .ok ret

def hexStart (s : List Char) : Except HexStop UInt32 := do
  let c ← charAt s 0
  if c = '0' then
    let d ← charAt s 1
    return if d = 'x' then 2 else 0
  else return 0

/-- `dev::fromHex(string, WhenError)`, with at most so many rounds of its loop. -/
def fromHexIndexed (s : String) (when_ : WhenError) (rounds : Nat) : Except HexStop (List UInt8) := do
  let start ← hexStart s.toList
  if s.length % 2 = 1 then
    let c ← charAt s.toList start.toNat
    match fromHexChar c with
    | some h => fromHexLoop s.toList when_ rounds (start + 1) [UInt8.ofNat h]
    | none => refuse when_
  else fromHexLoop s.toList when_ rounds start []

def Returns (s : String) (when_ : WhenError) (b : List UInt8) : Prop := ∃ rounds, fromHexIndexed s when_ rounds = .ok b

def toHexText (b : List UInt8) (pre : HexPrefix) : String :=
  match pre with
  | .add => "0x" ++ String.ofList (toHexBytes b)
  | .dontAdd => String.ofList (toHexBytes b)

/-! ## Reads -/

theorem charAt_of_lt {s : List Char} {i : Nat} (h : i < s.length) : charAt s i = .ok s[i] := dif_pos h

theorem hexStart_spec (s : List Char) :
    ∃ start, hexStart s = .ok start ∧ start.toNat ≤ s.length ∧ start.toNat % 2 = 0 ∧
      dropPrefix s = s.drop start.toNat := by
  match s with
  | [] => exact ⟨0, rfl, by decide, rfl, rfl⟩
  | [c] =>
    refine ⟨0, ?_, by simp, rfl, by simp [dropPrefix]⟩
    by_cases hc : c = '0'
    · rw [hc]
      rfl
    · simp [hexStart, charAt, hc, bind, Except.bind, pure, Except.pure]
  | c :: d :: rest =>
    by_cases hpre : c = '0' ∧ d = 'x'
    · obtain ⟨rfl, rfl⟩ := hpre
      exact ⟨2, rfl, by simp, rfl, rfl⟩
    · refine ⟨0, ?_, by simp, rfl, ?_⟩
      · by_cases hc : c = '0'
        · simp [hexStart, charAt, hc, show d ≠ 'x' from fun hd => hpre ⟨hc, hd⟩, bind, Except.bind, pure, Except.pure]
        · simp [hexStart, charAt, hc, bind, Except.bind, pure, Except.pure]
      · unfold dropPrefix
        split
        · rename_i heq
          cases heq
          exact absurd ⟨rfl, rfl⟩ hpre
        · rfl

/-- A digit in front if their number is odd, and then the loop. -/
theorem fromHexIndexed_eq_loop (s : String) : ∃ start : UInt32, start.toNat ≤ s.length ∧ start.toNat % 2 = 0 ∧
    dropPrefix s.toList = s.toList.drop start.toNat ∧
    (s.length % 2 = 0 → ∀ when_ rounds, fromHexIndexed s when_ rounds = fromHexLoop s.toList when_ rounds start []) ∧
    (s.length % 2 = 1 → ∃ c rest, s.toList.drop start.toNat = c :: rest ∧ rest = s.toList.drop (start.toNat + 1) ∧
      ∀ when_ rounds, fromHexIndexed s when_ rounds = match fromHexChar c with
        | some h => fromHexLoop s.toList when_ rounds (start + 1) [UInt8.ofNat h]
        | none => refuse when_) := by
  obtain ⟨start, hstart, hle, heven, hdrop⟩ := hexStart_spec s.toList
  have hlength : s.toList.length = s.length := String.length_toList
  refine ⟨start, by omega, heven, hdrop, fun h0 when_ rounds => ?_, fun h1 => ?_⟩
  · rw [fromHexIndexed, hstart]
    exact if_neg (by omega)
  · have hlt : start.toNat < s.toList.length := by omega
    refine ⟨s.toList[start.toNat], _, List.drop_eq_getElem_cons hlt, rfl, fun when_ rounds => ?_⟩
    have hread : fromHexIndexed s when_ rounds = charAt s.toList start.toNat >>= fun c =>
        match fromHexChar c with
        | some h => fromHexLoop s.toList when_ rounds (start + 1) [UInt8.ofNat h]
        | none => refuse when_ := by
      rw [fromHexIndexed, hstart]
      exact if_pos h1
    rw [hread, charAt_of_lt hlt]
    rfl

/-- The pairs end where the text does, or the index never gets there. -/
def Paired (s : List Char) (i : UInt32) : Prop :=
  2 ^ 32 ≤ s.length ∨ i.toNat ≤ s.length ∧ (s.length - i.toNat) % 2 = 0

theorem Paired.next {s : List Char} {i : UInt32} (h : Paired s i) (hi : i.toNat < s.length) :
    (i + 1).toNat < s.length ∧ Paired s (i + 2) := by
  have hmax := i.toNat_lt
  have hone : (i + 1).toNat = (i.toNat + 1) % 2 ^ 32 := UInt32.toNat_add i 1
  have htwo : (i + 2).toNat = (i.toNat + 2) % 2 ^ 32 := UInt32.toNat_add i 2
  rcases h with hlong | ⟨-, heven⟩
  · exact ⟨by omega, .inl hlong⟩
  · by_cases hlong : 2 ^ 32 ≤ s.length
    · exact ⟨by omega, .inl hlong⟩
    · exact ⟨by omega, .inr (by omega)⟩

theorem fromHexLoop_succ {s : List Char} {when_ : WhenError} {rounds : Nat} {i : UInt32} {ret : List UInt8}
    (hi : i.toNat < s.length) (hi' : (i + 1).toNat < s.length) :
    fromHexLoop s when_ (rounds + 1) i ret = match fromHexChar s[i.toNat], fromHexChar s[(i + 1).toNat] with
      | some h, some l => fromHexLoop s when_ rounds (i + 2) (ret ++ [UInt8.ofNat (h * 16 + l)])
      | _, _ => refuse when_ := by
  rw [fromHexLoop, if_pos hi, charAt_of_lt hi, charAt_of_lt hi']
  rfl

theorem refuse_ne_pastEnd (when_ : WhenError) : refuse when_ ≠ .error .pastEnd := by
  cases when_ <;> simp [refuse]

theorem fromHexLoop_ne_pastEnd {s : List Char} (when_ : WhenError) (rounds : Nat) {i : UInt32} (ret : List UInt8)
    (h : Paired s i) : fromHexLoop s when_ rounds i ret ≠ .error .pastEnd := by
  induction rounds generalizing i ret with
  | zero => simp [fromHexLoop]
  | succ rounds ih =>
    by_cases hi : i.toNat < s.length
    · obtain ⟨hi', hnext⟩ := h.next hi
      rw [fromHexLoop_succ hi hi']
      split
      · exact ih _ hnext
      · exact refuse_ne_pastEnd when_
    · rw [fromHexLoop, if_neg hi]
      simp

theorem fromHexIndexed_ne_pastEnd (s : String) (when_ : WhenError) (rounds : Nat) :
    fromHexIndexed s when_ rounds ≠ .error .pastEnd := by
  obtain ⟨start, hle, heven, -, hpairs, hodd⟩ := fromHexIndexed_eq_loop s
  have hlength : s.toList.length = s.length := String.length_toList
  rcases Nat.mod_two_eq_zero_or_one s.length with h0 | h1
  · rw [hpairs h0]
    exact fromHexLoop_ne_pastEnd when_ rounds _ (.inr (by omega))
  · obtain ⟨c, rest, -, -, heq⟩ := hodd h1
    have hmax := start.toNat_lt
    have hone : (start + 1).toNat = (start.toNat + 1) % 2 ^ 32 := UInt32.toNat_add start 1
    have hpaired : Paired s.toList (start + 1) := by
      rw [Paired]
      omega
    rw [heq]
    cases fromHexChar c with
    | none => exact refuse_ne_pastEnd when_
    | some h => exact fromHexLoop_ne_pastEnd when_ rounds _ hpaired

/-! ## Short texts -/

def outcome (bytes : Option (List UInt8)) (when_ : WhenError) : Except HexStop (List UInt8) :=
  match bytes with
  | some b => .ok b
  | none => refuse when_

theorem fromHexLoop_of_short {s : List Char} (when_ : WhenError) {rounds : Nat} {i : UInt32} (ret : List UInt8)
    (hshort : s.length < 2 ^ 32) (hi : i.toNat ≤ s.length) (heven : (s.length - i.toNat) % 2 = 0)
    (hrounds : s.length - i.toNat < rounds) :
    fromHexLoop s when_ rounds i ret = outcome ((fromHexPairs (s.drop i.toNat)).map (ret ++ ·)) when_ := by
  induction rounds generalizing i ret with
  | zero => omega
  | succ rounds ih =>
    by_cases hend : i.toNat = s.length
    · rw [fromHexLoop, if_neg (by omega), List.drop_of_length_le (by omega)]
      simp [fromHexPairs, outcome]
    · have hmax := i.toNat_lt
      have hone : (i + 1).toNat = i.toNat + 1 := by
        have : (i + 1).toNat = (i.toNat + 1) % 2 ^ 32 := UInt32.toNat_add i 1
        omega
      have htwo : (i + 2).toNat = i.toNat + 2 := by
        have : (i + 2).toNat = (i.toNat + 2) % 2 ^ 32 := UInt32.toNat_add i 2
        omega
      have hlt : i.toNat < s.length := by omega
      have hlt' : i.toNat + 1 < s.length := by omega
      have hdrop : s.drop i.toNat = s[i.toNat] :: s[i.toNat + 1] :: s.drop (i + 2).toNat := by
        rw [List.drop_eq_getElem_cons hlt, List.drop_eq_getElem_cons hlt', htwo]
      rw [fromHexLoop_succ hlt (by omega), hdrop]
      simp only [hone, fromHexPairs]
      cases fromHexChar s[i.toNat] with
      | none => rfl
      | some h =>
        cases fromHexChar s[i.toNat + 1] with
        | none => rfl
        | some l =>
          show fromHexLoop s when_ rounds (i + 2) _ = _
          rw [ih _ (by omega) (by omega) (by omega)]
          cases fromHexPairs (s.drop (i + 2).toNat) with
          | none => rfl
          | some b => simp [outcome]

/-- On a text that is not too long the loop ends, with what the text as a whole gives. -/
theorem fromHexIndexed_eq {s : String} (when_ : WhenError) {rounds : Nat} (hshort : s.length < 2 ^ 32)
    (hrounds : s.length < rounds) :
    fromHexIndexed s when_ rounds = (fromHex s when_).mapError fun _ => .badHexCharacter := by
  obtain ⟨start, hle, heven, hdrop, hpairs, hodd⟩ := fromHexIndexed_eq_loop s
  have hlength : s.toList.length = s.length := String.length_toList
  unfold fromHex
  rcases Nat.mod_two_eq_zero_or_one s.length with h0 | h1
  · simp only [if_neg (show ¬ s.length % 2 = 1 by omega)]
    rw [hpairs h0, hdrop, fromHexLoop_of_short when_ _ (by omega) (by omega) (by omega) (by omega)]
    cases fromHexPairs (s.toList.drop start.toNat) with
    | none => cases when_ <;> rfl
    | some b => rfl
  · obtain ⟨c, rest, hcons, hrest, heq⟩ := hodd h1
    have hone : (start + 1).toNat = start.toNat + 1 := by
      have : (start + 1).toNat = (start.toNat + 1) % 2 ^ 32 := UInt32.toNat_add start 1
      omega
    simp only [if_pos h1, hdrop, hcons, heq]
    cases fromHexChar c with
    | none => cases when_ <;> rfl
    | some h =>
      show fromHexLoop s.toList when_ rounds (start + 1) _ = _
      rw [fromHexLoop_of_short when_ _ (by omega) (by omega) (by omega) (by omega), hone, ← hrest]
      cases fromHexPairs rest with
      | none => cases when_ <;> rfl
      | some b => rfl

/-! ## Long texts -/

theorem eq_of_refuse {when_ : WhenError} {b : List UInt8} (h : refuse when_ = .ok b) : when_ = .dontThrow ∧ b = [] := by
  cases when_ with
  | throw => cases h
  | dontThrow => cases h; exact ⟨rfl, rfl⟩

/-- No index is behind a text of 2^32 characters. -/
theorem fromHexLoop_of_long {s : List Char} {when_ : WhenError} {rounds : Nat} {i : UInt32} {ret b : List UInt8}
    (hlong : 2 ^ 32 ≤ s.length) (h : fromHexLoop s when_ rounds i ret = .ok b) : when_ = .dontThrow ∧ b = [] := by
  induction rounds generalizing i ret with
  | zero => cases h
  | succ rounds ih =>
    have hmax := i.toNat_lt
    have hmax' := (i + 1).toNat_lt
    rw [fromHexLoop_succ (by omega) (by omega)] at h
    split at h
    · exact ih h
    · exact eq_of_refuse h

theorem fromHexIndexed_of_long {s : String} {when_ : WhenError} {rounds : Nat} {b : List UInt8}
    (hlong : 2 ^ 32 ≤ s.length) (h : fromHexIndexed s when_ rounds = .ok b) : when_ = .dontThrow ∧ b = [] := by
  obtain ⟨start, -, -, -, hpairs, hodd⟩ := fromHexIndexed_eq_loop s
  have hlong' : 2 ^ 32 ≤ s.toList.length := by rwa [String.length_toList]
  rcases Nat.mod_two_eq_zero_or_one s.length with h0 | h1
  · rw [hpairs h0] at h
    exact fromHexLoop_of_long hlong' h
  · obtain ⟨c, rest, -, -, heq⟩ := hodd h1
    rw [heq] at h
    cases hc : fromHexChar c with
    | none =>
      rw [hc] at h
      exact eq_of_refuse h
    | some d =>
      rw [hc] at h
      exact fromHexLoop_of_long hlong' h

/-! ## What the texts denote -/

theorem byte_toNat {h l : Nat} (hh : h < 16) (hl : l < 16) : (UInt8.ofNat (h * 16 + l)).toNat = h * 16 + l := by
  rw [UInt8.toNat_ofNat']
  omega

theorem hexValue_cons {c : Char} {d : Nat} (h : fromHexChar c = some d) (l : List Char) :
    hexValue (c :: l) = d * 16 ^ l.length + hexValue l := by
  simp [hexValue, hexDigits, Digits.value_cons, h]

theorem pow_of_pairs {n k : Nat} (h : n = 2 * k) : 16 ^ n = 256 ^ k := by
  rw [h, pow_mul]
  rfl

theorem fromHexPairs_spec : ∀ {l : List Char}, l.length % 2 = 0 → (∀ c ∈ l, isHexDigit c = true) →
    ∃ b, fromHexPairs l = some b ∧ b.length = l.length / 2 ∧ Digits.value 256 (b.map UInt8.toNat) = hexValue l
  | [], _, _ => ⟨[], rfl, rfl, rfl⟩
  | [_], heven, _ => absurd heven Nat.one_ne_zero
  | h :: l :: rest, heven, hdigits => by
    have heven' : rest.length % 2 = 0 := by
      simp only [List.length_cons] at heven
      omega
    obtain ⟨b, hb, hlength, hvalue⟩ := fromHexPairs_spec heven' fun c hc => hdigits c (by simp [hc])
    obtain ⟨x, hx⟩ := Option.isSome_iff_exists.mp (hdigits h (by simp))
    obtain ⟨y, hy⟩ := Option.isSome_iff_exists.mp (hdigits l (by simp))
    have hbyte := byte_toNat (fromHexChar_lt hx) (fromHexChar_lt hy)
    have hpow : 16 ^ rest.length = 256 ^ b.length := pow_of_pairs (by omega)
    refine ⟨UInt8.ofNat (x * 16 + y) :: b, by simp [fromHexPairs, hx, hy, hb], ?_, ?_⟩
    · simp only [List.length_cons, hlength]
      omega
    · rw [List.map_cons, Digits.value_cons, List.length_map, hbyte, hvalue, hexValue_cons hx, hexValue_cons hy,
        List.length_cons, ← hpow, pow_succ]
      ring

/-- Hexadecimal texts are read to their end. -/
theorem fromHex_hexText {s : String} (h : isHexText s = true) (when_ : WhenError) :
    ∃ b, fromHex s when_ = .ok b ∧ b.length = ((dropPrefix s.toList).length + 1) / 2 ∧
      Digits.value 256 (b.map UInt8.toNat) = hexValue (dropPrefix s.toList) := by
  have hlength := dropPrefix_length s.toList
  rw [String.length_toList] at hlength
  have hdigits := List.all_eq_true.mp h
  unfold fromHex
  dsimp only
  by_cases hodd : s.length % 2 = 1
  · rw [if_pos hodd]
    -- One digit in front is a byte of its own.
    cases hbody : dropPrefix s.toList with
    | nil => simp [hbody, hodd] at hlength
    | cons c rest =>
      rw [hbody] at hlength hdigits
      have heven : rest.length % 2 = 0 := by
        simp only [List.length_cons] at hlength
        omega
      obtain ⟨b, hb, hblength, hvalue⟩ := fromHexPairs_spec heven fun c hc => hdigits c (by simp [hc])
      obtain ⟨x, hx⟩ := Option.isSome_iff_exists.mp (hdigits c (by simp))
      have hbyte : (UInt8.ofNat x).toNat = x := by
        have := byte_toNat (h := 0) (by decide) (fromHexChar_lt hx)
        simpa using this
      have hpow : 16 ^ rest.length = 256 ^ b.length := pow_of_pairs (by omega)
      refine ⟨UInt8.ofNat x :: b, by simp [hx, hb], ?_, ?_⟩
      · simp only [List.length_cons, hblength]
        omega
      · rw [List.map_cons, Digits.value_cons, List.length_map, hbyte, hvalue, hexValue_cons hx, hpow]
  · rw [if_neg hodd]
    obtain ⟨b, hb, hblength, hvalue⟩ := fromHexPairs_spec (by omega) hdigits
    exact ⟨b, by rw [hb], by omega, hvalue⟩

theorem fromHex_isOk (s : String) : (fromHex s .throw).isOk = isHexText s := by
  rw [← h256_isOk, h256, FixedHash.ofString]
  cases fromHex s .throw <;> rfl

theorem dropPrefix_of_digits {l : List Char} (h : ∀ c ∈ l, isHexDigit c = true) : dropPrefix l = l := by
  unfold dropPrefix
  split
  · exact absurd (h 'x' (by simp)) (by decide)
  · rfl

theorem toHexBytes_digits (b : List UInt8) : ∀ c ∈ toHexBytes b, isHexDigit c = true := by
  intro c hc
  obtain ⟨x, -, hx⟩ := List.mem_flatMap.mp hc
  have hlt : x.toNat < 256 := x.toNat_lt
  simp only [List.mem_cons, List.not_mem_nil, or_false] at hx
  rcases hx with rfl | rfl
  · rw [isHexDigit, fromHexChar_digitChar (by omega)]
    rfl
  · rw [isHexDigit, fromHexChar_digitChar (by omega)]
    rfl

theorem dropPrefix_toHexText (b : List UInt8) (pre : HexPrefix) :
    dropPrefix (toHexText b pre).toList = toHexBytes b := by
  cases pre with
  | add => simp [toHexText, dropPrefix]
  | dontAdd => rw [toHexText, String.toList_ofList, dropPrefix_of_digits (toHexBytes_digits b)]

theorem fromHex_toHexText (b : List UInt8) (pre : HexPrefix) (when_ : WhenError) :
    fromHex (toHexText b pre) when_ = .ok b := by
  have hbody := dropPrefix_toHexText b pre
  have hlength := dropPrefix_length (toHexText b pre).toList
  rw [hbody, toHexBytes_length, String.length_toList] at hlength
  rw [fromHex]
  simp only [hbody, if_neg (show ¬ (toHexText b pre).length % 2 = 1 by omega), fromHexPairs_toHexBytes]

/-! ## The codec -/

theorem fromHexLoop_more {s : List Char} {when_ : WhenError} {rounds : Nat} {i : UInt32} {ret b : List UInt8}
    (h : fromHexLoop s when_ rounds i ret = .ok b) (k : Nat) : fromHexLoop s when_ (rounds + k) i ret = .ok b := by
  induction rounds generalizing i ret with
  | zero => cases h
  | succ rounds ih =>
    rw [Nat.add_right_comm, fromHexLoop]
    rw [fromHexLoop] at h
    by_cases hi : i.toNat < s.length
    · rw [if_pos hi] at h ⊢
      cases hc : charAt s i.toNat with
      | error e => rw [hc] at h; cases h
      | ok c =>
        cases hd : charAt s (i + 1).toNat with
        | error e => rw [hc, hd] at h; cases h
        | ok d =>
          rw [hc, hd] at h
          change (match fromHexChar c, fromHexChar d with | some h, some l => _ | _, _ => _) = _ at h
          show (match fromHexChar c, fromHexChar d with | some h, some l => _ | _, _ => _) = _
          split at h
          · exact ih h
          · exact h
    · rw [if_neg hi] at h ⊢
      exact h

theorem fromHexIndexed_more {s : String} {when_ : WhenError} {rounds : Nat} {b : List UInt8}
    (h : fromHexIndexed s when_ rounds = .ok b) (k : Nat) : fromHexIndexed s when_ (rounds + k) = .ok b := by
  obtain ⟨start, -, -, -, hpairs, hodd⟩ := fromHexIndexed_eq_loop s
  rcases Nat.mod_two_eq_zero_or_one s.length with h0 | h1
  · rw [hpairs h0] at h ⊢
    exact fromHexLoop_more h k
  · obtain ⟨c, rest, -, -, heq⟩ := hodd h1
    rw [heq] at h ⊢
    cases hc : fromHexChar c with
    | none =>
      rw [hc] at h
      exact h
    | some d =>
      rw [hc] at h
      exact fromHexLoop_more h k

theorem returns_of_short {s : String} {when_ : WhenError} {b : List UInt8} (hshort : s.length < 2 ^ 32) :
    Returns s when_ b ↔ fromHex s when_ = .ok b := by
  constructor
  · rintro ⟨rounds, h⟩
    have hmore := fromHexIndexed_more h (s.length + 1)
    rw [fromHexIndexed_eq when_ hshort (by omega)] at hmore
    cases hfrom : fromHex s when_ with
    | ok b' => rw [hfrom] at hmore; cases hmore; rfl
    | error e => rw [hfrom] at hmore; cases hmore
  · intro h
    refine ⟨s.length + 1, ?_⟩
    rw [fromHexIndexed_eq when_ hshort (Nat.lt_succ_self _), h]
    rfl

/-- With `WhenError::Throw`, `fromHex` returns exactly on hexadecimal text, and then the number the digits denote; an
    odd number of digits is filled up by a zero in front. -/
def ReadsExactly (s : String) : Prop :=
  ((∃ b, Returns s .throw b) ↔ isHexText s = true) ∧
    ∀ b, Returns s .throw b → b.length = ((dropPrefix s.toList).length + 1) / 2 ∧
      Digits.value 256 (b.map UInt8.toNat) = hexValue (dropPrefix s.toList)

theorem readsExactly_iff (s : String) : ReadsExactly s ↔ (isHexText s = true → s.length < 2 ^ 32) := by
  by_cases hshort : s.length < 2 ^ 32
  · refine iff_of_true ⟨?_, fun b hb => ?_⟩ fun _ => hshort
    · rw [← fromHex_isOk]
      simp only [returns_of_short hshort]
      cases fromHex s .throw <;> simp [Except.isOk, Except.toBool]
    · rw [returns_of_short hshort] at hb
      have htext : isHexText s = true := by rw [← fromHex_isOk, hb]; rfl
      obtain ⟨b', hb', hspec⟩ := fromHex_hexText htext .throw
      cases hb.symm.trans hb'
      exact hspec
  · have hnever : ¬ ∃ b, Returns s .throw b := by
      rintro ⟨b, rounds, h⟩
      cases (fromHexIndexed_of_long (Nat.not_lt.mp hshort) h).1
    refine ⟨fun h htext => absurd (h.1.mpr htext) hnever, fun h => ⟨?_, fun b hb => absurd ⟨b, hb⟩ hnever⟩⟩
    exact iff_of_false hnever fun htext => hshort (h htext)

theorem toHexText_length (b : List UInt8) (pre : HexPrefix) :
    (toHexText b pre).length = 2 * b.length + if pre = .add then 2 else 0 := by
  cases pre with
  | add => simp [toHexText, String.length_append, toHexBytes_length, show "0x".length = 2 from rfl, Nat.add_comm]
  | dontAdd => simp [toHexText, toHexBytes_length]

/-- What is printed is read back exactly if it is not too long. -/
theorem returns_toHexText_iff (b : List UInt8) (pre : HexPrefix) (when_ : WhenError) :
    Returns (toHexText b pre) when_ b ↔ (toHexText b pre).length < 2 ^ 32 := by
  constructor
  · rintro ⟨rounds, h⟩
    by_contra hlong
    rw [Nat.not_lt] at hlong
    have hempty := (fromHexIndexed_of_long hlong h).2
    rw [hempty] at hlong
    cases pre <;> exact absurd hlong (by decide)
  · intro hshort
    rw [returns_of_short hshort]
    exact fromHex_toHexText b pre when_

/-- Bytes are read back and texts are read exactly, if the texts are short enough for the index;
    hashes always are. No read is past the end. -/
theorem hex_codec_iff (b : List UInt8) (pre : HexPrefix) (when_ : WhenError) (h : H256) (s : String) :
    (Returns (toHexText b pre) when_ b ↔ (toHexText b pre).length < 2 ^ 32) ∧
    (∃ rounds, (fromHexIndexed (h.hex pre) .throw rounds).map (FixedHash.ofBytes 32) = .ok h) ∧
    (ReadsExactly s ↔ (isHexText s = true → s.length < 2 ^ 32)) ∧
    ∀ rounds, fromHexIndexed s when_ rounds ≠ .error .pastEnd := by
  refine ⟨returns_toHexText_iff b pre when_, ?_, readsExactly_iff s, fromHexIndexed_ne_pastEnd s when_⟩
  have hshort : (toHexText h.data pre).length < 2 ^ 32 := by
    rw [toHexText_length, h.size]
    split <;> omega
  obtain ⟨rounds, hread⟩ := (returns_toHexText_iff h.data pre .throw).mpr hshort
  have hprint : h.hex pre = toHexText h.data pre := by cases pre <;> rfl
  refine ⟨rounds, ?_⟩
  rw [hprint, hread]
  show Except.ok (FixedHash.ofBytes 32 h.data) = _
  rw [FixedHash.ofBytes, dif_pos h.size]

/-- 2^32 zeros: hexadecimal text that is never read to its end. -/
theorem long_text_unread : isHexText (String.ofList (List.replicate (2 ^ 32) '0')) = true ∧
    ¬ ReadsExactly (String.ofList (List.replicate (2 ^ 32) '0')) := by
  have hzeros : ∀ c ∈ List.replicate (2 ^ 32) '0', isHexDigit c = true := by
    intro c hc
    rw [List.eq_of_mem_replicate hc]
    decide
  have htext : isHexText (String.ofList (List.replicate (2 ^ 32) '0')) = true := by
    rw [isHexText, String.toList_ofList, dropPrefix_of_digits hzeros]
    exact List.all_eq_true.mpr hzeros
  refine ⟨htext, fun h => ?_⟩
  have hshort := (readsExactly_iff _).mp h htext
  rw [String.length_ofList, List.length_replicate] at hshort
  exact Nat.lt_irrefl _ hshort

end CoreMiner.DevCore
