/-
  CoreMiner.DevCore.Hex — libdevcore's conversions between text and numbers or bytes
  (`CommonData.h`, `CommonData.cpp`), `FixedHash`, and the C++ library's `stoul`,
  `stoull` and `stoi` in base 16, which the pool messages go through.

  A `std::string` is a `String` whose characters stand for its bytes. A conversion that
  throws returns the exception.
-/

import CoreMiner.Lib.Digits
import Mathlib.Data.List.TakeWhile

namespace CoreMiner.DevCore

open Lib

inductive StdException where
  | invalidArgument
  | outOfRange
  | logicError
  | runtimeError
  | badHexCharacter
  | systemError
  deriving DecidableEq, Repr

inductive WhenError where
  | dontThrow
  | throw
  deriving DecidableEq, Repr

inductive HexPrefix where
  | dontAdd
  | add
  deriving DecidableEq, Repr

/-! ## Hexadecimal digits -/

/-- `dev::fromHex(char)`: `none` is its -1. -/
def fromHexChar (c : Char) : Option Nat :=
  if '0' ≤ c ∧ c ≤ '9' then some (c.toNat - '0'.toNat)
  else if 'a' ≤ c ∧ c ≤ 'f' then some (c.toNat - 'a'.toNat + 10)
  else if 'A' ≤ c ∧ c ≤ 'F' then some (c.toNat - 'A'.toNat + 10)
  else none

def isHexDigit (c : Char) : Bool := (fromHexChar c).isSome

/-- The digits of a hexadecimal text (a character that is none counts as 0). -/
def hexDigits (s : List Char) : List Nat := s.map fun c => (fromHexChar c).getD 0

def hexValue (s : List Char) : Nat := Digits.value 16 (hexDigits s)

/-- `dev::toHex(uint64_t)`: lower case, filled with zeros up to `width` digits. -/
def toHex (n : UInt64) (pre : HexPrefix) (width : Nat) : String :=
  let digits := Nat.toDigits 16 n.toNat
  let text := String.ofList (List.replicate (width - digits.length) '0' ++ digits)
  match pre with
  | .add => "0x" ++ text
  | .dontAdd => text

def toCompactHex (n : Nat) : String := String.ofList (Nat.toDigits 16 n)

def padLeft (s : String) (length : Nat) (fill : Char) : String :=
  String.ofList (List.replicate (length - s.length) fill) ++ s

def substr (s : String) (pos : Nat) : Except StdException String :=
  if s.length < pos then .error .outOfRange else .ok (String.ofList (s.toList.drop pos))

/-- `std::string::resize(n, c)`: cut or filled at the end. -/
def resize (s : String) (n : Nat) (c : Char) : String :=
  String.ofList (s.toList.take n ++ List.replicate (n - s.length) c)

/-! ## Byte strings -/

/-- The pairwise loop of `dev::fromHex`; a half pair at the end would be read against
    the terminating NUL, which is no digit. -/
def fromHexPairs : List Char → Option (List UInt8)
  | [] => some []
  | [_] => none
  | h :: l :: rest => do
    let h ← fromHexChar h
    let l ← fromHexChar l
    let bytes ← fromHexPairs rest
    return UInt8.ofNat (h * 16 + l) :: bytes

def dropPrefix : List Char → List Char
  | '0' :: 'x' :: rest => rest
  | s => s

def fromHex (s : String) (when_ : WhenError) : Except StdException (List UInt8) :=
  let body := dropPrefix s.toList
  let bytes := if s.length % 2 = 1
    then match body with
      | [] => none
      | c :: rest => do
        let h ← fromHexChar c
        let bytes ← fromHexPairs rest
        return UInt8.ofNat h :: bytes
    else fromHexPairs body
  match bytes, when_ with
  | some b, _ => .ok b
  | none, .throw => .error .badHexCharacter
  | none, .dontThrow => .ok []

def toHexBytes (b : List UInt8) : List Char :=
  b.flatMap fun x => [Nat.digitChar (x.toNat / 16), Nat.digitChar (x.toNat % 16)]

/-- `FixedHash<N>`: exactly `N` bytes, the most significant one first. -/
structure FixedHash (N : Nat) where
  data : List UInt8
  size : data.length = N
  deriving DecidableEq

namespace FixedHash

def zero (N : Nat) : FixedHash N := ⟨List.replicate N 0, List.length_replicate⟩

/-- `FixedHash(bytes, FailIfDifferent)`: any other length gives the zero hash. -/
def ofBytes (N : Nat) (b : List UInt8) : FixedHash N := if h : b.length = N then ⟨b, h⟩ else zero N

def ofString (N : Nat) (s : String) : Except StdException (FixedHash N) :=
  (fromHex s .throw).map (ofBytes N)

def hex {N : Nat} (h : FixedHash N) (pre : HexPrefix) : String :=
  match pre with
  | .add => "0x" ++ String.ofList (toHexBytes h.data)
  | .dontAdd => String.ofList (toHexBytes h.data)

end FixedHash

def isHexText (s : String) : Bool := (dropPrefix s.toList).all isHexDigit

abbrev H256 := FixedHash 32

abbrev h256 (s : String) : Except StdException H256 := FixedHash.ofString 32 s

/-! ## Targets and difficulties -/

def baseTarget : Nat := 0xffff * 2 ^ 208

/-- `dev::getTargetFromDiff` of a difficulty that is not zero; its reciprocal is given by its whole
    part and by the decimals it is written with. -/
def getTargetFromDiff (idiff : Nat) (decimals : List Nat) : String :=
  "0x" ++ padLeft (toCompactHex (baseTarget * idiff +
    baseTarget * Digits.value 10 decimals / 10 ^ decimals.length)) 64 '0'

/-! ## `stoul`, `stoull`, `stoi` with base 16 -/

def isSpace (c : Char) : Bool := [' ', '\t', '\n', '\x0b', '\x0c', '\r'].contains c

def takeSign : List Char → Bool × List Char
  | '-' :: rest => (true, rest)
  | '+' :: rest => (false, rest)
  | s => (false, s)

/-- The optional `0x` of base 16: taken only in front of a digit. -/
def skipRadix : List Char → List Char
  | '0' :: 'x' :: c :: rest => if isHexDigit c then c :: rest else '0' :: 'x' :: c :: rest
  | '0' :: 'X' :: c :: rest => if isHexDigit c then c :: rest else '0' :: 'X' :: c :: rest
  | s => s

/-- `strtol` and `strtoul` in base 16: the sign and the magnitude of the longest numeral at
    the front, `none` when there is none. -/
def strtol16 (s : List Char) : Option (Bool × Nat) :=
  let (negative, body) := takeSign (s.dropWhile isSpace)
  let digits := (skipRadix body).takeWhile isHexDigit
  if digits.isEmpty then none else some (negative, hexValue digits)

/-- `std::stoul(s, nullptr, 16)` with a 64-bit `unsigned long`; also `std::stoull`. -/
def stoul (s : String) : Except StdException UInt64 :=
  match strtol16 s.toList with
  | none => .error .invalidArgument
  | some (negative, m) =>
    if 2 ^ 64 ≤ m then .error .outOfRange
    else .ok (if negative then 0 - UInt64.ofNat m else UInt64.ofNat m)

def stoi (s : String) : Except StdException Int :=
  match strtol16 s.toList with
  | none => .error .invalidArgument
  | some (negative, m) =>
    let v : Int := if negative then -m else m
    if v < -2 ^ 31 ∨ 2 ^ 31 ≤ v then .error .outOfRange else .ok v

@[irreducible] def toInt32 (n : UInt64) : Int := Int.bmod n.toNat (2 ^ 32)

/-! ## Hexadecimal text and its value -/

theorem fromHexChar_lt {c : Char} {d : Nat} (h : fromHexChar c = some d) : d < 16 := by
  unfold fromHexChar at h
  have h9 : ('9' : Char).toNat = 57 := rfl
  have hf : ('f' : Char).toNat = 102 := rfl
  have hF : ('F' : Char).toNat = 70 := rfl
  split at h
  · rename_i hc
    have := UInt32.le_iff_toNat_le.mp hc.2
    cases h
    show c.toNat - 48 < 16
    have : c.toNat ≤ 57 := this
    omega
  split at h
  · rename_i hc
    have : c.toNat ≤ 102 := UInt32.le_iff_toNat_le.mp hc.2
    cases h
    show c.toNat - 97 + 10 < 16
    omega
  split at h
  · rename_i hc
    have : c.toNat ≤ 70 := UInt32.le_iff_toNat_le.mp hc.2
    cases h
    show c.toNat - 65 + 10 < 16
    omega
  · cases h

theorem hexDigits_lt (s : List Char) : ∀ d ∈ hexDigits s, d < 16 := by
  intro d hd
  obtain ⟨c, -, rfl⟩ := List.mem_map.mp hd
  cases h : fromHexChar c with
  | none => simp
  | some d => simpa using fromHexChar_lt h

@[simp] theorem hexDigits_length (s : List Char) : (hexDigits s).length = s.length := List.length_map _

theorem hexValue_append (x y : List Char) : hexValue (x ++ y) = hexValue x * 16 ^ y.length + hexValue y := by
  simp [hexValue, hexDigits, List.map_append, Digits.value_append]

theorem hexValue_lt (s : List Char) : hexValue s < 16 ^ s.length := by
  simpa [hexValue] using Digits.value_lt (hexDigits_lt s)

theorem hexValue_drop (s : List Char) (k : Nat) : hexValue (s.drop k) = hexValue s % 16 ^ (s.length - k) := by
  simpa [hexValue, hexDigits, List.map_drop] using Digits.value_drop (hexDigits_lt s) k

@[simp] theorem hexValue_zeros (k : Nat) : hexValue (List.replicate k '0') = 0 := by
  have h0 : fromHexChar '0' = some 0 := by decide
  simp [hexValue, hexDigits, List.map_replicate, h0]

theorem fromHexChar_digitChar {d : Nat} (h : d < 16) : fromHexChar (Nat.digitChar d) = some d := by
  have hall : ∀ d < 16, fromHexChar (Nat.digitChar d) = some d := by decide
  exact hall d h

/-! ## What `toHex` prints -/

theorem toDigits_hex (n : Nat) :
    hexValue (Nat.toDigits 16 n) = n ∧ ∀ c ∈ Nat.toDigits 16 n, isHexDigit c = true := by
  -- One digit, or the digits of the quotient and then the remainder's.
  induction n using Nat.strongRecOn with
  | ind n ih =>
    rcases Nat.lt_or_ge n 16 with h | h
    · rw [Nat.toDigits_of_lt_base h]
      simp [hexValue, hexDigits, Digits.value, isHexDigit, fromHexChar_digitChar h]
    · have hd : n % 16 < 16 := Nat.mod_lt _ (by decide)
      obtain ⟨ihv, ihd⟩ := ih (n / 16) (by omega)
      rw [Nat.toDigits_of_base_le (by decide) h, hexValue_append, ihv]
      refine ⟨?_, fun c hc => ?_⟩
      · simp only [hexValue, hexDigits, List.map_cons, List.map_nil, fromHexChar_digitChar hd, Digits.value,
          List.foldl_cons, List.foldl_nil, Option.getD_some, List.length_singleton, pow_one]
        omega
      · rcases List.mem_append.mp hc with hc | hc
        · exact ihd c hc
        · rw [List.mem_singleton.mp hc, isHexDigit, fromHexChar_digitChar hd]
          rfl

theorem toHex_spec (n : UInt64) :
    (toHex n .dontAdd 16).toList.length = 16 ∧ hexValue (toHex n .dontAdd 16).toList = n.toNat ∧
      ∀ c ∈ (toHex n .dontAdd 16).toList, isHexDigit c = true := by
  have hlen : (Nat.toDigits 16 n.toNat).length ≤ 16 :=
    (Nat.length_toDigits_le_iff (by decide) (by decide)).mpr n.toNat_lt
  obtain ⟨hv, hd⟩ := toDigits_hex n.toNat
  simp only [toHex, String.toList_ofList]
  refine ⟨by simp; omega, by rw [hexValue_append, hexValue_zeros, hv]; omega, fun c hc => ?_⟩
  rcases List.mem_append.mp hc with hc | hc
  · rw [(List.mem_replicate.mp hc).2]
    decide
  · exact hd c hc

/-! ## What `FixedHash` reads back -/

theorem fromHexPairs_toHexBytes (b : List UInt8) : fromHexPairs (toHexBytes b) = some b := by
  induction b with
  | nil => rfl
  | cons x b ih =>
    have hx : x.toNat < 256 := x.toNat_lt
    have hbyte : x.toNat / 16 * 16 + x.toNat % 16 = x.toNat := by omega
    show fromHexPairs (Nat.digitChar (x.toNat / 16) :: Nat.digitChar (x.toNat % 16) :: toHexBytes b) = _
    rw [fromHexPairs, fromHexChar_digitChar (by omega), fromHexChar_digitChar (Nat.mod_lt _ (by decide)), ih]
    show some (UInt8.ofNat (x.toNat / 16 * 16 + x.toNat % 16) :: b) = _
    rw [hbyte, UInt8.ofNat_toNat]

theorem toHexBytes_length (b : List UInt8) : (toHexBytes b).length = 2 * b.length := by
  induction b with
  | nil => rfl
  | cons x b ih =>
    show (toHexBytes b).length + 2 = 2 * (b.length + 1)
    omega

theorem FixedHash.ofString_hex {N : Nat} (h : FixedHash N) : ofString N (h.hex .add) = .ok h := by
  have hlen : (h.hex .add).length % 2 = 0 := by
    have hradix : "0x".length = 2 := rfl
    simp [hex, String.length_append, toHexBytes_length, hradix]
  have hbody : dropPrefix (h.hex .add).toList = toHexBytes h.data := by
    simp [hex, dropPrefix]
  have hread : fromHex (h.hex .add) .throw = .ok h.data := by
    simp [fromHex, hlen, hbody, fromHexPairs_toHexBytes]
  rw [ofString, hread]
  simp [Except.map, ofBytes, h.size]

theorem h256_hex (h : H256) : h256 (h.hex .add) = .ok h := FixedHash.ofString_hex h

theorem fromHexPairs_isSome : ∀ {l : List Char}, l.length % 2 = 0 → (fromHexPairs l).isSome = l.all isHexDigit
  | [], _ => rfl
  | [_], h => absurd h Nat.one_ne_zero
  | h :: l :: rest, heven => by
    have hrest := fromHexPairs_isSome (l := rest) (by simp only [List.length_cons] at heven; omega)
    simp only [List.all_cons, ← hrest, isHexDigit, fromHexPairs]
    cases fromHexChar h <;> cases fromHexChar l <;> cases fromHexPairs rest <;> rfl

theorem dropPrefix_length (l : List Char) : (dropPrefix l).length % 2 = l.length % 2 := by
  unfold dropPrefix
  split
  · simp only [List.length_cons]
    omega
  · rfl

theorem h256_isOk (s : String) : (h256 s).isOk = isHexText s := by
  have hlength := dropPrefix_length s.toList
  rw [String.length_toList] at hlength
  have hmap (e : Except StdException (List UInt8)) : (e.map (FixedHash.ofBytes 32)).isOk = e.isOk := by cases e <;> rfl
  rw [h256, FixedHash.ofString, hmap]
  unfold fromHex isHexText
  dsimp only
  by_cases hodd : s.length % 2 = 1
  · rw [if_pos hodd]
    cases hbody : dropPrefix s.toList with
    | nil => simp [hbody, hodd] at hlength
    | cons c rest =>
      have hrest := fromHexPairs_isSome (l := rest) (by simp only [hbody, List.length_cons] at hlength; omega)
      simp only [List.all_cons, ← hrest, isHexDigit]
      cases fromHexChar c <;> cases fromHexPairs rest <;> rfl
  · rw [if_neg hodd, ← fromHexPairs_isSome (by omega)]
    cases fromHexPairs (dropPrefix s.toList) <;> rfl

/-! ## What `stoul` reads -/

theorem isSpace_of_isHexDigit {c : Char} (h : isHexDigit c = true) : isSpace c = false := by
  by_contra hs
  simp only [isSpace, Bool.not_eq_false, List.contains_iff_mem, List.mem_cons, List.not_mem_nil, or_false] at hs
  rcases hs with rfl | rfl | rfl | rfl | rfl | rfl <;> exact absurd h (by decide)

theorem takeSign_of_isHexDigit {c : Char} {l : List Char} (h : isHexDigit c = true) :
    takeSign (c :: l) = (false, c :: l) := by
  unfold takeSign
  split
  · rename_i e; cases e; exact absurd h (by decide)
  · rename_i e; cases e; exact absurd h (by decide)
  · rfl

theorem skipRadix_of_digits {l : List Char} (h : ∀ c ∈ l, isHexDigit c = true) : skipRadix l = l := by
  unfold skipRadix
  split
  · exact absurd (h 'x' (by simp)) (by decide)
  · exact absurd (h 'X' (by simp)) (by decide)
  · rfl

theorem strtol16_of_digits {l : List Char} (hd : ∀ c ∈ l, isHexDigit c = true) (hpos : 0 < l.length) :
    strtol16 l = some (false, hexValue l) := by
  obtain ⟨c, rest, rfl⟩ := List.exists_cons_of_length_pos hpos
  have hc := hd c (by simp)
  have htake : (c :: rest).takeWhile isHexDigit = c :: rest := List.takeWhile_eq_self_iff.mpr hd
  simp only [strtol16, List.dropWhile_cons, isSpace_of_isHexDigit hc, Bool.false_eq_true, if_false,
    takeSign_of_isHexDigit hc, skipRadix_of_digits hd, htake, List.isEmpty_cons]

/-- A non-empty text of at most sixteen hexadecimal digits is read to its end. -/
theorem stoul_of_digits {s : String} (hd : ∀ c ∈ s.toList, isHexDigit c = true) (hpos : 0 < s.toList.length)
    (hlen : s.toList.length ≤ 16) : stoul s = .ok (UInt64.ofNat (hexValue s.toList)) := by
  have hlt : hexValue s.toList < 2 ^ 64 :=
    calc hexValue s.toList < 16 ^ s.toList.length := hexValue_lt _
      _ ≤ 16 ^ 16 := Nat.pow_le_pow_right (by decide) hlen
  simp only [stoul, strtol16_of_digits hd hpos, Nat.not_le.mpr hlt, if_false, Bool.false_eq_true]

/-! ## Hashes as numbers -/

def FixedHash.value {N : Nat} (h : FixedHash N) : Nat := Digits.value 256 (h.data.map UInt8.toNat)

@[simp] theorem FixedHash.value_zero (N : Nat) : (FixedHash.zero N).value = 0 := by
  simp [FixedHash.value, FixedHash.zero, List.map_replicate]

theorem FixedHash.value_eq_zero {N : Nat} {h : FixedHash N} : h.value = 0 ↔ h = .zero N := by
  refine ⟨fun hv => ?_, fun hz => hz ▸ FixedHash.value_zero N⟩
  have hbytes : ∀ l : List UInt8, Digits.value 256 (l.map UInt8.toNat) = 0 → l = List.replicate l.length 0 := by
    intro l
    induction l with
    | nil => exact fun _ => rfl
    | cons b l ih =>
      intro hl
      rw [List.map_cons, Digits.value_cons, Nat.add_eq_zero_iff, Nat.mul_eq_zero] at hl
      have hb : b = 0 := by
        rcases hl.1 with hb | hpow
        · exact UInt8.toNat_inj.mp hb
        · exact absurd hpow (pow_ne_zero _ (by decide))
      rw [hb, ih hl.2, List.length_cons, List.replicate_succ, List.length_replicate]
  obtain ⟨data, hlength⟩ := h
  have hdata := hbytes data hv
  simp only [FixedHash.zero, FixedHash.mk.injEq]
  rw [hdata, hlength]

/-- `dev::getHashesToTarget`; the big integers throw on a division by zero. -/
def getHashesToTarget (target : H256) : Except StdException Rat :=
  if target.value = 0 then .error .runtimeError else .ok ((0xffff * 2 ^ 240 / target.value : Nat) : Rat)

theorem getHashesToTarget_isOk_iff {target : H256} : (getHashesToTarget target).isOk = true ↔ target ≠ .zero 32 := by
  rw [getHashesToTarget, ne_eq, ← FixedHash.value_eq_zero]
  by_cases h : target.value = 0
  · simp [h, Except.isOk, Except.toBool]
  · simp [h, Except.isOk, Except.toBool]

end CoreMiner.DevCore
