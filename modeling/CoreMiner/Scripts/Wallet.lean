/-
  CoreMiner.Scripts.Wallet — the check of the wallet's address (`mine.sh` and `pool.sh`:
  `validate_wallet`).

  The scripts move the country and the checksum behind the account, write every letter as a number
  of two digits, whatever its case, and let `bc` divide by 97. The remainder has to be 1.

  In that numeral a character of the address is a block of digits. A digit in place of a digit, or
  a letter in place of a letter, changes the block by less than 97 (`position_inj`), and 97 is a
  prime that divides neither 10 nor 9 nor 99. So no such mistake passes, and no exchange of
  neighbours of one kind in the account (`typo_caught`). To exchange the cases of one letter is
  not a mistake the check can see (`case_swap_passes`).
-/

import CoreMiner.Lib.CheckDigits

namespace CoreMiner.Scripts

open Lib

/-! ## The functions of the scripts -/

def ord (c : Char) : Int := c.toNat

def printInt : Int → List Char
  | .ofNat n => Nat.toDigits 10 n
  | .negSucc n => '-' :: Nat.toDigits 10 (n + 1)

def alphabetPos (c : Char) : List Char := if c.isDigit then [c] else printInt (ord c.toUpper - 55)

def operand (ican : List Char) : List Char :=
  let country := ican.take 2
  let checksum := (ican.drop 2).take 2
  let bcan := ican.drop 4
  let bcco := bcan ++ country
  bcco.flatMap alphabetPos ++ checksum

def digitValue (c : Char) : Nat := c.toNat - '0'.toNat

/-- What `bc` answers for the operand and `% 97`, if the operand is a numeral. -/
def remainder97 (operand : List Char) : Option Nat :=
  if operand ≠ [] ∧ operand.all Char.isDigit then some (Digits.value 10 (operand.map digitValue) % 97) else none

/-- What a script prints, the colours apart, and the status it exits with, if it does. -/
structure Outcome where
  lines : List String := []
  exit : Option Nat := none
  deriving DecidableEq, Repr

/-- The body of `validate_wallet`; what `bc` makes of an operand that is not a numeral is left open. -/
def validateWith (invalid unable : Outcome) (bc : Bool) (ican : List Char) : Option Outcome :=
  if bc then
    match remainder97 (operand ican) with
    | none => none
    | some r => if r ≠ 1 then some invalid else some {}
  else some unable

def mineValidateWallet : Bool → List Char → Option Outcome := validateWith
  { lines := ["● Invalid wallet address!"], exit := some 1 }
  { lines := ["● Unable to validate wallet. Please install 'bc' if needed."] }

def poolValidateWallet : Bool → List Char → Option Outcome := validateWith { exit := some 2 } {}

def Passes (o : Option Outcome) : Prop := ∃ x, o = some x ∧ x.exit = none

structure Address where
  text : List Char
  alphanumeric : ∀ c ∈ text, c.isAlphanum
  long : 4 ≤ text.length
  checksum : ∀ c ∈ (text.drop 2).take 2, c.isDigit

/-! ## The position of a character -/

def block (c : Char) : List Nat := (alphabetPos c).map digitValue

def position (c : Char) : Nat := Digits.value 10 (block c)

theorem alphabetPos_digit {c : Char} (h : c.isDigit) : alphabetPos c = [c] := if_pos h

theorem position_digit {c : Char} (h : c.isDigit) : position c = digitValue c := by
  rw [position, block, alphabetPos_digit h]
  simp [Digits.value]

theorem isDigit_iff {c : Char} : c.isDigit = true ↔ 48 ≤ c.toNat ∧ c.toNat ≤ 57 := by
  simp [Char.isDigit, UInt32.le_iff_toNat_le]

theorem isAlpha_iff {c : Char} :
    c.isAlpha = true ↔ (65 ≤ c.toNat ∧ c.toNat ≤ 90) ∨ (97 ≤ c.toNat ∧ c.toNat ≤ 122) := by
  have halpha : c.isAlpha = (decide ('A'.val ≤ c.val ∧ c.val ≤ 'Z'.val) ||
      decide ('a'.val ≤ c.val) && decide (c.val ≤ 'z'.val)) := rfl
  simp [halpha, UInt32.le_iff_toNat_le]

theorem digitValue_lt {c : Char} (h : c.isDigit) : digitValue c < 10 := by
  have hc := isDigit_iff.mp h
  have hzero : '0'.toNat = 48 := rfl
  unfold digitValue
  omega

theorem toUpper_letter {c : Char} (h : c.isAlpha) : 65 ≤ c.toUpper.toNat ∧ c.toUpper.toNat ≤ 90 := by
  have hletter := isAlpha_iff.mp h
  unfold Char.toUpper
  split
  · rename_i hlower
    have hbounds : 97 ≤ c.toNat ∧ c.toNat ≤ 122 := by simpa [UInt32.le_iff_toNat_le] using hlower
    have hoffset : ('A'.val - 'a'.val).toNat = 2 ^ 32 - 32 := by decide
    have hval : c.val.toNat = c.toNat := rfl
    change 65 ≤ (c.val + ('A'.val - 'a'.val)).toNat ∧ (c.val + ('A'.val - 'a'.val)).toNat ≤ 90
    rw [UInt32.toNat_add]
    omega
  · rename_i hlower
    have hbounds : ¬ (97 ≤ c.toNat ∧ c.toNat ≤ 122) := by simpa [UInt32.le_iff_toNat_le] using hlower
    omega

theorem toDigits_two : ∀ n < 36, 10 ≤ n → (Nat.toDigits 10 n).length = 2 ∧
    (Nat.toDigits 10 n).all Char.isDigit = true ∧ Digits.value 10 ((Nat.toDigits 10 n).map digitValue) = n := by
  decide

/-- A letter is written as a number of two digits, the same in both cases. -/
theorem alphabetPos_letter {c : Char} (h : c.isAlpha) : (alphabetPos c).length = 2 ∧
    (alphabetPos c).all Char.isDigit = true ∧ position c = c.toUpper.toNat - 55 := by
  have hupper := toUpper_letter h
  have hdigit : ¬ c.isDigit = true := by
    intro hdigit
    have hc := isDigit_iff.mp hdigit
    have hletter := isAlpha_iff.mp h
    omega
  have hprint : alphabetPos c = Nat.toDigits 10 (c.toUpper.toNat - 55) := by
    have hpos : ord c.toUpper - 55 = Int.ofNat (c.toUpper.toNat - 55) := by
      unfold ord
      simp only [Int.ofNat_eq_natCast]
      omega
    rw [alphabetPos, if_neg hdigit, hpos, printInt]
  rw [position, block, hprint]
  exact toDigits_two _ (by omega) (by omega)

/-- One character in place of another one of its kind: a digit of another digit, a letter of another
    letter, whatever their cases are. -/
inductive Mistaken : Char → Char → Prop
  | digit {x y : Char} : x.isDigit → y.isDigit → x ≠ y → Mistaken x y
  | letter {x y : Char} : x.isAlpha → y.isAlpha → x.toUpper ≠ y.toUpper → Mistaken x y

/-- Both are written with one digit, or both with two. -/
theorem Mistaken.width {x y : Char} (h : Mistaken x y) :
    (block x).length = (block y).length ∧ ((block y).length = 1 ∨ (block y).length = 2) := by
  simp only [block, List.length_map]
  cases h with
  | digit hx hy _ =>
    rw [alphabetPos_digit hx, alphabetPos_digit hy]
    exact ⟨rfl, .inl rfl⟩
  | letter hx hy _ =>
    rw [(alphabetPos_letter hx).1, (alphabetPos_letter hy).1]
    exact ⟨rfl, .inr rfl⟩

/-- Positions are below 97, and those of different characters of one kind differ. -/
theorem position_inj {x y : Char} (h : Mistaken x y) : ¬ position x ≡ position y [MOD 97] := by
  have htoNat {c d : Char} (hne : c ≠ d) : c.toNat ≠ d.toNat := fun heq => hne (Char.toNat_inj.mp heq)
  intro heq
  cases h with
  | digit hx hy hne =>
    have hx' := isDigit_iff.mp hx
    have hy' := isDigit_iff.mp hy
    have hzero : '0'.toNat = 48 := rfl
    rw [position_digit hx, position_digit hy] at heq
    have heq := heq.eq_of_lt_of_lt ((digitValue_lt hx).trans (by decide)) ((digitValue_lt hy).trans (by decide))
    unfold digitValue at heq
    exact htoNat hne (by omega)
  | letter hx hy hne =>
    have hx' := toUpper_letter hx
    have hy' := toUpper_letter hy
    rw [(alphabetPos_letter hx).2.2, (alphabetPos_letter hy).2.2] at heq
    have heq := heq.eq_of_lt_of_lt (by omega) (by omega)
    exact htoNat hne (by omega)

/-! ## The operand -/

theorem operand_digits (c₁ c₂ k₁ k₂ : Char) (bcan : List Char) :
    (operand (c₁ :: c₂ :: k₁ :: k₂ :: bcan)).map digitValue =
      bcan.flatMap block ++ (block c₁ ++ (block c₂ ++ [digitValue k₁, digitValue k₂])) := by
  simp [operand, block, List.map_flatMap]
  rfl

/-- Wherever a character stands in an address, its digits stand at one place of the operand. -/
theorem operand_one (front back : List Char) (h : 3 ≤ front.length + back.length) :
    ∃ p q, ∀ z, (front.length = 2 ∨ front.length = 3 → z.isDigit) →
      (operand (front ++ z :: back)).map digitValue = p ++ block z ++ q := by
  have hblock {z : Char} (hz : z.isDigit) : block z = [digitValue z] := by
    rw [block, alphabetPos_digit hz, List.map_singleton]
  match front, back, h with
  | [], c₂ :: k₁ :: k₂ :: bcan, _ =>
    refine ⟨bcan.flatMap block, block c₂ ++ [digitValue k₁, digitValue k₂], fun z _ => ?_⟩
    simp [operand_digits]
  | [c₁], k₁ :: k₂ :: bcan, _ =>
    refine ⟨bcan.flatMap block ++ block c₁, [digitValue k₁, digitValue k₂], fun z _ => ?_⟩
    simp [operand_digits]
  | [c₁, c₂], k₂ :: bcan, _ =>
    refine ⟨bcan.flatMap block ++ (block c₁ ++ block c₂), [digitValue k₂], fun z hz => ?_⟩
    simp [operand_digits, hblock (hz (.inl rfl))]
  | [c₁, c₂, k₁], bcan, _ =>
    refine ⟨bcan.flatMap block ++ (block c₁ ++ (block c₂ ++ [digitValue k₁])), [], fun z hz => ?_⟩
    simp [operand_digits, hblock (hz (.inr rfl))]
  | c₁ :: c₂ :: k₁ :: k₂ :: front, back, _ =>
    refine ⟨front.flatMap block, back.flatMap block ++ (block c₁ ++ (block c₂ ++ [digitValue k₁, digitValue k₂])),
      fun z _ => ?_⟩
    simp [operand_digits]

/-- Neighbours in the account stay neighbours. -/
theorem operand_two (front back : List Char) (h : 4 ≤ front.length) :
    ∃ p q, ∀ x y, (operand (front ++ x :: y :: back)).map digitValue = p ++ (block x ++ block y) ++ q := by
  match front, h with
  | c₁ :: c₂ :: k₁ :: k₂ :: front, _ =>
    refine ⟨front.flatMap block, back.flatMap block ++ (block c₁ ++ (block c₂ ++ [digitValue k₁, digitValue k₂])),
      fun x y => ?_⟩
    simp [operand_digits]

/-! ## What the check sees -/

/-- One character is mistaken for another one of its kind, or two neighbours of one kind in the
    account are exchanged. -/
inductive Typo : List Char → List Char → Prop
  | replaced (front back : List Char) {x y : Char} : Mistaken x y → Typo (front ++ x :: back) (front ++ y :: back)
  | swapped (front back : List Char) {x y : Char} : 4 ≤ front.length → Mistaken x y →
    Typo (front ++ x :: y :: back) (front ++ y :: x :: back)

/-- A character of the checksum is a digit, also a wrong one. -/
theorem isDigit_of_checksum {front back : List Char} {z : Char}
    (h : ∀ c ∈ ((front ++ z :: back).drop 2).take 2, c.isDigit) (hfront : front.length = 2 ∨ front.length = 3) :
    z.isDigit := by
  apply h
  match front, hfront with
  | [c₁, c₂], _ => simp
  | [c₁, c₂, k₁], _ => simp

/-- The operands of addresses that differ by a typo have different remainders. -/
theorem Typo.not_modEq {a b : List Char} (h : Typo a b) (hlong : 4 ≤ a.length)
    (ha : ∀ c ∈ (a.drop 2).take 2, c.isDigit) (hb : ∀ c ∈ (b.drop 2).take 2, c.isDigit) :
    ¬ Digits.value 10 ((operand a).map digitValue) ≡ Digits.value 10 ((operand b).map digitValue) [MOD 97] := by
  intro heq
  cases h with
  | replaced front back h =>
    have hsize : 3 ≤ front.length + back.length := by
      simp at hlong
      omega
    obtain ⟨p, q, hsplit⟩ := operand_one front back hsize
    rw [hsplit _ (isDigit_of_checksum ha), hsplit _ (isDigit_of_checksum hb)] at heq
    exact position_inj h (Digits.replaced_modEq (by decide) h.width.1 heq)
  | swapped front back hfront h =>
    obtain ⟨p, q, hsplit⟩ := operand_two front back hfront
    rw [hsplit, hsplit] at heq
    have hwidth := h.width
    have hblocks := Digits.replaced_modEq (by decide) (by simp [hwidth.1]) heq
    refine position_inj h (Digits.swapped_modEq (by decide) hwidth.1 ?_ hblocks)
    rcases hwidth.2 with hone | htwo
    · rw [hone]
      decide
    · rw [htwo]
      decide

theorem alphabetPos_isDigit {c : Char} (h : c.isAlphanum) : (alphabetPos c).all Char.isDigit = true := by
  rcases Bool.or_eq_true_iff.mp h with hletter | hdigit
  · exact (alphabetPos_letter hletter).2.1
  · rw [alphabetPos_digit hdigit]
    simpa using hdigit

/-- For an address the operand is a numeral, so that `bc` answers with a remainder. -/
theorem Address.numeral (a : Address) :
    remainder97 (operand a.text) = some (Digits.value 10 ((operand a.text).map digitValue) % 97) := by
  have hdigits : (operand a.text).all Char.isDigit = true := by
    rw [operand, List.all_append, Bool.and_eq_true]
    refine ⟨?_, List.all_eq_true.mpr a.checksum⟩
    rw [List.all_flatMap]
    refine List.all_eq_true.mpr fun c hc => alphabetPos_isDigit (a.alphanumeric c ?_)
    rcases List.mem_append.mp hc with hc | hc
    · exact List.mem_of_mem_drop hc
    · exact List.mem_of_mem_take hc
  have hne : operand a.text ≠ [] := by
    intro hnil
    have hchecksum : (a.text.drop 2).take 2 = [] := (List.append_eq_nil_iff.mp hnil).2
    have hlength := congrArg List.length hchecksum
    have hlong := a.long
    simp at hlength
    omega
  exact if_pos ⟨hne, hdigits⟩

theorem passes_iff {invalid unable : Outcome} (h : invalid.exit ≠ none) (a : Address) :
    Passes (validateWith invalid unable true a.text) ↔
      Digits.value 10 ((operand a.text).map digitValue) % 97 = 1 := by
  rw [validateWith, if_pos rfl, a.numeral]
  by_cases hr : Digits.value 10 ((operand a.text).map digitValue) % 97 = 1
  · simp [hr, Passes]
  · simp [hr, Passes, h]

theorem Typo.caught {a b : Address} (h : Typo a.text b.text) {invalid unable : Outcome} (hexit : invalid.exit ≠ none) :
    ¬ (Passes (validateWith invalid unable true a.text) ∧ Passes (validateWith invalid unable true b.text)) := by
  rintro ⟨ha, hb⟩
  have ha' := (passes_iff hexit a).mp ha
  have hb' := (passes_iff hexit b).mp hb
  exact h.not_modEq a.long a.checksum b.checksum (ha'.trans hb'.symm)

/-- Of two addresses that differ by a typo each of the scripts lets at most one pass. -/
theorem typo_caught (a b : Address) (h : Typo a.text b.text) :
    ¬ (Passes (mineValidateWallet true a.text) ∧ Passes (mineValidateWallet true b.text)) ∧
      ¬ (Passes (poolValidateWallet true a.text) ∧ Passes (poolValidateWallet true b.text)) :=
  ⟨h.caught (by decide), h.caught (by decide)⟩

/-! ## Addresses -/

def addressOf (k₁ k₂ x y : Char) (hk : [k₁, k₂].all Char.isDigit = true) (h : [x, y].all Char.isAlphanum = true) :
    Address where
  text := 'c' :: 'b' :: k₁ :: k₂ :: x :: y :: List.replicate 38 '0'
  alphanumeric := by
    have hk : k₁.isDigit = true ∧ k₂.isDigit = true := by simpa using hk
    simpa [Char.isAlphanum, hk] using h
  long := by simp
  checksum := List.all_eq_true.mp hk

def digitAddress : Address := addressOf '2' '3' '1' '2' rfl rfl

def wrongAddress : Address := addressOf '2' '3' '1' '3' rfl rfl

theorem wrong_digit_caught : Passes (mineValidateWallet true digitAddress.text) ∧
    ¬ Passes (mineValidateWallet true wrongAddress.text) := by
  have hpasses : Passes (mineValidateWallet true digitAddress.text) :=
    (passes_iff (by decide) digitAddress).mpr (by decide)
  have htypo : Typo digitAddress.text wrongAddress.text :=
    .replaced ['c', 'b', '2', '3', '1'] (List.replicate 38 '0') (.digit (by decide) (by decide) (by decide))
  exact ⟨hpasses, fun hwrong => (typo_caught digitAddress wrongAddress htypo).1 ⟨hpasses, hwrong⟩⟩

def lowerFirst : Address := addressOf '8' '0' 'a' 'A' rfl rfl

def upperFirst : Address := addressOf '8' '0' 'A' 'a' rfl rfl

/-- Two neighbouring letters of the account are exchanged that differ in their case only. -/
theorem case_swap_passes :
    (∃ front x y back, lowerFirst.text = front ++ x :: y :: back ∧ upperFirst.text = front ++ y :: x :: back ∧
      4 ≤ front.length ∧ x ≠ y ∧ x.isAlpha ∧ y.isAlpha) ∧
    Passes (mineValidateWallet true lowerFirst.text) ∧ Passes (mineValidateWallet true upperFirst.text) ∧
    Passes (poolValidateWallet true lowerFirst.text) ∧ Passes (poolValidateWallet true upperFirst.text) := by
  have hlower : Digits.value 10 ((operand lowerFirst.text).map digitValue) % 97 = 1 := by decide
  have hupper : Digits.value 10 ((operand upperFirst.text).map digitValue) % 97 = 1 := by decide
  refine ⟨⟨['c', 'b', '8', '0'], 'a', 'A', List.replicate 38 '0', rfl, rfl, ?_⟩, ?_, ?_, ?_, ?_⟩
  · decide
  all_goals exact (passes_iff (by decide) _).mpr ‹_›

end CoreMiner.Scripts
