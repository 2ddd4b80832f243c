/-
  CoreMiner.EthashCpu.Search — the search for nonces of a CPU miner
  (`CPUMiner.cpp`: `search`, `is_less_or_equal`).

  A block of the search is a loop from `nonce` up to `nonce + 30`, both `uint64_t`. The word-wise
  comparison is the one of the 256-bit numbers (`isLessOrEqual_iff`), and where the end of a block
  does not wrap around, the block submits the nonces of its range that meet the boundary, in order
  (`scan_block`). If it wraps around, and also if it is 2^64 itself, the loop is over before it
  starts: the block is counted for the hash rate, and none of its nonces is tried. So the search
  is exact as long as no nonce of such a block meets the boundary, and only then
  (`search_exact_iff`).
-/

import CoreMiner.EthCore.Farm

namespace CoreMiner.EthashCpu

open DevCore EthCore Lib

/-! ## The comparison -/

def word64 (h : H256) (i : Nat) : Nat := Digits.value 256 (((h.data.drop (8 * i)).take 8).map UInt8.toNat)

/-- The loop over the words from `i` on, `k` of which are left. -/
def isLessOrEqualFrom (a b : H256) (i : Nat) : Nat → Bool
  | 0 => true
  | k + 1 =>
    if word64 b i < word64 a i then false
    else if word64 a i < word64 b i then true
    else isLessOrEqualFrom a b (i + 1) k

def isLessOrEqual (a b : H256) : Bool := isLessOrEqualFrom a b 0 4

/-! ## The search -/

def littleEndian (n : UInt64) : List UInt8 := (List.range 8).map fun i => UInt8.ofNat (n.toNat / 256 ^ i)

/-- RandomY over SHA3-512: what `m_vm` computes of the bytes that are hashed. -/
abbrev Hash := List UInt8 → H256

def finalHash (hash : Hash) (header : H256) (n : UInt64) : H256 := hash (header.data ++ littleEndian n)

def blocksize : UInt64 := 30

section

variable (hash : Hash) (w : WorkPackage) (index : Nat)

def solution (n : UInt64) : Solution where
  nonce := n
  mixHash := finalHash hash w.header n
  work := w
  midx := index

def tryNonce (n : UInt64) : List Solution :=
  if isLessOrEqual (finalHash hash w.header n) w.boundary then [solution hash w index n] else []

def scan (n endNonce : UInt64) : List Solution :=
  if n < endNonce then tryNonce hash w index n ++ scan (n + 1) endNonce else []
termination_by endNonce.toNat - n.toNat
decreasing_by
  rename_i hlt
  have hlt' : n.toNat < endNonce.toNat := hlt
  have hmax := endNonce.toNat_lt
  rw [UInt64.toNat_add, UInt64.toNat_one, Nat.mod_eq_of_lt (by omega)]
  omega

inductive Glance where
  | newWork
  | stop
  | neither
  deriving DecidableEq

structure Searching where
  nonce : UInt64
  /-- In order. -/
  submitted : List Solution := []
  /-- Counted for the hash rate. -/
  hashes : Nat := 0
  cleared : Bool := false

def block (x : Searching) : Searching := { x with
  nonce := x.nonce + blocksize
  submitted := x.submitted ++ scan hash w index x.nonce (x.nonce + blocksize)
  hashes := x.hashes + blocksize.toNat }

def searchFrom : List Glance → Searching → Searching
  | [], x => x
  | .newWork :: _, x => { x with cleared := true }
  | .stop :: _, x => x
  | .neither :: rest, x => searchFrom rest (block hash w index x)

end

/-- `CPUMiner::search`; the null pointer for `m_vm` is `none`. -/
def search (vm : Option Hash) (w : WorkPackage) (index : Nat) (glances : List Glance) : Searching :=
  match vm with
  | none => { nonce := w.startNonce }
  | some hash => searchFrom hash w index glances { nonce := w.startNonce }

/-! ## What is wanted -/

section

variable (hash : Hash) (w : WorkPackage) (index : Nat)

def Hit (n : UInt64) : Prop := (finalHash hash w.header n).value ≤ w.boundary.value

instance (n : UInt64) : Decidable (Hit hash w n) := inferInstanceAs (Decidable (_ ≤ _))

/-- The solutions among the `count` nonces from the start on, modulo 2^64. -/
def wanted (count : Nat) : List Solution :=
  (List.range count).flatMap fun i =>
    if Hit hash w (w.startNonce + UInt64.ofNat i) then [solution hash w index (w.startNonce + UInt64.ofNat i)] else []

def blockStart (b : Nat) : UInt64 := w.startNonce + UInt64.ofNat (30 * b)

/-- None of the nonces that are passed over would have been a solution: those of the blocks whose
    end does not fit. -/
def NoneSkipped (k : Nat) : Prop :=
  ∀ b < k, 2 ^ 64 ≤ (blockStart w b).toNat + 30 → ∀ i < 30, ¬ Hit hash w (blockStart w b + UInt64.ofNat i)

/-- A search of `k` blocks submits what is wanted, each nonce once. -/
def Exact (k : Nat) (interrupt : List Glance) : Prop :=
  (search (some hash) w index (List.replicate k .neither ++ interrupt)).submitted = wanted hash w index (30 * k) ∧
    ((wanted hash w index (30 * k)).map Solution.nonce).Nodup

end

/-! ## The comparison is right -/

theorem word64_lt (h : H256) (i : Nat) : word64 h i < 2 ^ 64 := by
  have hbytes : ∀ d ∈ ((h.data.drop (8 * i)).take 8).map UInt8.toNat, d < 256 := by
    intro d hd
    obtain ⟨b, -, rfl⟩ := List.mem_map.mp hd
    exact b.toNat_lt
  calc word64 h i < 256 ^ (((h.data.drop (8 * i)).take 8).map UInt8.toNat).length := Digits.value_lt hbytes
    _ ≤ 256 ^ 8 := Nat.pow_le_pow_right (by decide) (by simp)

theorem value_words (h : H256) :
    h.value = word64 h 0 * 2 ^ 192 + word64 h 1 * 2 ^ 128 + word64 h 2 * 2 ^ 64 + word64 h 3 := by
  have hsplit : ∀ l : List Nat,
      Digits.value 256 l = Digits.value 256 (l.take 8) * 256 ^ (l.length - 8) + Digits.value 256 (l.drop 8) := by
    intro l
    conv_lhs => rw [← List.take_append_drop 8 l, Digits.value_append, List.length_drop]
  have hword (i : Nat) : word64 h i = Digits.value 256 (((h.data.map UInt8.toNat).drop (8 * i)).take 8) := by
    rw [word64, List.map_take, List.map_drop]
  have hlast : ((h.data.map UInt8.toNat).drop 24).take 8 = (h.data.map UInt8.toNat).drop 24 :=
    List.take_of_length_le (by simp [h.size])
  rw [FixedHash.value, hsplit, hsplit (List.drop 8 _), hsplit (List.drop 8 (List.drop 8 _)), hword, hword, hword, hword]
  simp only [List.drop_drop, List.length_drop, List.length_map, h.size, Nat.mul_zero, List.drop_zero, Nat.mul_one,
    Nat.reduceMul, Nat.reduceAdd, Nat.reduceSub, hlast]
  omega

theorem isLessOrEqual_iff (a b : H256) : isLessOrEqual a b = true ↔ a.value ≤ b.value := by
  have hb0 := word64_lt b 0
  have ha1 := word64_lt a 1
  have hb1 := word64_lt b 1
  have ha2 := word64_lt a 2
  have hb2 := word64_lt b 2
  have ha3 := word64_lt a 3
  have hb3 := word64_lt b 3
  rw [value_words a, value_words b]
  simp only [isLessOrEqual, isLessOrEqualFrom, Nat.reduceAdd]
  -- The first word that differs decides.
  split_ifs <;> simp only [true_iff, false_iff, Nat.not_le] <;> omega

/-! ## One block -/

section

variable {hash : Hash} {w : WorkPackage} {index : Nat}

theorem tryNonce_eq (n : UInt64) :
    tryNonce hash w index n = if Hit hash w n then [solution hash w index n] else [] := by
  by_cases hhit : Hit hash w n
  · rw [tryNonce, if_pos ((isLessOrEqual_iff _ _).mpr hhit), if_pos hhit]
  · rw [tryNonce, if_neg fun hle => hhit ((isLessOrEqual_iff _ _).mp hle), if_neg hhit]

theorem scan_eq {n endNonce : UInt64} {k : Nat} (h : n.toNat + k = endNonce.toNat) :
    scan hash w index n endNonce = (List.range k).flatMap fun i => tryNonce hash w index (n + UInt64.ofNat i) := by
  induction k generalizing n with
  | zero =>
    have hend : ¬ n < endNonce := fun hlt => by
      have hlt' : n.toNat < endNonce.toNat := hlt
      omega
    rw [scan, if_neg hend]
    rfl
  | succ k ih =>
    have hlt : n < endNonce := show n.toNat < endNonce.toNat by omega
    have hmax := endNonce.toNat_lt
    have hnext : (n + 1).toNat = n.toNat + 1 := by
      rw [UInt64.toNat_add, UInt64.toNat_one, Nat.mod_eq_of_lt (by omega)]
    have hshift : ∀ i, n + 1 + UInt64.ofNat i = n + UInt64.ofNat (i + 1) := by
      intro i
      rw [UInt64.ofNat_add, UInt64.add_assoc, UInt64.add_comm 1]
      rfl
    rw [scan, if_pos hlt, ih (by omega), List.range_succ_eq_map, List.flatMap_cons, List.flatMap_map]
    simp only [hshift]
    simp

def blockWanted (hash : Hash) (w : WorkPackage) (index b : Nat) : List Solution :=
  (List.range 30).flatMap fun i => tryNonce hash w index (blockStart w b + UInt64.ofNat i)

/-- A block submits its solutions, or nothing if its end does not fit. -/
theorem scan_block (b : Nat) : scan hash w index (blockStart w b) (blockStart w b + blocksize) =
    if 2 ^ 64 ≤ (blockStart w b).toNat + 30 then [] else blockWanted hash w index b := by
  have hmax := (blockStart w b).toNat_lt
  have hsum : (blockStart w b + blocksize).toNat = ((blockStart w b).toNat + 30) % 2 ^ 64 := UInt64.toNat_add _ _
  by_cases hwraps : 2 ^ 64 ≤ (blockStart w b).toNat + 30
  · have hnone : ¬ blockStart w b < blockStart w b + blocksize := by
      intro hlt
      have hlt' : (blockStart w b).toNat < (blockStart w b + blocksize).toNat := hlt
      omega
    rw [if_pos hwraps, scan, if_neg hnone]
  · rw [if_neg hwraps]
    exact scan_eq (by omega)

theorem blockWanted_eq_nil_iff (b : Nat) :
    blockWanted hash w index b = [] ↔ ∀ i < 30, ¬ Hit hash w (blockStart w b + UInt64.ofNat i) := by
  simp [blockWanted, List.flatMap_eq_nil_iff, tryNonce_eq]

/-! ## All blocks -/

theorem blockStart_succ (b : Nat) : blockStart w (b + 1) = blockStart w b + blocksize := by
  rw [blockStart, blockStart, Nat.mul_succ, UInt64.ofNat_add, ← UInt64.add_assoc]
  rfl

theorem searchFrom_eq (k b : Nat) (interrupt : List Glance) (x : Searching) (hx : x.nonce = blockStart w b) :
    (searchFrom hash w index (List.replicate k .neither ++ interrupt) x).submitted =
      (searchFrom hash w index interrupt { x with
        nonce := blockStart w (b + k)
        submitted := x.submitted ++ (List.range' b k).flatMap fun b =>
          scan hash w index (blockStart w b) (blockStart w b + blocksize)
        hashes := x.hashes + 30 * k }).submitted := by
  induction k generalizing b x with
  | zero => simp [← hx]
  | succ k ih =>
    rw [List.replicate_succ, List.cons_append, searchFrom, ih (b + 1) _ (by rw [block, hx, blockStart_succ])]
    have hnext : b + 1 + k = b + (k + 1) := by omega
    have hhashes : x.hashes + blocksize.toNat + 30 * k = x.hashes + 30 * (k + 1) := by
      rw [show blocksize.toNat = 30 from rfl]
      omega
    rw [List.range'_succ, List.flatMap_cons, block, hx, List.append_assoc, hnext, hhashes]

/-- An interrupted search submits nothing more. -/
theorem searchFrom_interrupted {interrupt : List Glance} (h : interrupt.head? ≠ some .neither) (x : Searching) :
    (searchFrom hash w index interrupt x).submitted = x.submitted := by
  rcases interrupt with _ | ⟨g, rest⟩
  · rfl
  · cases g with
    | newWork => rfl
    | stop => rfl
    | neither => exact absurd rfl h

theorem search_submitted {k : Nat} {interrupt : List Glance} (h : interrupt.head? ≠ some .neither) :
    (search (some hash) w index (List.replicate k .neither ++ interrupt)).submitted =
      (List.range k).flatMap fun b => scan hash w index (blockStart w b) (blockStart w b + blocksize) := by
  have hstart : w.startNonce = blockStart w 0 := by simp [blockStart]
  rw [search, searchFrom_eq k 0 _ _ hstart, searchFrom_interrupted h, List.range_eq_range', List.nil_append]

theorem wanted_blocks (k : Nat) : wanted hash w index (30 * k) = (List.range k).flatMap (blockWanted hash w index) := by
  induction k with
  | zero => rfl
  | succ k ih =>
    have hshift (i : Nat) : w.startNonce + UInt64.ofNat (30 * k + i) = blockStart w k + UInt64.ofNat i := by
      rw [blockStart, UInt64.ofNat_add, UInt64.add_assoc]
    rw [wanted] at ih
    rw [wanted, Nat.mul_succ, List.range_add, List.flatMap_append, ih, List.range_succ (n := k),
      List.flatMap_append, List.flatMap_map]
    simp only [hshift, List.flatMap_singleton, blockWanted, tryNonce_eq]

/-- Different indices below 2^64 are different nonces. -/
theorem wanted_nodup {count : Nat} (h : count ≤ 2 ^ 64) : ((wanted hash w index count).map Solution.nonce).Nodup := by
  have hnonces : (wanted hash w index count).map Solution.nonce =
      ((List.range count).map fun i => w.startNonce + UInt64.ofNat i).filter fun n => Hit hash w n := by
    rw [wanted]
    induction List.range count with
    | nil => rfl
    | cons i l ih =>
      rw [List.flatMap_cons, List.map_append, ih, List.map_cons, List.filter_cons]
      by_cases hi : Hit hash w (w.startNonce + UInt64.ofNat i)
      · simp [hi, solution]
      · simp [hi]
  rw [hnonces]
  refine List.Nodup.filter _ (List.Nodup.map_on ?_ List.nodup_range)
  intro i hi j hj heq
  have hof : UInt64.ofNat i = UInt64.ofNat j := (UInt64.add_right_inj _).mp heq
  have hnat := congrArg UInt64.toNat hof
  rw [UInt64.toNat_ofNat', UInt64.toNat_ofNat'] at hnat
  have hi' := List.mem_range.mp hi
  have hj' := List.mem_range.mp hj
  omega

/-- Where every list is what it is to be or empty, all together are what they are to be only if
    each one is. -/
theorem flatMap_eq_iff {α β : Type} {f g : α → List β} {l : List α} (h : ∀ a ∈ l, f a = g a ∨ f a = []) :
    l.flatMap f = l.flatMap g ↔ ∀ a ∈ l, f a = g a := by
  have hle : ∀ l : List α, (∀ a ∈ l, f a = g a ∨ f a = []) → (l.flatMap f).length ≤ (l.flatMap g).length := by
    intro l
    induction l with
    | nil => exact fun _ => Nat.le_refl _
    | cons a l ih =>
      intro h
      have hrest := ih fun b hb => h b (List.mem_cons_of_mem _ hb)
      rw [List.flatMap_cons, List.flatMap_cons, List.length_append, List.length_append]
      rcases h a List.mem_cons_self with ha | ha
      · rw [ha]
        omega
      · rw [ha, List.length_nil]
        omega
  induction l with
  | nil => simp
  | cons a l ih =>
    have hl := fun b hb => h b (List.mem_cons_of_mem _ hb)
    have hlength := hle l hl
    have hrest := ih hl
    rw [List.flatMap_cons, List.flatMap_cons, List.forall_mem_cons]
    refine Iff.trans ?_ (and_congr_right fun _ => hrest)
    rcases h a List.mem_cons_self with ha | ha
    · rw [ha, List.append_cancel_left_eq, eq_self_iff_true, true_and]
    · -- If the first one is missing, there are too few.
      rw [ha, List.nil_append]
      constructor
      · intro heq
        have hcount := congrArg List.length heq
        rw [List.length_append] at hcount
        have hnil : g a = [] := List.eq_nil_of_length_eq_zero (by omega)
        rw [hnil] at heq ⊢
        exact ⟨rfl, heq⟩
      · rintro ⟨hnil, heq⟩
        rw [← hnil, heq]
        rfl

end

/-- The search is exact if none of the nonces it passes over would have been a solution, and only
    then. -/
theorem search_exact_iff (hash : Hash) (w : WorkPackage) (index : Nat) {k : Nat} (hk : 30 * k ≤ 2 ^ 64)
    {interrupt : List Glance} (hi : interrupt.head? ≠ some .neither) :
    Exact hash w index k interrupt ↔ NoneSkipped hash w k := by
  have hblock : ∀ b ∈ List.range k, scan hash w index (blockStart w b) (blockStart w b + blocksize) =
      blockWanted hash w index b ∨ scan hash w index (blockStart w b) (blockStart w b + blocksize) = [] := by
    intro b _
    rw [scan_block]
    split
    · exact .inr rfl
    · exact .inl rfl
  rw [Exact, and_iff_left (wanted_nodup hk), search_submitted hi, wanted_blocks, flatMap_eq_iff hblock]
  refine forall_congr' fun b => ?_
  rw [List.mem_range, scan_block]
  refine imp_congr_right fun _ => ?_
  by_cases hwraps : 2 ^ 64 ≤ (blockStart w b).toNat + 30
  · rw [if_pos hwraps, eq_comm, blockWanted_eq_nil_iff]
    exact ⟨fun h _ => h, fun h => h hwraps⟩
  · rw [if_neg hwraps]
    exact iff_of_true rfl fun h => absurd h hwraps

def zeroHash : Hash := fun _ => .zero 32

/-- Far from the end of the range. -/
theorem search_exact_at_zero : Exact zeroHash {} 0 2 [.stop] :=
  (search_exact_iff zeroHash {} 0 (by decide) (by decide)).mpr fun b hb hwraps => by
    have hstart : (blockStart {} b).toNat = 30 * b := by
      rw [blockStart, UInt64.toNat_add, UInt64.toNat_ofNat']
      show (0 + 30 * b % 2 ^ 64) % 2 ^ 64 = 30 * b
      omega
    omega

/-- Work that starts ten nonces before the end: the first block submits nothing, though all of its
    nonces are solutions. -/
theorem search_skips_wrapping_block :
    let w : WorkPackage := { startNonce := 18446744073709551606 }
    (search (some zeroHash) w 0 [.neither, .stop]).submitted = [] ∧ (wanted zeroHash w 0 30).length = 30 ∧
      ¬ Exact zeroHash w 0 1 [.stop] := by
  have hnothing :
      (search (some zeroHash) { startNonce := 18446744073709551606 } 0 [.neither, .stop]).submitted = [] := by
    show [] ++ scan zeroHash _ 0 18446744073709551606 (18446744073709551606 + blocksize) = []
    rw [scan, if_neg (by decide), List.append_nil]
  have hall : (wanted zeroHash { startNonce := 18446744073709551606 } 0 30).length = 30 := by decide
  refine ⟨hnothing, hall, fun hexact => ?_⟩
  have hwanted := hexact.1.symm.trans hnothing
  rw [show 30 * 1 = 30 from rfl] at hwanted
  rw [hwanted] at hall
  exact absurd hall (by decide)

end CoreMiner.EthashCpu
