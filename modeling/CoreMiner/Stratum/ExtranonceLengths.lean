/-
  CoreMiner.Stratum.ExtranonceLengths — extranonces of any length and any text
  (`XcbStratumClient.cpp`: `processExtranonce`, `submitSolution`; `Farm.cpp`: `setWork`).

  `processExtranonce` keeps the length of the text it is given and reads the first sixteen of
  its characters, zeros behind them. The length is a number of digits to the farm, which divides
  what is left by the number of miners, and to `submitSolution`, which cuts as many digits off.
  Nothing in between checks that the text has that many digits, at most sixteen of them, or
  that a nonce is left for each miner. These are what it takes (`extranonce_handled_iff`).
-/

import CoreMiner.Stratum.Extranonce

namespace CoreMiner.Stratum

open DevCore EthCore Lib Prog

/-! ## What it is to be handled -/

/-- The first `exSizeBytes` digits of the start nonce are the extranonce. -/
structure Owned (x : String) (wp : WorkPackage) : Prop where
  size : wp.exSizeBytes.toNat ≤ 16
  digits : ((toHex wp.startNonce .dontAdd 16).toList.take wp.exSizeBytes.toNat).map fromHexChar =
    x.toList.map fromHexChar

def Residual (wp : WorkPackage) (v : UInt64) : Prop :=
  v.toNat / 16 ^ (16 - wp.exSizeBytes.toNat) = wp.startNonce.toNat / 16 ^ (16 - wp.exSizeBytes.toNat)

/-- The segments that `setWork` gives the miners are in range, and their nonces can be sent. -/
def Divided (f : Farm) (wp : WorkPackage) (random : UInt64) : Prop :=
  ∃ g given, f.setWork wp random = some (g, given) ∧ g.nonceSegmentWidth < 64 ∧
    ∀ solution : Solution, solution.work ∈ given →
      solution.nonce ∈ Farm.segment solution.work.startNonce g.nonceSegmentWidth →
      Residual wp solution.nonce ∧ ∃ digits, ownDigits solution = .ok digits

/-! ## The digits -/

theorem Owned.length {x : String} {wp : WorkPackage} (h : Owned x wp) : wp.exSizeBytes.toNat = x.length := by
  have hlen := congrArg List.length h.digits
  have hsize := h.size
  rw [List.length_map, List.length_map, List.length_take, (toHex_spec wp.startNonce).1, String.length_toList] at hlen
  omega

theorem Owned.hex {x : String} {wp : WorkPackage} (h : Owned x wp) : ∀ c ∈ x.toList, isHexDigit c = true := by
  intro c hc
  have hmem : fromHexChar c ∈ x.toList.map fromHexChar := List.mem_map_of_mem hc
  rw [← h.digits] at hmem
  obtain ⟨d, hd, heq⟩ := List.mem_map.mp hmem
  rw [isHexDigit, ← heq]
  exact (toHex_spec wp.startNonce).2.2 d (List.mem_of_mem_take hd)

/-- Digits are known by their value. -/
theorem map_fromHexChar_inj {l m : List Char} (hl : ∀ c ∈ l, isHexDigit c = true) (hm : ∀ c ∈ m, isHexDigit c = true)
    (hlen : l.length = m.length) (h : hexValue l = hexValue m) : l.map fromHexChar = m.map fromHexChar := by
  have hsome {l : List Char} (hl : ∀ c ∈ l, isHexDigit c = true) : l.map fromHexChar = (hexDigits l).map some := by
    rw [hexDigits, List.map_map]
    refine List.map_congr_left fun c hc => ?_
    obtain ⟨d, hd⟩ := Option.isSome_iff_exists.mp (hl c hc)
    simp [hd]
  have hdigits : hexDigits l = hexDigits m :=
    Digits.value_inj (hexDigits_lt l) (hexDigits_lt m) (by simp [hexDigits, hlen]) h
  rw [hsome hl, hsome hm, hdigits]

theorem owned_of_value {x : String} {wp : WorkPackage} (hx : ∀ c ∈ x.toList, isHexDigit c = true)
    (he : x.length ≤ 16) (hsize : wp.exSizeBytes.toNat = x.length)
    (hstart : wp.startNonce.toNat = hexValue x.toList * 16 ^ (16 - x.length)) : Owned x wp := by
  obtain ⟨hlen, hvalue, hdigits⟩ := toHex_spec wp.startNonce
  refine ⟨by omega, ?_⟩
  rw [hsize]
  set text := (toHex wp.startNonce .dontAdd 16).toList
  refine map_fromHexChar_inj (fun c hc => hdigits c (List.mem_of_mem_take hc)) hx ?_ ?_
  · rw [List.length_take, hlen, String.length_toList]
    omega
  · -- Behind them there are only zeros.
    have hsplit := hexValue_append (text.take x.length) (text.drop x.length)
    rw [List.take_append_drop, hexValue_drop, hvalue, hstart, List.length_drop, hlen, Nat.mul_mod_left, add_zero]
      at hsplit
    exact (Nat.eq_of_mul_eq_mul_right (by positivity) hsplit).symm

/-! ## The segments -/

theorem mem_packages {p wp : WorkPackage} {start : UInt64} {width n : Nat} (h : p ∈ Farm.packages wp start width n) :
    ∃ i < n, p = { wp with startNonce := Farm.segmentStart start width i } := by
  obtain ⟨i, hi, rfl⟩ := List.mem_map.mp h
  exact ⟨i, List.mem_range.mp hi, rfl⟩

theorem ownDigits_ok {solution : Solution} (h : solution.work.exSizeBytes.toNat ≤ 16) :
    ∃ digits, ownDigits solution = .ok digits := by
  refine ⟨_, if_neg ?_⟩
  rw [← String.length_toList, (toHex_spec solution.nonce).1]
  omega

/-- Without an extranonce all nonces are left, at the width the farm has. -/
theorem divided_plain {f : Farm} {wp : WorkPackage} {random : UInt64} (hsize : wp.exSizeBytes.toNat = 0) :
    Divided f wp random ↔ f.nonceSegmentWidth < 64 := by
  have hex : ¬ 0 < wp.exSizeBytes := by
    rw [UInt16.lt_iff_toNat_lt, hsize]
    decide
  constructor
  · rintro ⟨g, given, hset, hwidth, -⟩
    obtain ⟨scrambler, start, width, -, hchoose, -, -, rfl⟩ := Farm.setWork_cases hset
    rw [Farm.chooseSegments, if_neg hex] at hchoose
    cases hchoose
    exact hwidth
  · intro hwidth
    have key (f' : Farm) (hw : f'.nonceSegmentWidth = f.nonceSegmentWidth) :
        ∃ g start, f'.distribute wp = some (g, Farm.packages wp start f.nonceSegmentWidth f'.miners.length) ∧
          g.nonceSegmentWidth = f.nonceSegmentWidth := by
      refine ⟨f'.assign wp f.nonceSegmentWidth
        (Farm.packages wp f'.nonceScrambler f.nonceSegmentWidth f'.miners.length), f'.nonceScrambler, ?_, rfl⟩
      rw [Farm.distribute, Farm.chooseSegments, if_neg hex, hw]
      exact if_neg (by omega)
    have hset : ∃ g start, f.setWork wp random =
        some (g, Farm.packages wp start f.nonceSegmentWidth f.miners.length) ∧
          g.nonceSegmentWidth = f.nonceSegmentWidth := by
      unfold Farm.setWork
      split
      · exact key (f.shuffle random) rfl
      · exact key f rfl
    obtain ⟨g, start, hset, hg⟩ := hset
    refine ⟨g, _, hset, by omega, fun solution hwork _ => ⟨?_, ownDigits_ok ?_⟩⟩
    · -- There is one prefix of no digits.
      have hv := solution.nonce.toNat_lt
      have hs := wp.startNonce.toNat_lt
      rw [Residual, hsize, Nat.div_eq_of_lt (by omega), Nat.div_eq_of_lt (by omega)]
    · obtain ⟨i, -, hwork⟩ := mem_packages hwork
      rw [hwork]
      exact hsize.le.trans (by decide)

/-- The nonce right behind the residual range has other digits in front. -/
theorem carry_ne {X k : Nat} (hk : 0 < k) (hX : X * k + k ≤ 2 ^ 64) (hpos : k < 2 ^ 64) :
    (X * k + k) % 2 ^ 64 / k ≠ X := by
  rcases Nat.lt_or_ge (X * k + k) (2 ^ 64) with hlt | hge
  · rw [Nat.mod_eq_of_lt hlt, ← Nat.succ_mul, Nat.mul_div_cancel _ hk]
    omega
  · have heq : X * k + k = 2 ^ 64 := by omega
    rw [heq, Nat.mod_self, Nat.zero_div]
    rintro rfl
    omega

/-- With one, each miner has a nonce of what is left. -/
theorem divided_extranonce {f : Farm} {wp : WorkPackage} {random : UInt64} {X e : Nat}
    (hsize : wp.exSizeBytes.toNat = e) (he : 1 ≤ e) (he' : e ≤ 16) (hX : X * 16 ^ (16 - e) + 16 ^ (16 - e) ≤ 2 ^ 64)
    (hstart : wp.startNonce.toNat = X * 16 ^ (16 - e)) (hn : 1 ≤ f.miners.length) :
    Divided f wp random ↔ f.miners.length ≤ 16 ^ (16 - e) := by
  have hkpos : 0 < 16 ^ (16 - e) := by positivity
  have hk : 16 ^ (16 - e) < 2 ^ 64 := by
    rw [← pow_residual he']
    exact Nat.pow_lt_pow_right (by decide) (by omega)
  constructor
  · rintro ⟨g, given, hset, hwidth, hall⟩
    obtain ⟨scrambler, start, width, -, hchoose, -, rfl, rfl⟩ := Farm.setWork_cases hset
    have hex : 0 < wp.exSizeBytes := UInt16.lt_iff_toNat_lt.mpr (by rw [hsize]; exact he)
    rw [Farm.chooseSegments, if_pos hex, hsize] at hchoose
    obtain ⟨w, hw, heq⟩ := Option.map_eq_some_iff.mp hchoose
    cases heq
    by_contra hmany
    -- One nonce each, and one miner too many for the first digits.
    have hw0 : width = 0 := by
      change Farm.segmentWidth e f.miners.length = some width at hw
      rw [Farm.segmentWidth, if_neg (by omega), pow_residual he', if_neg hmany] at hw
      split at hw
      · exact (Option.some.inj hw).symm
      · cases hw
    subst hw0
    set v := Farm.segmentStart wp.startNonce 0 (16 ^ (16 - e))
    have hv : v.toNat = (X * 16 ^ (16 - e) + 16 ^ (16 - e)) % 2 ^ 64 := by
      rw [Farm.segmentStart_toNat _ (by decide), hstart, pow_zero, mul_one]
    have hmem : { wp with startNonce := v } ∈ Farm.packages wp wp.startNonce 0 f.miners.length :=
      List.mem_map.mpr ⟨_, List.mem_range.mpr (by omega), rfl⟩
    obtain ⟨hres, -⟩ := hall ⟨v, .zero 32, { wp with startNonce := v }, 0⟩ hmem ⟨0, Nat.two_pow_pos _, by simp⟩
    rw [Residual, hsize, hv, hstart, Nat.mul_div_cancel _ hkpos] at hres
    exact carry_ne hkpos hX hk hres
  · intro hfew
    obtain ⟨g, hset, -, hw64, hfit⟩ := Farm.setWork_of_extranonce random hsize he hn (mul_pow_le_of_residual he' hfew)
    rw [pow_residual he'] at hfit
    refine ⟨g, _, hset, hw64, fun solution hwork hv => ?_⟩
    obtain ⟨i, hi, hwork⟩ := mem_packages hwork
    rw [hwork] at hv
    constructor
    · rw [Residual, hsize, mem_segment_extranonce hstart hX hw64 hfit hi hv, hstart, Nat.mul_div_cancel _ hkpos]
    · apply ownDigits_ok
      rw [hwork]
      exact hsize.le.trans he'

/-! ## Every text -/

/-- A text that `processExtranonce` reads is handled well, from the job to the solutions of all miners, if and only
    if it is at most sixteen digits and a nonce is left for each miner. -/
theorem extranonce_handled_iff {x : String} {session session' later : Session}
    (hx : (processExtranonce x).exec session = (.ok (), session')) (hlater : later.extraNonce = session'.extraNonce)
    (hlater' : later.extraNonceSizeBytes = session'.extraNonceSizeBytes) {wp : WorkPackage} (hwp : Announced later wp)
    {f : Farm} (hn : 1 ≤ f.miners.length) (random : UInt64) :
    Owned x wp ∧ Divided f wp random ↔
      (∀ c ∈ x.toList, isHexDigit c = true) ∧ x.length ≤ 16 ∧
        if x.length = 0 then f.nonceSegmentWidth < 64 else f.miners.length ≤ 16 ^ (16 - x.length) := by
  obtain ⟨hstart, hex⟩ := hwp.extranonce
  have hfacts (hhex : ∀ c ∈ x.toList, isHexDigit c = true) (hlen : x.length ≤ 16) :
      wp.exSizeBytes.toNat = x.length ∧ wp.startNonce.toNat = hexValue x.toList * 16 ^ (16 - x.length) := by
    obtain ⟨session'', hexec, hsize, hnonce⟩ := processExtranonce_spec hhex hlen session
    cases (Prod.ext_iff.mp (hx.symm.trans hexec)).2
    rw [hex, hlater', hsize, hstart, hlater]
    exact ⟨Nat.mod_eq_of_lt (by omega), hnonce⟩
  have hdivided (hhex : ∀ c ∈ x.toList, isHexDigit c = true) (hlen : x.length ≤ 16) : Divided f wp random ↔
      if x.length = 0 then f.nonceSegmentWidth < 64 else f.miners.length ≤ 16 ^ (16 - x.length) := by
    obtain ⟨hsize, hnonce⟩ := hfacts hhex hlen
    split
    · rename_i hzero
      exact divided_plain (hsize.trans hzero)
    · exact divided_extranonce hsize (by omega) hlen (hexValue_mul_lt hlen) hnonce hn
  constructor
  · rintro ⟨howned, h⟩
    have hlen : x.length ≤ 16 := howned.length ▸ howned.size
    exact ⟨howned.hex, hlen, (hdivided howned.hex hlen).mp h⟩
  · rintro ⟨hhex, hlen, h⟩
    obtain ⟨hsize, hnonce⟩ := hfacts hhex hlen
    exact ⟨owned_of_value hhex hlen hsize hnonce, (hdivided hhex hlen).mpr h⟩

def newSession : Session := { start := 0, lastTxStamp := 0 }

def withExtranonce (x : String) : Session := (processExtranonce x).after newSession

def notifyParams : Json := .arr [.str "1", .str "2", .str "3", .null]

def jobWithExtranonce (x : String) : WorkPackage := (coreStratum2Job (withExtranonce x) notifyParams).after {}

/-- The whole nonce is the pool's, and there is one miner. -/
theorem sixteen_digits_handled : Owned "0123456789abcdef" (jobWithExtranonce "0123456789abcdef") ∧
    Divided (Farm.init [.cpu] 0 7).start (jobWithExtranonce "0123456789abcdef") 0 :=
  (@extranonce_handled_iff "0123456789abcdef" newSession (withExtranonce "0123456789abcdef")
      (withExtranonce "0123456789abcdef") (by decide +kernel) rfl rfl (jobWithExtranonce "0123456789abcdef")
      ⟨notifyParams, {}, .inr (by decide +kernel)⟩ (Farm.init [.cpu] 0 7).start (by decide) 0).mpr
    ⟨List.all_eq_true.mp (by decide), by decide, by decide⟩

/-- One digit more is read as well, and then the width of the segments is the logarithm of a number below 1, and
    no solution can be sent. -/
theorem seventeenth_digit_accepted :
    (processExtranonce "0123456789abcdef0").exec newSession = (.ok (), withExtranonce "0123456789abcdef0") ∧
    Announced (withExtranonce "0123456789abcdef0") (jobWithExtranonce "0123456789abcdef0") ∧
    ¬ Owned "0123456789abcdef0" (jobWithExtranonce "0123456789abcdef0") ∧
    (Farm.init [.cpu] 0 7).start.setWork (jobWithExtranonce "0123456789abcdef0") 0 = none ∧
    ownDigits ⟨0, .zero 32, jobWithExtranonce "0123456789abcdef0", 0⟩ = .error .outOfRange := by
  have hsize : (jobWithExtranonce "0123456789abcdef0").exSizeBytes.toNat = 17 := by decide +kernel
  refine ⟨by decide +kernel, ⟨notifyParams, {}, .inr (by decide +kernel)⟩, fun h => ?_, ?_, by decide +kernel⟩
  · have := h.size
    omega
  · decide +kernel

end CoreMiner.Stratum
