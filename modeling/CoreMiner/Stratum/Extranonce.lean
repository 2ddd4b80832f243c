/-
  CoreMiner.Stratum.Extranonce — an extranonce on its way from the pool and back
  (`XcbStratumClient.cpp`: `processExtranonce`, the jobs and `submitSolution`;
  `Farm.cpp`: `setWork`).

  `x` is filled with zeros and read as a number; the segments divide what the zeros stand
  for; a nonce found is printed with sixteen digits, of which the first `e` are cut off.
  Behind `x` the rest denotes the nonce again, for every miner and every nonce of its
  segment (`extranonce_roundtrip`).
-/

import CoreMiner.Stratum.Connection

namespace CoreMiner.Stratum

open DevCore EthCore Lib Prog

/-- The package is one a `mining.notify` gave, in a session with this extranonce. -/
def Announced (session : Session) (wp : WorkPackage) : Prop :=
  ∃ prm w, (coreStratumJob session prm).exec w = (.ok true, wp) ∨ (coreStratum2Job session prm).exec w = (.ok (), wp)

theorem coreStratumJob_extranonce (session : Session) (prm : Json) (w : WorkPackage) :
    wp (coreStratumJob session prm)
      (fun b w => b = true → w.startNonce = session.extraNonce ∧
        w.exSizeBytes = UInt16.ofNat session.extraNonceSizeBytes) (fun _ _ => True) w := by
  refine wp_raise_bind_of
    fun job _ => wp_modify_bind_of (wp_raise_bind_of fun seed _ => wp_raise_bind_of fun header _ => ?_)
  split
  · exact wp_raise_bind_of fun _ _ => wp_modify_bind_of (wp_raise_bind_of fun _ _ => wp_modify_bind_of
      (wp_pure.mpr fun _ => ⟨rfl, rfl⟩))
  · exact wp_pure.mpr nofun

theorem coreStratum2Job_extranonce (session : Session) (prm : Json) (w : WorkPackage) :
    wp (coreStratum2Job session prm)
      (fun _ w => w.startNonce = session.extraNonce ∧
        w.exSizeBytes = UInt16.ofNat session.extraNonceSizeBytes) (fun _ _ => True) w := by
  unfold coreStratum2Job
  refine wp_raise_bind_of fun _ _ => wp_modify_bind_of (wp_raise_bind_of fun _ _ => wp_modify_bind_of
    (wp_raise_bind_of fun _ _ => wp_modify_bind_of (wp_raise_bind_of fun _ _ => ?_)))
  rw [wp_modify]
  exact ⟨rfl, rfl⟩

/-- The extranonce goes into the package unchanged. -/
theorem Announced.extranonce {session : Session} {wp : WorkPackage} (h : Announced session wp) :
    wp.startNonce = session.extraNonce ∧ wp.exSizeBytes = UInt16.ofNat session.extraNonceSizeBytes := by
  obtain ⟨prm, w, h | h⟩ := h
  · exact (wp_iff_exec.mp (coreStratumJob_extranonce session prm w)).1 _ _ h rfl
  · exact (wp_iff_exec.mp (coreStratum2Job_extranonce session prm w)).1 _ _ h

/-! ## From the pool -/

section

variable {x : String} (hx : ∀ c ∈ x.toList, isHexDigit c = true) (he : x.length ≤ 16)

theorem resize_toList (he : x.length ≤ 16) :
    (resize x 16 '0').toList = x.toList ++ List.replicate (16 - x.length) '0' := by
  rw [resize, String.toList_ofList, List.take_of_length_le (by rw [String.length_toList]; omega)]

/-- What is left to the miners. -/
theorem hexValue_mul_lt (he : x.length ≤ 16) :
    hexValue x.toList * 16 ^ (16 - x.length) + 16 ^ (16 - x.length) ≤ 2 ^ 64 := by
  have hlt := hexValue_lt x.toList
  rw [String.length_toList] at hlt
  calc hexValue x.toList * 16 ^ (16 - x.length) + 16 ^ (16 - x.length)
      = (hexValue x.toList + 1) * 16 ^ (16 - x.length) := by ring
    _ ≤ 16 ^ x.length * 16 ^ (16 - x.length) := Nat.mul_le_mul_right _ hlt
    _ = 16 ^ 16 := by rw [← pow_add, Nat.add_sub_cancel' (by omega)]
    _ = 2 ^ 64 := by norm_num

include hx he

/-- The number read is `x` followed by zeros. -/
theorem stoul_resize : stoul (resize x 16 '0') = .ok (UInt64.ofNat (hexValue x.toList * 16 ^ (16 - x.length))) := by
  have hlen : (resize x 16 '0').toList.length = 16 := by
    rw [resize_toList he, List.length_append, List.length_replicate, String.length_toList]
    omega
  rw [stoul_of_digits (fun c hc => ?_) (by omega) (by omega), resize_toList he, hexValue_append, hexValue_zeros,
    List.length_replicate, add_zero]
  rw [resize_toList he, List.mem_append] at hc
  rcases hc with hc | hc
  · exact hx c hc
  · rw [(List.mem_replicate.mp hc).2]
    decide

theorem processExtranonce_spec (session : Session) :
    ∃ session', (processExtranonce x).exec session = (.ok (), session') ∧
      session'.extraNonceSizeBytes = x.length ∧
      session'.extraNonce.toNat = hexValue x.toList * 16 ^ (16 - x.length) := by
  refine ⟨{ session with
    extraNonceSizeBytes := x.length
    extraNonce := UInt64.ofNat (hexValue x.toList * 16 ^ (16 - x.length)) }, ?_, rfl, ?_⟩
  · rw [processExtranonce, stoul_resize hx he]
    rfl
  · have hlt := hexValue_mul_lt he
    have hpos : 0 < 16 ^ (16 - x.length) := by positivity
    exact Nat.mod_eq_of_lt (by omega)

end

/-! ## Through the farm -/

theorem pow_residual {e : Nat} (he : e ≤ 16) : 2 ^ (64 - 4 * e) = 16 ^ (16 - e) := by
  rw [show 64 - 4 * e = 4 * (16 - e) by omega, pow_mul]
  norm_num

theorem mul_pow_le_of_residual {n e : Nat} (he : e ≤ 16) (h : n ≤ 16 ^ (16 - e)) : n * 16 ^ e ≤ 2 ^ 64 := by
  calc n * 16 ^ e ≤ 16 ^ (16 - e) * 16 ^ e := Nat.mul_le_mul_right _ h
    _ = 16 ^ 16 := by rw [← pow_add, Nat.sub_add_cancel he]
    _ = 2 ^ 64 := by norm_num

/-- A nonce of a segment is the pool's digits and an offset that never carries into them. -/
theorem mem_segment_extranonce {X k n i width : Nat} {start v : UInt64} (hstart : start.toNat = X * k)
    (hk : X * k + k ≤ 2 ^ 64) (hw : width < 64) (hfit : n * 2 ^ width ≤ k) (hi : i < n)
    (hv : v ∈ Farm.segment (Farm.segmentStart start width i) width) : v.toNat / k = X := by
  obtain ⟨t, ht, hvt⟩ := Farm.mem_segment_toNat hw hv
  have hoff := Arcs.offset_lt hfit hi ht
  have hkpos : 0 < k := by omega
  rw [hvt, hstart, add_assoc, Nat.mod_eq_of_lt (by omega), mul_comm, Nat.mul_add_div hkpos, Nat.div_eq_of_lt hoff,
    add_zero]

/-! ## Back to the pool -/

/-- The pool's digits, and behind them those that are sent. -/
theorem ownDigits_spec {x : String} (hx : ∀ c ∈ x.toList, isHexDigit c = true) (he : x.length ≤ 16)
    {solution : Solution} (hsize : solution.work.exSizeBytes.toNat = x.length)
    (hv : solution.nonce.toNat / 16 ^ (16 - x.length) = hexValue x.toList) :
    ∃ digits, ownDigits solution = .ok digits ∧ (x ++ digits).length = 16 ∧
      (∀ c ∈ (x ++ digits).toList, isHexDigit c = true) ∧ hexValue (x ++ digits).toList = solution.nonce.toNat := by
  obtain ⟨hlen, hvalue, hdigits⟩ := toHex_spec solution.nonce
  refine ⟨String.ofList ((toHex solution.nonce .dontAdd 16).toList.drop x.length), ?_, ?_, fun c hc => ?_, ?_⟩
  · rw [ownDigits, hsize, substr, if_neg (by rw [← String.length_toList, hlen]; omega)]
  · rw [← String.length_toList, String.toList_append, String.toList_ofList, List.length_append, List.length_drop, hlen,
      String.length_toList]
    omega
  · rw [String.toList_append, String.toList_ofList, List.mem_append] at hc
    exact hc.elim (hx c) fun hc => hdigits c (List.mem_of_mem_drop hc)
  · rw [String.toList_append, String.toList_ofList, hexValue_append, hexValue_drop, List.length_drop,
      hlen, hvalue, ← hv]
    exact Nat.div_add_mod' _ _

/-- Every nonce in the segment that `setWork` gives a miner, for a job announced in a session
    whose extranonce is `x`, is sent back without its first digits, which are those of `x`. -/
theorem extranonce_roundtrip {x : String} (hx : ∀ c ∈ x.toList, isHexDigit c = true) (he : 1 ≤ x.length)
    (he' : x.length ≤ 15) (session : Session) {f : Farm} (hn : 1 ≤ f.miners.length)
    (hn' : f.miners.length ≤ 2 ^ (64 - 4 * x.length)) (random : UInt64) :
    ∃ session', (processExtranonce x).exec session = (.ok (), session') ∧
      ∀ later : Session, later.extraNonce = session'.extraNonce →
        later.extraNonceSizeBytes = session'.extraNonceSizeBytes →
      ∀ wp, Announced later wp → ∃ g given, f.setWork wp random = some (g, given) ∧
        given.length = f.miners.length ∧
        (g.nonceSegmentWidth : ℤ) = ⌊Real.logb 2 (2 ^ (64 - 4 * x.length) / f.miners.length)⌋ ∧
        ∀ i < f.miners.length, ∀ solution : Solution, given[i]? = some solution.work →
          solution.nonce ∈ Farm.segment solution.work.startNonce g.nonceSegmentWidth →
          ∃ digits, (x ++ digits).length = 16 ∧ (∀ c ∈ (x ++ digits).toList, isHexDigit c = true) ∧
            hexValue (x ++ digits).toList = solution.nonce.toNat ∧
            (∀ u workerId, u.stratumMode = CORESTRATUM → submitRequest u workerId solution = .ok (.obj
              [("id", .int (40 + solution.midx)), ("method", .str "mining.submit"),
                ("params", .arr [.str u.userDotWorker, .str solution.work.job, .str digits])])) ∧
            (∀ u workerId, u.stratumMode = CORESTRATUM2 → submitRequest u workerId solution = .ok (.obj
              [("id", .int (40 + solution.midx)), ("method", .str "mining.submit"),
                ("params", .arr [.str solution.work.job, .str digits, .str workerId])])) := by
  obtain ⟨session', hexec, hsize, hnonce⟩ := processExtranonce_spec hx (by omega) session
  refine ⟨session', hexec, fun later hlater hlater' wp hwp => ?_⟩
  obtain ⟨hstart, hex⟩ := hwp.extranonce
  rw [hlater] at hstart
  have hdigits : wp.exSizeBytes.toNat = x.length := by
    rw [hex, hlater', hsize]
    exact Nat.mod_eq_of_lt (by omega)
  have hpow : 2 ^ (64 - 4 * x.length) = 16 ^ (16 - x.length) := pow_residual (by omega)
  have hroom := mul_pow_le_of_residual (by omega) (hpow ▸ hn')
  obtain ⟨g, hset, hwidth, hw64, hfit⟩ := Farm.setWork_of_extranonce random hdigits he hn hroom
  refine ⟨g, _, hset, by simp, ?_, fun i hi solution hgiven hv => ?_⟩
  · rw [hwidth, Arcs.log2_div_eq_floor_logb hn hn']
    push_cast
    rfl
  · have hwork : solution.work = { wp with startNonce := Farm.segmentStart wp.startNonce g.nonceSegmentWidth i } := by
      simpa [Farm.packages, hi] using hgiven.symm
    rw [hwork] at hv
    have hown := mem_segment_extranonce (hstart ▸ hnonce) (hexValue_mul_lt (by omega)) hw64 (hpow ▸ hfit) hi hv
    have hcut : solution.work.exSizeBytes.toNat = x.length := by
      rw [hwork]
      exact hdigits
    obtain ⟨digits, hsent, hlen, hhex, hvalue⟩ := ownDigits_spec hx (by omega) hcut hown
    refine ⟨digits, hlen, hhex, hvalue, fun u workerId hu => ?_, fun u workerId hu => ?_⟩
    · rw [submitRequest, hu, hsent]
      rfl
    · rw [submitRequest, hu, hsent]
      rfl

/-- Two miners and a two-digit extranonce, of which a CoreStratum/2.0.0 job can be announced. -/
theorem extranonce_roundtrip_two_miners :
    ∃ session', (processExtranonce "0a").exec { start := 0, lastTxStamp := 0 } = (.ok (), session') ∧
      Announced session' ((coreStratum2Job session' (.arr [.str "1", .str "2", .str "3", .null])).exec {}).2 ∧
      ∀ wp, Announced session' wp →
        ∃ g given, ((Farm.init [.cpu, .cpu] 0 7).start).setWork wp 0 = some (g, given) ∧ given.length = 2 := by
  obtain ⟨session', hexec, hrest⟩ :=
      extranonce_roundtrip (x := "0a") (List.all_eq_true.mp (by decide)) (by decide) (by decide)
    { start := 0, lastTxStamp := 0 } (f := (Farm.init [.cpu, .cpu] 0 7).start) (by decide) (by decide) 0
  refine ⟨session', hexec, ⟨_, {}, .inr (Prod.ext ?_ rfl)⟩, fun wp hwp => ?_⟩
  · cases congrArg Prod.snd hexec
    decide +kernel
  · obtain ⟨g, given, hset, hlen, -⟩ := hrest session' rfl rfl wp hwp
    exact ⟨g, given, hset, hlen⟩

end CoreMiner.Stratum
