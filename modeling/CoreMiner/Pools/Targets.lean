/-
  CoreMiner.Pools.Targets — do all job intake paths read a share target as the same number
  (`XcbGetworkClient.cpp`, `XcbStratumClient.cpp`: `processResponse`; `FixedHash.h`)?

  Four paths bring a target to `h256`, whose length check gives the zero hash for any text that
  is not 32 bytes long (`h256_digits`). STRATUM and ETHPROXY jobs and `mining.set` fill the text
  up to 64 digits first, and store the number it denotes. The getwork client does not: its
  boundary is right for 63 and 64 digits, and zero for all shorter texts (`targets_agree_iff`).
-/

import CoreMiner.DevCore.HexCodec
import CoreMiner.Getwork.Client
import CoreMiner.Stratum.JobParameters

namespace CoreMiner.DevCore

open Lib

/-! ## Hashes from digits -/

theorem fromHex_digits {l : List Char} (hdigits : ∀ c ∈ l, isHexDigit c = true) :
    ∃ b, fromHex ("0x" ++ String.ofList l) .throw = .ok b ∧ b.length = (l.length + 1) / 2 ∧
      Digits.value 256 (b.map UInt8.toNat) = hexValue l := by
  have hbody : dropPrefix ("0x" ++ String.ofList l).toList = l := by simp [dropPrefix]
  have htext : isHexText ("0x" ++ String.ofList l) = true := by
    rw [isHexText, hbody]
    exact List.all_eq_true.mpr hdigits
  obtain ⟨b, hb, hlength, hvalue⟩ := fromHex_hexText htext .throw
  rw [hbody] at hlength hvalue
  exact ⟨b, hb, hlength, hvalue⟩

/-- `h256` reads 63 or 64 digits behind the prefix, and makes nothing of any other number of them. -/
theorem h256_digits {l : List Char} (hdigits : ∀ c ∈ l, isHexDigit c = true) :
    ∃ h : H256, h256 ("0x" ++ String.ofList l) = .ok h ∧
      h.value = if (l.length + 1) / 2 = 32 then hexValue l else 0 := by
  obtain ⟨b, hb, hlength, hvalue⟩ := fromHex_digits hdigits
  refine ⟨.ofBytes 32 b, by rw [h256, FixedHash.ofString, hb]; rfl, ?_⟩
  rw [FixedHash.ofBytes]
  by_cases h : b.length = 32
  · rw [dif_pos h, if_pos (by omega), ← hvalue]
    rfl
  · rw [dif_neg h, if_neg (by omega), FixedHash.value_zero]

end CoreMiner.DevCore

namespace CoreMiner.Pools

open DevCore EthCore Lib Prog Stratum

/-! ## The four paths -/

structure IsTarget (digits : List Char) : Prop where
  nonempty : digits ≠ []
  short : digits.length ≤ 64
  hex : ∀ c ∈ digits, isHexDigit c = true

def prefixed (digits : List Char) : String := "0x" ++ String.ofList digits

/-- The hashes of a job, header and seed, can be read; they stand from `idx` on. -/
def HashesReadable (prm : Json) (idx : Nat) : Prop :=
  ∃ header seed, prm.strIdx idx = .ok header ∧ (h256 header).isOk = true ∧
    prm.strIdx (idx + 1) = .ok seed ∧ (h256 seed).isOk = true

def GetworkReads (digits : List Char) : Prop :=
  ∀ jPrm, jPrm.strIdx 2 = .ok (prefixed digits) → HashesReadable jPrm 0 →
    ∃ w, Getwork.workOf jPrm = .ok w ∧ w.boundary.value = hexValue digits

/-- A `mining.notify` in mode STRATUM or ETHPROXY, its hashes from `prmIdx` on. If it is not taken,
    that is for its job id, its hashes or the block number behind them. -/
def NotifyReads (mode : Nat) (digits : List Char) : Prop :=
  ∀ prm prmIdx w, prm.strIdx (prmIdx + 2) = .ok (prefixed digits) →
    wp (stratumJob mode prm prmIdx) (fun _ w' => w'.boundary.value = hexValue digits)
      (fun _ _ => ¬ ((prm.strIdx 0).isOk = true ∧ HashesReadable prm prmIdx ∧
        (mode = ETHPROXY → prm.size ≤ prmIdx + 3))) w

structure SetsOnlyTarget (prm : Json) : Prop where
  timeout : prm.strKey "timeout" "" = .ok ""
  epoch : prm.strKey "epoch" "" = .ok ""
  algo : (prm.strKey "algo" "ethash").isOk = true
  extranonce : prm.strKey "extranonce" "" = .ok ""

/-- A `mining.set`, and then the jobs of the session. -/
def SetReads (digits : List Char) : Prop :=
  ∀ prm x, prm.strKey "target" "" = .ok (String.ofList digits) →
    wp (miningSet prm) (fun _ y => y.nextWorkBoundary.value = hexValue digits ∧
      ∀ job w, wp (coreStratum2Job y job) (fun _ w' => w'.boundary.value = hexValue digits)
        (fun _ w' => w'.boundary = w.boundary) w)
      (fun _ _ => ¬ SetsOnlyTarget prm) x

/-- Zeros in front make a text of 64 digits of the same value. -/
theorem filled_value {digits : List Char} (h : IsTarget digits) :
    ∃ b : H256, h256 ("0x" ++ String.ofList (List.replicate (64 - digits.length) '0' ++ digits)) = .ok b ∧
      b.value = hexValue digits := by
  have hzero : isHexDigit '0' = true := by decide
  have hdigits : ∀ c ∈ List.replicate (64 - digits.length) '0' ++ digits, isHexDigit c = true := by
    intro c hc
    rcases List.mem_append.mp hc with hc | hc
    · rw [(List.mem_replicate.mp hc).2]
      exact hzero
    · exact h.hex c hc
  obtain ⟨b, hb, hvalue⟩ := h256_digits hdigits
  have hlength : (List.replicate (64 - digits.length) '0' ++ digits).length = 64 := by
    have := h.short
    simp only [List.length_append, List.length_replicate]
    omega
  refine ⟨b, hb, ?_⟩
  rw [hvalue, hlength, if_pos rfl, hexValue_append, hexValue_zeros, zero_mul, zero_add]

theorem prefixed_length (digits : List Char) : (prefixed digits).length = digits.length + 2 := by
  rw [prefixed, ← String.length_toList]
  simp

/-- What the STRATUM and ETHPROXY branch does to the text in front of `h256`. -/
theorem fillTarget_prefixed {digits : List Char} (h : IsTarget digits) :
    fillTarget (prefixed digits) = .ok ("0x" ++ String.ofList (List.replicate (64 - digits.length) '0' ++ digits)) := by
  have hlength := prefixed_length digits
  have hshort := h.short
  unfold fillTarget
  by_cases hfull : (prefixed digits).length < 66
  · have hdrop : (prefixed digits).toList.drop 2 = digits := by simp [prefixed]
    have hfill : 66 - (prefixed digits).length = 64 - digits.length := by omega
    rw [if_pos hfull, substr, if_neg (by omega), hdrop, hfill, String.ofList_append, ← String.append_assoc]
    rfl
  · have hnone : 64 - digits.length = 0 := by omega
    rw [if_neg hfull, hnone]
    rfl

theorem except_isOk_iff {α : Type} {e : Except StdException α} : e.isOk = true ↔ ∃ a, e = .ok a := by
  cases e with
  | error x => exact iff_of_false Bool.false_ne_true nofun
  | ok a => exact iff_of_true rfl ⟨a, rfl⟩

theorem notifyReads {digits : List Char} (h : IsTarget digits) (mode : Nat) : NotifyReads mode digits := by
  intro prm prmIdx w htarget
  obtain ⟨b, hb, hvalue⟩ := filled_value h
  have hfilled := fillTarget_prefixed h
  by_cases hreadable :
    (prm.strIdx 0).isOk = true ∧ HashesReadable prm prmIdx ∧ (mode = ETHPROXY → prm.size ≤ prmIdx + 3)
  · obtain ⟨hjob, ⟨header, seed, hheader, hheader', hseed, hseed'⟩, hblock⟩ := hreadable
    obtain ⟨job, hjob⟩ := except_isOk_iff.mp hjob
    obtain ⟨x, hx⟩ := except_isOk_iff.mp hheader'
    obtain ⟨y, hy⟩ := except_isOk_iff.mp hseed'
    have hnone : ¬ (mode = ETHPROXY ∧ prmIdx + 3 < prm.size) := fun hb => by
      have := hblock hb.1
      omega
    simp only [stratumJob, hjob, hheader, hseed, htarget, hfilled, hx, hy, hb, raise_ok_bind, wp_bind,
      wp_modify, wp_when,
      if_neg hnone]
    exact hvalue
  · suffices hstored :
      wp (stratumJob mode prm prmIdx) (fun _ w' => w'.boundary.value = hexValue digits) (fun _ _ => True) w
      from wp_mono hstored (fun _ _ h => h) fun _ _ _ => hreadable
    refine wp_raise_bind_of fun job _ => wp_modify_bind_of (wp_raise_bind_of fun sHeaderHash _ =>
      wp_raise_bind_of fun sSeedHash _ => wp_raise_bind_of fun sShareTarget hShareTarget => wp_modify_bind_of ?_)
    have hsame : sShareTarget = prefixed digits := Except.ok.inj (hShareTarget.symm.trans htarget)
    -- The block number in between leaves the rest of the job alone.
    rw [wp_bind, wp_iff_exec]
    refine ⟨fun _ w' _ => ?_, fun _ _ _ => trivial⟩
    refine wp_raise_bind_of fun filled hfill => wp_raise_bind_of fun seed _ => wp_modify_bind_of
      (wp_raise_bind_of fun header _ => wp_modify_bind_of (wp_raise_bind_of fun boundary hboundary => ?_))
    rw [hsame, hfilled] at hfill
    rw [← Except.ok.inj hfill, hb] at hboundary
    rw [wp_modify, ← Except.ok.inj hboundary]
    exact hvalue

theorem padLeft_digits (digits : List Char) : "0x" ++ padLeft (String.ofList digits) 64 '0' =
    "0x" ++ String.ofList (List.replicate (64 - digits.length) '0' ++ digits) := by
  rw [padLeft, String.ofList_append, String.length_ofList]

theorem boundaryOf_digits {digits : List Char} (h : IsTarget digits) :
    ∃ b, boundaryOf (String.ofList digits) = some b ∧ b.value = hexValue digits := by
  obtain ⟨b, hb, hvalue⟩ := filled_value h
  have hnonempty : String.ofList digits ≠ "" := by
    intro hempty
    have := congrArg String.toList hempty
    rw [String.toList_ofList] at this
    exact h.nonempty this
  exact ⟨b, by rw [boundaryOf, if_neg hnonempty, padLeft_digits, hb]; rfl, hvalue⟩

/-- A target alone is always taken. -/
theorem miningSet_ends {prm : Json} {digits : List Char} (h : IsTarget digits)
    (htarget : prm.strKey "target" "" = .ok (String.ofList digits)) (hprm : SetsOnlyTarget prm) (x : Session) :
    wp (miningSet prm) (fun _ _ => True) (fun _ _ => False) x := by
  obtain ⟨b, hb, -⟩ := filled_value h
  obtain ⟨algo, halgo⟩ := except_isOk_iff.mp hprm.algo
  have hpad := padLeft_digits digits
  rw [← hpad] at hb
  simp only [miningSet, hprm.timeout, hprm.epoch, htarget, hb, halgo, hprm.extranonce, raise_ok_bind,
    wp_bind, wp_modify,
    wp_when, ne_eq, not_true_eq_false, if_false, ite_self]

theorem setReads {digits : List Char} (h : IsTarget digits) : SetReads digits := by
  intro prm x htarget
  obtain ⟨b, hb, hvalue⟩ := boundaryOf_digits h
  have hstored : wp (miningSet prm) (fun _ y => y.nextWorkBoundary = b) (fun _ _ => True) x := by
    refine wp_mono (miningSet_params prm b x) (fun _ y hy => ?_) fun _ _ h => h
    have hread : y.params.boundary =
        (boundaryOf (((prm.strKey "target" "").toOption).getD "")).getD x.params.boundary :=
      congrArg Params.boundary hy
    rw [htarget] at hread
    change y.nextWorkBoundary = (boundaryOf (String.ofList digits)).getD _ at hread
    rw [hread, hb]
    rfl
  have hends : wp (miningSet prm) (fun _ _ => True) (fun _ _ => ¬ SetsOnlyTarget prm) x := by
    by_cases hprm : SetsOnlyTarget prm
    · exact wp_mono (miningSet_ends h htarget hprm x) (fun _ _ h => h) fun _ _ h => h.elim
    · exact wp_iff_exec.mpr ⟨fun _ _ _ => trivial, fun _ _ _ => hprm⟩
  refine wp_mono (wp_and hstored hends) (fun _ y hy => ⟨by rw [hy.1, hvalue], fun job w => ?_⟩) fun _ _ h => h.2
  refine wp_mono (coreStratum2Job_params y job w) (fun _ w' hw => ?_) fun _ w' hw => ?_
  · have hcopied : w'.boundary = y.nextWorkBoundary := congrArg Params.boundary hw
    rw [hcopied, hy.1, hvalue]
  · rw [Renamed] at hw
    rw [hw]

def bareWork (digits : List Char) : Json := .arr [.str "", .str "", .str (prefixed digits)]

theorem bareWork_readable (digits : List Char) : HashesReadable (bareWork digits) 0 :=
  ⟨"", "", rfl, by decide, rfl, by decide⟩

theorem workOf_eq {jPrm : Json} {header seed target : String} {x y b : H256} (hheader : jPrm.strIdx 0 = .ok header)
    (hseed : jPrm.strIdx 1 = .ok seed) (htarget : jPrm.strIdx 2 = .ok target) (hx : h256 header = .ok x)
    (hy : h256 seed = .ok y) (hb : h256 target = .ok b) :
    Getwork.workOf jPrm = .ok { header := x, seed := y, boundary := b, job := x.hex .dontAdd } := by
  simp only [Getwork.workOf, hheader, hseed, htarget, hx, hy, hb, bind, Except.bind, pure, Except.pure]

theorem workOf_bare {digits : List Char} {b : H256} (hb : h256 (prefixed digits) = .ok b) :
    Getwork.workOf (bareWork digits) = .ok { boundary := b, job := (FixedHash.zero 32).hex .dontAdd } := by
  have hempty : h256 "" = .ok (.zero 32) := by decide
  exact workOf_eq rfl rfl rfl hempty hempty hb

theorem getworkReads_iff {digits : List Char} (h : IsTarget digits) :
    GetworkReads digits ↔ 63 ≤ digits.length ∨ hexValue digits = 0 := by
  obtain ⟨b, hb, hvalue⟩ := h256_digits h.hex
  have hshort := h.short
  have hright : b.value = hexValue digits ↔ 63 ≤ digits.length ∨ hexValue digits = 0 := by
    rw [hvalue]
    by_cases hlength : (digits.length + 1) / 2 = 32
    · rw [if_pos hlength]
      exact iff_of_true rfl (.inl (by omega))
    · rw [if_neg hlength]
      constructor
      · intro hzero
        exact .inr hzero.symm
      · rintro (hfull | hzero)
        · omega
        · exact hzero.symm
  rw [← hright]
  constructor
  · intro hreads
    obtain ⟨w, hw, hright⟩ := hreads (bareWork digits) rfl (bareWork_readable digits)
    rw [workOf_bare hb] at hw
    rw [← Except.ok.inj hw] at hright
    exact hright
  · rintro hb' jPrm htarget ⟨header, seed, hheader, hheader', hseed, hseed'⟩
    obtain ⟨x, hx⟩ := except_isOk_iff.mp hheader'
    obtain ⟨y, hy⟩ := except_isOk_iff.mp hseed'
    exact ⟨_, workOf_eq hheader hseed htarget hx hy hb, hb'⟩

/-- The paths read a target alike, as the number it denotes, exactly if it has all its digits or
    is zero. -/
theorem targets_agree_iff {digits : List Char} (h : IsTarget digits) :
    (GetworkReads digits ∧ NotifyReads STRATUM digits ∧ NotifyReads ETHPROXY digits ∧ SetReads digits) ↔
      63 ≤ digits.length ∨ hexValue digits = 0 := by
  rw [getworkReads_iff h, and_iff_left ⟨notifyReads h _, notifyReads h _, setReads h⟩]

def fullTarget : List Char := List.replicate 8 '0' ++ List.replicate 56 'f'

theorem fullTarget_agrees : IsTarget fullTarget ∧
    GetworkReads fullTarget ∧ NotifyReads STRATUM fullTarget ∧ NotifyReads ETHPROXY fullTarget ∧
      SetReads fullTarget := by
  have htarget : IsTarget fullTarget := ⟨by decide, by decide, List.all_eq_true.mp (by decide)⟩
  exact ⟨htarget, (targets_agree_iff htarget).mpr (.inl (by decide))⟩

/-- The same target without its zeros: the getwork client takes it for zero. -/
theorem stripped_target_zero : IsTarget (fullTarget.drop 8) ∧ hexValue (fullTarget.drop 8) = hexValue fullTarget ∧
    Getwork.workOf (bareWork (fullTarget.drop 8)) = .ok { job := (FixedHash.zero 32).hex .dontAdd } ∧
    hexValue (fullTarget.drop 8) ≠ 0 := by
  exact ⟨⟨by decide, by decide, List.all_eq_true.mp (by decide)⟩, by decide +kernel, by decide +kernel,
    by decide +kernel⟩

end CoreMiner.Pools
