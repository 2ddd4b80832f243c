/-
  CoreMiner.Pools.Difficulty — can the computation of the difficulty divide by zero
  (`PoolManager.cpp`: `onWorkReceived`, `showMiningAt`, `getCurrentDifficulty`;
  `CommonData.cpp`: `getHashesToTarget`, `getTargetFromDiff`; `SimulateClient.cpp`)?

  The divisor is the boundary of the manager's work, which is some client's. The boundary that a
  difficulty gives is never zero (`getTargetFromDiff_value`), so neither is that of simulated
  work nor the one of `mining.set_difficulty`. All others are the pool's texts; `h256` reads a
  zero from zeros and from a text of the wrong length (`h256_eq_zero_iff`). As long as no job
  has such a target, no client reports work with a zero boundary, whatever else it is sent
  (`Delivered.hasBoundary`), and the difficulty is defined in every state of the manager
  (`difficulty_defined`). A node that sends a short target stops the program
  (`short_target_divides`).
-/

import CoreMiner.Api.Stats
import CoreMiner.Getwork.Polling
import CoreMiner.Pools.Targets
import CoreMiner.Stratum.Boundaries

namespace CoreMiner.DevCore

open Lib

/-! ## Texts that are read as zero -/

/-- Hexadecimal digits of which there are not 63 or 64, or only zeros. -/
def isVoid (text : String) : Bool :=
  let digits := dropPrefix text.toList
  digits.all isHexDigit && (digits.length ≠ 63 && digits.length ≠ 64 || digits.all (· = '0'))

theorem fromHexChar_eq_zero {c : Char} : fromHexChar c = some 0 ↔ c = '0' := by
  refine ⟨fun h => ?_, fun h => by rw [h]; rfl⟩
  unfold fromHexChar at h
  split at h
  · rename_i hdigit
    have hlow : '0'.toNat ≤ c.toNat := hdigit.1
    have hzero : c.toNat - '0'.toNat = 0 := Option.some.inj h
    exact Char.toNat_inj.mp (by omega)
  · split at h
    · cases h
    · split at h
      · cases h
      · cases h

theorem hexValue_eq_zero_iff {l : List Char} (h : ∀ c ∈ l, isHexDigit c = true) :
    hexValue l = 0 ↔ ∀ c ∈ l, c = '0' := by
  induction l with
  | nil => simp [hexValue, hexDigits]
  | cons c l ih =>
    obtain ⟨d, hd⟩ := Option.isSome_iff_exists.mp (h c List.mem_cons_self)
    have hfirst : d = 0 ↔ c = '0' := by
      rw [← fromHexChar_eq_zero, hd, Option.some.injEq]
    have hvalue : hexValue (c :: l) = d * 16 ^ l.length + hexValue l := by
      rw [hexValue, hexDigits, List.map_cons, hd, Digits.value_cons, List.length_map]
      rfl
    rw [hvalue, Nat.add_eq_zero_iff, Nat.mul_eq_zero, or_iff_left (Nat.pow_pos (by decide)).ne', hfirst,
      ih fun c hc => h c (List.mem_cons_of_mem _ hc), List.forall_mem_cons]

theorem h256_eq_zero_iff {text : String} : h256 text = .ok (.zero 32) ↔ isVoid text = true := by
  by_cases hhex : isHexText text = true
  · obtain ⟨b, hb, hlength, hvalue⟩ := fromHex_hexText hhex .throw
    have hdigits : ∀ c ∈ dropPrefix text.toList, isHexDigit c = true := List.all_eq_true.mp hhex
    have hread : h256 text = .ok (.ofBytes 32 b) := by
      rw [h256, FixedHash.ofString, hb]
      rfl
    have hvoid : isVoid text = true ↔ b.length = 32 → ∀ c ∈ dropPrefix text.toList, c = '0' := by
      rw [isVoid, List.all_eq_true.mpr hdigits, Bool.true_and, hlength]
      simp only [Bool.or_eq_true, Bool.and_eq_true, decide_eq_true_eq, List.all_eq_true, ne_eq]
      rw [← not_or, ← imp_iff_not_or]
      refine imp_congr_left ?_
      omega
    rw [hread, Except.ok.injEq, hvoid, ← hexValue_eq_zero_iff hdigits, ← hvalue, FixedHash.ofBytes]
    by_cases h32 : b.length = 32
    · rw [dif_pos h32, ← FixedHash.value_eq_zero, imp_iff_right h32]
      rfl
    · rw [dif_neg h32]
      exact iff_of_true rfl fun h => absurd h h32
  · have hread : ¬ (h256 text).isOk = true := by rwa [h256_isOk]
    refine iff_of_false (fun h => hread (by rw [h]; rfl)) fun h => hhex ?_
    rw [isVoid, Bool.and_eq_true] at h
    exact h.1

end CoreMiner.DevCore

namespace CoreMiner.Pools

open DevCore EthCore Lib Prog

/-! ## Targets of difficulties -/

/-- A number below 2^256 is read back from its digits. -/
theorem filled_number {n : Nat} (h : n < 2 ^ 256) :
    ∃ b : H256, h256 ("0x" ++ padLeft (toCompactHex n) 64 '0') = .ok b ∧ b.value = n := by
  obtain ⟨hvalue, hhex⟩ := toDigits_hex n
  have hdigits : IsTarget (Nat.toDigits 16 n) := by
    refine ⟨?_, (Nat.length_toDigits_le_iff (by decide) (by decide)).mpr h, hhex⟩
    intro hnil
    have := Nat.length_toDigits_pos (b := 16) (n := n)
    rw [hnil] at this
    exact absurd this (by decide)
  obtain ⟨b, hb, hbvalue⟩ := filled_value hdigits
  exact ⟨b, by rw [toCompactHex, padLeft_digits, hb], hbvalue.trans hvalue⟩

theorem decimals_lt {decimals : List Nat} (h : ∀ d ∈ decimals, d < 10) (base : Nat) (hbase : 0 < base) :
    base * Digits.value 10 decimals / 10 ^ decimals.length < base :=
  (Nat.div_lt_iff_lt_mul (Nat.pow_pos (by decide))).mpr (Nat.mul_lt_mul_of_pos_left (Digits.value_lt h) hbase)

/-- The target of a difficulty of at most 1 that 2^32 times is above 1 is no zero. -/
theorem getTargetFromDiff_value (idiff : Nat) (decimals : List Nat) (hpos : 1 ≤ idiff) (hlt : idiff < 2 ^ 32)
    (hdigits : ∀ d ∈ decimals, d < 10) :
    ∃ b : H256, h256 (getTargetFromDiff idiff decimals) = .ok b ∧ b ≠ .zero 32 := by
  have hbase : 0 < baseTarget := by decide
  have hdecimals := decimals_lt hdigits baseTarget hbase
  have hwhole : baseTarget * 1 ≤ baseTarget * idiff := Nat.mul_le_mul_left _ hpos
  have hmax : baseTarget * idiff + baseTarget ≤ baseTarget * 2 ^ 32 := by
    rw [← Nat.mul_succ]
    exact Nat.mul_le_mul_left _ hlt
  have hfit : baseTarget * 2 ^ 32 < 2 ^ 256 := by decide
  obtain ⟨b, hb, hvalue⟩ := filled_number (n := baseTarget * idiff +
    baseTarget * Digits.value 10 decimals / 10 ^ decimals.length) (by omega)
  refine ⟨b, hb, fun hzero => ?_⟩
  rw [hzero, FixedHash.value_zero] at hvalue
  have hnone : baseTarget * idiff = 0 := (Nat.add_eq_zero_iff.mp hvalue.symm).1
  omega

/-! ## The clients -/

def Reports (s t : Getwork.St) : Prop :=
  ∀ w, Getwork.Out.onWorkReceived w ∈ t.log → .onWorkReceived w ∈ s.log ∨ w.HasBoundary

theorem Reports.of_log {s t : Getwork.St} (h : ∀ w, Getwork.Out.onWorkReceived w ∈ t.log → .onWorkReceived w ∈ s.log) :
    Reports s t := fun w hw => .inl (h w hw)

theorem Reports.working : Getwork.Working WorkPackage.HasBoundary (fun _ => True) Reports where
  refl _ := .of_log fun _ => id
  trans s t u h h' := by
    intro w hw
    rcases h' w hw with hw | hw
    · exact h w hw
    · exact .inr hw
  timed _ _ := .of_log fun _ => id
  works s wp hwp := by
    intro w hw
    rcases List.mem_cons.mp hw with hnew | hold
    · cases hnew
      exact .inr hwp
    · exact .inl hold
  verdict s o id _ _ ho := by
    refine .of_log fun w hw => ?_
    rcases List.mem_cons.mp hw with rfl | hold
    · cases ho
    · exact hold
  same s t _ _ hlog := .of_log fun w hw => hlog ▸ hw
  gone s := .of_log fun w hw => by simpa [Getwork.St.gone] using hw
  welcomed s := by
    refine .of_log fun w hw => ?_
    unfold Getwork.St.welcomed at hw
    split at hw
    · simpa using hw
    · exact hw
  queued _ _ _ := .of_log fun _ => id
  taken _ _ _ _ := .of_log fun _ => id

/-- The result of a reply has a header, but a target that is read as zero. -/
def ZeroTarget (jRes : Json) : Prop :=
  ∃ jPrm header target, jRes.get "result" .null = .ok jPrm ∧ jPrm.strIdx 0 = .ok header ∧ jPrm.strIdx 2 = .ok target ∧
    isVoid header = false ∧ isVoid target = true

/-- No line that the node sends brings such a result. -/
def Targeted (E : Getwork.Env) (s : Getwork.St) (e : Getwork.Ev) : Prop :=
  e = .run → ∀ rxMessage queue lines, s.queue = .handleRead (.ok rxMessage) :: queue →
    Getwork.replyLines rxMessage = some lines → ∀ line ∈ lines, ∀ jRes, E.parse line = .ok (some jRes) →
      ¬ ZeroTarget jRes

theorem workOf_reads {jPrm : Json} {w : WorkPackage} (h : Getwork.workOf jPrm = .ok w) :
    ∃ header target, jPrm.strIdx 0 = .ok header ∧ h256 header = .ok w.header ∧ jPrm.strIdx 2 = .ok target ∧
      h256 target = .ok w.boundary := by
  obtain ⟨header, hheader, h⟩ := except_bind_eq_ok_iff.mp h
  obtain ⟨x, hx, h⟩ := except_bind_eq_ok_iff.mp h
  obtain ⟨seed, -, h⟩ := except_bind_eq_ok_iff.mp h
  obtain ⟨y, -, h⟩ := except_bind_eq_ok_iff.mp h
  obtain ⟨target, htarget, h⟩ := except_bind_eq_ok_iff.mp h
  obtain ⟨b, hb, h⟩ := except_bind_eq_ok_iff.mp h
  cases h
  exact ⟨header, target, hheader, hx, htarget, hb⟩

theorem carried_hasBoundary {jRes : Json} {w : WorkPackage} (hz : ¬ ZeroTarget jRes)
    (h : Getwork.carried jRes = .ok w) : w.HasBoundary := by
  obtain ⟨jPrm, hresult, hwork⟩ := except_bind_eq_ok_iff.mp h
  obtain ⟨header, target, hheader, hx, htarget, hb⟩ := workOf_reads hwork
  intro hne hzero
  rw [hzero, h256_eq_zero_iff] at hb
  refine hz ⟨jPrm, header, target, hresult, hheader, htarget, Bool.eq_false_iff.mpr fun hvoid => hne ?_, hb⟩
  exact Except.ok.inj (hx.symm.trans (h256_eq_zero_iff.mpr hvoid))

theorem Targeted.carried {E : Getwork.Env} {s : Getwork.St} {e : Getwork.Ev} (h : Targeted E s e) :
    Getwork.Carried E WorkPackage.HasBoundary s e := by
  cases e with
  | run =>
    intro k queue hqueue
    unfold Getwork.Handler.Carries
    split
    · intro lines hlines line hline jRes w hparse hw
      exact carried_hasBoundary (h rfl _ queue lines hqueue hlines line hline jRes hparse) hw
    · trivial
  | _ => trivial

/-- In a run of the getwork client whose node sends no such result no such job is reported. -/
theorem getwork_reports {E : Getwork.Env} {past : List (Getwork.St × Getwork.Ev)} {s : Getwork.St}
    (h : Traced (Getwork.step E) (fun s => ∃ u maxId, s = Getwork.init u maxId) (Targeted E) past s) :
    ∀ w, Getwork.Out.onWorkReceived w ∈ s.log → w.HasBoundary := by
  refine h.invariant (J := fun s => ∀ w, Getwork.Out.onWorkReceived w ∈ s.log → w.HasBoundary) ?_ ?_
  · rintro s ⟨u, maxId, rfl⟩
    exact nofun
  · intro s e t ih hC hstep w hw
    have hreports := (Getwork.fired_of_step hstep).2.kept Reports.working trivial (fun _ _ => trivial) hC.carried
    rcases hreports w hw with hw | hw
    · exact ih w hw
    · exact hw

/-- The job of `SimulateClient::workLoop`; the seed and the header are random. -/
def simulatedWork (seed header : H256) (block : Int) : Except StdException WorkPackage := do
  let boundary ← h256 (getTargetFromDiff 1 [])
  return { seed, header, block, boundary }

/-- The packages that some client hands the manager: one of a stratum client that is sent no target
    of zero, of a getwork client whose node sends none, or of the simulation. -/
inductive Delivered : WorkPackage → Prop
  | stratum {E : Stratum.Env} {s : Stratum.St} {w : WorkPackage} (h : Stratum.Run E (Stratum.Targeted E) s)
    (hw : .onWorkReceived w ∈ s.log) : Delivered w
  | getwork {E : Getwork.Env} {past : List (Getwork.St × Getwork.Ev)} {s : Getwork.St} {w : WorkPackage}
    (h : Traced (Getwork.step E) (fun s => ∃ u maxId, s = Getwork.init u maxId) (Targeted E) past s)
    (hw : .onWorkReceived w ∈ s.log) : Delivered w
  | simulate {seed header : H256} {block : Int} {w : WorkPackage} (h : simulatedWork seed header block = .ok w) :
    Delivered w

theorem Delivered.hasBoundary {w : WorkPackage} (h : Delivered w) : w.HasBoundary := by
  cases h with
  | stratum h hw => exact fun _ => (Stratum.sound_of_run h).log w hw
  | getwork h hw => exact getwork_reports h w hw
  | simulate h =>
    obtain ⟨b, hb, hzero⟩ := getTargetFromDiff_value 1 [] (by decide) (by decide) (by simp)
    rw [simulatedWork, hb] at h
    cases h
    exact fun _ => hzero

/-! ## The manager -/

/-- The states of the manager, with jobs that its clients deliver. -/
inductive Fed : Manager → Prop
  | start {m : Manager} (h : m.currentWp = {}) : Fed m
  | onConnected {m : Manager} (S : Settings) (now : Nat) (random : UInt64) : Fed m → Fed (m.onConnected S now random)
  | onDisconnected {m : Manager} (stopping : Bool) : Fed m → Fed (m.onDisconnected stopping)
  | onWorkReceived {m : Manager} {w : WorkPackage} (S : Settings) (mode : Nat) (random : UInt64) :
    Fed m → Delivered w → Fed (m.onWorkReceived S mode random w)
  /-- Whatever does not touch the work: the API's methods, the timers, the verdicts on shares. -/
  | other {m n : Manager} (h : n.currentWp = m.currentWp) : Fed m → Fed n

theorem Fed.hasBoundary {m : Manager} (h : Fed m) : m.currentWp.HasBoundary := by
  induction h with
  | start h => exact fun hheader => absurd (by rw [h]) hheader
  | onConnected S now random _ _ => exact fun hheader => absurd rfl hheader
  | onDisconnected stopping _ _ =>
    refine fun hheader => absurd ?_ hheader
    unfold Manager.onDisconnected
    split <;> rfl
  | @onWorkReceived m w S mode random _ hw ih =>
    have htaken : (m.taking S mode w).currentWp.HasBoundary := (Manager.taking_hasBoundary S mode m).mpr hw.hasBoundary
    unfold Manager.onWorkReceived
    split
    · exact ih
    · split <;> exact htaken
  | other h _ ih => exact h ▸ ih

theorem ok_of_isOk {e : Except StdException Unit} (h : e.isOk = true) : e = .ok () := by
  cases e with
  | error x => cases h
  | ok u => rfl

theorem showMiningAt_ok {m : Manager} (h : m.currentWp.HasBoundary) : m.showMiningAt = .ok () :=
  ok_of_isOk (Manager.showMiningAt_isOk_iff.mpr h)

/-- As long as no client is sent a target of zero, work that reaches the manager has a boundary, and
    the difficulty is defined: while the work is taken, and in every state of the manager. -/
theorem difficulty_defined (w : WorkPackage) (n : Api.Node) :
    (Delivered w → w.header ≠ .zero 32 → w.boundary ≠ .zero 32 ∧
      ∀ S mode m, (Manager.taking S mode w m).showMiningAt = .ok ()) ∧
      (Fed n.pools → n.pools.showMiningAt = .ok () ∧ ∃ d, n.getCurrentDifficulty = .ok d) := by
  refine ⟨fun hw hheader => ⟨hw.hasBoundary hheader, fun S mode m => ?_⟩, fun hn => ⟨?_, ?_⟩⟩
  · exact showMiningAt_ok ((Manager.taking_hasBoundary _ _ _).mpr hw.hasBoundary)
  · exact showMiningAt_ok hn.hasBoundary
  · unfold Api.Node.getCurrentDifficulty
    split
    · exact ⟨0, rfl⟩
    · rename_i hheader
      exact except_isOk_iff.mp (getHashesToTarget_isOk_iff.mpr (hn.hasBoundary hheader))

/-! ## Two nodes -/

def jobWith (target : String) : Json :=
  .obj [("id", .int 1), ("result", .arr [.str ("0x" ++ String.ofList (List.replicate 64 '1')),
    .str ("0x" ++ String.ofList (List.replicate 64 '1')), .str target])]

def workWith (boundary : H256) : WorkPackage where
  header := ⟨List.replicate 32 17, rfl⟩
  seed := ⟨List.replicate 32 17, rfl⟩
  boundary
  job := String.ofList (List.replicate 64 '1')

def firstJob : List Getwork.Ev := Getwork.firstPoll ++ [.readCompletes (Getwork.okReply "\x7b\x7d"), .run]

def fullJob : Json := jobWith ("0x" ++ String.ofList (List.replicate 64 '2'))

def fullWork : WorkPackage := workWith ⟨List.replicate 32 34, rfl⟩

theorem fullJob_targeted : ¬ ZeroTarget fullJob := by
  rintro ⟨jPrm, header, target, hresult, -, htarget, -, hvoid⟩
  have hread : fullJob.get "result" .null >>= (fun jPrm => jPrm.strIdx 2) =
      .ok ("0x" ++ String.ofList (List.replicate 64 '2')) := by decide +kernel
  rw [hresult] at hread
  cases htarget.symm.trans hread
  exact absurd hvoid (by decide +kernel)

def idleNode : Api.Node where
  pools := { connections := [0], farm := { devices := [], ergodicity := 0, nonceScrambler := 0 } }
  client := none
  telemetry := { start := 0 }
  descriptor _ := { uniqueId := "", totalMemory := 0 }
  logOptions := 0

theorem full_target_divides :
    (fullWork.header ≠ .zero 32 ∧ fullWork.boundary ≠ .zero 32 ∧
      ∀ S mode m, (Manager.taking S mode fullWork m).showMiningAt = .ok ()) ∧
    idleNode.pools.showMiningAt = .ok () ∧ ∃ d, idleNode.getCurrentDifficulty = .ok d := by
  obtain ⟨past, s, hrun, hlog⟩ := traced_of_record (Getwork.step (Getwork.nodeEnv fullJob))
    (I := fun s => ∃ u maxId, s = Getwork.init u maxId) (fun _ _ => true) ⟨Getwork.nodeUri, 0, rfl⟩ firstJob
    (P := fun _ s => Getwork.Out.onWorkReceived fullWork ∈ s.log) (by decide +kernel)
  have htargeted : ∀ s e, true = true → Targeted (Getwork.nodeEnv fullJob) s e := by
    intro s e _ _ rxMessage queue lines _ _ line _ jRes hparse
    cases hparse
    exact fullJob_targeted
  have hheader : fullWork.header ≠ .zero 32 := by decide
  obtain ⟨hwork, hnode⟩ := difficulty_defined fullWork idleNode
  exact ⟨⟨hheader, hwork (.getwork (hrun.mono htargeted) hlog) hheader⟩, hnode (.start rfl)⟩

def shortJob : Json := jobWith "0x3"

def shortWork : WorkPackage := workWith (.zero 32)

/-- The client reports it, the manager takes it, and the division by zero ends the program. -/
theorem short_target_divides : ∃ past s,
    Traced (Getwork.step (Getwork.nodeEnv shortJob)) (fun s => ∃ u maxId, s = Getwork.init u maxId)
      (fun _ _ => true = true) past s ∧ Getwork.Out.onWorkReceived shortWork ∈ s.log ∧
      s.crashed = some (.exception .runtimeError) ∧ shortWork.header ≠ .zero 32 ∧ shortWork.boundary = .zero 32 ∧
      ∀ S mode m, (Manager.taking S mode shortWork m).showMiningAt = .error .runtimeError := by
  obtain ⟨past, s, hrun, hlog, hcrashed⟩ := traced_of_record (Getwork.step (Getwork.nodeEnv shortJob))
    (I := fun s => ∃ u maxId, s = Getwork.init u maxId) (fun _ _ => true) ⟨Getwork.nodeUri, 0, rfl⟩ firstJob
    (P := fun _ s => Getwork.Out.onWorkReceived shortWork ∈ s.log ∧ s.crashed = some (.exception .runtimeError))
    (by decide +kernel)
  refine ⟨past, s, hrun, hlog, hcrashed, by decide, rfl, fun S mode m => ?_⟩
  obtain ⟨epoch, hepoch⟩ := Manager.withEpoch_eq S mode shortWork m
  have hheader : shortWork.header ≠ .zero 32 := by decide
  rw [Manager.showMiningAt, Manager.taking, hepoch, if_neg hheader]
  rfl

end CoreMiner.Pools
