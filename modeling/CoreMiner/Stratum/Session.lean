/-
  CoreMiner.Stratum.Session — what a pool's messages do to the session and to the job at
  hand (`PoolClient.h`: `Session`; `XcbStratumClient.cpp`: `processExtranonce` and the
  `mining.set*` and `mining.notify` branches of `processResponse`).

  Each piece is a program on the one record it writes, `m_session` or `m_current`, with the
  writes and the throwing conversions in the order of the source: a throw leaves the
  writes made before it.
-/

import CoreMiner.DevCore.Json
import CoreMiner.EthCore.Farm
import CoreMiner.Lib.Prog

namespace CoreMiner.Stratum

open DevCore EthCore Lib
open Prog (when catching zoom)

/-- Why a piece of the client stops before its end: an exception derived from
    `std::exception`, a thrown pointer to one (`throw new`), or an operation C++ leaves
    undefined. -/
inductive Stop where
  | exception (e : StdException)
  | exceptionPtr
  | nullConn
  | nullSession
  | nullSocket
  | emptyEndpoints
  deriving DecidableEq, Repr

/-- Caught by `catch (const std::exception&)`. -/
def Stop.isStd : Stop → Bool
  | exception _ => true
  | _ => false

def raise {σ α : Type} (e : Except StdException α) : Prog σ Stop α :=
  match e with
  | .ok a => pure a
  | .error x => throw (.exception x)

@[simp] theorem wp_raise {σ α : Type} {e : Except StdException α} {Q : α → σ → Prop} {X : Stop → σ → Prop} {s : σ} :
    Prog.wp (raise e) Q X s ↔ match e with
      | .ok a => Q a s
      | .error x => X (.exception x) s := by
  cases e <;> rfl

section wp

variable {σ α β : Type} {Q : β → σ → Prop} {s : σ}

/-- A program that ends normally has got past its conversions. -/
theorem wp_raise_bind_of {e : Except StdException α} {f : α → Prog σ Stop β}
    (h : ∀ a, e = .ok a → Prog.wp (f a) Q (fun _ _ => True) s) : Prog.wp (raise e >>= f) Q (fun _ _ => True) s := by
  rw [Prog.wp_bind, wp_raise]
  cases e with
  | error x => trivial
  | ok a => exact h a rfl

theorem wp_modify_bind_of {g : σ → σ} {f : PUnit → Prog σ Stop β} (h : Prog.wp (f ⟨⟩) Q (fun _ _ => True) (g s)) :
    Prog.wp (modify g >>= f) Q (fun _ _ => True) s := by
  rw [Prog.wp_bind, Prog.wp_modify]
  exact h

end wp

abbrev STRATUM : Nat := 0
abbrev ETHPROXY : Nat := 1
abbrev CORESTRATUM : Nat := 2
abbrev CORESTRATUM2 : Nat := 3

def defaultBoundary : H256 := .ofBytes 32 ([0, 0, 0, 0, 0xff, 0xff] ++ List.replicate 26 0)

structure Session where
  start : Nat
  subscribed : Bool := false
  authorized : Bool := false
  extraNonce : UInt64 := 0
  extraNonceSizeBytes : Nat := 0
  nextWorkBoundary : H256 := defaultBoundary
  firstMiningSet : Bool := false
  timeout : UInt32 := 30
  sessionId : String := ""
  workerId : String := ""
  algo : String := "ethash"
  epoch : UInt32 := 0
  lastTxStamp : Nat
  deriving DecidableEq

/-! ## Session parameters -/

def processExtranonce (enonce : String) : Prog Session Stop Unit := do
  modify fun s => { s with extraNonceSizeBytes := enonce.length }
  let n ← raise (stoul (resize enonce 16 '0'))
  modify fun s => { s with extraNonce := n }

/-- `getTargetFromDiff` of 0.00001: the reciprocal of this `double` is written as
    99999.999999999985. -/
def leastTarget : String := getTargetFromDiff 99999 [9, 9, 9, 9, 9, 9, 9, 9, 9, 9, 8, 5]

/-- `mining.set_difficulty`: the difficulty is the constant `max(0.000001, 0.00001)` whatever
    the message says. -/
def setDifficulty : Prog Session Stop Unit := do
  let boundary ← raise (h256 leastTarget)
  modify fun s => { s with nextWorkBoundary := boundary }

def miningSet (prm : Json) : Prog Session Stop Unit := do
  modify fun s => { s with firstMiningSet := true }
  let timeout ← raise (prm.strKey "timeout" "")
  let epoch ← raise (prm.strKey "epoch" "")
  let target ← raise (prm.strKey "target" "")
  when (timeout ≠ "") do
    let n ← raise (stoi timeout)
    modify fun s => { s with timeout := .ofInt n }
  when (epoch ≠ "") do
    let n ← raise (stoul epoch)
    modify fun s => { s with epoch := n.toUInt32 }
  when (target ≠ "") do
    let boundary ← raise (h256 ("0x" ++ padLeft target 64 '0'))
    modify fun s => { s with nextWorkBoundary := boundary }
  let algo ← raise (prm.strKey "algo" "ethash")
  modify fun s => { s with algo := algo }
  let enonce ← raise (prm.strKey "extranonce" "")
  when (enonce ≠ "") (processExtranonce enonce)

/-! ## Jobs -/

def maxBlock : Int := 0x9660180

/-- The block number some eth-proxy pools append. An out-of-range number is thrown at as a
    pointer, which the handler here does not catch. -/
def readBlock (prm : Json) (idx : Nat) : Prog WorkPackage Stop Unit :=
  catching Stop.isStd
    (do
      let text ← raise (prm.strIdx idx)
      let n ← raise (stoul text)
      modify fun w => { w with block := toInt32 n }
      when (maxBlock < toInt32 n) (throw .exceptionPtr))
    (modify fun w => { w with block := -1 })

/-- The share target filled up to 64 digits behind its `0x`. -/
def fillTarget (target : String) : Except StdException String :=
  if target.length < 66 then do
    let digits ← substr target 2
    return "0x" ++ String.ofList (List.replicate (66 - target.length) '0') ++ digits
  else .ok target

def stratumJob (mode : Nat) (prm : Json) (prmIdx : Nat) : Prog WorkPackage Stop Unit := do
  let job ← raise (prm.strIdx 0)
  modify fun w => { w with job := job }
  let sHeaderHash ← raise (prm.strIdx prmIdx)
  let sSeedHash ← raise (prm.strIdx (prmIdx + 1))
  let sShareTarget ← raise (prm.strIdx (prmIdx + 2))
  modify fun w => { w with block := -1 }
  when (mode = ETHPROXY ∧ prmIdx + 3 < prm.size) do
    let text ← raise (prm.strIdx (prmIdx + 3))
    when (text.toList.take 2 = ['0', 'x']) (readBlock prm (prmIdx + 3))
  let sShareTarget ← raise (fillTarget sShareTarget)
  let seed ← raise (h256 sSeedHash)
  modify fun w => { w with seed := seed }
  let header ← raise (h256 sHeaderHash)
  modify fun w => { w with header := header }
  let boundary ← raise (h256 sShareTarget)
  modify fun w => { w with boundary := boundary }

/-- The job of a `mining.notify` in mode CORESTRATUM; `false` when a hash is missing and
    there is no new job. -/
def coreStratumJob (session : Session) (prm : Json) : Prog WorkPackage Stop Bool := do
  let job ← raise (prm.strIdx 0)
  modify fun w => { w with job := job }
  let sSeedHash ← raise (prm.strIdx 1)
  let sHeaderHash ← raise (prm.strIdx 2)
  if sHeaderHash ≠ "" ∧ sSeedHash ≠ "" then
    let seed ← raise (h256 sSeedHash)
    modify fun w => { w with seed := seed }
    let header ← raise (h256 sHeaderHash)
    modify fun w => { w with
      header := header
      boundary := session.nextWorkBoundary
      startNonce := session.extraNonce
      exSizeBytes := UInt16.ofNat session.extraNonceSizeBytes
      block := -1 }
    return true
  else return false

def legacyJob (mode : Nat) (session : Session) (prm : Json) (prmIdx : Nat) : Prog WorkPackage Stop Bool :=
  if mode = CORESTRATUM then coreStratumJob session prm
  else do
    stratumJob mode prm prmIdx
    return true

/-- The job of a `mining.notify` in mode CORESTRATUM2. The job id and the block are stored
    before the conversions behind them are known to succeed. -/
def coreStratum2Job (session : Session) (prm : Json) : Prog WorkPackage Stop Unit := do
  let job ← raise (prm.strIdx 0)
  modify fun w => { w with job := job }
  let block ← raise (do stoul (← prm.strIdx 1))
  modify fun w => { w with block := toInt32 block }
  let header ← raise (do h256 ("0x" ++ padLeft (← prm.strIdx 2) 64 '0'))
  modify fun w => { w with header := header }
  let boundary ← raise (h256 (session.nextWorkBoundary.hex .add))
  modify fun w => { w with
    boundary := boundary
    epoch := Int.bmod session.epoch.toNat (2 ^ 32)
    algo := session.algo
    startNonce := session.extraNonce
    exSizeBytes := UInt16.ofNat session.extraNonceSizeBytes }

/-! ## How these programs stop -/

/-- Is this a C++ exception, and with `ptr = false` one that `std::exception` handlers catch? -/
def Stop.isThrown (ptr : Bool) : Stop → Bool
  | exception _ => true
  | exceptionPtr => ptr
  | _ => false

/-- `m` stops early by throwing only; a pointer only with `ptr = true`. -/
def Throws {σ α : Type} (ptr : Bool) (m : Prog σ Stop α) : Prop :=
  Prog.Keeps (fun _ _ => True) (fun x _ => x.isThrown ptr = true) m

namespace Throws

variable {σ α β : Type} {ptr : Bool}

theorem bind {m : Prog σ Stop α} {f : α → Prog σ Stop β} (hm : Throws ptr m) (hf : ∀ a, Throws ptr (f a)) :
    Throws ptr (m >>= f) := Prog.Keeps.bind (fun _ _ _ _ _ => trivial) (fun _ _ _ _ h => h) hm hf

theorem pure (a : α) : Throws ptr (Pure.pure a : Prog σ Stop α) := Prog.Keeps.pure (fun _ => trivial) a

theorem modify (f : σ → σ) : Throws ptr (modify f : Prog σ Stop PUnit) := Prog.Keeps.modify fun _ => trivial

theorem when {p : Prop} [Decidable p] {m : Prog σ Stop Unit} (hm : p → Throws ptr m) : Throws ptr (when p m) :=
  Prog.Keeps.when (fun _ => trivial) hm

theorem ite {p : Prop} [Decidable p] {m n : Prog σ Stop α} (hm : p → Throws ptr m) (hn : ¬ p → Throws ptr n) :
    Throws ptr (if p then m else n) := Prog.Keeps.ite hm hn

theorem raise (e : Except StdException α) : Throws ptr (Stratum.raise e : Prog σ Stop α) := by
  cases e
  · exact Prog.Keeps.throw (fun _ => trivial) fun _ => rfl
  · exact .pure _

end Throws

section

variable {ptr : Bool}

theorem processExtranonce_throws (enonce : String) : Throws ptr (processExtranonce enonce) :=
  .bind (.modify _) fun _ => .bind (.raise _) fun _ => .modify _

theorem setDifficulty_throws : Throws ptr setDifficulty :=
  .bind (.raise _) fun _ => .modify _

theorem miningSet_throws (prm : Json) : Throws ptr (miningSet prm) :=
  .bind (.modify _) fun _ => .bind (.raise _) fun _ => .bind (.raise _) fun _ => .bind (.raise _) fun _ =>
  .bind (.when fun _ => .bind (.raise _) fun _ => .modify _) fun _ =>
  .bind (.when fun _ => .bind (.raise _) fun _ => .modify _) fun _ =>
  .bind (.when fun _ => .bind (.raise _) fun _ => .modify _) fun _ =>
  .bind (.raise _) fun _ => .bind (.modify _) fun _ => .bind (.raise _) fun _ =>
  .when fun _ => processExtranonce_throws _

theorem coreStratumJob_throws (session : Session) (prm : Json) : Throws ptr (coreStratumJob session prm) :=
  .bind (.raise _) fun _ => .bind (.modify _) fun _ => .bind (.raise _) fun _ => .bind (.raise _) fun _ =>
  .ite (fun _ => .bind (.raise _) fun _ => .bind (.modify _) fun _ => .bind (.raise _) fun _ =>
    .bind (.modify _) fun _ => .pure _) fun _ => .pure _

theorem coreStratum2Job_throws (session : Session) (prm : Json) : Throws ptr (coreStratum2Job session prm) :=
  .bind (.raise _) fun _ => .bind (.modify _) fun _ => .bind (.raise _) fun _ => .bind (.modify _) fun _ =>
  .bind (.raise _) fun _ => .bind (.modify _) fun _ => .bind (.raise _) fun _ => .modify _

theorem readBlock_throws (hp : ptr = true) (prm : Json) (idx : Nat) : Throws ptr (readBlock prm idx) :=
  Prog.Keeps.catching (fun _ _ _ _ _ => trivial) (fun _ _ _ _ h => h)
    (Throws.bind (.raise _) fun _ => .bind (.raise _) fun _ => .bind (.modify _) fun _ =>
      .when fun _ => Prog.Keeps.throw (fun _ => trivial) fun _ => hp) (Throws.modify _)

/-- Only in mode ETHPROXY there is a block number to throw a pointer for. -/
theorem stratumJob_throws {mode : Nat} (hp : mode = ETHPROXY → ptr = true) (prm : Json) (prmIdx : Nat) :
    Throws ptr (stratumJob mode prm prmIdx) :=
  .bind (.raise _) fun _ => .bind (.modify _) fun _ => .bind (.raise _) fun _ => .bind (.raise _) fun _ =>
  .bind (.raise _) fun _ => .bind (.modify _) fun _ =>
  .bind (.when fun h => .bind (.raise _) fun _ => .when fun _ => readBlock_throws (hp h.1) prm _) fun _ =>
  .bind (.raise _) fun _ => .bind (.raise _) fun _ => .bind (.modify _) fun _ => .bind (.raise _) fun _ =>
  .bind (.modify _) fun _ => .bind (.raise _) fun _ => .modify _

theorem legacyJob_throws {mode : Nat} (hp : mode = ETHPROXY → ptr = true) (session : Session) (prm : Json)
    (prmIdx : Nat) : Throws ptr (legacyJob mode session prm prmIdx) :=
  .ite (fun _ => coreStratumJob_throws session prm) fun _ =>
    .bind (stratumJob_throws hp prm prmIdx) fun _ => .pure _

end

/-- `m`, run from `s`, does not stop in this way. -/
def Never {σ α : Type} (x : Stop) (m : Prog σ Stop α) (s : σ) : Prop :=
  Prog.wp m (fun _ _ => True) (fun y _ => y ≠ x) s

instance {σ α : Type} (x : Stop) (m : Prog σ Stop α) (s : σ) : Decidable (Never x m s) :=
  inferInstanceAs (Decidable (Prog.wp m _ _ s))

section Never

variable {σ α β : Type} {x : Stop} {s : σ}

theorem never_raise_bind (hx : x.isStd = false) {e : Except StdException α} {f : α → Prog σ Stop β} :
    Never x (raise e >>= f) s ↔ ∀ a, e = .ok a → Never x (f a) s := by
  cases e with
  | error e =>
    refine iff_of_true (fun h => ?_) nofun
    rw [← h] at hx
    cases hx
  | ok a => simp [Never]

theorem never_modify_bind {f : σ → σ} {g : PUnit → Prog σ Stop β} :
    Never x (modify f >>= g) s ↔ Never x (g ⟨⟩) (f s) := by
  simp [Never]

theorem never_when {p : Prop} [Decidable p] {m : Prog σ Stop Unit} : Never x (when p m) s ↔ (p → Never x m s) := by
  by_cases hp : p <;> simp [Never, hp]

/-- What comes last does not matter if it does not stop so. -/
theorem never_bind_iff_left {m : Prog σ Stop α} {f : α → Prog σ Stop β} (hf : ∀ a t, Never x (f a) t) :
    Never x (m >>= f) s ↔ Never x m s := by
  simp only [Never, Prog.wp_bind]
  exact ⟨fun h => Prog.wp_mono h (fun _ _ _ => trivial) fun _ _ h => h,
    fun h => Prog.wp_mono h (fun a t _ => hf a t) fun _ _ h => h⟩

theorem Throws.never_exceptionPtr {m : Prog σ Stop α} (h : Throws false m) (s : σ) : Never .exceptionPtr m s :=
  Prog.wp_mono (h.from_ s) (fun _ _ _ => trivial) fun _ _ ⟨_, hy⟩ hyx => by simp [hyx, Stop.isThrown] at hy

end Never

end CoreMiner.Stratum
