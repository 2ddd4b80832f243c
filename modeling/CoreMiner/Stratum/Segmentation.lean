/-
  CoreMiner.Stratum.Segmentation — does the job being mined depend on how the pool's bytes
  are cut into transmissions? (`XcbStratumClient.cpp`: `onRecvSocketDataCompleted`,
  `mining.notify`.)

  The lines of a stream are the items of a machine (`lineMachine`), a transmission is a
  batch, and the package dispatched behind it is the batch's value. The lines that are no
  jobs do the same to the client whatever the batches (`Kin`). In mode CORESTRATUM2 a later
  job of a batch replaces the earlier one; in the modes before it the first one shuts the
  others out.

  `segmentation_iff`: every way of cutting a stream leaves the client mining the last valid
  job of the stream exactly when no line escapes, no package on which the manager's callback
  throws can be dispatched and, before CORESTRATUM2, all jobs of the stream are one and the
  same package (`Unambiguous.same`) or, in CORESTRATUM2, no malformed job behind the last
  valid one spoils its package (`Unambiguous.kept`).
-/

import CoreMiner.Lib.Batches
import CoreMiner.Stratum.Exceptions
import CoreMiner.Stratum.Snapshot

namespace CoreMiner.Stratum

open DevCore EthCore Lib Prog

variable {E : Env}

/-! ## The jobs before CORESTRATUM2 -/

theorem Relates.raise_bind {σ α β : Type} {R T : σ → σ → Prop} {S : β → σ → σ → Prop} {e : Except StdException α}
    {f : α → Prog σ Stop β} (hT : ∀ s s', R s s' → T s s') (hf : ∀ a, e = .ok a → Relates R (f a) S T) :
    Relates R (raise e >>= f) S T := by
  cases e with
  | error x => exact ⟨fun s s' hr => ⟨rfl, hT s s' hr⟩⟩
  | ok a =>
    rw [raise_ok_bind]
    exact hf a rfl

def kept (mode : Nat) (w : WorkPackage) : Int × String × Option (UInt64 × UInt16) :=
  (w.epoch, w.algo, if mode = CORESTRATUM then none else some (w.startNonce, w.exSizeBytes))

/-- Both packages have these values, and agree on `g`. -/
def Agree {β : Type} (mode : Nat) (k : Int × String × Option (UInt64 × UInt16)) (g : WorkPackage → β)
    (w w' : WorkPackage) : Prop :=
  kept mode w = k ∧ kept mode w' = k ∧ g w = g w'

section agree

variable {mode : Nat} {k : Int × String × Option (UInt64 × UInt16)}

theorem Agree.start {β : Type} {g : WorkPackage → β} {w w' : WorkPackage} (h : Agree mode k g w w') :
    Agree mode k (fun _ => ()) w w' := ⟨h.1, h.2.1, rfl⟩

theorem Agree.setBlock {w w' : WorkPackage} (h : Agree mode k (fun w => w.job) w w') (block : Int) :
    Agree mode k (fun w => (w.job, w.block)) { w with block } { w' with block } :=
  ⟨h.1, h.2.1, Prod.ext h.2.2 rfl⟩

/-- The block is read, or -1. -/
theorem readBlock_agree (prm : Json) (idx : Nat) :
    Relates (Agree mode k fun w => (w.job, w.block)) (readBlock prm idx)
      (fun _ => Agree mode k fun w => (w.job, w.block)) (Agree mode k fun w => w.job) := by
  have hjob {w w' : WorkPackage} (h : Agree mode k (fun w => (w.job, w.block)) w w') :
      Agree mode k (fun w => w.job) w w' := ⟨h.1, h.2.1, congrArg Prod.fst h.2.2⟩
  refine .catching ?_ (.modify fun _ _ h => h.setBlock (-1))
  refine Relates.raise_bind (fun _ _ => hjob) fun text _ => Relates.raise_bind (fun _ _ => hjob) fun n _ => ?_
  refine .bind (U := fun _ => Agree mode k fun w => (w.job, w.block))
    (.modify fun _ _ h => (hjob h).setBlock (toInt32 n)) fun _ => ?_
  exact .when (fun _ => .throw fun _ _ => hjob) fun _ _ _ h => h

/-- A job in modes STRATUM and ETHPROXY depends on nothing else of the package before it. -/
theorem stratumJob_agree (hm : mode ≠ CORESTRATUM) (prm : Json) (prmIdx : Nat) :
    Relates (Agree mode k fun _ => ()) (stratumJob mode prm prmIdx) (fun _ => Agree mode k id)
      (Agree mode k fun _ => ()) := by
  refine Relates.raise_bind (fun _ _ h => h) fun job _ => .bind (U := fun _ => Agree mode k fun w => w.job)
    (.modify fun _ _ h => ⟨h.1, h.2.1, rfl⟩) fun _ => ?_
  refine Relates.raise_bind (fun _ _ h => h.start) fun sHeaderHash _ => Relates.raise_bind (fun _ _ h => h.start)
    fun sSeedHash _ => Relates.raise_bind (fun _ _ h => h.start) fun sShareTarget _ => ?_
  refine .bind (U := fun _ => Agree mode k fun w => (w.job, w.block))
    (.modify fun _ _ h => h.setBlock (-1)) fun _ => ?_
  refine .bind (U := fun _ => Agree mode k fun w => (w.job, w.block)) (.when (fun _ => ?_) fun _ _ _ h => h) fun _ => ?_
  · refine Relates.raise_bind (fun _ _ h => h.start) fun text _ => .when (fun _ => ?_) fun _ _ _ h => h
    exact (readBlock_agree prm (prmIdx + 3)).mono (fun _ _ _ h => h) fun _ _ h => h.start
  refine Relates.raise_bind (fun _ _ h => h.start) fun sShareTarget _ =>
    Relates.raise_bind (fun _ _ h => h.start) fun seed _ => ?_
  refine .bind (U := fun _ => Agree mode k fun w => ((w.job, w.block), w.seed))
    (.modify fun _ _ h => ⟨h.1, h.2.1, Prod.ext h.2.2 rfl⟩) fun _ => ?_
  refine Relates.raise_bind (fun _ _ h => h.start) fun header _ => ?_
  refine .bind (U := fun _ => Agree mode k fun w => (((w.job, w.block), w.seed), w.header))
    (.modify fun _ _ h => ⟨h.1, h.2.1, Prod.ext h.2.2 rfl⟩) fun _ => ?_
  refine Relates.raise_bind (fun _ _ h => h.start) fun boundary _ => .modify fun w w' h => ⟨h.1, h.2.1, ?_⟩
  have hkept := h.1.trans h.2.1.symm
  simp only [kept, if_neg hm, Prod.mk.injEq, Option.some.injEq] at hkept
  have hset := h.2.2
  simp only [Prod.mk.injEq] at hset
  simp [hkept, hset]

/-- A job in mode CORESTRATUM that is new depends on nothing else of the package before it. -/
theorem coreStratumJob_agree (session : Session) (prm : Json) :
    Relates (Agree CORESTRATUM k fun _ => ()) (coreStratumJob session prm)
      (fun isNew => Agree CORESTRATUM k fun w => if isNew then some w else none) (Agree CORESTRATUM k fun _ => ()) := by
  refine Relates.raise_bind (fun _ _ h => h) fun job _ => .bind (U := fun _ => Agree CORESTRATUM k fun w => w.job)
    (.modify fun _ _ h => ⟨h.1, h.2.1, rfl⟩) fun _ => ?_
  refine Relates.raise_bind (fun _ _ h => h.start) fun sSeedHash _ => Relates.raise_bind (fun _ _ h => h.start)
    fun sHeaderHash _ => .ite (fun _ => ?_) fun _ => .pure fun _ _ h => ⟨h.1, h.2.1, rfl⟩
  refine Relates.raise_bind (fun _ _ h => h.start) fun seed _ => ?_
  refine .bind (U := fun _ => Agree CORESTRATUM k fun w => (w.job, w.seed))
    (.modify fun _ _ h => ⟨h.1, h.2.1, Prod.ext h.2.2 rfl⟩) fun _ => ?_
  refine Relates.raise_bind (fun _ _ h => h.start) fun header _ => ?_
  refine .bind (U := fun _ => Agree CORESTRATUM k id) (.modify fun w w' h => ⟨h.1, h.2.1, ?_⟩) fun _ =>
    .pure fun w w' h => ⟨h.1, h.2.1, congrArg some h.2.2⟩
  have hkept := h.1.trans h.2.1.symm
  have hset := h.2.2
  simp only [kept, Prod.mk.injEq] at hkept hset
  simp [hkept, hset]

theorem legacyJob_agree (session : Session) (prm : Json) (prmIdx : Nat) :
    Relates (Agree mode k fun _ => ()) (legacyJob mode session prm prmIdx)
      (fun isNew => Agree mode k fun w => if isNew then some w else none) (Agree mode k fun _ => ()) := by
  refine .ite (fun hm => ?_) fun hm => ?_
  · subst hm
    exact coreStratumJob_agree session prm
  · exact .bind (stratumJob_agree hm prm prmIdx) fun _ => .pure fun w w' h => ⟨h.1, h.2.1, congrArg some h.2.2⟩

end agree

/-! ## The lines as a machine -/

def ended {α : Type} : Except Stop α × St → Option St
  | (.ok _, t) => some t
  | (.error _, _) => none

theorem ended_bind {α β : Type} (m : M α) (f : M β) (s : St) :
    ended ((m >>= fun _ => f).exec s) = (ended (m.exec s)).bind fun t => ended (f.exec t) := by
  rw [exec_bind]
  rcases m.exec s with ⟨x | a, t⟩ <;> rfl

/-- One line; `none` when something escapes the loop. -/
def lineMachine (E : Env) : Machine (List Char) St WorkPackage where
  step line s := ended ((handleLine E line).exec s)
  reset s := { s with newjobprocessed := false }
  flag s := s.newjobprocessed
  out s := s.current
  fits w := decide w.HasBoundary

theorem step_eq_some {line : List Char} {s t : St} :
    (lineMachine E).step line s = some t ↔ (handleLine E line).exec s = (.ok (), t) := by
  rw [lineMachine]
  dsimp only
  rcases (handleLine E line).exec s with ⟨x | _, u⟩ <;> simp [ended]

/-- The connection and its mode stay. -/
theorem step_mode {line : List Char} {s t : St} (h : (lineMachine E).step line s = some t) :
    t.conn = s.conn ∧ ∀ a, (t.uris a).stratumMode = (s.uris a).stratumMode := by
  have hprocessed := (wp_iff_exec.mp ((handleLine_tame (E := E) line).from_ s)).1 _ t (step_eq_some.mp h)
  exact ⟨hprocessed.conn, fun a => by rw [(hprocessed.uris a).same]⟩

theorem step_refused {s : St} {a : Nat} (hc : s.conn = some a) {line : List Char} {p : Prog WorkPackage Stop Bool}
    (hp : lineJob E s line = some p) (href : s.refusesJob (s.uris a) = true) :
    (lineMachine E).step line s = some s := by
  rw [step_eq_some, handleLine_of_job hc hp, href, if_pos rfl]

def jobOutcome : Except Stop Bool → Option Bool
  | .ok isNew => some isNew
  | .error x => if x.isStd then some false else none

theorem step_job {s : St} {a : Nat} (hc : s.conn = some a) {line : List Char} {p : Prog WorkPackage Stop Bool}
    (hp : lineJob E s line = some p) (href : s.refusesJob (s.uris a) = false) {r : Except Stop Bool} {w : WorkPackage}
    (hw : p.exec s.current = (r, w)) :
    (lineMachine E).step line s = (jobOutcome r).map fun isNew => s.withJob isNew w := by
  rw [lineMachine]
  dsimp only
  rw [exec_handleLine_of_job hc hp href, hw]
  cases r with
  | error x =>
    dsimp only [jobOutcome]
    cases x.isStd <;> rfl
  | ok isNew => rfl

theorem step_quiet {b : St} {a : Nat} (hc : b.conn = some a) {line : List Char} (hp : lineJob E b line = none)
    (o : Overlay) : (lineMachine E).step line (o.put b) = ((lineMachine E).step line b).map o.put := by
  simp only [lineMachine]
  rw [handleLine_of_no_job hc hp o]
  rcases (handleLine E line).exec b with ⟨x | _, t⟩ <;> rfl

/-! ## Clients that differ in their jobs only -/

def Kin (s t : St) : Prop := ∃ b o o', Overlay.put o b = s ∧ Overlay.put o' b = t

/-- As `Overlay.put`, with the observations replaced. -/
def Overlay.lay (o : Overlay) (s : St) : St := { s with
  current := o.current
  newjobprocessed := o.newjobprocessed
  message := o.message
  reads := o.reads
  log := o.log
  currentTimestamp := if o.signalled then s.now else s.currentTimestamp }

namespace Kin

variable {s t : St}

theorem refl (s : St) : Kin s s := ⟨s, s.overlay, s.overlay, s.overlay_put, s.overlay_put⟩

theorem symm (h : Kin s t) : Kin t s := by
  obtain ⟨b, o, o', hs, ht⟩ := h
  exact ⟨b, o', o, ht, hs⟩

theorem lay (h : Kin s t) (k : Overlay) : Kin s (k.lay t) := by
  obtain ⟨b, o, o', rfl, rfl⟩ := h
  refine ⟨{ b with log := [] }, { o with log := b.log ++ o.log }, { k with signalled := k.signalled || o'.signalled },
    rfl, ?_⟩
  simp only [Overlay.put, Overlay.lay]
  cases k.signalled <;> rfl

theorem conn (h : Kin s t) : t.conn = s.conn := by
  obtain ⟨b, o, o', rfl, rfl⟩ := h
  rfl

theorem uris (h : Kin s t) : t.uris = s.uris := by
  obtain ⟨b, o, o', rfl, rfl⟩ := h
  rfl

theorem lineJob (h : Kin s t) (line : List Char) : Stratum.lineJob E t line = Stratum.lineJob E s line := by
  obtain ⟨b, o, o', rfl, rfl⟩ := h
  rfl

theorem withJob (h : Kin s t) (isNew isNew' : Bool) (w w' : WorkPackage) :
    Kin (s.withJob isNew w) (t.withJob isNew' w') :=
  ((h.lay ⟨w', isNew' || t.newjobprocessed, t.message, t.reads, t.log, isNew'⟩).symm.lay
    ⟨w, isNew || s.newjobprocessed, s.message, s.reads, s.log, isNew⟩).symm

theorem reset (h : Kin s t) : Kin s ((lineMachine E).reset t) :=
  h.lay ⟨t.current, false, t.message, t.reads, t.log, false⟩

/-- A line that is no job goes through both in the same way. -/
theorem quiet (h : Kin s t) {a : Nat} (hc : s.conn = some a) {line : List Char}
    (hp : Stratum.lineJob E s line = none) {s' : St} (hs' : (lineMachine E).step line s = some s') :
    ∃ t', (lineMachine E).step line t = some t' ∧ Kin s' t' ∧ s'.current = s.current ∧
      s'.newjobprocessed = s.newjobprocessed ∧ t'.current = t.current ∧ t'.newjobprocessed = t.newjobprocessed := by
  obtain ⟨b, o, o', rfl, rfl⟩ := h
  rw [step_quiet (b := b) hc hp] at hs' ⊢
  obtain ⟨b', hb', rfl⟩ := Option.map_eq_some_iff.mp hs'
  exact ⟨o'.put b', by rw [hb']; rfl, ⟨b', o, o', rfl, rfl⟩, rfl, rfl, rfl, rfl⟩

end Kin

/-! ## Which job of a transmission counts -/

/-- In mode CORESTRATUM2: the clients are kin and hold the same package. -/
structure Twin (a : Nat) (s t : St) : Prop where
  kin : Kin s t
  current : t.current = s.current
  conn : s.conn = some a
  mode : (s.uris a).stratumMode = CORESTRATUM2

theorem latest (a : Nat) : (lineMachine E).Latest (Twin a) where
  reset h := ⟨h.kin.reset, h.current, h.conn, h.mode⟩
  flag_reset _ := rfl
  out h := h.current
  step {s s' t line} h hs' := by
    have hmode := step_mode hs'
    have hreset : Kin ((lineMachine E).reset s) t := (h.kin.symm.reset (E := E)).symm
    have hc : ((lineMachine E).reset s).conn = some a := h.conn
    have hconn : s'.conn = some a := hmode.1.trans h.conn
    have hu : (s'.uris a).stratumMode = CORESTRATUM2 := (hmode.2 a).trans h.mode
    cases hp : lineJob E ((lineMachine E).reset s) line with
    | none =>
      obtain ⟨t', ht', hkin, hcur, hnew, hcur', hnew'⟩ := hreset.quiet hc hp hs'
      refine ⟨t', ht', ⟨hkin, hcur'.trans (h.current.trans hcur.symm), hconn, hu⟩, ?_⟩
      show t'.newjobprocessed = (t.newjobprocessed || s'.newjobprocessed)
      rw [hnew, hnew']
      exact (Bool.or_false _).symm
    | some p =>
      have htmode : (t.uris a).stratumMode = CORESTRATUM2 := by rw [h.kin.uris, h.mode]
      rcases hexec : p.exec s.current with ⟨r, w⟩
      have hexec' : p.exec t.current = (r, w) := by rw [h.current, hexec]
      rw [Machine.alone, step_job hc hp (by simp [St.refusesJob, lineMachine, h.mode]) hexec] at hs'
      obtain ⟨isNew, hr, rfl⟩ := Option.map_eq_some_iff.mp hs'
      refine ⟨t.withJob isNew w, ?_, ⟨hreset.withJob _ _ _ _, rfl, hconn, hu⟩, ?_⟩
      · rw [step_job (h.kin.conn.trans h.conn) ((hreset.lineJob line).trans hp) (by simp [St.refusesJob, htmode])
          hexec', hr]
        rfl
      · show (isNew || t.newjobprocessed) = (t.newjobprocessed || (isNew || false))
        rw [Bool.or_false, Bool.or_comm]

/-- In the modes before: the clients are kin, and hold the same in the fields jobs leave. -/
structure Cousin (a mode : Nat) (k : Int × String × Option (UInt64 × UInt16)) (s t : St) : Prop where
  kin : Kin s t
  current : Agree mode k (fun _ => ()) s.current t.current
  conn : s.conn = some a
  mode : (s.uris a).stratumMode = mode

theorem lineJob_legacy {s : St} {a : Nat} (hc : s.conn = some a) (hm : (s.uris a).stratumMode ≠ CORESTRATUM2)
    {line : List Char} {p : Prog WorkPackage Stop Bool} (hp : lineJob E s line = some p) :
    ∃ session prm prmIdx, p = legacyJob (s.uris a).stratumMode session prm prmIdx := by
  obtain ⟨-, j, b, -, hconn, -, hprog⟩ := lineJob_eq_some hp
  cases hc.symm.trans hconn
  obtain ⟨x, _, prm, -, -, -, hp⟩ := jobProgram_eq_legacy hm hprog
  exact ⟨x, prm, _, hp⟩

theorem earliest (a : Nat) {mode : Nat} (hm : mode ≠ CORESTRATUM2) (k : Int × String × Option (UInt64 × UInt16)) :
    (lineMachine E).Earliest (Cousin a mode k) where
  reset h := ⟨h.kin.reset, h.current, h.conn, h.mode⟩
  flag_reset _ := rfl
  step {s s' t line} h hs' := by
    have hmode := step_mode hs'
    have hreset : Kin ((lineMachine E).reset s) t := (h.kin.symm.reset (E := E)).symm
    have hc : ((lineMachine E).reset s).conn = some a := h.conn
    have hconn : s'.conn = some a := hmode.1.trans h.conn
    have hu : (s'.uris a).stratumMode = mode := (hmode.2 a).trans h.mode
    cases hp : lineJob E ((lineMachine E).reset s) line with
    | none =>
      obtain ⟨t', ht', hkin, hcur, hnew, hcur', hnew'⟩ := hreset.quiet hc hp hs'
      refine ⟨t', ht', ⟨hkin, ?_, hconn, hu⟩, fun hf => ⟨hnew'.trans hf, hcur'⟩, fun hf => ⟨?_, ?_⟩⟩
      · rw [hcur, hcur']
        exact h.current
      · exact hnew'.trans (hf.trans hnew.symm)
      · intro hflag
        exact absurd (hnew.symm.trans hflag) Bool.false_ne_true
    | some p =>
      have htmode : (t.uris a).stratumMode = mode := by rw [h.kin.uris, h.mode]
      obtain ⟨session, prm, prmIdx, hlegacy⟩ := lineJob_legacy hc (by rw [← h.mode] at hm; exact hm) hp
      rw [show (((lineMachine E).reset s).uris a).stratumMode = mode from h.mode] at hlegacy
      rcases hexec : p.exec s.current with ⟨r, w⟩
      rcases hexec' : p.exec t.current with ⟨r', w'⟩
      obtain ⟨hsame, hpost⟩ := (legacyJob_agree session prm prmIdx).from_ _ _ h.current
      rw [← hlegacy, hexec, hexec'] at hsame hpost
      cases hsame
      rw [Machine.alone, step_job hc hp (by simp [St.refusesJob, lineMachine]) hexec] at hs'
      obtain ⟨isNew, hr, rfl⟩ := Option.map_eq_some_iff.mp hs'
      have hagree : Agree mode k (fun _ => ()) w w' := by
        cases r with
        | error x => exact hpost
        | ok _ => exact hpost.start
      cases hf : t.newjobprocessed with
      | true =>
        -- the batch has its job already
        refine ⟨t, step_refused (h.kin.conn.trans h.conn) ((hreset.lineJob line).trans hp)
          (by simp [St.refusesJob, htmode, hm, hf]), ⟨?_, ⟨hagree.1, h.current.2.1, rfl⟩, hconn, hu⟩,
          fun _ => ⟨hf, rfl⟩, fun h => absurd (hf.symm.trans h) (by decide)⟩
        exact (hreset.symm.lay ⟨w, isNew || false, s.message, s.reads, s.log, isNew⟩).symm
      | false =>
        refine ⟨t.withJob isNew w', ?_, ⟨hreset.withJob _ _ _ _, hagree, hconn, hu⟩,
          fun h => absurd (hf.symm.trans h) (by decide), fun _ => ⟨?_, ?_⟩⟩
        · rw [step_job (h.kin.conn.trans h.conn) ((hreset.lineJob line).trans hp) (by simp [St.refusesJob, hf]) hexec',
            hr]
          rfl
        · show (isNew || t.newjobprocessed) = (isNew || false)
          rw [hf]
        · intro hflag
          have hnew : isNew = true := (Bool.or_false isNew).symm.trans hflag
          cases r with
          | error x =>
            rw [hnew, jobOutcome] at hr
            split at hr <;> cases hr
          | ok b =>
            cases hr.trans (congrArg some hnew)
            exact (Option.some.inj hpost.2.2).symm

/-! ## Transmissions are batches -/

structure Same (a : Nat) (s t : St) : Prop where
  kin : Kin s t
  current : t.current = s.current
  flag : t.newjobprocessed = s.newjobprocessed
  conn : s.conn = some a

theorem Same.step {a : Nat} {s t : St} (h : Same a s t) (line : List Char) :
    Option.Rel (Same a) ((lineMachine E).step line s) ((lineMachine E).step line t) := by
  have hconn {s' : St} (hs' : (lineMachine E).step line s = some s') : s'.conn = some a :=
      (step_mode hs').1.trans h.conn
  cases hp : lineJob E s line with
  | none =>
    cases hs' : (lineMachine E).step line s with
    | none =>
      obtain ⟨b, o, o', rfl, rfl⟩ := h.kin
      rw [step_quiet (b := b) h.conn hp, Option.map_eq_none_iff] at hs'
      rw [step_quiet (b := b) h.conn hp, hs']
      exact .none
    | some s' =>
      obtain ⟨t', ht', hkin, hcur, hnew, hcur', hnew'⟩ := h.kin.quiet h.conn hp hs'
      rw [ht']
      exact .some ⟨hkin, hcur'.trans (h.current.trans hcur.symm), hnew'.trans (h.flag.trans hnew.symm), hconn hs'⟩
  | some p =>
    have hp' : lineJob E t line = some p := (h.kin.lineJob line).trans hp
    have htconn : t.conn = some a := h.kin.conn.trans h.conn
    have href : t.refusesJob (t.uris a) = s.refusesJob (s.uris a) := by
      rw [St.refusesJob, St.refusesJob, h.kin.uris, h.flag]
    cases hs : s.refusesJob (s.uris a) with
    | true =>
      rw [step_refused h.conn hp hs, step_refused htconn hp' (href.trans hs)]
      exact .some h
    | false =>
      rcases hexec : p.exec s.current with ⟨r, w⟩
      have hexec' : p.exec t.current = (r, w) := by rw [h.current, hexec]
      rw [step_job h.conn hp hs hexec, step_job htconn hp' (href.trans hs) hexec']
      cases jobOutcome r with
      | none => exact .none
      | some isNew =>
        refine .some ⟨h.kin.withJob _ _ _ _, rfl, ?_, h.conn⟩
        show (isNew || t.newjobprocessed) = (isNew || s.newjobprocessed)
        rw [h.flag]

theorem rel_bind {σ τ : Type} {R S : σ → τ → Prop} {x : Option σ} {y : Option τ} (h : Option.Rel R x y)
    {f : σ → Option σ} {g : τ → Option τ} (hf : ∀ s t, R s t → Option.Rel S (f s) (g t)) :
    Option.Rel S (x.bind f) (y.bind g) := by
  cases h with
  | none => exact .none
  | some hr => exact hf _ _ hr

theorem Same.takeLine {a : Nat} {s t : St} (h : Same a s t) (line : List Char) :
    Option.Rel (Same a) (ended ((Stratum.takeLine E line).exec s)) ((lineMachine E).step line t) := by
  rw [Stratum.takeLine, ended_bind, ← Option.bind_fun_some ((lineMachine E).step line t)]
  refine rel_bind (h.step (E := E) line) fun s' t' h' => .some ?_
  exact ⟨(h'.kin.symm.lay ⟨s'.current, s'.newjobprocessed, _, s'.reads, s'.log, false⟩).symm,
    h'.current, h'.flag, h'.conn⟩

theorem Same.consume {a : Nat} {s t : St} (h : Same a s t) (lines : List (List Char)) :
    Option.Rel (Same a) (ended ((Stratum.consume E lines).exec s)) ((lineMachine E).steps t lines) := by
  induction lines generalizing s t with
  | nil => exact .some h
  | cons line lines ih =>
    rw [Stratum.consume, List.forM_cons, ended_bind, Machine.steps, List.foldlM_cons]
    exact rel_bind (h.takeLine (E := E) line) fun _ _ h' => ih h'

def lastWork (log : List Out) : Option WorkPackage :=
  log.findSome? fun
    | .onWorkReceived w => some w
    | _ => none

theorem lastWork_replies {new : List Out} (h : ∀ o ∈ new, o.isReply = true) (log : List Out) :
    lastWork (new ++ log) = lastWork log := by
  induction new with
  | nil => rfl
  | cons o new ih =>
    have hrest := ih fun o ho => h o (List.mem_cons_of_mem _ ho)
    have ho := h o List.mem_cons_self
    cases o with
    | onWorkReceived w => cases ho
    | _ => exact hrest

theorem lastWork_work (s : St) : lastWork (s.work ++ s.log) = (lineMachine E).put s (lastWork s.log) := by
  rw [St.work, Machine.put]
  change _ = if s.newjobprocessed then some s.current else lastWork s.log
  cases s.newjobprocessed <;> rfl

theorem Same.receive {a : Nat} {s t : St} (h : Kin s t) (hcur : t.current = s.current) (hc : s.conn = some a)
    (rxMessage : List Char) : Same a (s.receiving rxMessage) ((lineMachine E).reset t) :=
  ⟨(h.reset.symm.lay ⟨s.current, false, s.message ++ rxMessage, s.reads, s.log, false⟩).symm, hcur, rfl, hc⟩

theorem ended_afterLines {s : St} (hs : s.Live) :
    ended (afterLines.exec s) =
      if s.newjobprocessed && !(lineMachine E).fits s.current then none else some s.rearmed := by
  by_cases hr : s.Reportable
  · rw [exec_afterLines hs hr, if_neg]
    · rfl
    · cases hnew : s.newjobprocessed with
      | false => simp
      | true => simp [lineMachine, hr hnew]
  · have hwp : wp afterLines (fun _ _ => False) (fun _ _ => True) s :=
      (wp_afterLines hs).mpr ⟨fun h => hr h, fun _ => trivial⟩
    obtain ⟨hnew, hno⟩ := Classical.not_imp.mp hr
    rw [if_pos (by simp [lineMachine, hnew, hno])]
    rw [wp] at hwp
    rcases hexec : afterLines.exec s with ⟨x | _, t⟩
    · rfl
    · rw [hexec] at hwp
      exact hwp.elim

/-- Transmissions that go through are batches that go through, and dispatch what they put
    out; the others are batches that do not. -/
theorem receiveAll_run {a : Nat} {s t : St} (h : Kin s t) (hcur : t.current = s.current) (hc : s.conn = some a)
    (hs : s.Live) (reads : List (List Char)) :
    (ended ((receiveAll E reads).exec s)).map (fun u => lastWork u.log) =
      ((lineMachine E).run t (lastWork s.log) (Lines.groups '\n' s.message reads)).map Prod.snd := by
  induction reads generalizing s t with
  | nil => rfl
  | cons rx reads ih =>
    have hsame : Same a (s.receiving rx) ((lineMachine E).reset t) := .receive h hcur hc rx
    have hconsume := hsame.consume (E := E) (Lines.lines '\n' (s.message ++ rx))
    rw [receiveAll, List.forM_cons, ended_bind, onRecvSocketDataCompleted_eq, ended_bind, processTransmission_eq,
      Lines.groups, Machine.run]
    rcases hexec : (consume E (Lines.lines '\n' (s.message ++ rx))).exec (s.receiving rx) with ⟨x | _, u⟩
    · rw [hexec, ended] at hconsume
      generalize (lineMachine E).steps _ _ = r at hconsume ⊢
      cases hconsume
      rfl
    · have hconsumed := (wp_iff_exec.mp ((consume_keeps (E := E) _).from_ (s.receiving rx))).1 _ u hexec
      have hmessage := (wp_iff_exec.mp (consume_message (E := E) _ (s.receiving rx))).1 _ u hexec
      have hlive : u.Live := hconsumed.live ⟨hs.conn, hs.session, hs.stream⟩
      rw [hexec, ended] at hconsume
      generalize (lineMachine E).steps _ _ = r at hconsume ⊢
      cases hconsume with
      | some h' =>
        rename_i v
        obtain ⟨new, hlog, hreply⟩ := hconsumed.log
        have hlast : lastWork u.rearmed.log = (lineMachine E).put v (lastWork s.log) := by
          have hput : (lineMachine E).put v = (lineMachine E).put u := by
            funext last
            rw [Machine.put, Machine.put, show (lineMachine E).flag v = (lineMachine E).flag u from h'.flag,
              show (lineMachine E).out v = (lineMachine E).out u from h'.current]
          rw [St.rearmed, lastWork_work (E := E), hput, show u.log = new ++ s.log from hlog, lastWork_replies hreply]
        have hrest : u.rearmed.message = Lines.rest '\n' (s.message ++ rx) :=
          hmessage.trans (Lines.drop_lines '\n' (s.message ++ rx))
        have hkin : Kin u.rearmed v :=
          (h'.kin.symm.lay ⟨u.current, u.newjobprocessed, u.message, _, u.work ++ u.log, false⟩).symm
        have hnext := ih hkin h'.current h'.conn ⟨hlive.conn, hlive.session, hlive.stream⟩
        rw [hlast, hrest] at hnext
        rw [ended, Option.bind_some, ended_afterLines (E := E) hlive, Option.bind_eq_bind, Option.bind_some,
          show (lineMachine E).flag v = u.newjobprocessed from h'.flag,
          show (lineMachine E).out v = u.current from h'.current]
        split
        · rfl
        · exact hnext

/-! ## The jobs of a stream -/

def jobOf (E : Env) (s : St) (line : List Char) : Option WorkPackage :=
  (lineJob E s line).bind fun p => match p.exec s.current with
    | (.ok true, w) => some w
    | _ => none

/-- The packages of the valid jobs among the lines, each line a transmission of its own. -/
def validJobs (E : Env) (s : St) : List (List Char) → List WorkPackage
  | [] => []
  | line :: lines => match (lineMachine E).alone line s with
    | none => []
    | some t => (jobOf E s line).toList ++ validJobs E t lines

theorem jobOf_eq {s t : St} {a : Nat} (hc : s.conn = some a) {line : List Char}
    (ht : (lineMachine E).alone line s = some t) :
    (jobOf E s line).toList = if t.newjobprocessed then [t.current] else [] := by
  have hc' : ((lineMachine E).reset s).conn = some a := hc
  cases hp : lineJob E s line with
  | none =>
    obtain ⟨t', ht', -, -, -, -, hnew⟩ := (Kin.refl ((lineMachine E).reset s)).quiet hc' hp ht
    cases ht.symm.trans ht'
    rw [hnew, jobOf, hp]
    rfl
  | some p =>
    rcases hexec : p.exec s.current with ⟨r, w⟩
    rw [Machine.alone, step_job hc' hp (by simp [St.refusesJob, lineMachine]) hexec] at ht
    obtain ⟨isNew, hr, rfl⟩ := Option.map_eq_some_iff.mp ht
    rw [jobOf, hp, Option.bind_some, hexec]
    rcases r with x | b
    · rw [jobOutcome] at hr
      split at hr
      · cases hr
        rfl
      · cases hr
    · cases hr
      cases isNew <;> rfl

theorem validJobs_eq {s : St} {a : Nat} (hc : s.conn = some a) (lines : List (List Char)) :
    validJobs E s lines = (lineMachine E).outs s lines := by
  induction lines generalizing s with
  | nil => rfl
  | cons line lines ih =>
    rw [validJobs, Machine.outs]
    cases ht : (lineMachine E).alone line s with
    | none => rfl
    | some t =>
      dsimp only
      rw [jobOf_eq hc ht, ih ((step_mode ht).1.trans hc)]
      change _ = if t.newjobprocessed then _ else _
      cases t.newjobprocessed <;> rfl

/-- The client mines `w` after these transmissions, which all go through. -/
def Mines (E : Env) (s : St) (reads : List (List Char)) (w : Option WorkPackage) : Prop :=
  wp (receiveAll E reads) (fun _ t => lastWork t.log = w) (fun _ _ => False) s

instance (s : St) (reads : List (List Char)) (w : Option WorkPackage) : Decidable (Mines E s reads w) :=
  inferInstanceAs (Decidable (wp _ _ _ s))

theorem mines_iff {s : St} {reads : List (List Char)} {w : Option WorkPackage} :
    Mines E s reads w ↔ (ended ((receiveAll E reads).exec s)).map (fun u => lastWork u.log) = some w := by
  rw [Mines, wp]
  rcases (receiveAll E reads).exec s with ⟨x | _, t⟩ <;> simp [ended]

/-- Every way of cutting the stream is a division of its lines into batches, and the other
    way round. -/
theorem mines_iff_undivided {s : St} {a : Nat} (hc : s.conn = some a) (hs : s.Live) (hm : s.message = [])
    (stream : List Char) :
    (∀ reads, reads.flatten = stream →
        Mines E s reads ((validJobs E s (Lines.lines '\n' stream)).getLast?.or (lastWork s.log))) ↔
      (lineMachine E).Undivided s (lastWork s.log) (Lines.lines '\n' stream) := by
  have hrun (reads : List (List Char)) := receiveAll_run (E := E) (Kin.refl s) rfl hc hs reads
  rw [validJobs_eq hc]
  constructor
  · intro h gs hgs
    obtain ⟨reads, hflat, hgroups⟩ := Lines.exists_groups hgs
    have hreads := mines_iff.mp (h reads hflat)
    rw [hrun, hm, hgroups, Machine.run_append_nil fun _ => rfl] at hreads
    exact hreads
  · rintro h reads rfl
    rw [mines_iff, hrun, hm]
    exact h _ (Lines.flatten_groups '\n' List.not_mem_nil reads)

/-! ## When the cuts do not matter -/

structure Unambiguous (E : Env) (s : St) (lines : List (List Char)) : Prop where
  /-- No line, sent on its own, escapes the loop. -/
  survives : ∀ pre line post t, lines = pre ++ line :: post → (lineMachine E).after s pre = some t →
    ¬ Escapes E ((lineMachine E).reset t) line
  /-- Before CORESTRATUM2 the manager's callback returns from every valid job. -/
  sound : ∀ a, s.conn = some a → (s.uris a).stratumMode ≠ CORESTRATUM2 →
    ∀ w ∈ validJobs E s lines, w.HasBoundary
  /-- In CORESTRATUM2 it returns from the package behind every line from the first valid job on. -/
  sound₂ : ∀ a, s.conn = some a → (s.uris a).stratumMode = CORESTRATUM2 →
    ∀ pre post t, lines = pre ++ post → (lineMachine E).after s pre = some t → validJobs E s pre ≠ [] →
      t.current.HasBoundary
  /-- Before CORESTRATUM2 the valid jobs are all the same. -/
  same : ∀ a, s.conn = some a → (s.uris a).stratumMode ≠ CORESTRATUM2 →
    ∀ w ∈ validJobs E s lines, ∀ w' ∈ validJobs E s lines, w = w'
  /-- In CORESTRATUM2 no line behind the last valid job spoils it. -/
  kept : ∀ a, s.conn = some a → (s.uris a).stratumMode = CORESTRATUM2 →
    ∀ pre line post t, lines = pre ++ line :: post → (lineMachine E).after s pre = some t →
      validJobs E s pre ≠ [] → validJobs E t (line :: post) = [] → ¬ Spoils E t line

theorem alone_live {s t : St} (hs : s.Live) {line : List Char} (ht : (lineMachine E).alone line s = some t) :
    t.Live := by
  have hprocessed := (wp_iff_exec.mp ((handleLine_tame (E := E) line).from_ _)).1 _ t (step_eq_some.mp ht)
  have hconsumed : Consumed ((lineMachine E).reset s) t := hprocessed.withMessage s.message
  exact hconsumed.live ⟨hs.conn, hs.session, hs.stream⟩

theorem after_live {s t : St} {a : Nat} (hs : s.Live) (hc : s.conn = some a) {lines : List (List Char)}
    (ht : (lineMachine E).after s lines = some t) :
    t.Live ∧ t.conn = some a ∧ (t.uris a).stratumMode = (s.uris a).stratumMode := by
  induction lines generalizing s with
  | nil =>
    cases ht
    exact ⟨hs, hc, rfl⟩
  | cons line lines ih =>
    obtain ⟨u, hu, hrest⟩ := Machine.after_cons.mp ht
    obtain ⟨hconn, hmode⟩ := step_mode hu
    obtain ⟨hlive, htconn, htmode⟩ := ih (alone_live hs hu) (hconn.trans hc) hrest
    exact ⟨hlive, htconn, htmode.trans (hmode a)⟩

theorem alone_isSome_iff {s : St} (hs : s.Live) (line : List Char) :
    ((lineMachine E).alone line s).isSome = true ↔ ¬ Escapes E ((lineMachine E).reset s) line := by
  have hlive : ((lineMachine E).reset s).Live := ⟨hs.conn, hs.session, hs.stream⟩
  rw [← takeLine_ends_iff hlive, takeLine, wp_bind, wp]
  change (ended ((handleLine E line).exec ((lineMachine E).reset s))).isSome = true ↔ _
  rcases (handleLine E line).exec ((lineMachine E).reset s) with ⟨x | _, t⟩ <;> simp [ended]

theorem survives_iff {s : St} {a : Nat} (hs : s.Live) (hc : s.conn = some a) (lines : List (List Char)) :
    ((lineMachine E).after s lines).isSome = true ↔
      ∀ pre line post t, lines = pre ++ line :: post → (lineMachine E).after s pre = some t →
        ¬ Escapes E ((lineMachine E).reset t) line := by
  rw [Machine.after_isSome_iff]
  refine forall₄_congr fun pre line post t => imp_congr_right fun _ => forall_congr' fun ht => ?_
  exact alone_isSome_iff (after_live hs hc ht).1 line

/-- A line that is no valid job spoils the package exactly when it alters it. -/
theorem alone_current_iff {s t : St} {a : Nat} (hc : s.conn = some a) (hu : (s.uris a).stratumMode = CORESTRATUM2)
    {line : List Char} (ht : (lineMachine E).alone line s = some t) (hnew : t.newjobprocessed = false) :
    t.current = s.current ↔ ¬ Spoils E s line := by
  have hintact := handleLine_intact_iff (E := E) (s := (lineMachine E).reset s) hc hu line
  have hexec := step_eq_some.mp ht
  rw [wp, hexec] at hintact
  refine Iff.trans ⟨.inl, fun h => h.resolve_right ?_⟩ hintact
  rintro ⟨⟨p, hp, hw⟩, -⟩
  have hjob := step_job (E := E) (s := (lineMachine E).reset s) hc hp (by simp [St.refusesJob, lineMachine]) hw
  have hflag : t.newjobprocessed = true := by rw [Option.some.inj (ht.symm.trans hjob)]; rfl
  exact absurd (hnew.symm.trans hflag) Bool.false_ne_true

theorem not_flagged {s t : St} {line : List Char} {lines : List (List Char)}
    (ht : (lineMachine E).alone line s = some t) (hnone : (lineMachine E).outs s (line :: lines) = []) :
    t.newjobprocessed = false := by
  rw [Machine.outs_cons ht] at hnone
  split at hnone
  · cases hnone
  · exact Bool.eq_false_iff.mpr ‹_›

theorem settled_iff {s : St} {a : Nat} (hs : s.Live) (hc : s.conn = some a)
    (hu : (s.uris a).stratumMode = CORESTRATUM2) {lines : List (List Char)}
    (hall : ((lineMachine E).after s lines).isSome = true) :
    (lineMachine E).Settled s lines ↔
      ∀ pre line post t, lines = pre ++ line :: post → (lineMachine E).after s pre = some t →
        validJobs E s pre ≠ [] → validJobs E t (line :: post) = [] → ¬ Spoils E t line := by
  refine forall₄_congr fun pre line post t => ?_
  constructor
  · intro h hsplit ht hjobs hnone
    obtain ⟨-, htc, htu⟩ := after_live hs hc ht
    obtain ⟨t', ht'⟩ := Option.isSome_iff_exists.mp (Machine.after_isSome_iff.mp hall pre line post t hsplit ht)
    rw [validJobs_eq hc] at hjobs
    rw [validJobs_eq htc] at hnone
    have hnew := not_flagged ht' hnone
    exact (alone_current_iff htc (htu.trans hu) ht' hnew).mp (h t' hsplit ht ht' hjobs hnone)
  · intro h t' hsplit ht ht' hjobs hnone
    obtain ⟨-, htc, htu⟩ := after_live hs hc ht
    have hnew := not_flagged ht' hnone
    rw [← validJobs_eq hc] at hjobs
    rw [← validJobs_eq htc] at hnone
    exact (alone_current_iff htc (htu.trans hu) ht' hnew).mpr (h hsplit ht hjobs hnone)

/-- On a connection with a session, every way of cutting a stream into reads leaves the
    client mining the last valid job of the stream exactly when the stream is unambiguous. -/
theorem segmentation_iff {s : St} (hs : s.Live) (hm : s.message = []) (stream : List Char) :
    (∀ reads, reads.flatten = stream →
        Mines E s reads ((validJobs E s (Lines.lines '\n' stream)).getLast?.or (lastWork s.log))) ↔
      Unambiguous E s (Lines.lines '\n' stream) := by
  obtain ⟨a, hc⟩ := Option.isSome_iff_exists.mp hs.conn
  rw [mines_iff_undivided hc hs hm]
  have hfits (w : WorkPackage) : (lineMachine E).fits w = true ↔ w.HasBoundary := decide_eq_true_iff
  by_cases hu : (s.uris a).stratumMode = CORESTRATUM2
  · have hmode {b : Nat} (hb : s.conn = some b) (hne : (s.uris b).stratumMode ≠ CORESTRATUM2) : False := by
      cases hc.symm.trans hb
      exact hne hu
    rw [(latest a).undivided_iff ⟨Kin.refl s, rfl, hc, hu⟩]
    constructor
    · rintro ⟨hall, hsettled, hfitting⟩
      refine ⟨(survives_iff hs hc _).mp hall, fun b hb hne => (hmode hb hne).elim, fun b hb _ => ?_,
        fun b hb hne => (hmode hb hne).elim, fun b hb _ => (settled_iff hs hc hu hall).mp hsettled⟩
      intro pre post t hsplit ht hjobs
      rw [validJobs_eq hc] at hjobs
      exact (hfits _).mp (hfitting pre post t hsplit ht hjobs)
    · intro h
      have hall := (survives_iff hs hc _).mpr h.survives
      refine ⟨hall, (settled_iff hs hc hu hall).mpr (h.kept a hc hu), fun pre post t hsplit ht hjobs => ?_⟩
      rw [← validJobs_eq hc] at hjobs
      exact (hfits _).mpr (h.sound₂ a hc hu pre post t hsplit ht hjobs)
  · have hmode {b : Nat} (hb : s.conn = some b) (hu' : (s.uris b).stratumMode = CORESTRATUM2) : False := by
      cases hc.symm.trans hb
      exact hu hu'
    rw [(earliest a hu (kept _ s.current)).undivided_iff ⟨Kin.refl s, ⟨rfl, rfl, rfl⟩, hc, rfl⟩, ← validJobs_eq hc]
    constructor
    · rintro ⟨hall, hfit, hsame⟩
      exact ⟨(survives_iff hs hc _).mp hall, fun _ _ _ w hw => (hfits w).mp (hfit w hw),
        fun b hb hu' => (hmode hb hu').elim, fun _ _ _ => hsame, fun b hb hu' => (hmode hb hu').elim⟩
    · exact fun h => ⟨(survives_iff hs hc _).mpr h.survives, fun w hw => (hfits w).mpr (h.sound a hc hu w hw),
        h.same a hc hu⟩

/-! ## Two jobs in one segment -/

def subscribeReply0 : String × Json :=
  ("\x7b\"id\":1,\"result\":true\x7d", .obj [("id", .int 1), ("result", .bool true)])

def stratumLine (job : String) : String × Json :=
  ("\x7b\"method\":\"mining.notify\",\"params\":[\"" ++ job ++ "\",\"0x1\",\"0x2\",\"0x3\"]\x7d",
    .obj [("method", .str "mining.notify"), ("params", .arr [.str job, .str "0x1", .str "0x2", .str "0x3"])])

def stratumEnv : Env := tableEnv [subscribeReply0, stratumLine "1", stratumLine "2"]

def stratumPackage (job : String) : WorkPackage := { job, boundary := .ofBytes 32 (List.replicate 31 0 ++ [3]) }

/-- The jobs in one segment leave the client mining the first; in two, the second. -/
theorem two_jobs_in_one_segment :
    ∃ s, Reach stratumEnv s ∧ s.Live ∧ s.message = [] ∧ ∃ w,
      Mines stratumEnv s [lineOf (stratumLine "1") ++ lineOf (stratumLine "2")] w ∧
        ¬ Mines stratumEnv s [lineOf (stratumLine "1"), lineOf (stratumLine "2")] w := by
  obtain ⟨s, hs, hconn, hsession, hstream, hmessage, hone, htwo⟩ := reach_of_trace stratumEnv
    (p := fun s => s.conn = some 0 ∧ s.session.isSome = true ∧ s.hasStream (s.uris 0) = true ∧ s.message = [] ∧
      Mines stratumEnv s [lineOf (stratumLine "1") ++ lineOf (stratumLine "2")] (some (stratumPackage "1")) ∧
      ¬ Mines stratumEnv s [lineOf (stratumLine "1"), lineOf (stratumLine "2")] (some (stratumPackage "1")))
    (fun _ => plainUri_fresh STRATUM (.inl (by decide)))
    (connectTrace ++ [.received (lineOf subscribeReply0), .run none]) (by decide +kernel)
  refine ⟨s, hs, ⟨by simp [hconn], hsession, fun _ a ha => ?_⟩, hmessage, _, hone, htwo⟩
  cases hconn.symm.trans ha
  exact hstream

/-- One job is mined however it is cut. -/
theorem one_job_however_cut :
    ∃ s, Reach stratumEnv s ∧ s.Live ∧ s.message = [] ∧
      validJobs stratumEnv s (Lines.lines '\n' (lineOf (stratumLine "1"))) = [stratumPackage "1"] ∧
      Unambiguous stratumEnv s (Lines.lines '\n' (lineOf (stratumLine "1"))) ∧
      ∀ reads, reads.flatten = lineOf (stratumLine "1") → Mines stratumEnv s reads
        ((validJobs stratumEnv s (Lines.lines '\n' (lineOf (stratumLine "1")))).getLast?.or (lastWork s.log)) := by
  have hlines : Lines.lines '\n' (lineOf (stratumLine "1")) = [(stratumLine "1").1.toList] := by decide +kernel
  obtain ⟨s, hs, hconn, hmode, hsession, hstream, hmessage, hends, hjobs⟩ := reach_of_trace stratumEnv
    (p := fun s => s.conn = some 0 ∧ (s.uris 0).stratumMode = STRATUM ∧ s.session.isSome = true ∧
      s.hasStream (s.uris 0) = true ∧ s.message = [] ∧
      ((lineMachine stratumEnv).alone (stratumLine "1").1.toList s).isSome = true ∧
      validJobs stratumEnv s [(stratumLine "1").1.toList] = [stratumPackage "1"])
    (fun _ => plainUri_fresh STRATUM (.inl (by decide)))
    (connectTrace ++ [.received (lineOf subscribeReply0), .run none]) (by decide +kernel)
  have hlive : s.Live := by
    refine ⟨by simp [hconn], hsession, fun _ a ha => ?_⟩
    cases hconn.symm.trans ha
    exact hstream
  have hother {a : Nat} (ha : s.conn = some a) (hu : (s.uris a).stratumMode = CORESTRATUM2) : False := by
    cases hconn.symm.trans ha
    cases hmode.symm.trans hu
  have hclear : Unambiguous stratumEnv s (Lines.lines '\n' (lineOf (stratumLine "1"))) := by
    rw [hlines]
    refine ⟨fun pre line post t hsplit ht => ?_, fun _ _ _ => ?_, fun a ha hu => (hother ha hu).elim,
      fun _ _ _ => ?_, fun a ha hu => (hother ha hu).elim⟩
    · obtain ⟨rfl, hl⟩ := List.append_eq_singleton_iff.mp hsplit.symm |>.resolve_right fun h => by cases h.2
      obtain ⟨rfl, -⟩ := List.cons.inj hl
      cases ht
      exact (alone_isSome_iff hlive _).mp hends
    · rw [hjobs]
      decide +kernel
    · rw [hjobs]
      simp
  refine ⟨s, hs, hlive, hmessage, ?_, hclear, (segmentation_iff hlive hmessage _).mpr hclear⟩
  rw [hlines]
  exact hjobs

end CoreMiner.Stratum
