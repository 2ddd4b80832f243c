/-
  CoreMiner.Stratum.Snapshot — where the fields of a dispatched package come from
  (`XcbStratumClient.cpp`: `mining.notify`, `onRecvSocketDataCompleted`).

  `noticeOf` reads a `mining.notify` as a whole: job id, header, seed and block, or an
  exception. The client stores these one by one between conversions that throw, and
  dispatches `m_current` at the end of the transmission. In the modes before CORESTRATUM2
  nothing is stored once a job is signalled. In mode CORESTRATUM2 a malformed job behind a
  good one leaves its job id (and block) in the package about to be dispatched
  (`Tears`). Without such a line every dispatched package shows one notice
  (`dispatched_show_one_notice`).
-/

import CoreMiner.Stratum.Jobs
import CoreMiner.Stratum.System

namespace CoreMiner.Stratum

open DevCore EthCore Lib Prog

variable {E : Env}

/-! ## What a job says -/

structure Notice where
  job : String
  header : H256
  /-- Mode CORESTRATUM2 carries none. -/
  seed : Option H256
  block : Int

def blockOf (text : String) : Int :=
  match stoul text with
  | .ok n => toInt32 n
  | .error _ => -1

def blockIn (mode : Nat) (prm : Json) (idx : Nat) : Except StdException Int :=
  if mode = ETHPROXY ∧ idx < prm.size then do
    let text ← prm.strIdx idx
    return if text.toList.take 2 = ['0', 'x'] then blockOf text else -1
  else .ok (-1)

def stratumNotice (mode : Nat) (prm : Json) (prmIdx : Nat) : Except StdException Notice := do
  let job ← prm.strIdx 0
  let header ← h256 (← prm.strIdx prmIdx)
  let seed ← h256 (← prm.strIdx (prmIdx + 1))
  let block ← blockIn mode prm (prmIdx + 3)
  return { job, header, seed := some seed, block }

def coreStratumNotice (prm : Json) : Except StdException Notice := do
  let job ← prm.strIdx 0
  let seed ← h256 (← prm.strIdx 1)
  let header ← h256 (← prm.strIdx 2)
  return { job, header, seed := some seed, block := -1 }

def coreStratum2Block (prm : Json) : Except StdException UInt64 := do stoul (← prm.strIdx 1)

def coreStratum2Header (prm : Json) : Except StdException H256 := do h256 ("0x" ++ padLeft (← prm.strIdx 2) 64 '0')

def coreStratum2Notice (prm : Json) : Except StdException Notice := do
  let job ← prm.strIdx 0
  let block ← coreStratum2Block prm
  let header ← coreStratum2Header prm
  return { job, header, seed := none, block := toInt32 block }

def noticeOf (mode : Nat) (j : Json) : Except StdException Notice := do
  if mode = CORESTRATUM2 then coreStratum2Notice (← j.at_ "params")
  else
    let inResult ← jobInResult mode j
    let jPrm ← j.get (if inResult then "result" else "params") .null
    if mode = CORESTRATUM then coreStratumNotice jPrm else stratumNotice mode jPrm (if inResult then 0 else 1)

structure Notice.ShownBy (n : Notice) (w : WorkPackage) : Prop where
  job : w.job = n.job
  header : w.header = n.header
  seed : ∀ seed, n.seed = some seed → w.seed = seed
  block : w.block = n.block

/-! ## What the job programs leave -/

/-- The block is stored, also if a pointer is thrown because it is out of range. -/
theorem readBlock_block (prm : Json) (idx : Nat) {text : String} (ht : prm.strIdx idx = .ok text) (w : WorkPackage) :
    wp (readBlock prm idx) (fun _ w' => w' = { w with block := blockOf text })
      (fun _ w' => w' = { w with block := blockOf text }) w := by
  rw [readBlock, wp_catching, ht, raise_ok_bind, blockOf]
  cases stoul text with
  | error e =>
    rw [wp_bind, wp_raise]
    exact rfl
  | ok n =>
    rw [raise_ok_bind, wp_bind, wp_modify]
    refine wp_when.mpr ?_
    by_cases hmax : maxBlock < toInt32 n
    · rw [if_pos hmax]
      exact rfl
    · rw [if_neg hmax]

theorem block_step (mode : Nat) (prm : Json) (idx : Nat) {w : WorkPackage} (hw : w.block = -1) :
    wp (when (mode = ETHPROXY ∧ idx < prm.size) do
        let text ← raise (prm.strIdx idx)
        when (text.toList.take 2 = ['0', 'x']) (readBlock prm idx))
      (fun _ w' => ∃ b, blockIn mode prm idx = .ok b ∧ w' = { w with block := b }) (fun _ _ => True) w := by
  rw [blockIn]
  by_cases hc : mode = ETHPROXY ∧ idx < prm.size
  · rw [when, if_pos hc, if_pos hc]
    refine wp_raise_bind_of fun text ht => ?_
    rw [ht]
    by_cases hx : text.toList.take 2 = ['0', 'x']
    · rw [when, if_pos hx]
      refine wp_mono (readBlock_block prm idx ht w) (fun _ w' hw' => ⟨blockOf text, ?_, hw'⟩) fun _ _ _ => trivial
      show Except.ok (if _ then _ else _) = _
      rw [if_pos hx]
    · rw [when, if_neg hx]
      refine ⟨-1, ?_, by rw [← hw]⟩
      show Except.ok (if _ then _ else _) = _
      rw [if_neg hx]
  · rw [when, if_neg hc, if_neg hc]
    exact ⟨-1, rfl, by rw [← hw]⟩

theorem stratumJob_shows (mode : Nat) (prm : Json) (prmIdx : Nat) (w : WorkPackage) :
    wp (stratumJob mode prm prmIdx) (fun _ w' => ∃ n, stratumNotice mode prm prmIdx = .ok n ∧ n.ShownBy w')
      (fun _ _ => True) w := by
  refine wp_raise_bind_of fun job hjob => wp_modify_bind_of ?_
  refine wp_raise_bind_of fun sHeaderHash hheader => wp_raise_bind_of fun sSeedHash hseed =>
    wp_raise_bind_of fun sShareTarget _ => wp_modify_bind_of ?_
  rw [wp_bind]
  refine wp_mono (block_step mode prm (prmIdx + 3) rfl) (fun _ w₁ hw₁ => ?_) fun _ _ h => h
  obtain ⟨block, hblock, rfl⟩ := hw₁
  refine wp_raise_bind_of fun _ _ => wp_raise_bind_of fun seed hseed' => wp_modify_bind_of ?_
  refine wp_raise_bind_of fun header hheader' => wp_modify_bind_of (wp_raise_bind_of fun _ _ => ?_)
  rw [wp_modify]
  refine ⟨{ job, header, seed := some seed, block }, ?_, rfl, rfl, fun _ h => by cases h; rfl, rfl⟩
  simp [stratumNotice, hjob, hheader, hheader', hseed, hseed', hblock, bind, Except.bind, pure, Except.pure]

theorem coreStratumJob_shows (session : Session) (prm : Json) (w : WorkPackage) :
    wp (coreStratumJob session prm)
      (fun isNew w' => isNew = true → ∃ n, coreStratumNotice prm = .ok n ∧ n.ShownBy w') (fun _ _ => True) w := by
  refine wp_raise_bind_of fun job hjob => wp_modify_bind_of ?_
  refine wp_raise_bind_of fun sSeedHash hseed => wp_raise_bind_of fun sHeaderHash hheader => ?_
  split
  · refine wp_raise_bind_of fun seed hseed' => wp_modify_bind_of (wp_raise_bind_of fun header hheader' =>
      wp_modify_bind_of ?_)
    rw [wp_pure]
    refine fun _ => ⟨{ job, header, seed := some seed, block := -1 }, ?_, rfl, rfl, fun _ h => by cases h; rfl, rfl⟩
    simp [coreStratumNotice, hjob, hheader, hheader', hseed, hseed', bind, Except.bind, pure, Except.pure]
  · rw [wp_pure]
    exact nofun

/-- The job throws after it has stored something new: a job id, or also a block. -/
def Overwrites (prm : Json) (w : WorkPackage) : Prop :=
  (∀ n, coreStratum2Notice prm ≠ .ok n) ∧ ∃ job, prm.strIdx 0 = .ok job ∧
    (w.job ≠ job ∨ ∃ block, coreStratum2Block prm = .ok block ∧ w.block ≠ toInt32 block)

/-- In mode CORESTRATUM2 a job that throws is malformed, and may have altered the package. -/
theorem coreStratum2Job_shows (session : Session) (prm : Json) (w : WorkPackage) :
    wp (coreStratum2Job session prm) (fun _ w' => ∃ n, coreStratum2Notice prm = .ok n ∧ n.ShownBy w')
      (fun x w' => x.isStd = true ∧ (∀ n, coreStratum2Notice prm ≠ .ok n) ∧ (w' = w ↔ ¬ Overwrites prm w)) w := by
  unfold coreStratum2Job Overwrites coreStratum2Notice
  cases prm.strIdx 0 with
  | error e => exact ⟨rfl, nofun, iff_of_true rfl fun ⟨_, job, hjob, _⟩ => by cases hjob⟩
  | ok job =>
    rw [raise_ok_bind, wp_bind, wp_modify]
    show wp (raise (coreStratum2Block prm) >>= _) _ _ _
    cases coreStratum2Block prm with
    | error e =>
      have hbad : ∀ n : Notice, (Except.error e : Except StdException Notice) ≠ .ok n := nofun
      refine ⟨rfl, hbad, ⟨fun hw => ?_, fun hno => ?_⟩⟩
      · rintro ⟨-, _, hjob, hdiff | ⟨block, hblock, -⟩⟩
        · cases hjob
          exact hdiff (congrArg WorkPackage.job hw).symm
        · cases hblock
      · have hjob : w.job = job := by_contra fun hdiff => hno ⟨hbad, job, rfl, .inl hdiff⟩
        rw [← hjob]
    | ok block =>
      rw [raise_ok_bind, wp_bind, wp_modify]
      show wp (raise (coreStratum2Header prm) >>= _) _ _ _
      cases coreStratum2Header prm with
      | error e =>
        have hbad : ∀ n : Notice, (Except.error e : Except StdException Notice) ≠ .ok n := nofun
        refine ⟨rfl, hbad, ⟨fun hw => ?_, fun hno => ?_⟩⟩
        · rintro ⟨-, _, hjob, hdiff | ⟨_, hblock, hdiff⟩⟩
          · cases hjob
            exact hdiff (congrArg WorkPackage.job hw).symm
          · cases hblock
            exact hdiff (congrArg WorkPackage.block hw).symm
        · have hjob : w.job = job := by_contra fun hdiff => hno ⟨hbad, job, rfl, .inl hdiff⟩
          have hblock : w.block = toInt32 block := by_contra fun hdiff => hno ⟨hbad, job, rfl, .inr ⟨block, rfl, hdiff⟩⟩
          rw [← hjob, ← hblock]
      | ok header =>
        -- what is left is the boundary of the session, printed and read again
        rw [raise_ok_bind, wp_bind, wp_modify, h256_hex, raise_ok_bind, wp_modify]
        exact ⟨{ job, header, seed := none, block := toInt32 block }, rfl, rfl, rfl,
          fun _ h => (Option.some_ne_none _ h.symm).elim, rfl⟩

theorem legacyJob_shows (mode : Nat) (session : Session) (prm : Json) (prmIdx : Nat) (w : WorkPackage) :
    wp (legacyJob mode session prm prmIdx)
      (fun isNew w' => isNew = true → ∃ n,
        (if mode = CORESTRATUM then coreStratumNotice prm else stratumNotice mode prm prmIdx) = .ok n ∧ n.ShownBy w')
      (fun _ _ => True) w := by
  unfold legacyJob
  by_cases hm : mode = CORESTRATUM
  · rw [if_pos hm, if_pos hm]
    exact coreStratumJob_shows session prm w
  · rw [if_neg hm, if_neg hm, wp_bind]
    exact wp_mono (stratumJob_shows mode prm prmIdx w) (fun _ _ h _ => h) fun _ _ h => h

/-! ## The messages behind the programs -/

theorem jobProgram_legacy {u : Uri} (hu : u.stratumMode ≠ CORESTRATUM2) {session : Option Session} {j : Json}
    {p : Prog WorkPackage Stop Bool} (hp : jobProgram u session j = .ok (some p)) (w : WorkPackage) :
    wp p (fun isNew w' => isNew = true → ∃ n, noticeOf u.stratumMode j = .ok n ∧ n.ShownBy w')
      (fun _ _ => True) w := by
  obtain ⟨x, inResult, prm, -, hin, hprm, rfl⟩ := jobProgram_eq_legacy hu hp
  rw [noticeOf, if_neg hu, hin]
  simp only [bind, Except.bind, hprm]
  exact legacyJob_shows u.stratumMode x prm (if inResult then 0 else 1) w

theorem jobProgram_coreStratum2 {u : Uri} (hu : u.stratumMode = CORESTRATUM2) {session : Option Session} {j : Json}
    {p : Prog WorkPackage Stop Bool} (hp : jobProgram u session j = .ok (some p)) (w : WorkPackage) :
    ∃ prm, j.at_ "params" = .ok prm ∧ noticeOf u.stratumMode j = coreStratum2Notice prm ∧
      wp p (fun isNew w' => isNew = true ∧ ∃ n, coreStratum2Notice prm = .ok n ∧ n.ShownBy w')
        (fun x w' => x.isStd = true ∧ (∀ n, coreStratum2Notice prm ≠ .ok n) ∧ (w' = w ↔ ¬ Overwrites prm w)) w := by
  obtain ⟨x, prm, -, hprm, rfl⟩ := jobProgram_eq_coreStratum2 hu hp
  refine ⟨prm, hprm, ?_, wp_bind.mpr ?_⟩
  · rw [noticeOf, if_pos hu, hprm]
    rfl
  · exact wp_mono (coreStratum2Job_shows x prm w) (fun _ _ h => ⟨rfl, h⟩) fun _ _ h => h

/-! ## Lines -/

def Notifies (E : Env) (s : St) (line : List Char) (n : Notice) : Prop :=
  ∃ j a, E.parse (trim line) = .ok (some j) ∧ s.conn = some a ∧ announces (s.uris a) j = .ok true ∧
    noticeOf (s.uris a).stratumMode j = .ok n

/-- The line is a job, processed to its end: the package it leaves shows what the line says. -/
def Signals (E : Env) (s : St) (line : List Char) (w : WorkPackage) : Prop :=
  (∃ p, lineJob E s line = some p ∧ p.exec s.current = (.ok true, w)) ∧ ∃ n, Notifies E s line n ∧ n.ShownBy w

/-- In mode CORESTRATUM2, the line is a job that throws after it has altered the package. -/
def Spoils (E : Env) (s : St) (line : List Char) : Prop :=
  (lineJob E s line).isSome = true ∧
    ∃ j a prm, E.parse (trim line) = .ok (some j) ∧ s.conn = some a ∧ (s.uris a).stratumMode = CORESTRATUM2 ∧
      j.at_ "params" = .ok prm ∧ Overwrites prm s.current

def Tears (E : Env) (s : St) (line : List Char) : Prop := s.newjobprocessed = true ∧ Spoils E s line

/-- A line without a job leaves the package and the signal alone. -/
theorem handleLine_of_no_job_keeps {s : St} {a : Nat} (hc : s.conn = some a) {line : List Char}
    (hp : lineJob E s line = none) :
    ((handleLine E line).exec s).2.current = s.current ∧
      ((handleLine E line).exec s).2.newjobprocessed = s.newjobprocessed := by
  have h := handleLine_of_no_job (E := E) hc hp s.overlay
  rw [St.overlay_put] at h
  rw [h]
  exact ⟨rfl, rfl⟩

theorem spoils_iff {s : St} {a : Nat} (hc : s.conn = some a) {line : List Char} {j : Json} {prm : Json}
    (hu : (s.uris a).stratumMode = CORESTRATUM2) (hp : (lineJob E s line).isSome = true)
    (hparse : E.parse (trim line) = .ok (some j)) (hprm : j.at_ "params" = .ok prm) :
    Spoils E s line ↔ Overwrites prm s.current := by
  constructor
  · rintro ⟨-, j', b, prm', hparse', -, -, hprm', hover⟩
    cases hparse.symm.trans hparse'
    cases hprm.symm.trans hprm'
    exact hover
  · exact fun hover => ⟨hp, j, a, prm, hparse, hc, hu, hprm, hover⟩

/-- A job in mode CORESTRATUM2 is processed to its end, or it throws, and then it spoils the
    package exactly when it alters it. -/
theorem handleLine_of_job2 {s : St} {a : Nat} (hc : s.conn = some a) (hu : (s.uris a).stratumMode = CORESTRATUM2)
    {line : List Char} {p : Prog WorkPackage Stop Bool} (hp : lineJob E s line = some p) :
    wp (handleLine E line) (fun _ t => (Signals E s line t.current ∧ ¬ Spoils E s line) ∨
        ((∀ w, ¬ Signals E s line w) ∧ t.newjobprocessed = s.newjobprocessed ∧
          (t.current = s.current ↔ ¬ Spoils E s line)))
      (fun _ _ => False) s := by
  obtain ⟨_, j, b, hparse, hconn, hann, hprog⟩ := lineJob_eq_some hp
  cases hc.symm.trans hconn
  obtain ⟨prm, hprm, hnotice, hruns⟩ := jobProgram_coreStratum2 hu hprog s.current
  obtain ⟨hok, herror⟩ := wp_iff_exec.mp hruns
  have hspoils := spoils_iff hc hu (by rw [hp]; rfl) hparse hprm
  rw [wp_handleLine_of_job hc hp (by simp [St.refusesJob, hu]), wp_iff_exec]
  refine ⟨fun isNew w hw => ?_, fun x w hw => ?_⟩
  · obtain ⟨rfl, n, hn, hshown⟩ := hok isNew w hw
    refine .inl ⟨⟨⟨p, hp, hw⟩, n, ⟨j, a, hparse, hc, hann, hnotice.trans hn⟩, hshown⟩, fun h => ?_⟩
    exact (hspoils.mp h).1 n hn
  · obtain ⟨hstd, -, hsame⟩ := herror x w hw
    rw [if_pos hstd]
    refine .inr ⟨?_, rfl, hsame.trans (not_congr hspoils).symm⟩
    rintro w' ⟨⟨q, hq, hw'⟩, -⟩
    cases hp.symm.trans hq
    cases hw.symm.trans hw'

/-- In mode CORESTRATUM2 the lines that spoil are exactly those that alter the package
    without a job of their own to show for it. -/
theorem handleLine_intact_iff {s : St} {a : Nat} (hc : s.conn = some a)
    (hu : (s.uris a).stratumMode = CORESTRATUM2) (line : List Char) :
    wp (handleLine E line) (fun _ t => t.current = s.current ∨ Signals E s line t.current) (fun _ _ => True) s ↔
      ¬ Spoils E s line := by
  cases hp : lineJob E s line with
  | none =>
    refine iff_of_true ?_ fun h => by simpa [hp] using h.1
    rw [wp_iff_exec]
    refine ⟨fun _ t ht => .inl ?_, fun _ _ _ => trivial⟩
    have hcurrent := (handleLine_of_no_job_keeps hc hp).1
    rwa [ht] at hcurrent
  | some p =>
    have hjob := handleLine_of_job2 hc hu hp
    refine ⟨fun hintact hspoils => ?_, fun hsafe => wp_mono hjob ?_ fun _ _ h => h.elim⟩
    · obtain ⟨hok, herror⟩ := wp_iff_exec.mp (wp_and hjob hintact)
      rcases hexec : (handleLine E line).exec s with ⟨x | _, t⟩
      · exact (herror x t hexec).1
      · rcases hok _ t hexec with ⟨h | ⟨hnone, -, hsame⟩, hcases⟩
        · exact h.2 hspoils
        · rcases hcases with h | h
          · exact hsame.mp h hspoils
          · exact hnone _ h
    · rintro _ t (h | ⟨-, -, hsame⟩)
      · exact .inr h.1
      · exact .inl (hsame.mpr hsafe)

/-- A line that is no job, or one that is refused, leaves the package and the signal alone. -/
theorem handleLine_idle {s : St} {a : Nat} (hc : s.conn = some a) {line : List Char}
    (hidle : ∀ p, lineJob E s line = some p → s.refusesJob (s.uris a) = true) :
    wp (handleLine E line) (fun _ t => t.current = s.current ∧ t.newjobprocessed = s.newjobprocessed)
      (fun _ _ => True) s := by
  rw [wp_iff_exec]
  refine ⟨fun _ t ht => ?_, fun _ _ _ => trivial⟩
  cases hp : lineJob E s line with
  | none =>
    have hkeeps := handleLine_of_no_job_keeps hc hp
    rwa [ht] at hkeeps
  | some p =>
    have hexec := handleLine_of_job hc hp
    rw [hidle p hp, if_pos rfl, ht] at hexec
    cases hexec
    exact ⟨rfl, rfl⟩

/-- The package about to be dispatched after a line is the one before it, or the line's. -/
theorem handleLine_shows {s : St} {a : Nat} (hc : s.conn = some a) {line : List Char} (htear : ¬ Tears E s line) :
    wp (handleLine E line) (fun _ t => t.newjobprocessed = true →
        (s.newjobprocessed = true ∧ t.current = s.current) ∨ Signals E s line t.current)
      (fun _ _ => True) s := by
  by_cases hidle : ∀ p, lineJob E s line = some p → s.refusesJob (s.uris a) = true
  · refine wp_mono (handleLine_idle hc hidle) (fun _ t ht htnew => ?_) fun _ _ h => h
    exact .inl ⟨ht.2.symm.trans htnew, ht.1⟩
  · obtain ⟨p, hp, href⟩ : ∃ p, lineJob E s line = some p ∧ s.refusesJob (s.uris a) = false := by simpa using hidle
    by_cases hu : (s.uris a).stratumMode = CORESTRATUM2
    · refine wp_mono (handleLine_of_job2 hc hu hp) (fun _ t h htnew => ?_) fun _ _ h => h.elim
      rcases h with h | ⟨-, hnew, hsame⟩
      · exact .inr h.1
      · rw [hnew] at htnew
        exact .inl ⟨htnew, hsame.mpr fun hspoils => htear ⟨htnew, hspoils⟩⟩
    · obtain ⟨_, j, b, hparse, hconn, hann, hprog⟩ := lineJob_eq_some hp
      cases hc.symm.trans hconn
      -- nothing has been signalled before this job
      have hfresh : s.newjobprocessed = false := by simpa [St.refusesJob, hu] using href
      obtain ⟨hok, -⟩ := wp_iff_exec.mp (jobProgram_legacy hu hprog s.current)
      rw [wp_handleLine_of_job hc hp href, wp_iff_exec]
      refine ⟨fun isNew w hw hnew => ?_, fun x w _ => ?_⟩
      · cases isNew with
        | true =>
          obtain ⟨n, hn, hshown⟩ := hok true w hw rfl
          exact .inr ⟨⟨p, hp, hw⟩, n, ⟨j, a, hparse, hc, hann, hn⟩, hshown⟩
        | false => exact absurd hnew (by simp [St.withJob, hfresh])
      · split
        · exact fun hnew => absurd hnew (by simp [St.withJob, hfresh])
        · trivial

/-! ## Transmissions -/

/-- When `rxMessage` arrives in the state `s`, `line` is among the lines it completes and is
    handled in the state `t`. -/
def Arrives (E : Env) (s : St) (rxMessage line : List Char) (t : St) : Prop :=
  ∃ pre post, Lines.lines '\n' (s.message ++ rxMessage) = pre ++ line :: post ∧
    (consume E pre).exec (s.receiving rxMessage) = (.ok (), t)

section Accounted

variable {P : St → List Char → WorkPackage → Prop}

/-- `P` says which line, handled in which state, accounts for a package. The package about to
    be dispatched after a line is the one before it, as far as `P` can tell, or the line's. -/
def Accounts (E : Env) (P : St → List Char → WorkPackage → Prop) (s : St) (line : List Char) : Prop :=
  wp (handleLine E line) (fun _ t => t.newjobprocessed = true →
      (s.newjobprocessed = true ∧ ∀ u line', P u line' s.current → P u line' t.current) ∨ P s line t.current)
    (fun _ _ => True) s

/-- One line of what arrived accounts for each package dispatched since `s`. -/
def Accounted (E : Env) (P : St → List Char → WorkPackage → Prop) (s : St) (rxMessage : List Char) (u : St) : Prop :=
  ∃ new, u.log = new ++ s.log ∧
    ∀ w, .onWorkReceived w ∈ new → ∃ line t, Arrives E s rxMessage line t ∧ P t line w

theorem Arrives.conn {s t : St} {rxMessage line : List Char} (h : Arrives E s rxMessage line t) : t.conn = s.conn := by
  obtain ⟨pre, _, _, ht⟩ := h
  exact ((wp_iff_exec.mp ((consume_keeps (E := E) pre).from_ (s.receiving rxMessage))).1 _ _ ht).conn

/-- The package about to be dispatched behind the lines is the one of the last job signalled. -/
theorem consume_accounts {s : St} (rxMessage : List Char)
    (hline : ∀ line t, Arrives E s rxMessage line t → Accounts E P t line) :
    wp (consume E (Lines.lines '\n' (s.message ++ rxMessage)))
      (fun _ u => u.newjobprocessed = true → ∃ line t, Arrives E s rxMessage line t ∧ P t line u.current)
      (fun _ _ => True) (s.receiving rxMessage) := by
  refine wp_forM_of_step (I := fun _ (u : St) => u.newjobprocessed = true →
    ∃ line t, Arrives E s rxMessage line t ∧ P t line u.current) nofun fun pre line post t hl ht hI => ?_
  have harrives : Arrives E s rxMessage line t := ⟨pre, post, hl, ht⟩
  rw [takeLine, wp_bind]
  refine wp_mono (hline line t harrives) (fun _ u hu => ?_) fun _ _ _ => trivial
  rw [wp_modify]
  intro hnew
  rcases hu hnew with ⟨hbefore, hsame⟩ | hsignals
  · obtain ⟨line', t', harrives', hP⟩ := hI hbefore
    exact ⟨line', t', harrives', hsame t' line' hP⟩
  · exact ⟨line, t, harrives, hsignals⟩

theorem onRecvSocketDataCompleted_accounts {s : St} (rxMessage : List Char)
    (hline : ∀ line t, Arrives E s rxMessage line t → Accounts E P t line) :
    wp (onRecvSocketDataCompleted E (some rxMessage)) (fun _ u => Accounted E P s rxMessage u ∧ u.conn = s.conn)
      (fun _ u => Accounted E P s rxMessage u) s := by
  have hkeeps := (consume_keeps (E := E) (Lines.lines '\n' (s.message ++ rxMessage))).from_ (s.receiving rxMessage)
  have hreply {new : List Out} (h : ∀ o ∈ new, o.isReply = true) (w : WorkPackage) : Out.onWorkReceived w ∉ new :=
    fun hw => Bool.false_ne_true (h _ hw)
  rw [onRecvSocketDataCompleted_eq, wp_bind, wp_processTransmission]
  refine wp_mono (wp_and hkeeps (consume_accounts rxMessage hline)) ?_ ?_
  · rintro _ t ⟨hconsumed, haccounts⟩
    obtain ⟨new, hlog, hnew⟩ := hconsumed.log
    have haccounted (n : Nat) : Accounted E P s rxMessage { t with reads := n, log := t.work ++ t.log } := by
      refine ⟨t.work ++ new, ?_, fun w hw => ?_⟩
      · rw [List.append_assoc]
        exact congrArg (t.work ++ ·) hlog
      · rcases List.mem_append.mp hw with hw | hw
        · rw [St.work] at hw
          split at hw
          · cases List.mem_singleton.mp hw
            exact haccounts ‹_›
          · cases hw
        · exact absurd hw (hreply hnew w)
    refine wp_mono (afterLines_dispatches t) ?_ ?_
    · rintro _ u ⟨-, n, rfl⟩
      exact ⟨haccounted n, hconsumed.conn⟩
    · rintro _ u ⟨n, rfl⟩
      exact haccounted n
  · rintro x t ⟨⟨hconsumed, -⟩, -⟩
    obtain ⟨new, hlog, hnew⟩ := hconsumed.log
    exact ⟨new, hlog, fun w hw => absurd hw (hreply hnew w)⟩

/-! ## Any number of transmissions -/

def receiveAll (E : Env) (reads : List (List Char)) : M Unit :=
  forM reads fun rxMessage => onRecvSocketDataCompleted E (some rxMessage)

def Among (E : Env) (s : St) (reads : List (List Char)) (rxMessage : List Char) (t : St) : Prop :=
  ∃ pre post, reads = pre ++ rxMessage :: post ∧ (receiveAll E pre).exec s = (.ok (), t)

/-- If every line accounts for its package, some line accounts for each package dispatched. -/
theorem dispatched_accounted {s : St} {a : Nat} (hc : s.conn = some a) (reads : List (List Char))
    (hline : ∀ rxMessage t, Among E s reads rxMessage t → ∀ line u, Arrives E t rxMessage line u → u.conn = some a →
      Accounts E P u line)
    {w : WorkPackage} (hw : .onWorkReceived w ∈ ((receiveAll E reads).exec s).2.log) :
    .onWorkReceived w ∈ s.log ∨
      ∃ rxMessage t, Among E s reads rxMessage t ∧ ∃ line u, Arrives E t rxMessage line u ∧ P u line w := by
  let Shown : St → Prop := fun t => .onWorkReceived w ∈ t.log → .onWorkReceived w ∈ s.log ∨
    ∃ rxMessage t, Among E s reads rxMessage t ∧ ∃ line u, Arrives E t rxMessage line u ∧ P u line w
  suffices h : wp (receiveAll E reads) (fun _ t => Shown t ∧ t.conn = some a) (fun _ t => Shown t) s by
    rw [wp_iff_exec] at h
    rcases hexec : (receiveAll E reads).exec s with ⟨x | _, t⟩
    · exact h.2 x t hexec (by rwa [hexec] at hw)
    · exact (h.1 _ t hexec).1 (by rwa [hexec] at hw)
  refine wp_forM_of_step (I := fun _ t => Shown t ∧ t.conn = some a) ⟨.inl, hc⟩
    fun pre rxMessage post t hl ht ⟨hshown, hconn⟩ => ?_
  have hamong : Among E s reads rxMessage t := ⟨pre, post, hl, ht⟩
  have hstep {u : St} (hu : Accounted E P t rxMessage u) : Shown u := by
    intro hmem
    obtain ⟨new, hlog, hnew⟩ := hu
    rw [hlog] at hmem
    rcases List.mem_append.mp hmem with hmem | hmem
    · exact .inr ⟨rxMessage, t, hamong, hnew w hmem⟩
    · exact hshown hmem
  have haccounts := onRecvSocketDataCompleted_accounts rxMessage fun line u hu =>
    hline rxMessage t hamong line u hu (hu.conn.trans hconn)
  exact wp_mono haccounts (fun _ u hu => ⟨hstep hu.1, hu.2.trans hconn⟩) fun _ u hu => hstep hu

end Accounted

/-- On a connection, however the pool's lines are grouped into transmissions: unless a line
    cuts short a job behind one already signalled, every package dispatched was left by one
    line whose processing succeeded, and shows what that line says. -/
theorem dispatched_show_one_notice {s : St} {a : Nat} (hc : s.conn = some a) (reads : List (List Char))
    (htear : ∀ rxMessage t, Among E s reads rxMessage t → ∀ line u, Arrives E t rxMessage line u → ¬ Tears E u line)
    (w : WorkPackage) (hw : .onWorkReceived w ∈ ((receiveAll E reads).exec s).2.log) :
    .onWorkReceived w ∈ s.log ∨
      ∃ rxMessage t, Among E s reads rxMessage t ∧ ∃ line u, Arrives E t rxMessage line u ∧ Signals E u line w := by
  refine dispatched_accounted hc reads (fun rxMessage t ht line u hu hconn => ?_) hw
  refine wp_mono (handleLine_shows hconn (htear rxMessage t ht line u hu)) (fun _ v hv hnew => ?_) fun _ _ h => h
  rcases hv hnew with ⟨hbefore, hsame⟩ | hsignals
  · exact .inl ⟨hbefore, fun _ _ h => by rwa [hsame]⟩
  · exact .inr hsignals

/-! ## A malformed job behind a good one -/

def helloReply : String × Json :=
  ("\x7b\"id\":1,\"result\":\x7b\"proto\":\"CoreStratum/2.0.0\",\"encoding\":0,\"resume\":0,\"timeout\":0," ++
    "\"maxerrors\":0,\"node\":0\x7d\x7d",
    .obj [("id", .int 1), ("result", .obj [("proto", .str "CoreStratum/2.0.0"), ("encoding", .int 0),
      ("resume", .int 0), ("timeout", .int 0), ("maxerrors", .int 0), ("node", .int 0)])])

def firstSet : String × Json :=
  ("\x7b\"method\":\"mining.set\",\"params\":\x7b\"epoch\":\"1\"\x7d\x7d",
    .obj [("method", .str "mining.set"), ("params", .obj [("epoch", .str "1")])])

def goodJob : String × Json :=
  ("\x7b\"method\":\"mining.notify\",\"params\":[\"4a\",\"d5\",\"abc\",\"0\"]\x7d",
    .obj [("method", .str "mining.notify"),
      ("params", .arr [.str "4a", .str "d5", .str "abc", .str "0"])])

def brokenJob : String × Json :=
  ("\x7b\"method\":\"mining.notify\",\"params\":[\"4b\",\"d6\",\"xyz\",\"0\"]\x7d",
    .obj [("method", .str "mining.notify"),
      ("params", .arr [.str "4b", .str "d6", .str "xyz", .str "0"])])

def texts : List (String × Json) := [helloReply, firstSet, goodJob, brokenJob]

def unsaid (w : WorkPackage) : Bool :=
  texts.all fun text => (noticeOf CORESTRATUM2 text.2).toOption.all fun n => w.job ≠ n.job

theorem not_shownBy_of_unsaid {w : WorkPackage} (hw : unsaid w = true) {line : List Char} {j : Json} {n : Notice}
    (hj : (tableEnv texts).parse line = .ok (some j)) (hn : noticeOf CORESTRATUM2 j = .ok n) : ¬ n.ShownBy w := by
  intro hshown
  obtain ⟨before, behind, htexts, -⟩ := List.lookup_eq_some_iff.mp (Except.ok.inj hj)
  have hmem : (String.ofList line, j) ∈ texts := by simp [htexts]
  have hjob := List.all_eq_true.mp hw _ hmem
  rw [hn] at hjob
  exact of_decide_eq_true hjob hshown.job

def helloTrace : List Ev := connectTrace ++ [.received (lineOf helloReply ++ lineOf firstSet), .run none]

/-- The malformed job's id and block, with the good one's header, are dispatched. -/
theorem torn_job_dispatched :
    ∃ s, Reach (tableEnv texts) s ∧ ∃ w, .onWorkReceived w ∈ s.log ∧
      ∀ line j n, (tableEnv texts).parse line = .ok (some j) → noticeOf CORESTRATUM2 j = .ok n → ¬ n.ShownBy w := by
  obtain ⟨s, w, hs, hlog, hw⟩ := reach_of_dispatch (tableEnv texts)
    (fun _ => plainUri_fresh CORESTRATUM2 (.inl (by decide)))
    (helloTrace ++ [.received (lineOf goodJob ++ lineOf brokenJob), .run none]) unsaid (by decide +kernel)
  exact ⟨s, hs, w, hlog, fun _ _ _ hj hn => not_shownBy_of_unsaid hw hj hn⟩

def setClient : St where
  uris _ := (plainUri CORESTRATUM2).setStratumMode CORESTRATUM2 true
  conn := some 0
  session := some { start := 0, lastTxStamp := 0, firstMiningSet := true }

/-- In the other order nothing is signalled yet when the malformed job throws. -/
theorem setClient_untorn (rxMessage : List Char) (t : St)
    (ht : Among (tableEnv texts) setClient [lineOf brokenJob ++ lineOf goodJob] rxMessage t) (line : List Char) (u : St)
    (hu : Arrives (tableEnv texts) t rxMessage line u) : ¬ Tears (tableEnv texts) u line := by
  rintro ⟨hnew, -, j, a, prm, hj, -, -, hprm, hover⟩
  obtain ⟨pre, post, hreads, ht⟩ := ht
  obtain ⟨rfl, hreads⟩ := List.append_eq_singleton_iff.mp hreads.symm |>.resolve_right fun h => by cases h.2
  cases hreads
  cases ht
  obtain ⟨before, behind, hlines, hu⟩ := hu
  have htwo : Lines.lines '\n' (setClient.message ++ (lineOf brokenJob ++ lineOf goodJob)) =
      [brokenJob.1.toList, goodJob.1.toList] := by decide +kernel
  rw [htwo] at hlines
  match before, hlines, hu with
  | [], hlines, hu =>
    cases hu
    cases hnew
  | [_], hlines, _ =>
    cases hlines
    have hgood : (tableEnv texts).parse (trim goodJob.1.toList) = .ok (some goodJob.2) := rfl
    cases hj.symm.trans hgood
    cases hprm
    exact hover.1 _ rfl
  | _ :: _ :: before, hlines, _ => simp at hlines

theorem torn_job_overwritten :
    let t := ((receiveAll (tableEnv texts) [lineOf brokenJob ++ lineOf goodJob]).exec setClient).2
    .onWorkReceived t.current ∈ t.log ∧ (.onWorkReceived t.current ∈ setClient.log ∨ ∃ rxMessage t',
      Among (tableEnv texts) setClient [lineOf brokenJob ++ lineOf goodJob] rxMessage t' ∧
        ∃ line u, Arrives (tableEnv texts) t' rxMessage line u ∧ Signals (tableEnv texts) u line t.current) := by
  have hw : .onWorkReceived
      ((receiveAll (tableEnv texts) [lineOf brokenJob ++ lineOf goodJob]).exec setClient).2.current ∈
      ((receiveAll (tableEnv texts) [lineOf brokenJob ++ lineOf goodJob]).exec setClient).2.log := by decide +kernel
  exact ⟨hw, dispatched_show_one_notice rfl _ setClient_untorn _ hw⟩

end CoreMiner.Stratum
