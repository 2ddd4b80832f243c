/-
  CoreMiner.Stratum.Jobs — jobs and all the other messages (`XcbStratumClient.cpp`:
  `processResponse`, its `mining.notify` branches).

  `announces` says which messages reach a `mining.notify` branch. Such a message does what
  that branch does and nothing else (`processResponse_of_announces`); every other message
  is quiet and throws no pointer (`processResponse_of_not_announces`). What a job does is
  told by `jobProgram`: the program it runs on `m_current`, if it runs one.
-/

import CoreMiner.Stratum.Quiet
import CoreMiner.Stratum.Transmission

namespace CoreMiner.Stratum

open DevCore EthCore Lib Prog

variable {E : Env}

/-! ## The function for a given connection -/

def asGetWorkFor (u : Uri) (h : Header) (j : Json) : Except StdException Header := do
  if h.isNotification && h.method = "" then
    let result ← j.at_ "result"
    return if u.stratumMode = ETHPROXY && result.isArray then { h with method := "mining.notify" } else h
  else return h

def processFor (E : Env) (u : Uri) (j : Json) : M Unit := do
  let h ← raise (retrieve j)
  let h ← raise (asGetWorkFor u h j)
  if ← raise (invalid h j) then post .disconnect
  else if h.isNotification then when u.stratumModeConfirmed (dispatch E u h j)
  else
    let result ← raise (j.get "result" .null)
    if h.id = 5 then
      when (u.stratumMode = ETHPROXY && result.isArray) (when u.stratumModeConfirmed
        (dispatch E u { h with method := "mining.notify", isNotification := true } j))
    else reply E h j result

section

variable {s : St} {a : Nat}

theorem raise_ok_bind {σ α β : Type} (a : α) (f : α → Prog σ Stop β) : (raise (.ok a) >>= f) = f a := pure_bind a f

theorem raise_bind {σ α β : Type} (e : Except StdException α) (f : α → Except StdException β) :
    (raise (e >>= f) : Prog σ Stop β) = raise e >>= fun a => raise (f a) := by
  cases e <;> rfl

theorem exec_raise_bind {σ α β : Type} {e : Except StdException α} {f : α → Prog σ Stop β} {s : σ} :
    (raise e >>= f).exec s = match e with
      | .ok a => (f a).exec s
      | .error x => (.error (.exception x), s) := by
  cases e <;> rfl

theorem exec_getConn_bind {α : Type} (hc : s.conn = some a) {f : Uri → M α} :
    (getConn >>= f).exec s = (f (s.uris a)).exec s := by
  rw [exec_bind, getConn, exec_bind_ok (exec_get s), hc]
  rfl

theorem exec_asGetWork_bind (hc : s.conn = some a) (h : Header) (j : Json) {f : Header → M Unit} :
    (asGetWork h j >>= f).exec s = (raise (asGetWorkFor (s.uris a) h j) >>= f).exec s := by
  rw [asGetWork, asGetWorkFor]
  split
  · rw [bind_assoc, exec_getConn_bind hc, bind_assoc]
    cases j.at_ "result" <;> rfl
  · rfl

theorem exec_notification (hc : s.conn = some a) (h : Header) (j : Json) :
    (notification E h j).exec s = (when (s.uris a).stratumModeConfirmed (dispatch E (s.uris a) h j)).exec s :=
  exec_getConn_bind hc

theorem exec_response_bind (hc : s.conn = some a) (h : Header) (j : Json) {f : Option Header → M Unit}
    (hnone : f none = pure ()) (hsome : ∀ h, f (some h) = notification E h j) :
    (response E h j >>= f).exec s = (do
      let result ← raise (j.get "result" .null)
      if h.id = 5 then
        when ((s.uris a).stratumMode = ETHPROXY && result.isArray) (when (s.uris a).stratumModeConfirmed
          (dispatch E (s.uris a) { h with method := "mining.notify", isNotification := true } j))
      else reply E h j result).exec s := by
  rw [response, bind_assoc, exec_raise_bind, exec_raise_bind]
  cases j.get "result" .null with
  | error e => rfl
  | ok result =>
    dsimp only
    split
    · rw [getWorkReply, bind_assoc, exec_getConn_bind hc, pure_bind]
      by_cases harr : ((s.uris a).stratumMode = ETHPROXY && result.isArray) = true
      · rw [if_pos harr, hsome, exec_notification hc]
        simp only [when, if_pos harr]
      · rw [if_neg harr, hnone]
        simp only [when, if_neg harr]
    · have hreply : (reply E h j result >>= fun _ => pure none) >>= f = reply E h j result := by
        rw [bind_assoc]
        simp only [pure_bind, hnone]
        exact bind_pure _
      exact congrArg (fun m : M Unit => m.exec s) hreply

theorem processResponse_eq (hc : s.conn = some a) (j : Json) :
    (processResponse E j).exec s = (processFor E (s.uris a) j).exec s := by
  rw [processResponse, processFor, exec_raise_bind, exec_raise_bind]
  cases retrieve j with
  | error e => rfl
  | ok h =>
    dsimp only
    rw [exec_asGetWork_bind hc, exec_raise_bind, exec_raise_bind]
    cases asGetWorkFor (s.uris a) h j with
    | error e => rfl
    | ok h =>
      dsimp only
      rw [handle, exec_raise_bind, exec_raise_bind]
      cases invalid h j with
      | error e => rfl
      | ok b =>
        cases b with
        | true => rfl
        | false =>
          cases h.isNotification with
          | true =>
            simp only [Bool.false_eq_true, if_false, if_true]
            exact exec_notification hc h j
          | false =>
            simp only [Bool.false_eq_true, if_false]
            exact exec_response_bind hc h j rfl fun _ => rfl

end

/-! ## Which messages are jobs -/

/-- Does the message reach a `mining.notify` branch on a connection to `u`? -/
def announces (u : Uri) (j : Json) : Except StdException Bool := do
  let h ← retrieve j
  let h ← asGetWorkFor u h j
  if ← invalid h j then return false
  else if h.isNotification then return h.method = "mining.notify" && u.stratumModeConfirmed
  else
    let result ← j.get "result" .null
    return h.id = 5 && u.stratumMode = ETHPROXY && result.isArray && u.stratumModeConfirmed

def takeJob (u : Uri) (j : Json) : M Unit := if u.stratumMode ≠ CORESTRATUM2 then notify u j else notify2 j

/-- A message whose essential values can be read is an object (or null). -/
theorem get_of_retrieve {h : Header} {j : Json} (hr : retrieve j = .ok h) (key : String) (dflt : Json) :
    ∃ x, j.get key dflt = .ok x := by
  cases j with
  | null => exact ⟨dflt, rfl⟩
  | obj l => exact ⟨_, rfl⟩
  | _ => cases hr

theorem dispatch_job {u : Uri} {h : Header} {j : Json} (hr : ∃ prm, j.get "params" .null = .ok prm)
    (hm : h.method = "mining.notify") : dispatch E u h j = takeJob u j := by
  obtain ⟨prm, hprm⟩ := hr
  rw [dispatch, hprm, raise_ok_bind, if_pos hm]
  rfl

theorem processFor_of_announces {u : Uri} {j : Json} (ha : announces u j = .ok true) :
    processFor E u j = takeJob u j := by
  unfold announces at ha
  unfold processFor
  cases hr : retrieve j with
  | error e => simp [hr, bind, Except.bind] at ha
  | ok h =>
    have hprm := get_of_retrieve hr "params" .null
    rw [raise_ok_bind]
    simp only [hr, bind, Except.bind] at ha
    cases hw : asGetWorkFor u h j with
    | error e => simp [hw] at ha
    | ok h =>
      rw [raise_ok_bind]
      simp only [hw] at ha
      cases hi : invalid h j with
      | error e => simp [hi] at ha
      | ok b =>
        rw [raise_ok_bind]
        simp only [hi] at ha
        cases b with
        | true => simp [pure, Except.pure] at ha
        | false =>
          simp only [Bool.false_eq_true, if_false] at ha ⊢
          cases hn : h.isNotification with
          | true =>
            simp only [hn, if_true, pure, Except.pure, Except.ok.injEq, Bool.and_eq_true, decide_eq_true_eq] at ha ⊢
            rw [dispatch_job hprm ha.1, when, if_pos ha.2]
          | false =>
            simp only [hn, Bool.false_eq_true, if_false] at ha ⊢
            cases hres : j.get "result" .null with
            | error e => simp [hres] at ha
            | ok result =>
              rw [raise_ok_bind]
              simp only [hres, pure, Except.pure, Except.ok.injEq, Bool.and_eq_true, decide_eq_true_eq] at ha
              obtain ⟨⟨⟨hid, hmode⟩, harr⟩, hconf⟩ := ha
              rw [if_pos hid, when, if_pos (by simp [hmode, harr]), when, if_pos hconf, dispatch_job hprm rfl]

structure Calm {α : Type} (m : M α) : Prop where
  quiet : Quiet m
  tame : Tame ⟨false, true⟩ m

section Calm

variable {α β : Type}

theorem Calm.raise_bind {e : Except StdException α} {f : α → M β} (h : ∀ a, e = .ok a → Calm (f a)) :
    Calm (raise e >>= f) := by
  cases e with
  | error x => exact ⟨⟨fun _ _ => rfl⟩, ⟨fun s => ⟨.refl s, trivial⟩⟩⟩
  | ok a =>
    rw [raise_ok_bind]
    exact h a rfl

theorem Calm.ite {p : Prop} [Decidable p] {m n : M α} (hm : p → Calm m) (hn : ¬ p → Calm n) :
    Calm (if p then m else n) := by
  split
  · exact hm ‹_›
  · exact hn ‹_›

theorem Calm.when {p : Prop} [Decidable p] {m : M Unit} (hm : p → Calm m) : Calm (when p m) :=
  .ite hm fun _ => ⟨.pure _, .pure _⟩

end Calm

theorem dispatch_calm {h : Header} (hm : h.method ≠ "mining.notify") (u : Uri) (j : Json) : Calm (dispatch E u h j) :=
  ⟨dispatch_quiet hm u j, dispatch_tame (fun h => absurd h hm) j⟩

/-- Every message that is no job is quiet and throws no pointer. -/
theorem processFor_of_not_announces {u : Uri} {j : Json} (ha : announces u j ≠ .ok true) : Calm (processFor E u j) := by
  rw [announces, except_bind_ne_ok_iff] at ha
  refine .raise_bind fun h hr => ?_
  have ha := ha h hr
  rw [except_bind_ne_ok_iff] at ha
  refine .raise_bind fun h' hw => ?_
  have ha := ha h' hw
  rw [except_bind_ne_ok_iff] at ha
  refine .raise_bind fun b hi => .ite (fun _ => ⟨post_quiet _, postDisconnect_tame⟩) fun hb => ?_
  have ha := ha b hi
  rw [if_neg hb] at ha
  refine .ite (fun hn => .when fun hconf => ?_) fun hn => ?_
  · rw [if_pos hn] at ha
    refine dispatch_calm (fun hm => ha ?_) u j
    simp [hm, hconf, pure, Except.pure]
  · rw [if_neg hn, except_bind_ne_ok_iff] at ha
    refine .raise_bind fun result hres => .ite (fun hid => .when fun harr => .when fun hconf => ?_) fun _ =>
      ⟨reply_quiet h' j result, reply_tame h' j result⟩
    refine absurd ?_ (ha result hres)
    simp only [Bool.and_eq_true, decide_eq_true_eq] at harr
    simp [hid, harr.1, harr.2, hconf, pure, Except.pure]

theorem processResponse_of_announces {s : St} {a : Nat} (hc : s.conn = some a) {j : Json}
    (ha : announces (s.uris a) j = .ok true) : (processResponse E j).exec s = (takeJob (s.uris a) j).exec s := by
  rw [processResponse_eq hc, processFor_of_announces ha]

/-! ## What a job does -/

/-- The program a job runs on `m_current`, in the modes before CORESTRATUM2; it tells whether
    the job is new. Without a subscription or parameters there is none. -/
def legacyProgram (u : Uri) (session : Session) (j : Json) :
    Except StdException (Option (Prog WorkPackage Stop Bool)) :=
  if session.subscribed then do
    let inResult ← jobInResult u.stratumMode j
    let jPrm ← j.get (if inResult then "result" else "params") .null
    return if jPrm.isArray && !jPrm.empty
      then some (legacyJob u.stratumMode session jPrm (if inResult then 0 else 1)) else none
  else .ok none

/-- The same in mode CORESTRATUM2, where the first `mining.set` must have been seen. -/
def coreStratum2Program (session : Session) (j : Json) : Except StdException (Option (Prog WorkPackage Stop Bool)) :=
  if session.firstMiningSet then do
    let params ← j.at_ "params"
    return if params.isArray && params.size = 4
      then some (coreStratum2Job session params >>= fun _ => pure true) else none
  else .ok none

def jobProgram (u : Uri) (session : Option Session) (j : Json) :
    Except StdException (Option (Prog WorkPackage Stop Bool)) :=
  match session with
  | none => .ok none
  | some session =>
    if u.stratumMode ≠ CORESTRATUM2 then legacyProgram u session j else coreStratum2Program session j

theorem jobProgram_eq_legacy {u : Uri} (hu : u.stratumMode ≠ CORESTRATUM2) {session : Option Session} {j : Json}
    {p : Prog WorkPackage Stop Bool} (hp : jobProgram u session j = .ok (some p)) :
    ∃ x inResult prm, session = some x ∧ jobInResult u.stratumMode j = .ok inResult ∧
      j.get (if inResult then "result" else "params") .null = .ok prm ∧
      p = legacyJob u.stratumMode x prm (if inResult then 0 else 1) := by
  cases session with
  | none => cases hp
  | some x =>
    rw [jobProgram, if_pos hu, legacyProgram] at hp
    split at hp
    · cases hin : jobInResult u.stratumMode j with
      | error e => rw [hin] at hp; cases hp
      | ok inResult =>
        rw [hin] at hp
        cases hprm : j.get (if inResult then "result" else "params") .null with
        | error e => simp [bind, Except.bind, hprm] at hp
        | ok prm =>
          simp only [bind, Except.bind, hprm, pure, Except.pure, Except.ok.injEq] at hp
          split at hp
          · cases hp
            exact ⟨x, inResult, prm, rfl, rfl, hprm, rfl⟩
          · cases hp
    · cases hp

theorem jobProgram_eq_coreStratum2 {u : Uri} (hu : u.stratumMode = CORESTRATUM2) {session : Option Session} {j : Json}
    {p : Prog WorkPackage Stop Bool} (hp : jobProgram u session j = .ok (some p)) :
    ∃ x prm, session = some x ∧ j.at_ "params" = .ok prm ∧ p = (coreStratum2Job x prm >>= fun _ => pure true) := by
  cases session with
  | none => cases hp
  | some x =>
    rw [jobProgram, if_neg (not_not_intro hu), coreStratum2Program] at hp
    split at hp
    · cases hprm : j.at_ "params" with
      | error e => rw [hprm] at hp; cases hp
      | ok prm =>
        simp only [bind, Except.bind, hprm, pure, Except.pure, Except.ok.injEq] at hp
        split at hp
        · cases hp
          exact ⟨x, prm, rfl, rfl, rfl⟩
        · cases hp
    · cases hp

/-- In the modes before CORESTRATUM2 one job of a transmission is taken. -/
def St.refusesJob (s : St) (u : Uri) : Bool := u.stratumMode ≠ CORESTRATUM2 && s.newjobprocessed

def runJob (p : Option (Prog WorkPackage Stop Bool)) : M Unit :=
  match p with
  | none => pure ()
  | some p => do
    let isNew ← onCurrent p
    when isNew signalJob

theorem runJob_ite {c : Prop} [Decidable c] (p : Prog WorkPackage Stop Bool) :
    runJob (if c then some p else none) = when c (do let isNew ← onCurrent p; when isNew signalJob) := by
  split <;> simp [when, runJob, *]

theorem exec_notify {s : St} {session : Session} (hs : s.session = some session) (u : Uri) (j : Json) :
    (notify u j).exec s =
      if s.newjobprocessed then (.ok (), s) else (raise (legacyProgram u session j) >>= runJob).exec s := by
  rw [notify, exec_bind_ok (exec_get s), hs, legacyProgram]
  dsimp only
  by_cases hnew : s.newjobprocessed = true
  · rw [when, if_neg (by simp [hnew]), if_pos hnew]
    rfl
  · rw [if_neg hnew]
    by_cases hsub : session.subscribed = true
    · rw [when, if_pos (by simp [hnew, hsub]), if_pos hsub]
      simp only [raise_bind, bind_assoc]
      congr 1
      refine congrArg _ (funext fun inResult => congrArg _ (funext fun jPrm => ?_))
      exact (runJob_ite _).symm
    · rw [when, if_neg (by simp [hsub]), if_neg hsub]
      rfl

theorem onCurrent_true (p : Prog WorkPackage Stop Unit) :
    (do let isNew ← onCurrent (p >>= fun _ => pure true); when isNew signalJob) = (do onCurrent p; signalJob) := by
  refine ext_exec fun s => ?_
  simp only [onCurrent, exec_bind, exec_zoom]
  rcases p.exec s.current with ⟨x | _, w⟩ <;> rfl

theorem exec_notify2 {s : St} {session : Session} (hs : s.session = some session) (j : Json) :
    (notify2 j).exec s = (raise (coreStratum2Program session j) >>= runJob).exec s := by
  rw [notify2, exec_bind_ok (exec_get s), hs, coreStratum2Program]
  dsimp only
  by_cases hset : session.firstMiningSet = true
  · rw [when, if_pos hset, if_pos hset]
    simp only [raise_bind, bind_assoc]
    congr 1
    refine congrArg _ (funext fun params => ?_)
    refine Eq.trans ?_ (runJob_ite _).symm
    rw [onCurrent_true]
  · rw [when, if_neg hset, if_neg hset]
    rfl

theorem takeJob_eq (u : Uri) (j : Json) (s : St) :
    (takeJob u j).exec s =
      if s.refusesJob u then (.ok (), s) else (raise (jobProgram u s.session j) >>= runJob).exec s := by
  rw [takeJob, St.refusesJob]
  cases hs : s.session with
  | none =>
    have hrun : (raise (jobProgram u none j) >>= runJob).exec s = (.ok (), s) := rfl
    rw [hrun, ite_self]
    split
    · simp [notify, exec_bind, hs]
    · simp [notify2, exec_bind, hs]
  | some session =>
    rw [jobProgram]
    by_cases hm : u.stratumMode ≠ CORESTRATUM2
    · rw [if_pos hm, exec_notify hs, if_pos hm]
      simp [hm]
    · rw [if_neg hm, exec_notify2 hs, if_neg hm]
      simp [hm]

/-! ## The jobs among the lines -/

def lineJob (E : Env) (s : St) (line : List Char) : Option (Prog WorkPackage Stop Bool) :=
  if trim line = [] then none
  else match E.parse (trim line), s.conn with
    | .ok (some j), some a =>
      match announces (s.uris a) j, jobProgram (s.uris a) s.session j with
      | .ok true, .ok p => p
      | _, _ => none
    | _, _ => none

theorem lineJob_eq_some {s : St} {line : List Char} {p : Prog WorkPackage Stop Bool} (hp : lineJob E s line = some p) :
    trim line ≠ [] ∧ ∃ j a, E.parse (trim line) = .ok (some j) ∧ s.conn = some a ∧
      announces (s.uris a) j = .ok true ∧ jobProgram (s.uris a) s.session j = .ok (some p) := by
  unfold lineJob at hp
  split at hp
  · cases hp
  · rename_i hline
    refine ⟨hline, ?_⟩
    split at hp
    · rename_i j a hparse hconn
      split at hp
      · rename_i q hann hprog
        rw [hp] at hprog
        exact ⟨j, a, hparse, hconn, hann, hprog⟩
      · cases hp
    · cases hp

def guarded (E : Env) (j : Json) : M Unit := catching Stop.isStd (processResponse E j) (pure ())

theorem exec_handleLine {line : List Char} (hline : trim line ≠ []) (s : St) :
    (handleLine E line).exec s = match E.parse (trim line) with
      | .error e => (.error (.exception e), s)
      | .ok none => (.ok (), s)
      | .ok (some j) => (guarded E j).exec s := by
  rw [handleLine, when, if_pos (by simpa using hline), processLine, exec_raise_bind]
  rcases E.parse (trim line) with e | _ | j <;> rfl

theorem exec_guarded_of_announces {s : St} {a : Nat} (hc : s.conn = some a) {j : Json}
    (ha : announces (s.uris a) j = .ok true) :
    (guarded E j).exec s =
      if s.refusesJob (s.uris a) then (.ok (), s)
      else (catching Stop.isStd (raise (jobProgram (s.uris a) s.session j) >>= runJob) (pure ())).exec s := by
  have htake := takeJob_eq (s.uris a) j s
  rw [← processResponse_of_announces (E := E) hc ha] at htake
  by_cases href : s.refusesJob (s.uris a) = true
  · rw [if_pos href] at htake ⊢
    rw [guarded, exec_catching, htake]
  · rw [if_neg href] at htake ⊢
    exact exec_catching_congr _ htake

/-- A line with a job program that is not refused runs it, under the handler. -/
theorem handleLine_of_job {s : St} {a : Nat} (hc : s.conn = some a) {line : List Char} {p : Prog WorkPackage Stop Bool}
    (hp : lineJob E s line = some p) :
    (handleLine E line).exec s =
      if s.refusesJob (s.uris a) then (.ok (), s) else (catching Stop.isStd (runJob (some p)) (pure ())).exec s := by
  obtain ⟨hline, j, b, hparse, hconn, hann, hprog⟩ := lineJob_eq_some hp
  cases hc.symm.trans hconn
  rw [exec_handleLine hline, hparse]
  dsimp only
  rw [exec_guarded_of_announces hc hann, hprog, raise_ok_bind]

def St.withJob (s : St) (isNew : Bool) (w : WorkPackage) : St := { s with
  current := w
  currentTimestamp := if isNew then s.now else s.currentTimestamp
  newjobprocessed := isNew || s.newjobprocessed }

/-- What a job that is not refused does, from what its program does to `m_current`. -/
theorem exec_handleLine_of_job {s : St} {a : Nat} (hc : s.conn = some a) {line : List Char}
    {p : Prog WorkPackage Stop Bool} (hp : lineJob E s line = some p) (href : s.refusesJob (s.uris a) = false) :
    (handleLine E line).exec s = match p.exec s.current with
      | (.ok isNew, w) => (.ok (), s.withJob isNew w)
      | (.error x, w) => (if x.isStd then .ok () else .error x, s.withJob false w) := by
  rw [handleLine_of_job hc hp, href, if_neg Bool.false_ne_true, exec_catching, runJob, exec_bind, onCurrent, exec_zoom]
  rcases p.exec s.current with ⟨x | isNew, w⟩
  · dsimp only
    split <;> rfl
  · cases isNew <;> rfl

theorem wp_handleLine_of_job {s : St} {a : Nat} (hc : s.conn = some a) {line : List Char}
    {p : Prog WorkPackage Stop Bool} (hp : lineJob E s line = some p) (href : s.refusesJob (s.uris a) = false)
    {Q : Unit → St → Prop} {X : Stop → St → Prop} :
    wp (handleLine E line) Q X s ↔ wp p (fun isNew w => Q () (s.withJob isNew w))
      (fun x w => if x.isStd then Q () (s.withJob false w) else X x (s.withJob false w)) s.current := by
  unfold wp
  rw [exec_handleLine_of_job hc hp href]
  rcases p.exec s.current with ⟨x | isNew, w⟩
  · dsimp only
    by_cases hx : x.isStd = true
    · rw [if_pos hx, if_pos hx]
    · rw [if_neg hx, if_neg hx]
  · rfl

theorem exec_guarded_of_not_announces {s : St} {a : Nat} (hc : s.conn = some a) {j : Json}
    (ha : announces (s.uris a) j ≠ .ok true) (o : Overlay) :
    (guarded E j).exec (o.put s) = (((guarded E j).exec s).1, o.put ((guarded E j).exec s).2) := by
  have hput : (guarded E j).exec (o.put s) =
      (catching Stop.isStd (processFor E (s.uris a) j) (pure ())).exec (o.put s) :=
    exec_catching_congr _ (processResponse_eq (s := o.put s) hc j)
  have hplain : (guarded E j).exec s = (catching Stop.isStd (processFor E (s.uris a) j) (pure ())).exec s :=
    exec_catching_congr _ (processResponse_eq hc j)
  rw [hput, hplain]
  exact (Steady.catching (processFor_of_not_announces ha).quiet (Steady.pure ())).exec_eq o s

theorem exec_guarded_of_no_program {s : St} {a : Nat} (hc : s.conn = some a) {j : Json}
    (ha : announces (s.uris a) j = .ok true) (hp : ∀ p, jobProgram (s.uris a) s.session j ≠ .ok (some p)) :
    (guarded E j).exec s = (.ok (), s) := by
  rw [exec_guarded_of_announces hc ha]
  split
  · rfl
  · rcases hprog : jobProgram (s.uris a) s.session j with e | _ | p
    · rfl
    · rfl
    · exact absurd hprog (hp p)

theorem handleLine_of_no_job {s : St} {a : Nat} (hc : s.conn = some a) {line : List Char}
    (hp : lineJob E s line = none) (o : Overlay) :
    (handleLine E line).exec (o.put s) = (((handleLine E line).exec s).1, o.put ((handleLine E line).exec s).2) := by
  by_cases hline : trim line = []
  · simp [handleLine, hline, when]
  · rw [exec_handleLine hline, exec_handleLine hline]
    rcases hparse : E.parse (trim line) with e | _ | j
    · rfl
    · rfl
    · dsimp only
      by_cases ha : announces (s.uris a) j = .ok true
      · have hnone : ∀ p, jobProgram (s.uris a) s.session j ≠ .ok (some p) := by
          intro p hprog
          simp [lineJob, hline, hparse, hc, ha, hprog] at hp
        rw [exec_guarded_of_no_program hc ha hnone, exec_guarded_of_no_program (s := o.put s) hc ha hnone]
      · exact exec_guarded_of_not_announces hc ha o

end CoreMiner.Stratum
