/-
  CoreMiner.Stratum.SessionUse — which messages follow `m_session`
  (`XcbStratumClient.cpp`: `processResponse`, `startSession`).

  Before `startSession` there is no session, and five branches of `processResponse` follow
  the pointer all the same: the replies with ids 2 and 3, and `mining.set_difficulty`,
  `mining.set_extranonce` and `mining.set`. `usesSession` says which messages reach one of
  them. A sequence of messages never follows a null `m_session` exactly when each such
  message finds a session (`sessionSafe_iff`); with the mode confirmed at connect time,
  the first message of a pool can already be one that does not.
-/

import CoreMiner.Stratum.Frame
import CoreMiner.Stratum.System

namespace CoreMiner.Stratum

open DevCore EthCore Lib Prog

variable {E : Env}

/-! ## The messages that follow the session -/

def setsSession (mode : Nat) (method : String) (prm : Json) : Except StdException Bool :=
  if method = "mining.set_difficulty" ∧ mode = CORESTRATUM then .ok prm.isArray
  else if method = "mining.set_extranonce" ∧ mode = CORESTRATUM then
    if prm.isArray then do return (← prm.strIdx 0) ≠ "" else .ok false
  else if method = "mining.set" ∧ mode = CORESTRATUM2 then .ok (prm.isObject && !prm.empty)
  else .ok false

def answersSession (mode : Nat) (h : Header) (result : Json) : Bool :=
  if h.id = 2 then mode = CORESTRATUM2 && (textOf result).isSome
  else if h.id = 3 then mode ≠ CORESTRATUM2 || (h.isSuccess && (textOf result).isSome)
  else false

/-- Would processing this message on a connection to `u` follow `m_session`? -/
def usesSession (u : Uri) (j : Json) : Except StdException Bool := do
  let h ← retrieve j
  if ← invalid h j then return false
  else if h.isNotification then
    if u.stratumModeConfirmed then setsSession u.stratumMode h.method (← j.get "params" .null) else return false
  else return answersSession u.stratumMode h (← j.get "result" .null)

/-! ## One message -/

theorem Tame.never_nullSession_of_session {α : Type} {m : M α} {c : Faults} (h : Tame c m) {s : St}
    (hs : s.session.isSome = true) : Never .nullSession m s :=
  h.never fun hb => by simp [hb.2] at hs

theorem not_never_onSession {α : Type} {m : Prog Session Stop α} {s : St} (hs : s.session = none) :
    ¬ Never .nullSession (onSession m) s := by
  simp [Never, onSession, hs]

section NoSession

variable {s : St} {a : Nat}

/-- Before a session no job is taken. -/
theorem notify_safe (hs : s.session = none) (u : Uri) (j : Json) : Never .nullSession (notify u j) s := by
  simp [Never, notify, hs]

theorem notify2_safe (hs : s.session = none) (j : Json) : Never .nullSession (notify2 j) s := by
  simp [Never, notify2, hs]

theorem dispatch_safe_iff (hs : s.session = none) (u : Uri) (h : Header) (j : Json) :
    Never .nullSession (dispatch E u h j) s ↔
      ∀ prm, j.get "params" .null = .ok prm → setsSession u.stratumMode h.method prm ≠ .ok true := by
  unfold dispatch
  rw [never_raise_bind rfl]
  refine forall_congr' fun prm => imp_congr_right fun _ => ?_
  unfold setsSession
  split
  · rename_i hm
    refine iff_of_true ?_ (by simp [hm])
    split
    · exact notify_safe hs u j
    · exact notify2_safe hs j
  split
  · simp [never_when, not_never_onSession hs]
  split
  · cases prm.isArray with
    | false => simp [never_when]
    | true =>
      rw [never_when, never_raise_bind rfl]
      cases prm.strIdx 0 with
      | error e => exact iff_of_true (by simp) (by simp)
      | ok enonce => simp [never_when, not_never_onSession hs]
  split
  · simp [never_when, not_never_onSession hs]
  refine iff_of_true ?_ (by simp)
  split
  · exact postDisconnect_tame.never_nullSession s
  split
  · exact (send_tame _).never_nullSession s
  · exact (send_tame _).never_nullSession s

theorem byMode_safe_iff (hc : s.conn = some a) (m n : M Unit) :
    Never .nullSession (byMode m n) s ↔
      if (s.uris a).stratumMode ≠ CORESTRATUM2 then Never .nullSession m s else Never .nullSession n s := by
  simp only [Never, byMode, wp_bind, wp_getConn, hc, wp_ite]

theorem subscribeReply_safe_iff (hs : s.session = none) (hc : s.conn = some a) (result : Json) :
    Never .nullSession (subscribeReply E result) s ↔
      ¬ ((s.uris a).stratumMode = CORESTRATUM2 ∧ (textOf result).isSome = true) := by
  rw [subscribeReply, never_getConn_bind hc, never_when, not_and]
  refine imp_congr_right fun _ => ?_
  rw [Never, wp_bind, wp_dequeueResponsePlea]
  cases textOf result with
  | none => exact iff_of_true (abandon_tame.never_nullSession _) (by simp)
  | some sessionId => simp [onSession, hs]

theorem authorizeReply_not_safe (hs : s.session = none) (h : Header) (result : Json) :
    ¬ Never .nullSession (authorizeReply h result) s := by
  simp [Never, authorizeReply, wp_dequeueResponsePlea, onSession, hs]

theorem authorizeReply2_safe_iff (hs : s.session = none) (h : Header) (result : Json) :
    Never .nullSession (authorizeReply2 h result) s ↔ ¬ (h.isSuccess = true ∧ (textOf result).isSome = true) := by
  simp only [Never, authorizeReply2, wp_bind, wp_dequeueResponsePlea]
  cases h.isSuccess with
  | false => exact iff_of_true (abandon_tame.never_nullSession _) (by simp)
  | true =>
    cases textOf result with
    | none => exact iff_of_true (abandon_tame.never_nullSession _) (by simp)
    | some workerId => simp [onSession, hs]

theorem reply_safe_iff (hs : s.session = none) (hc : s.conn = some a) (h : Header) (j result : Json) :
    Never .nullSession (reply E h j result) s ↔ answersSession (s.uris a).stratumMode h result = false := by
  rw [reply, Never, wp_bind, wp_get]
  show Never .nullSession _ s ↔ _
  unfold answersSession
  split
  · rename_i hid
    refine iff_of_true ((loginReply_tame h result).never_nullSession s) (by simp [hid])
  split
  · rw [subscribeReply_safe_iff hs hc]
    simp
  split
  · rw [byMode_safe_iff hc]
    split
    · rename_i hm
      simp [authorizeReply_not_safe hs, hm]
    · rename_i hm
      rw [authorizeReply2_safe_iff hs]
      simp [not_not.mp hm]
  refine iff_of_true ?_ rfl
  split
  · rw [byMode_safe_iff hc]
    split
    · exact (submitReply_tame h result).never_nullSession s
    · exact (submitReply2_tame h j).never_nullSession s
  · exact (Tame.when fun _ => strayReply_tame h).never_nullSession s

theorem notification_safe_iff (hs : s.session = none) (hc : s.conn = some a) (h : Header) (j : Json) :
    Never .nullSession (notification E h j) s ↔ ((s.uris a).stratumModeConfirmed = true →
      ∀ prm, j.get "params" .null = .ok prm → setsSession (s.uris a).stratumMode h.method prm ≠ .ok true) := by
  rw [notification, never_getConn_bind hc, never_when, dispatch_safe_iff hs]

/-- A reply, and the job it may go on as. -/
theorem response_safe_iff (hs : s.session = none) (hc : s.conn = some a) (h : Header) (j : Json)
    {f : Option Header → M Unit}
    (hnone : f none = pure ()) (hsome : ∀ h, f (some h) = notification E h j) :
    Never .nullSession (response E h j >>= f) s ↔
      ∀ result, j.get "result" .null = .ok result → answersSession (s.uris a).stratumMode h result = false := by
  rw [response, bind_assoc, never_raise_bind rfl]
  refine forall_congr' fun result => imp_congr_right fun _ => ?_
  split
  · rename_i hid
    refine iff_of_true ?_ (by simp [answersSession, hid])
    rw [getWorkReply, bind_assoc, never_getConn_bind hc, pure_bind]
    split
    · rw [hsome, notification_safe_iff hs hc]
      simp [setsSession]
    · rw [hnone]
      exact trivial
  · rw [bind_assoc, ← reply_safe_iff (E := E) hs hc h j result]
    simp only [Never, wp_bind, wp_pure, hnone]

/-- What the branches on `m_session` need of a message with these essential values. -/
def Avoids (u : Uri) (h : Header) (j : Json) : Prop :=
  invalid h j = .ok false →
    if h.isNotification then u.stratumModeConfirmed = true →
      ∀ prm, j.get "params" .null = .ok prm → setsSession u.stratumMode h.method prm ≠ .ok true
    else ∀ result, j.get "result" .null = .ok result → answersSession u.stratumMode h result = false

theorem usesSession_ne_iff {u : Uri} {h : Header} {j : Json} (hr : retrieve j = .ok h) :
    usesSession u j ≠ .ok true ↔ Avoids u h j := by
  simp only [usesSession, Avoids, hr, bind, Except.bind, pure, Except.pure]
  cases invalid h j with
  | error e => simp
  | ok b =>
    cases b with
    | true => simp
    | false =>
      cases h.isNotification with
      | false => cases j.get "result" .null <;> simp
      | true => cases u.stratumModeConfirmed <;> cases j.get "params" .null <;> simp

/-- Taking a message for a job changes nothing about that. -/
theorem avoids_notify {u : Uri} {h : Header} {j : Json} (hm : h.method = "") :
    Avoids u { h with method := "mining.notify" } j ↔ Avoids u h j := by
  simp [Avoids, invalid, setsSession, answersSession, hm]

theorem handle_safe_iff (hs : s.session = none) (hc : s.conn = some a) (h : Header) (j : Json) :
    Never .nullSession (handle E h j) s ↔ Avoids (s.uris a) h j := by
  rw [handle, never_raise_bind rfl, Avoids]
  cases invalid h j with
  | error e => simp
  | ok b =>
    cases b with
    | true => exact iff_of_true (fun _ hb => by cases hb; exact postDisconnect_tame.never_nullSession s) nofun
    | false =>
      simp only [Except.ok.injEq, forall_eq', Bool.false_eq_true, if_false, forall_const]
      cases h.isNotification with
      | true => exact notification_safe_iff hs hc h j
      | false => exact response_safe_iff hs hc h j rfl fun _ => rfl

theorem processResponse_safe_iff_of_none (hs : s.session = none) (hc : s.conn = some a) (j : Json) :
    Never .nullSession (processResponse E j) s ↔ usesSession (s.uris a) j ≠ .ok true := by
  rw [processResponse, never_raise_bind rfl]
  cases hr : retrieve j with
  | error e => exact iff_of_true nofun (by simp [usesSession, hr, bind, Except.bind])
  | ok h =>
    rw [usesSession_ne_iff hr]
    simp only [Except.ok.injEq, forall_eq']
    rw [never_asGetWork_bind rfl hc]
    split
    · rename_i hn
      have hmethod : h.method = "" := by simp at hn; exact hn.2
      have hsame (result : Json) : Never .nullSession (handle E (if (s.uris a).stratumMode = ETHPROXY && result.isArray
          then { h with method := "mining.notify" } else h) j) s ↔ Avoids (s.uris a) h j := by
        rw [handle_safe_iff hs hc]
        split
        · exact avoids_notify hmethod
        · rfl
      simp only [hsame]
      refine ⟨fun havoids hi => ?_, fun havoids _ _ => havoids⟩
      obtain ⟨result, hresult⟩ := invalid_ok hi
      exact havoids result hresult hi
    · exact handle_safe_iff hs hc h j

end NoSession

/-- A message does not follow a null `m_session` exactly when it does not use it or there is one. -/
theorem processResponse_safe_iff {s : St} {a : Nat} (hc : s.conn = some a) (j : Json) :
    Never .nullSession (processResponse E j) s ↔ (usesSession (s.uris a) j = .ok true → s.session.isSome = true) := by
  cases hs : s.session with
  | some x => exact iff_of_true ((processResponse_tame j).never_nullSession_of_session (by simp [hs])) fun _ => rfl
  | none => simpa using processResponse_safe_iff_of_none hs hc j

/-! ## Any sequence of messages -/

def receive (E : Env) (js : List Json) : M Unit :=
  forM js fun j => catching Stop.isStd (processResponse E j) (pure ())

theorem receive_tame (js : List Json) : Tame ⟨true, true⟩ (receive E js) :=
  .forM (fun j => .catching (processResponse_tame j) (.pure _)) js

/-- On a connection, whatever was received before, the pool's messages are never followed
    into a null `m_session` exactly when each message that uses it comes after the session
    was started. -/
theorem sessionSafe_iff {s : St} {a : Nat} (hc : s.conn = some a) (js : List Json) :
    Never .nullSession (receive E js) s ↔ ∀ pre j post t, js = pre ++ j :: post → (receive E pre).exec s = (.ok (), t) →
      usesSession (t.uris a) j = .ok true → t.session.isSome = true := by
  unfold Never receive
  rw [wp_forM_iff]
  refine forall₄_congr fun pre j post t => imp_congr_right fun _ => forall_congr' fun ht => ?_
  have hconn : t.conn = some a := by
    rw [← hc]
    exact ((wp_iff_exec.mp ((receive_tame pre).from_ s)).1 _ t ht).conn
  rw [wp_catching, ← processResponse_safe_iff (E := E) hconn j]
  unfold Never wp
  rcases (processResponse E j).exec t with ⟨x | _, u⟩
  · cases x <;> simp [Stop.isStd]
  · rfl

def setDifficultyMessage : Json :=
  .obj [("id", .null), ("method", .str "mining.set_difficulty"), ("params", .arr [.str "2"])]

/-- The same message to a client that has logged in to a CoreStratum/1.0.0 pool. -/
theorem set_difficulty_after_login :
    let s : St := { uris := fun _ => (plainUri CORESTRATUM).setStratumMode CORESTRATUM true
                    conn := some 0, session := some { start := 0, lastTxStamp := 0 } }
    ∀ pre j post t, [setDifficultyMessage] = pre ++ j :: post → (receive (tableEnv []) pre).exec s = (.ok (), t) →
      usesSession (t.uris 0) j = .ok true → t.session.isSome = true :=
  (sessionSafe_iff rfl _).mp (by decide +kernel)

/-- Of a scheme that fixes CoreStratum/1.0.0 the mode is confirmed as soon as the socket
    connects. A pool that sets the difficulty before it answers the login stops the client. -/
theorem set_difficulty_before_login :
    ∃ s, Reach (tableEnv []) s ∧ s.isConnected = true ∧ s.conn = some 0 ∧
      ¬ Never .nullSession (receive (tableEnv []) [setDifficultyMessage]) s :=
  reach_of_trace (tableEnv []) (fun _ => plainUri_fresh CORESTRATUM (.inl (by decide))) connectTrace (by decide +kernel)

end CoreMiner.Stratum
