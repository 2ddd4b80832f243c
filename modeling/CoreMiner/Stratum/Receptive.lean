/-
  CoreMiner.Stratum.Receptive — relations that processing messages keeps
  (`XcbStratumClient.cpp`: `processResponse`, `onRecvSocketDataCompleted`).

  What a message can do is little: it changes what the client remembers of its session, its
  job and its pleas (`Inner`), sends a request, posts a `disconnect`, marks the URI, reports
  on a share, or confirms the mode at hand and starts a session (`welcomed`). A relation
  that holds of each of these is `Receptive`; it is kept by every branch of
  `processResponse` and so by a whole transmission.
-/

import CoreMiner.Stratum.Lenient

namespace CoreMiner.Stratum

open DevCore EthCore Lib Prog

variable {E : Env} {s t : St} {a : Nat}

/-- Only what is remembered of the session, the job and the pleas changes; a session stays. -/
def Inner (s t : St) : Prop :=
  ∃ session current currentTimestamp authpending newjobprocessed pleas message,
    session.isSome = s.session.isSome ∧
    t = { s with session, current, currentTimestamp, authpending, newjobprocessed, pleas, message }

def St.welcomed (s : St) (a : Nat) : St := { s.updateUri a fun u => u.setStratumMode u.stratumMode true with
  session := some { start := s.now, lastTxStamp := s.now }
  currentTimestamp := s.now
  log := .onConnected :: s.log }

def Out.verdictOn : Out → Option Nat
  | onSolutionAccepted _ miner _ | onSolutionRejected _ miner => some miner
  | _ => none

/-- A relation that holds of whatever a message does, but for the stops that `c` leaves out. -/
structure Receptive (E : Env) (c : Stop → Bool) (R : St → St → Prop) : Prop extends Along R where
  caught : ∀ x, Stop.isStd x = true → c x = true
  inner : ∀ s t, Inner s t → R s t
  sends : ∀ jReq, KeepsIf c R (send E jReq)
  posts : ∀ s, R s (s.push .disconnect)
  marks : ∀ s a, R s (s.updateUri a Uri.markUnrecoverable)
  replies : ∀ (s : St) o i, Out.verdictOn o = some i → i + 40 ≤ s.solutionSubmittedMaxId →
    R s { s with log := o :: s.log }
  welcomes : ∀ s a, s.conn = some a → R s (s.welcomed a)

section

variable {c : Stop → Bool} {R : St → St → Prop}

/-! ## Rules -/

namespace Receptive

variable {α β : Type} (h : Receptive E c R)

include h

theorem pure (x : α) : KeepsIf c R (Pure.pure x : M α) := KeepsIf.pure h.refl x

theorem bind {m : M α} {f : α → M β} (hm : KeepsIf c R m) (hf : ∀ x, KeepsIf c R (f x)) : KeepsIf c R (m >>= f) :=
  KeepsIf.bind h.trans hm hf

theorem get_bind {f : St → M α} (hf : ∀ s, KeepsIf c R (f s)) : KeepsIf c R (get >>= f) :=
  h.bind (KeepsIf.get h.refl) hf

theorem when {p : Prop} [Decidable p] {m : M Unit} (hm : p → KeepsIf c R m) : KeepsIf c R (when p m) :=
  KeepsIf.ite hm fun _ => h.pure ()

theorem raise (e : Except StdException α) : KeepsIf c R (raise e : M α) := by
  cases e with
  | error x => exact KeepsIf.throw h.refl _
  | ok x => exact h.pure x

theorem getConn : KeepsIf c R getConn := by
  refine ⟨fun s => wp_getConn.mpr ?_⟩
  cases s.conn with
  | none => exact fun _ => h.refl s
  | some a => exact h.refl s

theorem modify {f : St → St} (hf : ∀ s, Inner s (f s)) : KeepsIf c R (modify f) :=
  KeepsIf.modify fun s => h.inner s _ (hf s)

end Receptive

theorem onSession_told (h : Receptive E c R) {α : Type} (m : Prog Session Stop α) : KeepsIf c R (onSession m) := by
  refine ⟨fun s => ?_⟩
  rw [onSession, wp_bind, wp_get]
  cases hs : s.session with
  | none => exact fun _ => h.refl s
  | some session =>
    have hinner : ∀ x, R s { s with session := some x } := fun x =>
      h.inner s _ ⟨_, _, _, _, _, _, _, by rw [hs]; rfl, rfl⟩
    exact wp_zoom.mpr (wp_iff_exec.mpr ⟨fun _ _ _ => hinner _, fun _ _ _ _ => hinner _⟩)

theorem onCurrent_told (h : Receptive E c R) {α : Type} (m : Prog WorkPackage Stop α) : KeepsIf c R (onCurrent m) := by
  have hinner : ∀ (s : St) (w : WorkPackage), R s { s with current := w } := fun s w =>
    h.inner s _ ⟨_, _, _, _, _, _, _, rfl, rfl⟩
  exact ⟨fun s => wp_zoom.mpr (wp_iff_exec.mpr ⟨fun _ _ _ => hinner s _, fun _ _ _ _ => hinner s _⟩)⟩

theorem authpending_told (h : Receptive E c R) (b : Bool) : KeepsIf c R (modify fun s => { s with authpending := b }) :=
  h.modify fun _ => ⟨_, _, _, _, _, _, _, rfl, rfl⟩

theorem enqueueResponsePlea_told (h : Receptive E c R) : KeepsIf c R enqueueResponsePlea :=
  h.modify fun _ => ⟨_, _, _, _, _, _, _, rfl, rfl⟩

theorem dequeueResponsePlea_told (h : Receptive E c R) : KeepsIf c R dequeueResponsePlea :=
  h.get_bind fun _ => h.bind (h.modify fun _ => ⟨_, _, _, _, _, _, _, rfl, rfl⟩) fun _ => h.pure _

theorem postDisconnect_told (h : Receptive E c R) : KeepsIf c R (post .disconnect) := KeepsIf.modify h.posts

theorem mark_told (h : Receptive E c R) : KeepsIf c R (modifyConn Uri.markUnrecoverable) := by
  refine ⟨fun s => ?_⟩
  rw [wp_modifyConn]
  cases s.conn with
  | none => exact fun _ => h.refl s
  | some a => exact h.marks s a

/-! ## Replies -/

theorem abandon_told (h : Receptive E c R) : KeepsIf c R abandon := h.bind (mark_told h) fun _ => postDisconnect_told h

theorem refuse_told (h : Receptive E c R) : KeepsIf c R refuse :=
  h.bind h.getConn fun _ => h.bind (h.when fun _ => mark_told h) fun _ => postDisconnect_told h

/-- The four flavours of an accepted login start alike. -/
theorem wp_welcome {mode : Nat} {β : Type} {f : Unit → M β} {Q : β → St → Prop} {X : Stop → St → Prop}
    (hc : s.conn = some a) (hm : (s.uris a).stratumMode = mode) :
    wp (modifyConn (·.setStratumMode mode true) >>= fun _ => startSession >>= f) Q X s ↔
      wp (f ()) Q X (s.welcomed a) := by
  have hsame : s.updateUri a (·.setStratumMode mode true) = s.updateUri a
      fun u => u.setStratumMode u.stratumMode true := by
    rw [St.updateUri, St.updateUri, hm]
  rw [wp_bind, wp_modifyConn_some hc, hsame, wp_bind, startSession, wp_bind, wp_modify, emit, wp_modify]
  exact Iff.rfl

theorem welcome_told (h : Receptive E c R) {mode : Nat} {β : Type} {f : Unit → M β} (hc : s.conn = some a)
    (hm : (s.uris a).stratumMode = mode) (hf : KeepsIf c R (f ())) :
    wp (modifyConn (·.setStratumMode mode true) >>= fun _ => startSession >>= f) (fun _ t => R s t)
      (fun x t => c x = true → R s t) s := by
  have hwelcome := h.welcomes s a hc
  exact (wp_welcome hc hm).mpr (wp_mono (hf.from_ _) (fun _ t ht => h.trans _ _ _ hwelcome ht)
    fun _ t ht hx => h.trans _ _ _ hwelcome (ht hx))

theorem loginFor_told (h : Receptive E c R) (hc : s.conn = some a) (hd : Header) (result : Json) :
    wp (loginFor E (s.uris a).stratumMode hd result) (fun _ t => R s t) (fun x t => c x = true → R s t) s := by
  have hrefused : KeepsIf c R (do refuse; return (none : Option Json)) := h.bind (refuse_told h) fun _ => h.pure _
  unfold loginFor
  split
  case h_1 hm =>
    rw [loginCoreStratum2, wp_bind, wp_raise]
    rcases acceptsHello result with x | accepted
    · exact fun _ => h.refl s
    · cases accepted with
      | false => exact hrefused.from_ s
      | true => exact welcome_told h hc hm (h.bind (enqueueResponsePlea_told h) fun _ => h.pure _)
  case h_2 hm =>
    rw [loginCoreStratum, wp_bind, wp_raise]
    rcases acceptsSubscribe result with x | accepted
    · exact fun _ => h.refl s
    · cases accepted with
      | false => exact hrefused.from_ s
      | true =>
        exact welcome_told h hc hm <| h.bind (onSession_told h _) fun _ => h.bind (h.sends _) fun _ =>
          h.bind (h.raise _) fun _ => h.bind (h.when fun _ => onSession_told h _) fun _ =>
          h.bind (authpending_told h true) fun _ => h.bind h.getConn fun _ =>
          h.bind (enqueueResponsePlea_told h) fun _ => h.pure _
  case h_3 hm =>
    cases hd.isSuccess with
    | false => exact hrefused.from_ s
    | true => exact welcome_told h hc hm (h.bind (onSession_told h _) fun _ => h.pure _)
  case h_4 hm =>
    cases hd.isSuccess with
    | false => exact hrefused.from_ s
    | true =>
      exact welcome_told h hc hm <| h.bind (onSession_told h _) fun _ => h.bind (authpending_told h true) fun _ =>
        h.bind h.getConn fun _ => h.bind (enqueueResponsePlea_told h) fun _ => h.pure _
  case h_5 => exact h.refl s

theorem loginReply_told (h : Receptive E c R) (hd : Header) (result : Json) : KeepsIf c R (loginReply E hd result) := by
  refine h.bind (dequeueResponsePlea_told h) fun _ => ⟨fun s => ?_⟩
  rw [wp_bind, wp_getConn]
  cases hc : s.conn with
  | none => exact fun _ => h.refl s
  | some a =>
    show wp (if _ then _ else _) _ _ s
    split
    · exact (postDisconnect_told h).from_ s
    · refine KeepsIf.bind_at h.trans (loginFor_told h hc hd result) fun jReq => ?_
      cases jReq with
      | none => exact h.pure _
      | some jReq => exact h.sends jReq

theorem subscribeReply_told (h : Receptive E c R) (result : Json) : KeepsIf c R (subscribeReply E result) := by
  refine h.bind h.getConn fun u => h.when fun _ => h.bind (dequeueResponsePlea_told h) fun _ => ?_
  cases textOf result with
  | none => exact abandon_told h
  | some sessionId =>
    exact h.bind (onSession_told h _) fun _ => h.bind (authpending_told h true) fun _ => h.bind h.getConn fun _ =>
      h.bind (enqueueResponsePlea_told h) fun _ => h.sends _

theorem authorizeReply_told (h : Receptive E c R) (hd : Header) (result : Json) :
    KeepsIf c R (authorizeReply hd result) :=
  h.bind (dequeueResponsePlea_told h) fun _ => h.bind (authpending_told h false) fun _ =>
    h.bind (onSession_told h _) fun _ => h.get_bind fun _ => h.when fun _ => abandon_told h

theorem authorizeReply2_told (h : Receptive E c R) (hd : Header) (result : Json) :
    KeepsIf c R (authorizeReply2 hd result) := by
  refine h.bind (dequeueResponsePlea_told h) fun _ => ?_
  split
  · exact abandon_told h
  · exact h.bind (authpending_told h false) fun _ => onSession_told h _

/-- A verdict names a miner that has submitted. -/
theorem verdict_told (h : Receptive E c R) {u : St} (hu : R u s) {hd : Header}
    (hid : 40 ≤ hd.id ∧ hd.id ≤ s.solutionSubmittedMaxId) (accepted : Bool) (delay : Nat) (stale : Bool) :
    wp (if accepted then emit (.onSolutionAccepted delay (hd.id - 40) stale) else emit
      (.onSolutionRejected delay (hd.id - 40)))
      (fun _ t => R u t) (fun x t => c x = true → R u t) s := by
  rw [wp_ite]
  split
  · exact wp_modify.mpr (h.trans _ _ _ hu (h.replies s _ (hd.id - 40) rfl (by omega)))
  · exact wp_modify.mpr (h.trans _ _ _ hu (h.replies s _ (hd.id - 40) rfl (by omega)))

theorem dequeued_told (h : Receptive E c R) (s : St) : R s { s with pleas := (s.pleas.dequeue s.now).2 } :=
  h.inner s _ ⟨_, _, _, _, _, _, _, rfl, rfl⟩

theorem submitReply_told (h : Receptive E c R) {hd : Header} (hid : 40 ≤ hd.id ∧ hd.id ≤ s.solutionSubmittedMaxId)
    (result : Json) : wp (submitReply hd result) (fun _ t => R s t) (fun x t => c x = true → R s t) s := by
  rw [submitReply, wp_bind, wp_dequeueResponsePlea]
  exact verdict_told h (dequeued_told h s) hid _ _ _

theorem submitReply2_told (h : Receptive E c R) {hd : Header}
    (hid : 40 ≤ hd.id ∧ hd.id ≤ s.solutionSubmittedMaxId) (j : Json) :
    wp (submitReply2 hd j) (fun _ t => R s t) (fun x t => c x = true → R s t) s := by
  rw [submitReply2, wp_bind, wp_dequeueResponsePlea, wp_bind, wp_raise]
  cases isStale hd j with
  | error x => exact fun _ => dequeued_told h s
  | ok stale => exact verdict_told h (dequeued_told h s) hid _ _ _

theorem byMode_told (h : Receptive E c R) {m n : M Unit} (hm : KeepsIf c R m) (hn : KeepsIf c R n) :
    KeepsIf c R (byMode m n) :=
  h.bind h.getConn fun _ => KeepsIf.ite (fun _ => hm) fun _ => hn

theorem strayReply_told (h : Receptive E c R) (hd : Header) : KeepsIf c R (strayReply hd) :=
  h.when fun _ => h.bind h.getConn fun _ => h.get_bind fun _ => h.when fun _ => postDisconnect_told h

theorem reply_told (h : Receptive E c R) (hd : Header) (j result : Json) : KeepsIf c R (reply E hd j result) := by
  refine ⟨fun s => ?_⟩
  rw [reply, wp_bind, wp_get, wp_ite, wp_ite, wp_ite, wp_ite]
  split
  · exact (loginReply_told h hd result).from_ s
  split
  · exact (subscribeReply_told h result).from_ s
  split
  · exact (byMode_told h (authorizeReply_told h hd result) (authorizeReply2_told h hd result)).from_ s
  split
  · rename_i hid
    rw [byMode, wp_bind, wp_getConn]
    cases hc : s.conn with
    | none => exact fun _ => h.refl s
    | some a =>
      show wp (if _ then _ else _) _ _ s
      split
      · exact submitReply_told h hid result
      · exact submitReply2_told h hid j
  · exact (h.when fun _ => strayReply_told h hd).from_ s

theorem response_told (h : Receptive E c R) (hd : Header) (j : Json) : KeepsIf c R (response E hd j) :=
  h.bind (h.raise _) fun result => KeepsIf.ite (fun _ => h.bind h.getConn fun _ => h.pure _) fun _ =>
    h.bind (reply_told h hd j result) fun _ => h.pure _

/-! ## Notifications -/

theorem signalJob_told (h : Receptive E c R) : KeepsIf c R signalJob :=
  h.modify fun _ => ⟨_, _, _, _, _, _, _, rfl, rfl⟩

theorem notify_told (h : Receptive E c R) (u : Uri) (j : Json) : KeepsIf c R (notify u j) := by
  refine h.get_bind fun s => ?_
  cases s.session with
  | none => exact h.pure _
  | some session =>
    exact h.when fun _ => h.bind (h.raise _) fun _ => h.bind (h.raise _) fun _ => h.when fun _ =>
      h.bind (onCurrent_told h _) fun _ => h.when fun _ => signalJob_told h

theorem notify2_told (h : Receptive E c R) (j : Json) : KeepsIf c R (notify2 j) := by
  refine h.get_bind fun s => ?_
  cases s.session with
  | none => exact h.pure _
  | some session =>
    exact h.when fun _ => h.bind (h.raise _) fun _ => h.when fun _ =>
      h.bind (onCurrent_told h _) fun _ => signalJob_told h

theorem dispatch_told (h : Receptive E c R) (u : Uri) (hd : Header) (j : Json) : KeepsIf c R (dispatch E u hd j) :=
  h.bind (h.raise _) fun _ =>
    KeepsIf.ite (fun _ => KeepsIf.ite (fun _ => notify_told h u j) fun _ => notify2_told h j) fun _ =>
    KeepsIf.ite (fun _ => h.when fun _ => onSession_told h _) fun _ =>
    KeepsIf.ite (fun _ => h.when fun _ => h.bind (h.raise _) fun _ => h.when fun _ => onSession_told h _) fun _ =>
    KeepsIf.ite (fun _ => h.when fun _ => onSession_told h _) fun _ =>
    KeepsIf.ite (fun _ => postDisconnect_told h) fun _ => KeepsIf.ite (fun _ => h.sends _) fun _ => h.sends _

theorem notification_told (h : Receptive E c R) (hd : Header) (j : Json) : KeepsIf c R (notification E hd j) :=
  h.bind h.getConn fun u => h.when fun _ => dispatch_told h u hd j

theorem asGetWork_told (h : Receptive E c R) (hd : Header) (j : Json) : KeepsIf c R (asGetWork hd j) :=
  KeepsIf.ite (fun _ => h.bind h.getConn fun _ => h.bind (h.raise _) fun _ => h.pure _) fun _ => h.pure _

theorem handle_told (h : Receptive E c R) (hd : Header) (j : Json) : KeepsIf c R (handle E hd j) := by
  refine h.bind (h.raise _) fun _ => KeepsIf.ite (fun _ => postDisconnect_told h) fun _ =>
    KeepsIf.ite (fun _ => notification_told h hd j) fun _ => h.bind (response_told h hd j) fun hd' => ?_
  cases hd' with
  | none => exact h.pure _
  | some hd' => exact notification_told h hd' j

theorem processResponse_told (h : Receptive E c R) (j : Json) : KeepsIf c R (processResponse E j) :=
  h.bind (h.raise _) fun hd => h.bind (asGetWork_told h hd j) fun hd => handle_told h hd j

/-! ## Transmissions -/

theorem takeLine_told (h : Receptive E c R) (line : List Char) : KeepsIf c R (takeLine E line) := by
  refine h.bind (h.when fun _ => h.bind (h.raise _) fun j => ?_) fun _ =>
    h.modify fun _ => ⟨_, _, _, _, _, _, _, rfl, rfl⟩
  cases j with
  | none => exact h.pure _
  | some j => exact KeepsIf.catching h.trans h.caught (processResponse_told h j) (h.pure _)

theorem processTransmission_told (h : Receptive E c R) (rx : List Char) : KeepsIf c R (processTransmission E rx) := by
  refine ⟨fun s => wp_processTransmission.mpr ?_⟩
  have hstart : R s (s.receiving rx) := h.inner s _ ⟨_, _, _, _, _, _, _, rfl, rfl⟩
  have hlines : KeepsIf c R (consume E (Lines.lines '\n' (s.message ++ rx))) :=
    KeepsIf.forM h.refl h.trans (takeLine_told h) _
  exact wp_mono (hlines.from_ _) (fun _ t ht => h.trans _ _ _ hstart ht) fun _ t ht hx => h.trans _ _ _ hstart (ht hx)

/-- A whole transmission: the job it signals is dispatched, and the next one is read. -/
theorem onRecvSocketDataCompleted_told (h : Receptive E c R)
    (hwork : ∀ (s : St) (wp : WorkPackage), R s { s with log := .onWorkReceived wp :: s.log })
    (hread : ∀ s : St, R s { s with reads := s.reads + 1 }) (rx : List Char) :
    KeepsIf c R (onRecvSocketDataCompleted E (some rx)) := by
  refine h.bind (processTransmission_told h rx) fun _ => h.get_bind fun s => ?_
  refine h.bind (h.when fun _ => onWorkReceived_keepsIf fun s => hwork s _) fun _ => h.when fun _ => ?_
  refine h.bind ⟨fun s => ?_⟩ fun _ => KeepsIf.modify hread
  rw [wp_stream]
  cases s.conn with
  | none => exact fun _ => h.refl s
  | some a => cases s.hasStream (s.uris a) <;> simp [h.refl s]

end

end CoreMiner.Stratum
