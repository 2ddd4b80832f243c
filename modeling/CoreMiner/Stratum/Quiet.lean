/-
  CoreMiner.Stratum.Quiet — what the messages other than jobs do not look at.

  `Overlay` is the part of the state that belongs to jobs and to the line loop: `m_current`,
  the two variables of a signalled job, the buffer, the reads under way, and what was
  observed before. A message that is no job neither reads nor writes it: running it commutes
  with laying any overlay over the state (`Quiet`). So it leaves `m_current` alone, and two
  clients that differ in the overlay only stay in step.
-/

import CoreMiner.Stratum.Receive

namespace CoreMiner.Stratum

open DevCore EthCore Lib Prog

variable {E : Env}

structure Overlay where
  current : WorkPackage
  newjobprocessed : Bool
  message : List Char
  reads : Nat
  /-- What was observed before, newest first. -/
  log : List Out
  /-- A job was signalled at the present time. -/
  signalled : Bool

def Overlay.put (o : Overlay) (s : St) : St := { s with
  current := o.current
  newjobprocessed := o.newjobprocessed
  message := o.message
  reads := o.reads
  log := s.log ++ o.log
  currentTimestamp := if o.signalled then s.now else s.currentTimestamp }

def St.overlay (s : St) : Overlay := ⟨s.current, s.newjobprocessed, s.message, s.reads, [], false⟩

@[simp] theorem St.overlay_put (s : St) : s.overlay.put s = s := by
  simp [St.overlay, Overlay.put]

def Quiet {α : Type} (m : M α) : Prop := Steady Overlay.put m

section Quiet

variable {α β : Type}

theorem Quiet.bind {m : M α} {f : α → M β} (hm : Quiet m) (hf : ∀ a, Quiet (f a)) : Quiet (m >>= f) :=
  Steady.bind hm hf

theorem Quiet.pure (a : α) : Quiet (Pure.pure a : M α) := Steady.pure a

theorem Quiet.ite {p : Prop} [Decidable p] {m n : M α} (hm : p → Quiet m) (hn : ¬ p → Quiet n) :
    Quiet (if p then m else n) := Steady.ite hm hn

theorem Quiet.when {p : Prop} [Decidable p] {m : M Unit} (hm : p → Quiet m) : Quiet (when p m) := Steady.when hm

theorem Quiet.modify {f : St → St} (h : ∀ o s, f (Overlay.put o s) = o.put (f s)) : Quiet (modify f) :=
  Steady.modify h

theorem Quiet.get_bind {f : St → M α} (h : ∀ o s, f (Overlay.put o s) = f s) (hf : ∀ s, Quiet (f s)) :
    Quiet (get >>= f) := Steady.get_bind h hf

theorem raise_quiet (e : Except StdException α) : Quiet (raise e : M α) := by
  cases e
  · exact Steady.throw _
  · exact .pure _

theorem getConn_quiet : Quiet getConn := by
  refine .get_bind (fun _ _ => rfl) fun s => ?_
  cases s.conn with
  | none => exact Steady.throw _
  | some a => exact .pure _

theorem modifyConn_quiet (f : Uri → Uri) : Quiet (modifyConn f) := by
  refine .get_bind (fun _ _ => rfl) fun s => ?_
  cases s.conn with
  | none => exact Steady.throw _
  | some a => exact .modify fun _ _ => rfl

theorem onSession_quiet (m : Prog Session Stop α) : Quiet (onSession m) := by
  refine .get_bind (fun _ _ => rfl) fun s => ?_
  cases s.session with
  | none => exact Steady.throw _
  | some session => exact Steady.zoom (k := Overlay.put) (fun _ _ => rfl) (fun _ _ _ => rfl) m

end Quiet

theorem post_quiet (h : Handler) : Quiet (post h) := .modify fun _ _ => rfl

theorem emit_quiet (o : Out) : Quiet (emit o) := .modify fun _ _ => rfl

theorem enqueueResponsePlea_quiet : Quiet enqueueResponsePlea := .modify fun _ _ => rfl

theorem dequeueResponsePlea_quiet : Quiet dequeueResponsePlea :=
  .get_bind (fun _ _ => rfl) fun _ => .bind (.modify fun _ _ => rfl) fun _ => .pure _

theorem stream_quiet : Quiet stream :=
  getConn_quiet.bind fun _ => .get_bind (fun _ _ => rfl) fun _ => .when fun _ => Steady.throw _

theorem sendSocketData_quiet : Quiet sendSocketData :=
  .get_bind (fun _ _ => rfl) fun _ => .ite (fun _ => .modify fun _ _ => rfl) fun _ =>
    .bind (.modify fun _ _ => rfl) fun _ => stream_quiet.bind fun _ => .modify fun _ _ => rfl

theorem send_quiet (jReq : Json) : Quiet (send E jReq) :=
  .bind (.modify fun _ _ => rfl) fun _ => .get_bind (fun _ _ => rfl) fun _ => .when fun _ =>
    .bind (.modify fun _ _ => rfl) fun _ => sendSocketData_quiet

/-! ## Replies -/

/-- The session's start is written over any signalled job's time. -/
theorem startSession_quiet : Quiet startSession := by
  refine .bind (.modify fun o s => ?_) fun _ => emit_quiet _
  cases ho : o.signalled <;> simp [Overlay.put, ho]

theorem abandon_quiet : Quiet abandon := (modifyConn_quiet _).bind fun _ => post_quiet _

theorem refuse_quiet : Quiet refuse :=
  getConn_quiet.bind fun _ => (Quiet.when fun _ => modifyConn_quiet _).bind fun _ => post_quiet _

theorem authpending_quiet (b : Bool) : Quiet (modify fun s => { s with authpending := b }) := .modify fun _ _ => rfl

theorem loginCoreStratum2_quiet (result : Json) : Quiet (loginCoreStratum2 result) :=
  (raise_quiet _).bind fun _ => .ite
    (fun _ => (modifyConn_quiet _).bind fun _ => startSession_quiet.bind fun _ =>
      enqueueResponsePlea_quiet.bind fun _ => .pure _)
    fun _ => refuse_quiet.bind fun _ => .pure _

theorem loginCoreStratum_quiet (result : Json) : Quiet (loginCoreStratum E result) :=
  (raise_quiet _).bind fun _ => .ite
    (fun _ => (modifyConn_quiet _).bind fun _ => startSession_quiet.bind fun _ => (onSession_quiet _).bind fun _ =>
      (send_quiet _).bind fun _ => (raise_quiet _).bind fun _ => (Quiet.when fun _ => onSession_quiet _).bind fun _ =>
      (authpending_quiet true).bind fun _ => getConn_quiet.bind fun _ =>
      enqueueResponsePlea_quiet.bind fun _ => .pure _)
    fun _ => refuse_quiet.bind fun _ => .pure _

theorem loginEthProxy_quiet (isSuccess : Bool) : Quiet (loginEthProxy isSuccess) :=
  .ite (fun _ => (modifyConn_quiet _).bind fun _ => startSession_quiet.bind fun _ =>
    (onSession_quiet _).bind fun _ => .pure _) fun _ => refuse_quiet.bind fun _ => .pure _

theorem loginStratum_quiet (isSuccess : Bool) : Quiet (loginStratum isSuccess) :=
  .ite (fun _ => (modifyConn_quiet _).bind fun _ => startSession_quiet.bind fun _ => (onSession_quiet _).bind fun _ =>
    (authpending_quiet true).bind fun _ => getConn_quiet.bind fun _ => enqueueResponsePlea_quiet.bind fun _ =>
    .pure _) fun _ => refuse_quiet.bind fun _ => .pure _

theorem loginFor_quiet (mode : Nat) (h : Header) (result : Json) : Quiet (loginFor E mode h result) := by
  unfold loginFor
  split
  · exact loginCoreStratum2_quiet result
  · exact loginCoreStratum_quiet result
  · exact loginEthProxy_quiet _
  · exact loginStratum_quiet _
  · exact .pure _

theorem loginReply_quiet (h : Header) (result : Json) : Quiet (loginReply E h result) := by
  refine dequeueResponsePlea_quiet.bind fun _ => getConn_quiet.bind fun u =>
    .ite (fun _ => post_quiet _) fun _ => (loginFor_quiet _ h result).bind fun jReq => ?_
  cases jReq with
  | none => exact .pure _
  | some jReq => exact send_quiet jReq

theorem subscribeReply_quiet (result : Json) : Quiet (subscribeReply E result) := by
  refine getConn_quiet.bind fun u => .when fun _ => dequeueResponsePlea_quiet.bind fun _ => ?_
  cases textOf result with
  | none => exact abandon_quiet
  | some sessionId =>
    exact (onSession_quiet _).bind fun _ => (authpending_quiet true).bind fun _ => getConn_quiet.bind fun _ =>
      enqueueResponsePlea_quiet.bind fun _ => send_quiet _

theorem authorizeReply_quiet (h : Header) (result : Json) : Quiet (authorizeReply h result) :=
  dequeueResponsePlea_quiet.bind fun _ => (authpending_quiet false).bind fun _ => (onSession_quiet _).bind fun _ =>
    .get_bind (fun _ _ => rfl) fun _ => .when fun _ => abandon_quiet

theorem authorizeReply2_quiet (h : Header) (result : Json) : Quiet (authorizeReply2 h result) := by
  refine dequeueResponsePlea_quiet.bind fun _ => ?_
  split
  · exact abandon_quiet
  · exact (authpending_quiet false).bind fun _ => onSession_quiet _

theorem submitReply_quiet (h : Header) (result : Json) : Quiet (submitReply h result) :=
  dequeueResponsePlea_quiet.bind fun _ => .ite (fun _ => emit_quiet _) fun _ => emit_quiet _

theorem submitReply2_quiet (h : Header) (j : Json) : Quiet (submitReply2 h j) :=
  dequeueResponsePlea_quiet.bind fun _ => (raise_quiet _).bind fun _ =>
    .ite (fun _ => emit_quiet _) fun _ => emit_quiet _

theorem strayReply_quiet (h : Header) : Quiet (strayReply h) :=
  .when fun _ => getConn_quiet.bind fun _ => .get_bind (fun _ _ => rfl) fun _ => .when fun _ => post_quiet _

theorem byMode_quiet {m n : M Unit} (hm : Quiet m) (hn : Quiet n) : Quiet (byMode m n) :=
  getConn_quiet.bind fun _ => .ite (fun _ => hm) fun _ => hn

theorem reply_quiet (h : Header) (j result : Json) : Quiet (reply E h j result) :=
  .get_bind (fun _ _ => rfl) fun _ => .ite (fun _ => loginReply_quiet h result) fun _ =>
    .ite (fun _ => subscribeReply_quiet result) fun _ =>
    .ite (fun _ => byMode_quiet (authorizeReply_quiet h result) (authorizeReply2_quiet h result)) fun _ =>
    .ite (fun _ => byMode_quiet (submitReply_quiet h result) (submitReply2_quiet h j)) fun _ =>
    .when fun _ => strayReply_quiet h

/-! ## Notifications other than jobs -/

theorem dispatch_quiet {h : Header} (hm : h.method ≠ "mining.notify") (u : Uri) (j : Json) : Quiet (dispatch E u h j) :=
  (raise_quiet _).bind fun _ => .ite (fun h => absurd h hm) fun _ =>
    .ite (fun _ => .when fun _ => onSession_quiet _) fun _ =>
    .ite (fun _ => .when fun _ => (raise_quiet _).bind fun _ => .when fun _ => onSession_quiet _) fun _ =>
    .ite (fun _ => .when fun _ => onSession_quiet _) fun _ =>
    .ite (fun _ => post_quiet _) fun _ => .ite (fun _ => send_quiet _) fun _ => send_quiet _

end CoreMiner.Stratum
