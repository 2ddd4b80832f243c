/-
  CoreMiner.Stratum.Frame — what processing a message leaves alone.

  `processResponse` never touches the connection itself: the flags, the socket, the timer
  and the operations under way stay as they are, and all it queues is `disconnect`. Of a
  URI it changes only that its mode becomes confirmed and that it becomes unrecoverable.
  A session, once there, stays. And a null pointer it follows was null before the message
  (`Blame`), so a client with a session is only stopped by exceptions. Everything the other
  modules need to know about the many branches of `processResponse` is
  `processResponse_tame`.
-/

import CoreMiner.Stratum.Receive

namespace CoreMiner.Stratum

open DevCore EthCore Lib Prog

variable {E : Env}

structure Link where
  conn : Option Nat
  connected : Bool
  disconnecting : Bool
  connecting : Bool
  socket : Bool
  securesocket : Bool
  isOpen : Bool
  timer : Option Wait
  endpoints : List Nat
  resolves : Nat
  connects : Nat
  shutdowns : Nat
  now : Nat
  started : Bool
  stopping : Bool
  reconnectPending : Bool
  crashed : Option Stop

def St.link (s : St) : Link where
  conn := s.conn
  connected := s.connected
  disconnecting := s.disconnecting
  connecting := s.connecting
  socket := s.socket
  securesocket := s.securesocket
  isOpen := s.isOpen
  timer := s.timer
  endpoints := s.endpoints
  resolves := s.resolves
  connects := s.connects
  shutdowns := s.shutdowns
  now := s.now
  started := s.started
  stopping := s.stopping
  reconnectPending := s.reconnectPending
  crashed := s.crashed

def Out.isReply : Out → Bool
  | onConnected | onSolutionAccepted .. | onSolutionRejected .. => true
  | _ => false

/-- Only the two flags change, and only from false to true. -/
structure Uri.Processed (u v : Uri) : Prop where
  same : v = { u with stratumModeConfirmed := v.stratumModeConfirmed, unrecoverable := v.unrecoverable }
  confirmed : u.stratumModeConfirmed = true → v.stratumModeConfirmed = true
  unrecoverable : u.unrecoverable = true → v.unrecoverable = true

theorem Uri.Processed.refl (u : Uri) : u.Processed u := ⟨rfl, id, id⟩

theorem Uri.Processed.trans {u v w : Uri} (h : u.Processed v) (h' : v.Processed w) : u.Processed w where
  same := by rw [h'.same, h.same]
  confirmed := h'.confirmed ∘ h.confirmed
  unrecoverable := h'.unrecoverable ∘ h.unrecoverable

structure Processed (s t : St) : Prop where
  link : t.link = s.link
  message : t.message = s.message
  reads : t.reads = s.reads
  queue : ∃ n, t.queue = s.queue ++ List.replicate n .disconnect
  log : ∃ new, t.log = new ++ s.log ∧ ∀ o ∈ new, o.isReply = true
  uris : ∀ a, (s.uris a).Processed (t.uris a)
  session : s.session.isSome = true → t.session.isSome = true

namespace Processed

variable {s t u : St}

/-- The common case: nothing is queued or observed, and no URI changes. -/
theorem of_eq (hl : t.link = s.link) (hm : t.message = s.message) (hr : t.reads = s.reads)
    (hq : t.queue = s.queue) (hlog : t.log = s.log) (hu : t.uris = s.uris)
    (hs : s.session.isSome = true → t.session.isSome = true) : Processed s t where
  link := hl
  message := hm
  reads := hr
  queue := ⟨0, by simp [hq]⟩
  log := ⟨[], by simp [hlog]⟩
  uris a := hu ▸ .refl _
  session := hs

theorem refl (s : St) : Processed s s := of_eq rfl rfl rfl rfl rfl rfl id

theorem conn (h : Processed s t) : t.conn = s.conn := congrArg Link.conn h.link

theorem trans (s t u : St) (h : Processed s t) (h' : Processed t u) : Processed s u where
  link := h'.link.trans h.link
  message := h'.message.trans h.message
  reads := h'.reads.trans h.reads
  queue := by
    obtain ⟨m, hm⟩ := h.queue
    obtain ⟨n, hn⟩ := h'.queue
    exact ⟨m + n, by rw [hn, hm, List.append_assoc, List.replicate_append_replicate]⟩
  log := by
    obtain ⟨x, hx, hxr⟩ := h.log
    obtain ⟨y, hy, hyr⟩ := h'.log
    refine ⟨y ++ x, by rw [hy, hx, List.append_assoc], fun o ho => ?_⟩
    rcases List.mem_append.mp ho with ho | ho
    · exact hyr o ho
    · exact hxr o ho
  uris a := (h.uris a).trans (h'.uris a)
  session := h'.session ∘ h.session

end Processed

theorem St.updateUri_processed {s : St} {a : Nat} {f : Uri → Uri} (hf : (s.uris a).Processed (f (s.uris a))) :
    Processed s (s.updateUri a f) where
  link := rfl
  message := rfl
  reads := rfl
  queue := ⟨0, by simp [updateUri]⟩
  log := ⟨[], rfl, by simp⟩
  uris b := by
    unfold updateUri
    by_cases h : b = a
    · subst h
      simpa using hf
    · simpa [h] using .refl _
  session := id

theorem Uri.markUnrecoverable_processed (u : Uri) : u.Processed u.markUnrecoverable := ⟨rfl, id, fun _ => rfl⟩

/-- A mode that is confirmed is the one that was tried. -/
theorem Uri.setStratumMode_processed {u : Uri} {mode : Nat} (h : u.stratumMode = mode) :
    u.Processed (u.setStratumMode mode true) := ⟨by subst h; rfl, fun _ => rfl, id⟩

/-! ## Programs that only process -/

def St.hasStream (s : St) (u : Uri) : Bool := if u.secure then s.securesocket else s.socket

/-- Two faults that only some pieces have: a thrown pointer, and following `m_session`. -/
structure Faults where
  ptr : Bool
  session : Bool

/-- What in a state explains a stop: nothing is needed for an exception, the null pointer
    for following it. -/
def Blame (c : Faults) : Stop → St → Prop
  | .exception _, _ => True
  | .exceptionPtr, _ => c.ptr = true
  | .nullConn, s => s.conn = none
  | .nullSession, s => c.session = true ∧ s.session = none
  | .nullSocket, s => s.isConnected = true ∧ ∃ a, s.conn = some a ∧ s.hasStream (s.uris a) = false
  | .emptyEndpoints, _ => False

theorem Uri.Processed.secure {u v : Uri} (h : u.Processed v) : v.secure = u.secure := by
  rw [h.same]
  rfl

theorem Processed.blame {c : Faults} (x : Stop) (s t : St) (h : Processed s t) (hx : Blame c x t) : Blame c x s := by
  have hl := h.link
  cases x with
  | nullConn => exact (congrArg Link.conn hl).symm.trans hx
  | nullSession =>
    refine ⟨hx.1, ?_⟩
    cases hs : s.session with
    | none => rfl
    | some x => simpa [hx.2] using h.session (by simp [hs])
  | nullSocket =>
    obtain ⟨hconn, a, ha, hstream⟩ := hx
    have hsame : s.isConnected = t.isConnected ∧ s.conn = t.conn ∧ s.socket = t.socket ∧
        s.securesocket = t.securesocket := by
      simp only [St.isConnected, St.isPendingState, show t.connected = s.connected from congrArg Link.connected hl,
        show t.connecting = s.connecting from congrArg Link.connecting hl,
        show t.disconnecting = s.disconnecting from congrArg Link.disconnecting hl,
        show t.conn = s.conn from congrArg Link.conn hl, show t.socket = s.socket from congrArg Link.socket hl,
        show t.securesocket = s.securesocket from congrArg Link.securesocket hl, and_self]
    obtain ⟨h1, h2, h3, h4⟩ := hsame
    refine ⟨h1.trans hconn, a, h2.trans ha, ?_⟩
    rw [St.hasStream, h3, h4, ← (h.uris a).secure]
    exact hstream
  | _ => exact hx

def Tame {α : Type} (c : Faults) (m : M α) : Prop := Keeps Processed (Blame c) m

section Tame

variable {α β : Type} {c : Faults}

theorem Tame.bind {m : M α} {f : α → M β} (hm : Tame c m) (hf : ∀ a, Tame c (f a)) : Tame c (m >>= f) :=
  Keeps.bind Processed.trans Processed.blame hm hf

theorem Tame.bind_at {m : M α} {f : α → M β} {s : St}
    (hm : wp m (fun _ t => Processed s t) (fun x t => Processed s t ∧ Blame c x s) s) (hf : ∀ a, Tame c (f a)) :
    wp (m >>= f) (fun _ t => Processed s t) (fun x t => Processed s t ∧ Blame c x s) s :=
  Keeps.bind_at Processed.trans Processed.blame hm hf

theorem Tame.pure (a : α) : Tame c (Pure.pure a : M α) := Keeps.pure Processed.refl a

theorem Tame.get : Tame c (MonadState.get : M St) := Keeps.get Processed.refl

theorem Tame.ite {p : Prop} [Decidable p] {m n : M α} (hm : p → Tame c m) (hn : ¬ p → Tame c n) :
    Tame c (if p then m else n) := Keeps.ite hm hn

theorem Tame.when {p : Prop} [Decidable p] {m : M Unit} (hm : p → Tame c m) : Tame c (when p m) :=
  Keeps.when Processed.refl hm

theorem Tame.catching {p : Stop → Bool} {m h : M α} (hm : Tame c m) (hh : Tame c h) :
    Tame c (catching p m h) := Keeps.catching Processed.trans Processed.blame hm hh

theorem Tame.forM {f : β → M Unit} (hf : ∀ b, Tame c (f b)) (l : List β) : Tame c (forM l f) :=
  Keeps.forM Processed.refl Processed.trans Processed.blame hf l

theorem Tame.modify {f : St → St} (h : ∀ s, Processed s (f s)) : Tame c (modify f) := Keeps.modify h

theorem Blame.of_isThrown {x : Stop} (h : x.isThrown c.ptr = true) (s : St) : Blame c x s := by
  cases x <;> first | exact trivial | exact h | cases h

theorem raise_tame (e : Except StdException α) : Tame c (raise e : M α) := by
  cases e
  · exact Keeps.throw Processed.refl fun _ => trivial
  · exact .pure _

theorem getConn_tame : Tame c getConn := by
  refine ⟨fun s => ?_⟩
  rw [wp_getConn]
  cases hc : s.conn with
  | none => exact ⟨.refl s, hc⟩
  | some a => exact .refl s

theorem modifyConn_tame {f : Uri → Uri} (hf : ∀ u : Uri, u.Processed (f u)) : Tame c (modifyConn f) := by
  refine ⟨fun s => ?_⟩
  rw [wp_modifyConn]
  cases hc : s.conn with
  | none => exact ⟨.refl s, hc⟩
  | some a => exact St.updateUri_processed (hf _)

theorem onSession_tame {m : Prog Session Stop α} (hc : c.session = true) (hm : Throws c.ptr m) :
    Tame c (onSession m) := by
  refine ⟨fun s => ?_⟩
  simp only [onSession, wp_bind, wp_get]
  cases hs : s.session with
  | none => exact ⟨.refl s, hc, hs⟩
  | some x =>
    rw [wp_zoom]
    exact wp_mono (hm.from_ x) (fun _ _ _ => .of_eq rfl rfl rfl rfl rfl rfl fun _ => rfl)
      (fun _ _ h => ⟨.of_eq rfl rfl rfl rfl rfl rfl fun _ => rfl, .of_isThrown h.2 s⟩)

theorem onCurrent_tame {m : Prog WorkPackage Stop α} (hm : Throws c.ptr m) : Tame c (onCurrent m) :=
  Keeps.zoom (fun _ _ => .of_eq rfl rfl rfl rfl rfl rfl id) (fun _ s h => .of_isThrown h s) hm

theorem postDisconnect_tame : Tame c (post .disconnect) :=
  .modify fun _ => ⟨rfl, rfl, rfl, ⟨1, rfl⟩, ⟨[], rfl, by simp⟩, fun _ => .refl _, id⟩

theorem emit_tame {o : Out} (ho : o.isReply = true) : Tame c (emit o) :=
  .modify fun _ => ⟨rfl, rfl, rfl, ⟨0, by simp⟩, ⟨[o], rfl, by simpa using ho⟩, fun _ => .refl _, id⟩

end Tame

section

variable {c : Faults}

/-! ## Sending and the pleas -/

theorem enqueueResponsePlea_tame : Tame c enqueueResponsePlea :=
  .modify fun _ => .of_eq rfl rfl rfl rfl rfl rfl id

theorem dequeueResponsePlea_tame : Tame c dequeueResponsePlea :=
  Tame.get.bind fun _ => Tame.bind (Tame.modify fun _ => .of_eq rfl rfl rfl rfl rfl rfl id) fun _ => .pure _

theorem wp_stream {Q : Unit → St → Prop} {X : Stop → St → Prop} {s : St} :
    wp stream Q X s ↔ match s.conn with
      | none => X .nullConn s
      | some a => if s.hasStream (s.uris a) = false then X .nullSocket s else Q () s := by
  simp only [stream, wp_bind, wp_getConn, wp_get, wp_when, wp_throw]
  rfl

/-- The stream is used only while connected. -/
theorem sendSocketData_tame : Tame c sendSocketData := by
  refine ⟨fun s => ?_⟩
  simp only [sendSocketData, wp_bind, wp_get, wp_ite]
  split
  · exact .of_eq rfl rfl rfl rfl rfl rfl id
  · rename_i hcond
    simp only [wp_modify, wp_stream]
    have hconnected : s.isConnected = true := by
      cases h : s.isConnected
      · simp [h] at hcond
      · rfl
    split
    case h_1 hc => exact ⟨.of_eq rfl rfl rfl rfl rfl rfl id, hc⟩
    case h_2 a hc =>
      split
      case isTrue hstream => exact ⟨.of_eq rfl rfl rfl rfl rfl rfl id, hconnected, a, hc, hstream⟩
      case isFalse => exact .of_eq rfl rfl rfl rfl rfl rfl id

theorem send_tame (jReq : Json) : Tame c (send E jReq) := by
  refine Tame.bind (Tame.modify fun _ => .of_eq rfl rfl rfl rfl rfl rfl id) fun _ => Tame.get.bind fun s => ?_
  refine .when fun _ => Tame.bind (Tame.modify fun _ => .of_eq rfl rfl rfl rfl rfl rfl id) fun _ => ?_
  exact sendSocketData_tame

/-! ## Replies -/

theorem startSession_tame : Tame c startSession :=
  Tame.bind (Tame.modify fun _ => .of_eq rfl rfl rfl rfl rfl rfl fun _ => rfl) fun _ => emit_tame rfl

/-- From here on there is a session to follow. -/
theorem startSession_bind_tame {α : Type} {f : Unit → M α} (hf : ∀ x, Tame ⟨c.ptr, true⟩ (f x)) :
    Tame c (startSession >>= f) := by
  refine ⟨fun s => ?_⟩
  have hstart : wp startSession (fun _ t => Processed s t ∧ t.session.isSome = true) (fun _ _ => False) s :=
    ⟨(startSession_tame (c := c)).from_ s, rfl⟩
  rw [wp_bind]
  refine wp_mono hstart (fun x t ⟨hst, hsession⟩ => ?_) fun _ _ h => h.elim
  refine wp_mono ((hf x).from_ t) (fun _ u htu => .trans s t u hst htu) fun y u ⟨htu, hy⟩ => ?_
  refine ⟨.trans s t u hst htu, Processed.blame y s t hst ?_⟩
  cases y with
  | nullSession => simp [hy.2] at hsession
  | _ => exact hy

theorem abandon_tame : Tame c abandon :=
  (modifyConn_tame Uri.markUnrecoverable_processed).bind fun _ => postDisconnect_tame

theorem refuse_tame : Tame c refuse :=
  getConn_tame.bind fun _ =>
    (Tame.when fun _ => modifyConn_tame Uri.markUnrecoverable_processed).bind fun _ => postDisconnect_tame

theorem authpending_tame (b : Bool) : Tame c (modify fun s => { s with authpending := b }) :=
  .modify fun _ => .of_eq rfl rfl rfl rfl rfl rfl id

/-- Confirming the mode that was tried, and on with a tame program. -/
theorem confirm_processed {α : Type} {s : St} {a mode : Nat} (hc : s.conn = some a)
    (hm : (s.uris a).stratumMode = mode) {f : Unit → M α} (hf : ∀ x, Tame c (f x)) :
    wp (modifyConn (·.setStratumMode mode true) >>= f) (fun _ t => Processed s t)
      (fun x t => Processed s t ∧ Blame c x s) s := by
  refine Tame.bind_at ?_ hf
  rw [wp_modifyConn, hc]
  exact St.updateUri_processed (Uri.setStratumMode_processed hm)

theorem loginCoreStratum2_processed {s : St} {a : Nat} (hc : s.conn = some a)
    (hm : (s.uris a).stratumMode = CORESTRATUM2) (result : Json) :
    wp (loginCoreStratum2 result) (fun _ t => Processed s t) (fun x t => Processed s t ∧ Blame c x s) s := by
  rw [loginCoreStratum2, wp_bind, wp_raise]
  cases acceptsHello result with
  | error => exact ⟨.refl s, trivial⟩
  | ok b =>
    cases b with
    | false => exact (refuse_tame.bind fun _ => .pure _).from_ s
    | true =>
      exact confirm_processed hc hm fun _ =>
        startSession_tame.bind fun _ => enqueueResponsePlea_tame.bind fun _ => .pure _

theorem loginCoreStratum_processed {s : St} {a : Nat} (hc : s.conn = some a)
    (hm : (s.uris a).stratumMode = CORESTRATUM) (result : Json) :
    wp (loginCoreStratum E result) (fun _ t => Processed s t) (fun x t => Processed s t ∧ Blame c x s) s := by
  rw [loginCoreStratum, wp_bind, wp_raise]
  cases acceptsSubscribe result with
  | error => exact ⟨.refl s, trivial⟩
  | ok b =>
    cases b with
    | false => exact (refuse_tame.bind fun _ => .pure _).from_ s
    | true =>
      exact confirm_processed hc hm fun _ =>
        startSession_bind_tame fun _ => (onSession_tame rfl (.modify _)).bind fun _ => (send_tame _).bind fun _ =>
        (raise_tame _).bind fun _ => (Tame.when fun _ => onSession_tame rfl (processExtranonce_throws _)).bind fun _ =>
        (authpending_tame true).bind fun _ => getConn_tame.bind fun _ =>
        enqueueResponsePlea_tame.bind fun _ => .pure _

theorem loginEthProxy_processed {s : St} {a : Nat} (hc : s.conn = some a)
    (hm : (s.uris a).stratumMode = ETHPROXY) (isSuccess : Bool) :
    wp (loginEthProxy isSuccess) (fun _ t => Processed s t) (fun x t => Processed s t ∧ Blame c x s) s := by
  cases isSuccess with
  | false => exact (refuse_tame.bind fun _ => .pure _).from_ s
  | true =>
    exact confirm_processed hc hm fun _ =>
      startSession_bind_tame fun _ => (onSession_tame rfl (.modify _)).bind fun _ => .pure _

theorem loginStratum_processed {s : St} {a : Nat} (hc : s.conn = some a)
    (hm : (s.uris a).stratumMode = STRATUM) (isSuccess : Bool) :
    wp (loginStratum isSuccess) (fun _ t => Processed s t) (fun x t => Processed s t ∧ Blame c x s) s := by
  cases isSuccess with
  | false => exact (refuse_tame.bind fun _ => .pure _).from_ s
  | true =>
    exact confirm_processed hc hm fun _ =>
      startSession_bind_tame fun _ => (onSession_tame rfl (.modify _)).bind
        fun _ => (authpending_tame true).bind fun _ =>
      getConn_tame.bind fun _ => enqueueResponsePlea_tame.bind fun _ => .pure _

theorem loginFor_processed {s : St} {a : Nat} (hc : s.conn = some a) (h : Header) (result : Json) :
    wp (loginFor E (s.uris a).stratumMode h result) (fun _ t => Processed s t)
      (fun x t => Processed s t ∧ Blame c x s) s := by
  unfold loginFor
  split
  · exact loginCoreStratum2_processed hc ‹_› result
  · exact loginCoreStratum_processed hc ‹_› result
  · exact loginEthProxy_processed hc ‹_› _
  · exact loginStratum_processed hc ‹_› _
  · exact .refl s

theorem loginReply_tame (h : Header) (result : Json) : Tame c (loginReply E h result) := by
  refine dequeueResponsePlea_tame.bind fun _ => ⟨fun s => ?_⟩
  rw [wp_bind, wp_getConn]
  cases hc : s.conn with
  | none => exact ⟨.refl s, hc⟩
  | some a =>
    show wp (if _ then _ else _) _ _ s
    split
    · exact postDisconnect_tame.from_ s
    · refine Tame.bind_at (loginFor_processed hc h result) fun jReq => ?_
      cases jReq with
      | none => exact .pure _
      | some jReq => exact send_tame jReq

theorem subscribeReply_tame {ptr : Bool} (result : Json) : Tame ⟨ptr, true⟩ (subscribeReply E result) := by
  refine getConn_tame.bind fun u => .when fun _ => dequeueResponsePlea_tame.bind fun _ => ?_
  cases textOf result with
  | none => exact abandon_tame
  | some sessionId =>
    exact (onSession_tame rfl (.modify _)).bind fun _ => (authpending_tame true).bind
      fun _ => getConn_tame.bind fun _ =>
      enqueueResponsePlea_tame.bind fun _ => send_tame _

theorem authorizeReply_tame {ptr : Bool} (h : Header) (result : Json) : Tame ⟨ptr, true⟩ (authorizeReply h result) :=
  dequeueResponsePlea_tame.bind fun _ => (authpending_tame false).bind
    fun _ => (onSession_tame rfl (.modify _)).bind fun _ =>
    Tame.get.bind fun _ => .when fun _ => abandon_tame

theorem authorizeReply2_tame {ptr : Bool} (h : Header) (result : Json) :
    Tame ⟨ptr, true⟩ (authorizeReply2 h result) := by
  refine dequeueResponsePlea_tame.bind fun _ => ?_
  split
  · exact abandon_tame
  · exact (authpending_tame false).bind fun _ => onSession_tame rfl (.modify _)

theorem submitReply_tame (h : Header) (result : Json) : Tame c (submitReply h result) :=
  dequeueResponsePlea_tame.bind fun _ => Tame.ite (fun _ => emit_tame rfl) (fun _ => emit_tame rfl)

theorem submitReply2_tame (h : Header) (j : Json) : Tame c (submitReply2 h j) :=
  dequeueResponsePlea_tame.bind fun _ => (raise_tame _).bind fun _ =>
    Tame.ite (fun _ => emit_tame rfl) (fun _ => emit_tame rfl)

theorem strayReply_tame (h : Header) : Tame c (strayReply h) :=
  .when fun _ => getConn_tame.bind fun _ => Tame.get.bind fun _ => .when fun _ => postDisconnect_tame

theorem byMode_tame {m n : M Unit} (hm : Tame c m) (hn : Tame c n) : Tame c (byMode m n) :=
  getConn_tame.bind fun _ => Tame.ite (fun _ => hm) (fun _ => hn)

theorem reply_tame {ptr : Bool} (h : Header) (j result : Json) : Tame ⟨ptr, true⟩ (reply E h j result) :=
  Tame.get.bind fun _ => Tame.ite (fun _ => loginReply_tame h result) fun _ =>
    Tame.ite (fun _ => subscribeReply_tame result) fun _ =>
    Tame.ite (fun _ => byMode_tame (authorizeReply_tame h result) (authorizeReply2_tame h result)) fun _ =>
    Tame.ite (fun _ => byMode_tame (submitReply_tame h result) (submitReply2_tame h j)) fun _ =>
    .when fun _ => strayReply_tame h

theorem response_tame {ptr : Bool} (h : Header) (j : Json) : Tame ⟨ptr, true⟩ (response E h j) :=
  (raise_tame _).bind fun result => Tame.ite (fun _ => getConn_tame.bind fun _ => .pure _) fun _ =>
    (reply_tame h j result).bind fun _ => .pure _

/-! ## Notifications -/

theorem signalJob_tame : Tame c signalJob := .modify fun _ => .of_eq rfl rfl rfl rfl rfl rfl id

/-- The one place where a pointer is thrown. -/
theorem notify_tame {u : Uri} (hp : u.stratumMode = ETHPROXY → c.ptr = true) (j : Json) : Tame c (notify u j) := by
  refine Tame.get.bind fun s => ?_
  cases s.session with
  | none => exact .pure _
  | some session =>
    exact .when fun _ => (raise_tame _).bind fun _ => (raise_tame _).bind fun _ => .when fun _ =>
      (onCurrent_tame (legacyJob_throws hp _ _ _)).bind fun _ => .when fun _ => signalJob_tame

theorem notify2_tame (j : Json) : Tame c (notify2 j) := by
  refine Tame.get.bind fun s => ?_
  cases s.session with
  | none => exact .pure _
  | some session =>
    exact .when fun _ => (raise_tame _).bind fun _ => .when fun _ =>
      (onCurrent_tame (coreStratum2Job_throws _ _)).bind fun _ => signalJob_tame

theorem dispatch_tame {ptr : Bool} {u : Uri} {h : Header}
    (hp : h.method = "mining.notify" → u.stratumMode = ETHPROXY → ptr = true) (j : Json) :
    Tame ⟨ptr, true⟩ (dispatch E u h j) :=
  (raise_tame _).bind fun _ =>
    Tame.ite (fun hm => Tame.ite (fun _ => notify_tame (hp hm) j) fun _ => notify2_tame j) fun _ =>
    Tame.ite (fun _ => .when fun _ => onSession_tame rfl setDifficulty_throws) fun _ =>
    Tame.ite (fun _ => .when fun _ => (raise_tame _).bind fun _ => .when fun _ =>
      onSession_tame rfl (processExtranonce_throws _)) fun _ =>
    Tame.ite (fun _ => .when fun _ => onSession_tame rfl (miningSet_throws _)) fun _ =>
    Tame.ite (fun _ => postDisconnect_tame) fun _ => Tame.ite (fun _ => send_tame _) fun _ => send_tame _

theorem notification_tame (h : Header) (j : Json) : Tame ⟨true, true⟩ (notification E h j) :=
  getConn_tame.bind fun _ => .when fun _ => dispatch_tame (fun _ _ => rfl) j

theorem asGetWork_tame (h : Header) (j : Json) : Tame c (asGetWork h j) :=
  Tame.ite (fun _ => getConn_tame.bind fun _ => (raise_tame _).bind fun _ => .pure _) fun _ => .pure _

theorem handle_tame (h : Header) (j : Json) : Tame ⟨true, true⟩ (handle E h j) := by
  refine (raise_tame _).bind fun _ => Tame.ite (fun _ => postDisconnect_tame) fun _ =>
    Tame.ite (fun _ => notification_tame h j) fun _ => (response_tame h j).bind fun h' => ?_
  cases h' with
  | none => exact .pure _
  | some h' => exact notification_tame h' j

theorem processResponse_tame (j : Json) : Tame ⟨true, true⟩ (processResponse E j) :=
  (raise_tame _).bind fun h => (asGetWork_tame h j).bind fun h => handle_tame h j

theorem processLine_tame (line : List Char) : Tame ⟨true, true⟩ (processLine E line) := by
  refine (raise_tame _).bind fun j => ?_
  cases j with
  | none => exact .pure _
  | some j => exact .catching (processResponse_tame j) (.pure _)

end

/-! ## Stops that do not happen -/

section Never

variable {α β : Type} {x : Stop} {s : St}

theorem Tame.never {c : Faults} {m : M α} (h : Tame c m) (hx : ¬ Blame c x s) : Never x m s :=
  wp_mono (h.from_ s) (fun _ _ _ => trivial) fun _ _ ⟨_, hy⟩ hyx => hx (hyx ▸ hy)

theorem Tame.never_nullSession {m : M α} (h : Tame ⟨true, false⟩ m) (s : St) : Never .nullSession m s :=
  h.never fun hb => Bool.false_ne_true hb.1

theorem Tame.never_exceptionPtr {m : M α} (h : Tame ⟨false, true⟩ m) (s : St) : Never .exceptionPtr m s :=
  h.never fun hb => Bool.false_ne_true hb

theorem never_getConn_bind {a : Nat} (hc : s.conn = some a) {f : Uri → M β} :
    Never x (getConn >>= f) s ↔ Never x (f (s.uris a)) s := by
  simp [Never, hc]

theorem never_asGetWork_bind (hx : x.isStd = false) {a : Nat} (hc : s.conn = some a) (h : Header) (j : Json)
    {f : Header → M β} :
    Never x (asGetWork h j >>= f) s ↔
      if h.isNotification && h.method = "" then
        ∀ result, j.at_ "result" = .ok result →
          Never x (f (if (s.uris a).stratumMode = ETHPROXY && result.isArray
            then { h with method := "mining.notify" } else h)) s
      else Never x (f h) s := by
  rw [asGetWork]
  split
  · rw [bind_assoc, never_getConn_bind hc, bind_assoc, never_raise_bind hx]
    rfl
  · rw [pure_bind]

/-- The sanity check reads the result too. -/
theorem invalid_ok {h : Header} {j : Json} {b : Bool} (hi : invalid h j = .ok b) :
    ∃ result, j.at_ "result" = .ok result := by
  cases hres : j.at_ "result" with
  | ok result => exact ⟨result, rfl⟩
  | error e =>
    simp only [invalid, hres, bind, Except.bind] at hi
    split at hi <;> try cases hi
    split at hi <;> cases hi

end Never

end CoreMiner.Stratum
