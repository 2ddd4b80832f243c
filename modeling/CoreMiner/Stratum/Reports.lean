/-
  CoreMiner.Stratum.Reports — what its owner learns from the client
  (`PoolManager.cpp`: the handlers of `setClientHandlers`; `XcbStratumClient.cpp`).

  A step of the client's shows its owner one of two things. The client stays with its
  connection, and a session that has started is in a confirmed mode (`Told`). Or the
  connection is lost, which is reported once and queues `rotateConnect` unless the owner is
  stopping (`Leaves`). A confirmed mode stays confirmed, and a client that disconnects from
  a URI of confirmed mode does so until it reports: only an unconfirmed one is tried again.
  `Fired.seen` says so of every event but `rotateConnect`, whatever the order of events.
-/

import CoreMiner.Stratum.Disconnect
import CoreMiner.Stratum.Receptive

namespace CoreMiner.Stratum

open DevCore EthCore Lib Prog

variable {E : Env} {s t : St} {a : Nat}

/-! ## What is learnt -/

def Out.isHeard : Out → Bool
  | onConnected | onDisconnected | setConnection _ => true
  | _ => false

structure Stays (s t : St) : Prop where
  conn : t.conn = s.conn
  stopping : t.stopping = s.stopping
  confirmed : ∀ a, (s.uris a).stratumModeConfirmed = true → (t.uris a).stratumModeConfirmed = true
  disconnecting : ∀ a, s.conn = some a → (s.uris a).stratumModeConfirmed = true → s.disconnecting = true →
    t.disconnecting = true
  queue : ∃ new, t.queue = s.queue ++ new ∧ ∀ k ∈ new, k.isRotate = false

structure Hushed (s t : St) : Prop extends Stays s t where
  log : ∃ new, t.log = new ++ s.log ∧ ∀ o ∈ new, o.isHeard = false

structure Told (s t : St) : Prop extends Stays s t where
  log : ∃ new, t.log = new ++ s.log ∧ ∀ o ∈ new, o.isHeard = true →
    o = .onConnected ∧ ∃ a, t.conn = some a ∧ (t.uris a).stratumModeConfirmed = true

def St.followUp (s : St) : List Handler := if s.stopping then [] else [.rotateConnect]

structure Leaves (s t : St) : Prop where
  bound : s.conn ≠ none
  conn : t.conn = none
  stopping : t.stopping = s.stopping
  confirmed : ∀ a, (s.uris a).stratumModeConfirmed = true → (t.uris a).stratumModeConfirmed = true
  queue : ∃ new later, t.queue = s.queue ++ new ++ s.followUp ++ later ∧
    (∀ k ∈ new, k.isRotate = false) ∧ ∀ k ∈ later, k.isRotate = false
  log : ∃ new later, t.log = later ++ .onDisconnected :: new ++ s.log ∧ (∀ o ∈ new, o.isHeard = false) ∧
    ∀ o ∈ later, o.isHeard = false

namespace Stays

theorem refl (s : St) : Stays s s := ⟨rfl, rfl, fun _ => id, fun _ _ _ => id, [], by simp⟩

theorem trans {u : St} (h : Stays s t) (h' : Stays t u) : Stays s u where
  conn := h'.conn.trans h.conn
  stopping := h'.stopping.trans h.stopping
  confirmed a := h'.confirmed a ∘ h.confirmed a
  disconnecting a hc hs hd :=
    h'.disconnecting a (h.conn.trans hc) (h.confirmed a hs) (h.disconnecting a hc hs hd)
  queue := by
    obtain ⟨x, hx, hxr⟩ := h.queue
    obtain ⟨y, hy, hyr⟩ := h'.queue
    exact ⟨x ++ y, by rw [hy, hx, List.append_assoc], fun k hk => (List.mem_append.mp hk).elim (hxr k) (hyr k)⟩

end Stays

theorem isRotate_of_ofManager {k : Handler} (h : k.ofManager = false) : k.isRotate = false := by
  cases k <;> first | rfl | cases h

theorem Own.stays (h : Own s t) : Stays s t where
  conn := h.conn
  stopping := h.stopping
  confirmed a := by rw [h.uris]; exact id
  disconnecting _ _ _ := h.disconnecting
  queue := by
    obtain ⟨new, hq, hnew⟩ := h.queue
    exact ⟨new, hq, fun k hk => isRotate_of_ofManager (hnew k hk).2⟩

theorem Hushed.told (h : Hushed s t) : Told s t where
  toStays := h.toStays
  log := by
    obtain ⟨new, hlog, hnew⟩ := h.log
    exact ⟨new, hlog, fun o ho hh => by simp [hnew o ho] at hh⟩

theorem Hushed.refl (s : St) : Hushed s s := ⟨.refl s, [], by simp⟩

theorem Own.hushed (h : Own s t) : Hushed s t := ⟨h.stays, [], by simp [h.log]⟩

/-- No URI changes, nor the guard; `new` joins the queue and `seen` the log. -/
theorem Hushed.of_same (hu : t.uris = s.uris) (hc : t.conn = s.conn) (hs : t.stopping = s.stopping)
    (hd : t.disconnecting = s.disconnecting) (new : List Handler) (hq : t.queue = s.queue ++ new)
    (hnew : ∀ k ∈ new, k.isRotate = false) (seen : List Out) (hl : t.log = seen ++ s.log)
    (hseen : ∀ o ∈ seen, o.isHeard = false) : Hushed s t where
  conn := hc
  stopping := hs
  confirmed _ := by rw [hu]; exact id
  disconnecting _ _ _ := by rw [hd]; exact id
  queue := ⟨new, hq, hnew⟩
  log := ⟨seen, hl, hseen⟩

theorem Told.refl (s : St) : Told s s := (Hushed.refl s).told

theorem Hushed.trans {u : St} (h : Hushed s t) (h' : Hushed t u) : Hushed s u where
  toStays := h.toStays.trans h'.toStays
  log := by
    obtain ⟨x, hx, hxh⟩ := h.log
    obtain ⟨y, hy, hyh⟩ := h'.log
    exact ⟨y ++ x, by rw [hy, hx, List.append_assoc], fun o ho => (List.mem_append.mp ho).elim (hyh o) (hxh o)⟩

theorem Told.trans (s t u : St) (h : Told s t) (h' : Told t u) : Told s u where
  toStays := h.toStays.trans h'.toStays
  log := by
    obtain ⟨x, hx, hxh⟩ := h.log
    obtain ⟨y, hy, hyh⟩ := h'.log
    refine ⟨y ++ x, by rw [hy, hx, List.append_assoc], fun o ho hh => ?_⟩
    rcases List.mem_append.mp ho with ho | ho
    · exact hyh o ho hh
    · obtain ⟨hon, a, ha, hconf⟩ := hxh o ho hh
      exact ⟨hon, a, h'.conn.trans ha, h'.confirmed a hconf⟩

/-! ## Connecting and disconnecting -/

theorem Hushed.leaves {u : St} (h : Hushed s t) (h' : Leaves t u) : Leaves s u where
  bound := h.conn ▸ h'.bound
  conn := h'.conn
  stopping := h'.stopping.trans h.stopping
  confirmed a := h'.confirmed a ∘ h.confirmed a
  queue := by
    obtain ⟨x, hx, hxr⟩ := h.queue
    obtain ⟨y, z, hy, hyr, hzr⟩ := h'.queue
    refine ⟨x ++ y, z, ?_, fun k hk => (List.mem_append.mp hk).elim (hxr k) (hyr k), hzr⟩
    rw [hy, hx, St.followUp, h.stopping, St.followUp]
    simp only [List.append_assoc]
  log := by
    obtain ⟨x, hx, hxh⟩ := h.log
    obtain ⟨y, z, hy, hyh, hzh⟩ := h'.log
    exact ⟨y ++ x, z, by rw [hy, hx]; simp, fun o ho => (List.mem_append.mp ho).elim (hyh o) (hxh o), hzh⟩

theorem Leaves.hushed {u : St} (h : Leaves s t) (h' : Hushed t u) : Leaves s u where
  bound := h.bound
  conn := h'.conn.trans h.conn
  stopping := h'.stopping.trans h.stopping
  confirmed a := h'.confirmed a ∘ h.confirmed a
  queue := by
    obtain ⟨x, y, hx, hxr, hyr⟩ := h.queue
    obtain ⟨z, hz, hzr⟩ := h'.queue
    exact ⟨x, y ++ z, by rw [hz, hx]; simp, hxr, fun k hk => (List.mem_append.mp hk).elim (hyr k) (hzr k)⟩
  log := by
    obtain ⟨x, y, hx, hxh, hyh⟩ := h.log
    obtain ⟨z, hz, hzh⟩ := h'.log
    exact ⟨x, z ++ y, by rw [hz, hx]; simp, hxh, fun o ho => (List.mem_append.mp ho).elim (hzh o) (hyh o)⟩

def Parts (s t : St) : Prop := Hushed s t ∨ Leaves s t

theorem Parts.trans (s t u : St) (h : Parts s t) (h' : Parts t u) : Parts s u := by
  rcases h with h | h <;> rcases h' with h' | h'
  · exact .inl (h.trans h')
  · exact .inr (h.leaves h')
  · exact .inr (h.hushed h')
  · exact absurd h.conn h'.bound

/-- A URI's mode is as confirmed as it was. -/
theorem confirmed_updateUri {f : Uri → Uri}
    (hf : ∀ u : Uri, u.stratumModeConfirmed = true → (f u).stratumModeConfirmed = true) (b : Nat)
    (h : (s.uris b).stratumModeConfirmed = true) : ((s.updateUri a f).uris b).stratumModeConfirmed = true := by
  by_cases hb : b = a
  · subst hb
    rw [show (s.updateUri b f).uris b = f (s.uris b) from if_pos rfl]
    exact hf _ h
  · rw [show (s.updateUri a f).uris b = s.uris b from if_neg hb]
    exact h

theorem updateUri_hushed {f : Uri → Uri}
    (hf : ∀ u : Uri, u.stratumModeConfirmed = true → (f u).stratumModeConfirmed = true) : Hushed s (s.updateUri a f) :=
  ⟨⟨rfl, rfl, confirmed_updateUri hf, fun _ _ _ => id, [], by simp [St.updateUri]⟩, [], rfl, by simp⟩

theorem marked_hushed (s : St) (a : Nat) : Hushed s (s.updateUri a Uri.markUnrecoverable) :=
  updateUri_hushed fun _ => id

theorem released_confirmed (s : St) (a b : Nat) (h : (s.uris b).stratumModeConfirmed = true) :
    ((s.released a).uris b).stratumModeConfirmed = true := by
  refine confirmed_updateUri (s := s.finalizing) (fun u hu => ?_) b h
  rw [St.uriReleased]
  split <;> exact hu

theorem released_reported (hc : s.conn = some a) (u : St) (hstopping : u.stopping = s.stopping)
    (hq : u.queue = s.queue ++ s.aborting) (hlog : u.log = .finalizing s.conn :: s.log)
    (hconf : ∀ b, (s.uris b).stratumModeConfirmed = true → (u.uris b).stratumModeConfirmed = true) :
    Leaves s u.reported where
  bound := by simp [hc]
  conn := rfl
  stopping := hstopping
  confirmed := hconf
  queue := by
    obtain ⟨new, hnew, hown⟩ : ∃ new, (u.armed .forever).queue = u.queue ++ new ∧ ∀ k ∈ new, k.isRotate = false := by
      by_cases htimer : u.timer.isSome = true
      · exact ⟨[.workloopTimerElapsed true], if_pos htimer, by simp [Handler.isRotate]⟩
      · exact ⟨[], by simp [St.armed, htimer], by simp⟩
    refine ⟨s.aborting ++ new, [], ?_, fun k hk => ?_, by simp⟩
    · show (u.armed .forever).queue ++ (if u.stopping then [] else [.rotateConnect]) = _
      rw [hnew, hq, hstopping, St.followUp]
      simp
    · rcases List.mem_append.mp hk with hk | hk
      · exact isRotate_of_ofManager (aborting_own s k hk).2
      · exact hown k hk
  log := ⟨[.finalizing s.conn], [], by rw [St.reported, hlog]; rfl, by simp [Out.isHeard], by simp⟩

/-- `disconnect_finalize` of a URI in a confirmed mode reports. -/
theorem finalized_parts (hc : s.conn = some a) : Parts s (s.finalized a) := by
  unfold St.finalized
  split
  case isTrue hretry =>
    have hunconfirmed : (s.uris a).stratumModeConfirmed = false := by
      simp only [retriesNextMode, Bool.and_eq_true, Bool.not_eq_true'] at hretry
      exact hretry.1.2
    split
    · refine .inl ⟨⟨rfl, rfl, fun b hb => ?_, fun b hb hconf => ?_, s.aborting ++ [.startConnect], ?_,
        fun k hk => ?_⟩, ?_⟩
      · exact confirmed_updateUri (s := s.released a) (f := fun u => { u with stratumMode := u.stratumMode - 1 })
          (fun _ => id) b (released_confirmed s a b hb)
      · obtain rfl : a = b := by simpa [hc] using hb
        simp [hunconfirmed] at hconf
      · simp [St.lowered, St.updateUri, St.released, St.sessionReleased, St.finalizing, St.closed, St.aborted]
      · rcases List.mem_append.mp hk with hk | hk
        · exact isRotate_of_ofManager (aborting_own s k hk).2
        · rw [List.mem_singleton.mp hk]
          rfl
      · exact ⟨[.reposted (some a), .finalizing s.conn], rfl, by simp [Out.isHeard]⟩
    · exact .inr (released_reported hc ((s.released a).updateUri a Uri.markUnrecoverable) rfl rfl rfl fun b hb =>
        (marked_hushed (s.released a) a).confirmed b (released_confirmed s a b hb))
  case isFalse => exact .inr (released_reported hc (s.released a) rfl rfl rfl (released_confirmed s a))

theorem parts_lenient : Lenient Parts where
  refl s := .inl (.refl s)
  trans := .trans
  own s t h := .inl h.hushed
  marked s a := .inl (marked_hushed s a)
  finalized s a hc := finalized_parts hc
  lost s hc := .inl ⟨⟨rfl, rfl, fun _ => id, fun a ha => by simp [hc] at ha, (closed_own s).stays.queue⟩,
    [.finalizing s.conn], rfl, by simp [Out.isHeard]⟩

/-- Behind `disconnect`, the connection is being left or is gone. -/
theorem disconnect_leaving (hc : s.conn = some a) (hconf : (s.uris a).stratumModeConfirmed = true) :
    wp disconnect (fun _ t => t.conn = none ∨ t.disconnecting = true)
      (fun _ t => t.conn = none ∨ t.disconnecting = true)
      s := by
  have hparts : ∀ {m : M Unit} (u : St), Kept Parts m → u.conn = s.conn → u.uris = s.uris → u.disconnecting = true →
      wp m (fun _ t => t.conn = none ∨ t.disconnecting = true)
        (fun _ t => t.conn = none ∨ t.disconnecting = true) u := by
    intro m u hm hconn huris hd
    have hend : ∀ t, Parts u t → t.conn = none ∨ t.disconnecting = true := fun t ht =>
      ht.symm.imp (·.conn) fun h => h.disconnecting a (hconn.trans hc) (by rw [huris]; exact hconf) hd
    exact wp_mono (hm.from_ u) (fun _ t ht => hend t ht) fun _ t ht => hend t ht.1
  rw [wp_disconnect]
  split
  · exact .inr ‹_›
  · split
    · split
      · exact hparts s.parting.aborted (shutdownSocket_kept parts_lenient.reserved) rfl rfl rfl
      · exact .inr rfl
    · exact hparts s.parting (disconnectFinalize_kept parts_lenient.reserved) rfl rfl rfl

/-! ## The handlers -/

theorem chooseMode_confirmed {u : Uri} (h : u.stratumModeConfirmed = true) :
    (chooseMode u).stratumModeConfirmed = true := by
  unfold chooseMode
  split
  · rfl
  · rw [if_neg (by simp [h])]
    exact h

theorem connectEstablished_parts (handshakeFails : Bool) : Kept Parts (connectEstablished E handshakeFails) := by
  refine ⟨fun s => ?_⟩
  rw [wp_connectEstablished]
  split
  · exact ⟨.inl (.refl s), trivial⟩
  · rename_i a hc
    have hestablished : Hushed s (s.established a) := by
      have huri : Hushed s (s.updateUri a fun u => { u with responds := true }) := updateUri_hushed fun _ => id
      exact ⟨⟨rfl, rfl, huri.confirmed, fun _ _ _ => id, huri.queue⟩, huri.log⟩
    split
    · have habandoned := hestablished.trans (marked_hushed (s.established a) a)
      refine .inl ⟨⟨rfl, rfl, habandoned.confirmed, fun _ _ _ => id, [.disconnect], rfl, by simp [Handler.isRotate]⟩,
        [], rfl, by simp⟩
    · have hlogging : Hushed s ((s.established a).loggingIn a) := by
        have hchosen := hestablished.trans (updateUri_hushed (a := a) (f := chooseMode) fun _ => chooseMode_confirmed)
        exact ⟨⟨rfl, rfl, hchosen.confirmed, fun _ _ _ => id, [], by simp [St.loggingIn, St.updateUri, St.established]⟩,
          [], rfl, by simp⟩
      have hgreeting : Hushed s ((s.established a).greeting a) :=
        hlogging.trans (Own.hushed (.of_same rfl rfl rfl rfl rfl id (Nat.le_refl _)))
      have hsent : ∀ t, Sent ((s.established a).greeting a) t → Parts s t := fun t ht =>
        .inl (hgreeting.trans ht.own.hushed)
      rw [wp_login (s := s.established a) hc]
      split
      · exact wp_mono ((send_sent _).from_ _) (fun _ t ht => hsent t ht) fun _ t ht => ⟨hsent t ht.1, trivial⟩
      · exact ⟨.inl hlogging, trivial⟩

theorem workloopTimerElapsed_parts (aborted : Bool) : Kept Parts (workloopTimerElapsed E aborted) := by
  have halong : Along Hushed := ⟨.refl, fun _ _ _ => .trans⟩
  have hanswer (s : St) : Hushed s s.answering :=
    .of_same rfl rfl rfl rfl [.processResponse noLoginReply] rfl (by simp [Handler.isRotate]) [] rfl (by simp)
  have hhushed : Kept Hushed (workloopTimerElapsed E aborted) :=
    halong.tick (fun _ _ ht _ => ht.hushed) hanswer aborted
  exact ⟨fun s => wp_mono (hhushed.from_ s) (fun _ _ ht => .inl ht) fun _ _ ht => ⟨.inl ht.1, trivial⟩⟩

theorem told_receptive : Receptive E (fun _ => true) Told where
  refl := .refl
  trans := .trans
  inner s t h := by
    obtain ⟨_, _, _, _, _, _, _, -, rfl⟩ := h
    exact Hushed.told (Own.hushed (.of_same rfl rfl rfl rfl rfl id (Nat.le_refl _)))
  caught _ _ := rfl
  sends jReq := ⟨fun s => wp_mono ((send_sent jReq).from_ s) (fun _ t ht => ht.own.hushed.told)
    fun _ t ht _ => ht.1.own.hushed.told⟩
  posts s := (Own.push s ⟨rfl, rfl⟩).hushed.told
  marks s a := (marked_hushed s a).told
  replies s o _ ho _ := by
    have hshare : o.isHeard = false := by cases o <;> first | rfl | cases ho
    exact Hushed.told (.of_same rfl rfl rfl rfl [] (by simp) (by simp) [o] rfl (by simpa using hshare))
  welcomes s a hc := by
    have hconf : ((s.welcomed a).uris a).stratumModeConfirmed = true := by
      rw [show (s.welcomed a).uris a = (s.uris a).setStratumMode (s.uris a).stratumMode true from if_pos rfl]
      rfl
    refine ⟨⟨rfl, rfl, fun b hb => ?_, fun _ _ _ => id, [], by simp [St.welcomed, St.updateUri]⟩,
      [.onConnected], rfl, fun o ho _ => ?_⟩
    · exact confirmed_updateUri (f := fun u => u.setStratumMode u.stratumMode true) (fun _ _ => rfl) b hb
    · exact ⟨List.mem_singleton.mp ho, a, hc, hconf⟩

theorem onRecvSocketDataCompleted_tells (rx : List Char) :
    KeepsIf (fun _ => true) Told (onRecvSocketDataCompleted E (some rx)) := by
  refine onRecvSocketDataCompleted_told told_receptive (fun s wp => ?_) (fun s => ?_) rx
  · exact Hushed.told (.of_same rfl rfl rfl rfl [] (by simp) (by simp) [.onWorkReceived wp] rfl (by simp [Out.isHeard]))
  · exact Hushed.told (Own.hushed (.of_same rfl rfl rfl rfl rfl id (Nat.le_refl _)))

/-! ## The events -/

def St.taken (s : St) : Ev → St
  | .run _ => { s with queue := s.queue.tail }
  | .stop => { s with stopping := true }
  | _ => s

def Ev.rotates (s : St) : Ev → Bool
  | .run _ => s.queue.head?.any Handler.isRotate
  | _ => false

def Seen (s t : St) : Prop := Told s t ∨ Leaves s t

theorem Parts.seen (h : Parts s t) : Seen s t := h.imp_left Hushed.told

theorem Seen.stopped (h : Seen s t) (x : Stop) : Seen s { t with crashed := some x } :=
  h.imp (fun h => ⟨⟨h.conn, h.stopping, h.confirmed, h.disconnecting, h.queue⟩, h.log⟩)
    fun h => ⟨h.bound, h.conn, h.stopping, h.confirmed, h.queue, h.log⟩

theorem Parts.stopped (h : Parts s t) (x : Stop) : Parts s { t with crashed := some x } :=
  h.imp (fun h => ⟨⟨h.conn, h.stopping, h.confirmed, h.disconnecting, h.queue⟩, h.log⟩)
    fun h => ⟨h.bound, h.conn, h.stopping, h.confirmed, h.queue, h.log⟩

theorem call_parts {m : M Unit} (hm : Kept Parts m) (s : St) : Parts s (call m s) :=
  call_of_wp (wp_mono (hm.from_ s) (fun _ _ h => h) fun x _ h => h.1.stopped x)

theorem seen_of_told {m : M Unit} (hm : KeepsIf (fun _ => true) Told m) (s : St) : Seen s (call m s) :=
  call_of_wp (wp_mono (hm.from_ s) (fun _ _ h => .inl h) fun x _ h => Seen.stopped (.inl (h rfl)) x)

def Handler.listens : Handler → Bool
  | onRecvSocketDataCompleted (some _) | processResponse _ => true
  | _ => false

/-- Without a message there is no session to report. -/
theorem runHandler_parts (choice : Option (Nat × Bool)) {k : Handler} (hk : k.isRotate = false)
    (hmsg : k.listens = false) (s : St) : Parts s (call (runHandler E choice k) s) := by
  have h := parts_lenient
  cases k with
  | startConnect => exact call_parts (startConnect_kept h.reserved) s
  | disconnect => exact call_parts (disconnect_kept h.reserved) s
  | disconnectFinalize => exact call_parts (disconnectFinalize_kept h.reserved) s
  | resolveHandler endpoints => exact call_parts (resolveHandler_kept h.reserved endpoints) s
  | connectHandler ec handshakeFails =>
    exact call_parts (connectHandler_kept h.reserved (connectEstablished_parts handshakeFails)) s
  | workloopTimerElapsed aborted => exact call_parts (workloopTimerElapsed_parts aborted) s
  | onRecvSocketDataCompleted data =>
    cases data with
    | none => exact call_parts (readFailed_kept (E := E) h.reserved) s
    | some rx => cases hmsg
  | onSendSocketDataCompleted ec => exact call_parts (onSendSocketDataCompleted_kept h.reserved ec) s
  | onSSLShutdownCompleted => exact call_parts (onSSLShutdownCompleted_kept h.reserved) s
  | processResponse response => cases hmsg
  | rotateConnect => cases hk
  | reconnectTimerElapsed => exact call_parts (reconnectTimerElapsed_kept h.reserved) s

theorem runHandler_seen (choice : Option (Nat × Bool)) {k : Handler} (hk : k.isRotate = false) (s : St) :
    Seen s (call (runHandler E choice k) s) := by
  cases hmsg : k.listens with
  | false => exact (runHandler_parts choice hk hmsg s).seen
  | true =>
    cases k with
    | onRecvSocketDataCompleted data =>
      cases data with
      | none => cases hmsg
      | some rx => exact seen_of_told (onRecvSocketDataCompleted_tells rx) s
    | processResponse response => exact seen_of_told (processResponse_told told_receptive response) s
    | _ => cases hmsg

theorem Fired.completion_hushed {e : Ev} (h : Fired E s e t) (he : e.isCompletion = true) : Hushed s t := by
  cases h with
  | timerExpires _ _ | resolved _ | connectCompletes _ | received _ _ | readFails _ | writeFails _
  | shutdownCompletes _ | reconnectTimerExpires _ =>
    exact .of_same rfl rfl rfl rfl [_] rfl (by simp [Handler.isRotate]) [] rfl (by simp)
  | written _ => exact .of_same rfl rfl rfl rfl [_] rfl (by simp [Handler.isRotate]) [_] rfl (by simp [Out.isHeard])
  | advance => exact .of_same rfl rfl rfl rfl [] (by simp) (by simp) [] rfl (by simp)
  | run _ | callDisconnect _ | stopConnected _ _ | stopUnconnected _ | submitSolution _ | submitHashrate _ => cases he

/-- Whatever the client does but `rotateConnect`, it stays with its connection or reports its loss. -/
theorem Fired.seen {e : Ev} (h : Fired E s e t) (hr : e.rotates s = false) : Seen (s.taken e) t := by
  by_cases he : e.isCompletion = true
  · have htaken : s.taken e = s := by cases e <;> first | rfl | cases he
    rw [htaken]
    exact .inl (h.completion_hushed he).told
  · cases h with
    | @run choice k queue hq =>
      have hk : k.isRotate = false := by simpa [Ev.rotates, hq] using hr
      rw [St.taken, hq]
      exact runHandler_seen choice hk _
    | callDisconnect _ => exact (call_parts (disconnect_kept parts_lenient.reserved) s).seen
    | stopConnected _ _ => exact (call_parts (disconnect_kept parts_lenient.reserved) _).seen
    | stopUnconnected _ =>
      exact .inl (Hushed.told (.of_same rfl rfl rfl rfl [] (by simp [St.taken]) (by simp) [] rfl (by simp)))
    | submitSolution _ =>
      refine (call_parts (submitSolution_kept parts_lenient.reserved _ fun s => .inl ?_) s).seen
      exact .of_same rfl rfl rfl rfl [] (by simp) (by simp) [] rfl (by simp)
    | submitHashrate _ => exact (call_parts (submitHashrate_kept parts_lenient.reserved _ _) s).seen
    | _ => exact absurd rfl he

end CoreMiner.Stratum
