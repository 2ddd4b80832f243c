/-
  CoreMiner.Stratum.Negotiation — which stratum flavours autodetection gives up
  (`XcbStratumClient.cpp`: `connect_handler`, `disconnect_finalize`).

  `disconnect_finalize` lowers the mode of an unconfirmed URI whenever the URI has ever
  responded since its `setConnection`: the flag is not taken back by the loss of the
  connection. A connection attempt that fails after a mode was lowered lowers it again
  (`mode_burnt_by_refused_socket`). In a run in which every `disconnect` is in order and no
  connection attempt runs out of endpoints while the next mode is to be tried, a mode is
  given up only after a login in it was sent (`given_up_after_login`): the connection that
  is being finalized is the one the login was sent on (`Trying`).
-/

import CoreMiner.Lib.Past
import CoreMiner.Stratum.Autodetect
import CoreMiner.Stratum.Disconnect

namespace CoreMiner.Stratum

open DevCore EthCore Lib Prog

variable {E : Env} {r s t : St} {a : Nat}

/-! ## What is to be shown -/

def finals (a : Nat) (log : List Out) : Nat := log.count (.finalizing (some a))

/-- From `s` to `t`, `disconnect_finalize` has lowered the mode of the unconfirmed URI `a`, or
    marked it unrecoverable because mode 0 failed. -/
def givesUp (s t : St) (a : Nat) : Bool :=
  decide (finals a s.log < finals a t.log) && !(s.uris a).stratumModeConfirmed &&
    (decide ((t.uris a).stratumMode + 1 = (s.uris a).stratumMode) ||
      (decide ((s.uris a).stratumMode = 0) && !(s.uris a).unrecoverable && (t.uris a).unrecoverable))

/-- The flavour of the login request that this step sends to the URI `a`, on a connection that
    was established. -/
def loginSent (s : St) (e : Ev) (a : Nat) : Option Nat :=
  match e, s.queue with
  | .run _, .connectHandler ec handshakeFails :: _ =>
    if s.conn = some a && s.socket && !(ec || !s.isOpen) && !((s.uris a).secure && handshakeFails) &&
        s.hasStream (s.uris a) then
      some (chooseMode (s.uris a)).stratumMode
    else none
  | _, _ => none

/-- Since the last mode of the URI `a` was given up, a login of flavour `m` was sent. -/
def tried (E : Env) (a m : Nat) : List (St × Ev) → Bool :=
  since (fun s e => loginSent s e a = some m) fun s e => (step E s e).any (givesUp s · a)

/-- A connection attempt does not end for want of an endpoint while the next mode is to be
    tried. -/
def hasEndpoint (s : St) : Ev → Bool
  | .run _ =>
    match s.queue, s.conn with
    | .startConnect :: _, some a => !s.endpoints.isEmpty || !retriesNextMode (s.uris a)
    | .resolveHandler none :: _, some a => !retriesNextMode (s.uris a)
    | _, _ => true
  | _ => true

abbrev Past (E : Env) (C : St → Ev → Bool) : List (St × Ev) → St → Prop :=
  Traced (step E) (fun s => ∃ uris : Nat → Uri, (∀ a, (uris a).Fresh) ∧ s = init uris) fun s e => C s e = true

/-! ## The connection a login was sent on -/

def St.up (s : St) : Prop := s.connected = true ∨ 0 < s.partTurns

/-- The mode at hand is being tried on the connection to `a`. -/
structure Trying (s : St) (a : Nat) : Prop where
  conn : s.conn = some a
  retries : retriesNextMode (s.uris a) = true
  up : s.up

/-- What a step does to the mode being tried, when `login` are the logins it sends. -/
structure Onward (login : Nat → Option Nat) (s t : St) : Prop where
  given : ∀ a, givesUp s t a = true → Trying s a
  kept : ∀ a, Trying t a → login a = some (t.uris a).stratumMode ∨
    Trying s a ∧ (t.uris a).stratumMode = (s.uris a).stratumMode ∧ givesUp s t a = false

structure Beside (r s : St) : Prop where
  conn : s.conn = r.conn
  uris : s.uris = r.uris
  log : s.log = r.log

theorem givesUp_eq_false (h : finals a t.log = finals a s.log) : givesUp s t a = false := by simp [givesUp, h]

theorem given_of_finals (h : ∀ a, finals a t.log = finals a s.log) (a : Nat)
    (hg : givesUp s t a = true) : Trying s a := by
  simp [givesUp_eq_false (h a)] at hg

/-- The connection stays, or goes down without being finalized. -/
theorem Onward.of_still {login : Nat → Option Nat} (hconn : t.conn = s.conn) (hup : t.up → s.up)
    (huris : ∀ a, retriesNextMode (t.uris a) = true →
      retriesNextMode (s.uris a) = true ∧ (t.uris a).stratumMode = (s.uris a).stratumMode)
    (hlog : ∀ a, finals a t.log = finals a s.log) : Onward login s t where
  given := given_of_finals hlog
  kept a h := by
    obtain ⟨hretries, hmode⟩ := huris a h.retries
    exact .inr ⟨⟨hconn ▸ h.conn, hretries, hup h.up⟩, hmode, givesUp_eq_false (hlog a)⟩

theorem Onward.of_down {login : Nat → Option Nat} (hdown : ¬ t.up) (hlog : ∀ a, finals a t.log = finals a s.log) :
    Onward login s t where
  given := given_of_finals hlog
  kept _ h := absurd h.up hdown

theorem retries_of_processed {u v : Uri} (h : u.Processed v) (hv : retriesNextMode v = true) :
    retriesNextMode u = true ∧ v.stratumMode = u.stratumMode := by
  refine ⟨?_, by rw [h.same]⟩
  by_contra hu
  simp [h.retries (Bool.eq_false_of_not_eq_true hu)] at hv

theorem finals_idle (h : Idle s t) (a : Nat) : finals a t.log = finals a s.log := by
  obtain ⟨new, hlog, hnew⟩ := h.log
  rw [finals, hlog, List.count_append, List.count_eq_zero.mpr fun hmem => ?_, Nat.zero_add]
  · rfl
  · simpa [Out.isIdle] using hnew _ hmem

theorem Ticked.finals (h : Ticked E s a t) (b : Nat) : finals b t.log = Stratum.finals b s.log := by
  rcases h.cases with h | ⟨u, hu, -, rfl⟩
  · exact finals_idle h b
  · exact finals_idle hu.idle b

theorem Ticked.uris (h : Ticked E s a t) (b : Nat) : (s.uris b).Processed (t.uris b) := by
  rcases h.cases with h | ⟨u, hu, -, rfl⟩
  · exact h.uris b
  · exact hu.idle.uris b

theorem up_alike (h : Alike s t) : t.up ↔ s.up := by rw [St.up, h.connected, h.partTurns]; rfl

/-! ## Finalizing -/

theorem finalized_finals (hconn : s.conn = some a) (b : Nat) :
    finals b (s.finalized a).log = finals b s.log + if b = a then 1 else 0 := by
  have hreleased : finals b (s.released a).log = finals b s.log + if b = a then 1 else 0 := by
    show finals b (.finalizing s.conn :: s.log) = _
    rw [hconn, finals, List.count_cons, finals]
    by_cases hb : b = a
    · simp [hb]
    · simp [hb, Ne.symm hb]
  rw [← hreleased]
  unfold St.finalized
  split
  · split <;> simp [finals, St.lowered, St.reported, St.updateUri]
  · simp [finals, St.reported]

/-- A URI whose next mode is not to be tried keeps mode and mark. -/
theorem finalized_of_kept (h : retriesNextMode (s.uris a) = false) :
    ((s.finalized a).uris a).stratumMode = (s.uris a).stratumMode ∧
      ((s.finalized a).uris a).unrecoverable = (s.uris a).unrecoverable := by
  have hreleased : (s.finalized a).uris a = (s.released a).uris a := by
    rw [St.finalized, if_neg (by simp [h])]
    rfl
  have huri : (s.released a).uris a = s.finalizing.uriReleased (s.uris a) := if_pos rfl
  rw [hreleased, huri, St.uriReleased]
  split <;> exact ⟨rfl, rfl⟩

theorem released_alike_up (s : St) (a : Nat) : (s.released a).up ↔ s.up :=
  show s.closed.up ↔ s.up from up_alike (closed_alike s)

theorem reported_up (s : St) : s.reported.up ↔ s.up := by
  have hpart : s.reported.partTurns = (s.armed .forever).partTurns := by
    simp only [St.partTurns, St.reported, List.countP_append]
    split <;> simp [St.armed, Handler.isPart]
  rw [St.up, hpart, (armed_alike s .forever).partTurns]
  rfl

theorem finalized_up (s : St) (a : Nat) : (s.finalized a).up ↔ s.up := by
  rw [← released_alike_up s a]
  unfold St.finalized
  split
  · split
    · have hpart : ((s.released a).lowered a).partTurns = (s.released a).partTurns := by
        simp [St.partTurns, St.lowered, St.updateUri, List.countP_append, Handler.isPart]
      rw [St.up, hpart]
      rfl
    · exact reported_up _
  · exact reported_up _

/-- The connection that is finalized is the one the mode was tried on, or the mode stays. -/
theorem finalized_onward {login : Nat → Option Nat} (hb : Beside r s) (hconn : s.conn = some a) (hdown : ¬ s.up)
    (hup : retriesNextMode (s.uris a) = true → r.up) : Onward login r (s.finalized a) where
  given b hg := by
    have hfinals := finalized_finals hconn b
    rw [hb.log] at hfinals
    by_cases hba : b = a
    · subst hba
      by_cases hretries : retriesNextMode (s.uris b) = true
      · exact ⟨hb.conn ▸ hconn, hb.uris ▸ hretries, hup hretries⟩
      · obtain ⟨hmode, hmark⟩ := finalized_of_kept (Bool.eq_false_of_not_eq_true hretries)
        rw [hb.uris] at hmode hmark
        simp only [givesUp, hmode, hmark, Bool.and_eq_true, Bool.or_eq_true, Bool.not_eq_true', decide_eq_true_eq] at hg
        rcases hg.2 with hlower | ⟨⟨-, hfalse⟩, htrue⟩
        · omega
        · simp [hfalse] at htrue
    · rw [if_neg hba, Nat.add_zero] at hfinals
      simp [givesUp_eq_false hfinals] at hg
  kept _ h := absurd ((finalized_up s a).mp h.up) hdown

/-! ## The handlers -/

/-- However `m` ends, started from `s` in a step that started in `r`. -/
def Steers (login : Nat → Option Nat) (r : St) (m : M Unit) (s : St) : Prop :=
  wp m (fun _ t => Onward login r t) (fun _ t => ∀ a, finals a t.log = finals a r.log) s

variable {login : Nat → Option Nat}

theorem Beside.finals (h : Beside r s) (a : Nat) : finals a s.log = Stratum.finals a r.log := by rw [h.log]

/-- A program that leaves the connection alone leaves the mode being tried. -/
theorem Rests.steers {m : M Unit} (hm : Rests m) (hb : Beside r s) (hup : s.up → r.up) : Steers login r m s := by
  refine wp_mono (hm.from_ s) (fun _ t h => ?_) fun _ t h a => (finals_idle h.1 a).trans (hb.finals a)
  refine .of_still (h.alike.conn.trans hb.conn) (fun ht => hup ((up_alike h.alike).mp ht)) (fun a ht => ?_)
    fun a => (finals_idle h a).trans (hb.finals a)
  rw [← hb.uris]
  exact retries_of_processed (h.uris a) ht

/-- The URIs and the observations stay, and no connection comes up. -/
theorem Beside.onward (hb : Beside r s) (hup : s.up → r.up) : Onward login r s := by
  refine .of_still hb.conn hup (fun a ht => ?_) hb.finals
  rw [hb.uris] at ht ⊢
  exact ⟨ht, rfl⟩

theorem Free.not_up (h : Free s a) : ¬ s.up := by
  have hle := partTurns_le s
  rintro (hc | hpart)
  · simp [h.connected] at hc
  · have := h.turns
    omega

theorem disconnect_steers (h : Ordered s) (hin : s.disconnecting = true ∨ s.connected = true) (hb : Beside r s)
    (hup : s.up → r.up) : Steers login r disconnect s := by
  rw [Steers, wp_disconnect]
  split
  · exact hb.onward hup
  · rename_i hd
    have hconnected : s.connected = true := hin.resolve_left hd
    obtain ⟨a, hfree, -⟩ := h.parting hconnected
    have hrup := hup (.inl hconnected)
    split
    · split
      · have haborted := hfree.alike (aborted_alike _)
        rw [wp_shutdownSocket, haborted.conn]
        show if _ then _ else _
        split
        · exact Beside.onward ⟨hb.conn, hb.uris, hb.log⟩ fun _ => hrup
        · have hclosed := haborted.alike (closed_alike _)
          exact finalized_onward ⟨hb.conn, hb.uris, hb.log⟩ hclosed.conn hclosed.not_up fun _ => hrup
      · exact hb.finals
    · rw [wp_disconnectFinalize, hfree.conn]
      exact finalized_onward ⟨hb.conn, hb.uris, hb.log⟩ hfree.conn hfree.not_up fun _ => hrup

/-- Connecting brings no connection up yet. -/
theorem connect_steers (h : Free s a) (hc : s.connecting = false)
    (hlog : s.log = r.log ∨ s.log = .setConnection a :: r.log) :
    Steers login r connect s := by
  have hfinals : ∀ b, finals b s.log = finals b r.log := by
    intro b
    rcases hlog with hlog | hlog <;> simp [hlog, finals]
  have hdialing := h.alike (dialing_alike s a)
  rw [Steers, wp_connect, if_neg (by simp [hc]), h.conn]
  show Onward login r ((s.dialing a).resolving (s.uris a))
  have hup : ((s.dialing a).resolving (s.uris a)).up ↔ (s.dialing a).up := by
    unfold St.resolving
    split
    · simp [St.up, St.partTurns, List.countP_append, List.countP_replicate, Handler.isPart]
    · simp [St.up, St.partTurns, List.countP_append, Handler.isPart]
  refine .of_down (fun ht => hdialing.not_up (hup.mp ht)) fun b => ?_
  rw [← hfinals, ← dialing_log s a]
  unfold St.resolving
  split <;> rfl

theorem giveUpConnecting_steers (h : Free s a) (hb : Beside r s) (hkept : retriesNextMode (s.uris a) = false) :
    Steers login r giveUpConnecting s := by
  rw [Steers, wp_giveUpConnecting]
  split
  case h_1 hc => exact hb.finals
  case h_2 b hc =>
    obtain rfl : a = b := by simpa [h.conn] using hc
    exact finalized_onward (s := { s with connecting := false }) ⟨hb.conn, hb.uris, hb.log⟩ h.conn h.not_up
      fun hr => by simp [hkept] at hr

/-- A turn is passed on, and the connection is still down. -/
theorem Free.onward (h : Free s a) (hb : Beside r s) (hlog : t.log = s.log) (hconnected : t.connected = s.connected)
    (hpart : t.partTurns = s.partTurns) : Onward login r t := by
  refine .of_down (fun ht => h.not_up ?_) fun b => by rw [hlog]; exact hb.finals b
  rwa [St.up, hconnected, hpart] at ht

theorem opening_part (s : St) (a : Nat) :
    (s.opening a).connected = s.connected ∧ (s.opening a).partTurns = s.partTurns := by
  rw [St.opening]
  split
  · exact ⟨rfl, rfl⟩
  · exact ⟨rfl, (fresh_alike s a).partTurns⟩

theorem asyncConnect_steers (h : Free s a) (hb : Beside r s) : Steers login r asyncConnect s := by
  rw [Steers, wp_asyncConnect, h.conn]
  have halike := opening_part s a
  exact h.onward hb (opening_log s a) halike.1 halike.2

theorem startConnect_steers (h : Free s a) (hc : s.connecting = false) (hb : Beside r s)
    (hendpoint : s.endpoints.isEmpty = true → retriesNextMode (s.uris a) = false) : Steers login r startConnect s := by
  have hfree : Free { s with connecting := true } a := { h with }
  rw [Steers, wp_startConnect, if_neg (by simp [hc])]
  split
  · exact giveUpConnecting_steers hfree ⟨hb.conn, hb.uris, hb.log⟩ (hendpoint ‹_›)
  · exact asyncConnect_steers hfree ⟨hb.conn, hb.uris, hb.log⟩

theorem resolveHandler_steers (h : Free s a) (hb : Beside r s) (endpoints : Option (List Nat))
    (hkept : endpoints = none → retriesNextMode (s.uris a) = false) : Steers login r (resolveHandler endpoints) s := by
  rw [Steers, wp_resolveHandler]
  cases endpoints with
  | none => exact giveUpConnecting_steers h hb (hkept rfl)
  | some l => exact h.onward hb rfl rfl (partTurns_push s .startConnect)

theorem connectFailed_steers (h : Free s a) (hb : Beside r s) : Steers login r connectFailed s := by
  have hrefused : s.refused.log = s.log ∧ Alike s s.refused := by
    unfold St.refused
    split
    · exact ⟨rfl, closed_alike s⟩
    · exact ⟨rfl, ⟨rfl, rfl, rfl, rfl, rfl, rfl, rfl, rfl, rfl, Iff.rfl⟩⟩
  rw [Steers, wp_connectFailed]
  split
  · intro b
    rw [hrefused.1]
    exact hb.finals b
  · exact h.onward hb hrefused.1 hrefused.2.connected
      ((partTurns_push s.refused .startConnect).trans hrefused.2.partTurns)

/-- The login that an established connection sends. -/
theorem connectEstablished_steers (h : Free s a) (hb : Beside r s) (handshakeFails : Bool)
    (hlogin : ((s.uris a).secure && handshakeFails) = false → s.hasStream (s.uris a) = true →
      login a = some (chooseMode (s.uris a)).stratumMode) :
    Steers login r (connectEstablished E handshakeFails) s := by
  rw [Steers, wp_connectEstablished, h.conn]
  show if _ then _ else _
  split
  case isTrue hfails =>
    refine ⟨given_of_finals hb.finals, fun b hb' => ?_⟩
    have hconn : some a = some b := h.conn.symm.trans hb'.conn
    obtain rfl : a = b := by simpa using hconn
    have hmark : (((s.established a).abandoned a).uris a).unrecoverable = true := by
      simp [St.abandoned, St.updateUri, Uri.markUnrecoverable]
    simpa [retriesNextMode, hmark] using hb'.retries
  case isFalse hfails =>
    have hchosen : (chooseMode { s.uris a with responds := true }).stratumMode =
        (chooseMode (s.uris a)).stratumMode := by
      unfold chooseMode
      split_ifs <;> rfl
    have huri : (s.established a).uris a = { s.uris a with responds := true } := if_pos rfl
    rw [wp_login (s := s.established a) h.conn]
    split
    case isTrue hstream =>
      have hstream' : s.hasStream (s.uris a) = true := by
        rw [huri] at hstream
        exact hstream
      refine wp_mono ((send_sent _).from_ _) (fun _ t ht => ?_) fun _ t ht b => ?_
      · obtain ⟨_, _, _, _, _, rfl⟩ := ht
        refine ⟨given_of_finals hb.finals, fun b hb' => .inl ?_⟩
        have hconn : some a = some b := h.conn.symm.trans hb'.conn
        obtain rfl : a = b := by simpa using hconn
        rw [hlogin (by simpa using hfails) hstream', ← hchosen, ← huri]
        show _ = some (((s.established a).loggingIn a).uris a).stratumMode
        rw [show ((s.established a).loggingIn a).uris a = chooseMode ((s.established a).uris a) from if_pos rfl]
      · obtain ⟨⟨_, _, _, _, _, rfl⟩, -⟩ := ht
        exact hb.finals b
    case isFalse => exact hb.finals

theorem connectHandler_steers (h : Free s a) (hb : Beside r s) (ec handshakeFails : Bool)
    (hlogin : s.socket = true → (ec || !s.isOpen) = false → ((s.uris a).secure && handshakeFails) = false →
      s.hasStream (s.uris a) = true → login a = some (chooseMode (s.uris a)).stratumMode) :
    Steers login r (connectHandler E ec handshakeFails) s := by
  have hfree : Free { s with connecting := false } a := { h with }
  rw [Steers, wp_connectHandler]
  split
  case isTrue hsocket =>
    split
    case isTrue => exact connectFailed_steers hfree ⟨hb.conn, hb.uris, hb.log⟩
    case isFalse hopen =>
      exact connectEstablished_steers hfree ⟨hb.conn, hb.uris, hb.log⟩ handshakeFails
        (hlogin hsocket (by simpa using hopen))
  case isFalse => exact hb.finals

theorem workloopTimerElapsed_steers (hb : Beside r s) (hup : s.up → r.up) (aborted : Bool) :
    Steers login r (workloopTimerElapsed E aborted) s := by
  cases aborted with
  | true => exact wp_workloopTimerElapsed_true.mpr (hb.onward hup)
  | false =>
    cases hc : s.conn with
    | none => exact (wp_workloopTimerElapsed_none hc).mpr (hb.onward hup)
    | some a =>
      refine wp_workloopTimerElapsed_of hc (fun t ht _ => ?_) (fun t ht _ => ?_) fun _ t ht a =>
        (finals_idle ht.idle a).trans (hb.finals a)
      · have hbeside : Beside r t := by
          obtain ⟨_, _, _, _, _, rfl⟩ := ht
          exact ⟨hb.conn, hb.uris, hb.log⟩
        exact Beside.onward (s := t.closed) ⟨hbeside.conn, hbeside.uris, hbeside.log⟩ fun h =>
          hup ((up_alike ht.idle.alike).mp ((up_alike (closed_alike t)).mp h))
      · refine .of_still (ht.alike.conn.trans hb.conn) (fun h => hup ?_) (fun a h => ?_) fun a =>
          (ht.finals a).trans (hb.finals a)
        · exact (up_alike ht.alike).mp ((up_alike (armed_alike t _)).mp h)
        · rw [← hb.uris]
          exact retries_of_processed (ht.uris a) h

theorem rotateConnect_steers (h : Ordered (s.cons .rotateConnect)) (choice : Option (Nat × Bool)) (hb : Beside r s)
    (hup : s.up → r.up) : Steers login r (rotateConnect choice) s := by
  rw [Steers, wp_rotateConnect]
  split
  · exact hb.onward hup
  · split
    · exact hb.onward hup
    · rename_i a delayed
      have hfree : Free (s.rebound a) a := h.rebound a
      split
      · refine .of_down (fun ht => hfree.not_up ht) fun b => ?_
        show finals b (.setConnection a :: s.log) = _
        rw [← hb.finals]
        simp [finals]
      · exact connect_steers hfree rfl (.inr (by rw [← hb.log]; rfl))

theorem onSSLShutdownCompleted_steers (hb : Beside r s) (hup : r.up) : Steers login r onSSLShutdownCompleted s := by
  rw [Steers, wp_onSSLShutdownCompleted]
  exact Beside.onward ⟨hb.conn, hb.uris, hb.log⟩ fun _ => hup

theorem up_of_cons {k : Handler} (h : s.up) : (s.cons k).up := by
  rcases h with hc | hpart
  · exact .inl hc
  · refine .inr (hpart.trans_le ?_)
    simp only [St.partTurns, St.cons, List.countP_cons]
    omega

theorem runHandler_steers {k : Handler} (h : Ordered (s.cons k)) (choice : Option (Nat × Bool))
    (hin : k = .disconnect → s.disconnecting = true ∨ s.connected = true)
    (hendpoint : hasEndpoint (s.cons k) (.run choice) = true) :
    Steers (loginSent (s.cons k) (.run choice)) (s.cons k) (runHandler E choice k) s := by
  have hb : Beside (s.cons k) s := ⟨rfl, rfl, rfl⟩
  have hup : s.up → (s.cons k).up := up_of_cons
  cases k with
  | startConnect =>
    obtain ⟨a, hfree⟩ := h.free rfl
    refine startConnect_steers hfree (h.connecting_eq_false rfl hfree.turns) hb fun hempty => ?_
    simpa [hasEndpoint, St.cons, hfree.conn, hempty] using hendpoint
  | disconnect => exact disconnect_steers (h.of_cons rfl) (hin rfl) hb hup
  | disconnectFinalize =>
    obtain ⟨a, hfree⟩ := h.free rfl
    rw [Steers, runHandler, wp_disconnectFinalize, hfree.conn]
    refine finalized_onward hb hfree.conn hfree.not_up fun _ => .inr ?_
    simp [St.partTurns, St.cons, Handler.isPart]
  | resolveHandler endpoints =>
    obtain ⟨a, hfree⟩ := h.free rfl
    refine resolveHandler_steers hfree hb endpoints fun hnone => ?_
    subst hnone
    simpa [hasEndpoint, St.cons, hfree.conn] using hendpoint
  | connectHandler ec handshakeFails =>
    obtain ⟨a, hfree⟩ := h.free rfl
    refine connectHandler_steers hfree hb ec handshakeFails fun hsocket hopen hfails hstream => if_pos ?_
    show (decide (s.conn = some a) && s.socket && !(ec || !s.isOpen) && !((s.uris a).secure && handshakeFails) &&
      s.hasStream (s.uris a)) = true
    rw [hfree.conn, hsocket, hopen, hfails, hstream]
    simp
  | workloopTimerElapsed aborted => exact workloopTimerElapsed_steers hb hup aborted
  | onRecvSocketDataCompleted data => exact (onRecvSocketDataCompleted_rests data).steers hb hup
  | onSendSocketDataCompleted ec => exact (onSendSocketDataCompleted_rests ec).steers hb hup
  | onSSLShutdownCompleted =>
    refine onSSLShutdownCompleted_steers hb (.inr ?_)
    simp [St.partTurns, St.cons, Handler.isPart]
  | processResponse response => exact (processResponse_tame response).rests.steers hb hup
  | rotateConnect => exact rotateConnect_steers h choice hb hup
  | reconnectTimerElapsed =>
    obtain ⟨a, hfree⟩ := h.free rfl
    rw [Steers, runHandler, wp_reconnectTimerElapsed, if_neg (by simp [St.isConnected, hfree.connected])]
    exact connect_steers hfree (h.connecting_eq_false rfl hfree.turns) (.inl rfl)

/-! ## The runs -/

/-- What a step does to the mode being tried; of a crash, only what was given up before it. -/
structure Moved (s : St) (e : Ev) (t : St) : Prop where
  given : ∀ a, givesUp s t a = true → Trying s a
  kept : t.crashed = none → ∀ a, Trying t a → loginSent s e a = some (t.uris a).stratumMode ∨
    Trying s a ∧ (t.uris a).stratumMode = (s.uris a).stratumMode ∧ givesUp s t a = false

theorem Onward.moved {e : Ev} (h : Onward (loginSent s e) s t) : Moved s e t := ⟨h.given, fun _ => h.kept⟩

theorem Steers.moved {e : Ev} {m : M Unit} (h : Steers (loginSent r e) r m s) : Moved r e (call m s) :=
  call_of_wp (wp_mono h (fun _ _ ht => ht.moved) fun _ _ ht => ⟨given_of_finals ht, nofun⟩)

theorem Fired.moved {e : Ev} (hf : Fired E s e t) (h : Ordered s) (hin : inOrder s e = true)
    (hendpoint : hasEndpoint s e = true) : Moved s e t := by
  cases he : e.isCompletion with
  | true =>
    have halike := hf.alike he
    obtain ⟨huris, hlog⟩ := hf.completion he
    refine Onward.moved (.of_still halike.conn (up_alike halike).mp (fun a ht => ?_) fun a => ?_)
    · rw [huris] at ht ⊢
      exact ⟨ht, rfl⟩
    · rcases hlog with hlog | ⟨bytes, hlog⟩ <;> simp [finals, hlog]
  | false =>
    cases hf with
    | @run choice k queue hq =>
      rw [St.eq_cons hq] at h hendpoint ⊢
      refine (runHandler_steers h choice (fun hk => ?_) hendpoint).moved
      subst hk
      simpa [inOrder, hq] using hin
    | callDisconnect _ =>
      exact (disconnect_steers h (by simpa [inOrder] using hin) ⟨rfl, rfl, rfl⟩ id).moved
    | stopConnected _ hc =>
      have hstopping : Ordered { s with stopping := true } := { h with }
      simp only [St.isConnected, Bool.and_eq_true] at hc
      exact Steers.moved (disconnect_steers (r := s) hstopping (.inr hc.1) ⟨rfl, rfl, rfl⟩ id)
    | stopUnconnected _ => exact Onward.moved (Beside.onward ⟨rfl, rfl, rfl⟩ id)
    | submitSolution _ => exact Steers.moved ((submitSolution_rests _).steers ⟨rfl, rfl, rfl⟩ id)
    | submitHashrate _ => exact Steers.moved ((submitHashrate_rests _ _).steers ⟨rfl, rfl, rfl⟩ id)
    | _ => cases he

/-- If every `disconnect` is in order and no connection attempt lacks an endpoint while the next
    mode is to be tried, a mode is given up only after a login in it was sent. -/
theorem given_up_after_login {past : List (St × Ev)} {e : Ev}
    (h : Past E (fun s e => inOrder s e && hasEndpoint s e) past s) (hin : (inOrder s e && hasEndpoint s e) = true)
    (ht : step E s e = some t) (hg : givesUp s t a = true) : tried E a (s.uris a).stratumMode past = true := by
  have hmoved : ∀ s e t, Orderly s → (inOrder s e && hasEndpoint s e) = true → step E s e = some t →
      Orderly t ∧ Moved s e t := by
    intro s e t hs hC hst
    obtain ⟨hcrash, hf⟩ := fired_of_step hst
    rw [Bool.and_eq_true] at hC
    exact ⟨(hs.ordered hcrash).step hC.1 hf, hf.moved (hs.ordered hcrash) hC.1 hC.2⟩
  have h0 : ∀ s, (∃ uris : Nat → Uri, (∀ a, (uris a).Fresh) ∧ s = init uris) → Orderly s := by
    rintro s ⟨uris, -, rfl⟩
    exact (ordered_init uris).orderly
  have hstep := fun s e t hs hC hst => (hmoved s e t hs hC hst).1
  have hnow := (hmoved s e t (h.invariant h0 hstep) hin ht).2.given a hg
  refine h.since (J := Orderly)
    (K := fun u => u.crashed = none ∧ Trying u a ∧ (u.uris a).stratumMode = (s.uris a).stratumMode) h0 hstep ?_ ?_
    ⟨(fired_of_step ht).1, hnow, rfl⟩
  · rintro u ⟨uris, -, rfl⟩ ⟨-, htrying, -⟩
    cases htrying.conn
  · rintro u f v hu hC hst ⟨hcrash, htrying, hmode⟩
    rcases (hmoved u f v hu hC hst).2.kept hcrash a htrying with hlogin | ⟨hbefore, hsame, hkept⟩
    · exact .inl (by simp [hlogin, hmode])
    · refine .inr ⟨⟨(fired_of_step hst).1, hbefore, hsame.symm.trans hmode⟩, ?_⟩
      simp [hst, hkept]

theorem past_of_trace {C : St → Ev → Bool} {uris : Nat → Uri} (h : ∀ a, (uris a).Fresh) (es : List Ev)
    {p : List (St × Ev) → St → Bool} (hp : (record (step E) C (init uris) es).any (fun q => p q.1 q.2) = true) :
    ∃ past s, Past E C past s ∧ p past s = true := by
  cases hrecord : record (step E) C (init uris) es with
  | none => simp [hrecord] at hp
  | some q => exact ⟨q.1, q.2, traced_record ⟨uris, h, rfl⟩ hrecord, by simpa [hrecord] using hp⟩

/-- A pool that refuses the login in mode 3: the mode is given up after it was tried. -/
theorem mode_given_up_after_refusal : ∃ past s t,
    Past (tableEnv [refusedLogin]) (fun s e => inOrder s e && hasEndpoint s e) past s ∧
    step (tableEnv [refusedLogin]) s (.run none) = some t ∧ givesUp s t 0 = true ∧
    tried (tableEnv [refusedLogin]) 0 (s.uris 0).stratumMode past = true := by
  obtain ⟨past, s, h, hs⟩ :=
      past_of_trace (E := tableEnv [refusedLogin]) (C := fun s e => inOrder s e && hasEndpoint s e)
    (fun _ => plainUri_fresh 999 (.inr rfl)) (connectTrace ++ [.received (lineOf refusedLogin), .run none])
    (p := fun _ s => inOrder s (.run none) && hasEndpoint s (.run none) &&
      (step (tableEnv [refusedLogin]) s (.run none)).any (givesUp s · 0)) (by decide +kernel)
  obtain ⟨hin, hstep⟩ := Bool.and_eq_true_iff.mp hs
  obtain ⟨hsome, hg⟩ := (Option.any_eq_true_iff_get _ _).mp hstep
  have ht := (Option.some_get hsome).symm
  exact ⟨past, s, _, h, ht, hg, given_up_after_login h hin ht hg⟩

/-- After mode 3 was refused, the next connection is refused too, and that was the last
    endpoint: mode 2 is given up, although no login in it was ever sent. -/
theorem mode_burnt_by_refused_socket : ∃ past s t, Past (tableEnv [refusedLogin]) (fun _ _ => true) past s ∧
    step (tableEnv [refusedLogin]) s (.run none) = some t ∧ givesUp s t 0 = true ∧
    tried (tableEnv [refusedLogin]) 0 (s.uris 0).stratumMode past = false := by
  obtain ⟨past, s, h, hs⟩ := past_of_trace (E := tableEnv [refusedLogin]) (C := fun _ _ => true)
    (fun _ => plainUri_fresh 999 (.inr rfl))
    (refusedTrace ++ [.run none, .run none, .run none, .connectCompletes true false, .run none])
    (p := fun past s => !tried (tableEnv [refusedLogin]) 0 (s.uris 0).stratumMode past &&
      (step (tableEnv [refusedLogin]) s (.run none)).any (givesUp s · 0)) (by decide +kernel)
  obtain ⟨hnot, hstep⟩ := Bool.and_eq_true_iff.mp hs
  obtain ⟨hsome, hg⟩ := (Option.any_eq_true_iff_get _ _).mp hstep
  exact ⟨past, s, _, h, (Option.some_get hsome).symm, hg, by simpa using hnot⟩

end CoreMiner.Stratum
