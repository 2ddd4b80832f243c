/-
  CoreMiner.Getwork.Polling — the poll chain of the getwork client
  (`XcbGetworkClient.cpp`: `handle_connect`, `handle_write`, `handle_read`,
  `processResponse`, `getwork_timer_elapsed`, `send`).

  A client that has a connection polls (`St.polling`): a getwork request waits, is on its
  way, or the timer that sends the next one runs. One request is under way at a time
  (`Sound.one`), so the chain is in one place; it goes on there in every run in which each
  reply to a getwork request renews it and no getwork request fails to be written while
  another endpoint is left (`polling_goes_on`).

  A reply that has no id, no result, no body or no JSON in it does not arm the timer, and a
  request that is lost with its write is not sent again: the client then waits for nothing,
  and the work timeout is never looked at (`polling_stops`).
-/

import CoreMiner.Getwork.Moves
import CoreMiner.Lib.Past

namespace CoreMiner.Getwork

open DevCore EthCore Lib Prog
open Stratum (Stop raise wp_raise Uri)

variable {E : Env} {s t : St}

/-! ## The chain -/

namespace Handler

def isOp : Handler → Bool
  | handleConnect _ | handleWrite _ | handleRead _ => true
  | _ => false

/-- The request is on its way until this handler is through. -/
def carries : Handler → Bool
  | handleWrite _ | handleRead _ => true
  | _ => false

def fires : Handler → Bool
  | getworkTimerElapsed false => true
  | _ => false

def starts : Handler → Bool
  | handleResolve _ | getworkTimerElapsed false => true
  | _ => false

end Handler

namespace St

def ops (s : St) : Nat := s.connects + s.writes + s.reads + s.queue.countP Handler.isOp

/-- A getwork request waits, or the timer that sends it runs. -/
def covered (s : St) : Bool := s.txQueue.any Request.isGetWork || s.timer.isSome || s.queue.any Handler.fires

def asking (s : St) : Bool := s.pending.any Request.isGetWork

def carrying (s : St) : Bool := decide (0 < s.writes) || decide (0 < s.reads) || s.queue.any Handler.carries

def polling (s : St) : Bool := s.covered || s.asking && s.carrying

end St

def arms (jRes : Json) : Bool :=
  match jRes.isMember "id", jRes.get "error" .null, jRes.isMember "result" with
  | .ok true, .ok error, .ok result => !error.empty || result
  | _, _, _ => false

def armsLine (E : Env) (line : List Char) : Bool :=
  match E.parse line with
  | .ok (some jRes) => arms jRes
  | _ => false

def renews (E : Env) (rxMessage : List Char) : Bool :=
  match replyLines rxMessage with
  | none => true
  | some lines => lines.any (armsLine E)

/-- A getwork request does not get lost, and its reply renews the chain, unless another one
    waits or the client disconnects. -/
def keepsPolling (E : Env) (s : St) : Ev → Bool
  | .run =>
    match s.queue with
    | .handleWrite (some ec) :: _ =>
      !s.asking || s.covered || (decide (ec ≠ .aborted) && decide (s.endpoints.length ≤ 1))
    | .handleRead (.ok rxMessage) :: _ => !s.asking || s.covered || rxMessage.isEmpty || renews E rxMessage
    | .handleRead (.error ec) :: _ => !s.asking || s.covered || decide (ec ≠ .aborted)
    | _ => true
  | _ => true

/-! ## The invariant -/

/-- One request at a time, of a client that has not disconnected. -/
structure Sound (s : St) : Prop where
  conn : s.conn.isSome = true
  one : s.ops ≤ 1
  idle : s.txPending = false → s.ops = 0
  /-- Before `connect`. -/
  untouched : s.connected = false → s.connecting = false →
    s.txPending = false ∧ s.resolves = 0 ∧ s.timer = none ∧ s.queue.any Handler.starts = false
  first : s.connected = false → s.txPending = true → s.txQueue.any Request.isGetWork = true

structure Live (s : St) : Prop extends Sound s where
  poll : s.connected = true → s.polling = true

structure Gone (s : St) : Prop where
  conn : s.conn = none
  connected : s.connected = false
  connecting : s.connecting = false

def Inv (s : St) : Prop := Live s ∨ Gone s

theorem gone_gone (s : St) : Gone s.gone := ⟨rfl, rfl, rfl⟩

theorem carrying_of_ops (h : s.ops = 0) : s.carrying = false := by
  have hcount : s.queue.countP Handler.isOp = 0 := by unfold St.ops at h; omega
  have hwrites : s.writes = 0 := by unfold St.ops at h; omega
  have hreads : s.reads = 0 := by unfold St.ops at h; omega
  have hqueue : s.queue.any Handler.carries = false := by
    refine List.any_eq_false.mpr fun k hk hcarries => List.countP_eq_zero.mp hcount k hk ?_
    cases k <;> first | rfl | cases hcarries
  simp [St.carrying, hwrites, hreads, hqueue]

theorem polling_of_covered (h : s.covered = true) : s.polling = true := by simp [St.polling, h]

theorem covered_of_polling (h : s.polling = true) (hcarrying : s.asking = true → s.carrying = false) :
    s.covered = true := by
  simp only [St.polling, Bool.or_eq_true, Bool.and_eq_true] at h
  rcases h with h | ⟨hask, hcar⟩
  · exact h
  · exact absurd (hcar.symm.trans (hcarrying hask)) nofun

theorem covered_queued (req : Request) (h : s.covered = true ∨ req.isGetWork = true) :
    (s.queued req).covered = true := by
  simp only [St.covered, St.queued, List.any_append, Bool.or_eq_true, List.any_cons, List.any_nil] at h ⊢
  tauto

/-! ## Requests -/

structure Between (s : St) : Prop where
  conn : s.conn.isSome = true
  ops : s.ops = 0
  pending : s.txPending = true
  connecting : s.connected = false → s.connecting = true
  first : s.connected = false → s.txQueue.any Request.isGetWork = true

structure Ready (s : St) : Prop extends Between s where
  covered : s.connected = true → s.covered = true

namespace Ready

theorem live (h : Ready s) : Live s where
  conn := h.conn
  one := h.ops.trans_le (by decide)
  idle _ := h.ops
  untouched hc hn := absurd ((h.connecting hc).symm.trans hn) nofun
  first hc _ := h.first hc
  poll hc := polling_of_covered (h.covered hc)

theorem dialed (h : Ready s) : Live s.dialed :=
  { h.live with
    one := by
      have hops := h.ops
      simp only [St.ops, St.dialed] at hops ⊢
      omega
    idle := fun hp => absurd (h.pending.symm.trans hp) nofun }

theorem begins (h : Ready s) : wp beginConnect (fun _ t => Inv t) (fun _ _ => True) s := by
  refine wp_beginConnect.mpr ?_
  split
  · split
    · trivial
    · exact .inr (gone_gone s)
  · exact .inl h.dialed

theorem tries (h : Ready s) : wp tryNext (fun _ t => Inv t) (fun _ _ => True) s := by
  refine wp_tryNext.mpr ?_
  split
  · trivial
  · split
    · trivial
    · exact .inr (gone_gone _)
    · exact .inl (dialed { h with })

end Ready

theorem send_inv {req : Request} (h : Sound s)
    (hfirst : s.connected = false → s.connecting = true ∧ req.isGetWork = true)
    (hpoll : s.connected = true → s.polling = true ∨ req.isGetWork = true) :
    wp (send req) (fun _ t => Inv t) (fun _ _ => True) s := by
  refine wp_send.mpr ?_
  split
  case isTrue hp =>
    refine .inl { h with untouched := fun hc hn => ?_, first := fun hc _ => ?_, poll := fun hc => ?_ }
    · exact absurd ((hfirst hc).1.symm.trans hn) nofun
    · simp [St.queued, (hfirst hc).2]
    · rcases hpoll hc with hs | hreq
      · simp only [St.polling, Bool.or_eq_true] at hs ⊢
        exact hs.imp_left fun hs => covered_queued req (.inl hs)
      · exact polling_of_covered (covered_queued req (.inr hreq))
  case isFalse hp =>
    have hops := h.idle (Bool.eq_false_of_not_eq_true hp)
    have hready : Ready { s.queued req with txPending := true } :=
      { h with
        ops := hops
        pending := rfl
        connecting := fun hc => (hfirst hc).1
        first := fun hc => by simp [St.queued, (hfirst hc).2]
        covered := fun hc => covered_queued req
          ((hpoll hc).imp_left fun hs => covered_of_polling hs fun _ => carrying_of_ops hops) }
    exact hready.begins

/-! ## Handlers -/

section

variable {k : Handler} {queue : List Handler}

theorem Sound.rest (h : Sound s) (hq : s.queue = k :: queue) (hk : k.isOp = false) : Sound { s with queue } := by
  have hops : { s with queue }.ops = s.ops := by simp [St.ops, hq, hk]
  refine { h with one := hops ▸ h.one, idle := hops ▸ h.idle, untouched := fun hc hn => ?_ }
  obtain ⟨hp, hr, ht, hs⟩ := h.untouched hc hn
  rw [hq, List.any_cons, Bool.or_eq_false_iff] at hs
  exact ⟨hp, hr, ht, hs.2⟩

theorem covered_rest (hq : s.queue = k :: queue) (hk : k.fires = false) : { s with queue }.covered = s.covered := by
  simp [St.covered, hq, hk]

theorem carrying_rest (hq : s.queue = k :: queue) (hk : k.carries = false) :
    { s with queue }.carrying = s.carrying := by
  simp [St.carrying, hq, hk]

theorem Live.rest (h : Live s) (hq : s.queue = k :: queue) (hk : k.isOp = false) (hf : k.fires = false) :
    Live { s with queue } := by
  refine { h.toSound.rest hq hk with poll := fun hc => ?_ }
  have hcarries : k.carries = false := by cases k <;> first | rfl | cases hk
  have := h.poll hc
  rwa [St.polling, ← covered_rest hq hf, ← carrying_rest hq hcarries] at this

/-- A handler that sends a request runs only once `connect` has been called. -/
theorem Sound.connecting_of_starts (h : Sound s) (hq : s.queue = k :: queue) (hk : k.starts = true)
    (hc : s.connected = false) : s.connecting = true := by
  refine Bool.of_not_eq_false fun hn => ?_
  have hstarts := (h.untouched hc hn).2.2.2
  rw [hq, List.any_cons, hk, Bool.true_or] at hstarts
  cases hstarts

theorem Sound.ops_rest (h : Sound s) (hq : s.queue = k :: queue) (hk : k.isOp = true) :
    s.ops = 1 ∧ { s with queue }.ops = 0 := by
  have hops : s.ops = { s with queue }.ops + 1 := by
    simp only [St.ops, hq, List.countP_cons_of_pos hk]
    omega
  have := h.one
  omega

theorem Sound.between (h : Sound s) (hq : s.queue = k :: queue) (hk : k.isOp = true) : Between { s with queue } := by
  obtain ⟨hone, hops⟩ := h.ops_rest hq hk
  have hp : s.txPending = true := Bool.of_not_eq_false fun hp => by
    have := h.idle hp
    omega
  exact {
    conn := h.conn
    ops := hops
    pending := hp
    connecting := fun hc => Bool.of_not_eq_false fun hn => absurd (hp.symm.trans (h.untouched hc hn).1) nofun
    first := fun hc => h.first hc hp }

theorem Sound.ready (h : Sound s) (hq : s.queue = k :: queue) (hk : k.isOp = true)
    (hcovered : s.connected = true → s.covered = true) : Ready { s with queue } := by
  have hfires : k.fires = false := by cases k <;> first | rfl | cases hk
  exact { h.between hq hk with covered := fun hc => (covered_rest hq hfires).trans (hcovered hc) }

theorem handleResolve_inv {endpoints : Option (List Nat)} (h : Live s)
    (hq : s.queue = .handleResolve endpoints :: queue) :
    wp (handleResolve endpoints) (fun _ t => Inv t) (fun _ _ => True) { s with queue } := by
  have hrest := h.rest hq rfl rfl
  cases endpoints with
  | some l =>
    rw [handleResolve, wp_bind, wp_modify]
    refine send_inv { hrest with } (fun hc => ⟨h.connecting_of_starts hq rfl hc, rfl⟩) fun _ => .inr rfl
  | none =>
    refine wp_reject.mpr ?_
    split
    · trivial
    · exact .inr (gone_gone _)

/-- Once the socket is connected, so is the client. -/
theorem Ready.welcomed (h : Ready s) : ∃ session connecting log currentTstamp,
    s.welcomed = { s with connected := true, session, connecting, log, currentTstamp } := by
  unfold St.welcomed
  split
  case isTrue => exact ⟨true, false, _, _, rfl⟩
  case isFalse hn =>
    have hc : s.connected = true := Bool.of_not_eq_false fun hc => hn (h.connecting hc)
    exact ⟨s.session, s.connecting, s.log, s.currentTstamp, by rw [← hc]⟩

theorem Ready.covers (h : Ready s) : s.covered = true := by
  cases hc : s.connected with
  | true => exact h.covered hc
  | false => simp [St.covered, h.first hc]

theorem Ready.idled (h : Ready s) (hc : s.connected = true) : Live s.idled where
  conn := h.conn
  one := h.ops.trans_le (by decide)
  idle _ := h.ops
  untouched hc' _ := absurd (hc.symm.trans hc') nofun
  first _ hp := absurd hp nofun
  poll _ := polling_of_covered h.covers

theorem Ready.written (h : Ready s) (hc : s.connected = true) {u : Uri} {req : Request} {rest : List Request}
    (hq : s.txQueue = req :: rest) : Live (s.written E u req rest) where
  conn := h.conn
  one := by
    have hops := h.ops
    simp only [St.ops, St.written, St.taken] at hops ⊢
    omega
  idle hp := absurd (h.pending.symm.trans hp) nofun
  untouched hc' _ := absurd (hc.symm.trans hc') nofun
  first hc' _ := absurd (hc.symm.trans hc') nofun
  poll _ := by
    have hcovers := h.covers
    simp only [St.covered, hq, List.any_cons, Bool.or_eq_true] at hcovers
    simp only [St.polling, St.covered, St.asking, St.carrying, St.written, St.taken, Option.any_some, Bool.or_eq_true,
      Bool.and_eq_true]
    rcases hcovers with ((hreq | hrest) | htimer) | hfires
    · exact .inr ⟨hreq, .inl (.inl (decide_eq_true (Nat.succ_pos _)))⟩
    · exact .inl (.inl (.inl hrest))
    · exact .inl (.inl (.inr htimer))
    · exact .inl (.inr hfires)

theorem handleConnect_inv {ec : Option Failure} (h : Live s) (hq : s.queue = .handleConnect ec :: queue) :
    wp (handleConnect E ec) (fun _ t => Inv t) (fun _ _ => True) { s with queue } := by
  have hready : Ready { s with queue } := h.ready hq rfl fun hc => covered_of_polling (h.poll hc) fun _ =>
    (carrying_rest hq rfl).symm.trans (carrying_of_ops (h.ops_rest hq rfl).2)
  obtain ⟨_, _, _, _, hwelcomed⟩ := hready.welcomed
  refine wp_handleConnect.mpr ?_
  split
  · have hwel : Ready { s with queue }.welcomed := by
      rw [hwelcomed]
      exact { hready with
        connecting := fun hc => absurd hc nofun
        first := fun hc => absurd hc nofun
        covered := fun _ => hready.covers }
    have hc : { s with queue }.welcomed.connected = true := by rw [hwelcomed]
    split
    · exact .inl (hwel.idled hc)
    · rename_i req rest htx
      split
      · trivial
      · exact .inl (hwel.written hc (by rw [hwelcomed]; exact htx))
  · split
    · exact .inl hready.live
    · exact hready.tries

theorem handleWrite_inv {ec : Option Failure} (h : Live s) (hq : s.queue = .handleWrite ec :: queue)
    (hC : keepsPolling E s .run = true) :
    wp (handleWrite ec) (fun _ t => Inv t) (fun _ _ => True) { s with queue } := by
  cases ec with
  | none =>
    -- The reply is now awaited, so a getwork request is still on its way.
    have hone := h.ops_rest hq rfl
    refine wp_modify.mpr
      (.inl { h with one := ?_, idle := fun hp => ?_, untouched := fun hc hn => ?_, poll := fun hc => ?_ })
    · have hops := hone.2
      simp only [St.ops] at hops ⊢
      omega
    · have := h.idle hp
      omega
    · have := h.idle (h.untouched hc hn).1
      omega
    · have hpoll := h.poll hc
      rw [St.polling, ← covered_rest hq rfl, Bool.or_eq_true, Bool.and_eq_true] at hpoll
      exact Bool.or_eq_true_iff.mpr
        (hpoll.imp_right fun hask => Bool.and_eq_true_iff.mpr ⟨hask.1, by simp [St.carrying]⟩)
  | some ec =>
    simp only [keepsPolling, hq, Bool.or_eq_true, Bool.not_eq_true', Bool.and_eq_true, decide_eq_true_eq] at hC
    have hcases : (s.connected = true → s.covered = true) ∨ ec ≠ .aborted ∧ s.endpoints.length ≤ 1 := by
      rcases hC with (hask | hcov) | hlast
      · exact .inl fun hc => covered_of_polling (h.poll hc) fun hask' => absurd (hask'.symm.trans hask) nofun
      · exact .inl fun _ => hcov
      · exact .inr hlast
    refine wp_when.mpr ?_
    rcases hcases with hcov | ⟨hne, hlast⟩
    · have hready := h.ready hq rfl hcov
      split
      · exact hready.tries
      · exact .inl hready.live
    · rw [if_pos hne, wp_tryNext]
      split
      · trivial
      · split
        · trivial
        · exact .inr (gone_gone _)
        · rename_i hendpoints
          rw [show s.endpoints = _ from hendpoints] at hlast
          simp at hlast

end

/-! ## Replies -/

theorem Answered.covered (h : Answered s t) (hs : s.covered = true) : t.covered = true := by
  obtain ⟨_, _, _, _, _, htimer, ⟨n, rfl⟩, rfl⟩ := h
  simp only [St.covered, Bool.or_eq_true, List.any_append] at hs ⊢
  rcases hs with (htx | ht) | hf
  · exact .inl (.inl htx)
  · exact .inl (.inr (htimer ht))
  · exact .inr (.inl hf)

theorem Between.answered (h : Between s) (ha : Answered s t) : Between t := by
  obtain ⟨_, _, _, _, _, _, ⟨n, rfl⟩, rfl⟩ := ha
  refine { h with ops := ?_ }
  have hops := h.ops
  simp only [St.ops, List.countP_append, List.countP_replicate] at hops ⊢
  simpa [Handler.isOp] using hops

theorem Answered.asking (h : Answered s t) : t.asking = s.asking := by
  obtain ⟨_, _, _, _, _, _, _, rfl⟩ := h
  rfl

theorem Answered.timer (h : Answered s t) (hs : s.timer.isSome = true) : t.timer.isSome = true := by
  obtain ⟨_, _, _, _, _, htimer, _, rfl⟩ := h
  exact htimer hs

theorem pending_of_asking (h : s.asking = true) : s.pending = some .getWork := by
  unfold St.asking at h
  rcases hp : s.pending with _ | _ | _ | _ <;> simp [hp, Request.isGetWork] at h ⊢

/-- An error, and a job, arm the timer. -/
theorem getWorkReply_arms {jRes : Json} {isSuccess : Bool}
    (h : isSuccess = false ∨ jRes.isMember "result" = .ok true) :
    wp (getWorkReply E jRes isSuccess) (fun _ t => t.timer.isSome = true) (fun _ _ => True) s := by
  unfold getWorkReply
  cases isSuccess with
  | false =>
    simp only [Bool.not_false, if_true, wp_bind, wp_getConn, wp_armTimer]
    cases s.conn <;> trivial
  | true =>
    have hmember := h.resolve_left (by decide)
    refine Stratum.wp_raise_bind_of fun member hm => ?_
    cases hm.symm.trans hmember
    refine Stratum.wp_raise_bind_of fun newWp _ => ?_
    simp only [wp_bind, wp_get, wp_when, wp_modify, wp_onWorkReceived, wp_armTimer]
    split
    · split
      · rfl
      · trivial
    · rfl

theorem armsLine_arms {line : List Char} (hask : s.asking = true) (h : armsLine E line = true) :
    wp (processLine E line) (fun _ t => t.timer.isSome = true) (fun _ _ => True) s := by
  unfold processLine
  refine Stratum.wp_raise_bind_of fun j hj => ?_
  cases j with
  | none => simp [armsLine, hj] at h
  | some jRes =>
    simp only [armsLine, hj, arms] at h
    split at h
    case h_2 => cases h
    case h_1 error result hid herror hresult =>
      refine Stratum.wp_raise_bind_of fun member hm => ?_
      cases hm.symm.trans hid
      rw [if_neg (by simp), wp_bind, wp_get]
      refine Stratum.wp_raise_bind_of fun id hpid => ?_
      rw [pending_of_asking hask] at hpid
      cases hpid
      refine Stratum.wp_raise_bind_of fun error' herror' => ?_
      cases herror'.symm.trans herror
      have harms : wp (getWorkReply E jRes error.empty) (fun _ t => t.timer.isSome = true) (fun _ _ => True) s := by
        refine getWorkReply_arms ?_
        rw [hresult]
        simpa using h
      rw [wp_bind, wp_when]
      split
      · exact Stratum.wp_raise_bind_of fun _ _ => harms
      · exact harms

theorem lines_arm {lines : List (List Char)} (hask : s.asking = true) (h : lines.any (armsLine E) = true) :
    wp (lines.forM (processLine E)) (fun _ t => t.timer.isSome = true) (fun _ _ => True) s := by
  induction lines generalizing s with
  | nil => cases h
  | cons line lines ih =>
    rw [List.any_cons, Bool.or_eq_true] at h
    refine wp_bind.mpr ?_
    rcases h with hline | hlines
    · refine wp_mono (armsLine_arms hask hline) (fun _ t ht => ?_) fun _ _ _ => trivial
      exact wp_mono ((lines_answer lines).from_ t) (fun _ _ ha => ha.timer ht) fun _ _ _ => trivial
    · refine wp_mono ((processLine_answers line).from_ s) (fun _ t ha => ?_) fun _ _ _ => trivial
      exact ih (ha.asking.trans hask) hlines

/-- Nothing is under way on the socket that is closed. -/
theorem Between.closes (h : Between s) : wp (when s.isOpen closeSocket)
    (fun _ t => Between t ∧ t.covered = s.covered ∧ t.asking = s.asking) (fun _ _ => True) s := by
  have hops := h.ops
  unfold St.ops at hops
  have hcalm : s.connects = 0 ∧ s.writes = 0 ∧ s.reads = 0 := by omega
  refine wp_when.mpr ?_
  split
  · refine wp_modify.mpr ⟨{ h with ops := ?_ }, ?_, rfl⟩
    · simpa [St.ops, hcalm] using hops
    · simp [St.covered, hcalm]
  · exact ⟨h, rfl, rfl⟩

theorem reject_inv : wp reject (fun _ t => Inv t) (fun _ _ => True) s := by
  refine wp_reject.mpr ?_
  split
  · trivial
  · exact .inr (gone_gone s)

theorem Ready.ends (h : Ready s) : wp endRequest (fun _ t => Inv t) (fun _ _ => True) s := by
  rw [endRequest, wp_bind, wp_get, wp_ite]
  split
  case isTrue => exact h.begins
  case isFalse hempty =>
    have hc : s.connected = true := Bool.of_not_eq_false fun hc => by
      have hfirst := h.first hc
      simp only [Bool.not_eq_true', Bool.not_eq_false, List.isEmpty_iff] at hempty
      rw [hempty] at hfirst
      cases hfirst
    exact wp_modify.mpr (.inl (h.idled hc))

theorem handleRead_inv {data : Except Failure (List Char)} {queue : List Handler} (h : Live s)
    (hq : s.queue = .handleRead data :: queue) (hC : keepsPolling E s .run = true) :
    wp (handleRead E data) (fun _ t => Inv t) (fun _ _ => True) { s with queue } := by
  have hbetween := h.between hq rfl
  -- Where the chain hung on this request, its reply is to renew it.
  have hchain (hask : s.asking = false) : s.covered = true := by
    have hready : Ready { s with queue } := h.ready hq rfl fun hc =>
      covered_of_polling (h.poll hc) fun hask' => absurd (hask'.symm.trans hask) nofun
    exact (covered_rest hq rfl).symm.trans hready.covers
  cases data with
  | error ec =>
    simp only [keepsPolling, hq, Bool.or_eq_true, Bool.not_eq_true', decide_eq_true_eq] at hC
    refine wp_when.mpr ?_
    split
    · exact reject_inv
    · rename_i haborted
      refine .inl (h.ready hq rfl fun _ => ?_).live
      rcases hC with (hask | hcov) | hne
      · exact hchain hask
      · exact hcov
      · exact absurd hne haborted
  | ok rxMessage =>
    simp only [keepsPolling, hq, Bool.or_eq_true, Bool.not_eq_true'] at hC
    rw [handleRead, wp_bind, wp_get, wp_bind]
    refine wp_mono hbetween.closes (fun _ c hc => ?_) fun _ _ _ => trivial
    obtain ⟨hclosed, hcovered, hasking⟩ := hc
    rw [covered_rest hq rfl] at hcovered
    rw [wp_ite]
    split
    · exact reject_inv
    · rename_i hempty
      cases hlines : replyLines rxMessage with
      | none => exact reject_inv
      | some lines =>
        have hanswered := (lines_answer (E := E) lines).from_ c
        have hrenewed : wp (lines.forM (processLine E)) (fun _ t => t.covered = true) (fun _ _ => True) c := by
          have hkept (hcov : s.covered = true) : wp (lines.forM (processLine E)) (fun _ t => t.covered = true)
              (fun _ _ => True) c :=
            wp_mono hanswered (fun _ _ ha => ha.covered (hcovered.trans hcov)) fun _ _ _ => trivial
          rcases hC with ((hask | hcov) | hnothing) | hrenews
          · exact hkept (hchain hask)
          · exact hkept hcov
          · exact absurd hnothing hempty
          · cases hask : s.asking with
            | false => exact hkept (hchain hask)
            | true =>
              rw [renews, hlines] at hrenews
              refine wp_mono (lines_arm (hasking.trans hask) hrenews) (fun _ t ht => ?_) fun _ _ _ => trivial
              simp [St.covered, ht]
        refine wp_bind.mpr (wp_mono (wp_and hrenewed hanswered) (fun _ t ht => ?_) fun _ _ _ => trivial)
        exact Ready.ends { hclosed.answered ht.2 with covered := fun _ => ht.1 }

/-! ## The timer -/

theorem getworkTimerElapsed_inv {aborted : Bool} {queue : List Handler} (h : Live s)
    (hq : s.queue = .getworkTimerElapsed aborted :: queue) :
    wp (getworkTimerElapsed E aborted) (fun _ t => Inv t) (fun _ _ => True) { s with queue } := by
  refine wp_when.mpr ?_
  cases aborted with
  | true => exact .inl (h.rest hq rfl rfl)
  | false =>
    rw [Bool.not_false, if_pos rfl, wp_bind, wp_get, wp_ite]
    split
    · rw [wp_bind, wp_popEndpoint]
      split
      · trivial
      · refine wp_disconnect.mpr ?_
        split
        · trivial
        · exact .inr (gone_gone _)
    · exact send_inv (h.toSound.rest hq rfl) (fun hc => ⟨h.connecting_of_starts hq rfl hc, rfl⟩) fun _ => .inr rfl

theorem runHandler_inv {k : Handler} {queue : List Handler} (h : Live s) (hq : s.queue = k :: queue)
    (hC : keepsPolling E s .run = true) :
    wp (runHandler E k) (fun _ t => Inv t) (fun _ _ => True) { s with queue } := by
  cases k with
  | handleResolve endpoints => exact handleResolve_inv h hq
  | handleConnect ec => exact handleConnect_inv h hq
  | handleWrite ec => exact handleWrite_inv h hq hC
  | handleRead data => exact handleRead_inv h hq hC
  | getworkTimerElapsed aborted => exact getworkTimerElapsed_inv h hq

/-! ## A client that has disconnected -/

theorem Gone.begins (h : Gone s) : wp beginConnect (fun _ t => Gone t) (fun _ _ => True) s := by
  refine wp_beginConnect.mpr ?_
  rw [h.conn]
  split
  · trivial
  · exact { h with }

theorem Gone.rejects (h : Gone s) : wp reject (fun _ t => Gone t) (fun _ _ => True) s := by
  refine wp_reject.mpr ?_
  rw [h.conn]
  trivial

theorem Gone.tries (h : Gone s) : wp tryNext (fun _ t => Gone t) (fun _ _ => True) s := by
  refine wp_tryNext.mpr ?_
  rw [h.conn]
  trivial

theorem Gone.sends (h : Gone s) (req : Request) : wp (send req) (fun _ t => Gone t) (fun _ _ => True) s := by
  refine wp_send.mpr ?_
  split
  · exact { h with }
  · exact Gone.begins { h with }

theorem Gone.disconnects : wp disconnect (fun _ t => Gone t) (fun _ _ => True) s := by
  refine wp_disconnect.mpr ?_
  split
  · trivial
  · exact gone_gone s

theorem Gone.answered (h : Gone s) (ha : Answered s t) : Gone t := by
  obtain ⟨_, _, _, _, _, _, _, rfl⟩ := ha
  exact { h with }

theorem Gone.reads (h : Gone s) (rxMessage : List Char) :
    wp (handleRead E (.ok rxMessage)) (fun _ t => Gone t) (fun _ _ => True) s := by
  have hcloses : wp (when s.isOpen closeSocket) (fun _ t => Gone t) (fun _ _ => True) s := by
    refine wp_when.mpr ?_
    split
    · exact wp_modify.mpr { h with }
    · exact h
  rw [handleRead, wp_bind, wp_get, wp_bind]
  refine wp_mono hcloses (fun _ c hc => ?_) fun _ _ _ => trivial
  rw [wp_ite]
  split
  · exact hc.rejects
  · cases replyLines rxMessage with
    | none => exact hc.rejects
    | some lines =>
      refine wp_bind.mpr (wp_mono ((lines_answer lines).from_ c) (fun _ t ha => ?_) fun _ _ _ => trivial)
      have ht := hc.answered ha
      rw [endRequest, wp_bind, wp_get, wp_ite]
      split
      · exact ht.begins
      · exact wp_modify.mpr { ht with }

theorem Gone.runs (h : Gone s) (k : Handler) : wp (runHandler E k) (fun _ t => Gone t) (fun _ _ => True) s := by
  cases k with
  | handleResolve endpoints =>
    cases endpoints with
    | none => exact h.rejects
    | some l =>
      have hfound : Gone { s with endpoints := s.endpoints ++ l } := { h with }
      exact wp_bind.mpr (wp_modify.mpr (hfound.sends .getWork))
  | handleConnect ec =>
    refine wp_handleConnect.mpr ?_
    have hwelcomed : s.welcomed = s := by simp [St.welcomed, h.connecting]
    rw [h.conn, hwelcomed]
    split
    · split
      · exact { h with }
      · trivial
    · split
      · exact h
      · exact h.tries
  | handleWrite ec =>
    cases ec with
    | none => exact wp_modify.mpr { h with }
    | some ec =>
      refine wp_when.mpr ?_
      split
      · exact h.tries
      · exact h
  | handleRead data =>
    cases data with
    | ok rxMessage => exact h.reads rxMessage
    | error ec =>
      refine wp_when.mpr ?_
      split
      · exact h.rejects
      · exact h
  | getworkTimerElapsed aborted =>
    refine wp_when.mpr ?_
    split
    · rw [wp_bind, wp_get, wp_ite]
      split
      · rw [wp_bind, wp_popEndpoint]
        split
        · trivial
        · exact Gone.disconnects
      · exact h.sends .getWork
    · exact h

theorem Gone.connects (h : Gone s) : wp connect (fun _ t => Gone t) (fun _ _ => True) s := by
  rw [connect, wp_bind, wp_get, wp_when, h.connecting]
  simp only [Bool.not_false, if_true, wp_bind, wp_modify, wp_cancelTimer, wp_getConn, St.untimed, h.conn]

/-! ## Runs -/

theorem Live.completes {k : Handler} {connects writes reads : Nat} (h : Live s) (hk : k.isOp = true)
    (hops : s.connects + s.writes + s.reads = connects + writes + reads + 1)
    (hcarries : k.carries = true ∨ writes = s.writes ∧ reads = s.reads) :
    Live ({ s with connects, writes, reads }.push k) := by
  have hsame : ({ s with connects, writes, reads }.push k).ops = s.ops := by
    simp only [St.ops, St.push, List.countP_append, List.countP_singleton, hk, if_true]
    omega
  have hfires : k.fires = false := by cases k <;> first | rfl | cases hk
  have hstarts : k.starts = false := by cases k <;> first | rfl | cases hk
  refine { h with one := hsame ▸ h.one, idle := hsame ▸ h.idle, untouched := fun hc hn => ?_, poll := fun hc => ?_ }
  · obtain ⟨hp, hr, ht, hs⟩ := h.untouched hc hn
    exact ⟨hp, hr, ht, by simp [St.push, hs, hstarts]⟩
  · have hpoll := h.poll hc
    simp only [St.polling, Bool.or_eq_true, Bool.and_eq_true] at hpoll ⊢
    refine hpoll.imp (fun hcov => ?_) fun hask => ⟨hask.1, ?_⟩
    · simpa [St.covered, St.push, hfires] using hcov
    · rcases hcarries with hcar | ⟨rfl, rfl⟩
      · simp [St.carrying, St.push, hcar]
      · have hcar := hask.2
        simp only [St.carrying, St.push, List.any_append, Bool.or_eq_true] at hcar ⊢
        exact hcar.imp_right .inl

theorem Live.resolved (h : Live s) (hpos : 0 < s.resolves) (endpoints : Option (List Nat)) :
    Live ({ s with resolves := s.resolves - 1 }.push (.handleResolve endpoints)) := by
  have hsame : ({ s with resolves := s.resolves - 1 }.push (.handleResolve endpoints)).ops = s.ops := by
    simp [St.ops, St.push, Handler.isOp]
  refine { h with one := hsame ▸ h.one, idle := hsame ▸ h.idle, untouched := fun hc hn => ?_, poll := fun hc => ?_ }
  · have := (h.untouched hc hn).2.1
    omega
  · have hpoll := h.poll hc
    simp only [St.polling, St.covered, St.asking, St.carrying, St.push, List.any_append, List.any_cons, List.any_nil,
      Handler.fires, Handler.carries, Bool.or_false] at hpoll ⊢
    exact hpoll

theorem Live.expired (h : Live s) {d : Nat} (ht : s.timer = some d) :
    Live ({ s with timer := none }.push (.getworkTimerElapsed false)) := by
  have hsame : ({ s with timer := none }.push (.getworkTimerElapsed false)).ops = s.ops := by
    simp [St.ops, St.push, Handler.isOp]
  refine { h with one := hsame ▸ h.one, idle := hsame ▸ h.idle, untouched := fun hc hn => ?_, poll := fun _ => ?_ }
  · exact absurd (ht.symm.trans (h.untouched hc hn).2.2.1) nofun
  · exact polling_of_covered (by simp [St.covered, St.push, Handler.fires])

theorem untimed_of_none (h : s.timer = none) : s.untimed = s := by
  unfold St.untimed
  rw [h, Option.isSome_none, if_neg (by decide), ← h]

theorem Live.connects (h : Live s) (hc : s.connected = false) :
    wp connect (fun _ t => Inv t) (fun _ _ => True) s := by
  rw [connect, wp_bind, wp_get, wp_when]
  cases hn : s.connecting with
  | true => exact .inl h
  | false =>
    obtain ⟨hp, hr, ht, hs⟩ := h.untouched hc hn
    have hconnecting : Live { s with connecting := true, endpoints := [] } :=
      { h with untouched := fun _ hn => absurd hn nofun }
    rw [Bool.not_false, if_pos rfl, wp_bind, wp_modify, wp_bind, wp_cancelTimer,
      untimed_of_none (s := { s with connecting := true }) ht, wp_bind, wp_modify, wp_bind, wp_getConn]
    split
    · trivial
    · rw [wp_ite]
      split
      · refine wp_modify.mpr (.inl ?_)
        rw [show List.replicate s.resolves (Handler.handleResolve none) = [] by rw [hr]; rfl, List.append_nil]
        exact { hconnecting with untouched := fun _ hn => absurd hn nofun }
      · have hdirect : Live { s with connecting := true, endpoints := [0] } :=
          { hconnecting with untouched := fun _ hn => absurd hn nofun }
        exact wp_bind.mpr (wp_modify.mpr (send_inv hdirect.toSound (fun _ => ⟨rfl, rfl⟩) fun _ => .inr rfl))

theorem Live.submits (h : Live s) (hc : s.connected = true) (req : Request) :
    wp (send req) (fun _ t => Inv t) (fun _ _ => True) s :=
  send_inv h.toSound (fun hc' => absurd (hc.symm.trans hc') nofun) fun hc => .inl (h.poll hc)

theorem live_step {e : Ev} (h : Live s) (hC : keepsPolling E s e = true) (ht : Fired E s e t)
    (hrun : t.crashed = none) :
    Inv t := by
  cases ht with
  | run hq => exact call_holds (runHandler_inv h hq hC) hrun
  | resolved hpos => exact .inl (h.resolved hpos _)
  | connectCompletes hpos => exact .inl (h.completes rfl (by omega) (.inr ⟨rfl, rfl⟩))
  | writeCompletes hpos => exact .inl (h.completes rfl (by omega) (.inl rfl))
  | readCompletes hpos => exact .inl (h.completes rfl (by omega) (.inl rfl))
  | timerExpires ht hd => exact .inl (h.expired ht)
  | advance => exact .inl { h with }
  | connect hc => exact call_holds (h.connects hc) hrun
  | disconnect => exact .inr (call_holds Gone.disconnects hrun)
  | submitHashrate hc =>
    refine call_holds ?_ hrun
    rw [submitHashrate, wp_bind, wp_get, wp_when]
    split
    · exact h.submits hc _
    · exact .inl h
  | @submitSolution solution hc =>
    refine call_holds ?_ hrun
    rw [submitSolution, wp_bind, wp_get, wp_when]
    split
    · have hmax : Live { s with
          solutionSubmittedMaxId := max s.solutionSubmittedMaxId (Request.solutionId solution) } := { h with }
      exact wp_bind.mpr (wp_modify.mpr (hmax.submits hc _))
    · exact .inl h

theorem gone_step {e : Ev} (h : Gone s) (ht : Fired E s e t) (hrun : t.crashed = none) : Gone t := by
  cases ht with
  | @run k queue hq =>
    have hrest : Gone { s with queue } := { h with }
    exact call_holds (hrest.runs k) hrun
  | connect => exact call_holds h.connects hrun
  | disconnect => exact call_holds Gone.disconnects hrun
  | submitHashrate hc => exact absurd (hc.symm.trans h.connected) nofun
  | submitSolution hc => exact absurd (hc.symm.trans h.connected) nofun
  | _ => exact { h with }

theorem inv_of_run {past : List (St × Ev)} (h : Traced (step E) (fun s => ∃ u maxId, s = init u maxId)
    (fun s e => keepsPolling E s e = true) past s) : s.crashed = none → Inv s := by
  refine h.invariant (J := fun s => s.crashed = none → Inv s) ?_ fun s e t ih hC hstep hrun => ?_
  · rintro s ⟨u, maxId, rfl⟩ _
    exact .inl ⟨⟨rfl, Nat.zero_le _, fun _ => rfl, fun _ _ => ⟨rfl, rfl, rfl, rfl⟩, fun _ hp => nomatch hp⟩,
      fun hc => nomatch hc⟩
  · obtain ⟨halive, hfired⟩ := fired_of_step hstep
    rcases ih halive with hlive | hgone
    · exact live_step hlive hC hfired hrun
    · exact .inr (gone_step hgone hfired hrun)

/-- A connected client polls, in every run in which each reply to a getwork request renews the
    chain and none of these requests fails to be written while another endpoint is left. -/
theorem polling_goes_on (E : Env) {past : List (St × Ev)} {s : St}
    (h : Traced (step E) (fun s => ∃ u maxId, s = init u maxId) (fun s e => keepsPolling E s e = true) past s)
    (hrun : s.crashed = none) (hc : s.connected = true) : s.polling = true := by
  rcases inv_of_run h hrun with hlive | hgone
  · exact hlive.poll hc
  · exact absurd (hc.symm.trans hgone.connected) nofun

/-! ## Runs on a node -/

def nodeEnv (jRes : Json) : Env where
  parse _ := .ok (some jRes)
  writeString _ := ""
  worktimeout := 180
  farmRecheckPeriod := 500

def nodeUri : Uri where
  version := 0
  secLevel := .none
  hostNameType := .ipv4
  host := "127.0.0.1"
  port := 8545

def okReply (body : String) : List Char := ("HTTP/1.0 200 OK\r\n\r\n" ++ body).toList

def firstPoll : List Ev := [.connect, .connectCompletes false, .run, .writeCompletes false, .run]

def jobReply : Json := .obj [("id", .int 1), ("result", .arr [.str "0x01", .str "0x02", .str "0x03"])]

/-- A reply without an id ends the polling: no request is left, and no timer. -/
theorem polling_stops : ∃ past s,
    Traced (step (nodeEnv (.obj []))) (fun s => ∃ u maxId, s = init u maxId) (fun _ _ => true = true) past s ∧
      s.crashed = none ∧ s.connected = true ∧ s.polling = false :=
  traced_of_record (step (nodeEnv (.obj []))) (fun _ _ => true) ⟨nodeUri, 0, rfl⟩
    (firstPoll ++ [.readCompletes (okReply "\x7b\x7d"), .run])
    (P := fun _ s => s.crashed = none ∧ s.connected = true ∧ s.polling = false) (by decide +kernel)

/-- A job keeps it up. -/
theorem polling_after_job : ∃ past s,
    Traced (step (nodeEnv jobReply)) (fun s => ∃ u maxId, s = init u maxId)
      (fun s e => keepsPolling (nodeEnv jobReply) s e = true) past s ∧
      (s.crashed = none ∧ s.connected = true ∧ s.txPending = false) ∧ s.polling = true := by
  obtain ⟨past, s, hrun, hs⟩ := traced_of_record (step (nodeEnv jobReply)) (I := fun s => ∃ u maxId, s = init u maxId)
    (keepsPolling (nodeEnv jobReply)) ⟨nodeUri, 0, rfl⟩
    (firstPoll ++ [.readCompletes (okReply "\x7b\"id\":1,\"result\":[\"0x01\",\"0x02\",\"0x03\"]\x7d"), .run])
    (P := fun _ s => s.crashed = none ∧ s.connected = true ∧ s.txPending = false) (by decide +kernel)
  exact ⟨past, s, hrun, hs, polling_goes_on _ hrun hs.1 hs.2.1⟩

end CoreMiner.Getwork
