/-
  CoreMiner.Stratum.Attempts — how long a connection attempt may take
  (`XcbStratumClient.cpp`: `start_connect`, `disconnect`, `enqueue_response_plea`,
  `workloop_timer_elapsed`).

  `start_connect` enqueues a plea and starts to connect; the ticks of the workloop look at the
  time of the oldest plea to close the socket of an attempt that takes too long, and likewise
  that of a TLS shutdown. Their comparison is the other way round: a tick closes the socket as
  long as the timeout is not over, and after it never. So the first tick decides, and it is
  right only in the one millisecond in which the timeout is over and, in whole milliseconds,
  not yet exceeded (`full_timeout_iff`).
-/

import CoreMiner.Stratum.Moves

namespace CoreMiner.Stratum

open DevCore EthCore Lib Prog

variable {E : Env} {s t : St} {a : Nat}

/-! ## Attempts -/

inductive Attempt where
  | connect
  | shutdown

namespace Attempt

def start : Attempt → M Unit
  | connect => startConnect
  | shutdown => disconnect

/-- The attempt can be made: there is an endpoint to connect to, or an open TLS connection to shut down. -/
def Ready (a : Nat) (s : St) : Attempt → Prop
  | connect => s.conn = some a ∧ s.connecting = false ∧ s.endpoints ≠ []
  | shutdown => s.conn = some a ∧ (s.uris a).secure = true ∧ s.connecting = false ∧ s.disconnecting = false ∧
      s.socket = true ∧ s.securesocket = true ∧ s.isOpen = true

def pending (s : St) : Attempt → Bool
  | connect => s.connecting && decide (0 < s.connects)
  | shutdown => s.disconnecting && decide (0 < s.shutdowns)

/-- The time of the oldest plea once the attempt is made: `start_connect` clears the others, `disconnect` does not. -/
def older (s : St) : Attempt → Nat
  | connect => s.now
  | shutdown => if s.pleas.count = 0 then s.now else s.pleas.older

end Attempt

def tickAt (E : Env) (s : St) (now : Nat) : St := call (workloopTimerElapsed E false) { s with now }

def ticks (E : Env) (s : St) (times : List Nat) : St := times.foldl (tickAt E) s

def ClosesAt (E : Env) (s : St) (now : Nat) : Prop := s.isOpen = true ∧ (tickAt E s now).isOpen = false

/-- While the attempt is pending, a tick closes the socket exactly if the response timeout is over. -/
def FullTimeout (E : Env) (attempt : Attempt) (s : St) (times : List Nat) : Prop :=
  ∀ pre now post, times = pre ++ now :: post → attempt.pending (ticks E (call attempt.start s) pre) = true →
    (ClosesAt E (ticks E (call attempt.start s) pre) now ↔ E.responseTimeout * 1000000000 ≤ now - s.now)

/-! ## One tick -/

structure Underway (attempt : Attempt) (a older : Nat) (s : St) : Prop where
  conn : s.conn = some a
  isOpen : s.isOpen = true
  count : 0 < s.pleas.count
  plea : s.pleas.older = older
  flags : match attempt with
    | .connect => s.connecting = true ∧ s.socket = true ∧ 0 < s.connects
    | .shutdown => s.connecting = false ∧ s.disconnecting = true ∧ (s.uris a).secure = true ∧
        s.securesocket = true ∧ 0 < s.shutdowns

variable {attempt : Attempt} {older : Nat}

theorem Underway.pending (h : Underway attempt a older s) : attempt.pending s = true := by
  have hflags := h.flags
  cases attempt with
  | connect => simp [Attempt.pending, hflags]
  | shutdown => simp [Attempt.pending, hflags]

theorem Underway.isPendingState (h : Underway attempt a older s) : s.isPendingState = true := by
  have hflags := h.flags
  cases attempt with
  | connect => simp [St.isPendingState, hflags]
  | shutdown => simp [St.isPendingState, hflags]

theorem Underway.hasPending (h : Underway attempt a older s) : s.hasPending = true := by
  have hflags := h.flags
  cases attempt with
  | connect => simp [St.hasPending, hflags]
  | shutdown => simp [St.hasPending, hflags]

theorem Underway.sent (h : Underway attempt a older s) (hst : Sent s t) : Underway attempt a older t := by
  obtain ⟨_, _, _, _, _, rfl⟩ := hst
  exact ⟨h.conn, h.isOpen, h.count, h.plea, h.flags⟩

theorem Underway.later (h : Underway attempt a older s) (now : Nat) : Underway attempt a older { s with now } :=
  ⟨h.conn, h.isOpen, h.count, h.plea, h.flags⟩

/-- The source's comparison, in nanoseconds. -/
theorem toMilliseconds_le_iff (ns timeout : Nat) :
    toMilliseconds ns ≤ timeout * 1000 ↔ ns < timeout * 1000000000 + 1000000 := by
  unfold toMilliseconds
  omega

theorem Underway.closesPending_iff (h : Underway attempt a older s) :
    closesPending E s (s.uris a) = true ↔ s.now - older < E.responseTimeout * 1000000000 + 1000000 := by
  have hflags := h.flags
  rw [Stratum.closesPending, h.isPendingState, h.plea, h.isOpen, ← toMilliseconds_le_iff]
  cases attempt with
  | connect => simp [hflags]
  | shutdown => simp [hflags]

/-- Without a connection the keep-alive message is not sent, and nothing stops it. -/
theorem keepAlive_unconnected (hs : s.isConnected = false) (u : Uri) :
    wp (keepAlive E u) (fun _ t => Sent s t) (fun _ _ => False) s := by
  rw [keepAlive, wp_bind, wp_get]
  cases s.session with
  | none => exact .refl s
  | some session =>
    rw [wp_when]
    split
    · rw [wp_send]
      split
      · exact ⟨_, _, _, _, _, rfl⟩
      · rw [wp_sendSocketData, if_pos (by rw [Bool.or_eq_true, Bool.not_eq_true']; exact .inl hs)]
        exact ⟨_, _, _, _, _, rfl⟩
    · exact .refl s

def Over (s : St) : Prop := s.connects = 0 ∧ s.shutdowns = 0

theorem Over.not_pending (h : Over s) : attempt.pending s = false := by
  cases attempt with
  | connect => simp [Attempt.pending, h.1]
  | shutdown => simp [Attempt.pending, h.2]

/-- A tick closes the socket, or leaves the attempt under way. -/
theorem Underway.workloopTimerElapsed (h : Underway attempt a older s) :
    wp (workloopTimerElapsed E false)
      (fun _ t => if s.now - older < E.responseTimeout * 1000000000 + 1000000 then t.isOpen = false ∧ Over t
        else Underway attempt a older t) (fun _ _ => False) s := by
  have hunconnected : s.isConnected = false := by rw [St.isConnected, h.isPendingState, Bool.not_true, Bool.and_false]
  rw [Stratum.workloopTimerElapsed, wp_bind, wp_get, h.conn]
  show wp (do
    keepAlive E (s.uris a)
    let s ← get
    if 0 < s.pleas.count ∧ Stratum.closesPending E s (s.uris a) then closePending
    else
      when (0 < s.pleas.count) (checkTimeouts E (s.uris a))
      armWorkloop) _ _ s
  rw [wp_bind]
  refine wp_mono (keepAlive_unconnected hunconnected _) (fun _ t hst => ?_) fun _ _ hx => hx
  have ht := h.sent hst
  have hsame : t.now = s.now ∧ t.isConnected = s.isConnected := by
    obtain ⟨_, _, _, _, _, rfl⟩ := hst
    exact ⟨rfl, rfl⟩
  have hcloses := ht.closesPending_iff (E := E)
  rw [hsame.1] at hcloses
  rw [wp_bind, wp_get, wp_ite]
  by_cases hearly : s.now - older < E.responseTimeout * 1000000000 + 1000000
  · rw [if_pos ⟨ht.count, hcloses.mpr hearly⟩, wp_closePending, if_pos ht.hasPending, if_pos hearly]
    exact ⟨rfl, rfl, rfl⟩
  · rw [if_neg fun hc => hearly (hcloses.mp hc.2), wp_bind, wp_when, if_pos ht.count, checkTimeouts, wp_bind, wp_get,
      wp_when, if_neg (by rw [hsame.2, hunconnected]; exact Bool.false_ne_true), wp_armWorkloop, if_neg hearly]
    exact ⟨ht.conn, ht.isOpen, ht.count, ht.plea, ht.flags⟩

theorem Underway.tickAt (h : Underway attempt a older s) (now : Nat) :
    if now - older < E.responseTimeout * 1000000000 + 1000000
    then (tickAt E s now).isOpen = false ∧ Over (tickAt E s now) else Underway attempt a older (tickAt E s now) :=
  call_of_wp (P := fun t => if now - older < E.responseTimeout * 1000000000 + 1000000
    then t.isOpen = false ∧ Over t else Underway attempt a older t)
    (wp_mono (h.later now).workloopTimerElapsed (fun _ _ ht => ht) fun _ _ hx => hx.elim)

theorem Underway.closesAt_iff (h : Underway attempt a older s) (now : Nat) :
    ClosesAt E s now ↔ now - older < E.responseTimeout * 1000000000 + 1000000 := by
  have htick := h.tickAt (E := E) now
  by_cases hearly : now - older < E.responseTimeout * 1000000000 + 1000000
  · rw [if_pos hearly] at htick
    exact iff_of_true ⟨h.isOpen, htick.1⟩ hearly
  · rw [if_neg hearly] at htick
    exact iff_of_false (fun hc => absurd (hc.2.symm.trans htick.isOpen) Bool.false_ne_true) hearly

theorem Over.tickAt (h : Over s) (now : Nat) : Over (tickAt E s now) := by
  have hidle {t : St} (hst : Idle { s with now } t) : t.connects = 0 ∧ t.shutdowns = 0 :=
    ⟨(congrArg Link.connects hst.link).trans h.1, (congrArg Link.shutdowns hst.link).trans h.2⟩
  refine call_of_wp (P := Over) ?_
  cases hc : s.conn with
  | none => exact (wp_workloopTimerElapsed_none (s := { s with now }) hc).mpr ⟨h.1, h.2⟩
  | some a =>
    refine wp_workloopTimerElapsed_of (s := { s with now }) hc (fun t _ _ => ⟨rfl, rfl⟩) (fun t ht _ => ?_)
      fun _ t ht => hidle (t := t) ht.idle
    rcases ht.cases with ht | ⟨u, hu, -, rfl⟩
    · exact hidle (t := t) ht
    · exact hidle (t := u) hu.idle

/-! ## Runs of ticks -/

theorem Over.ticks (h : Over s) (times : List Nat) : Over (ticks E s times) := by
  induction times generalizing s with
  | nil => exact h
  | cons now times ih => exact ih (h.tickAt now)

/-- The attempt is pending behind the ticks exactly if all of them came too late to close it. -/
theorem Underway.ticks (h : Underway attempt a older s) (times : List Nat) :
    if ∀ now ∈ times, E.responseTimeout * 1000000000 + 1000000 ≤ now - older
    then Underway attempt a older (ticks E s times) else Over (ticks E s times) := by
  induction times generalizing s with
  | nil => simpa [Stratum.ticks] using h
  | cons now times ih =>
    have htick := h.tickAt (E := E) now
    by_cases hearly : now - older < E.responseTimeout * 1000000000 + 1000000
    · rw [if_pos hearly] at htick
      rw [if_neg fun hall => absurd (hall now List.mem_cons_self) (by omega)]
      exact htick.2.ticks times
    · rw [if_neg hearly] at htick
      have hsame : (∀ u ∈ now :: times, E.responseTimeout * 1000000000 + 1000000 ≤ u - older) ↔
          ∀ u ∈ times, E.responseTimeout * 1000000000 + 1000000 ≤ u - older := by
        rw [List.forall_mem_cons]
        exact and_iff_right (by omega)
      simp only [hsame]
      exact ih htick

/-! ## The start of an attempt -/

theorem Attempt.Ready.connect (h : Attempt.connect.Ready a s) :
    Underway .connect a s.now (call startConnect s) := by
  obtain ⟨hconn, hc, hendpoints⟩ := h
  refine call_of_wp (P := Underway .connect a s.now) ?_
  rw [wp_startConnect, if_neg (by simp [hc]), if_neg (by simpa using hendpoints), wp_asyncConnect]
  simp only [hconn]
  unfold St.opening
  split
  · rename_i hsocket
    exact ⟨rfl, rfl, Nat.one_pos, rfl, rfl, hsocket, Nat.succ_pos _⟩
  · exact ⟨rfl, rfl, Nat.one_pos, rfl, rfl, rfl, Nat.succ_pos _⟩

theorem Attempt.Ready.shutdown (h : Attempt.shutdown.Ready a s) :
    Underway .shutdown a (Attempt.shutdown.older s) (call disconnect s) := by
  obtain ⟨hconn, hsecure, hc, hd, hsocket, hsecuresocket, hopen⟩ := h
  refine call_of_wp (P := Underway .shutdown a (Attempt.shutdown.older s)) ?_
  rw [wp_disconnect, if_neg (by simp [hd]), if_pos hsocket, if_pos hopen, wp_shutdownSocket]
  have hparting : s.parting.aborted.conn = some a := hconn
  simp only [hparting]
  rw [if_pos (show (s.parting.aborted.uris a).secure = true from hsecure)]
  exact ⟨hconn, hopen, Nat.succ_pos _, rfl, hc, rfl, hsecure, hsecuresocket, Nat.succ_pos _⟩

theorem Attempt.Ready.underway (h : attempt.Ready a s) :
    Underway attempt a (attempt.older s) (call attempt.start s) := by
  cases attempt with
  | connect => exact h.connect
  | shutdown => exact h.shutdown

/-- An attempt gets its full timeout if and only if every tick up to the one that closes the socket comes both before
    the first whole millisecond behind the timeout of the oldest plea and not before the timeout is over, or neither. -/
theorem full_timeout_iff (h : attempt.Ready a s) (times : List Nat) : FullTimeout E attempt s times ↔
    ∀ pre now post, times = pre ++ now :: post →
      (∀ earlier ∈ pre, E.responseTimeout * 1000000000 + 1000000 ≤ earlier - attempt.older s) →
      (now - attempt.older s < E.responseTimeout * 1000000000 + 1000000 ↔
        E.responseTimeout * 1000000000 ≤ now - s.now) := by
  refine forall₃_congr fun pre now post => imp_congr_right fun _ => ?_
  have hticks := h.underway.ticks (E := E) pre
  by_cases hlate : ∀ earlier ∈ pre, E.responseTimeout * 1000000000 + 1000000 ≤ earlier - attempt.older s
  · rw [if_pos hlate] at hticks
    rw [imp_iff_right hticks.pending, imp_iff_right hlate, hticks.closesAt_iff]
  · rw [if_neg hlate] at hticks
    refine iff_of_true (fun hpending => ?_) fun hall => absurd hall hlate
    rw [hticks.not_pending] at hpending
    exact absurd hpending Bool.false_ne_true

def dialed : St := { conn := some 0, socket := true, endpoints := [0], uris := fun _ => plainUri 0 }

theorem dialed_ready : Attempt.connect.Ready 0 dialed := ⟨rfl, rfl, by decide⟩

/-- Two seconds are the timeout, and the first tick comes when they are over. -/
theorem full_timeout_of_two_seconds : FullTimeout (tableEnv []) .connect dialed [2000000000] := by
  refine (full_timeout_iff dialed_ready [2000000000]).mpr fun pre now post htimes _ => ?_
  cases pre with
  | nil =>
    cases htimes
    decide
  | cons u pre => simp at htimes

/-- After one second a reachable client has given the attempt up. -/
theorem closed_after_one_second : ¬ FullTimeout (tableEnv []) .connect dialed [1000000000] ∧
    ∃ s, Reach (tableEnv []) s ∧ s.now = 1000000000 ∧ s.connecting = true ∧ s.isOpen = false := by
  constructor
  · intro h
    have hstart := dialed_ready.underway
    have hcloses := (h [] 1000000000 [] rfl hstart.pending).mp ((hstart.closesAt_iff _).mpr (by decide))
    exact absurd hcloses (by decide)
  · exact reach_of_trace (tableEnv []) (fun _ => plainUri_fresh 0 (.inl (by decide)))
      [.run (some (0, false)), .run none, .run none, .advance 1000000000, .timerExpires, .run none] (by decide +kernel)

end CoreMiner.Stratum
