/-
  CoreMiner.Stratum.Phases — the phases of a client, and what may be queued in each
  (`XcbStratumClient.cpp`; `PoolManager.cpp`: `rotateConnect`, `reconnecttimer_elapsed`).

  A client is in one of seven phases (`Phase`), each with its flags, the operations that may be
  under way and the handlers that may be queued, and in which order (`In`). Of the handlers that
  carry the client from one phase to the next there is one at a time (`St.batons`), and of the
  ticks (`St.chains`).
-/

import CoreMiner.Stratum.Posters
import CoreMiner.Stratum.Watchdog

namespace CoreMiner.Stratum

open DevCore EthCore Lib Prog

variable {E : Env} {s t u : St} {a : Nat}

/-! ## Phases -/

inductive Phase where
  /-- The connection is reported as lost; the pool manager comes next. -/
  | unbound
  /-- A new client waits for the reconnect timer. -/
  | waiting
  | resolving
  | posted
  | connecting
  | connected
  /-- A TLS connection is shut down. -/
  | disconnecting
  deriving DecidableEq

namespace Handler

def isPoster : Handler → Bool
  | onRecvSocketDataCompleted _ | onSendSocketDataCompleted _ | processResponse _ => true
  | _ => false

/-- The handlers of which there is one at a time. -/
def isBaton : Handler → Bool
  | resolveHandler _ | connectHandler .. | onSSLShutdownCompleted | disconnectFinalize | rotateConnect
  | reconnectTimerElapsed => true
  | _ => false

/-- May the first one be queued in front of the second one? No `start_connect` is left when the client is connected,
    and no `disconnect` when its shutdown is completed. -/
def mayPrecede : Handler → Handler → Bool
  | connectHandler .., startConnect => false
  | disconnectFinalize, disconnect => false
  | k, l => !((k.isPart && l.isPoster) || (k.isPoster && match l with | disconnectFinalize => true | _ => false))

end Handler

namespace Phase

def chats (secure : Bool) : Phase → Bool
  | unbound | connected | disconnecting => true
  | posted | connecting => !secure
  | waiting | resolving => false

def talks (secure : Bool) (p : Phase) : Bool := p.chats secure && p ≠ disconnecting

def allows (secure : Bool) (p : Phase) : Handler → Bool
  | .workloopTimerElapsed aborted => aborted || p ≠ waiting
  | .startConnect => p = unbound || p = posted || p = connecting
  | .resolveHandler _ => p = resolving
  | .connectHandler .. => p = connecting
  | .onSSLShutdownCompleted | .disconnectFinalize => p = disconnecting
  | .rotateConnect => p = unbound
  | .reconnectTimerElapsed => p = waiting
  | .disconnect | .onRecvSocketDataCompleted _ | .onSendSocketDataCompleted _ | .processResponse _ => p.chats secure

end Phase

namespace St

def secure (s : St) : Bool := s.conn.any fun a => (s.uris a).secure

def chains (s : St) : Nat := (s.timer.any Wait.isFinite).toNat + s.queue.countP Handler.isTick

def batons (s : St) : Nat :=
  s.resolves + s.connects + s.shutdowns + s.reconnectPending.toNat + s.queue.countP Handler.isBaton

/-- A `disconnect` is queued in front of every tick. -/
def Dropped (s : St) : Prop := ∃ pre post, s.queue = pre ++ .disconnect :: post ∧ ∀ k ∈ pre, k.isTick = false

end St

/-- What there is in a phase; where an endpoint may be popped, the endpoint. -/
def Phase.Stock (s : St) : Phase → Prop
  | waiting => s.timer.any Wait.isFinite = false
  | connecting => s.socket = true ∧ s.endpoints ≠ [] ∧ 0 < s.connectTurns
  | connected => s.socket = true ∧ (s.endpoints ≠ [] ∨ s.Dropped)
  | disconnecting => s.secure = true
  | _ => True

structure In (p : Phase) (s : St) : Prop where
  running : s.crashed = none
  bound : s.conn = none ↔ p = .unbound
  connecting : s.connecting = true ↔ p = .connecting
  connected : s.connected = true ↔ p = .connected
  disconnecting : s.disconnecting = true ↔ p = .disconnecting
  pending : s.reconnectPending = true → p = .waiting
  resolves : 0 < s.resolves → p = .resolving
  connects : 0 < s.connects → p = .connecting
  shutdowns : 0 < s.shutdowns → p = .disconnecting
  still : p.talks s.secure = false → s.reads = 0 ∧ s.writes = []
  allowed : ∀ k ∈ s.queue, p.allows s.secure k = true
  order : s.queue.Pairwise fun k l => k.mayPrecede l = true
  one : s.batons ≤ 1
  chain : s.chains ≤ 1
  stock : p.Stock s

/-- A `connect_handler` is queued, and no new client and no new endpoints in front of it. -/
def St.Awaited (s : St) : Prop := ∃ pre k post, s.queue = pre ++ k :: post ∧ k.isConnect = true ∧
  ∀ l ∈ pre, l.isRotate = false ∧ ∀ endpoints, l ≠ .resolveHandler endpoints

/-- The `connect_handler` to come has no socket, so the program will stop there. -/
structure Doomed (s : St) : Prop where
  running : s.crashed = none
  connecting : s.connecting = true
  socket : s.socket = false
  awaited : s.Awaited

def Stocked (s : St) : Prop := (∃ p, In p s) ∨ Doomed s

variable {p : Phase}

theorem In.stocked (h : In p s) : Stocked s := .inl ⟨p, h⟩

/-! ## Queues that grow -/

structure Unmoved (s t : St) : Prop where
  running : t.crashed = s.crashed
  conn : t.conn = s.conn
  secure : t.secure = s.secure
  connecting : t.connecting = s.connecting
  connected : t.connected = s.connected
  disconnecting : t.disconnecting = s.disconnecting
  socket : t.socket = s.socket
  endpoints : t.endpoints = s.endpoints
  pending : t.reconnectPending = true → s.reconnectPending = true
  resolves : t.resolves ≤ s.resolves
  connects : t.connects ≤ s.connects
  shutdowns : t.shutdowns ≤ s.shutdowns
  timer : t.timer.any Wait.isFinite = true → s.timer.any Wait.isFinite = true
  batons : t.batons ≤ s.batons
  chains : t.chains ≤ s.chains
  turns : s.connectTurns ≤ t.connectTurns

theorem St.Dropped.append {new : List Handler} (h : s.Dropped) (hq : t.queue = s.queue ++ new) : t.Dropped := by
  obtain ⟨pre, post, hs, hpre⟩ := h
  exact ⟨pre, post ++ new, by rw [hq, hs]; simp, hpre⟩

theorem In.unmoved {l : List Handler} (h : In p s) (ho : Unmoved s t) (hq : t.queue = s.queue ++ l)
    (hstill : p.talks s.secure = false → t.reads = s.reads ∧ t.writes = s.writes)
    (hnew : ∀ k ∈ l, p.allows s.secure k = true) (hin : l.Pairwise fun k m => k.mayPrecede m = true)
    (hout : ∀ k ∈ s.queue, ∀ m ∈ l, k.mayPrecede m = true) : In p t where
  running := ho.running.trans h.running
  bound := by rw [ho.conn]; exact h.bound
  connecting := by rw [ho.connecting]; exact h.connecting
  connected := by rw [ho.connected]; exact h.connected
  disconnecting := by rw [ho.disconnecting]; exact h.disconnecting
  pending hp := h.pending (ho.pending hp)
  resolves hp := h.resolves (hp.trans_le ho.resolves)
  connects hp := h.connects (hp.trans_le ho.connects)
  shutdowns hp := h.shutdowns (hp.trans_le ho.shutdowns)
  still ht := by
    rw [ho.secure] at ht
    rw [(hstill ht).1, (hstill ht).2]
    exact h.still ht
  allowed k hk := by
    rw [hq, List.mem_append] at hk
    rw [ho.secure]
    exact hk.elim (h.allowed k) (hnew k)
  order := by
    rw [hq, List.pairwise_append]
    exact ⟨h.order, hin, hout⟩
  one := ho.batons.trans h.one
  chain := ho.chains.trans h.chain
  stock := by
    have hstock := h.stock
    cases p with
    | waiting =>
      refine Bool.eq_false_of_not_eq_true fun ht => ?_
      exact absurd (hstock.symm.trans (ho.timer ht)) Bool.false_ne_true
    | connecting =>
      obtain ⟨hsocket, hendpoints, hturns⟩ := hstock
      exact ⟨ho.socket.trans hsocket, by rw [ho.endpoints]; exact hendpoints, hturns.trans_le ho.turns⟩
    | connected =>
      obtain ⟨hsocket, hendpoints⟩ := hstock
      exact ⟨ho.socket.trans hsocket, by rw [ho.endpoints]; exact hendpoints.imp_right fun hd => hd.append hq⟩
    | disconnecting => exact ho.secure.trans hstock
    | _ => trivial

/-- The connection stays as it is, and neither ticks nor batons join the queue. -/
theorem Unmoved.of_link {l : List Handler} (hl : t.link = s.link) (hsecure : t.secure = s.secure)
    (hq : t.queue = s.queue ++ l) (hnew : ∀ k ∈ l, k.isBaton = false ∧ k.isTick = false) : Unmoved s t := by
  have hresolves : t.resolves = s.resolves := congrArg Link.resolves hl
  have hconnects : t.connects = s.connects := congrArg Link.connects hl
  have hshutdowns : t.shutdowns = s.shutdowns := congrArg Link.shutdowns hl
  have hpending : t.reconnectPending = s.reconnectPending := congrArg Link.reconnectPending hl
  have htimer : t.timer = s.timer := congrArg Link.timer hl
  have hbatons : l.countP Handler.isBaton = 0 := List.countP_eq_zero.mpr fun k hk => by simp [(hnew k hk).1]
  have hticks : l.countP Handler.isTick = 0 := List.countP_eq_zero.mpr fun k hk => by simp [(hnew k hk).2]
  exact {
    running := congrArg Link.crashed hl
    conn := congrArg Link.conn hl
    secure := hsecure
    connecting := congrArg Link.connecting hl
    connected := congrArg Link.connected hl
    disconnecting := congrArg Link.disconnecting hl
    socket := congrArg Link.socket hl
    endpoints := congrArg Link.endpoints hl
    pending := by rw [hpending]; exact id
    resolves := hresolves.le
    connects := hconnects.le
    shutdowns := hshutdowns.le
    timer := by rw [htimer]; exact id
    batons := by simp [St.batons, hq, hresolves, hconnects, hshutdowns, hpending, List.countP_append, hbatons]
    chains := by simp [St.chains, hq, htimer, List.countP_append, hticks]
    turns := by simp [St.connectTurns, hq, hconnects, List.countP_append] }

theorem In.conn_eq_some (h : In p s) (hp : p ≠ .unbound) : ∃ a, s.conn = some a :=
  Option.ne_none_iff_exists'.mp fun hc => hp (h.bound.mp hc)

theorem In.connecting_eq_false (h : In p s) (hp : p ≠ .connecting) : s.connecting = false :=
  Bool.eq_false_of_not_eq_true fun hc => hp (h.connecting.mp hc)

theorem In.connected_eq_false (h : In p s) (hp : p ≠ .connected) : s.connected = false :=
  Bool.eq_false_of_not_eq_true fun hc => hp (h.connected.mp hc)

theorem In.disconnecting_eq_false (h : In p s) (hp : p ≠ .disconnecting) : s.disconnecting = false :=
  Bool.eq_false_of_not_eq_true fun hc => hp (h.disconnecting.mp hc)

theorem In.isConnected_iff (h : In p s) : s.isConnected = true ↔ p = .connected := by
  rw [← h.connected, St.isConnected, St.isPendingState, Bool.and_eq_true, Bool.not_eq_true', Bool.or_eq_false_iff]
  refine ⟨fun hs => hs.1, fun hs => ?_⟩
  obtain rfl := h.connected.mp hs
  exact ⟨hs, h.connecting_eq_false (by decide), h.disconnecting_eq_false (by decide)⟩

theorem In.unconnected (h : In p s) (hp : p ≠ .connected) : s.isConnected = false :=
  Bool.eq_false_of_not_eq_true fun hs => hp (h.isConnected_iff.mp hs)

theorem In.sent (h : In p s) (hs : Sent s u) (hp : Posts s u) : In p u := by
  have hstill : p.talks s.secure = false → u.reads = s.reads ∧ u.writes = s.writes := by
    intro ht
    refine hp.still (h.unconnected ?_)
    rintro rfl
    cases ht
  obtain ⟨_, _, _, _, _, rfl⟩ := hs
  refine h.unmoved (l := []) ?_ (List.append_nil _).symm hstill nofun .nil nofun
  exact ⟨rfl, rfl, rfl, rfl, rfl, rfl, rfl, rfl, id, le_rfl, le_rfl, le_rfl, id, le_rfl, le_rfl, le_rfl⟩

/-! ## Aborted operations -/

theorem mem_aborting {k : Handler} (hk : k ∈ s.aborting) :
    (k.isPoster = true ∧ ¬ (s.reads = 0 ∧ s.writes = [])) ∨ (k.isConnect = true ∧ 0 < s.connects) ∨
      (k = .onSSLShutdownCompleted ∧ 0 < s.shutdowns) := by
  simp only [St.aborting, List.mem_append, List.mem_replicate] at hk
  rcases hk with ((⟨hn, rfl⟩ | ⟨hn, rfl⟩) | ⟨hn, rfl⟩) | ⟨hn, rfl⟩
  · exact .inl ⟨rfl, fun h => hn h.1⟩
  · exact .inl ⟨rfl, fun h => hn (by simp [h.2])⟩
  · exact .inr (.inl ⟨rfl, Nat.pos_of_ne_zero hn⟩)
  · exact .inr (.inr ⟨rfl, Nat.pos_of_ne_zero hn⟩)

theorem Handler.allows_poster {k : Handler} (hk : k.isPoster = true) (secure : Bool) :
    p.allows secure k = p.chats secure := by cases k <;> first | rfl | cases hk

theorem Handler.allows_connect {k : Handler} (hk : k.isConnect = true) (secure : Bool) :
    p.allows secure k = decide (p = .connecting) := by cases k <;> first | rfl | cases hk

theorem Handler.mayPrecede_connect {k l : Handler} (hl : l.isConnect = true) : k.mayPrecede l = true := by
  cases l <;> cases hl
  cases k <;> rfl

theorem Handler.mayPrecede_poster {k l : Handler} (hl : l.isPoster = true) (hk : k.isPart = false) :
    k.mayPrecede l = true := by
  cases l <;> cases hl <;> cases k <;> first | rfl | cases hk

theorem Handler.mayPrecede_shutdown (k : Handler) : k.mayPrecede .onSSLShutdownCompleted = true := by cases k <;> rfl

theorem aborting_order (s : St) : s.aborting.Pairwise fun k l => k.mayPrecede l = true := by
  have hrep (n : Nat) (k : Handler) (hk : k.mayPrecede k = true) :
      (List.replicate n k).Pairwise fun k l => k.mayPrecede l = true := List.pairwise_replicate.mpr (.inr hk)
  simp only [St.aborting, List.pairwise_append, List.mem_append, List.mem_replicate]
  refine ⟨⟨⟨hrep _ _ rfl, hrep _ _ rfl, ?_⟩, hrep _ _ rfl, ?_⟩, hrep _ _ rfl, ?_⟩
  · rintro k ⟨-, rfl⟩ l ⟨-, rfl⟩
    rfl
  · rintro k - l ⟨-, rfl⟩
    exact Handler.mayPrecede_connect rfl
  · rintro k - l ⟨-, rfl⟩
    exact k.mayPrecede_shutdown

/-- While the client talks, a poster may join the queue. -/
theorem In.before_poster {k l : Handler} (h : In p s) (htalks : p.talks s.secure = true) (hk : k ∈ s.queue)
    (hl : l.isPoster = true) : k.mayPrecede l = true := by
  refine Handler.mayPrecede_poster hl (Bool.eq_false_of_not_eq_true fun hpart => ?_)
  have hp : p = .disconnecting := by
    have hallowed := h.allowed k hk
    cases k <;> first | exact of_decide_eq_true hallowed | cases hpart
  rw [hp] at htalks
  cases htalks

theorem chats_of_talks {secure : Bool} (h : p.talks secure = true) : p.chats secure = true :=
  (Bool.and_eq_true .. ▸ h).1

theorem In.aborted (h : In p s) : In p s.aborted := by
  have htalks (hbusy : ¬ (s.reads = 0 ∧ s.writes = [])) : p.talks s.secure = true := by
    by_contra ht
    exact hbusy (h.still (Bool.eq_false_of_not_eq_true ht))
  have hnew : ∀ k ∈ s.aborting, p.allows s.secure k = true := by
    intro k hk
    rcases mem_aborting hk with ⟨hk, hbusy⟩ | ⟨hk, hpos⟩ | ⟨rfl, hpos⟩
    · rw [Handler.allows_poster hk]
      exact chats_of_talks (htalks hbusy)
    · rw [Handler.allows_connect hk]
      exact decide_eq_true (h.connects hpos)
    · exact decide_eq_true (h.shutdowns hpos)
  have hout : ∀ k ∈ s.queue, ∀ l ∈ s.aborting, k.mayPrecede l = true := by
    intro k hk l hl
    rcases mem_aborting hl with ⟨hl, hbusy⟩ | ⟨hl, -⟩ | ⟨rfl, -⟩
    · exact h.before_poster (htalks hbusy) hk hl
    · exact Handler.mayPrecede_connect hl
    · exact k.mayPrecede_shutdown
  have hturns := (aborted_alike s).connectTurns
  have hbatons : s.aborted.batons = s.batons := by
    simp [St.batons, St.aborted, St.aborting, List.countP_append, List.countP_replicate, Handler.isBaton]
    omega
  have hchains : s.aborted.chains = s.chains := by
    simp [St.chains, St.aborted, St.aborting, List.countP_append, List.countP_replicate, Handler.isTick]
  have ho : Unmoved s s.aborted := ⟨rfl, rfl, rfl, rfl, rfl, rfl, rfl, rfl, id, le_rfl, Nat.zero_le _, Nat.zero_le _,
    id, hbatons.le, hchains.le, hturns.ge⟩
  refine h.unmoved ho rfl (fun ht => ?_) hnew (aborting_order s) hout
  rw [(h.still ht).1, (h.still ht).2]
  exact ⟨rfl, rfl⟩

theorem In.closed (h : In p s) : In p s.closed := { h.aborted with }

/-! ## Handlers at the front -/

/-- What a handler leaves behind, but for `connect_handler` and for the `disconnect` of a connected client. -/
theorem In.of_cons {k : Handler} (h : In p (s.cons k)) (hk : p = .connected → k ≠ .disconnect)
    (hc : k.isConnect = false) : In p s where
  running := h.running
  bound := h.bound
  connecting := h.connecting
  connected := h.connected
  disconnecting := h.disconnecting
  pending := h.pending
  resolves := h.resolves
  connects := h.connects
  shutdowns := h.shutdowns
  still := h.still
  allowed l hl := h.allowed l (List.mem_cons_of_mem k hl)
  order := (List.pairwise_cons.mp h.order).2
  one := by
    have hone := h.one
    simp only [St.batons, St.cons, List.countP_cons] at hone ⊢
    omega
  chain := by
    have hchain := h.chain
    simp only [St.chains, St.cons, List.countP_cons] at hchain ⊢
    omega
  stock := by
    have hstock := h.stock
    cases p with
    | waiting => exact hstock
    | connecting =>
      obtain ⟨hsocket, hendpoints, hturns⟩ := hstock
      refine ⟨hsocket, hendpoints, ?_⟩
      simpa [St.connectTurns, St.cons, hc] using hturns
    | connected =>
      obtain ⟨hsocket, hendpoints⟩ := hstock
      refine ⟨hsocket, hendpoints.imp_right ?_⟩
      rintro ⟨pre, post, hq, hpre⟩
      cases pre with
      | nil => exact absurd (List.cons.inj hq).1 (hk rfl)
      | cons l pre =>
        obtain ⟨rfl, hrest⟩ := List.cons.inj hq
        exact ⟨pre, post, hrest, fun l hl => hpre l (List.mem_cons_of_mem _ hl)⟩
    | disconnecting => exact hstock
    | _ => trivial

/-- No other baton is there when one is taken. -/
theorem In.taken {k : Handler} (h : In p (s.cons k)) (hk : k.isBaton = true) : s.batons = 0 := by
  have hone := h.one
  simp only [St.batons, St.cons, List.countP_cons, hk, if_true] at hone ⊢
  omega

theorem batons_eq_zero (h : s.batons = 0) : s.resolves = 0 ∧ s.connects = 0 ∧ s.shutdowns = 0 ∧
    s.reconnectPending = false ∧ ∀ k ∈ s.queue, k.isBaton = false := by
  simp only [St.batons] at h
  have hcount : s.queue.countP Handler.isBaton = 0 := by omega
  refine ⟨by omega, by omega, by omega, ?_, fun k hk => ?_⟩
  · have : s.reconnectPending.toNat = 0 := by omega
    simpa using this
  · exact Bool.eq_false_of_not_eq_true (List.countP_eq_zero.mp hcount k hk)

theorem Handler.mayPrecede_batonless {k l : Handler} (hk : k.isBaton = false) (hl : l.isBaton = false) :
    k.mayPrecede l = true := by cases k <;> cases hk <;> cases l <;> first | rfl | cases hl

theorem order_of_batonless {l : List Handler} (h : ∀ k ∈ l, k.isBaton = false) :
    l.Pairwise fun k l => k.mayPrecede l = true :=
  List.pairwise_of_forall_mem_list fun k hk m hm => Handler.mayPrecede_batonless (h k hk) (h m hm)

theorem Phase.allows_posted {k : Handler} {secure : Bool} (h : p.allows secure k = true) (hk : k.isBaton = false)
    (hchats : p.chats secure = true → Phase.posted.chats secure = true) : Phase.posted.allows secure k = true := by
  cases k with
  | workloopTimerElapsed aborted => simp [Phase.allows]
  | startConnect => rfl
  | disconnect | onRecvSocketDataCompleted | onSendSocketDataCompleted | processResponse => exact hchats h
  | _ => cases hk

/-- A bound client with nothing under way. -/
theorem In.of_batonless (hrun : s.crashed = none) (hconn : s.conn = some a)
    (hflags : s.connecting = false ∧ s.connected = false ∧ s.disconnecting = false) (hb : s.batons = 0)
    (hchain : s.chains ≤ 1)
    (hstill : s.secure = true → s.reads = 0 ∧ s.writes = [])
    (hallowed : ∀ k ∈ s.queue, Phase.posted.allows s.secure k = true) : In .posted s := by
  obtain ⟨hresolves, hconnects, hshutdowns, hpending, hqueue⟩ := batons_eq_zero hb
  obtain ⟨hc, hconnected, hd⟩ := hflags
  exact {
    running := hrun
    bound := by simp [hconn]
    connecting := by simp [hc]
    connected := by simp [hconnected]
    disconnecting := by simp [hd]
    pending := by simp [hpending]
    resolves := by simp [hresolves]
    connects := by simp [hconnects]
    shutdowns := by simp [hshutdowns]
    still := fun ht => hstill (by simpa [Phase.talks, Phase.chats] using ht)
    allowed := hallowed
    order := order_of_batonless hqueue
    one := by omega
    chain := hchain
    stock := trivial }

/-! ## The timer -/

theorem chains_armed (s : St) (wait : Wait) :
    (s.armed wait).chains = wait.isFinite.toNat + s.queue.countP Handler.isTick := by
  simp only [St.chains, St.armed]
  split <;> simp [List.countP_append, Handler.isTick]

theorem armed_queue (s : St) (wait : Wait) : ∃ new, (s.armed wait).queue = s.queue ++ new ∧
    ∀ k ∈ new, k = .workloopTimerElapsed true := by
  unfold St.armed
  split
  · exact ⟨[.workloopTimerElapsed true], rfl, by simp⟩
  · exact ⟨[], (List.append_nil _).symm, nofun⟩

theorem batons_armed (s : St) (wait : Wait) : (s.armed wait).batons = s.batons := by
  simp only [St.batons, St.armed]
  split <;> simp [List.countP_append, Handler.isBaton]

theorem In.ticking (h : In p s) (hp : p ≠ .waiting) (hticks : s.queue.countP Handler.isTick = 0) : In p s.ticking := by
  obtain ⟨new, hq, hnew⟩ := armed_queue s (.until (s.now + workloopInterval))
  have hbatons := batons_armed s (.until (s.now + workloopInterval))
  have hchains := chains_armed s (.until (s.now + workloopInterval))
  exact {
    running := h.running
    bound := h.bound
    connecting := h.connecting
    connected := h.connected
    disconnecting := h.disconnecting
    pending := h.pending
    resolves := h.resolves
    connects := h.connects
    shutdowns := h.shutdowns
    still := h.still
    allowed := fun k hk => by
      rw [St.ticking, hq, List.mem_append] at hk
      rcases hk with hk | hk
      · exact h.allowed k hk
      · rw [hnew k hk]
        rfl
    order := by
      rw [St.ticking, hq, List.pairwise_append]
      refine ⟨h.order, ?_, fun k _ l hl => ?_⟩
      · refine List.pairwise_of_forall_mem_list fun k hk l hl => ?_
        rw [hnew k hk, hnew l hl]
        rfl
      · rw [hnew l hl]
        cases k <;> rfl
    one := hbatons.le.trans h.one
    chain := by rw [St.ticking, hchains, hticks]; rfl
    stock := by
      have hstock := h.stock
      cases p with
      | waiting => exact absurd rfl hp
      | connecting =>
        refine ⟨hstock.1, hstock.2.1, hstock.2.2.trans_le ?_⟩
        simp only [St.connectTurns, St.ticking, hq, List.countP_append]
        exact Nat.add_le_add_left (Nat.le_add_right _ _) _
      | connected => exact ⟨hstock.1, hstock.2.imp_right fun hd => hd.append hq⟩
      | disconnecting => exact hstock
      | _ => trivial }

/-! ## The end of a connection -/

theorem secure_updateUri {f : Uri → Uri} (hf : ∀ u : Uri, (f u).secure = u.secure) :
    (s.updateUri a f).secure = s.secure := by
  have huri (b : Nat) : ((s.updateUri a f).uris b).secure = (s.uris b).secure := by
    simp only [St.updateUri]
    split
    · rename_i hb
      rw [hb]
      exact hf _
    · rfl
  simp only [St.secure, huri]
  rfl

theorem In.updateUri (h : In p s) {f : Uri → Uri} (hf : ∀ u : Uri, (f u).secure = u.secure) :
    In p (s.updateUri a f) :=
  h.unmoved (l := []) (.of_link rfl (secure_updateUri hf) (List.append_nil _).symm nofun) (List.append_nil _).symm
    (fun _ => ⟨rfl, rfl⟩) nofun .nil nofun

theorem In.batonless (h : In p s) (hp : p = .posted ∨ p = .connected) : s.batons = 0 := by
  have hnot {q : Phase} (hq : p = q) (hposted : q ≠ .posted) (hconnected : q ≠ .connected) : False :=
    hp.elim (fun hp => hposted (hq.symm.trans hp)) fun hp => hconnected (hq.symm.trans hp)
  have hresolves : s.resolves = 0 := Nat.eq_zero_of_not_pos fun hs => hnot (h.resolves hs) nofun nofun
  have hconnects : s.connects = 0 := Nat.eq_zero_of_not_pos fun hs => hnot (h.connects hs) nofun nofun
  have hshutdowns : s.shutdowns = 0 := Nat.eq_zero_of_not_pos fun hs => hnot (h.shutdowns hs) nofun nofun
  have hpending : s.reconnectPending = false :=
    Bool.eq_false_of_not_eq_true fun hs => hnot (h.pending hs) nofun nofun
  have hqueue : s.queue.countP Handler.isBaton = 0 := by
    refine List.countP_eq_zero.mpr fun k hk hb => ?_
    have hallowed := h.allowed k hk
    rcases hp with rfl | rfl <;> cases k <;> cases hb <;> cases hallowed
  simp [St.batons, hresolves, hconnects, hshutdowns, hpending, hqueue]

/-- What may be queued for a bound client may be queued for one that is not. -/
theorem Phase.allows_unbound {k : Handler} {secure : Bool} (h : Phase.posted.allows secure k = true) (secure' : Bool) :
    Phase.unbound.allows secure' k = true := by
  cases k <;> first | rfl | simp [Phase.allows] at h ⊢

theorem mem_reported {k : Handler} (hk : k ∈ s.reported.queue) :
    k ∈ s.queue ∨ k = .workloopTimerElapsed true ∨ k = .rotateConnect := by
  obtain ⟨new, hq, hnew⟩ := armed_queue s .forever
  have hrotate : ∀ k ∈ (if s.stopping then [] else [Handler.rotateConnect]), k = .rotateConnect := by
    split <;> simp
  rw [St.reported, hq] at hk
  simp only [List.mem_append] at hk
  rcases hk with (hk | hk) | hk
  · exact .inl hk
  · exact .inr (.inl (hnew k hk))
  · exact .inr (.inr (hrotate k hk))

/-- At most one handler for the pool manager joins the queue. -/
theorem batons_reported (h : s.batons = 0) : s.reported.batons ≤ 1 := by
  have hsame := batons_armed s .forever
  have hcount : (if s.stopping then [] else [Handler.rotateConnect]).countP Handler.isBaton ≤ 1 := by
    split <;> simp [Handler.isBaton]
  have hsum : s.reported.batons = (s.armed .forever).batons +
      (if s.stopping then [] else [Handler.rotateConnect]).countP Handler.isBaton := by
    simp only [St.batons, St.reported, St.armed, List.countP_append]
    omega
  omega

theorem chains_reported (s : St) : s.reported.chains ≤ s.chains := by
  have hcount : (if s.stopping then [] else [Handler.rotateConnect]).countP Handler.isTick = 0 := by
    split <;> simp [Handler.isTick]
  have hsame : s.reported.chains = (s.armed .forever).chains := by
    simp only [St.chains, St.reported, List.countP_append, hcount]
    rfl
  rw [hsame, chains_armed]
  exact Nat.add_le_add_right (Nat.zero_le _) _

theorem In.reported (h : In .posted s) : In .unbound s.reported := by
  have hb := h.batonless (.inl rfl)
  have hfree {k : Handler} (hk : k ∈ s.reported.queue) : k.isBaton = false ∨ k = .rotateConnect := by
    rcases mem_reported hk with hk | rfl | rfl
    · exact .inl ((batons_eq_zero hb).2.2.2.2 k hk)
    · exact .inl rfl
    · exact .inr rfl
  exact {
    running := h.running
    bound := iff_of_true rfl rfl
    connecting := iff_of_false (fun hc => nomatch h.connecting.mp hc) nofun
    connected := iff_of_false (fun hc => nomatch h.connected.mp hc) nofun
    disconnecting := iff_of_false (fun hc => nomatch h.disconnecting.mp hc) nofun
    pending := fun hp => nomatch h.pending hp
    resolves := fun hp => nomatch h.resolves hp
    connects := fun hp => nomatch h.connects hp
    shutdowns := fun hp => nomatch h.shutdowns hp
    still := nofun
    allowed := fun k hk => by
      rcases mem_reported hk with hk | rfl | rfl
      · exact Phase.allows_unbound (h.allowed k hk) _
      · rfl
      · rfl
    order := by
      refine List.pairwise_of_forall_mem_list fun k hk l hl => ?_
      rcases hfree hk with hk | rfl
      · rcases hfree hl with hl | rfl
        · exact Handler.mayPrecede_batonless hk hl
        · cases k <;> rfl
      · cases l <;> rfl
    one := batons_reported hb
    chain := (chains_reported s).trans h.chain
    stock := trivial }

theorem In.restart (h : In .posted s) (hq : t.queue = s.queue ++ [.startConnect]) (hl : t.link = s.link)
    (hsecure : t.secure = s.secure) (hstill : t.reads = s.reads ∧ t.writes = s.writes) : In .posted t := by
  refine h.unmoved (l := [.startConnect]) (.of_link hl hsecure hq ?_) hq (fun _ => hstill) ?_ ?_ ?_
  · simp [Handler.isBaton, Handler.isTick]
  · simp [Phase.allows]
  · simp
  · intro k hk l hl
    obtain rfl := List.mem_singleton.mp hl
    have hb := (batons_eq_zero (h.batonless (.inl rfl))).2.2.2.2 k hk
    cases k <;> first | rfl | cases hb

theorem In.lowered (h : In .posted s) : In .posted (s.lowered a) :=
  (h.updateUri (a := a) (f := fun u => { u with stratumMode := u.stratumMode - 1 }) fun _ => rfl).restart rfl rfl rfl
    ⟨rfl, rfl⟩

/-- `disconnect_finalize`, of a client that connects to nothing and has nothing else under way. -/
theorem In.finalized (h : In .posted { s with disconnecting := false }) : Stocked (s.finalized a) := by
  have hclosed := h.closed
  have hreleased : In .posted (s.released a) := by
    have huri : (s.released a).secure = s.closed.secure := by
      refine secure_updateUri (s := s.finalizing) fun u => ?_
      unfold St.uriReleased
      split <;> rfl
    exact {
      hclosed with
      still := by rw [huri]; exact hclosed.still
      allowed := by rw [huri]; exact hclosed.allowed }
  unfold St.finalized
  split
  · split
    · exact hreleased.lowered.stocked
    · exact (hreleased.updateUri (f := Uri.markUnrecoverable) fun _ => rfl).reported.stocked
  · exact hreleased.reported.stocked

end CoreMiner.Stratum
