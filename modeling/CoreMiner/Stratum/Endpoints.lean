/-
  CoreMiner.Stratum.Endpoints — the queue of endpoints is not popped when it is empty
  (`XcbStratumClient.cpp`: `connect_handler`, `workloop_timer_elapsed`, `start_connect`).

  `m_endpoints.pop()` has no check in front of it. What keeps the queue from being empty there is
  the order of things. While the client connects there is the endpoint it connects to, and
  `connect_handler` discards it; while it is connected there is that endpoint until a tick discards
  it, and then a `disconnect` is queued in front of the next tick. A `disconnect` that comes while
  the client connects leaves its handler without a socket, which stops the program (`Doomed`).

  So no pop finds the queue empty (`endpoints_never_exhausted`), unless the pool manager calls
  `disconnect` at a time when there is nothing to disconnect (`exhausted_after_early_disconnect`).
-/

import CoreMiner.Stratum.Phases

namespace CoreMiner.Stratum

open DevCore EthCore Lib Prog

variable {E : Env} {s t u : St} {a : Nat} {p : Phase}

/-! ## Connecting -/

def Safely (m : M Unit) (s : St) : Prop := wp m (fun _ t => Stocked t) (fun x _ => x ≠ .emptyEndpoints) s

theorem safely_giveUpConnecting
    (h : s.conn ≠ none → In .posted { s with connecting := false, disconnecting := false }) :
    Safely giveUpConnecting s := by
  rw [Safely, wp_giveUpConnecting]
  split
  · nofun
  · rename_i hc
    exact In.finalized (h (by simp [hc]))

theorem In.opened (h : In .posted s) (hsocket : s.socket = true) (he : s.endpoints ≠ []) {pleas : Pleas} {n : Nat} :
    In .connecting { s with
      connecting := true, isOpen := true, connects := s.connects + 1, pleas, solutionSubmittedMaxId := n } := by
  have hone : St.batons { s with
      connecting := true, isOpen := true, connects := s.connects + 1, pleas, solutionSubmittedMaxId := n } =
        s.batons + 1 := by
    simp only [St.batons]
    omega
  exact {
    running := h.running
    bound := iff_of_false (fun hc => absurd (h.bound.mp hc) (by decide)) (by decide)
    connecting := iff_of_true rfl rfl
    connected := iff_of_false (fun hc => absurd (h.connected.mp hc) (by decide)) (by decide)
    disconnecting := iff_of_false (fun hc => absurd (h.disconnecting.mp hc) (by decide)) (by decide)
    pending := fun hp => absurd (h.pending hp) (by decide)
    resolves := fun hp => absurd (h.resolves hp) (by decide)
    connects := fun _ => rfl
    shutdowns := fun hp => absurd (h.shutdowns hp) (by decide)
    still := h.still
    allowed := fun k hk => by
      have hallowed := h.allowed k hk
      cases k <;> first | rfl | exact hallowed
    order := h.order
    one := by rw [hone, h.batonless (.inl rfl)]
    chain := h.chain
    stock := ⟨hsocket, he, Nat.lt_of_lt_of_le (Nat.succ_pos _) (Nat.le_add_right _ _)⟩ }

theorem In.opening (h : In .posted s) (he : s.endpoints ≠ []) :
    In .connecting ({ s with connecting := true }.opening a) := by
  unfold St.opening
  split
  · rename_i hsocket
    exact h.opened hsocket he
  · exact In.opened (s := s.fresh a) { h.closed with } rfl he

theorem In.startConnect (h : In p (s.cons .startConnect)) : Safely startConnect s := by
  have hs := h.of_cons (fun _ => nofun) rfl
  rw [Safely, wp_startConnect]
  split
  · exact hs.stocked
  · rename_i hc
    have hposted (hconn : s.conn ≠ none) : In .posted s := by
      have hallowed : p.allows s.secure .startConnect = true := h.allowed _ List.mem_cons_self
      cases p with
      | posted => exact hs
      | unbound => exact absurd (hs.bound.mpr rfl) hconn
      | connecting => exact absurd (hs.connecting.mpr rfl) hc
      | _ => cases hallowed
    split
    · refine safely_giveUpConnecting fun hconn => ?_
      have hp := hposted hconn
      exact { hp with connecting := iff_of_false nofun nofun, disconnecting := iff_of_false nofun nofun }
    · rename_i he
      rw [wp_asyncConnect]
      split
      · nofun
      · rename_i hconn
        have hconn' : s.conn ≠ none := by rw [show s.conn = _ from hconn]; nofun
        exact ((hposted hconn').opening (by simpa using he)).stocked

theorem In.hung {ec handshakeFails : Bool} (h : In .connecting (s.cons (.connectHandler ec handshakeFails))) :
    In .posted { s with connecting := false } := by
  obtain ⟨a, hconn⟩ := h.conn_eq_some nofun
  have hfree := (batons_eq_zero (h.taken rfl)).2.2.2.2
  refine .of_batonless (a := a) h.running hconn ⟨rfl, ?_, ?_⟩ (h.taken rfl) ?_ (fun hsecure => h.still ?_)
    fun k hk => ?_
  · exact h.connected_eq_false nofun
  · exact h.disconnecting_eq_false nofun
  · have hchain := h.chain
    simpa [St.chains, St.cons, Handler.isTick] using hchain
  · have hs : (s.cons (.connectHandler ec handshakeFails)).secure = true := hsecure
    rw [hs]
    rfl
  · exact Phase.allows_posted (h.allowed k (List.mem_cons_of_mem _ hk)) (hfree k hk) id

theorem In.linked (h : In .posted s) (hsocket : s.socket = true) (he : s.endpoints ≠ [])
    (hstart : .startConnect ∉ s.queue) : In .connected { s with connected := true } := {
  h with
  bound := iff_of_false (fun hc => nomatch h.bound.mp hc) nofun
  connecting := iff_of_false (fun hc => nomatch h.connecting.mp hc) nofun
  connected := iff_of_true rfl rfl
  disconnecting := iff_of_false (fun hc => nomatch h.disconnecting.mp hc) nofun
  pending := fun hp => nomatch h.pending hp
  resolves := fun hp => nomatch h.resolves hp
  connects := fun hp => nomatch h.connects hp
  shutdowns := fun hp => nomatch h.shutdowns hp
  still := nofun
  allowed := fun k hk => by
    have hallowed := h.allowed k hk
    cases k with
    | startConnect => exact absurd hk hstart
    | _ => first | rfl | exact hallowed
  stock := ⟨hsocket, .inl he⟩ }

/-! ## Posting `disconnect` -/

theorem Posts.secure_eq (h : Posts s t) : t.secure = s.secure := by
  have hconn : t.conn = s.conn := congrArg Link.conn h.link
  simp only [St.secure, hconn, h.secure]

theorem In.posts (h : In p s) (hchats : p.chats s.secure = true)
    (hpart : ∀ k ∈ s.queue, k.mayPrecede .disconnect = true) (ht : Posts s t) : In p t := by
  obtain ⟨n, hq⟩ := ht.queue
  have hnew : ∀ k ∈ List.replicate n Handler.disconnect, k = .disconnect := fun k hk => List.eq_of_mem_replicate hk
  refine h.unmoved (.of_link ht.link ht.secure_eq hq fun k hk => ?_) hq (fun htalks => ht.still (h.unconnected ?_))
    (fun k hk => ?_) (List.pairwise_replicate.mpr (.inr rfl)) fun k hk l hl => ?_
  · rw [hnew k hk]
    exact ⟨rfl, rfl⟩
  · rintro rfl
    cases htalks
  · rw [hnew k hk]
    exact hchats
  · rw [hnew l hl]
    exact hpart k hk

/-- Only `disconnect_finalize` cannot be followed by a `disconnect`. -/
theorem In.before_disconnect {k : Handler} (h : In p s) (hp : p ≠ .disconnecting) (hk : k ∈ s.queue) :
    k.mayPrecede .disconnect = true := by
  have hallowed := h.allowed k hk
  cases k <;> first | rfl | exact absurd (of_decide_eq_true hallowed) hp

theorem In.posting (h : In .connected s) (ht : Posts s t) : In .connected t :=
  h.posts rfl (fun _ hk => h.before_disconnect nofun hk) ht

theorem In.poster {k : Handler} {m : M Unit} (h : In p (s.cons k)) (hk : k.isPoster = true) (hm : Posting m) :
    Safely m s := by
  have hs : In p s := h.of_cons (fun _ hd => by rw [hd] at hk; cases hk) (by cases k <;> first | rfl | cases hk)
  have hchats : p.chats s.secure = true := by
    rw [← Handler.allows_poster hk]
    exact h.allowed k List.mem_cons_self
  have hpart : ∀ l ∈ s.queue, l.mayPrecede .disconnect = true := by
    intro l hl
    have hbefore := (List.pairwise_cons.mp h.order).1 l hl
    cases l with
    | disconnectFinalize => cases k <;> cases hk <;> cases hbefore
    | _ => rfl
  exact wp_mono (hm.from_ s) (fun _ t ht => (hs.posts hchats hpart ht).stocked) fun _ _ hx => hx.2

/-! ## The connect's result -/

theorem chooseMode_secure (u : Uri) : (chooseMode u).secure = u.secure := by
  unfold chooseMode
  split_ifs <;> rfl

theorem In.login (h : In .connected s) (hconn : s.conn = some a) : Safely (login E) s := by
  rw [Safely, wp_login hconn]
  split
  · have hgreeting : In .connected (s.greeting a) :=
      { (h.updateUri (a := a) chooseMode_secure) with still := nofun }
    refine wp_mono (wp_and ((send_sent _).from_ _) ((send_posting _).from_ _)) (fun _ t ht => ?_) fun _ _ hx => hx.2.2
    exact (hgreeting.sent ht.1 ht.2).stocked
  · nofun

theorem In.connectEstablished (h : In .posted s) (hsocket : s.socket = true) (he : s.endpoints ≠ [])
    (hstart : .startConnect ∉ s.queue) (handshakeFails : Bool) : Safely (connectEstablished E handshakeFails) s := by
  have hlinked := h.linked hsocket he hstart
  have hestablished (a : Nat) : In .connected (s.established a) :=
    { hlinked.updateUri (a := a) (f := fun u => { u with responds := true }) fun _ => rfl with }
  rw [Safely, wp_connectEstablished]
  split
  · nofun
  · rename_i a hconn
    split
    · have hposts : Posts (s.established a) ((s.established a).abandoned a) := by
        refine ⟨rfl, ⟨1, rfl⟩, fun b => ?_, fun _ => ⟨rfl, rfl⟩⟩
        simp only [St.abandoned, St.updateUri]
        split
        · rename_i hb
          rw [hb]
          rfl
        · rfl
      exact ((hestablished a).posting hposts).stocked
    · exact (hestablished a).login hconn

theorem In.connectFailed (h : In .posted s) (he : s.endpoints ≠ []) : Safely connectFailed s := by
  have hrefused : In .posted s.refused := by
    unfold St.refused
    split
    · exact h.closed
    · exact h
  rw [Safely, wp_connectFailed]
  split
  · exact absurd ‹_› he
  · rename_i rest _
    have hpopped : In .posted { s.refused with endpoints := rest } := { hrefused with }
    exact In.stocked (hpopped.restart rfl rfl rfl ⟨rfl, rfl⟩)

theorem In.connectHandler {ec handshakeFails : Bool} (h : In p (s.cons (.connectHandler ec handshakeFails))) :
    Safely (connectHandler E ec handshakeFails) s := by
  obtain rfl : p = .connecting := of_decide_eq_true (h.allowed _ List.mem_cons_self)
  obtain ⟨hsocket, he, -⟩ := h.stock
  have hstart : .startConnect ∉ s.queue := fun hk => nomatch (List.pairwise_cons.mp h.order).1 _ hk
  rw [Safely, wp_connectHandler]
  split
  · split
    · exact h.hung.connectFailed he
    · exact h.hung.connectEstablished hsocket he hstart handshakeFails
  · nofun

/-! ## Resolving -/

theorem In.resolveHandler {endpoints : Option (List Nat)} (h : In p (s.cons (.resolveHandler endpoints))) :
    Safely (resolveHandler endpoints) s := by
  obtain rfl : p = .resolving := of_decide_eq_true (h.allowed _ List.mem_cons_self)
  obtain ⟨a, hconn⟩ := h.conn_eq_some (by decide)
  have hfree := (batons_eq_zero (h.taken rfl)).2.2.2.2
  have hposted : In .posted s := by
    refine .of_batonless (a := a) h.running hconn ⟨?_, ?_, ?_⟩ (h.taken rfl) ?_ (fun _ => h.still rfl) fun k hk => ?_
    · exact h.connecting_eq_false (by decide)
    · exact h.connected_eq_false (by decide)
    · exact h.disconnecting_eq_false (by decide)
    · have hchain := h.chain
      simpa [St.chains, St.cons, Handler.isTick] using hchain
    · exact Phase.allows_posted (h.allowed k (List.mem_cons_of_mem _ hk)) (hfree k hk) (fun hc => by cases hc)
  rw [Safely, wp_resolveHandler]
  cases endpoints with
  | some l =>
    have hfound : In .posted { s with endpoints := s.endpoints ++ l } := { hposted with }
    exact In.stocked (hfound.restart rfl rfl rfl ⟨rfl, rfl⟩)
  | none =>
    refine safely_giveUpConnecting fun _ => ?_
    exact { hposted with
      connecting := iff_of_false Bool.false_ne_true (by decide)
      disconnecting := iff_of_false Bool.false_ne_true (by decide) }

/-! ## The pool manager -/

structure Unopened (a : Nat) (s : St) : Prop where
  running : s.crashed = none
  conn : s.conn = some a
  connecting : s.connecting = false
  connected : s.connected = false
  disconnecting : s.disconnecting = false
  batons : s.batons = 0
  still : s.reads = 0 ∧ s.writes = []
  queue : ∀ k ∈ s.queue, k = .workloopTimerElapsed true

theorem Unopened.tuned (h : Unopened a s) : Unopened a s.tuned where
  running := h.running
  conn := h.conn
  connecting := h.connecting
  connected := h.connected
  disconnecting := h.disconnecting
  batons := (batons_armed s (.until (s.now + workloopInterval))).trans h.batons
  still := h.still
  queue k hk := by
    obtain ⟨new, hq, hnew⟩ := armed_queue s (.until (s.now + workloopInterval))
    have hmem : k ∈ s.queue ++ new := hq ▸ hk
    exact (List.mem_append.mp hmem).elim (h.queue k) (hnew k)

theorem Unopened.closed (h : Unopened a s) : Unopened a s.closed := by
  obtain ⟨-, hconnects, hshutdowns, -, -⟩ := batons_eq_zero h.batons
  have hnone : s.aborting = [] := by simp [St.aborting, h.still.1, h.still.2, hconnects, hshutdowns]
  have hq : s.closed.queue = s.queue := by simp [St.closed, St.aborted, hnone]
  have hbatons : s.closed.batons = s.batons := by
    simp [St.batons, hnone, hconnects, hshutdowns, St.closed, St.aborted]
  exact { h with batons := hbatons.trans h.batons, still := ⟨rfl, rfl⟩, queue := fun k hk => h.queue k (hq ▸ hk) }

theorem Unopened.dialing (h : Unopened a s) : Unopened a (s.dialing a) := by
  unfold St.dialing
  split
  · exact { h.tuned with }
  · exact { h.tuned.closed with }

/-- The timer of `connect` is the only one. -/
theorem Unopened.chains_dialing (h : Unopened a s) : (s.dialing a).chains ≤ 1 := by
  have hcount : (s.dialing a).queue.countP Handler.isTick = 0 :=
    List.countP_eq_zero.mpr fun k hk => by rw [h.dialing.queue k hk]; nofun
  unfold St.chains
  rw [hcount]
  exact Bool.toNat_le _

theorem Unopened.posted (h : Unopened a s) (hchain : s.chains ≤ 1) : In .posted s :=
  .of_batonless h.running h.conn ⟨h.connecting, h.connected, h.disconnecting⟩ h.batons hchain (fun _ => h.still)
    fun k hk => by rw [h.queue k hk]; rfl

theorem Unopened.resolving (h : Unopened a s) (hchain : s.chains ≤ 1) (u : Uri) : Stocked (s.resolving u) := by
  have hposted := h.posted hchain
  have hresolves := (batons_eq_zero h.batons).1
  unfold St.resolving
  split
  · have hq : s.queue ++ List.replicate s.resolves (.resolveHandler none) = s.queue := by simp [hresolves]
    rw [hq]
    have hone : St.batons { s with resolves := 1 } = s.batons + 1 := by
      simp only [St.batons, hresolves]
      omega
    exact In.stocked (p := .resolving) {
      hposted with
      bound := iff_of_false (fun hc => absurd (hposted.bound.mp hc) (by decide)) (by decide)
      connecting := iff_of_false (fun hc => absurd (hposted.connecting.mp hc) (by decide)) (by decide)
      connected := iff_of_false (fun hc => absurd (hposted.connected.mp hc) (by decide)) (by decide)
      disconnecting := iff_of_false (fun hc => absurd (hposted.disconnecting.mp hc) (by decide)) (by decide)
      pending := fun hp => absurd (hposted.pending hp) (by decide)
      resolves := fun _ => rfl
      connects := fun hp => absurd (hposted.connects hp) (by decide)
      shutdowns := fun hp => absurd (hposted.shutdowns hp) (by decide)
      still := fun _ => h.still
      allowed := fun k hk => by rw [h.queue k hk]; rfl
      one := by rw [hone, h.batons] }
  · have haddress : In .posted { s with endpoints := [0] } := { hposted with }
    exact In.stocked (haddress.restart rfl rfl rfl ⟨rfl, rfl⟩)

theorem Unopened.connect (h : Unopened a s) : Safely connect s := by
  rw [Safely, wp_connect]
  split
  · rename_i hc
    exact absurd (hc.symm.trans h.connecting) nofun
  · split
    · nofun
    · rename_i b hconn
      obtain rfl : b = a := Option.some.inj (hconn.symm.trans h.conn)
      exact h.dialing.resolving h.chains_dialing _

theorem In.reconnectTimerElapsed (h : In p (s.cons .reconnectTimerElapsed)) : Safely reconnectTimerElapsed s := by
  obtain rfl : p = .waiting := of_decide_eq_true (h.allowed _ List.mem_cons_self)
  have hs := h.of_cons nofun rfl
  obtain ⟨a, hconn⟩ := h.conn_eq_some nofun
  have hfree := (batons_eq_zero (h.taken rfl)).2.2.2.2
  have hunopened : Unopened a s := {
    running := h.running
    conn := hconn
    connecting := h.connecting_eq_false nofun
    connected := h.connected_eq_false nofun
    disconnecting := h.disconnecting_eq_false nofun
    batons := h.taken rfl
    still := h.still rfl
    queue := fun k hk => by
      have hallowed := hs.allowed k hk
      have hb := hfree k hk
      cases k with
      | workloopTimerElapsed aborted => simpa [Phase.allows] using hallowed
      | startConnect | disconnect | onRecvSocketDataCompleted | onSendSocketDataCompleted | processResponse =>
        cases hallowed
      | _ => cases hb }
  rw [Safely, wp_reconnectTimerElapsed]
  split
  · exact hs.stocked
  · exact hunopened.connect

theorem rebound_queue (hb : s.batons = 0) : (s.rebound a).queue = [] := by
  refine List.filter_eq_nil_iff.mpr fun k hk hmanager => ?_
  have hfree := (batons_eq_zero hb).2.2.2.2 k hk
  cases k <;> cases hmanager <;> cases hfree

theorem rebound_unopened (hrun : s.crashed = none) (hb : s.batons = 0) : Unopened a (s.rebound a) where
  running := hrun
  conn := rfl
  connecting := rfl
  connected := rfl
  disconnecting := rfl
  batons := by
    have hpending : (s.rebound a).reconnectPending = false := (batons_eq_zero hb).2.2.2.1
    simp only [St.batons, rebound_queue hb, hpending]
    rfl
  still := ⟨rfl, rfl⟩
  queue := by
    rw [rebound_queue hb]
    intro k hk
    cases hk

theorem rebound_waiting (hrun : s.crashed = none) (hb : s.batons = 0) :
    In .waiting { s.rebound a with reconnectPending := true } := by
  have hq := rebound_queue (a := a) hb
  exact {
    running := hrun
    bound := iff_of_false nofun nofun
    connecting := iff_of_false nofun nofun
    connected := iff_of_false nofun nofun
    disconnecting := iff_of_false nofun nofun
    pending := fun _ => rfl
    resolves := nofun
    connects := nofun
    shutdowns := nofun
    still := fun _ => ⟨rfl, rfl⟩
    allowed := by simp [hq]
    order := by simp [hq]
    one := by simp only [St.batons, hq]; exact le_rfl
    chain := by simp only [St.chains, hq]; exact Nat.zero_le 1
    stock := rfl }

theorem In.rotateConnect (h : In p (s.cons .rotateConnect)) (choice : Option (Nat × Bool)) :
    Safely (rotateConnect choice) s := by
  have hs := h.of_cons (fun _ => nofun) rfl
  rw [Safely, wp_rotateConnect]
  split
  · exact hs.stocked
  · split
    · exact hs.stocked
    · split
      · exact (rebound_waiting hs.running (h.taken rfl)).stocked
      · exact (rebound_unopened hs.running (h.taken rfl)).connect

/-! ## Disconnecting -/

theorem In.disconnectFinalize (h : In p (s.cons .disconnectFinalize)) : Safely disconnectFinalize s := by
  obtain rfl : p = .disconnecting := of_decide_eq_true (h.allowed _ List.mem_cons_self)
  have hfree := (batons_eq_zero (h.taken rfl)).2.2.2.2
  rw [Safely, wp_disconnectFinalize]
  split
  · nofun
  · rename_i a hconn
    refine In.finalized (.of_batonless (a := a) h.running hconn ⟨?_, ?_, rfl⟩ (h.taken rfl) ?_
      (fun _ => h.still rfl) fun k hk => ?_)
    · exact h.connecting_eq_false nofun
    · exact h.connected_eq_false nofun
    · have hchain := h.chain
      simpa [St.chains, St.cons, Handler.isTick] using hchain
    · have hafter := (List.pairwise_cons.mp h.order).1 k hk
      have hb := hfree k hk
      cases k with
      | workloopTimerElapsed aborted => simp [Phase.allows]
      | startConnect => rfl
      | disconnect | onRecvSocketDataCompleted | onSendSocketDataCompleted | processResponse => cases hafter
      | _ => cases hb

theorem In.onSSLShutdownCompleted (h : In p (s.cons .onSSLShutdownCompleted)) : Safely onSSLShutdownCompleted s := by
  obtain rfl : p = .disconnecting := of_decide_eq_true (h.allowed _ List.mem_cons_self)
  have hs := h.of_cons nofun rfl
  have hbatons := h.taken rfl
  rw [Safely, wp_onSSLShutdownCompleted]
  refine In.stocked (p := .disconnecting) {
    hs with
    allowed := fun k hk => ?_
    order := List.pairwise_append.mpr ⟨hs.order, List.pairwise_singleton _ _, fun k hk l hl => ?_⟩
    one := ?_
    chain := ?_ }
  · rcases List.mem_append.mp hk with hk | hk
    · exact hs.allowed k hk
    · rw [List.mem_singleton.mp hk]
      rfl
  · obtain rfl := List.mem_singleton.mp hl
    have hafter := (List.pairwise_cons.mp h.order).1 k hk
    cases k <;> first | rfl | cases hafter
  · simp only [St.batons, List.countP_append, List.countP_singleton] at hbatons ⊢
    simp only [Handler.isBaton, if_true]
    omega
  · have hchain := hs.chain
    simpa [St.chains, Handler.isTick] using hchain

/-- `disconnect` by what it finds: a socket, with or without TLS, or no socket. -/
theorem safely_disconnect (hd : s.disconnecting = false)
    (hplain : ∀ a, s.conn = some a → (s.uris a).secure = false → s.socket = true →
      Stocked (s.parting.aborted.closed.finalized a))
    (htls : ∀ a, s.conn = some a → (s.uris a).secure = true → s.socket = true → Stocked s.parting.aborted.shuttingDown)
    (hbare : ∀ a, s.conn = some a → s.socket = false → Stocked (s.parting.finalized a)) : Safely disconnect s := by
  rw [Safely, wp_disconnect, if_neg (by simp [hd])]
  split
  · rename_i hsocket
    split
    · rw [wp_shutdownSocket]
      split
      · nofun
      · rename_i a hconn
        split
        · exact htls a hconn ‹_› hsocket
        · exact hplain a hconn (Bool.eq_false_of_not_eq_true ‹_›) hsocket
    · nofun
  · rename_i hsocket
    rw [wp_disconnectFinalize]
    split
    · nofun
    · rename_i a hconn
      exact hbare a hconn (Bool.eq_false_of_not_eq_true hsocket)

theorem Stocked.disconnect (h : Stocked s) (hd : s.disconnecting = true) : Safely disconnect s := by
  rw [Safely, wp_disconnect, if_pos hd]
  exact h

theorem secure_of_conn (h : s.conn = some a) : s.secure = (s.uris a).secure := by simp [St.secure, h]

theorem In.parted (h : In .connected s) (hplain : s.secure = false) : In .posted { s with connected := false } := by
  obtain ⟨a, hconn⟩ := h.conn_eq_some nofun
  have hb := h.batonless (.inr rfl)
  refine .of_batonless (a := a) h.running hconn ⟨?_, rfl, ?_⟩ hb h.chain (fun hs => ?_) fun k hk => ?_
  · exact h.connecting_eq_false nofun
  · exact h.disconnecting_eq_false nofun
  · exact absurd (hplain.symm.trans hs) Bool.false_ne_true
  · refine Phase.allows_posted (h.allowed k hk) ((batons_eq_zero hb).2.2.2.2 k hk) fun _ => ?_
    show (!s.secure) = true
    rw [hplain]
    rfl

theorem In.parting (h : In .connected s) (htls : s.secure = true) (hstill : s.reads = 0 ∧ s.writes = []) :
    In .disconnecting s.parting := {
  h with
  bound := iff_of_false (fun hc => nomatch h.bound.mp hc) nofun
  connecting := iff_of_false (fun hc => nomatch h.connecting.mp hc) nofun
  connected := iff_of_false nofun nofun
  disconnecting := iff_of_true rfl rfl
  pending := fun hp => nomatch h.pending hp
  resolves := fun hp => nomatch h.resolves hp
  connects := fun hp => nomatch h.connects hp
  shutdowns := fun hp => nomatch h.shutdowns hp
  still := fun _ => hstill
  allowed := fun k hk => by
    have hallowed := h.allowed k hk
    cases k <;> first | exact hallowed | cases hallowed
  stock := htls }

theorem In.shuttingDown (h : In .disconnecting s) (hb : s.batons = 0) : In .disconnecting s.shuttingDown := {
  h with
  shutdowns := fun _ => rfl
  one := by
    simp only [St.batons, St.shuttingDown] at hb ⊢
    omega }

/-- `disconnect` on a connection; the second form is that of its handler. -/
theorem In.disconnect_connected (h : In .connected s ∨ In .connected (s.cons .disconnect)) : Safely disconnect s := by
  have hd : s.disconnecting = false :=
    h.elim (fun h => h.disconnecting_eq_false (by decide)) fun h => h.disconnecting_eq_false (by decide)
  have hsocket : s.socket = true := h.elim (fun h => h.stock.1) fun h => h.stock.1
  have hb : s.aborted.batons = 0 := by
    rcases h with h | h
    · exact h.aborted.batonless (.inr rfl)
    · have hcons := h.aborted.batonless (.inr rfl)
      simpa [St.batons, St.cons, St.aborted, St.aborting, Handler.isBaton] using hcons
  have hparted (hplain : s.secure = false) : In .posted { s with connected := false } := by
    rcases h with h | h
    · exact h.parted hplain
    · exact In.of_cons (k := .disconnect) (h.parted hplain) (by simp) rfl
  have hparting (htls : s.secure = true) : In .disconnecting s.parting.aborted := by
    rcases h with h | h
    · exact h.aborted.parting htls ⟨rfl, rfl⟩
    · exact In.of_cons (k := .disconnect) (s := s.parting.aborted) (h.aborted.parting htls ⟨rfl, rfl⟩) (by simp) rfl
  refine safely_disconnect hd (fun a hconn hplain _ => ?_) (fun a hconn htls _ => ?_) fun a _ hbare => ?_
  · have hposted : In .posted { s with connected := false, disconnecting := false } :=
      { hparted ((secure_of_conn hconn).trans hplain) with
        disconnecting := iff_of_false Bool.false_ne_true (by decide) }
    exact In.finalized (a := a) (s := s.parting.aborted.closed) hposted.aborted.closed
  · exact ((hparting ((secure_of_conn hconn).trans htls)).shuttingDown hb).stocked
  · exact absurd (hbare.symm.trans hsocket) Bool.false_ne_true

/-! ## A connect without its socket -/

theorem Doomed.append {l : List Handler} (h : Doomed s) (hrun : t.crashed = s.crashed)
    (hc : t.connecting = s.connecting) (hsocket : t.socket = s.socket) (hq : t.queue = s.queue ++ l) : Doomed t where
  running := hrun.trans h.running
  connecting := hc.trans h.connecting
  socket := hsocket.trans h.socket
  awaited := by
    obtain ⟨pre, k, post, hs, hk, hpre⟩ := h.awaited
    exact ⟨pre, k, post ++ l, by rw [hq, hs]; simp, hk, hpre⟩

theorem Doomed.stocked (h : Doomed s) : Stocked s := .inr h

theorem reported_queue (s : St) : ∃ l, s.reported.queue = s.queue ++ l := by
  obtain ⟨new, hq, -⟩ := armed_queue s .forever
  exact ⟨new ++ if s.stopping then [] else [.rotateConnect], by rw [St.reported, hq]; simp⟩

/-- `disconnect_finalize` leaves the handlers where they are, and no socket. -/
theorem finalized_doomed (hrun : s.crashed = none) (hc : s.connecting = true) (h : s.Awaited) :
    Doomed (s.finalized a) := by
  have hreleased : Doomed (s.released a) := by
    obtain ⟨pre, k, post, hs, hk, hpre⟩ := h
    refine ⟨hrun, hc, rfl, pre, k, post ++ s.aborting, ?_, hk, hpre⟩
    show s.queue ++ s.aborting = _
    rw [hs]
    simp
  unfold St.finalized
  split
  · split
    · exact hreleased.append rfl rfl rfl rfl
    · obtain ⟨l, hq⟩ := reported_queue ((s.released a).updateUri a Uri.markUnrecoverable)
      exact hreleased.append rfl rfl rfl hq
  · obtain ⟨l, hq⟩ := reported_queue (s.released a)
    exact hreleased.append rfl rfl rfl hq

theorem In.awaited (h : In .connecting s) (hconnects : s.connects = 0) : s.Awaited := by
  have hturns := h.stock.2.2
  rw [St.connectTurns, hconnects, Nat.zero_add] at hturns
  obtain ⟨k, hk, hconnect⟩ := List.countP_pos_iff.mp hturns
  obtain ⟨pre, post, hq⟩ := List.append_of_mem hk
  refine ⟨pre, k, post, hq, hconnect, fun l hl => ?_⟩
  have hallowed := h.allowed l (by rw [hq]; exact List.mem_append_left _ hl)
  cases l with
  | resolveHandler | rotateConnect => cases hallowed
  | _ => exact ⟨rfl, by simp⟩

theorem In.disconnect (h : In p (s.cons .disconnect)) : Safely disconnect s := by
  have hchats : p.chats s.secure = true := h.allowed _ List.mem_cons_self
  -- before a connection is established only an unencrypted client has handlers that post
  have htls (hp : p = .posted ∨ p = .connecting) {a : Nat} (hconn : s.conn = some a) (hs : (s.uris a).secure = true) :
      False := by
    rw [(secure_of_conn hconn).trans hs] at hchats
    rcases hp with rfl | rfl <;> cases hchats
  cases p with
  | waiting => cases hchats
  | resolving => cases hchats
  | unbound =>
    have hconn {a : Nat} (hc : s.conn = some a) : False := nomatch hc.symm.trans (h.bound.mpr rfl)
    exact safely_disconnect (h.disconnecting_eq_false nofun) (fun _ hc => (hconn hc).elim)
      (fun _ hc => (hconn hc).elim) fun _ hc => (hconn hc).elim
  | posted =>
    have hs := h.of_cons nofun rfl
    have hposted : In .posted { s with connected := false, disconnecting := false } :=
      { hs with connected := iff_of_false nofun nofun, disconnecting := iff_of_false nofun nofun }
    refine safely_disconnect (h.disconnecting_eq_false nofun) (fun a _ _ _ => ?_) (fun _ hc hsecure => ?_)
      fun a _ _ => ?_
    · exact In.finalized (a := a) (s := s.parting.aborted.closed) hposted.aborted.closed
    · exact (htls (.inl rfl) hc hsecure).elim
    · exact In.finalized (a := a) (s := s.parting) hposted
  | connecting =>
    have hs := h.of_cons nofun rfl
    refine safely_disconnect (h.disconnecting_eq_false nofun) (fun a _ _ _ => ?_) (fun _ hc hsecure => ?_)
      fun a _ hbare => ?_
    · exact (finalized_doomed (s := s.parting.aborted.closed) hs.running (hs.connecting.mpr rfl)
        (hs.aborted.closed.awaited rfl)).stocked
    · exact (htls (.inr rfl) hc hsecure).elim
    · exact absurd (hbare.symm.trans hs.stock.1) Bool.false_ne_true
  | connected => exact In.disconnect_connected (.inr h)
  | disconnecting =>
    have hs := h.of_cons nofun rfl
    exact hs.stocked.disconnect (hs.disconnecting.mpr rfl)

theorem Doomed.disconnect (h : Doomed s) : Safely disconnect s := by
  have hsocket {P : Prop} (hs : s.socket = true) : P := absurd (h.socket.symm.trans hs) Bool.false_ne_true
  cases hd : s.disconnecting with
  | true => exact h.stocked.disconnect hd
  | false =>
    exact safely_disconnect hd (fun _ _ _ hs => hsocket hs) (fun _ _ _ hs => hsocket hs) fun a _ _ =>
      (finalized_doomed (s := s.parting) h.running h.connecting h.awaited).stocked

/-! ## The tick -/

inductive TickTo (s : St) : St → Prop
  | closed {u : St} (hu : Sent s u) (hp : Posts s u) : TickTo s u.closed
  | on {u : St} (hu : Sent s u) (hp : Posts s u) : TickTo s u.ticking
  | timedOut {u : St} (hu : Sent s u) (hp : Posts s u) (hc : s.isConnected = true) (rest : List Nat) :
    TickTo s (u.timedOut rest).ticking
  | answer {u : St} (hu : Sent s u) (hp : Posts s u) (hc : s.isConnected = true) : TickTo s u.answering.ticking

theorem checkTimeouts_tickTo (hu : Sent s u) (hp : Posts s u) (he : s.isConnected = true → s.endpoints ≠ [])
    (uri : Uri) : wp (checkTimeouts E uri) (fun _ t => TickTo s t.ticking) (fun x _ => x ≠ .emptyEndpoints) u := by
  rw [checkTimeouts, wp_bind, wp_get, wp_when]
  split
  · rename_i hc
    rw [hp.isConnected] at hc
    have htimeOut : wp timeOut (fun _ t => TickTo s t.ticking) (fun x _ => x ≠ .emptyEndpoints) u := by
      have hendpoints : u.endpoints = s.endpoints := congrArg Link.endpoints hp.link
      rw [wp_timeOut]
      split
      · rename_i hnil
        exact absurd (hendpoints.symm.trans hnil) (he hc)
      · exact .timedOut hu hp hc _
    rw [wp_ite]
    split
    · rw [wp_ite]
      split
      · simp only [wp_bind, clearResponsePleas, post, wp_modify]
        exact .answer hu hp hc
      · exact htimeOut
    · rw [wp_when]
      split
      · exact htimeOut
      · exact .on hu hp
  · exact .on hu hp

theorem workloopTimerElapsed_tickTo (hc : s.conn = some a) (he : s.isConnected = true → s.endpoints ≠ []) :
    wp (workloopTimerElapsed E false) (fun _ t => TickTo s t) (fun x _ => x ≠ .emptyEndpoints) s := by
  rw [wp_workloopTimerElapsed_false hc]
  refine wp_mono (wp_and ((keepAlive_sent _).from_ s) ((keepAlive_posting _).from_ s)) (fun _ u hu => ?_)
    fun _ _ hx => hx.2.2
  split
  · rw [wp_closePending]
    split
    · exact .closed hu.1 hu.2
    · simp
  · rw [wp_when]
    split
    · exact checkTimeouts_tickTo hu.1 hu.2 he _
    · exact .on hu.1 hu.2

/-- The endpoint is gone, and a `disconnect` is in front of the next tick. -/
theorem In.timedOut (h : In .connected s) (hticks : s.queue.countP Handler.isTick = 0) (rest : List Nat) :
    In .connected (s.timedOut rest) := by
  have hfree : ∀ k ∈ s.queue, k.isTick = false := fun k hk =>
    Bool.eq_false_of_not_eq_true (List.countP_eq_zero.mp hticks k hk)
  exact { h.posting (Posts.push s) with stock := ⟨h.stock.1, .inr ⟨s.queue, [], rfl, hfree⟩⟩ }

theorem In.answering (h : In .connected s) : In .connected s.answering := by
  refine h.unmoved (l := [.processResponse noLoginReply]) (.of_link rfl rfl rfl ?_) rfl nofun ?_ (by simp) ?_
  · simp [Handler.isBaton, Handler.isTick]
  · intro k hk
    rw [List.mem_singleton.mp hk]
    rfl
  · intro k hk l hl
    rw [List.mem_singleton.mp hl]
    exact h.before_poster rfl hk rfl

theorem In.workloopTimerElapsed {aborted : Bool} (h : In p (s.cons (.workloopTimerElapsed aborted))) :
    Safely (workloopTimerElapsed E aborted) s := by
  have hs := h.of_cons (fun _ => nofun) rfl
  cases aborted with
  | true => exact wp_workloopTimerElapsed_true.mpr hs.stocked
  | false =>
    have hp : p ≠ .waiting := of_decide_eq_true (h.allowed _ List.mem_cons_self)
    have hticks : s.queue.countP Handler.isTick = 0 := by
      have hchain := h.chain
      simp only [St.chains, St.cons, List.countP_cons, Handler.isTick, Bool.not_false, if_true] at hchain
      omega
    -- no `disconnect` is in front of the tick that runs, so the endpoint is there
    have he : s.isConnected = true → s.endpoints ≠ [] := by
      intro hc
      obtain rfl := hs.isConnected_iff.mp hc
      refine h.stock.2.resolve_right ?_
      rintro ⟨pre, post, hq, hpre⟩
      cases pre with
      | nil => cases (List.cons.inj hq).1
      | cons k pre =>
        obtain ⟨rfl, -⟩ := List.cons.inj hq
        cases hpre _ List.mem_cons_self
    have hqueue {u : St} (hu : Sent s u) : u.queue = s.queue := by
      obtain ⟨_, _, _, _, _, rfl⟩ := hu
      rfl
    cases hc : s.conn with
    | none => exact (wp_workloopTimerElapsed_none hc).mpr hs.stocked
    | some a =>
      refine wp_mono (workloopTimerElapsed_tickTo hc he) (fun _ t ht => ?_) fun _ _ hx => hx
      cases ht with
      | closed hu hposts => exact (hs.sent hu hposts).closed.stocked
      | on hu hposts => exact ((hs.sent hu hposts).ticking hp (by rw [hqueue hu, hticks])).stocked
      | timedOut hu hposts hconnected rest =>
        obtain rfl := hs.isConnected_iff.mp hconnected
        refine (((hs.sent hu hposts).timedOut (by rw [hqueue hu, hticks]) rest).ticking hp ?_).stocked
        simp [St.timedOut, hqueue hu, List.countP_append, hticks, Handler.isTick]
      | answer hu hposts hconnected =>
        obtain rfl := hs.isConnected_iff.mp hconnected
        refine ((hs.sent hu hposts).answering.ticking hp ?_).stocked
        simp [St.answering, hqueue hu, List.countP_append, hticks, Handler.isTick]

theorem Doomed.isConnected (h : Doomed s) : s.isConnected = false := by
  simp [St.isConnected, St.isPendingState, h.connecting]

theorem Doomed.workloopTimerElapsed (h : Doomed s) (aborted : Bool) : Safely (workloopTimerElapsed E aborted) s := by
  have hunconnected {P : Prop} (hc : s.isConnected = true) : P :=
    absurd (h.isConnected.symm.trans hc) Bool.false_ne_true
  have hsent {u : St} (hu : Sent s u) : Doomed u := by
    obtain ⟨_, _, _, _, _, rfl⟩ := hu
    exact { h with }
  cases aborted with
  | true => exact wp_workloopTimerElapsed_true.mpr h.stocked
  | false =>
    cases hc : s.conn with
    | none => exact (wp_workloopTimerElapsed_none hc).mpr h.stocked
    | some a =>
      refine wp_mono (workloopTimerElapsed_tickTo hc fun hc => hunconnected hc) (fun _ t ht => ?_) fun _ _ hx => hx
      cases ht with
      | closed hu _ => exact Doomed.stocked ((hsent hu).append rfl rfl rfl rfl)
      | @on u hu _ =>
        obtain ⟨new, hq, -⟩ := armed_queue u (.until (u.now + workloopInterval))
        exact Doomed.stocked ((hsent hu).append rfl rfl rfl hq)
      | timedOut _ _ hconnected _ => exact hunconnected hconnected
      | answer _ _ hconnected => exact hunconnected hconnected

/-! ## The runs -/

theorem Posting.safely_doomed {m : M Unit} (hm : Posting m) (h : Doomed s) : Safely m s := by
  refine wp_mono (hm.from_ s) (fun _ t ht => ?_) fun _ _ hx => hx.2
  obtain ⟨n, hq⟩ := ht.queue
  exact (h.append (congrArg Link.crashed ht.link) (congrArg Link.connecting ht.link) (congrArg Link.socket ht.link)
    hq).stocked

theorem In.run {k : Handler} (h : In p (s.cons k)) (choice : Option (Nat × Bool)) :
    Safely (runHandler E choice k) s := by
  cases k with
  | startConnect => exact h.startConnect
  | disconnect => exact h.disconnect
  | disconnectFinalize => exact h.disconnectFinalize
  | resolveHandler endpoints => exact h.resolveHandler
  | connectHandler ec handshakeFails => exact h.connectHandler
  | workloopTimerElapsed aborted => exact h.workloopTimerElapsed
  | onRecvSocketDataCompleted data => exact h.poster rfl (onRecvSocketDataCompleted_posting data)
  | onSendSocketDataCompleted ec => exact h.poster rfl (onSendSocketDataCompleted_posting ec)
  | onSSLShutdownCompleted => exact h.onSSLShutdownCompleted
  | processResponse response => exact h.poster rfl (processResponse_posting response)
  | rotateConnect => exact h.rotateConnect choice
  | reconnectTimerElapsed => exact h.reconnectTimerElapsed

/-- The handler of the connect stops; what is queued in front of it does not change that. -/
theorem Doomed.run {k : Handler} (h : Doomed (s.cons k)) (choice : Option (Nat × Bool)) :
    Safely (runHandler E choice k) s := by
  obtain ⟨pre, c, post, hq, hc, hpre⟩ := h.awaited
  cases pre with
  | nil =>
    obtain ⟨rfl, -⟩ := List.cons.inj hq
    cases k <;> cases hc
    have hsocket : s.socket = false := h.socket
    rw [Safely, runHandler, wp_connectHandler, if_neg (by simp [hsocket])]
    simp
  | cons l pre =>
    obtain ⟨rfl, hrest⟩ := List.cons.inj hq
    have hs : Doomed s := ⟨h.running, h.connecting, h.socket, pre, c, post, hrest, hc, fun l hl => hpre l (.tail _ hl)⟩
    obtain ⟨hrotate, hresolve⟩ := hpre k List.mem_cons_self
    cases k with
    | startConnect =>
      rw [Safely, runHandler, wp_startConnect, if_pos hs.connecting]
      exact hs.stocked
    | disconnect => exact hs.disconnect
    | disconnectFinalize =>
      rw [Safely, runHandler, wp_disconnectFinalize]
      split
      · simp
      · exact (finalized_doomed hs.running hs.connecting hs.awaited).stocked
    | resolveHandler endpoints => exact absurd rfl (hresolve endpoints)
    | connectHandler ec handshakeFails =>
      rw [Safely, runHandler, wp_connectHandler, if_neg (by simp [hs.socket])]
      simp
    | workloopTimerElapsed aborted => exact hs.workloopTimerElapsed aborted
    | onRecvSocketDataCompleted data => exact (onRecvSocketDataCompleted_posting data).safely_doomed hs
    | onSendSocketDataCompleted ec => exact (onSendSocketDataCompleted_posting ec).safely_doomed hs
    | onSSLShutdownCompleted =>
      rw [Safely, runHandler, wp_onSSLShutdownCompleted]
      exact Doomed.stocked (hs.append rfl rfl rfl rfl)
    | processResponse response => exact (processResponse_posting response).safely_doomed hs
    | rotateConnect => cases hrotate
    | reconnectTimerElapsed =>
      rw [Safely, runHandler, wp_reconnectTimerElapsed, wp_connect, if_pos hs.connecting]
      split <;> exact hs.stocked

theorem In.push {k : Handler} (h : In p s) (ho : Unmoved s (t.push k)) (hq : t.queue = s.queue)
    (hstill : p.talks s.secure = false → t.reads = s.reads ∧ t.writes = s.writes)
    (hk : p.allows s.secure k = true) (hout : ∀ l ∈ s.queue, l.mayPrecede k = true) : In p (t.push k) := by
  refine h.unmoved (l := [k]) ho (by rw [St.push, hq]) hstill ?_ (List.pairwise_singleton _ _) ?_
  · intro l hl
    rw [List.mem_singleton.mp hl]
    exact hk
  · intro l hl m hm
    rw [List.mem_singleton.mp hm]
    exact hout l hl

theorem In.push_poster {k : Handler} (h : In p s) (hk : k.isPoster = true) (hbusy : ¬ (s.reads = 0 ∧ s.writes = []))
    (hl : t.link = s.link) (hu : t.uris = s.uris) (hq : t.queue = s.queue) : In p (t.push k) := by
  have htalks : p.talks s.secure = true := by
    by_contra ht
    exact hbusy (h.still (Bool.eq_false_of_not_eq_true ht))
  have hsecure : (t.push k).secure = s.secure := by
    have hconn : t.conn = s.conn := congrArg Link.conn hl
    simp only [St.secure, St.push, hconn, hu]
  have hside : k.isBaton = false ∧ k.isTick = false := by cases k <;> first | exact ⟨rfl, rfl⟩ | cases hk
  refine h.push (.of_link (l := [k]) hl hsecure (by rw [St.push, hq]) (by simpa using hside)) hq (fun ht => ?_) ?_ ?_
  · exact absurd (ht.symm.trans htalks) Bool.false_ne_true
  · rw [Handler.allows_poster hk]
    exact chats_of_talks htalks
  · exact fun l hl => h.before_poster htalks hl hk

/-- The handler of a resolve, a connect, a shutdown or the reconnect timer comes in the place of the operation. -/
theorem In.push_baton {k : Handler} {resolves connects shutdowns : Nat} {pending : Bool} (h : In p s)
    (hk : k.isBaton = true) (hpart : ∀ l : Handler, l.mayPrecede k = true)
    (hle : resolves ≤ s.resolves ∧ connects ≤ s.connects ∧ shutdowns ≤ s.shutdowns)
    (hpending : pending = true → s.reconnectPending = true)
    (hbatons : resolves + connects + shutdowns + pending.toNat + 1 =
      s.resolves + s.connects + s.shutdowns + s.reconnectPending.toNat)
    (hturns : s.connects ≤ connects + k.isConnect.toNat) (hallowed : p.allows s.secure k = true) :
    In p ({ s with resolves, connects, shutdowns, reconnectPending := pending }.push k) := by
  have htick : k.isTick = false := by cases k <;> first | rfl | cases hk
  refine h.push ⟨rfl, rfl, rfl, rfl, rfl, rfl, rfl, rfl, hpending, hle.1, hle.2.1, hle.2.2, id, ?_, ?_, ?_⟩ rfl
    (fun _ => ⟨rfl, rfl⟩) hallowed fun l _ => hpart l
  · simp only [St.batons, St.push, List.countP_append, List.countP_singleton, hk, if_true]
    omega
  · simp [St.chains, St.push, htick]
  · simp only [St.connectTurns, St.push, List.countP_append, List.countP_singleton]
    cases hc : k.isConnect <;> simp only [hc, Bool.toNat_true, Bool.toNat_false] at hturns ⊢ <;> simp <;> omega

/-- A tick joins the queue in the place of its timer. -/
theorem In.push_tick {d : Nat} (h : In p s) (htimer : s.timer = some (.until d)) :
    In p ({ s with timer := none }.push (.workloopTimerElapsed false)) := by
  have hfinite : s.timer.any Wait.isFinite = true := by rw [htimer]; rfl
  refine h.push ⟨rfl, rfl, rfl, rfl, rfl, rfl, rfl, rfl, id, le_rfl, le_rfl, le_rfl, nofun, ?_, ?_, ?_⟩ rfl
    (fun _ => ⟨rfl, rfl⟩) ?_ fun l _ => by cases l <;> rfl
  · simp [St.batons, St.push, Handler.isBaton]
  · simp only [St.chains, St.push, hfinite, List.countP_append, List.countP_singleton, Handler.isTick, Option.any_none,
      Bool.not_false, if_true, Bool.toNat_true, Bool.toNat_false]
    omega
  · simp [St.connectTurns, St.push]
  · refine decide_eq_true ?_
    rintro rfl
    exact absurd (h.stock.symm.trans hfinite) Bool.false_ne_true

theorem In.completion {e : Ev} (h : In p s) (hf : Fired E s e t) (he : e.isCompletion = true) : In p t := by
  cases hf with
  | timerExpires htimer _ => exact h.push_tick htimer
  | resolved hpos =>
    exact h.push_baton rfl (fun l => by cases l <;> rfl) ⟨Nat.sub_le _ _, le_rfl, le_rfl⟩ id (by omega)
      (Nat.le_add_right _ _) (decide_eq_true (h.resolves hpos))
  | connectCompletes hpos =>
    exact h.push_baton rfl (fun _ => Handler.mayPrecede_connect rfl) ⟨le_rfl, Nat.sub_le _ _, le_rfl⟩ id (by omega)
      (by simp only [Handler.isConnect, Bool.toNat_true]; omega) (decide_eq_true (h.connects hpos))
  | received hpos _ => exact h.push_poster rfl (fun hs => hpos.ne' hs.1) rfl rfl rfl
  | readFails hpos => exact h.push_poster rfl (fun hs => hpos.ne' hs.1) rfl rfl rfl
  | written hw => exact h.push_poster rfl (fun hs => by cases hw.symm.trans hs.2) rfl rfl rfl
  | writeFails hw => exact h.push_poster rfl (fun hs => by cases hw.symm.trans hs.2) rfl rfl rfl
  | shutdownCompletes hpos =>
    exact h.push_baton rfl Handler.mayPrecede_shutdown ⟨le_rfl, le_rfl, Nat.sub_le _ _⟩ id (by omega)
      (Nat.le_add_right _ _) (decide_eq_true (h.shutdowns hpos))
  | reconnectTimerExpires hpending =>
    exact h.push_baton rfl (fun l => by cases l <;> rfl) ⟨le_rfl, le_rfl, le_rfl⟩ (by simp) (by rw [hpending]; rfl)
      (Nat.le_add_right _ _) (decide_eq_true (h.pending hpending))
  | advance => exact { h with }
  | run _ | callDisconnect _ | stopConnected _ _ | stopUnconnected _ | submitSolution _ | submitHashrate _ => cases he

theorem Doomed.completion {e : Ev} (h : Doomed s) (hf : Fired E s e t) (he : e.isCompletion = true) : Doomed t := by
  cases hf with
  | advance => exact { h with }
  | run _ | callDisconnect _ | stopConnected _ _ | stopUnconnected _ | submitSolution _ | submitHashrate _ => cases he
  | _ => exact h.append rfl rfl rfl rfl

theorem In.submit {m : M Unit} (h : In .connected s) (hm : Posting m) : Safely m s :=
  wp_mono (hm.from_ s) (fun _ _ ht => (h.posting ht).stocked) fun _ _ hx => hx.2

structure Supplied (s : St) : Prop where
  popped : s.crashed ≠ some .emptyEndpoints
  stocked : s.crashed = none → Stocked s

theorem Stocked.running (h : Stocked s) : s.crashed = none := h.elim (fun ⟨_, h⟩ => h.running) Doomed.running

theorem Stocked.supplied (h : Stocked s) : Supplied s := ⟨by rw [h.running]; nofun, fun _ => h⟩

theorem Safely.supplied {m : M Unit} (h : Safely m s) : Supplied (call m s) :=
  call_of_wp (wp_mono h (fun _ _ ht => ht.supplied) fun _ _ hx => ⟨fun hc => hx (Option.some.inj hc), nofun⟩)

/-- The pool manager calls `disconnect` on a connection, or on one that is shut down. -/
def disconnectsLinked (s : St) : Ev → Bool
  | .callDisconnect => s.connected || s.disconnecting
  | _ => true

theorem In.step {e : Ev} (h : In p s) (hC : disconnectsLinked s e = true) (hf : Fired E s e t) : Supplied t := by
  by_cases he : e.isCompletion = true
  · exact (h.completion hf he).stocked.supplied
  cases hf with
  | @run choice k queue hq =>
    rw [St.eq_cons hq] at h
    exact (h.run choice).supplied
  | callDisconnect _ =>
    rcases Bool.or_eq_true _ _ ▸ hC with hc | hd
    · obtain rfl := h.connected.mp hc
      exact (In.disconnect_connected (.inl h)).supplied
    · exact (h.stocked.disconnect hd).supplied
  | stopConnected _ hc =>
    obtain rfl := h.isConnected_iff.mp hc
    have hstopping : In .connected { s with stopping := true } := { h with }
    exact (In.disconnect_connected (.inl hstopping)).supplied
  | stopUnconnected _ =>
    have hstopping : In p { s with stopping := true, reconnectPending := false } := {
      h with
      pending := nofun
      one := by
        have hone := h.one
        simp only [St.batons, Bool.toNat_false] at hone ⊢
        omega }
    exact hstopping.stocked.supplied
  | submitSolution hc =>
    obtain rfl := h.isConnected_iff.mp hc
    exact (h.submit (submitSolution_posting _)).supplied
  | submitHashrate hc =>
    obtain rfl := h.isConnected_iff.mp hc
    exact (h.submit (submitHashrate_posting _ _)).supplied
  | _ => exact absurd rfl he

theorem Doomed.step {e : Ev} (h : Doomed s) (hf : Fired E s e t) : Supplied t := by
  by_cases he : e.isCompletion = true
  · exact (h.completion hf he).stocked.supplied
  have hunconnected {P : Prop} (hc : s.isConnected = true) : P :=
    absurd (h.isConnected.symm.trans hc) Bool.false_ne_true
  cases hf with
  | @run choice k queue hq =>
    rw [St.eq_cons hq] at h
    exact (h.run choice).supplied
  | callDisconnect _ => exact h.disconnect.supplied
  | stopConnected _ hc => exact hunconnected hc
  | stopUnconnected _ =>
    have hstopping : Doomed { s with stopping := true, reconnectPending := false } := { h with }
    exact hstopping.stocked.supplied
  | submitSolution hc => exact hunconnected hc
  | submitHashrate hc => exact hunconnected hc
  | _ => exact absurd rfl he

theorem init_unbound (uris : Nat → Uri) : In .unbound (init uris) where
  running := rfl
  bound := iff_of_true rfl rfl
  connecting := iff_of_false nofun nofun
  connected := iff_of_false nofun nofun
  disconnecting := iff_of_false nofun nofun
  pending := nofun
  resolves := nofun
  connects := nofun
  shutdowns := nofun
  still := nofun
  allowed k hk := by rw [List.mem_singleton.mp hk]; rfl
  order := List.pairwise_singleton _ _
  one := le_rfl
  chain := Nat.zero_le 1
  stock := trivial

/-- No endpoint is popped from an empty queue: not by a connect that fails, nor by a tick, however the connects, the
    ticks, the timeouts, the pool's messages and the reconnects follow each other. Only the pool manager's own calls of
    `disconnect` are limited, to those that find something to disconnect. -/
theorem endpoints_never_exhausted (h : Run E (fun s e => disconnectsLinked s e = true) s) :
    s.crashed ≠ some .emptyEndpoints := by
  have hsupplied : Supplied s := by
    refine run_invariant (fun uris _ => (init_unbound uris).stocked.supplied) (fun s e t hs hc hC hf => ?_) h
    rcases hs.stocked hc with ⟨p, hp⟩ | hdoomed
    · exact hp.step hC hf
    · exact hdoomed.step hf
  exact hsupplied.popped

/-- Both addresses refuse the connect; the second `connect_handler` pops the last endpoint. -/
theorem endpoints_popped_to_last : ∃ s, Run (tableEnv []) (fun s e => disconnectsLinked s e = true) s ∧
    s.endpoints = [] ∧ s.crashed ≠ some .emptyEndpoints := by
  obtain ⟨s, hrun, hs⟩ := run_of_trace (tableEnv []) (C := disconnectsLinked)
    (fun _ => dnsUri_fresh STRATUM (.inl (by decide)))
    (resolveTrace ++ [.connectCompletes true false, .run none, .run none, .connectCompletes true false, .run none])
    (p := fun s => s.endpoints = [] ∧ s.queue.length = 1) (by decide +kernel)
  exact ⟨s, hrun, hs.1, endpoints_never_exhausted hrun⟩

/-- A `disconnect` that the pool manager calls while the client waits for the reconnect timer makes it connect twice.
    The second result of the resolver starts a connect on the established connection; it fails, its handler pops the one
    endpoint there is, and the next tick finds none. -/
theorem exhausted_after_early_disconnect : ∃ s, Reach (tableEnv []) s ∧ s.crashed = some .emptyEndpoints :=
  reach_of_trace (tableEnv []) (fun _ => dnsUri_fresh STRATUM (.inl (by decide)))
    [.run (some (0, true)), .callDisconnect, .reconnectTimerExpires, .run none, .run (some (0, false)),
      .resolved (some [0]), .run none, .run none, .run none, .run none, .run none, .connectCompletes false false,
      .run none, .resolved (some []), .run none, .run none, .connectCompletes true false, .advance 3000000000,
      .timerExpires, .run none, .run none] (by decide +kernel)

end CoreMiner.Stratum
