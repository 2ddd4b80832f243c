/-
  CoreMiner.Pools.Active — the active connection (`PoolManager.cpp`: `addConnection`,
  `removeConnection`, `setActiveConnection`, `rotateConnect`, `failovertimer_elapsed`,
  `reconnecttimer_elapsed`, `setClientHandlers`, `getConnectionsJson`).

  While the client is connected and nothing is pending, the URI it is bound to is the active
  entry of the list (`active_connection`). The index moves in two ways. `rotateConnect` moves
  it when the client has no connection, and gives it the entry. The API and the failover
  timer move it under a client that has one, and disconnect it; that a client which is
  disconnected on their behalf does not come back on its own needs its URI's mode to be
  confirmed, and it is: a failover or a selection happens only behind a session, and a
  failover that was due when the connection was lost runs before the next `rotateConnect`
  (`Lined`).
-/

import CoreMiner.Pools.Moves

namespace CoreMiner.Pools

open DevCore EthCore Lib Prog Stratum

variable {E : Env} {S : Settings} {m n : Manager} {s t : St} {p q : Pool} {k : Handler} {queue : List Handler}

/-! ## The invariant -/

def Confirmed (s : St) : Prop := ∀ a, s.conn = some a → (s.uris a).stratumModeConfirmed = true

/-- The tasks are behind handlers of this queue, and a failover is not behind `rotateConnect`. -/
structure Lined (tasks : List (Nat × Task)) (queue : List Handler) : Prop where
  ahead : ∀ x ∈ tasks, x.1 ≤ queue.length
  order : ∀ x ∈ tasks, x.2 = .failovertimerElapsed → ∀ k ∈ queue.take x.1, k.isRotate = false

def Pool.Failing (p : Pool) : Prop := p.failovertimer ≠ none ∨ ∃ x ∈ p.tasks, x.2 = .failovertimerElapsed

structure Base (p : Pool) : Prop where
  bounded : p.activeConnectionIdx < p.connections.length ∨
    (p.connections = [] ∧ p.activeConnectionIdx = 0) ∧ p.running = false ∧ p.st.conn = none ∧ p.st.rotations = 0
  once : p.st.rotations ≤ 1
  waiting : 0 < p.st.rotations → p.st.conn = none ∧ p.asyncPending = true ∧ p.failovertimer = none
  session : p.asyncPending = false → Confirmed p.st
  bound : p.asyncPending = false → p.st.stopping = false → p.st.conn ≠ none
  failing : p.Failing → Confirmed p.st
  lined : Lined p.tasks p.st.queue

/-- The client is bound to the active entry, or is leaving the one it is bound to. -/
structure Inv (p : Pool) : Prop extends Base p where
  active : ∀ a, p.st.conn = some a →
    p.active = some a ∨ p.st.disconnecting = true ∧ (p.st.uris a).stratumModeConfirmed = true

/-! ## Hearing -/

theorem Lined.append {tasks : List (Nat × Task)} (h : Lined tasks queue) (new : List Handler) :
    Lined tasks (queue ++ new) where
  ahead x hx := by
    have := h.ahead x hx
    rw [List.length_append]
    omega
  order x hx hf := by
    rw [List.take_append_of_le_length (h.ahead x hx)]
    exact h.order x hx hf

theorem rotations_append {new : List Handler} (hq : t.queue = s.queue ++ new) (hnew : ∀ k ∈ new, k.isRotate = false) :
    t.rotations = s.rotations := by
  have hnone : new.countP Handler.isRotate = 0 := List.countP_eq_zero.mpr fun k hk => by simp [hnew k hk]
  rw [St.rotations, hq, List.countP_append, hnone]
  rfl

theorem Confirmed.stays (hs : Confirmed s) (h : Stays s t) : Confirmed t := fun a ha =>
  h.confirmed a (hs a (h.conn ▸ ha))

theorem Base.stays (h : Base p) (ht : Stays p.st t) : Base { p with st := t } := by
  obtain ⟨new, hq, hnew⟩ := ht.queue
  have hrotations := rotations_append hq hnew
  exact {
    bounded := by
      refine h.bounded.imp_right fun ⟨hempty, hrunning, hconn, hnone⟩ => ⟨hempty, hrunning, ?_, ?_⟩
      · exact ht.conn.trans hconn
      · exact hrotations.trans hnone
    once := hrotations ▸ h.once
    waiting := fun hwait => by
      have := h.waiting (hrotations ▸ hwait)
      exact ⟨ht.conn.trans this.1, this.2⟩
    session := fun hp => (h.session hp).stays ht
    bound := fun hp hs => ht.conn ▸ h.bound hp (ht.stopping ▸ hs)
    failing := fun hf => (h.failing hf).stays ht
    lined := by
      show Lined p.tasks t.queue
      rw [hq]
      exact h.lined.append new }

theorem Base.works (h : Base p) (hm : Works p.toManager n) : Base { p with toManager := n } := by
  obtain ⟨_, _, _, rfl⟩ := hm
  exact ⟨h.bounded, h.once, h.waiting, h.session, h.bound, h.failing, h.lined⟩

theorem Base.welcomed {a : Nat} (h : Base p) (hc : p.st.conn = some a)
    (hconf : (p.st.uris a).stratumModeConfirmed = true) (now : Nat) :
    Base { p with toManager := p.toManager.welcomed S now } := by
  have hconfirmed : Confirmed p.st := fun b hb => by
    obtain rfl : a = b := by simpa [hc] using hb
    exact hconf
  have hnone : ¬ 0 < p.st.rotations := fun hwait => by simpa [hc] using (h.waiting hwait).1
  exact {
    bounded := h.bounded
    once := h.once
    waiting := fun hwait => absurd hwait hnone
    session := fun _ => hconfirmed
    bound := fun _ _ => by simp [hc]
    failing := fun _ => hconfirmed
    lined := h.lined }

theorem Base.leaves (h : Base p) (ht : Leaves p.st t) :
    Base { p with toManager := p.parted p.st.stopping, st := t } := by
  obtain ⟨new, later, hq, hnew, hlater⟩ := ht.queue
  have hnone : p.st.rotations = 0 := by
    by_contra hwait
    exact ht.bound (h.waiting (by omega)).1
  have hrotations : t.rotations = p.st.followUp.countP Handler.isRotate := by
    have hbefore : new.countP Handler.isRotate = 0 := List.countP_eq_zero.mpr fun k hk => by simp [hnew k hk]
    have hafter : later.countP Handler.isRotate = 0 := List.countP_eq_zero.mpr fun k hk => by simp [hlater k hk]
    rw [St.rotations] at hnone
    rw [St.rotations, hq, List.countP_append, List.countP_append, List.countP_append, hnone, hbefore, hafter]
    omega
  have hconfirmed : Confirmed t := fun a ha => by simp [ht.conn] at ha
  exact {
    bounded := h.bounded.imp_right fun hbound => absurd hbound.2.2.1 ht.bound
    once := by
      show t.rotations ≤ 1
      rw [hrotations, St.followUp]
      split <;> simp [Handler.isRotate]
    waiting := fun hwait => by
      refine ⟨ht.conn, ?_, rfl⟩
      have hgoes : p.st.stopping = false := by
        by_contra hstops
        rw [Bool.not_eq_false] at hstops
        simp [hrotations, St.followUp, hstops] at hwait
      simp [Manager.parted, hgoes]
    session := fun _ => hconfirmed
    bound := fun hp hs => by
      have hs : p.st.stopping = false := ht.stopping ▸ hs
      simp [Manager.parted, hs] at hp
    failing := fun _ => hconfirmed
    lined := by
      show Lined p.tasks t.queue
      rw [hq, List.append_assoc, List.append_assoc]
      exact h.lined.append _ }

theorem Base.hears (h : Base p) (hh : Hears S p.st p.toManager t n) : Base { p with toManager := n, st := t } := by
  cases hh with
  | nothing ht hm => exact (h.stays ht.toStays).works hm
  | session ht hc hconf _ hm => exact ((h.stays ht.toStays).welcomed hc hconf t.now).works hm
  | loss ht hm => exact (h.leaves ht).works hm

/-- Only mining, the attempts and the timer are affected, or the connection is gone. -/
theorem Hears.active (hh : Hears S s m t n) : n.active = m.active ∧ n.connections = m.connections := by
  cases hh with
  | nothing _ hm | session _ _ _ _ hm | loss _ hm =>
    obtain ⟨_, _, _, rfl⟩ := hm
    exact ⟨rfl, rfl⟩

theorem Inv.hears (h : Inv p) (hh : Hears S p.st p.toManager t n) : Inv { p with toManager := n, st := t } where
  toBase := h.toBase.hears hh
  active a ha := by
    have hstays : ∀ ht : Stays p.st t, p.active = some a ∨
        t.disconnecting = true ∧ (t.uris a).stratumModeConfirmed = true := by
      intro ht
      have hc : p.st.conn = some a := ht.conn ▸ ha
      exact (h.active a hc).imp_right fun ⟨hd, hconf⟩ => ⟨ht.disconnecting a hc hconf hd, ht.confirmed a hconf⟩
    show n.active = some a ∨ _
    rw [hh.active.1]
    cases hh with
    | nothing ht _ => exact hstays ht.toStays
    | session ht _ _ _ _ => exact hstays ht.toStays
    | loss ht _ => exact absurd (ht.conn.symm.trans ha) nofun

/-! ## Handlers and tasks -/

theorem Lined.popped {tasks : List (Nat × Task)} (h : Lined tasks (k :: queue)) :
    Lined (tasks.map fun (n, task) => (n - 1, task)) queue := by
  refine ⟨fun x hx => ?_, fun x hx hf => ?_⟩
  · obtain ⟨⟨n, task⟩, hmem, rfl⟩ := List.mem_map.mp hx
    have := h.ahead _ hmem
    simp only [List.length_cons] at this ⊢
    omega
  · obtain ⟨⟨n, task⟩, hmem, rfl⟩ := List.mem_map.mp hx
    intro k' hk'
    refine h.order _ hmem hf k' ?_
    cases n with
    | zero => simp at hk'
    | succ n => exact List.mem_cons_of_mem _ hk'

theorem Inv.popped (h : Inv p) (hnext : Next p k queue) : Inv { p.passed false with st := { p.st with queue } } := by
  have hrotations : ({ p.st with queue } : St).rotations ≤ p.st.rotations := by
    rw [St.rotations, St.rotations, hnext.queue, List.countP_cons]
    exact Nat.le_add_right _ _
  exact {
    bounded := by
      refine h.bounded.imp_right ?_
      rintro ⟨hempty, hrunning, hconn, hnone⟩
      refine ⟨hempty, hrunning, hconn, ?_⟩
      show ({ p.st with queue } : St).rotations = 0
      omega
    once := hrotations.trans h.once
    waiting := fun hwait => h.waiting (hwait.trans_le hrotations)
    session := h.session
    bound := h.bound
    failing := fun hf => h.failing (hf.imp_right (by
      rintro ⟨x, hx, hxf⟩
      obtain ⟨y, hy, rfl⟩ := List.mem_map.mp hx
      exact ⟨y, hy, hxf⟩))
    lined := (hnext.queue ▸ h.lined).popped
    active := h.active }

theorem Next.rotations (hnext : Next p .rotateConnect queue) : 0 < p.st.rotations := by
  rw [St.rotations, hnext.queue]
  simp [Handler.isRotate]

/-- When `rotateConnect` runs it is the only one, and there is an entry to look at. -/
theorem Base.rotates (h : Base p) (hnext : Next p .rotateConnect queue) :
    ({ p.st with queue } : St).rotations = 0 ∧ p.activeConnectionIdx < p.connections.length := by
  have hpos := hnext.rotations
  refine ⟨?_, ?_⟩
  · have honce := h.once
    rw [St.rotations, hnext.queue, List.countP_cons_of_pos rfl] at honce
    exact Nat.le_zero.mp (Nat.le_of_succ_le_succ honce)
  · rcases h.bounded with hlt | ⟨-, -, -, hnone⟩
    · exact hlt
    · omega

theorem Base.rotateConnect_ne_none (h : Base p) (hnext : Next p .rotateConnect queue) :
    p.rotateConnect S p.st.uris ≠ none := by
  obtain ⟨_, _, _, _, _, _, hrotate, _⟩ := @rotateConnect_cases S p.st.uris p.toManager (h.rotates hnext).2
  simp [hrotate]

/-- No failover is behind `rotateConnect`, so none is left when that runs. -/
theorem Base.not_failing (h : Base p) (hnext : Next p .rotateConnect queue) : ¬ p.Failing := by
  have hwaiting := hnext.rotations
  rintro (htimer | ⟨x, hx, hf⟩)
  · exact htimer (h.waiting hwaiting).2.2
  · have hpos : x.1 ≠ 0 := fun h0 => by
      have := List.find?_eq_none.mp hnext.due x hx
      simp [Pool.due, h0] at this
    obtain ⟨i, hi⟩ := Nat.exists_eq_succ_of_ne_zero hpos
    have := h.lined.order x hx hf .rotateConnect (by rw [hnext.queue, hi]; exact List.mem_cons_self)
    cases this

theorem Inv.exits (h : Inv p) (hnext : Next p .rotateConnect queue)
    (hm : p.rotateConnect S p.st.uris = some (m, none)) :
    Inv { p.passed false with toManager := m, st := { p.st with queue } } := by
  obtain ⟨hnone, hlt⟩ := h.rotates hnext
  obtain ⟨hconn, hpending, -⟩ := h.waiting hnext.rotations
  obtain ⟨a, n, -, hselected, hrotated⟩ := rotated_of_rotateConnect hlt hm
  have hconfirmed : Confirmed { p.st with queue } := fun a ha => absurd (hconn.symm.trans ha) nofun
  obtain ⟨hn, -⟩ := hselected.flags
  have hbounded := hselected.bounded hlt
  cases hrotated
  exact {
    bounded := hbounded.symm.imp_right fun hempty => ⟨hempty, rfl, hconn, hnone⟩
    once := by
      show ({ p.st with queue } : St).rotations ≤ 1
      omega
    waiting := fun hwait => absurd hnone hwait.ne'
    session := fun _ => hconfirmed
    bound := fun hp => by
      have : n.asyncPending = false := hp
      simp [hn, hpending] at this
    failing := fun _ => hconfirmed
    lined := (hnext.queue ▸ h.lined).popped
    active := fun a ha => absurd (hconn.symm.trans ha) nofun }

theorem Lined.renewed {tasks : List (Nat × Task)} (h : ∀ x ∈ tasks, x.2 ≠ .failovertimerElapsed) (new : List Handler) :
    Lined (tasks.map fun (n, task) => ((queue.take (n - 1)).countP Handler.ofManager, task))
      (queue.filter Handler.ofManager ++ new) := by
  refine ⟨fun x hx => ?_, fun x hx hf => ?_⟩
  · obtain ⟨⟨n, task⟩, -, rfl⟩ := List.mem_map.mp hx
    have hle := (List.take_sublist (n - 1) queue).countP_le (p := Handler.ofManager)
    rw [List.length_append, ← List.countP_eq_length_filter]
    simp only
    omega
  · obtain ⟨⟨n, task⟩, hmem, rfl⟩ := List.mem_map.mp hx
    exact absurd hf (h (n, task) hmem)

theorem Inv.attempts {b : Nat} {delayed : Bool} (h : Inv p) (hnext : Next p .rotateConnect queue)
    (hc : (p.st.started && p.st.isConnected) = false)
    (hm : p.rotateConnect S p.st.uris = some (m, some (b, delayed))) :
    Inv { p.passed true with
      toManager := m, st := call (Stratum.rotateConnect (some (b, delayed))) { p.st with queue } } := by
  obtain ⟨hnone, hlt⟩ := h.rotates hnext
  obtain ⟨-, hpending, -⟩ := h.waiting hnext.rotations
  obtain ⟨a, n, -, hselected, hrotated⟩ := rotated_of_rotateConnect hlt hm
  obtain ⟨hn, hfailover, -⟩ := hselected.flags
  have hfailing := h.not_failing hnext
  have ht : Rebound b { p.st with queue } (call (Stratum.rotateConnect (some (b, delayed))) { p.st with queue }) :=
    rebound_of_rotate hc
  generalize call (Stratum.rotateConnect (some (b, delayed))) { p.st with queue } = t at ht
  have hbounded := hselected.bounded hlt
  cases hrotated with
  | attempt hactive _ =>
  obtain ⟨new, hq, hnew⟩ := ht.queue
  have hrotations : t.rotations = 0 := by
    have hkept : ((queue.filter Handler.ofManager).countP Handler.isRotate) ≤ queue.countP Handler.isRotate :=
      List.filter_sublist.countP_le
    have hafter : new.countP Handler.isRotate = 0 := List.countP_eq_zero.mpr fun k hk => by simp [hnew k hk]
    have hnone : queue.countP Handler.isRotate = 0 := hnone
    rw [St.rotations, hq, List.countP_append, hafter]
    simp only
    omega
  exact {
    bounded := by
      refine .inl ?_
      rcases hbounded with ⟨hempty, -⟩ | hlt
      · simp [Manager.active, hempty] at hactive
      · exact hlt
    once := hrotations.trans_le (Nat.zero_le 1)
    waiting := fun hwait => absurd hrotations hwait.ne'
    session := fun hp => by
      have : n.asyncPending = false := hp
      simp [hn, hpending] at this
    bound := fun _ _ => by simp [ht.conn]
    failing := fun hf => absurd (hf.imp (fun h => hfailover ▸ h) (by
      rintro ⟨x, hx, hxf⟩
      obtain ⟨y, hy, rfl⟩ := List.mem_map.mp hx
      exact ⟨y, hy, hxf⟩)) hfailing
    lined := by
      have hfirst : ∀ x ∈ p.tasks, x.2 ≠ .failovertimerElapsed := fun x hx hf => hfailing (.inr ⟨x, hx, hf⟩)
      show Lined _ t.queue
      rw [hq]
      simp only [Pool.passed, hnext.queue, List.tail_cons, if_true]
      exact .renewed hfirst new
    active := fun a ha => .inl (hactive.trans (ht.conn.symm.trans ha)) }

/-! ## Switches and requests -/

theorem Lined.sublist {tasks tasks' : List (Nat × Task)} (h : Lined tasks queue) (hsub : tasks'.Sublist tasks) :
    Lined tasks' queue := ⟨fun x hx => h.ahead x (hsub.subset hx), fun x hx => h.order x (hsub.subset hx)⟩

theorem Inv.taken (h : Inv p) : Inv { p with tasks := p.tasks.eraseP Pool.due } := { h with
  failing := fun hf => h.failing (hf.imp_right fun ⟨x, hx, hxf⟩ => ⟨x, List.mem_of_mem_eraseP hx, hxf⟩)
  lined := h.lined.sublist List.eraseP_sublist }

/-- The index has moved under a client whose mode is confirmed, and the client is disconnected. -/
theorem Base.switched (h : Base p) (hconf : Confirmed p.st) (ht : Fired E p.st .callDisconnect t) :
    Inv (p.hearing S 0 t) where
  toBase := h.hears (hears_of_seen rfl (ht.seen rfl))
  active a ha := by
    have hleaving : ∀ b, p.st.conn = some b → t.conn = none ∨ t.disconnecting = true := by
      intro b hb
      cases ht
      exact call_of_wp (disconnect_leaving hb (hconf b hb))
    rcases ht.seen rfl with hstays | hleaves
    · have hc : p.st.conn = some a := hstays.conn ▸ ha
      rcases hleaving a hc with hnone | hd
      · exact absurd (hnone.symm.trans ha) nofun
      · exact .inr ⟨hd, hstays.confirmed a (hconf a hc)⟩
    · exact absurd (hleaves.conn.symm.trans ha) nofun

theorem Inv.failover {x : Nat} (h : Inv p) (hdue : p.tasks.find? Pool.due = some (x, .failovertimerElapsed))
    (hm : p.failovertimerElapsed.2 = true) (ht : Fired E p.st .callDisconnect t) :
    Inv ({ p with tasks := p.tasks.eraseP Pool.due, toManager := p.failovertimerElapsed.1 }.hearing S 0 t) := by
  have hconf : Confirmed p.st := h.failing (.inr ⟨_, List.mem_of_find?_eq_some hdue, rfl⟩)
  have htaken := h.taken
  refine Base.switched (p := { p with tasks := _, toManager := _ }) ?_ hconf ht
  unfold Manager.failovertimerElapsed at hm ⊢
  split at hm
  case isFalse => cases hm
  case isTrue hrun =>
    rw [if_pos hrun]
    refine { htaken.toBase with bounded := .inl ?_ }
    rcases h.bounded with hlt | ⟨-, hstopped, -⟩
    · exact Nat.zero_lt_of_lt hlt
    · simp [hstopped] at hrun

theorem selects_lt {e : Ev} {idx : Nat} (he : e.selects S m = some idx) : idx < m.connections.length := by
  cases e with
  | setActiveConnection idx' =>
    obtain ⟨hlt, hidx⟩ := Option.ite_none_right_eq_some.mp he
    cases hidx
    exact hlt
  | setActiveConnectionUri connstring => exact List.findIdx?_eq_some_iff_getElem.mp he |>.1
  | _ => cases he

theorem Inv.selects {e : Ev} {idx : Nat} (h : Inv p) (he : e.selects S p.toManager = some idx)
    (hpending : p.asyncPending = false) (ht : Fired E p.st .callDisconnect t) :
    Inv ({ p with toManager := p.switchedTo idx }.hearing S 0 t) := by
  refine Base.switched (p := { p with toManager := _ }) ?_ (h.session hpending) ht
  exact { h.toBase with
    bounded := .inl (selects_lt he)
    waiting := fun hwait => by
      have := (h.waiting hwait).2.1
      simp [hpending] at this
    session := nofun
    bound := nofun }

theorem Inv.adds (h : Inv p) (a : Nat) : Inv { p with connections := p.connections ++ [a] } := { h with
  bounded := .inl (by
    rw [List.length_append]
    rcases h.bounded with hlt | ⟨⟨-, hidx⟩, -⟩
    · exact Nat.lt_add_right 1 hlt
    · simp [hidx])
  active := fun b hb => (h.active b hb).imp_left fun hactive => by
    rw [Manager.active, List.getElem?_eq_some_iff] at hactive
    obtain ⟨hlt, hget⟩ := hactive
    rw [Manager.active]
    simp only [List.getElem?_append_left hlt]
    exact List.getElem?_eq_some_iff.mpr ⟨hlt, hget⟩ }

theorem Inv.removes {idx : Nat} (h : Inv p) (hidx : idx < p.connections.length) (hne : idx ≠ p.activeConnectionIdx) :
    Inv { p with toManager := p.removed idx } := { h with
  bounded := .inl (by
    rcases h.bounded with hlt | ⟨⟨hempty, -⟩, -⟩
    · simp only [Manager.removed, List.length_eraseIdx_of_lt hidx]
      split <;> omega
    · simp [hempty] at hidx)
  active := fun a ha => by
    rw [removed_active hne]
    exact h.active a ha }

theorem Inv.stopping (h : Inv p) (connected : Bool) :
    Inv { p with toManager := p.toManager.stop connected, st := { p.st with stopping := true } } := by
  cases connected with
  | true =>
    exact { h with
      waiting := fun hwait => ⟨(h.waiting hwait).1, rfl, (h.waiting hwait).2.2⟩
      session := nofun
      bound := nofun }
  | false =>
    exact { h with
      waiting := fun hwait => ⟨(h.waiting hwait).1, rfl, rfl⟩
      session := nofun
      bound := nofun
      failing := fun hf => h.failing (hf.imp_left fun hnone => absurd rfl hnone) }

theorem Lined.post {tasks : List (Nat × Task)} (h : Lined tasks queue) {task : Task}
    (hrotate : task = .failovertimerElapsed → ∀ k ∈ queue, k.isRotate = false) :
    Lined (tasks ++ [(queue.length, task)]) queue where
  ahead x hx := by
    rcases List.mem_append.mp hx with hx | hx
    · exact h.ahead x hx
    · rw [List.mem_singleton.mp hx]
  order x hx hf k hk := by
    rcases List.mem_append.mp hx with hx | hx
    · exact h.order x hx hf k hk
    · rw [List.mem_singleton.mp hx] at hf
      exact hrotate hf k (List.mem_of_mem_take hk)

theorem Inv.failoverExpires {x : Nat} (h : Inv p) (hx : p.failovertimer = some x) :
    Inv ({ p with failovertimer := none }.post .failovertimerElapsed) := by
  have hnone : ¬ 0 < p.st.rotations := fun hwait => by simpa [hx] using (h.waiting hwait).2.2
  have hqueue : ∀ k ∈ p.st.queue, k.isRotate = false := by
    have : p.st.queue.countP Handler.isRotate = 0 := Nat.eq_zero_of_not_pos hnone
    simpa [List.countP_eq_zero] using this
  exact { h with
    waiting := fun hwait => absurd hwait hnone
    failing := fun _ => h.failing (.inl (by simp [hx]))
    lined := h.lined.post fun _ => hqueue }

theorem Inv.found (h : Inv p) (solution : Solution) : Inv (p.post (.submitProofAsync solution)) := { h with
  failing := fun hf => h.failing (hf.imp_right fun ⟨y, hy, hyf⟩ => by
    rcases List.mem_append.mp hy with hy | hy
    · exact ⟨y, hy, hyf⟩
    · rw [List.mem_singleton.mp hy] at hyf
      cases hyf)
  lined := h.lined.post fun hf => by cases hf }

/-! ## Runs -/

theorem Inv.acted {e : Ev} (h : Inv p) (ha : Acted E S p e q) : Inv q := by
  cases ha with
  | handler hnext hk ht =>
    have hseen := ht.seen (by simp [Stratum.Ev.rotates, hnext.queue, hk])
    rw [St.taken, hnext.queue] at hseen
    exact (h.popped hnext).hears (hears_of_seen rfl hseen)
  | skip hnext _ => exact h.popped hnext
  | exits hnext _ hm => exact h.exits hnext hm
  | attempts hnext hc hm => exact h.attempts hnext hc hm
  | fails hnext hm => exact absurd hm (h.rotateConnect_ne_none hnext)
  | failover hdue hm ht => exact h.failover hdue hm ht
  | idle _ _ => exact h.taken
  | submits _ ht => exact h.taken.hears (hears_of_seen rfl (ht.seen rfl))
  | completes he ht => exact h.hears (hears_of_seen rfl (.inl (ht.completion_hushed he).told))
  | failoverExpires hx => exact h.failoverExpires hx
  | adds => exact h.adds _
  | removes _ hidx hne => exact h.removes hidx hne
  | selects he hpending _ ht => exact h.selects he hpending ht
  | reselects _ _ _ => exact h
  | refuses _ _ _ => exact h
  | stops _ ht => exact (h.stopping _).hears (hears_of_seen rfl (ht.seen rfl))
  | hashrate ht => exact h.hears (hears_of_seen rfl (ht.seen rfl))
  | fetch _ _ => exact { h with }
  | found _ => exact h.found _
  | leave => exact { h with }

theorem inv_init {p : Pool} (h : Started p) : Inv p := by
  obtain ⟨devices, ergodicity, random, hne, -⟩ := h
  exact {
    bounded := .inl (List.length_pos_iff.mpr hne)
    once := le_rfl
    waiting := fun _ => ⟨rfl, rfl, rfl⟩
    session := nofun
    bound := nofun
    failing := fun _ _ => nofun
    lined := ⟨nofun, nofun⟩
    active := nofun }

theorem inv_of_run {C : Pool → Ev → Prop} {past : List (Pool × Ev)} (h : Run E S C past p) : Inv p :=
  h.invariant (fun _ => inv_init) fun _ _ _ hp _ hstep => hp.acted (acted_of_step hstep).2

def Ev.rotates (p : Pool) : Ev → Bool
  | .run _ => (p.tasks.find? Pool.due).isNone && p.st.queue.head?.any Handler.isRotate
  | _ => false

theorem Next.rotates {random : UInt64} (hnext : Next p .rotateConnect queue) : Ev.rotates p (.run random) = true := by
  rw [Ev.rotates, hnext.due, hnext.queue]
  rfl

theorem connections_hearing (random : UInt64) {r : Pool} {e : Stratum.Ev} (ht : Fired E r.st e t)
    (hrotates : e.rotates r.st = false) : (r.hearing S random t).connections = r.connections := by
  have hlog : (r.st.taken e).log = r.st.log := by cases e <;> rfl
  exact (hears_of_seen hlog (ht.seen hrotates)).active.2

/-- Only `rotateConnect` erases the last entry. -/
theorem Inv.rotates_of_emptied {e : Ev} (h : Inv p) (ha : Acted E S p e q) (hne : p.connections ≠ [])
    (hq : q.connections = []) : e.rotates p = true := by
  have hsame : q.connections = p.connections → e.rotates p = true := fun hsame => absurd (hsame.symm.trans hq) hne
  cases ha with
  | @handler _ k queue t hnext hk ht =>
    refine hsame (connections_hearing _ (r := p.passed false) ht ?_)
    show (p.st.queue.head?.any Handler.isRotate) = false
    simp [hnext.queue, hk]
  | exits hnext _ _ | attempts hnext _ _ => exact hnext.rotates
  | failover _ _ ht =>
    have hheard := connections_hearing (S := S) 0
      (r := { p with tasks := p.tasks.eraseP Pool.due, toManager := p.failovertimerElapsed.1 }) ht rfl
    refine hsame (hheard.trans ?_)
    show p.failovertimerElapsed.1.connections = p.connections
    unfold Manager.failovertimerElapsed
    split <;> rfl
  | submits _ ht => exact hsame (connections_hearing _ (r := { p with tasks := _ }) ht rfl)
  | completes he ht => exact hsame (hears_of_seen rfl (.inl (ht.completion_hushed he).told)).active.2
  | adds => simp at hq
  | removes _ hidx hactive =>
    have hlength : p.connections.length - 1 = 0 := by
      rw [← List.length_eraseIdx_of_lt hidx]
      exact List.length_eq_zero_iff.mpr hq
    rcases h.bounded with hlt | ⟨⟨hempty, -⟩, -⟩
    · omega
    · exact absurd hempty hne
  | selects _ _ _ ht => exact hsame (connections_hearing _ (r := { p with toManager := _ }) ht rfl)
  | hashrate ht => exact hsame (connections_hearing _ ht rfl)
  | stops _ ht =>
    have hheard := connections_hearing (S := S) 0
      (r := { p with toManager := p.toManager.stop (p.st.started && p.st.isConnected) }) ht rfl
    refine hsame (hheard.trans ?_)
    show (p.toManager.stop _).connections = p.connections
    unfold Manager.stop
    split <;> rfl
  | skip _ _ | fails _ _ | idle _ _ | failoverExpires _ | reselects _ _ _ | refuses _ _ _
  | fetch _ _ | found _ | leave =>
    exact hsame rfl

/-- Of the entries numbered from `o` on, the one that is marked is the one at the index. -/
theorem filter_marked (str : Nat → String) {l : List Nat} {i a : Nat} (h : l[i]? = some a) (o : Nat) :
    (l.mapIdx fun j b => (⟨o + j, decide (j = i), str b⟩ : ConnectionJson)).filter (·.active) =
      [⟨o + i, true, str a⟩] := by
  induction l generalizing i o with
  | nil => cases h
  | cons b l ih =>
    rw [List.mapIdx_cons]
    cases i with
    | zero =>
      cases h
      rw [List.filter_cons_of_pos (by simp), List.filter_eq_nil_iff.mpr]
      · rfl
      · intro x hx
        obtain ⟨j, hj, rfl⟩ := List.mem_mapIdx.mp hx
        simp
    | succ i =>
      rw [List.filter_cons_of_neg (by simp)]
      have hrest := ih h (o + 1)
      simp only [Nat.add_right_cancel_iff, Nat.add_assoc, Nat.add_comm 1] at hrest ⊢
      exact hrest

/-- The active entry is the one `getConnectionsJson` marks. -/
theorem getConnectionsJson_active {a : Nat} (h : m.active = some a) :
    (m.getConnectionsJson S).filter (·.active) = [⟨m.activeConnectionIdx, true, S.str a⟩] := by
  have hmarked := filter_marked S.str h 0
  simp only [Nat.zero_add] at hmarked
  exact hmarked

/-- A connected client with nothing pending is bound to the active entry. -/
theorem Inv.bound_active {a : Nat} (h : Inv p) (hc : (p.st.started && p.st.isConnected) = true)
    (ha : p.st.conn = some a) : p.active = some a := by
  refine (h.active a ha).resolve_right fun ⟨hd, _⟩ => ?_
  simp [St.isConnected, St.isPendingState, hd] at hc

theorem active_connection {past : List (Pool × Ev)} (h : Reach E S past p) :
    (p.activeConnectionIdx < p.connections.length ∨ p.connections = [] ∧ p.running = false) ∧
    (∀ e q, step E S p e = some q → p.connections ≠ [] → q.connections = [] → e.rotates p = true) ∧
    ((p.st.started && p.st.isConnected) = true → p.asyncPending = false →
      (p.st.stopping = false → p.st.conn = p.active) ∧ ∀ a, p.st.conn = some a → p.active = some a ∧
        (p.getConnectionsJson S).filter (·.active) = [⟨p.activeConnectionIdx, true, S.str a⟩]) ∧
    (∀ uri what m, (addConnection uri).exec p.toManager = (.error what, m) → m = p.toManager) ∧
    (∀ idx what m, (removeConnection idx).exec p.toManager = (.error what, m) → m = p.toManager) ∧
    (∀ idx what m, (setActiveConnection idx).exec p.toManager = (.error what, m) → m = p.toManager) ∧
    ∀ uri what m, (setActiveConnectionUri S uri).exec p.toManager = (.error what, m) → m = p.toManager := by
  have hinv := inv_of_run h
  refine ⟨?_, fun e q hstep => hinv.rotates_of_emptied (acted_of_step hstep).2, fun hc hpending => ⟨fun hs => ?_, ?_⟩,
    fun _ _ _ => addConnection_throws, fun _ _ _ => removeConnection_throws, fun _ _ _ => setActiveConnection_throws,
    fun _ _ _ => setActiveConnectionUri_throws⟩
  · exact hinv.bounded.imp_right fun ⟨⟨hempty, _⟩, hstopped, _⟩ => ⟨hempty, hstopped⟩
  · obtain ⟨a, ha⟩ := Option.ne_none_iff_exists'.mp (hinv.bound hpending hs)
    rw [ha, hinv.bound_active hc ha]
  · intro a ha
    have hactive := hinv.bound_active hc ha
    exact ⟨hactive, getConnectionsJson_active hactive⟩

/-- Behind a login, the selection of the second entry and another login. -/
theorem second_active : ∃ past p, Reach (tableEnv [accepted]) traceSettings past p ∧ p.active = some 1 ∧
    (p.getConnectionsJson traceSettings).filter (·.active) = [⟨p.activeConnectionIdx, true, "second"⟩] := by
  obtain ⟨past, p, hrun, hc, hpending, hconn⟩ := traced_of_record
    (step (tableEnv [accepted]) traceSettings) (fun _ _ => true) tracePool_started
    (sessionTrace ++ .setActiveConnection 1 :: .run 0 :: .run 0 :: .run 0 :: sessionTrace)
    (P := fun _ p => (p.st.started && p.st.isConnected) = true ∧ p.asyncPending = false ∧ p.st.conn = some 1)
    (by decide +kernel)
  have hreach := hrun.mono (D := fun _ _ => True) fun _ _ _ => trivial
  obtain ⟨-, -, hbound, -⟩ := active_connection hreach
  exact ⟨past, p, hreach, (hbound hc hpending).2 1 hconn⟩

end CoreMiner.Pools
