/-
  CoreMiner.Pools.Shares — shares and the pools that issued their jobs
  (`PoolManager.cpp`: `onSolutionFound`, `setClientHandlers`; `Farm.cpp`: `submitProof`,
  `submitProofAsync`; `CPUMiner.cpp`: `search`).

  When a connection is lost the miners' packages are voided, so no miner starts on a job of
  the old pool behind it (`Idle`). What is not voided is the copy of the package a search is
  working on, and the solution that waits for its handler: nothing on its way to the client
  asks which pool the job was from. If neither is left when `rotateConnect` hands out another
  connection, every share goes to the pool that issued its job (`share_of_connection`); a
  search that outlasts the switch submits to the wrong one (`share_of_other_pool`).
-/

import CoreMiner.Pools.Decisions

namespace CoreMiner.Pools

open DevCore EthCore Lib Prog Stratum

variable {E : Env} {S : Settings} {m n : Manager} {s t : St} {p q : Pool} {random : UInt64} {f : Farm}
  {P Q : WorkPackage → Prop} {w wp : WorkPackage} {log new : List Out} {a : Nat}

/-! ## Who issued a job -/

def boundTo : List Out → Option Nat
  | [] => none
  | .setConnection a :: _ => some a
  | _ :: log => boundTo log

def received (a : Nat) : List Out → List WorkPackage
  | [] => []
  | .onWorkReceived wp :: log => if boundTo log = some a then wp :: received a log else received a log
  | _ :: log => received a log

/-- The farm gives each miner its own start nonce, and the manager adds the epoch. -/
def SameJob (wp w : WorkPackage) : Prop := ∃ startNonce epoch, w = { wp with startNonce, epoch }

def IssuedOn (a : Nat) (log : List Out) (w : WorkPackage) : Prop := ∃ wp ∈ received a log, SameJob wp w

def Issued (log : List Out) (w : WorkPackage) : Prop := ∃ a, boundTo log = some a ∧ IssuedOn a log w

def rebinds : Out → Bool
  | .setConnection _ => true
  | _ => false

theorem boundTo_append (h : ∀ o ∈ new, rebinds o = false) : boundTo (new ++ log) = boundTo log := by
  induction new with
  | nil => rfl
  | cons o new ih =>
    have hrest := ih fun o ho => h o (List.mem_cons_of_mem _ ho)
    have ho := h o List.mem_cons_self
    cases o <;> first | exact hrest | cases ho

theorem received_append (a : Nat) (new log : List Out) : ∀ wp ∈ received a log, wp ∈ received a (new ++ log) := by
  induction new with
  | nil => exact fun _ => id
  | cons o new ih =>
    intro wp hwp
    have hrest := ih wp hwp
    cases o with
    | onWorkReceived wp' =>
      show wp ∈ if _ then _ else _
      split
      · exact List.mem_cons_of_mem _ hrest
      · exact hrest
    | _ => exact hrest

/-- What comes in while the client is bound to `a` is received on `a`. -/
theorem received_new (h : ∀ o ∈ new, rebinds o = false) (hb : boundTo log = some a) (hwp : .onWorkReceived wp ∈ new) :
    wp ∈ received a (new ++ log) := by
  induction new with
  | nil => cases hwp
  | cons o new ih =>
    have hnew : ∀ o ∈ new, rebinds o = false := fun o ho => h o (List.mem_cons_of_mem _ ho)
    rcases List.mem_cons.mp hwp with rfl | hwp
    · rw [List.cons_append, received, if_pos ((boundTo_append hnew).trans hb)]
      exact List.mem_cons_self
    · exact received_append a [o] (new ++ log) wp (ih hnew hwp)

theorem IssuedOn.append (h : IssuedOn a log w) (new : List Out) : IssuedOn a (new ++ log) w :=
  h.imp fun wp ⟨hwp, hsame⟩ => ⟨received_append a new log wp hwp, hsame⟩

theorem Issued.append (h : Issued log w) (hnew : ∀ o ∈ new, rebinds o = false) : Issued (new ++ log) w :=
  h.imp fun _ ⟨hb, hissued⟩ => ⟨(boundTo_append hnew).trans hb, hissued.append new⟩

/-! ## What the miners hold -/

/-- Every package a miner holds is void or has the property `P`. -/
def Held (P : WorkPackage → Prop) (f : Farm) : Prop := ∀ m ∈ f.miners, m.work.header = .zero 32 ∨ P m.work

def Idle (f : Farm) : Prop := ∀ m ∈ f.miners, m.paused = true ∧ m.work.header = .zero 32

def Tidy (f : Farm) : Prop := f.isMining = false → f.miners = []

theorem Held.mono (h : Held P f) (hPQ : ∀ w, P w → Q w) : Held Q f := fun m hm => (h m hm).imp_right (hPQ _)

theorem Idle.held (h : Idle f) : Held P f := fun m hm => .inl (h m hm).2

theorem stop_miners (f : Farm) : ∀ m ∈ f.stop.miners, m ∈ f.miners := by
  intro m hm
  unfold Farm.stop at hm
  split at hm
  · cases hm
  · exact hm

theorem Held.stop (h : Held P f) : Held P f.stop := fun m hm => h m (stop_miners f m hm)

theorem Idle.stop (h : Idle f) : Idle f.stop := fun m hm => h m (stop_miners f m hm)

theorem Tidy.stop (h : Tidy f) : Tidy f.stop := by
  unfold Farm.stop
  split
  · exact fun _ => rfl
  · exact h

theorem Tidy.stopped (h : Tidy f) : Idle f.stop := by
  intro m hm
  unfold Farm.stop at hm
  split at hm
  · cases hm
  · rename_i hmining
    rw [h (Bool.eq_false_of_not_eq_true hmining)] at hm
    cases hm

theorem pause_idle (f : Farm) : Idle f.pause := by
  intro m hm
  obtain ⟨m', _, rfl⟩ := List.mem_map.mp hm
  have hflags : m'.pauseFlags.insert .farmPaused ≠ [] := List.ne_nil_of_mem List.mem_insert_self
  exact ⟨by simpa [Miner.paused, Miner.pause] using hflags, rfl⟩

theorem Held.resume (h : Held P f) : Held P f.resume := by
  intro m hm
  obtain ⟨m', hm', rfl⟩ := List.mem_map.mp hm
  exact h m' hm'

theorem Held.start (h : Held P f) : Held P f.start := by
  unfold Farm.start
  split
  · exact h
  · split
    · intro m hm
      obtain ⟨i, -, rfl⟩ := List.mem_map.mp hm
      exact .inl rfl
    · exact h

theorem Held.spinUp (h : Held P f) : Held P (Manager.spinUp f) := by
  unfold Manager.spinUp
  split
  · exact h.start
  · split
    · exact h.resume
    · exact h

theorem mem_zipWith {α β γ : Type} {g : α → β → γ} {l : List α} {l' : List β} {c : γ} (h : c ∈ List.zipWith g l l') :
    ∃ a ∈ l, ∃ b ∈ l', c = g a b := by
  rw [← List.map_uncurry_zip_eq_zipWith] at h
  obtain ⟨⟨a, b⟩, hab, rfl⟩ := List.mem_map.mp h
  obtain ⟨ha, hb⟩ := List.of_mem_zip hab
  exact ⟨a, ha, b, hb, rfl⟩

theorem setWork_miner (m : Miner) (wp : WorkPackage) : (m.setWork wp).paused = m.paused ∧
    (m.paused = true ∧ (m.setWork wp).work.header = .zero 32 ∨ m.paused = false ∧ (m.setWork wp).work = wp) := by
  unfold Miner.setWork
  split
  case isTrue hpaused => exact ⟨rfl, .inl ⟨hpaused, rfl⟩⟩
  case isFalse hpaused => exact ⟨rfl, .inr ⟨Bool.eq_false_of_not_eq_true hpaused, rfl⟩⟩

/-- What `setWork` leaves a miner with: a paused one has its package voided. -/
theorem setWork_miners {g : Farm} {given : List WorkPackage} (hset : f.setWork wp random = some (g, given)) :
    g.isMining = f.isMining ∧ (f.miners = [] → g.miners = []) ∧ ∀ m ∈ g.miners, ∃ m' ∈ f.miners, m.paused = m'.paused ∧
      (m'.paused = true ∧ m.work.header = .zero 32 ∨ m'.paused = false ∧
        ∃ startNonce, m.work = { wp with startNonce }) := by
  obtain ⟨f', hf', hmining, hminers⟩ : ∃ f' : Farm, f'.distribute wp = some (g, given) ∧ f'.isMining = f.isMining ∧
      f'.miners = f.miners := by
    unfold Farm.setWork at hset
    split at hset
    · exact ⟨_, hset, rfl, rfl⟩
    · exact ⟨_, hset, rfl, rfl⟩
  unfold Farm.distribute at hf'
  split at hf'
  · cases hf'
  · rename_i start width _
    split at hf'
    · cases hf'
    · cases hf'
      refine ⟨hmining, fun hempty => by simp [Farm.assign, hminers, hempty], fun m hm => ?_⟩
      obtain ⟨m', hm', wp', hwp', rfl⟩ := mem_zipWith hm
      obtain ⟨i, -, rfl⟩ := List.mem_map.mp hwp'
      refine ⟨m', hminers ▸ hm', ?_⟩
      split
      · exact (setWork_miner m' _).imp_right fun h => h.imp_right fun h => ⟨h.1, _, h.2⟩
      · exact (setWork_miner { m' with epoch := wp.epoch } _).imp_right fun h => h.imp_right fun h => ⟨h.1, _, h.2⟩

theorem Tidy.spinUp (h : Tidy f) : Tidy (Manager.spinUp f) := by
  unfold Manager.spinUp
  split
  · unfold Farm.start
    split
    · exact h
    · split <;> exact nofun
  · split
    · exact fun hmining => by simp [Farm.resume, h hmining]
    · exact h

/-! ## Hearing -/

/-- A package that is received reaches the miners with its epoch and their start nonces. -/
theorem onWorkReceived_farm (S : Settings) (mode : Nat) (random : UInt64) (wp : WorkPackage) (m : Manager) :
    (m.onWorkReceived S mode random wp).farm = m.farm ∨ ∃ epoch given,
      m.farm.setWork { wp with epoch } random = some ((m.onWorkReceived S mode random wp).farm, given) := by
  unfold Manager.onWorkReceived
  split
  · exact .inl rfl
  · split
    · exact .inl rfl
    · obtain ⟨epoch, hepoch⟩ := m.withEpoch_eq S mode wp
      cases hset : m.farm.setWork (m.withEpoch S mode wp) random with
      | none => exact .inl rfl
      | some x => exact .inr ⟨epoch, x.2, by simp [← hepoch, hset]⟩

/-- What an entry of the log makes of the miners' packages. -/
theorem react_held {o : Out} (ho : ∀ wp w, o = .onWorkReceived wp → SameJob wp w → P w) (h : Held P m.farm) :
    Held P (react S t random o m).farm := by
  cases o with
  | onConnected =>
    refine Held.spinUp ?_
    split
    · exact h
    · exact h
  | onDisconnected =>
    show Held P (m.onDisconnected t.stopping).farm
    unfold Manager.onDisconnected
    split
    · exact h.stop
    · exact (pause_idle _).held
  | onWorkReceived wp =>
    rcases onWorkReceived_farm S _ random wp m with hsame | ⟨epoch, given, hset⟩
    · exact hsame ▸ h
    · intro x hx
      obtain ⟨-, -, hminers⟩ := setWork_miners hset
      obtain ⟨_, -, -, ⟨-, hvoid⟩ | ⟨-, startNonce, hwork⟩⟩ := hminers x hx
      · exact .inl hvoid
      · exact .inr (ho wp _ rfl ⟨startNonce, epoch, hwork⟩)
  | _ => exact h

theorem react_tidy {o : Out} (h : Tidy m.farm) : Tidy (react S t random o m).farm := by
  cases o with
  | onConnected =>
    refine Tidy.spinUp ?_
    split
    · exact h
    · exact h
  | onDisconnected =>
    show Tidy (m.onDisconnected t.stopping).farm
    unfold Manager.onDisconnected
    split
    · exact h.stop
    · exact fun hmining => by simp [Farm.pause, h hmining]
  | onWorkReceived wp =>
    rcases onWorkReceived_farm S _ random wp m with hsame | ⟨epoch, given, hset⟩
    · exact hsame ▸ h
    · obtain ⟨hmining, hempty, -⟩ := setWork_miners hset
      exact fun hstopped => hempty (h (hmining.symm.trans hstopped))
  | _ => exact h

/-- A farm that is idle stays so until a session starts. -/
theorem react_idle {o : Out} (ho : o ≠ .onConnected) (h : Idle m.farm) : Idle (react S t random o m).farm := by
  cases o with
  | onConnected => exact absurd rfl ho
  | onDisconnected =>
    show Idle (m.onDisconnected t.stopping).farm
    unfold Manager.onDisconnected
    split
    · exact h.stop
    · exact pause_idle _
  | onWorkReceived wp =>
    rcases onWorkReceived_farm S _ random wp m with hsame | ⟨epoch, given, hset⟩
    · exact hsame ▸ h
    · intro x hx
      obtain ⟨-, -, hminers⟩ := setWork_miners hset
      obtain ⟨m', hm', hpaused, ⟨-, hvoid⟩ | ⟨hresumed, -⟩⟩ := hminers x hx
      · exact ⟨hpaused.trans (h m' hm').1, hvoid⟩
      · exact absurd (hresumed.symm.trans (h m' hm').1) nofun
  | _ => exact h

def Task.work? : Task → Option WorkPackage
  | submitProofAsync solution => some solution.work
  | failovertimerElapsed => none

def Pool.pursued (p : Pool) : List WorkPackage := p.searching.map (·.2) ++ p.tasks.filterMap fun x => x.2.work?

structure Provenance (p : Pool) : Prop where
  bound : ∀ a, p.st.conn = some a → boundTo p.st.log = some a
  tidy : Tidy p.farm
  idle : p.st.conn = none → Idle p.farm
  held : Held (Issued p.st.log) p.farm
  pursued : ∀ w ∈ p.pursued, Issued p.st.log w

theorem hear_held (ho : ∀ wp w, .onWorkReceived wp ∈ new → SameJob wp w → P w) (h : Held P m.farm) :
    Held P (new.foldr (react S t random) m).farm := by
  induction new with
  | nil => exact h
  | cons o new ih =>
    refine react_held (fun wp w hwp => ho wp w (hwp ▸ List.mem_cons_self)) (ih fun wp w hwp => ?_)
    exact ho wp w (List.mem_cons_of_mem _ hwp)

theorem hear_tidy (h : Tidy m.farm) : Tidy (new.foldr (react S t random) m).farm := by
  induction new with
  | nil => exact h
  | cons o new ih => exact react_tidy ih

theorem hear_idle (ho : .onConnected ∉ new) (h : Idle m.farm) : Idle (new.foldr (react S t random) m).farm := by
  induction new with
  | nil => exact h
  | cons o new ih =>
    have hne : o ≠ .onConnected := fun h => ho (h ▸ List.mem_cons_self)
    exact react_idle hne (ih fun h => ho (List.mem_cons_of_mem _ h))

theorem rebinds_of_isHeard {o : Out} (h : o.isHeard = false) : rebinds o = false := by
  cases o <;> first | rfl | cases h

/-- The client stays with its connection: what it receives was issued on that. -/
theorem Provenance.told (h : Provenance p) (hs : Told s t) (hlog : s.log = p.st.log) (hconn : s.conn = p.st.conn) :
    Provenance (p.hearing S random t) := by
  obtain ⟨new, hnew, hheard⟩ := hs.log
  rw [hlog] at hnew
  have hrebinds : ∀ o ∈ new, rebinds o = false := fun o ho => by
    cases o with
    | setConnection _ => cases (hheard _ ho rfl).1
    | _ => rfl
  have hfarm : (p.hearing S random t).farm = (new.foldr (react S t random) p.toManager).farm := by
    rw [Pool.hearing, news_eq new hnew]
  have hidle : t.conn = none → Idle (p.hearing S random t).farm := by
    intro hnone
    rw [hfarm]
    refine hear_idle (fun hon => ?_) (h.idle (hconn.symm.trans (hs.conn.symm.trans hnone)))
    obtain ⟨-, a, ha, -⟩ := hheard _ hon rfl
    cases hnone.symm.trans ha
  exact {
    bound := fun a ha => by
      have hbefore := h.bound a (hconn.symm.trans (hs.conn.symm.trans ha))
      show boundTo t.log = some a
      rw [hnew, boundTo_append hrebinds, hbefore]
    tidy := hear_tidy h.tidy
    idle := hidle
    held := by
      cases hc : t.conn with
      | none => exact (hidle hc).held
      | some a =>
        have hbound := h.bound a (hconn.symm.trans (hs.conn.symm.trans hc))
        show Held (Issued t.log) _
        rw [hfarm, hnew]
        refine hear_held (fun wp w hwp hsame => ?_) (h.held.mono fun w hw => hw.append hrebinds)
        exact ⟨a, (boundTo_append hrebinds).trans hbound, wp, received_new hrebinds hbound hwp, hsame⟩
    pursued := fun w hw => by
      show Issued t.log w
      rw [hnew]
      exact (h.pursued w hw).append hrebinds }

/-- The connection is lost, and the miners' packages are voided. -/
theorem Provenance.leaves (h : Provenance p) (hs : Leaves s t) (hlog : s.log = p.st.log) :
    Provenance (p.hearing S random t) := by
  obtain ⟨new, later, hnew, hbefore, hafter⟩ := hs.log
  rw [hlog] at hnew
  have hrebinds : ∀ o ∈ later ++ .onDisconnected :: new, rebinds o = false := fun o ho => by
    rcases List.mem_append.mp ho with ho | ho
    · exact rebinds_of_isHeard (hafter o ho)
    · rcases List.mem_cons.mp ho with rfl | ho
      · rfl
      · exact rebinds_of_isHeard (hbefore o ho)
  have hidle : Idle (p.hearing S random t).farm := by
    rw [Pool.hearing, news_eq _ hnew]
    simp only [List.foldr_append, List.foldr_cons]
    refine hear_idle (fun hon => by cases hafter _ hon) ?_
    show Idle (Manager.onDisconnected _ _).farm
    unfold Manager.onDisconnected
    split
    · exact (hear_tidy h.tidy).stopped
    · exact pause_idle _
  exact {
    bound := fun a ha => by cases hs.conn.symm.trans ha
    tidy := hear_tidy h.tidy
    idle := fun _ => hidle
    held := hidle.held
    pursued := fun w hw => by
      show Issued t.log w
      rw [hnew]
      exact (h.pursued w hw).append hrebinds }

theorem Provenance.hears (h : Provenance p) (hs : Seen s t) (hlog : s.log = p.st.log) (hconn : s.conn = p.st.conn) :
    Provenance (p.hearing S random t) := by
  rcases hs with hs | hs
  · exact h.told hs hlog hconn
  · exact h.leaves hs hlog

/-! ## Runs -/

/-- When a connection is handed out, no work of another one is searched or on its way. -/
def Settled (S : Settings) (p : Pool) (e : Ev) : Prop :=
  ∀ b delayed, e.hands S p = some (b, delayed) → ∀ w ∈ p.pursued, IssuedOn b p.st.log w

theorem pursued_passed (p : Pool) (renews : Bool) : (p.passed renews).pursued = p.pursued := by
  simp only [Pool.pursued, Pool.passed, List.filterMap_map]
  rfl

theorem pursued_eraseP (p : Pool) : ∀ w ∈ { p with tasks := p.tasks.eraseP Pool.due }.pursued, w ∈ p.pursued := by
  intro w hw
  rcases List.mem_append.mp hw with hw | hw
  · exact List.mem_append_left _ hw
  · exact List.mem_append_right _ ((List.eraseP_sublist.filterMap _).subset hw)

/-- The manager's own moves change the farm only to stop it. -/
theorem Provenance.moved (h : Provenance p) (hm : m.farm = p.farm ∨ m.farm = p.farm.stop) :
    Provenance { p with toManager := m } := by
  refine { h with tidy := ?_, idle := fun hnone => ?_, held := ?_ }
  · show Tidy m.farm
    rcases hm with hm | hm <;> rw [hm]
    · exact h.tidy
    · exact h.tidy.stop
  · show Idle m.farm
    rcases hm with hm | hm <;> rw [hm]
    · exact h.idle hnone
    · exact (h.idle hnone).stop
  · show Held _ m.farm
    rcases hm with hm | hm <;> rw [hm]
    · exact h.held
    · exact h.held.stop

theorem Selected.farm {uris : Nat → Uri} (h : Selected S uris m a n) : n.farm = m.farm := by
  cases h <;> rfl

theorem failovertimerElapsed_farm (m : Manager) : m.failovertimerElapsed.1.farm = m.farm := by
  unfold Manager.failovertimerElapsed
  split <;> rfl

theorem stop_farm (m : Manager) (connected : Bool) :
    (m.stop connected).farm = m.farm ∨ (m.stop connected).farm = m.farm.stop := by
  unfold Manager.stop
  split
  · exact .inl rfl
  · exact .inr rfl

/-- A miner's thread takes a package that is not void, so it was issued on the connection. -/
theorem Provenance.fetch {miner : Nat} {x : Miner} (h : Provenance p) (hx : p.farm.miners[miner]? = some x)
    (hwork : x.work.header ≠ .zero 32) :
    Provenance { p with searching := (miner, x.work) :: p.searching.filter (·.1 ≠ miner) } := by
  refine { h with pursued := fun w hw => ?_ }
  rcases List.mem_append.mp hw with hw | hw
  · obtain ⟨y, hy, rfl⟩ := List.mem_map.mp hw
    rcases List.mem_cons.mp hy with rfl | hy
    · exact (h.held x (List.mem_of_getElem? hx)).resolve_left hwork
    · exact h.pursued _ (List.mem_append_left _ (List.mem_map_of_mem (List.mem_of_mem_filter hy)))
  · exact h.pursued w (List.mem_append_right _ hw)

theorem Provenance.leave {miner : Nat} (h : Provenance p) :
    Provenance { p with searching := p.searching.filter (·.1 ≠ miner) } := by
  refine { h with pursued := fun w hw => ?_ }
  rcases List.mem_append.mp hw with hw | hw
  · obtain ⟨y, hy, rfl⟩ := List.mem_map.mp hw
    exact h.pursued _ (List.mem_append_left _ (List.mem_map_of_mem (List.mem_of_mem_filter hy)))
  · exact h.pursued w (List.mem_append_right _ hw)

theorem Provenance.post {task : Task} (h : Provenance p) (ht : ∀ w, task.work? = some w → Issued p.st.log w) :
    Provenance (p.post task) := by
  refine { h with pursued := fun w hw => ?_ }
  rcases List.mem_append.mp hw with hw | hw
  · exact h.pursued w (List.mem_append_left _ hw)
  · obtain ⟨y, hy, hyw⟩ := List.mem_filterMap.mp hw
    rcases List.mem_append.mp hy with hy | hy
    · exact h.pursued w (List.mem_append_right _ (List.mem_filterMap.mpr ⟨y, hy, hyw⟩))
    · rw [List.mem_singleton.mp hy] at hyw
      exact ht w hyw

theorem Provenance.attempts {queue : List Handler} {b : Nat} {delayed : Bool} (h : Provenance p) (hinv : Inv p)
    (hnext : Next p .rotateConnect queue) (hc : (p.st.started && p.st.isConnected) = false)
    (hm : p.rotateConnect S p.st.uris = some (m, some (b, delayed)))
    (hs : ∀ w ∈ p.pursued, IssuedOn b p.st.log w) :
    Provenance { p.passed true with
      toManager := m, st := call (Stratum.rotateConnect (some (b, delayed))) { p.st with queue } } := by
  have ht : Rebound b { p.st with queue } (call (Stratum.rotateConnect (some (b, delayed))) { p.st with queue }) :=
    rebound_of_rotate hc
  generalize call (Stratum.rotateConnect (some (b, delayed))) { p.st with queue } = t at ht
  obtain ⟨a, n, -, hn, hrotated⟩ := rotated_of_rotateConnect (hinv.rotates hnext).2 hm
  have hfarm : m.farm = p.farm := by
    cases hrotated
    exact hn.farm
  have hidle : Idle m.farm := by
    rw [hfarm]
    exact h.idle (hinv.waiting hnext.rotations).1
  exact {
    bound := fun a ha => by
      show boundTo t.log = some a
      rw [ht.log]
      exact ht.conn.symm.trans ha
    tidy := by
      show Tidy m.farm
      rw [hfarm]
      exact h.tidy
    idle := fun _ => hidle
    held := hidle.held
    pursued := fun w hw => by
      have hw : w ∈ (p.passed true).pursued := hw
      rw [pursued_passed] at hw
      obtain ⟨wp, hwp, hsame⟩ := hs w hw
      show Issued t.log w
      rw [ht.log]
      exact ⟨b, rfl, wp, hwp, hsame⟩ }

theorem Provenance.acted {e : Ev} (h : Provenance p) (hinv : Inv p) (hs : Settled S p e) (ha : Acted E S p e q) :
    Provenance q := by
  have hpassed : ∀ renews, Provenance (p.passed renews) := fun renews =>
    { h with pursued := by rw [pursued_passed]; exact h.pursued }
  have htaken : Provenance { p with tasks := p.tasks.eraseP Pool.due } :=
    { h with pursued := fun w hw => h.pursued w (pursued_eraseP p w hw) }
  cases ha with
  | handler hnext hk ht =>
    have hseen := ht.seen (by simp [Stratum.Ev.rotates, hnext.queue, hk])
    exact (hpassed false).hears hseen rfl rfl
  | skip _ _ => exact { hpassed false with }
  | @exits _ queue m hnext _ hm =>
    obtain ⟨a, n, -, hn, hrotated⟩ := rotated_of_rotateConnect (hinv.rotates hnext).2 hm
    cases hrotated
    exact { (hpassed false).moved (m := n.exit) (.inr (congrArg Farm.stop hn.farm)) with }
  | @attempts random _ _ b delayed hnext hc hm =>
    have hhands : Ev.hands S p (.run random) = some (b, delayed) := by
      rw [Ev.hands, hnext.rotates, hc, hm]
      rfl
    exact h.attempts hinv hnext hc hm (hs b delayed hhands)
  | fails hnext hm => exact absurd hm (hinv.rotateConnect_ne_none hnext)
  | failover _ _ ht =>
    exact (htaken.moved (.inl (failovertimerElapsed_farm _))).hears (ht.seen rfl) rfl rfl
  | idle _ _ => exact htaken
  | submits _ ht => exact htaken.hears (ht.seen rfl) rfl rfl
  | completes he ht => exact h.hears (.inl (ht.completion_hushed he).told) rfl rfl
  | failoverExpires _ =>
    exact Provenance.post (p := { p with failovertimer := none }) { h with } fun w hw => by cases hw
  | adds => exact { h with }
  | removes _ _ _ => exact { h with }
  | @selects _ idx _ _ _ _ ht => exact (h.moved (m := p.switchedTo idx) (.inl rfl)).hears (ht.seen rfl) rfl rfl
  | reselects _ _ _ => exact h
  | refuses _ _ _ => exact h
  | stops _ ht => exact (h.moved (stop_farm _ _)).hears (ht.seen rfl) rfl rfl
  | hashrate ht => exact h.hears (ht.seen rfl) rfl rfl
  | fetch hm hwork => exact h.fetch hm hwork
  | @found miner _ _ work hwork =>
    refine h.post fun w hw => ?_
    cases hw
    obtain ⟨l₁, l₂, hsearching, -⟩ := List.lookup_eq_some_iff.mp hwork
    refine h.pursued _ (List.mem_append_left _ (List.mem_map.mpr ⟨(miner, work), ?_, rfl⟩))
    simp [hsearching]
  | leave => exact h.leave

theorem provenance_of_run {past : List (Pool × Ev)} (h : Run E S (Settled S) past p) : Inv p ∧ Provenance p := by
  induction h with
  | start hs =>
    refine ⟨inv_init hs, ?_⟩
    obtain ⟨devices, ergodicity, random, -, -⟩ := hs
    exact ⟨nofun, fun _ => rfl, fun _ => nofun, nofun, nofun⟩
  | step e _ hC hstep ih =>
    have ha := (acted_of_step hstep).2
    exact ⟨ih.1.acted ha, ih.2.acted ih.1 hC ha⟩

def Ev.submits (S : Settings) (p : Pool) : Ev → Option Solution
  | .run _ =>
    match p.tasks.find? Pool.due with
    | some (_, .submitProofAsync solution) =>
      if p.st.started && p.st.isConnected then
        if S.noEval then some solution
        else (S.eval solution.work solution.nonce).map fun mixHash => { solution with mixHash }
      else none
    | _ => none
  | _ => none

theorem submits_cases {e : Ev} {solution : Solution} (h : e.submits S p = some solution) :
    ∃ random n found, e = .run random ∧ p.tasks.find? Pool.due = some (n, .submitProofAsync found) ∧
      (p.st.started && p.st.isConnected) = true ∧ (S.noEval = true ∧ solution = found ∨
        S.noEval = false ∧ ∃ mixHash, S.eval found.work found.nonce = some mixHash ∧
          solution = { found with mixHash }) := by
  cases e with
  | run random =>
    simp only [Ev.submits] at h
    split at h
    case h_1 n found hdue =>
      obtain ⟨hc, h⟩ := Option.ite_none_right_eq_some.mp h
      refine ⟨random, n, found, rfl, hdue, hc, ?_⟩
      split at h
      case isTrue hnoEval =>
        cases h
        exact .inl ⟨hnoEval, rfl⟩
      case isFalse hnoEval =>
        obtain ⟨mixHash, heval, rfl⟩ := Option.map_eq_some_iff.mp h
        exact .inr ⟨Bool.eq_false_of_not_eq_true hnoEval, mixHash, heval, rfl⟩
    case h_2 => cases h
  | _ => cases h

/-- The event is that call. -/
theorem act_submits {e : Ev} {solution : Solution} (h : e.submits S p = some solution) :
    act E S p e = { p with tasks := p.tasks.eraseP Pool.due }.client E S 0 (.submitSolution solution) := by
  obtain ⟨random, n, found, rfl, hdue, hc, ⟨hnoEval, rfl⟩ | ⟨hnoEval, mixHash, heval, rfl⟩⟩ := submits_cases h
  · simp [act, Pool.runNext, hdue, Pool.runTask, Pool.submitProofAsync, hnoEval, Pool.onSolutionFound, hc]
  · simp [act, Pool.runNext, hdue, Pool.runTask, Pool.submitProofAsync, hnoEval, heval, Pool.onSolutionFound, hc]

theorem submits_work {e : Ev} {solution : Solution} (h : e.submits S p = some solution) :
    solution.work ∈ p.pursued := by
  obtain ⟨random, n, found, rfl, hdue, hc, hsolution⟩ := submits_cases h
  have hwork : solution.work = found.work := by
    rcases hsolution with ⟨-, rfl⟩ | ⟨-, mixHash, -, rfl⟩ <;> rfl
  refine List.mem_append_right _ (List.mem_filterMap.mpr ⟨_, List.mem_of_find?_eq_some hdue, ?_⟩)
  rw [hwork]
  rfl

/-- Every solution passed to the client is for a job of the connection the client is bound to. -/
theorem share_of_connection {past : List (Pool × Ev)} {e : Ev} {solution : Solution} (h : Run E S (Settled S) past p)
    (he : e.submits S p = some solution) (hc : p.st.conn = some a) : IssuedOn a p.st.log solution.work := by
  obtain ⟨-, hp⟩ := provenance_of_run h
  obtain ⟨b, hb, hissued⟩ := hp.pursued _ (submits_work he)
  cases (hp.bound a hc).symm.trans hb
  exact hissued

def proxyJob : String × Json :=
  ("j", .obj [("id", .int 0),
    ("result", .arr [.str ("0x" ++ String.ofList (List.replicate 64 '1')), .str "0x2", .str "0x3"])])

def searchTrace : List Ev := sessionTrace ++ [.completes (.received (lineOf proxyJob)), .run 0, .fetch 0]

/-- The search goes on while the second pool is selected and accepts the login; then it finds a
    nonce, which is submitted to the second pool, where nothing was received. -/
theorem share_of_other_pool : ∃ past p, Reach (tableEnv [accepted, proxyJob]) traceSettings past p ∧
    ∃ solution, Ev.submits traceSettings p (.run 0) = some solution ∧ p.st.conn = some 1 ∧
      ¬ IssuedOn 1 p.st.log solution.work := by
  obtain ⟨past, p, hrun, hsubmits, hconn, hnone⟩ := traced_of_record
    (step (tableEnv [accepted, proxyJob]) traceSettings) (fun _ _ => true) tracePool_started
    (searchTrace ++ [.setActiveConnection 1, .run 0, .run 0, .run 0] ++ sessionTrace ++ [.found 0 7 (.zero 32)])
    (P := fun _ p => (Ev.submits traceSettings p (.run 0)).isSome = true ∧ p.st.conn = some 1 ∧
      received 1 p.st.log = []) (by decide +kernel)
  obtain ⟨solution, hsolution⟩ := Option.isSome_iff_exists.mp hsubmits
  refine ⟨past, p, hrun.mono fun _ _ _ => trivial, solution, hsolution, hconn, ?_⟩
  rintro ⟨wp, hwp, -⟩
  rw [hnone] at hwp
  cases hwp

/-- A nonce that is found while the pool of its job is connected. -/
theorem share_of_first_pool :
    ∃ past p, Run (tableEnv [accepted, proxyJob]) traceSettings (Settled traceSettings) past p ∧
    ∃ solution, Ev.submits traceSettings p (.run 0) = some solution ∧ IssuedOn 0 p.st.log solution.work := by
  have hsettled : ∀ p e, (decide (Ev.hands traceSettings p e = none) || decide (p.pursued = [])) = true →
      Settled traceSettings p e := by
    intro p e h b delayed hhands w hw
    rcases (Bool.or_eq_true _ _).mp h with h | h
    · exact absurd (of_decide_eq_true h ▸ hhands) nofun
    · exact absurd (of_decide_eq_true h ▸ hw) nofun
  obtain ⟨past, p, hrun, hsubmits, hconn⟩ := traced_of_record
    (step (tableEnv [accepted, proxyJob]) traceSettings)
    (fun p e => decide (Ev.hands traceSettings p e = none) || decide (p.pursued = [])) tracePool_started
    (searchTrace ++ [.found 0 7 (.zero 32)])
    (P := fun _ p => (Ev.submits traceSettings p (.run 0)).isSome = true ∧ p.st.conn = some 0) (by decide +kernel)
  obtain ⟨solution, hsolution⟩ := Option.isSome_iff_exists.mp hsubmits
  have hsettledRun := hrun.mono hsettled
  exact ⟨past, p, hsettledRun, solution, hsolution, share_of_connection hsettledRun hsolution hconn⟩

end CoreMiner.Pools
