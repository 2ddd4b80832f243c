/-
  CoreMiner.Pools.Rotation — the order in which pools are attempted
  (`PoolManager.cpp`: `rotateConnect`, `setClientHandlers`).

  While no pool is ever reached, `rotateConnect` gives each connection its number of retries
  in a row and goes round the list (`rotation_in_turn`); a single connection is attempted
  that often, and then the list is emptied and the manager stops.

  The mark of an unrecoverable connection is looked at on the entry `rotateConnect` finds
  active only. When it goes on to the next one, that one's mark is not looked at, so a
  second unrecoverable connection is attempted (`unrecoverable_attempted`); exactly then
  does it happen (`recoverable_attempted_iff`).
-/

import CoreMiner.Lib.RoundRobin
import CoreMiner.Pools.Decisions

namespace CoreMiner.Pools

open DevCore EthCore Lib Prog Stratum

variable {E : Env} {S : Settings} {m n : Manager} {s t : St} {p q : Pool} {queue : List Handler}

/-! ## Unrecoverable connections -/

def Pool.leaving (S : Settings) (p : Pool) : Bool :=
  (p.active.any fun a => (p.st.uris a).unrecoverable) || decide (S.connectionMaxRetries ≤ p.connectionAttempt)

/-- `rotateConnect` keeps a recoverable entry, or goes on to the next one. -/
theorem Selected.active {uris : Nat → Uri} {a : Nat} (h : m.activeConnectionIdx < m.connections.length)
    (hs : Selected S uris m a n) :
    n = m ∧ (uris a).unrecoverable = false ∧ m.connectionAttempt < S.connectionMaxRetries ∨
      ((uris a).unrecoverable = true ∨ S.connectionMaxRetries ≤ m.connectionAttempt) ∧ n.active = m.next? := by
  cases hs with
  | keep hmark ht => exact .inl ⟨rfl, hmark, ht⟩
  | discard hmark => exact .inr ⟨.inl hmark, discard_active h⟩
  | giveUp _ ht h1 =>
    refine .inr ⟨.inr ht, ?_⟩
    rw [Manager.next?, if_pos h1, Manager.active, List.getElem?_eq_none_iff]
    have := List.length_eraseIdx_of_lt h
    simp only [Manager.giveUp]
    omega
  | advance _ ht h1 => exact .inr ⟨.inr ht, advance_active h h1⟩

inductive Handed (S : Settings) (p q : Pool) : Prop
  | skipped (hc : (p.st.started && p.st.isConnected) = true) (hnews : p.news q.st = [])
  | exited {a : Nat} {n : Manager} (hc : (p.st.started && p.st.isConnected) = false) (ha : p.active = some a)
    (hn : Selected S p.st.uris p.toManager a n)
    (h : n.connections = [] ∨ ∃ b, n.active = some b ∧ (p.st.uris b).host = "exit") (hnews : p.news q.st = [])
    (hq : q.toManager = n.exit)
  | handed {a b : Nat} {n : Manager} (hc : (p.st.started && p.st.isConnected) = false) (ha : p.active = some a)
    (hn : Selected S p.st.uris p.toManager a n) (hb : n.active = some b) (hhost : (p.st.uris b).host ≠ "exit")
    (hnews : p.news q.st = [.setConnection b]) (hq : q.toManager = n.attempt)

theorem next_of_rotates {e : Ev} (hr : e.rotates p = true) :
    ∃ random queue, e = .run random ∧ Next p .rotateConnect queue := by
  cases e with
  | run random =>
    rw [Ev.rotates, Bool.and_eq_true, Option.isNone_iff_eq_none] at hr
    obtain ⟨k, hk, hrotate⟩ := (Option.any_eq_true _ _).mp hr.2
    obtain ⟨queue, hq⟩ := List.head?_eq_some_iff.mp hk
    refine ⟨random, queue, rfl, hr.1, ?_⟩
    cases k <;> first | exact hq | cases hrotate
  | _ => cases hr

theorem Inv.handed {e : Ev} (h : Inv p) (ha : Acted E S p e q) (hr : e.rotates p = true) : Handed S p q := by
  obtain ⟨random, queue, rfl, hnext⟩ := next_of_rotates hr
  have hsame : ∀ {t : St}, t.log = p.st.log → p.news t = [] := fun ht => news_eq [] (by rw [ht]; rfl)
  cases ha with
  | handler hnext' hk _ =>
    cases hnext.queue.symm.trans hnext'.queue
    cases hk
  | skip hnext' hc =>
    cases hnext.queue.symm.trans hnext'.queue
    exact .skipped (hc rfl) (hsame rfl)
  | exits _ hc hm =>
    obtain ⟨a, n, ha, hn, hrotated⟩ := rotated_of_rotateConnect (h.rotates hnext).2 hm
    cases hrotated with
    | exit hexit => exact .exited hc ha hn hexit (hsame rfl) rfl
  | @attempts _ queue' m b delayed _ hc hm =>
    obtain ⟨a, n, ha, hn, hrotated⟩ := rotated_of_rotateConnect (h.rotates hnext).2 hm
    have ht : Rebound b { p.st with queue := queue' }
        (call (Stratum.rotateConnect (some (b, delayed))) { p.st with queue := queue' }) := rebound_of_rotate hc
    cases hrotated with
    | attempt hb hhost => exact .handed hc ha hn hb hhost (news_eq [_] (by rw [ht.log]; rfl)) rfl
  | fails _ hm => exact absurd hm (h.rotateConnect_ne_none hnext)
  | failover hdue _ _ | idle hdue _ | submits hdue _ => exact absurd (hnext.due.symm.trans hdue) nofun
  | selects he _ _ _ | reselects he _ _ => cases he
  | refuses he _ _ => cases he

theorem leaving_iff {a : Nat} (ha : p.active = some a) :
    p.leaving S = true ↔ (p.st.uris a).unrecoverable = true ∨ S.connectionMaxRetries ≤ p.connectionAttempt := by
  rw [Pool.leaving, ha, Bool.or_eq_true, decide_eq_true_iff]
  rfl

/-- A recoverable URI is handed out exactly if, where the active entry is left, the next one is
    recoverable (or ends the program). -/
theorem recoverable_attempted_iff {past : List (Pool × Ev)} {e : Ev} (h : Reach E S past p)
    (hstep : step E S p e = some q) (hr : e.rotates p = true) :
    (∀ b, .setConnection b ∈ p.news q.st → (p.st.uris b).unrecoverable = false) ↔
      ((p.st.started && p.st.isConnected) = false → p.leaving S = true → ∀ b, p.next? = some b →
        (p.st.uris b).host = "exit" ∨ (p.st.uris b).unrecoverable = false) := by
  have hinv := inv_of_run h
  obtain ⟨_, _, rfl, hnext⟩ := next_of_rotates hr
  have hlt := (hinv.rotates hnext).2
  cases hinv.handed (acted_of_step hstep).2 hr with
  | skipped hc hnews => simp [hnews, hc]
  | @exited a n hc ha hn hexit hnews _ =>
    refine ⟨fun _ _ hleaving b hb => ?_, fun _ b hb => by simp [hnews] at hb⟩
    rw [leaving_iff ha] at hleaving
    rcases hn.active hlt with ⟨-, hmark, ht⟩ | ⟨-, hactive⟩
    · exact absurd hleaving (by simp [hmark, ht])
    · rcases hexit with hempty | ⟨b', hb', hhost⟩
      · rw [← hactive, Manager.active, hempty] at hb
        cases hb
      · cases (hactive.symm.trans hb').symm.trans hb
        exact .inl hhost
  | @handed a b n hc ha hn hb hhost hnews _ =>
    have hhanded : (∀ b, .setConnection b ∈ p.news q.st → (p.st.uris b).unrecoverable = false) ↔
        (p.st.uris b).unrecoverable = false := by simp [hnews]
    rw [hhanded, leaving_iff ha]
    rcases hn.active hlt with ⟨rfl, hmark, ht⟩ | ⟨hleaving, hactive⟩
    · cases hb.symm.trans ha
      exact ⟨fun _ _ hleaving => absurd hleaving (by simp [hmark, ht]), fun _ => hmark⟩
    · refine ⟨fun hrec _ _ b' hb' => ?_, fun hnext => ?_⟩
      · cases (hactive.symm.trans hb).symm.trans hb'
        exact .inr hrec
      · exact (hnext hc hleaving b (hactive.symm.trans hb)).resolve_left hhost

def unauthorized : String × Json := ("n", .obj [("id", .int 3), ("result", .bool false)])

def securePool : Pool :=
  init [0, 1] (fun _ => { plainUri STRATUM with secLevel := .tls }) (.init [.cpu] 0 0)

theorem securePool_started : Started securePool :=
  .mk _ _ _ (by simp) fun _ => ⟨rfl, rfl, rfl, rfl, .inl (by decide)⟩

def onceSettings : Settings := { traceSettings with connectionMaxRetries := 1 }

def failedTrace : List Ev :=
  [.run 0, .run 0, .run 0, .completes (.connectCompletes true false), .run 0, .run 0, .run 0]

/-- The second pool refuses the authorisation, which marks it; the first one is selected before
    the client has disconnected, and fails: the second one is attempted. -/
theorem unrecoverable_attempted : ∃ past p, Reach (tableEnv [accepted, unauthorized]) onceSettings past p ∧
    ∃ q, step (tableEnv [accepted, unauthorized]) onceSettings p (.run 0) = some q ∧ Ev.rotates p (.run 0) = true ∧
      ∃ b, .setConnection b ∈ p.news q.st ∧ (p.st.uris b).unrecoverable = true := by
  obtain ⟨past, p, hrun, hr, hstep⟩ := traced_of_record
    (step (tableEnv [accepted, unauthorized]) onceSettings) (fun _ _ => true) securePool_started
    (failedTrace ++ sessionTrace ++ [.completes (.received (lineOf unauthorized)), .run 0, .setActiveConnection 0,
      .completes .shutdownCompletes, .run 0, .run 0, .run 0, .run 0, .run 0, .run 0] ++ failedTrace)
    (P := fun _ p => Ev.rotates p (.run 0) = true ∧
      (step (tableEnv [accepted, unauthorized]) onceSettings p (.run 0)).any (fun q =>
        .setConnection 1 ∈ p.news q.st ∧ (p.st.uris 1).unrecoverable = true) = true) (by decide +kernel)
  obtain ⟨q, hq, hhanded⟩ := (Option.any_eq_true _ _).mp hstep
  exact ⟨past, p, hrun.mono fun _ _ _ => trivial, q, hq, hr, 1, by simpa using hhanded⟩

/-- The first pool fails, and the second one is attempted. -/
theorem second_recoverable : ∃ past p, Reach (tableEnv []) onceSettings past p ∧ p.leaving onceSettings = true ∧
    ∃ q, step (tableEnv []) onceSettings p (.run 0) = some q ∧ .setConnection 1 ∈ p.news q.st ∧
      ∀ b, .setConnection b ∈ p.news q.st → (p.st.uris b).unrecoverable = false := by
  obtain ⟨past, p, hrun, hr, hleaving, hnext, hfresh, hstep⟩ := traced_of_record (step (tableEnv []) onceSettings)
    (fun _ _ => true) securePool_started failedTrace
    (P := fun _ p => Ev.rotates p (.run 0) = true ∧ p.leaving onceSettings = true ∧ p.next? = some 1 ∧
      (p.st.uris 1).unrecoverable = false ∧
      (step (tableEnv []) onceSettings p (.run 0)).any (fun q => .setConnection 1 ∈ p.news q.st) = true)
    (by decide +kernel)
  obtain ⟨q, hq, hhanded⟩ := (Option.any_eq_true _ _).mp hstep
  have hreach := hrun.mono (D := fun _ _ => True) fun _ _ _ => trivial
  refine ⟨past, p, hreach, hleaving, q, hq, by simpa using hhanded, (recoverable_attempted_iff hreach hq hr).mpr ?_⟩
  intro _ _ b hb
  cases hnext.symm.trans hb
  exact .inr hfresh

/-! ## Taking turns -/

def executions (past : List (Pool × Ev)) : Nat := past.countP fun x => x.2.rotates x.1

def Ev.adds : Ev → Bool
  | addConnection _ => true
  | _ => false

/-- No connection of the list, which stays as it is, is unrecoverable, ends the program or is
    ever reached. -/
structure Futile (p : Pool) (e : Ev) : Prop where
  recoverable : ∀ a ∈ p.connections, (p.st.uris a).unrecoverable = false
  host : ∀ a ∈ p.connections, (p.st.uris a).host ≠ "exit"
  offline : (p.st.started && p.st.isConnected) = false
  silent : .onConnected ∉ p.st.log
  fixed : e.adds = false

instance (p : Pool) (e : Ev) : Decidable (Futile p e) :=
  decidable_of_iff ((∀ a ∈ p.connections, (p.st.uris a).unrecoverable = false) ∧
      (∀ a ∈ p.connections, (p.st.uris a).host ≠ "exit") ∧ (p.st.started && p.st.isConnected) = false ∧
      .onConnected ∉ p.st.log ∧ e.adds = false)
    ⟨fun ⟨h1, h2, h3, h4, h5⟩ => ⟨h1, h2, h3, h4, h5⟩, fun ⟨h1, h2, h3, h4, h5⟩ => ⟨h1, h2, h3, h4, h5⟩⟩

theorem Acted.failing {e : Ev} (ha : Acted E S p e q) (h : ∃ x ∈ q.tasks, x.2 = .failovertimerElapsed) : p.Failing := by
  obtain ⟨x, hx, hf⟩ := h
  have hpassed : ∀ {renews : Bool}, x ∈ (p.passed renews).tasks → p.Failing := by
    intro renews hx
    obtain ⟨y, hy, rfl⟩ := List.mem_map.mp hx
    exact .inr ⟨y, hy, hf⟩
  have herased : x ∈ p.tasks.eraseP Pool.due → p.Failing := fun hx => .inr ⟨x, List.mem_of_mem_eraseP hx, hf⟩
  cases ha with
  | handler _ _ _ | skip _ _ | exits _ _ _ | attempts _ _ _ => exact hpassed hx
  | failover _ _ _ | idle _ _ | submits _ _ => exact herased hx
  | failoverExpires htimer => exact .inl (by simp [htimer])
  | found _ =>
    rcases List.mem_append.mp hx with hx | hx
    · exact .inr ⟨x, hx, hf⟩
    · rw [List.mem_singleton.mp hx] at hf
      cases hf
  | fails _ _ | completes _ _ | adds | removes _ _ _ | selects _ _ _ _ | reselects _ _ _ | refuses _ _ _ | stops _ _
  | hashrate _ | fetch _ _ | leave => exact .inr ⟨x, hx, hf⟩

/-- The list `l` is gone round; a list of one is given up. -/
inductive Turned (S : Settings) (l : List Nat) (past : List (Pool × Ev)) (m : Manager) : Prop
  | on (hl : m.connections = l) (hr : l.length = 1 → executions past ≤ S.connectionMaxRetries)
    (hturn : (m.activeConnectionIdx, m.connectionAttempt) =
      (RoundRobin.turn l.length S.connectionMaxRetries)^[executions past] (0, 0))
  | spent (hl : m.connections = []) (h1 : l.length = 1) (hr : executions past = S.connectionMaxRetries + 1)

structure Waits (p : Pool) : Prop where
  pending : p.asyncPending = true
  failing : ¬ p.Failing

theorem executions_cons (e : Ev) (past : List (Pool × Ev)) :
    executions ((p, e) :: past) = executions past + if e.rotates p then 1 else 0 := List.countP_cons

theorem Turned.same {past past' : List (Pool × Ev)} {l : List Nat} (h : Turned S l past m)
    (hpast : executions past' = executions past) (hl : n.connections = m.connections)
    (hidx : n.activeConnectionIdx = m.activeConnectionIdx) (hattempt : n.connectionAttempt = m.connectionAttempt) :
    Turned S l past' n := by
  cases h with
  | on hconn hr hturn =>
    exact .on (hl.trans hconn) (by rw [hpast]; exact hr) (by rw [hidx, hattempt, hpast]; exact hturn)
  | spent hconn h1 hr => exact .spent (hl.trans hconn) h1 (hpast.trans hr)

/-- A single connection has been attempted as often as `rotateConnect` was executed. -/
theorem iterate_one {r k : Nat} (hr : 0 < r) (hk : k ≤ r) : (RoundRobin.turn 1 r)^[k] (0, 0) = (0, k) := by
  cases k with
  | zero => rfl
  | succ k => rw [RoundRobin.iterate_turn hr, Nat.mod_one, Nat.mod_eq_of_lt (by omega)]

/-- A turn of the entry that is kept, or of the next one. -/
theorem Turned.attempt {past : List (Pool × Ev)} {l : List Nat} {e : Ev} {a b : Nat} (hr : 0 < S.connectionMaxRetries)
    (h : Turned S l past p.toManager) (he : e.rotates p = true)
    (hlt : p.activeConnectionIdx < p.connections.length) (hmark : (p.st.uris a).unrecoverable = false)
    (hn : Selected S p.st.uris p.toManager a n) (hb : n.active = some b) : Turned S l ((p, e) :: past) n.attempt := by
  have hcount : executions ((p, e) :: past) = executions past + 1 := by rw [executions_cons, if_pos he]
  cases h with
  | spent hl _ _ => simp [hl] at hlt
  | on hl hone hturn =>
    cases hn with
    | keep _ ht =>
      refine .on hl (fun h1 => ?_) ?_
      · have hattempt : p.connectionAttempt = executions past := by
          rw [h1, iterate_one hr (hone h1)] at hturn
          exact congrArg Prod.snd hturn
        omega
      · rw [hcount, Function.iterate_succ_apply', ← hturn, RoundRobin.turn, if_neg (by simpa using ht)]
        rfl
    | discard h => rw [hmark] at h; cases h
    | giveUp _ _ h1 =>
      have := List.length_eraseIdx_of_lt hlt
      rw [Manager.active, List.getElem?_eq_none (by simp only [Manager.giveUp]; omega)] at hb
      cases hb
    | advance _ ht h1 =>
      refine .on hl (fun h1' => absurd (hl ▸ h1') h1) ?_
      rw [hcount, Function.iterate_succ_apply', ← hturn, RoundRobin.turn, if_pos ht, ← hl, succ_mod hlt]
      rfl

/-- Only a list of one is left, when its connection has had its turns. -/
theorem Turned.exit {past : List (Pool × Ev)} {l : List Nat} {e : Ev} {a : Nat} (hr : 0 < S.connectionMaxRetries)
    (h : Turned S l past p.toManager) (hf : Futile p e) (hlt : p.activeConnectionIdx < p.connections.length)
    (hmark : (p.st.uris a).unrecoverable = false) (hn : Selected S p.st.uris p.toManager a n)
    (hexit : n.connections = [] ∨ ∃ b, n.active = some b ∧ (p.st.uris b).host = "exit") :
    l.length = 1 ∧ executions past = S.connectionMaxRetries ∧ n.connections = [] := by
  have hlisted : n.connections = p.connections → False := by
    intro hsame
    rcases hexit with hempty | ⟨b, hb, hhost⟩
    · simp [← hsame, hempty] at hlt
    · exact hf.host b (hsame ▸ List.mem_of_getElem? hb) hhost
  cases h with
  | spent hl _ _ => simp [hl] at hlt
  | on hl hone hturn =>
    cases hn with
    | keep _ ht => exact (hlisted rfl).elim
    | discard h => rw [hmark] at h; cases h
    | advance _ _ _ => exact (hlisted rfl).elim
    | giveUp _ ht h1 =>
      have h1' : l.length = 1 := hl ▸ h1
      rw [h1', iterate_one hr (hone h1')] at hturn
      have hattempt : p.connectionAttempt = executions past := congrArg Prod.snd hturn
      have hlength := List.length_eraseIdx_of_lt hlt
      exact ⟨h1', Nat.le_antisymm (hone h1') (hattempt ▸ ht), List.length_eq_zero_iff.mp (by
        simp only [Manager.giveUp]
        omega)⟩

theorem Turned.decides {past : List (Pool × Ev)} {l : List Nat} {e : Ev} (hr : 0 < S.connectionMaxRetries)
    (h : Turned S l past p.toManager) (hinv : Inv p) (hw : Waits p) (hf : Futile p e) (hd : Decides S p e m) :
    Turned S l ((p, e) :: past) m ∧ m.asyncPending = true ∧ m.failovertimer = none := by
  have htimer : p.failovertimer = none := not_not.mp fun h => hw.failing (.inl h)
  have hidle : e.rotates p = false → executions ((p, e) :: past) = executions past := fun he => by
    rw [executions_cons, he]
    rfl
  cases hd with
  | nothing hrotates _ _ =>
    have he : e.rotates p = false := by
      by_contra he
      have := hrotates (Bool.eq_true_of_not_eq_false he)
      rw [hf.offline] at this
      cases this
    exact ⟨h.same (hidle he) rfl rfl rfl, hw.pending, htimer⟩
  | @exits random queue a n hnext hc ha hn hexit =>
    obtain ⟨hpending, htimer', -⟩ := hn.flags
    have hmark := hf.recoverable a (List.mem_of_getElem? ha)
    have hlt := (hinv.rotates hnext).2
    obtain ⟨h1, hcount, hempty⟩ := h.exit hr hf hlt hmark hn hexit
    refine ⟨.spent hempty h1 ?_, hpending.trans hw.pending, htimer'.trans htimer⟩
    rw [executions_cons, hnext.rotates, hcount]
    rfl
  | attempts hnext hc ha hn hb hhost hhands =>
    obtain ⟨hpending, htimer', -⟩ := hn.flags
    have hmark := hf.recoverable _ (List.mem_of_getElem? ha)
    have hlt := (hinv.rotates hnext).2
    exact ⟨h.attempt hr hnext.rotates hlt hmark hn hb, hpending.trans hw.pending, htimer'.trans htimer⟩
  | failover hfails => exact absurd (failing_of_failsOver hfails) hw.failing
  | expires hx => exact absurd (hx.symm.trans htimer) nofun
  | adds => exact absurd hf.fixed nofun
  | removes hpending _ _ => exact absurd (hpending.symm.trans hw.pending) nofun
  | selects _ hpending _ => exact absurd (hpending.symm.trans hw.pending) nofun
  | stops connected =>
    cases connected with
    | true => exact ⟨h.same (hidle rfl) rfl rfl rfl, rfl, htimer⟩
    | false => exact ⟨h.same (hidle rfl) rfl rfl rfl, rfl, rfl⟩

/-- Without a session, what is heard changes none of it. -/
theorem Heard.silent (h : Heard S t m n) (hs : .onConnected ∉ t.log) (hpending : m.asyncPending = true)
    (htimer : m.failovertimer = none) :
    n.connectionAttempt = m.connectionAttempt ∧ n.asyncPending = true ∧ n.failovertimer = none := by
  cases h with
  | nothing h =>
    obtain ⟨_, _, _, rfl⟩ := h
    exact ⟨rfl, hpending, htimer⟩
  | session hlog _ => exact absurd hlog hs
  | loss stopping h =>
    obtain ⟨_, _, _, rfl⟩ := h
    exact ⟨rfl, by simp [Manager.parted, hpending], rfl⟩

theorem turned_of_run {l : List Nat} {uris : Nat → Uri} {farm : Farm} {past : List (Pool × Ev)}
    (hs : Started (init l uris farm)) (hr : 0 < S.connectionMaxRetries)
    (h : Traced (step E S) (· = init l uris farm) Futile past p) :
    Inv p ∧ (.onConnected ∉ p.st.log → Turned S l past p.toManager ∧ Waits p) := by
  induction h with
  | start h =>
    cases h
    refine ⟨inv_init hs, fun _ => ⟨.on rfl (fun _ => Nat.zero_le _) rfl, rfl, ?_⟩⟩
    rintro (htimer | ⟨x, hx, -⟩)
    · exact htimer rfl
    · cases hx
  | @step past p q e _ hf hstep ih =>
    obtain ⟨hinv, hturned⟩ := ih
    have ha := (acted_of_step hstep).2
    refine ⟨hinv.acted ha, fun hsilent => ?_⟩
    obtain ⟨hturned, hwaits⟩ := hturned hf.silent
    obtain ⟨m, hd, hheard⟩ := hinv.decides ha
    obtain ⟨hm, hpending, htimer⟩ := hturned.decides hr hinv hwaits hf hd
    obtain ⟨hattempt, hpending, htimer⟩ := hheard.silent hsilent hpending htimer
    obtain ⟨hl, hidx, -⟩ := hheard.kept
    refine ⟨hm.same rfl hl hidx hattempt, hpending, ?_⟩
    rintro (hsome | htask)
    · exact hsome htimer
    · exact hwaits.failing (ha.failing htask)

/-- With `executions past` executions before it, this one hands out the connection whose turn it
    is; the single connection of a list of one is given up after its retries. -/
theorem rotation_in_turn {l : List Nat} {uris : Nat → Uri} {farm : Farm} {past : List (Pool × Ev)} {e : Ev}
    (hs : Started (init l uris farm)) (hr : 0 < S.connectionMaxRetries)
    (h : Traced (step E S) (· = init l uris farm) Futile ((p, e) :: past) q) (he : e.rotates p = true) :
    (2 ≤ l.length → ∃ a, l[executions past / S.connectionMaxRetries % l.length]? = some a ∧
      p.news q.st = [.setConnection a]) ∧
    (l.length = 1 → executions past ≤ S.connectionMaxRetries ∧
      (executions past < S.connectionMaxRetries → ∃ a, l[0]? = some a ∧ p.news q.st = [.setConnection a]) ∧
      (executions past = S.connectionMaxRetries → q.connections = [] ∧ q.running = false ∧ p.news q.st = [])) := by
  cases h with
  | step _ hrun hf hstep =>
  obtain ⟨hinv, hturned⟩ := turned_of_run hs hr hrun
  obtain ⟨hturned, -⟩ := hturned hf.silent
  obtain ⟨random, _, rfl, hnext⟩ := next_of_rotates he
  have hlt := (hinv.rotates hnext).2
  cases hinv.handed (acted_of_step hstep).2 he with
  | skipped hc _ => exact absurd (hc.symm.trans hf.offline) nofun
  | exited _ ha hn hexit hnews hq =>
    obtain ⟨h1, hcount, hempty⟩ := hturned.exit hr hf hlt (hf.recoverable _ (List.mem_of_getElem? ha)) hn hexit
    refine ⟨fun h2 => by omega, fun _ => ⟨hcount.le, fun hless => by omega, fun _ => ?_⟩⟩
    rw [hq]
    exact ⟨hempty, rfl, hnews⟩
  | @handed a b n _ ha hn hb _ hnews _ =>
    have hattempt := hturned.attempt hr he hlt (hf.recoverable _ (List.mem_of_getElem? ha)) hn hb
    rw [Manager.active] at hb
    cases hattempt with
    | spent hl _ _ =>
      have hl : n.connections = [] := hl
      simp [hl] at hb
    | on hl hone hturn =>
      have hl : n.connections = l := hl
      have hcount : executions ((p, .run random) :: past) = executions past + 1 := by rw [executions_cons, if_pos he]
      rw [hcount, RoundRobin.iterate_turn hr] at hturn
      have hidx : n.activeConnectionIdx = executions past / S.connectionMaxRetries % l.length := congrArg Prod.fst hturn
      rw [hl, hidx] at hb
      refine ⟨fun _ => ⟨b, hb, hnews⟩, fun h1 => ?_⟩
      have hless := hone h1
      rw [h1, Nat.mod_one] at hb
      exact ⟨by omega, fun _ => ⟨b, hb, hnews⟩, fun heq => by omega⟩

/-- Two connections with one attempt each: the second execution has come to the second one. -/
theorem second_in_turn :
    ∃ past p q, Traced (step (tableEnv []) onceSettings) (· = tracePool) Futile ((p, .run 0) :: past) q ∧
    executions past = 1 ∧ p.news q.st = [.setConnection 1] := by
  obtain ⟨past, p, hrun, ⟨hr, hcount⟩, hfutile, hstep⟩ := traced_of_record (step (tableEnv []) onceSettings)
    (fun p e => Futile p e) (I := (· = tracePool)) rfl failedTrace
    (P := fun past p => (Ev.rotates p (.run 0) = true ∧ executions past = 1) ∧ Futile p (.run 0) ∧
      (step (tableEnv []) onceSettings p (.run 0)).isSome = true) (by decide +kernel)
  obtain ⟨q, hq⟩ := Option.isSome_iff_exists.mp hstep
  have hlast := Traced.step _ (hrun.mono (D := Futile) fun _ _ h => by simpa using h) hfutile hq
  refine ⟨past, p, q, hlast, hcount, ?_⟩
  obtain ⟨a, ha, hnews⟩ := (rotation_in_turn tracePool_started (by decide) hlast hr).1 (by decide)
  rw [hcount] at ha
  cases ha
  exact hnews

end CoreMiner.Pools
