/-
  CoreMiner.Api.Isolation — the sessions of one server, and what one of them can do to the
  miner or learn of the others (`ApiServer.cpp`: `processRequest`, `handle_accept`;
  `docs/API.md`: read-only mode and the password).

  `Api.Access` is about one session that is alone with the node. Here any number of them
  come, go and interleave, and the node goes on by itself.
  - `node_changed_by_authorized`: a session changes the node only if the port was given as
    a number that is not negative, and with a password only if that very session has sent it.
  - `locked_session_isolated`: what a session without the password is sent does not depend
    on the node, nor on what the other sessions do meanwhile, those with the password
    included.
-/

import CoreMiner.Api.Server

namespace CoreMiner.Api

open DevCore EthCore Lib Prog
open Stratum (trim)

/-! ## A session that is locked -/

section locked

variable {E : Env} {C : Config} {m : Moment} {α β : Type}

/-- A session that has not been authorized stays so, and the node as it is. -/
def Locked (s t : St) : Prop := s.isAuthenticated = false → t.node = s.node ∧ t.isAuthenticated = false

theorem Locked.refl (s : St) : Locked s s := fun hs => ⟨rfl, hs⟩

theorem Locked.trans (s t u : St) (h : Locked s t) (h' : Locked t u) : Locked s u := by
  intro hs
  obtain ⟨hnode, ht⟩ := h hs
  obtain ⟨hnode', hu⟩ := h' ht
  exact ⟨hnode'.trans hnode, hu⟩

/-- However `p` ends, it has left a locked session so. -/
def Locks (p : M α) : Prop := Keeps Locked (fun _ _ => True) p

namespace Locks

theorem bind {p : M α} {f : α → M β} (hp : Locks p) (hf : ∀ a, Locks (f a)) : Locks (p >>= f) :=
  Keeps.bind Locked.trans (fun _ _ _ _ _ => trivial) hp hf

theorem pure (a : α) : Locks (Pure.pure a : M α) := Keeps.pure Locked.refl a

theorem throw (x : Stop) : Locks (MonadExcept.throw x : M α) := Keeps.throw Locked.refl fun _ => trivial

theorem get_bind {f : St → M α} (hf : ∀ s, Locks (f s)) : Locks (get >>= f) := bind (Keeps.get Locked.refl) hf

theorem modify {f : St → St} (hf : ∀ s, (f s).node = s.node ∧ (f s).isAuthenticated = s.isAuthenticated) :
    Locks (modify f : M PUnit) := Keeps.modify fun s hs => ⟨(hf s).1, (hf s).2.trans hs⟩

theorem when {c : Prop} [Decidable c] {p : M Unit} (hp : Locks p) : Locks (Prog.when c p) :=
  Keeps.when Locked.refl fun _ => hp

theorem raise (x : Except Stop α) : Locks (Api.raise x : M α) := by
  cases x with
  | ok a => exact pure a
  | error x => exact throw x

theorem exec {p : M α} (h : Locks p) (s : St) : Locked s (p.exec s).2 := by
  have hends := h.from_ s
  unfold wp at hends
  rcases hexec : p.exec s with ⟨x | a, t⟩
  · rw [hexec] at hends
    exact hends.1
  · rw [hexec] at hends
    exact hends

theorem of_exec {p : M α} (h : ∀ s, Locked s (p.exec s).2) : Locks p := by
  refine ⟨fun s => wp_iff_exec.mpr ⟨fun _ _ ht => ?_, fun _ _ ht => ⟨?_, trivial⟩⟩⟩
  · have hs := h s
    rw [ht] at hs
    exact hs
  · have hs := h s
    rw [ht] at hs
    exact hs

end Locks

theorem sendSocketData_locks (text : List Char) (disconnects : Bool) : Locks (sendSocketData text disconnects) :=
  .get_bind fun _ => .when (.bind (.modify fun _ => ⟨rfl, rfl⟩) fun _ => .modify fun _ => ⟨rfl, rfl⟩)

/-- A line that is no authorization, or one whose password does not pass. -/
theorem takeLine_locks {line : List Char} (h : authorizing E C line = false) : Locks (takeLine E C m line) := by
  refine .bind (.when (.bind ?_ fun jRes => ?_)) fun _ => .modify fun _ => ⟨rfl, rfl⟩
  · unfold authorizing at h
    unfold answer
    refine .of_exec fun s => ?_
    rcases hparse : E.parse (trim line) with x | r
    · exact fun hs => ⟨rfl, hs⟩
    · rw [hparse] at h
      rw [std_ok, raise_ok, pure_bind]
      cases r with
      | error what => exact fun hs => ⟨rfl, hs⟩
      | ok jMsg =>
        obtain ⟨jRes, hexec⟩ := handleRequest_answers (E := E) (m := m) h
        intro hs
        show ((handleRequest E C m jMsg).exec s).2.node = _ ∧ _
        rw [hexec s hs]
        exact ⟨rfl, hs⟩
  · exact .get_bind fun _ => .when (sendSocketData_locks _ _)

theorem consume_locks {lines : List (List Char)} (h : ∀ line ∈ lines, authorizing E C line = false) :
    Locks (consume E C m lines) := by
  induction lines with
  | nil => exact .pure _
  | cons line lines ih =>
    rw [consume, List.forM_cons]
    exact .bind (takeLine_locks (h line List.mem_cons_self)) fun _ => ih fun l hl => h l (List.mem_cons_of_mem _ hl)

def unlocking (E : Env) (C : Config) (message : List Char) : Bool :=
  decide (4 ≤ message.length) && (httpRequest message).isNone && (Lines.lines '\n' message).any (authorizing E C)

def unlocks (E : Env) (C : Config) (s : St) : Ev → Bool
  | .received _ (some rx) => unlocking E C (s.message ++ rx)
  | _ => false

theorem handleMessage_locks {message : List Char} (h : unlocking E C message = false) :
    Locks (handleMessage E C m message) := by
  refine Keeps.ite (fun _ => Locks.pure _) fun hlong => ?_
  rw [unlocking, decide_eq_true (Nat.le_of_not_lt hlong), Bool.true_and] at h
  cases hhttp : httpRequest message with
  | some r =>
    refine Locks.get_bind fun s => .bind (.raise _) fun text => ?_
    exact .bind (sendSocketData_locks _ _) fun _ => .modify fun _ => ⟨rfl, rfl⟩
  | none =>
    rw [hhttp, Option.isNone_none, Bool.true_and, List.any_eq_false] at h
    refine Locks.bind (consume_locks fun line hline => Bool.eq_false_of_not_eq_true (h line hline)) fun _ => ?_
    exact .get_bind fun s => .when (.modify fun _ => ⟨rfl, rfl⟩)

theorem onRecvSocketDataCompleted_locks {s : St} (data : Option (List Char))
    (h : unlocks E C s (.received m data) = false) : Locked s ((onRecvSocketDataCompleted E C m data).exec s).2 := by
  rcases data with _ | _ | ⟨c, rx⟩
  · exact Locks.exec (.bind (.modify fun _ => ⟨rfl, rfl⟩) fun _ => .modify fun _ => ⟨rfl, rfl⟩) s
  · exact Locks.exec (.bind (.modify fun _ => ⟨rfl, rfl⟩) fun _ => .modify fun _ => ⟨rfl, rfl⟩) s
  · rw [onRecvSocketDataCompleted_exec (List.cons_ne_nil c rx)]
    exact (handleMessage_locks (m := m) h).exec (s.receiving (c :: rx))

theorem alive_locks : Locks alive := .get_bind fun _ => .when (.throw _)

/-- A handler of a locked session leaves the session locked and the node alone. -/
theorem step_locked {s : St} {x : Ev} (h : unlocks E C s x = false) : Locked s ((step E C x).exec s).2 := by
  cases x with
  | received m data =>
    rw [step, exec_bind_ok (exec_get s)]
    unfold Prog.when
    split
    · rw [exec_bind, alive_exec]
      cases s.isOpen with
      | false => exact .refl s
      | true => exact onRecvSocketDataCompleted_locks data h
    · exact .refl s
  | sent i ec =>
    refine Locks.exec (.get_bind fun s => ?_) s
    cases s.writes[i]? with
    | none => exact .pure _
    | some w =>
      exact .bind alive_locks fun _ => .bind (.modify fun _ => ⟨rfl, rfl⟩) fun _ =>
        .when (.modify fun _ => ⟨rfl, rfl⟩)

end locked

namespace Server

section access

variable {E : Env} {s t : Server} {id : Nat} {portnum : Int} {password : String} {node : Node}
  {past : List (Server × Ev)}

theorem beginAccept_frame (s : Server) :
    s.beginAccept.config = s.config ∧ s.beginAccept.conns = s.conns := by
  unfold beginAccept
  split
  · split <;> exact ⟨rfl, rfl⟩
  · exact ⟨rfl, rfl⟩

theorem start_frame (s : Server) (bound : Bool) :
    (s.start bound).config = s.config ∧ (s.start bound).conns = s.conns := by
  unfold start
  split
  · exact ⟨rfl, rfl⟩
  · split
    · exact beginAccept_frame _
    · exact ⟨rfl, rfl⟩

theorem handleAccept_frame (s : Server) (id : Nat) (ec gone : Bool) : (s.handleAccept id ec gone).config = s.config ∧
    ((s.handleAccept id ec gone).conns = s.conns ∨
      (s.handleAccept id ec gone).conns = s.conns ++ [(id, St.init s.config s.node)]) := by
  unfold handleAccept
  split
  · exact ⟨(beginAccept_frame _).1, .inl (beginAccept_frame _).2⟩
  · split
    · exact ⟨rfl, .inr rfl⟩
    · exact ⟨(beginAccept_frame _).1, .inr (beginAccept_frame _).2⟩

theorem stop_conns {d : Nat × St} (hd : d ∈ s.stop.conns) :
    ∃ c, (d.1, c) ∈ s.conns ∧ d.2.isAuthenticated = c.isAuthenticated := by
  unfold stop at hd
  split at hd
  · obtain ⟨c, hc, rfl⟩ := List.mem_map.mp hd
    exact ⟨c.2, hc, rfl⟩
  · exact ⟨d.2, hd, rfl⟩

theorem mem_update {conns : List (Nat × St)} {u : St} {d : Nat × St} (hd : d ∈ update conns id u) :
    d.1 ≠ id ∧ d ∈ conns ∨ d = (id, u) := by
  obtain ⟨c, hc, rfl⟩ := List.mem_map.mp hd
  by_cases heq : c.1 = id
  · rw [if_pos heq, heq]
    exact .inr rfl
  · rw [if_neg heq]
    exact .inl ⟨heq, hc⟩

theorem stepped_config {e : Ev} (h : Stepped E s e t) : t.config = s.config := by
  cases h with
  | start _ => exact (start_frame _ _).1
  | accepted _ => exact (handleAccept_frame ..).1
  | session _ => rfl
  | stop =>
    unfold stop
    split <;> rfl
  | elsewhere => rfl

theorem config_of_run {P : Server → Ev → Prop} (h : Traced (step E) (· = new portnum password node) P past s) :
    s.config = ⟨decide (portnum < 0), password⟩ := by
  refine Traced.invariant (J := fun s => s.config = ⟨decide (portnum < 0), password⟩) (fun s hs => ?_)
    (fun s e t hs _ hstep => ?_) h
  · rw [hs]
    rfl
  · exact (stepped_config (stepped_of_step hstep).2).trans hs

def Unlocked (E : Env) (id : Nat) (past : List (Server × Ev)) : Prop :=
  ∃ r x c, (r, .session id x) ∈ past ∧ r.conns.lookup id = some c ∧ unlocks E r.config c x = true

theorem Unlocked.later {y : Server × Ev} (h : Unlocked E id past) : Unlocked E id (y :: past) := by
  obtain ⟨r, x, c, hmem, hrest⟩ := h
  exact ⟨r, x, c, List.mem_cons_of_mem _ hmem, hrest⟩

theorem locked_of_run (h : Runs E portnum password node past s) (hpassword : password ≠ "") :
    ∀ d ∈ s.conns, d.2.isAuthenticated = false ∨ Unlocked E d.1 past := by
  induction h with
  | start hs =>
    rw [hs]
    exact fun d hd => by cases hd
  | @step past s t e hrun _ hstep ih =>
    intro d hd
    have hconfig := config_of_run hrun
    have hlater : ∀ d ∈ s.conns, d.2.isAuthenticated = false ∨ Unlocked E d.1 ((s, e) :: past) := fun d hd =>
      (ih d hd).imp_right Unlocked.later
    cases (stepped_of_step hstep).2 with
    | start _ =>
      rw [(start_frame _ _).2] at hd
      exact hlater d hd
    | accepted _ =>
      rcases (handleAccept_frame ..).2 with hsame | hnew
      · rw [hsame] at hd
        exact hlater d hd
      · rw [hnew] at hd
        rcases List.mem_append.mp hd with hd | hd
        · exact hlater d hd
        · rw [List.mem_singleton.mp hd]
          refine .inl ?_
          show s.config.password.isEmpty = false
          rw [hconfig]
          simpa using hpassword
    | @session id x c hc =>
      rcases mem_update hd with ⟨-, hd⟩ | rfl
      · exact hlater d hd
      · rcases hlater (id, c) (mem_of_lookup hc) with hlocked | hunlocked
        · cases hx : unlocks E s.config c x with
          | true => exact .inr ⟨s, x, c, List.mem_cons_self, hc, hx⟩
          | false => exact .inl (step_locked (s := { c with node := s.node }) hx hlocked).2
        · exact .inr hunlocked
    | stop =>
      obtain ⟨c, hc, hsame⟩ := stop_conns hd
      rw [hsame]
      exact hlater (d.1, c) hc
    | elsewhere => exact hlater d hd

/-- Whatever else goes on, a session changes the node only if the port number was not negative, and
    with a password only if that session has sent it. -/
theorem node_changed_by_authorized {x : Api.Ev} (h : Runs E portnum password node past s)
    (hstep : step E s (.session id x) = some t) (hnode : t.node ≠ s.node) :
    0 ≤ portnum ∧ (password = "" ∨ Unlocked E id ((s, .session id x) :: past)) := by
  have hconfig := config_of_run h
  generalize he : Ev.session id x = e at hstep
  cases (stepped_of_step hstep).2 with
  | @session id x c hc =>
    cases he
    constructor
    · by_contra hnegative
      have hreadonly : s.config.readonly = true := by
        rw [hconfig]
        exact decide_eq_true (Int.lt_of_not_ge hnegative)
      exact hnode ((step_spares hreadonly x).exec { c with node := s.node })
    · refine or_iff_not_imp_left.mpr fun hpassword => ?_
      rcases locked_of_run h hpassword (id, c) (mem_of_lookup hc) with hlocked | hunlocked
      · cases hx : unlocks E s.config c x with
        | true => exact ⟨s, x, c, List.mem_cons_self, hc, hx⟩
        | false => exact absurd (step_locked (s := { c with node := s.node }) hx hlocked).1 hnode
      · exact hunlocked.later
  | _ => cases he

/-- The session that has sent the password shuffles. -/
theorem shuffle_after_login : ∃ past s t, Runs sampleEnv 3333 "secret" (plainNode 0) past s ∧
    step sampleEnv s (.session 1 sampleShuffle) = some t ∧ t.node ≠ s.node ∧
    Unlocked sampleEnv 1 ((s, .session 1 sampleShuffle) :: past) := by
  obtain ⟨past, s, hrun, hbefore, hafter⟩ := traced_of_record (step sampleEnv) (fun _ _ => true)
    (I := (· = new 3333 "secret" (plainNode 0))) rfl sampleTrace
    (P := fun _ s => s.node.pools.farm.nonceScrambler = 0 ∧
      (step sampleEnv s (.session 1 sampleShuffle)).any (fun t => t.node.pools.farm.nonceScrambler = 7) = true)
    (by decide +kernel)
  obtain ⟨t, hstep, hseven⟩ : ∃ t, step sampleEnv s (.session 1 sampleShuffle) = some t ∧
      t.node.pools.farm.nonceScrambler = 7 := by
    cases hstep : step sampleEnv s (.session 1 sampleShuffle) with
    | none => simp [hstep] at hafter
    | some t => exact ⟨t, rfl, by simpa [hstep] using hafter⟩
  have hruns := hrun.mono (D := fun _ _ => True) fun _ _ _ => trivial
  have hnode : t.node ≠ s.node := fun heq => by
    rw [heq, hbefore] at hseven
    cases hseven
  refine ⟨past, s, t, hruns, hstep, hnode, (node_changed_by_authorized hruns hstep hnode).2.resolve_left ?_⟩
  decide

end access

/-! ## Isolation -/

section isolation

variable {E : Env} {C : Config} {s t : Server} {id : Nat} {portnum : Int} {password : String} {node : Node}
  {past : List (Server × Ev)}

def eventsOf (id : Nat) : List (Server × Ev) → List Api.Ev
  | [] => []
  | (_, .session i x) :: past => if i = id then eventsOf id past ++ [x] else eventsOf id past
  | _ :: past => eventsOf id past

theorem run_snoc {events : List Api.Ev} {c d : St} (h : (run E C events).exec c = (.ok (), d)) (x : Api.Ev) :
    (run E C (events ++ [x])).exec c = (Api.step E C x).exec d := by
  have happend : run E C (events ++ [x]) = run E C events >>= fun _ => run E C [x] := List.forM_append
  rw [happend, exec_bind_ok h, run_singleton]

theorem discreetRun_snoc {events : List Api.Ev} {c : St} {x : Api.Ev}
    (h : discreetRun E C c (events ++ [x]) = true) : discreetRun E C c events = true ∧
      ∀ d, (run E C events).exec c = (.ok (), d) → discreet E C d x = true := by
  induction events generalizing c with
  | nil =>
    refine ⟨rfl, fun d hd => ?_⟩
    cases hd
    simpa [discreetRun] using h
  | cons y events ih =>
    rw [List.cons_append, discreetRun, Bool.and_eq_true] at h
    obtain ⟨hrest, hlast⟩ := ih h.2
    refine ⟨by rw [discreetRun, h.1, hrest, Bool.true_and], fun d hd => hlast d ?_⟩
    rw [run, List.forM_cons, exec_bind] at hd
    rcases hy : (Api.step E C y).exec c with ⟨_ | _, u⟩
    · rw [hy] at hd
      cases hd
    · rw [hy] at hd
      exact hd

/-- The session is where it would be alone on the node `n`, if that was discreet. -/
def AsAlone (E : Env) (C : Config) (n : Node) (events : List Api.Ev) (crashed : Option Stop) (c : St) : Prop :=
  discreetRun E C (St.init C n) events = true →
    (crashed = none → ((run E C events).exec (St.init C n)).1 = .ok ()) ∧
    ((run E C events).exec (St.init C n)).2 = { c with node := n } ∧ c.isAuthenticated = false

theorem AsAlone.step {n : Node} {events : List Api.Ev} {c : St} (h : AsAlone E C n events none c) (node : Node)
    (x : Api.Ev) : AsAlone E C n (events ++ [x])
      (match ((Api.step E C x).exec { c with node }).1 with
        | .ok _ => none
        | .error y => some y) ((Api.step E C x).exec { c with node }).2 := by
  intro hdiscreet
  obtain ⟨hbefore, hlast⟩ := discreetRun_snoc hdiscreet
  obtain ⟨hok, hsame, hlocked⟩ := h hbefore
  have hexec : (run E C events).exec (St.init C n) = (.ok (), { c with node := n }) :=
    Prod.ext (hok rfl) hsame
  have hblind : Blind node n { c with node } { c with node := n } := ⟨rfl, rfl, hlocked⟩
  obtain ⟨hend, hstate⟩ := step_inStep hblind x (hlast { c with node := n } hexec)
  rw [run_snoc hexec]
  refine ⟨fun hcrash => ?_, hstate.same, hstate.locked⟩
  rw [hend]
  split at hcrash
  · assumption
  · cases hcrash

theorem AsAlone.mono {n : Node} {events : List Api.Ev} {c : St} (h : AsAlone E C n events none c)
    (crashed : Option Stop) : AsAlone E C n events crashed c := fun hdiscreet => by
  obtain ⟨hok, hrest⟩ := h hdiscreet
  exact ⟨fun _ => hok rfl, hrest⟩

def Ev.isStop : Ev → Bool
  | stop => true
  | _ => false

abbrev Serves (E : Env) (portnum : Int) (password : String) (node : Node) : List (Server × Ev) → Server → Prop :=
  Traced (step E) (· = new portnum password node) fun _ e => e.isStop = false

structure Isolated (E : Env) (past : List (Server × Ev)) (s : Server) : Prop where
  unheard : ∀ id, id ∉ s.conns.map Prod.fst → eventsOf id past = []
  alone : ∀ d ∈ s.conns, ∀ n, AsAlone E s.config n (eventsOf d.1 past) s.crashed d.2

theorem Isolated.stepped {e : Ev} (h : Isolated E past s) (howned : Owned s) (hpassword : s.config.password ≠ "")
    (hrunning : s.crashed = none) (he : e.isStop = false) (hs : Stepped E s e t) : Isolated E ((s, e) :: past) t := by
  have halone : ∀ d ∈ s.conns, ∀ n crashed, AsAlone E s.config n (eventsOf d.1 past) crashed d.2 :=
    fun d hd n => (hrunning ▸ h.alone d hd n).mono
  cases hs with
  | start _ =>
    refine ⟨?_, fun d hd n => ?_⟩
    · rw [(start_frame _ _).2]
      exact h.unheard
    · rw [(start_frame _ _).2] at hd
      rw [(start_frame _ _).1]
      exact halone d hd n _
  | @accepted ec gone id hid =>
    obtain ⟨hconfig, hconns⟩ := handleAccept_frame s id ec gone
    have hnew : id ∉ s.conns.map Prod.fst := fun hmem => Nat.lt_irrefl _ ((howned.waiting id hid).2 id hmem)
    refine ⟨fun i hi => h.unheard i fun hmem => hi ?_, fun d hd n => ?_⟩
    · rcases hconns with hsame | hmore
      · rw [hsame]
        exact hmem
      · rw [hmore, List.map_append]
        exact List.mem_append_left _ hmem
    · rw [hconfig]
      rcases hconns with hsame | hmore
      · exact halone d (hsame ▸ hd) n _
      · rw [hmore] at hd
        rcases List.mem_append.mp hd with hd | hd
        · exact halone d hd n _
        · -- A new session has not received anything.
          rw [List.mem_singleton.mp hd]
          show AsAlone E s.config n (eventsOf id past) _ _
          rw [h.unheard id hnew]
          exact fun _ => ⟨fun _ => rfl, rfl, by simpa [St.init] using hpassword⟩
  | @session id x c hc =>
    refine ⟨fun i hi => ?_, fun d hd n => ?_⟩
    · have hi : i ∉ s.conns.map Prod.fst := update_map_fst s.conns id _ ▸ hi
      have hne : id ≠ i := fun heq => hi (heq ▸ List.mem_map_of_mem (mem_of_lookup hc))
      rw [eventsOf, if_neg hne]
      exact h.unheard i hi
    · rcases mem_update hd with ⟨hne, hd⟩ | rfl
      · rw [eventsOf, if_neg (Ne.symm hne)]
        exact halone d hd n _
      · rw [eventsOf, if_pos rfl]
        exact (halone (id, c) (mem_of_lookup hc) n none).step s.node x
  | stop => cases he
  | elsewhere => exact ⟨h.unheard, fun d hd n => halone d hd n _⟩

theorem isolated_of_run (h : Serves E portnum password node past s) (hpassword : password ≠ "") :
    Isolated E past s := by
  induction h with
  | start hs =>
    rw [hs]
    exact ⟨fun _ _ => rfl, fun d hd => by cases hd⟩
  | step e hrun he hstep ih =>
    have howned := owned_of_run (hrun.mono fun _ _ _ => trivial)
    obtain ⟨hrunning, hstepped⟩ := stepped_of_step hstep
    refine ih.stepped howned ?_ hrunning he hstepped
    rw [config_of_run hrun]
    exact hpassword

/-- What a session is sent, as long as it neither sends the password nor asks for the page, is what it
    would be sent alone on any other node: it learns nothing of the node, nor of the other sessions. -/
theorem locked_session_isolated {c : St} (h : Serves E portnum password node past s) (hpassword : password ≠ "")
    (hc : s.conns.lookup id = some c) (n : Node)
    (hdiscreet : discreetRun E s.config (St.init s.config n) (eventsOf id past) = true) :
    c.wire = ((run E s.config (eventsOf id past)).exec (St.init s.config n)).2.wire := by
  obtain ⟨-, hsame, -⟩ := (isolated_of_run h hpassword).alone (id, c) (mem_of_lookup hc) n hdiscreet
  rw [hsame]

/-- The second session is answered as if it were alone on a node that was started later. -/
theorem second_session_isolated : ∃ past s c, Serves sampleEnv 3333 "secret" (plainNode 0) past s ∧
    s.conns.lookup 2 = some c ∧ (eventsOf 2 past).length = 1 ∧
    c.wire = ((run sampleEnv s.config (eventsOf 2 past)).exec (St.init s.config (plainNode 1))).2.wire := by
  obtain ⟨past, s, hrun, hfound, hone, hdiscreet⟩ := traced_of_record (step sampleEnv) (fun _ e => !e.isStop)
    (I := (· = new 3333 "secret" (plainNode 0))) rfl (sampleTrace ++ [.session 1 sampleShuffle])
    (P := fun past s => (s.conns.lookup 2).isSome = true ∧ (eventsOf 2 past).length = 1 ∧
      discreetRun sampleEnv s.config (St.init s.config (plainNode 1)) (eventsOf 2 past) = true) (by decide +kernel)
  obtain ⟨c, hc⟩ := Option.isSome_iff_exists.mp hfound
  have hserves := hrun.mono (D := fun _ e => e.isStop = false) fun _ e he => by simpa using he
  exact ⟨past, s, c, hserves, hc, hone, locked_session_isolated hserves (by decide) hc (plainNode 1) hdiscreet⟩

end isolation

end Server

end CoreMiner.Api
