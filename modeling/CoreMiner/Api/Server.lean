/-
  CoreMiner.Api.Server — the API's server and all of its sessions (`ApiServer.cpp`: the
  constructors, `ApiServer::start`, `stop`, `begin_accept`, `handle_accept`, the handler it
  gives a session, `ApiConnection::disconnect`).

  The server waits for one connection at a time; the session it is for exists before it is
  accepted, with the next id. An accepted session is in `m_sessions`, which owns it: when it
  disconnects, the handler looks its id up and erases it, and with that the object is gone.
  Operations that are still under way on it then have a dangling pointer, as in
  `Api.Session`, so `conns` keeps what was destroyed. The sessions share the node, which
  also changes by itself.

  `m_sessions` holds the sessions that are not destroyed, in the order in which they were
  accepted, under ids that grow; a handler that disconnects finds its own session there and
  no other (`sessions_owned`).
-/

import CoreMiner.Api.Access
import CoreMiner.Lib.Past

namespace CoreMiner.Api

open DevCore EthCore Lib Prog
open Stratum (trim)

structure Server where
  node : Node
  config : Config
  portnumber : UInt16
  running : Bool := false
  lastSessionId : Nat := 0
  /-- The id of the session that waits for a connection. -/
  accepting : Option Nat := none
  /-- Every session that was accepted, in order, also if it is destroyed by now. -/
  conns : List (Nat × St) := []
  /-- `m_sessions`, by id. -/
  sessions : List Nat := []
  crashed : Option Stop := none

namespace Server

/-- The constructor: a negative port number is for read-only sessions. -/
def new (portnum : Int) (password : String) (node : Node) : Server where
  node
  config := { readonly := decide (portnum < 0), password }
  portnumber := .ofNat portnum.natAbs

/-- The ids are `int`s: the one behind the last of them is undefined. -/
def beginAccept (s : Server) : Server :=
  if s.running then
    if s.lastSessionId + 1 < 2 ^ 31 then
      { s with lastSessionId := s.lastSessionId + 1, accepting := some (s.lastSessionId + 1) }
    else { s with crashed := some .undefined }
  else s

/-- `bound`: the port could be bound. -/
def start (s : Server) (bound : Bool) : Server :=
  if s.portnumber = 0 then s
  else if bound then { s with running := true }.beginAccept
  else s

def stop (s : Server) : Server :=
  if s.running then { s with
    running := false
    accepting := none
    conns := s.conns.map fun c => (c.1, { c.2 with isOpen := false })
    sessions := [] }
  else s

def accept (s : Server) (id : Nat) : Server :=
  { s with conns := s.conns ++ [(id, St.init s.config s.node)], sessions := s.sessions ++ [id] }

/-- `ec`: the accept failed. `gone`: the peer has left by the time its address is asked for,
    which throws. -/
def handleAccept (s : Server) (id : Nat) (ec gone : Bool) : Server :=
  if ec then { s with accepting := none }.beginAccept
  else if gone then { s.accept id with accepting := none, crashed := some (.exception "remote_endpoint") }
  else { s.accept id with accepting := none }.beginAccept

def update (conns : List (Nat × St)) (id : Nat) (t : St) : List (Nat × St) :=
  conns.map fun c => if c.1 = id then (c.1, t) else c

/-- A handler of the session `id` has led to `t`; one that disconnects erases it. -/
def handled (s : Server) (id : Nat) (r : Except Stop Unit × St) : Server := { s with
  node := r.2.node
  conns := update s.conns id r.2
  sessions := if r.2.isOpen then s.sessions else s.sessions.erase id
  crashed := match r.1 with
    | .ok _ => none
    | .error x => some x }

inductive Ev where
  | start (bound : Bool)
  | accepted (ec gone : Bool)
  | session (id : Nat) (e : Api.Ev)
  | stop
  /-- The farm and the pool manager go on. -/
  | elsewhere (node : Node)

def fire (E : Env) (s : Server) : Ev → Option Server
  | .start bound => if s.running then none else some (s.start bound)
  | .accepted ec gone => s.accepting.map fun id => s.handleAccept id ec gone
  | .session id e =>
    (s.conns.lookup id).map fun c => s.handled id ((Api.step E s.config e).exec { c with node := s.node })
  | .stop => some s.stop
  | .elsewhere node => some { s with node }

def step (E : Env) (s : Server) (e : Ev) : Option Server := if s.crashed.isSome then none else s.fire E e

abbrev Runs (E : Env) (portnum : Int) (password : String) (node : Node) : List (Server × Ev) → Server → Prop :=
  Traced (step E) (· = new portnum password node) fun _ _ => True

/-! ## Who owns the sessions -/

variable {E : Env} {C : Config} {s t : Server} {id : Nat} {e : Ev} {conns : List (Nat × St)}

theorem update_map_fst (conns : List (Nat × St)) (id : Nat) (t : St) :
    (update conns id t).map Prod.fst = conns.map Prod.fst := by
  rw [update, List.map_map]
  refine List.map_congr_left fun c _ => ?_
  show (if c.1 = id then (c.1, t) else c).1 = c.1
  split <;> rfl

def live (conns : List (Nat × St)) : List Nat := (conns.filter (·.2.isOpen)).map Prod.fst

/-- A handler that closes its session takes it off the list, and no other. -/
theorem live_update {c t : St} (hids : (conns.map Prod.fst).Nodup) (hc : (id, c) ∈ conns)
    (ht : c.isOpen = false → t.isOpen = false) :
    live (update conns id t) = if t.isOpen then live conns else (live conns).erase id := by
  have hfilter : live (update conns id t)
      = (conns.filter fun d => if d.1 = id then t.isOpen else d.2.isOpen).map Prod.fst := by
    rw [live, update, List.filter_map, List.map_map]
    congr 1
    · funext d
      show (if d.1 = id then (d.1, t) else d).1 = d.1
      split <;> rfl
    · congr 1
      funext d
      show (if d.1 = id then (d.1, t) else d).2.isOpen = _
      split <;> rfl
  rw [hfilter]
  cases hopen : t.isOpen with
  | true =>
    refine congrArg _ (List.filter_congr fun d hd => ?_)
    by_cases hid : d.1 = id
    · have hsame : d = (id, c) := List.inj_on_of_nodup_map hids hd hc hid
      rw [if_pos hid, hsame]
      exact (Bool.eq_true_of_not_eq_false fun hclosed => by cases (ht hclosed).symm.trans hopen).symm
    · rw [if_neg hid]
  | false =>
    have hlive : (live conns).Nodup := hids.sublist (List.filter_sublist.map Prod.fst)
    rw [if_neg Bool.false_ne_true, hlive.erase_eq_filter, live, List.filter_map, List.filter_filter]
    refine congrArg _ (List.filter_congr fun d _ => ?_)
    by_cases hid : d.1 = id <;> simp [hid]

/-- A session that was destroyed stays so: its handlers stop at once, or have nothing to do. -/
theorem step_closed {x : Api.Ev} {c : St} (hc : c.isOpen = false) : ((Api.step E C x).exec c).2.isOpen = false := by
  cases x with
  | received m data =>
    rw [Api.step, exec_bind_ok (exec_get c)]
    unfold Prog.when
    split
    · rw [exec_bind, alive_exec, hc]
      exact hc
    · exact hc
  | sent i ec =>
    rw [Api.step, exec_bind_ok (exec_get c)]
    cases c.writes[i]? with
    | none => exact hc
    | some w =>
      show ((alive >>= _).exec c).2.isOpen = false
      rw [exec_bind, alive_exec, hc]
      exact hc

structure Owned (s : Server) : Prop where
  sessions : s.sessions = live s.conns
  increasing : (s.conns.map Prod.fst).Pairwise (· < ·)
  bounded : s.lastSessionId < 2 ^ 31
  below : ∀ i ∈ s.conns.map Prod.fst, i ≤ s.lastSessionId
  waiting : ∀ id, s.accepting = some id → id ≤ s.lastSessionId ∧ ∀ i ∈ s.conns.map Prod.fst, i < id

theorem Owned.beginAccept (h : Owned s) : Owned s.beginAccept := by
  unfold Server.beginAccept
  split
  · split
    · rename_i hbound
      refine { h with bounded := hbound, below := fun i hi => Nat.le_succ_of_le (h.below i hi), waiting := ?_ }
      intro id hid
      cases hid
      exact ⟨Nat.le_refl _, fun i hi => Nat.lt_succ_of_le (h.below i hi)⟩
    · exact { h with }
  · exact h

theorem Owned.accept (h : Owned s) (hid : s.accepting = some id) : Owned { s.accept id with accepting := none } := by
  obtain ⟨hle, hlt⟩ := h.waiting id hid
  have hids : (s.accept id).conns.map Prod.fst = s.conns.map Prod.fst ++ [id] := List.map_append
  refine ⟨?_, ?_, h.bounded, ?_, fun _ hnone => by cases hnone⟩
  · show s.sessions ++ [id] = _
    rw [h.sessions, Server.accept, live, live]
    simp [St.init]
  · show ((s.accept id).conns.map Prod.fst).Pairwise (· < ·)
    rw [hids, List.pairwise_append]
    refine ⟨h.increasing, List.pairwise_singleton .., fun a ha b hb => ?_⟩
    rw [List.mem_singleton.mp hb]
    exact hlt a ha
  · show ∀ i ∈ (s.accept id).conns.map Prod.fst, i ≤ s.lastSessionId
    rw [hids]
    intro i hi
    rcases List.mem_append.mp hi with hi | hi
    · exact h.below i hi
    · rw [List.mem_singleton.mp hi]
      exact hle

theorem Owned.nodup (h : Owned s) : (s.conns.map Prod.fst).Nodup := h.increasing.imp fun hlt => hlt.ne

theorem Owned.handled {c : St} {r : Except Stop Unit × St} (h : Owned s) (hc : (id, c) ∈ s.conns)
    (hr : c.isOpen = false → r.2.isOpen = false) : Owned (s.handled id r) := by
  have hids : (s.handled id r).conns.map Prod.fst = s.conns.map Prod.fst := update_map_fst s.conns id r.2
  refine ⟨?_, hids ▸ h.increasing, h.bounded, hids ▸ h.below, hids ▸ h.waiting⟩
  show (if r.2.isOpen then s.sessions else s.sessions.erase id) = live (update s.conns id r.2)
  rw [live_update h.nodup hc hr, h.sessions]

theorem Owned.stop (h : Owned s) : Owned s.stop := by
  unfold Server.stop
  split
  · have hids : (s.conns.map fun c => (c.1, { c.2 with isOpen := false })).map Prod.fst = s.conns.map Prod.fst := by
      rw [List.map_map]
      rfl
    refine ⟨?_, hids ▸ h.increasing, h.bounded, hids ▸ h.below, fun _ hnone => by cases hnone⟩
    show [] = live (s.conns.map _)
    rw [live, List.filter_eq_nil_iff.mpr fun c hc => ?_]
    · rfl
    · obtain ⟨d, -, rfl⟩ := List.mem_map.mp hc
      exact Bool.false_ne_true
  · exact h

theorem mem_of_lookup {c : St} (h : conns.lookup id = some c) : (id, c) ∈ conns := by
  obtain ⟨l₁, l₂, heq, -⟩ := List.lookup_eq_some_iff.mp h
  rw [heq]
  exact List.mem_append_right _ List.mem_cons_self

inductive Stepped (E : Env) (s : Server) : Ev → Server → Prop
  | start {bound : Bool} (h : s.running = false) : Stepped E s (.start bound) (s.start bound)
  | accepted {ec gone : Bool} {id : Nat} (h : s.accepting = some id) :
    Stepped E s (.accepted ec gone) (s.handleAccept id ec gone)
  | session {id : Nat} {x : Api.Ev} {c : St} (h : s.conns.lookup id = some c) :
    Stepped E s (.session id x) (s.handled id ((Api.step E s.config x).exec { c with node := s.node }))
  | stop : Stepped E s .stop s.stop
  | elsewhere {node : Node} : Stepped E s (.elsewhere node) { s with node }

theorem stepped_of_step (h : step E s e = some t) : s.crashed = none ∧ Stepped E s e t := by
  unfold step at h
  split at h
  · cases h
  · rename_i hcrashed
    refine ⟨Option.not_isSome_iff_eq_none.mp hcrashed, ?_⟩
    cases e with
    | start bound =>
      simp only [fire] at h
      split at h
      · cases h
      · cases h
        exact .start (Bool.eq_false_of_not_eq_true ‹_›)
    | accepted ec gone =>
      obtain ⟨id, hid, rfl⟩ := Option.map_eq_some_iff.mp h
      exact .accepted hid
    | session id x =>
      obtain ⟨c, hc, rfl⟩ := Option.map_eq_some_iff.mp h
      exact .session hc
    | stop =>
      cases h
      exact .stop
    | elsewhere node =>
      cases h
      exact .elsewhere

theorem Owned.stepped (h : Owned s) (hs : Stepped E s e t) : Owned t := by
  cases hs with
  | start _ =>
    unfold Server.start
    split
    · exact h
    · split
      · exact Owned.beginAccept (s := { s with running := true }) { h with }
      · exact h
  | @accepted ec gone id hid =>
    unfold Server.handleAccept
    split
    · exact Owned.beginAccept (s := { s with accepting := none }) { h with waiting := fun _ hnone => by cases hnone }
    · split
      · exact { h.accept hid with }
      · exact (h.accept hid).beginAccept
  | session hc => exact h.handled (mem_of_lookup hc) fun hclosed => step_closed hclosed
  | stop => exact h.stop
  | elsewhere => exact { h with }

/-- A line that says so is the authorization with the right password, any other is a shuffle. -/
def sampleEnv : Env := { plainEnv with
  parse := fun line => .ok (.ok (if line = "login".toList then login else request "miner_shuffle" []))
  writeString := fun _ => ['-'] }

/-- Two connections are accepted; the first of them sends the password, the second does not. -/
def sampleTrace : List Ev := [.start true, .accepted false false, .accepted false false,
  .session 1 (.received plainMoment (some "login\n".toList)),
  .session 2 (.received plainMoment (some "shuffle\n".toList))]

def sampleShuffle : Api.Ev := .received { plainMoment with random := 7 } (some "shuffle\n".toList)

section runs

variable {portnum : Int} {password : String} {node : Node} {past : List (Server × Ev)}

theorem owned_of_run (h : Runs E portnum password node past s) : Owned s := by
  refine Traced.invariant (fun s hs => ?_) (fun s e t hs _ hstep => hs.stepped (stepped_of_step hstep).2) h
  rw [hs]
  exact ⟨rfl, List.Pairwise.nil, Nat.two_pow_pos 31, fun i hi => (by cases hi), fun _ hid => by cases hid⟩

/-- The sessions in `m_sessions` are those that are not destroyed, under ids that no other session has
    or will have, and a handler affects its own entry only. -/
theorem sessions_owned (h : Runs E portnum password node past s) :
    s.sessions = live s.conns ∧ (s.conns.map Prod.fst).Pairwise (· < ·) ∧
    (∀ i ∈ s.conns.map Prod.fst, i < 2 ^ 31) ∧
    (∀ id, s.accepting = some id → ∀ i ∈ s.conns.map Prod.fst, i < id) ∧
    ∀ id x t, step E s (.session id x) = some t → ∀ other, other ≠ id → (other ∈ t.sessions ↔ other ∈ s.sessions) := by
  have howned := owned_of_run h
  refine ⟨howned.sessions, howned.increasing, fun i hi => (howned.below i hi).trans_lt howned.bounded,
    fun id hid => (howned.waiting id hid).2, fun id x t hstep other hne => ?_⟩
  generalize he : Ev.session id x = e at hstep
  cases (stepped_of_step hstep).2 with
  | session _ =>
    cases he
    show other ∈ (if _ then s.sessions else s.sessions.erase id) ↔ _
    split
    · exact Iff.rfl
    · exact List.mem_erase_of_ne hne
  | _ => cases he

/-- One of two sessions has left. -/
theorem second_session_owned : ∃ past s, Runs sampleEnv 3333 "secret" (plainNode 0) past s ∧ s.sessions = [2] ∧
    s.sessions = live s.conns := by
  obtain ⟨past, s, hrun, hsessions⟩ := traced_of_record (step sampleEnv) (fun _ _ => true)
    (I := (· = new 3333 "secret" (plainNode 0))) rfl (sampleTrace ++ [.session 1 (.received plainMoment none)])
    (P := fun _ s => s.sessions = [2]) (by decide +kernel)
  have hruns := hrun.mono (D := fun _ _ => True) fun _ _ _ => trivial
  exact ⟨past, s, hruns, hsessions, (sessions_owned hruns).1⟩

end runs

end Server

end CoreMiner.Api
