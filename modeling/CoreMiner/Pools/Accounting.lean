/-
  CoreMiner.Pools.Accounting — the verdicts on the shares, counted
  (`Farm.cpp`: `submitProof`, `submitProofAsync`, `accountSolution`; `PoolManager.cpp`: the
  handlers of `onSolutionFound`, `onSolutionAccepted`, `onSolutionRejected` and
  `onMinerRestart`; `SimulateClient.cpp`).

  The farm runs with a client of any kind, and the client is replaced at any time. Miners
  find solutions as long as their threads run, which is longer than the farm knows of them;
  the farm starts, stops, restarts and gets work at any time, and what the network does is
  the events' choice.

  The telemetry never shrinks, so the index of a miner that was ever created stays that of an
  entry. A client names only such miners in its verdicts (`Stratum.Fired.credits`,
  `Getwork.Fired.bills`), and every verdict is counted for an entry and for the farm
  (`shares_balance`).
-/

import CoreMiner.EthCore.Telemetry
import CoreMiner.Getwork.Verdicts
import CoreMiner.Stratum.Verdicts

namespace CoreMiner.Pools.Accounting

open DevCore EthCore Lib

/-- The kinds of clients `rotateConnect` builds, with what they are given. -/
inductive Kind where
  | none
  | stratum (uris : Nat → Stratum.Uri)
  | getwork (u : Stratum.Uri) (maxId : Nat)
  | simulate

inductive Client where
  | none
  | stratum (st : Stratum.St)
  | getwork (st : Getwork.St)
  | simulate (connected : Bool)

namespace Client

def isConnected : Client → Bool
  | none => false
  | stratum st => st.started && st.isConnected
  | getwork st => st.connected
  | simulate connected => connected

/-- An exception that leaves a handler ends the program, as does a null pointer. -/
def crashed : Client → Bool
  | none | simulate _ => false
  | stratum st => st.crashed.isSome
  | getwork st => st.crashed.isSome

/-- The state a client is built in; nothing initialises the getwork client's ids. -/
def new : Kind → Client
  | .none => none
  | .stratum uris => stratum (Stratum.init uris)
  | .getwork u maxId => getwork (Getwork.init u maxId)
  | .simulate => simulate false

end Client

def stratumVerdict : Stratum.Out → Option (Nat × SolutionAccountingEnum)
  | .onSolutionAccepted _ miner _ => some (miner, .accepted)
  | .onSolutionRejected _ miner => some (miner, .rejected)
  | _ => none

def getworkVerdict : Getwork.Out → Option (Nat × SolutionAccountingEnum)
  | .onSolutionAccepted _ miner _ => some (miner, .accepted)
  | .onSolutionRejected _ miner => some (miner, .rejected)
  | _ => none

structure Env where
  stratum : Stratum.Env
  getwork : Getwork.Env
  noEval : Bool
  /-- `EthashAux::eval`: the mix, and whether the value is within the boundary. -/
  eval : WorkPackage → UInt64 → H256 × Bool

structure Rig where
  farm : MeteredFarm
  /-- The miners whose threads run, by index. -/
  threads : List Nat := []
  /-- The solutions whose `submitProofAsync` is queued, oldest first. -/
  tasks : List Solution := []
  client : Client := .none
  /-- `accountSolution` has thrown. -/
  thrown : Option StdException := none

inductive Ev where
  | farm (op : Farm.Op)
  | restart
  | exit (miner : Nat)
  | found (miner : Nat) (nonce : UInt64) (mixHash : H256) (work : WorkPackage)
  | submitProofAsync
  | stratum (e : Stratum.Ev)
  | getwork (e : Getwork.Ev)
  | connectSimulation
  | disconnectSimulation
  /-- `p_client` is released, or a new client is built. -/
  | replace (kind : Kind)

namespace Rig

/-- The manager's handlers for verdicts, in the order in which they are called; an exception
    ends the program. -/
def account (r : Rig) (verdicts : List (Nat × SolutionAccountingEnum)) : Rig :=
  verdicts.foldl (fun r v =>
    if r.thrown.isSome then r
    else
      match (accountSolution v.1 v.2).exec r.farm.telemetry with
      | (.ok _, telemetry) => { r with farm := { r.farm with telemetry } }
      | (.error x, telemetry) => { r with farm := { r.farm with telemetry }, thrown := some x }) r

def hearStratum (r : Rig) (s t : Stratum.St) : Rig :=
  { r with client := .stratum t }.account ((t.log.take (t.log.length - s.log.length)).reverse.filterMap stratumVerdict)

def hearGetwork (r : Rig) (s t : Getwork.St) : Rig :=
  { r with client := .getwork t }.account ((t.log.take (t.log.length - s.log.length)).reverse.filterMap getworkVerdict)

section

variable (V : Env)

def simulated (r : Rig) (solution : Solution) : Rig :=
  r.account [(solution.midx, if (V.eval solution.work solution.nonce).2 then .accepted else .rejected)]

/-- The manager's handler for a solution: it is wasted, but not counted, without a client. -/
def onSolutionFound (r : Rig) (solution : Solution) : Option Rig :=
  if r.client.isConnected then
    match r.client with
    | .none => some r
    | .stratum st => (Stratum.fire V.stratum st (.submitSolution solution)).map (r.hearStratum st)
    | .getwork st => (Getwork.fire V.getwork st (.submitSolution solution)).map (r.hearGetwork st)
    | .simulate _ => some (r.simulated V solution)
  else some r

def submitProofAsync (r : Rig) (solution : Solution) : Option Rig :=
  if V.noEval then r.onSolutionFound V solution
  else if (V.eval solution.work solution.nonce).2 then
    r.onSolutionFound V { solution with mixHash := (V.eval solution.work solution.nonce).1 }
  else some (r.account [(solution.midx, .failed)])

end

def operated (r : Rig) (farm : MeteredFarm) : Rig :=
  { r with farm, threads := r.threads ++ farm.miners.map (·.index) }

end Rig

section

variable (V : Env)

def act (r : Rig) : Ev → Option Rig
  | .farm op => (r.farm.apply (.farm op)).map r.operated
  | .restart => (r.farm.apply .restart).map r.operated
  | .exit miner => some { r with threads := r.threads.filter (· ≠ miner) }
  | .found miner nonce mixHash work =>
    if miner ∈ r.threads then some { r with tasks := r.tasks ++ [{ nonce, mixHash, work, midx := miner }] } else none
  | .submitProofAsync =>
    match r.tasks with
    | [] => none
    | solution :: tasks => { r with tasks }.submitProofAsync V solution
  | .stratum e =>
    match r.client with
    | .stratum st => if e.submits = 0 then (Stratum.fire V.stratum st e).map (r.hearStratum st) else none
    | _ => none
  | .getwork e =>
    match r.client with
    | .getwork st => if e.submits = none then (Getwork.fire V.getwork st e).map (r.hearGetwork st) else none
    | _ => none
  | .connectSimulation =>
    match r.client with
    | .simulate _ => some { r with client := .simulate true }
    | _ => none
  | .disconnectSimulation =>
    match r.client with
    | .simulate _ => some { r with client := .simulate false }
    | _ => none
  | .replace kind => some { r with client := .new kind }

def step (r : Rig) (e : Ev) : Option Rig := if r.thrown.isSome || r.client.crashed then none else act V r e

end

inductive Started : Rig → Prop
  | mk (devices : List DeviceSubscriptionTypeEnum) (ergodicity : Nat) (random : UInt64) :
    Started { farm := .init devices ergodicity random }

variable {V : Env} {r q : Rig} {n : Nat}

/-! ## The invariant -/

def Rig.entries (r : Rig) : Nat := r.farm.telemetry.miners.length

/-- The miners that the client can name are of the first `n`. -/
def Client.Names (n : Nat) : Client → Prop
  | .none | .simulate _ => True
  | .stratum st => st.solutionSubmittedMaxId ≤ 39 + n
  | .getwork st => Getwork.Within n st

structure Inv (r : Rig) : Prop where
  balanced : r.farm.telemetry.Balanced
  thrown : r.thrown = none
  miners : ∀ m ∈ r.farm.miners, m.index < r.entries
  threads : ∀ i ∈ r.threads, i < r.entries
  tasks : ∀ solution ∈ r.tasks, solution.midx < r.entries
  client : r.client.Names r.entries

/-- Verdicts on miners that have an entry. -/
theorem account_spec (verdicts : List (Nat × SolutionAccountingEnum)) (hb : r.farm.telemetry.Balanced)
    (ht : r.thrown = none) (hv : ∀ v ∈ verdicts, v.1 < r.entries) :
    ∃ telemetry, r.account verdicts = { r with farm := { r.farm with telemetry } } ∧ telemetry.Balanced ∧
      telemetry.miners.length = r.entries := by
  induction verdicts generalizing r with
  | nil => exact ⟨r.farm.telemetry, rfl, hb, rfl⟩
  | cons v verdicts ih =>
    have hlt := hv v (List.mem_cons_self ..)
    have hlength : (r.farm.telemetry.counted v.1 v.2).miners.length = r.entries := by
      simp [Telemetry.counted, Rig.entries]
    have hfirst : r.account (v :: verdicts) =
        { r with farm := { r.farm with telemetry := r.farm.telemetry.counted v.1 v.2 } }.account verdicts := by
      rw [Rig.account, List.foldl_cons, if_neg (by simp [ht]), exec_accountSolution hlt]
      rfl
    obtain ⟨telemetry, heq, hbal, hlen⟩ := ih (r := { r with farm := { r.farm with
        telemetry := r.farm.telemetry.counted v.1 v.2 } }) (counted_balanced hb hlt v.2) ht
      fun w hw => (hv w (List.mem_cons_of_mem _ hw)).trans_eq hlength.symm
    exact ⟨telemetry, hfirst.trans heq, hbal, hlen.trans hlength⟩

theorem Inv.account (h : Inv r) (verdicts : List (Nat × SolutionAccountingEnum))
    (hv : ∀ v ∈ verdicts, v.1 < r.entries) :
    Inv (r.account verdicts) := by
  obtain ⟨telemetry, heq, hbal, hlen⟩ := account_spec verdicts h.balanced h.thrown hv
  rw [heq]
  have hentries : Rig.entries { r with farm := { r.farm with telemetry } } = r.entries := hlen
  exact ⟨hbal, h.thrown, fun m hm => hentries ▸ h.miners m hm, fun i hi => hentries ▸ h.threads i hi,
    fun x hx => hentries ▸ h.tasks x hx, hentries ▸ h.client⟩

/-! ## The clients -/

theorem news_eq {α : Type} {old new log : List α} (h : log = new ++ old) :
    log.take (log.length - old.length) = new := by
  rw [h, List.length_append, Nat.add_sub_cancel]
  exact List.take_left

theorem Inv.hearStratum {s t : Stratum.St} (h : Inv r) (hc : r.client = .stratum s) {e : Stratum.Ev}
    (he : e.submits ≤ 39 + r.entries) (ht : Stratum.fire V.stratum s e = some t) : Inv (r.hearStratum s t) := by
  obtain ⟨hids, new, hlog, hnew⟩ := (Stratum.fire_cases ht).credits
  have hmax : s.solutionSubmittedMaxId ≤ 39 + r.entries := by
    have := h.client
    rwa [hc] at this
  have hbound : max s.solutionSubmittedMaxId e.submits ≤ 39 + r.entries := Nat.max_le.mpr ⟨hmax, he⟩
  have hclient : Inv { r with client := .stratum t } := { h with client := hids.trans hbound }
  refine hclient.account _ fun v hv => ?_
  rw [news_eq hlog, List.mem_filterMap] at hv
  obtain ⟨o, ho, hv⟩ := hv
  have hon : o.verdictOn = some v.1 := by cases o <;> cases hv <;> rfl
  have := hnew o (List.mem_reverse.mp ho) v.1 hon
  show v.1 < r.entries
  omega

theorem Inv.hearGetwork {s t : Getwork.St} (h : Inv r) (hc : r.client = .getwork s) {e : Getwork.Ev}
    (he : ∀ i, e.submits = some i → i < r.entries) (ht : Getwork.fire V.getwork s e = some t) :
      Inv (r.hearGetwork s t) := by
  have hwithin : Getwork.Within r.entries s := by
    have := h.client
    rwa [hc] at this
  obtain ⟨hwithin', new, hlog, hnew⟩ := (Getwork.fire_cases ht).bills he hwithin
  have hclient : Inv { r with client := .getwork t } := { h with client := hwithin' }
  refine hclient.account _ fun v hv => ?_
  rw [news_eq hlog, List.mem_filterMap] at hv
  obtain ⟨o, ho, hv⟩ := hv
  have hon : Getwork.Out.verdictOn o = some v.1 := by cases o <;> cases hv <;> rfl
  exact hnew o (List.mem_reverse.mp ho) v.1 hon

theorem Inv.onSolutionFound (h : Inv r) {solution : Solution} (hmidx : solution.midx < r.entries)
    (hq : r.onSolutionFound V solution = some q) : Inv q := by
  unfold Rig.onSolutionFound at hq
  split at hq
  · split at hq
    · cases hq
      exact h
    · rename_i st hc
      obtain ⟨t, ht, rfl⟩ := Option.map_eq_some_iff.mp hq
      exact h.hearStratum hc (by simp only [Stratum.Ev.submits]; omega) ht
    · rename_i st hc
      obtain ⟨t, ht, rfl⟩ := Option.map_eq_some_iff.mp hq
      refine h.hearGetwork hc (fun i hi => ?_) ht
      cases hi
      exact hmidx
    · cases hq
      exact h.account _ fun v hv => by rw [List.mem_singleton.mp hv]; exact hmidx
  · cases hq
    exact h

theorem Inv.submitProofAsync (h : Inv r) {solution : Solution} (hmidx : solution.midx < r.entries)
    (hq : r.submitProofAsync V solution = some q) : Inv q := by
  unfold Rig.submitProofAsync at hq
  split at hq
  · exact h.onSolutionFound hmidx hq
  · split at hq
    · refine Inv.onSolutionFound h ?_ hq
      exact hmidx
    · cases hq
      exact h.account _ fun v hv => by rw [List.mem_singleton.mp hv]; exact hmidx

/-! ## Runs -/

theorem Client.Names.mono {c : Client} {m n : Nat} (h : c.Names m) (hmn : m ≤ n) : c.Names n := by
  cases c with
  | none => trivial
  | simulate => trivial
  | stratum st => exact Nat.le_trans h (by omega)
  | getwork st =>
    have hreq : ∀ req : Getwork.Request, req.within m = true → req.within n = true := by
      intro req hreq
      cases req with
      | submitSolution solution =>
        simp only [Getwork.Request.within, decide_eq_true_eq] at hreq ⊢
        omega
      | _ => rfl
    exact ⟨fun req hq => hreq req (h.queue req hq), fun req hp => hreq req (h.pending req hp)⟩

/-- The farm adds entries, and its miners have one each. -/
theorem Inv.operated (h : Inv r) {farm : MeteredFarm} (hg : r.farm.Grows farm) : Inv (r.operated farm) := by
  have hbalanced := hg.balanced h.balanced
  obtain ⟨n, ht, hm⟩ := hg
  have hentries : (r.operated farm).entries = r.entries + n := by
    simp [Rig.entries, Rig.operated, ht]
  have hminers : ∀ m ∈ farm.miners, m.index < (r.operated farm).entries := by
    intro m hmem
    rcases hm m hmem with hlt | ⟨m', hm', heq⟩
    · omega
    · have := h.miners m' hm'
      omega
  refine ⟨hbalanced, h.thrown, hminers, fun i hi => ?_, fun x hx => ?_, h.client.mono (by omega)⟩
  · rcases List.mem_append.mp hi with hi | hi
    · have := h.threads i hi
      omega
    · obtain ⟨m, hmem, rfl⟩ := List.mem_map.mp hi
      exact hminers m hmem
  · have := h.tasks x hx
    omega

theorem new_names (kind : Kind) (n : Nat) : (Client.new kind).Names n := by
  cases kind with
  | none => trivial
  | stratum uris => exact Nat.zero_le _
  | getwork u maxId => exact ⟨by simp [Getwork.init], by simp [Getwork.init]⟩
  | simulate => trivial

theorem act_inv {e : Ev} (h : Inv r) (hq : act V r e = some q) : Inv q := by
  cases e with
  | farm op =>
    obtain ⟨farm, hfarm, rfl⟩ := Option.map_eq_some_iff.mp hq
    exact h.operated (MeteredFarm.apply_grows hfarm)
  | restart =>
    cases hq
    exact h.operated r.farm.restart_grows
  | exit miner =>
    cases hq
    exact { h with threads := fun i hi => h.threads i (List.mem_filter.mp hi).1 }
  | found miner nonce mixHash work =>
    obtain ⟨hmem, ⟨⟩⟩ := Option.ite_none_right_eq_some.mp hq
    refine { h with tasks := fun x hx => ?_ }
    rcases List.mem_append.mp hx with hx | hx
    · exact h.tasks x hx
    · rw [List.mem_singleton.mp hx]
      exact h.threads miner hmem
  | submitProofAsync =>
    simp only [act] at hq
    split at hq
    · cases hq
    · rename_i solution tasks htasks
      have hrest : Inv { r with tasks } := { h with tasks := fun x hx => h.tasks x (by simp [htasks, hx]) }
      exact hrest.submitProofAsync (h.tasks solution (by simp [htasks])) hq
  | stratum e =>
    simp only [act] at hq
    split at hq
    · rename_i st hc
      obtain ⟨hsubmits, hmap⟩ := Option.ite_none_right_eq_some.mp hq
      obtain ⟨t, ht, rfl⟩ := Option.map_eq_some_iff.mp hmap
      exact h.hearStratum hc (by omega) ht
    · cases hq
  | getwork e =>
    simp only [act] at hq
    split at hq
    · rename_i st hc
      obtain ⟨hsubmits, hmap⟩ := Option.ite_none_right_eq_some.mp hq
      obtain ⟨t, ht, rfl⟩ := Option.map_eq_some_iff.mp hmap
      exact h.hearGetwork hc (fun i hi => by simp [hsubmits] at hi) ht
    · cases hq
  | connectSimulation | disconnectSimulation =>
    simp only [act] at hq
    split at hq
    · cases hq
      exact { h with client := trivial }
    · cases hq
  | replace kind =>
    cases hq
    exact { h with client := new_names kind _ }

/-- No verdict is on a miner without an entry, and each counter of the farm is the sum of the
    miners' counters. -/
theorem shares_balance (V : Env) {past : List (Rig × Ev)} {r : Rig}
    (h : Traced (step V) Started (fun _ _ => True) past r) :
    r.thrown = none ∧ ∀ a, r.farm.telemetry.farm.counter a = (r.farm.telemetry.miners.map (·.counter a)).sum := by
  have hinv : Inv r := by
    refine h.invariant ?_ fun r e q ih _ hq => ?_
    · rintro r ⟨devices, ergodicity, random⟩
      exact ⟨fun a => by cases a <;> rfl, rfl, nofun, nofun, nofun, trivial⟩
    · rw [step] at hq
      split at hq
      · cases hq
      · exact act_inv ih hq
  exact ⟨hinv.thrown, hinv.balanced⟩

/-! ## A run -/

def shareEnv : Env where
  stratum := Stratum.tableEnv [("login", .obj [("id", .int 1), ("result", .bool true)]),
    ("share", .obj [("id", .int 40), ("result", .bool true)])]
  getwork := { parse := fun _ => .ok none, writeString := fun _ => "", worktimeout := 180, farmRecheckPeriod := 500 }
  noEval := true
  eval _ _ := (.zero 32, false)

def shareTrace : List Ev :=
  [.farm .start, .replace (.stratum fun _ => Stratum.plainUri Stratum.ETHPROXY)] ++ Stratum.connectTrace.map .stratum ++
    [.stratum (.received "login\n".toList), .stratum (.run none), .found 0 0 (.zero 32) {}, .submitProofAsync,
      .stratum (.received "share\n".toList), .stratum (.run none)]

/-- A share is counted for the farm and for its miner. -/
theorem accepted_share_balances : ∃ past r,
    Traced (step shareEnv) Started (fun _ _ => True) past r ∧ r.farm.telemetry.farm.accepted = 1 ∧ r.thrown = none ∧
      ∀ a, r.farm.telemetry.farm.counter a = (r.farm.telemetry.miners.map (·.counter a)).sum := by
  obtain ⟨past, r, hrun, hr⟩ := traced_of_record (step shareEnv) (I := Started) (fun _ _ => true) (.mk [.cpu] 0 0)
    shareTrace (P := fun _ r => r.farm.telemetry.farm.accepted = 1) (by decide +kernel)
  have hrun' : Traced (step shareEnv) Started (fun _ _ => True) past r := hrun.mono fun _ _ _ => trivial
  exact ⟨past, r, hrun', hr, shares_balance shareEnv hrun'⟩

end CoreMiner.Pools.Accounting
