/-
  CoreMiner.Pools.ValidShares — a share on its way from the pool's job to the pool
  (`PoolManager.cpp`, `Farm.cpp`: `submitProof`, `submitProofAsync`; `CPUMiner.cpp`: `search`;
  `XcbStratumClient.cpp`: `submitSolution`).

  In `Pools.System` a miner's thread may find anything. Here what it finds is what
  `CPUMiner::search` submits for the package the thread has fetched, however often that search
  was interrupted (`Mined`). Then a solution that is passed to the client is for a job some
  pool has sent, and its hash is within the boundary of that job: between the client's report
  and the submission there are the manager, which adds an epoch, the farm, which gives out
  start nonces, a package that may be replaced while it is searched, and a queue of tasks
  (`shares_valid`). The client sends one request for it, or nothing.
-/

import CoreMiner.EthashCpu.Search
import CoreMiner.Pools.Sessions

namespace CoreMiner.Pools

open DevCore EthCore EthashCpu Lib Prog Stratum

variable {E : Env} {S : Settings} {p q : Pool} {e : Ev} {hash : Hash} {w : WorkPackage} {log new : List Out}
  {past : List (Pool × Ev)}

/-! ## What a search submits -/

theorem mem_scan {n endNonce : UInt64} {index : Nat} {x : Solution} (h : x ∈ scan hash w index n endNonce) :
    Hit hash w x.nonce ∧ x = solution hash w index x.nonce := by
  fun_induction scan with
  | case1 n _ ih =>
    rw [tryNonce_eq, List.mem_append] at h
    rcases h with h | h
    · split at h
      case isTrue hhit =>
        cases List.mem_singleton.mp h
        exact ⟨hhit, rfl⟩
      case isFalse => cases h
    · exact ih h
  | case2 => cases h

theorem mem_searchFrom {glances : List Glance} {index : Nat} {s : Searching} {x : Solution}
    (hs : ∀ x ∈ s.submitted, Hit hash w x.nonce ∧ x = solution hash w index x.nonce)
    (h : x ∈ (searchFrom hash w index glances s).submitted) :
    Hit hash w x.nonce ∧ x = solution hash w index x.nonce := by
  induction glances generalizing s with
  | nil => exact hs x h
  | cons glance rest ih =>
    cases glance with
    | newWork => exact hs x h
    | stop => exact hs x h
    | neither =>
      refine ih (fun y hy => ?_) h
      rcases List.mem_append.mp hy with hy | hy
      · exact hs y hy
      · exact mem_scan hy

/-- The search submits solutions only, and says of each what it is. -/
theorem mem_search {glances : List Glance} {index : Nat} {x : Solution}
    (h : x ∈ (search (some hash) w index glances).submitted) :
    Hit hash w x.nonce ∧ x = solution hash w index x.nonce :=
  mem_searchFrom (s := { nonce := w.startNonce }) (fun y hy => by cases hy) h

/-! ## Steps -/

def Queued (p : Pool) (x : Solution) : Prop := ∃ y ∈ p.tasks, y.2 = .submitProofAsync x

/-- What a step can do to the log, to what is searched and to the solutions that wait. -/
structure Evolves (p : Pool) (e : Ev) (q : Pool) : Prop where
  log : ∃ new, q.st.log = new ++ p.st.log
  searching : ∀ y ∈ q.searching, y ∈ p.searching ∨
    ∃ x ∈ p.farm.miners, x.work.header ≠ .zero 32 ∧ y.2 = x.work
  queued : ∀ x, Queued q x → Queued p x ∨
    e = .found x.midx x.nonce x.mixHash ∧ p.searching.lookup x.midx = some x.work

theorem Evolves.of_kept (hlog : ∃ new, q.st.log = new ++ p.st.log) (hs : q.searching = p.searching)
    (ht : ∀ y ∈ q.tasks, ∃ z ∈ p.tasks, z.2 = y.2) : Evolves p e q where
  log := hlog
  searching y hy := .inl (hs ▸ hy)
  queued x hx := by
    obtain ⟨y, hy, hx⟩ := hx
    obtain ⟨z, hz, hsame⟩ := ht y hy
    exact .inl ⟨z, hz, hsame.trans hx⟩

theorem evolves_of_acted (hinv : Inv p) (ha : Acted E S p e q) : Evolves p e q := by
  have hsame : ∀ y ∈ p.tasks, ∃ z ∈ p.tasks, z.2 = y.2 := fun y hy => ⟨y, hy, rfl⟩
  have hpassed : ∀ renews, ∀ y ∈ (p.passed renews).tasks, ∃ z ∈ p.tasks, z.2 = y.2 := by
    intro renews y hy
    obtain ⟨z, hz, rfl⟩ := List.mem_map.mp hy
    exact ⟨z, hz, rfl⟩
  have htaken : ∀ y ∈ p.tasks.eraseP Pool.due, ∃ z ∈ p.tasks, z.2 = y.2 := fun y hy =>
    ⟨y, List.mem_of_mem_eraseP hy, rfl⟩
  cases ha with
  | handler hnext hk ht =>
    have hlog := log_of_seen (ht.seen (by simp [Stratum.Ev.rotates, hnext.queue, hk]))
    exact .of_kept hlog rfl (hpassed false)
  | skip _ _ => exact .of_kept ⟨[], rfl⟩ rfl (hpassed false)
  | exits _ _ _ => exact .of_kept ⟨[], rfl⟩ rfl (hpassed false)
  | attempts _ hc _ => exact .of_kept ⟨[_], (rebound_of_rotate (by exact hc)).log⟩ rfl (hpassed true)
  | fails hnext hm => exact absurd hm (hinv.rotateConnect_ne_none hnext)
  | failover _ _ ht => exact .of_kept (log_of_seen (ht.seen rfl)) rfl htaken
  | idle _ _ => exact .of_kept ⟨[], rfl⟩ rfl htaken
  | submits _ ht => exact .of_kept (log_of_seen (ht.seen rfl)) rfl htaken
  | completes he ht => exact .of_kept (log_of_seen (.inl (ht.completion_hushed he).told)) rfl hsame
  | failoverExpires _ =>
    refine ⟨⟨[], rfl⟩, fun y hy => .inl hy, fun x hx => ?_⟩
    obtain ⟨y, hy, hx⟩ := hx
    rcases List.mem_append.mp hy with hy | hy
    · exact .inl ⟨y, hy, hx⟩
    · rw [List.mem_singleton.mp hy] at hx
      cases hx
  | selects _ _ _ ht => exact .of_kept (log_of_seen (ht.seen rfl)) rfl hsame
  | stops _ ht =>
    have hlog := log_of_seen (ht.seen rfl)
    exact .of_kept hlog rfl hsame
  | hashrate ht => exact .of_kept (log_of_seen (ht.seen rfl)) rfl hsame
  | @fetch miner m hm hwork =>
    refine ⟨⟨[], rfl⟩, fun y hy => ?_, fun x hx => .inl hx⟩
    rcases List.mem_cons.mp hy with rfl | hy
    · exact .inr ⟨m, List.mem_of_getElem? hm, hwork, rfl⟩
    · exact .inl (List.mem_of_mem_filter hy)
  | @found miner nonce mixHash work hwork =>
    refine ⟨⟨[], rfl⟩, fun y hy => .inl hy, fun x hx => ?_⟩
    obtain ⟨y, hy, hx⟩ := hx
    rcases List.mem_append.mp hy with hy | hy
    · exact .inl ⟨y, hy, hx⟩
    · rw [List.mem_singleton.mp hy] at hx
      cases hx
      exact .inr ⟨rfl, hwork⟩
  | leave => exact ⟨⟨[], rfl⟩, fun y hy => .inl (List.mem_of_mem_filter hy), fun x hx => .inl hx⟩
  | _ => exact .of_kept ⟨[], rfl⟩ rfl hsame

/-! ## Runs -/

/-- What a thread finds is what the search submits, for the package it has fetched. -/
def Mined (hash : Hash) (p : Pool) (e : Ev) : Prop :=
  ∀ miner nonce mixHash, e = .found miner nonce mixHash → ∀ work, p.searching.lookup miner = some work →
    ∃ glances, { nonce, mixHash, work, midx := miner } ∈ (search (some hash) work miner glances).submitted

def Received (log : List Out) (w : WorkPackage) : Prop := ∃ wp, .onWorkReceived wp ∈ log ∧ SameJob wp w

theorem mem_of_job {miners : Nat} {wp : WorkPackage} (h : job miners log = some wp) : .onWorkReceived wp ∈ log := by
  induction log with
  | nil => cases h
  | cons o log ih =>
    cases o with
    | onDisconnected => cases h
    | onWorkReceived wp' =>
      unfold job at h
      split at h
      · cases h
        exact List.mem_cons_self
      · exact List.mem_cons_of_mem _ (ih h)
    | _ => exact List.mem_cons_of_mem _ (ih h)

theorem Received.append (h : Received log w) (new : List Out) : Received (new ++ log) w :=
  h.imp fun _ hwp => ⟨List.mem_append_right _ hwp.1, hwp.2⟩

structure Honest (hash : Hash) (p : Pool) : Prop where
  searching : ∀ y ∈ p.searching, Received p.st.log y.2
  queued : ∀ x, Queued p x → Received p.st.log x.work ∧ Hit hash x.work x.nonce ∧
    x = solution hash x.work x.midx x.nonce

theorem Honest.evolves (h : Honest hash p) (hf : Follows p.farm p.st.log) (hm : Mined hash p e)
    (he : Evolves p e q) : Honest hash q := by
  obtain ⟨new, hlog⟩ := he.log
  constructor
  · intro y hy
    rw [hlog]
    rcases he.searching y hy with hy | ⟨x, hx, hwork, hsame⟩
    · exact (h.searching y hy).append new
    · obtain ⟨wp, hjob, hwp⟩ := (hf.held x hx).resolve_left hwork
      rw [hsame]
      exact Received.append ⟨wp, mem_of_job hjob, hwp⟩ new
  · intro x hx
    rw [hlog]
    rcases he.queued x hx with hx | ⟨hfound, hwork⟩
    · obtain ⟨hreceived, hvalid⟩ := h.queued x hx
      exact ⟨hreceived.append new, hvalid⟩
    · obtain ⟨l₁, l₂, hsearching, -⟩ := List.lookup_eq_some_iff.mp hwork
      have hreceived := h.searching (x.midx, x.work) (by simp [hsearching])
      obtain ⟨glances, hsubmitted⟩ := hm _ _ _ hfound _ hwork
      exact ⟨hreceived.append new, mem_search hsubmitted⟩

theorem honest_of_run (h : Run E S (Mined hash) past p) : Honest hash p := by
  induction h with
  | start hs =>
    obtain ⟨devices, ergodicity, random, -, -⟩ := hs
    exact ⟨fun y hy => (by cases hy), fun x hx => (by obtain ⟨y, hy, -⟩ := hx; cases hy)⟩
  | step e hrun hC hstep ih =>
    exact ih.evolves (inStep_of_run hrun).follows hC (evolves_of_acted (inv_of_run hrun) (acted_of_step hstep).2)

/-! ## The request -/

def Requests (E : Env) (x : Solution) (s t : St) : Prop :=
  t.sent = s.sent ∨ ∃ a session jReq, s.conn = some a ∧ s.session = some session ∧ session.authorized = true ∧
    submitRequest (s.uris a) session.workerId x = .ok jReq ∧ t.sent = s.sent ++ [E.writeString jReq]

theorem sendSocketData_requests (s : St) :
    wp sendSocketData (fun _ t => t.sent = s.sent) (fun _ t => t.sent = s.sent) s := by
  rw [wp_sendSocketData]
  split
  · rfl
  · cases s.conn with
    | none => rfl
    | some a =>
      dsimp only
      split <;> rfl

theorem send_requests {s : St} (jReq : Json) :
    wp (send E jReq) (fun _ t => t.sent = s.sent ++ [E.writeString jReq])
      (fun _ t => t.sent = s.sent ++ [E.writeString jReq]) s := by
  rw [wp_send]
  split
  · rfl
  · exact sendSocketData_requests { s.queued (E.writeString jReq) with txPending := true }

theorem submitSolution_requests (x : Solution) (s : St) :
    wp (submitSolution E x) (fun _ t => Requests E x s t) (fun _ t => Requests E x s t) s := by
  rw [submitSolution, wp_bind, wp_get]
  cases hsession : s.session with
  | none => exact .inl rfl
  | some session =>
    rw [wp_when]
    split
    · rename_i hauthorized
      rw [wp_bind, wp_modify, wp_bind, wp_getConn]
      dsimp only
      cases hconn : s.conn with
      | none => exact .inl rfl
      | some a =>
        show wp (raise (submitRequest (s.uris a) session.workerId x) >>= _) _ _ _
        rw [wp_bind, wp_raise]
        cases hreq : submitRequest (s.uris a) session.workerId x with
        | error _ => exact .inl rfl
        | ok jReq =>
          show wp (enqueueResponsePlea >>= fun _ => send E jReq) _ _ _
          rw [wp_bind, enqueueResponsePlea, wp_modify]
          have hsent : ∀ t : St, t.sent = s.sent ++ [E.writeString jReq] → Requests E x s t := fun t ht =>
            .inr ⟨a, session, jReq, hconn, hsession, hauthorized, hreq, ht⟩
          exact wp_mono (send_requests jReq) (fun _ t ht => hsent t ht) fun _ t ht => hsent t ht
    · exact .inl rfl

/-- Every solution that is passed to the client is for a job that was received, and is within its
    boundary; what is sent is the request for it, in an authorized session, or nothing. -/
theorem shares_valid {x : Solution} (h : Run E S (Mined hash) past p) (he : e.submits S p = some x) :
    (∃ wp, .onWorkReceived wp ∈ p.st.log ∧ SameJob wp x.work ∧
      (finalHash hash wp.header x.nonce).value ≤ wp.boundary.value) ∧
    (S.noEval = true → x.mixHash = finalHash hash x.work.header x.nonce) ∧
    (S.noEval = false → S.eval x.work x.nonce = some x.mixHash) ∧
    ∀ q, step E S p e = some q → Requests E x p.st q.st := by
  obtain ⟨random, n, found, rfl, hdue, hc, hx⟩ := submits_cases he
  obtain ⟨hreceived, hhit, hfound⟩ := (honest_of_run h).queued found ⟨_, List.mem_of_find?_eq_some hdue, rfl⟩
  have hwork : x.work = found.work ∧ x.nonce = found.nonce := by
    rcases hx with ⟨-, rfl⟩ | ⟨-, mixHash, -, rfl⟩ <;> exact ⟨rfl, rfl⟩
  obtain ⟨hwork, hnonce⟩ := hwork
  refine ⟨?_, ?_, ?_, fun q hstep => ?_⟩
  · obtain ⟨wp, hwp, startNonce, epoch, hsame⟩ := hreceived
    refine ⟨wp, hwp, ⟨startNonce, epoch, hwork.trans hsame⟩, ?_⟩
    rw [hsame] at hhit
    rw [hnonce]
    exact hhit
  · intro hnoEval
    rcases hx with ⟨-, rfl⟩ | ⟨hno, -⟩
    · exact congrArg Solution.mixHash hfound
    · cases hno.symm.trans hnoEval
  · intro hnoEval
    rcases hx with ⟨hno, -⟩ | ⟨-, mixHash, heval, rfl⟩
    · cases hno.symm.trans hnoEval
    · exact heval
  · have hact := act_of_step hstep
    rw [act_submits he] at hact
    obtain ⟨t, ht, rfl⟩ := client_cases hact
    cases ht with
    | submitSolution _ =>
      exact call_of_wp (wp_mono (submitSolution_requests x p.st) (fun _ _ h => h) fun _ _ h => h)

def easyHash : Hash := fun _ => .zero 32

/-- With it the first nonce of a search from 0 on is submitted. -/
theorem easy_first (index : Nat) (hw : w.startNonce = 0) :
    { nonce := 0, mixHash := .zero 32, work := w, midx := index } ∈
      (search (some easyHash) w index [.neither]).submitted := by
  have hhit : Hit easyHash w 0 := Nat.zero_le _
  show _ ∈ [] ++ scan easyHash w index w.startNonce (w.startNonce + blocksize)
  rw [hw, scan, if_pos (by decide), tryNonce_eq, if_pos hhit]
  exact List.mem_cons_self

def foundFirst (p : Pool) : Ev → Bool
  | .found miner nonce mixHash => decide (nonce = 0 ∧ mixHash = .zero 32) &&
      (p.searching.lookup miner).all fun work => decide (work.startNonce = 0)
  | _ => true

theorem valid_share_of_first_pool : ∃ past p x,
    Run (tableEnv [accepted, proxyJob]) traceSettings (Mined easyHash) past p ∧
    Ev.submits traceSettings p (.run 0) = some x ∧ ∃ wp, .onWorkReceived wp ∈ p.st.log ∧ SameJob wp x.work ∧
      (finalHash easyHash wp.header x.nonce).value ≤ wp.boundary.value := by
  have hmined : ∀ p e, foundFirst p e = true → Mined easyHash p e := by
    rintro p _ h miner nonce mixHash rfl work hwork
    simp only [foundFirst, hwork, Option.all_some, Bool.and_eq_true, decide_eq_true_eq] at h
    obtain ⟨⟨rfl, rfl⟩, hstart⟩ := h
    exact ⟨[.neither], easy_first miner hstart⟩
  obtain ⟨past, p, hrun, hsubmits⟩ := traced_of_record (step (tableEnv [accepted, proxyJob]) traceSettings)
    foundFirst tracePool_started (searchTrace ++ [.found 0 0 (.zero 32)])
    (P := fun _ p => (Ev.submits traceSettings p (.run 0)).isSome = true) (by decide +kernel)
  obtain ⟨x, hx⟩ := Option.isSome_iff_exists.mp hsubmits
  have hhonest := hrun.mono hmined
  exact ⟨past, p, x, hhonest, hx, (shares_valid hhonest hx).1⟩

end CoreMiner.Pools
