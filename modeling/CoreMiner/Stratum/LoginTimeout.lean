/-
  CoreMiner.Stratum.LoginTimeout — the answer the client gives itself when a login is not
  answered in time (`XcbStratumClient.cpp`: `workloop_timer_elapsed`, `processResponse` with
  id 1).

  The tick decides on the state it finds, and posts the answer behind everything that is
  queued already. If the pool's own reply is among that, the mode is confirmed when the
  answer is executed, and then the answer reads as a refused login of a confirmed mode: the
  pool is given up for good (`discarded_after_login`). Behind a tick that finds no received
  data and no established connection queued nothing can confirm the mode in between
  (`Undecided`), and the answer only ends the attempt (`timeout_spares_answered`).
-/

import CoreMiner.Stratum.Autodetect

namespace CoreMiner.Stratum

open DevCore EthCore Lib Prog

variable {E : Env} {s t : St} {a : Nat}

def Handler.canConfirm : Handler → Bool
  | onRecvSocketDataCompleted (some _) | connectHandler _ _ => true
  | _ => false

/-- A tick that answers in the pool's place finds nothing queued that could confirm the mode. -/
def answersAlone (E : Env) (s : St) : Ev → Bool
  | .run _ => match s.queue, s.conn with
    | .workloopTimerElapsed false :: queue, some a => !loginOverdue E s a || queue.all fun k => !k.canConfirm
    | _, _ => true
  | _ => true

/-! ## What the handlers queue -/

def Grows (s t : St) : Prop := ∃ new, t.queue = s.queue ++ new ∧ ∀ k ∈ new, k.isAnswer = false

namespace Grows

theorem refl (s : St) : Grows s s := ⟨[], by simp⟩

theorem trans (s t u : St) (h : Grows s t) (h' : Grows t u) : Grows s u := by
  obtain ⟨x, hx, hxa⟩ := h
  obtain ⟨y, hy, hya⟩ := h'
  refine ⟨x ++ y, by rw [hy, hx, List.append_assoc], fun k hk => ?_⟩
  rcases List.mem_append.mp hk with hk | hk
  · exact hxa k hk
  · exact hya k hk

theorem idle (h : Idle s t) : Grows s t := by
  obtain ⟨n, hn⟩ := h.queue
  exact ⟨_, hn, fun k hk => by rw [List.eq_of_mem_replicate hk]; rfl⟩

/-- What was free of answers stays so. -/
theorem all (h : Grows s t) (hs : ∀ k ∈ s.queue, k.isAnswer = false) : ∀ k ∈ t.queue, k.isAnswer = false := by
  obtain ⟨new, hq, hnew⟩ := h
  intro k hk
  rw [hq] at hk
  rcases List.mem_append.mp hk with hk | hk
  · exact hs k hk
  · exact hnew k hk

theorem own (h : Own s t) : Grows s t := by
  obtain ⟨new, hq, hnew⟩ := h.queue
  exact ⟨new, hq, fun k hk => (hnew k hk).1⟩

theorem armed (s : St) (wait : Wait) : Grows s (s.armed wait) := by
  by_cases htimer : s.timer.isSome = true
  · exact ⟨[.workloopTimerElapsed true], if_pos htimer, by simp [Handler.isAnswer]⟩
  · exact ⟨[], by simp [St.armed, htimer], by simp⟩

theorem reported (s : St) : Grows s s.reported := by
  refine (armed s .forever).trans _ _ _ ⟨if s.stopping then [] else [.rotateConnect], rfl, fun k hk => ?_⟩
  split at hk
  · cases hk
  · rw [List.mem_singleton.mp hk]
    rfl

theorem closed (s : St) : Grows s s.closed := own (closed_own s)

theorem released (s : St) (a : Nat) : Grows s (s.released a) := closed s

theorem finalized (s : St) (a : Nat) : Grows s (s.finalized a) := by
  have hreleased := released s a
  unfold St.finalized
  split
  · split
    · exact hreleased.trans _ _ _ ⟨[.startConnect], rfl, by simp [Handler.isAnswer]⟩
    · exact hreleased.trans _ _ _ (reported _)
  · exact hreleased.trans _ _ _ (reported _)

theorem lenient : Lenient Grows where
  refl := refl
  trans := trans
  own _ _ h := own h
  marked s a := ⟨[], by simp [St.updateUri]⟩
  finalized s a _ := finalized s a
  lost s _ := closed s

end Grows

/-- The handler of a connection attempt queues no answer. -/
theorem connectHandler_grows (ec handshakeFails : Bool) : Kept Grows (connectHandler E ec handshakeFails) := by
  refine connectHandler_kept Grows.lenient.reserved ⟨fun s => ?_⟩
  rw [wp_connectEstablished]
  split
  case h_1 => exact ⟨.refl s, trivial⟩
  case h_2 a hc =>
    split
    · exact ⟨[.disconnect], rfl, by simp [Handler.isAnswer]⟩
    · have hgreeting : Grows s ((s.established a).greeting a) :=
          ⟨[], by simp [St.greeting, St.loggingIn, St.established, St.updateUri]⟩
      rw [wp_login (s := s.established a) hc]
      split
      · exact wp_mono ((send_sent _).from_ _) (fun _ t ht => hgreeting.trans _ _ _ (.own ht.own))
          fun _ t ht => ⟨hgreeting.trans _ _ _ (.own ht.1.own), trivial⟩
      · exact ⟨hgreeting, trivial⟩

/-! ## What leaves the mode unconfirmed -/

structure Calmly (s t : St) : Prop where
  conn : t.conn = none ∨ t.conn = s.conn
  confirmed : ∀ a, (t.uris a).stratumModeConfirmed = (s.uris a).stratumModeConfirmed
  grows : Grows s t

namespace Calmly

theorem refl (s : St) : Calmly s s := ⟨.inr rfl, fun _ => rfl, .refl s⟩

theorem trans (s t u : St) (h : Calmly s t) (h' : Calmly t u) : Calmly s u where
  conn := by
    rcases h'.conn with hu | hu
    · exact .inl hu
    · rw [hu]
      exact h.conn
  confirmed a := (h'.confirmed a).trans (h.confirmed a)
  grows := h.grows.trans _ _ _ h'.grows

theorem own (h : Own s t) : Calmly s t := ⟨.inr h.conn, fun a => by rw [h.uris], .own h⟩

/-- An update of a URI that says nothing about its mode. -/
theorem updateUri {f : Uri → Uri} (hf : ∀ u, (f u).stratumModeConfirmed = u.stratumModeConfirmed) :
    Calmly s (s.updateUri a f) := by
  refine ⟨.inr rfl, fun b => ?_, [], by simp [St.updateUri]⟩
  by_cases hb : b = a
  · subst hb
    rw [show (s.updateUri b f).uris b = f (s.uris b) from if_pos rfl, hf]
  · rw [show (s.updateUri a f).uris b = s.uris b from if_neg hb]

theorem reported (s : St) : Calmly s s.reported := ⟨.inl rfl, fun _ => rfl, .reported s⟩

theorem released (s : St) (a : Nat) : Calmly s (s.released a) := by
  have huri : ∀ u : Uri, (s.finalizing.uriReleased u).stratumModeConfirmed = u.stratumModeConfirmed := by
    intro u
    unfold St.uriReleased
    split <;> rfl
  exact ⟨.inr rfl, (updateUri (s := s) (a := a) huri).confirmed, .released s a⟩

theorem finalized (s : St) (a : Nat) : Calmly s (s.finalized a) := by
  have hreleased := released s a
  unfold St.finalized
  split
  · split
    · refine hreleased.trans _ _ _ ⟨.inr rfl, fun b => ?_, [.startConnect], rfl, by simp [Handler.isAnswer]⟩
      exact (updateUri (f := fun u => { u with stratumMode := u.stratumMode - 1 }) fun _ => rfl).confirmed b
    · exact hreleased.trans _ _ _ (.trans _ _ _ (.updateUri (f := Uri.markUnrecoverable) fun _ => rfl) (.reported _))
  · exact hreleased.trans _ _ _ (.reported _)

theorem lenient : Lenient Calmly where
  refl := refl
  trans := trans
  own _ _ h := own h
  marked _ _ := .updateUri fun _ => rfl
  finalized s a _ := finalized s a
  lost s _ := ⟨.inr rfl, fun _ => rfl, .closed s⟩

end Calmly

/-! ## The answer -/

def noLoginHeader : Header where
  rpcVer := 1
  id := 1
  isSuccess := false
  errReason := "true"
  method := ""
  isNotification := false

theorem retrieve_noLoginReply : retrieve noLoginReply = .ok noLoginHeader := rfl

theorem processResponse_noLoginReply : processResponse E noLoginReply = loginReply E noLoginHeader .null := by
  have hwork : asGetWork noLoginHeader noLoginReply = pure noLoginHeader := rfl
  have hvalid : invalid noLoginHeader noLoginReply = .ok false := rfl
  have hresult : noLoginReply.get "result" .null = .ok .null := rfl
  have hreply : reply E noLoginHeader noLoginReply .null = loginReply E noLoginHeader .null := ext_exec fun _ => rfl
  have hresponse : response E noLoginHeader noLoginReply = do
      loginReply E noLoginHeader .null
      return none := by
    rw [response, hresult, ← hreply]
    rfl
  have hhandle : handle E noLoginHeader noLoginReply = loginReply E noLoginHeader .null := by
    rw [handle, hvalid]
    show response E noLoginHeader noLoginReply >>= _ = _
    rw [hresponse, bind_assoc]
    exact bind_pure _
  rw [processResponse, retrieve_noLoginReply]
  show (do let h ← asGetWork noLoginHeader noLoginReply; handle E h noLoginReply) = _
  rw [hwork, pure_bind, hhandle]

/-- Before the mode is confirmed the answer only ends the connection. -/
theorem wp_noLoginReply {Q : Unit → St → Prop} {X : Stop → St → Prop}
    (hc : ∀ a, s.conn = some a → (s.uris a).stratumModeConfirmed = false) :
    wp (processResponse E noLoginReply) Q X s ↔ match s.conn with
      | none => X .nullConn s.dequeued
      | some _ => Q () (s.dequeued.push .disconnect) := by
  rw [processResponse_noLoginReply, wp_loginReply]
  cases hs : s.conn with
  | none => exact Iff.rfl
  | some a =>
    show (if _ then _ else _) ↔ _
    rw [if_pos (by simp [noLoginHeader, hc a hs])]

/-! ## The runs -/

/-- While an answer is queued, the mode is not confirmed, and nothing before it can confirm it. -/
structure Undecided (s : St) : Prop where
  order : s.queue.Pairwise fun h k => h.canConfirm = true → k.isAnswer = false
  answer : ∀ j, .processResponse j ∈ s.queue → j = noLoginReply
  unconfirmed : (∃ k ∈ s.queue, k.isAnswer = true) → ∀ a, s.conn = some a → (s.uris a).stratumModeConfirmed = false

namespace Undecided

theorem of_none (h : ∀ k ∈ s.queue, k.isAnswer = false) : Undecided s where
  order := List.pairwise_of_forall_mem_list fun _ _ k hk _ => h k hk
  answer _ hj := by cases h _ hj
  unconfirmed := fun ⟨k, hk, hanswer⟩ => by simp [h k hk] at hanswer

theorem calm (h : Undecided s) (ht : Calmly s t) : Undecided t := by
  obtain ⟨new, hq, hnew⟩ := ht.grows
  refine ⟨?_, fun j hj => ?_, fun ⟨k, hk, hanswer⟩ a ha => ?_⟩
  · rw [hq, List.pairwise_append]
    exact ⟨h.order, List.pairwise_of_forall_mem_list fun _ _ k hk _ => hnew k hk, fun _ _ k hk _ => hnew k hk⟩
  · rw [hq] at hj
    rcases List.mem_append.mp hj with hj | hj
    · exact h.answer j hj
    · cases hnew _ hj
  · rw [hq] at hk
    rcases List.mem_append.mp hk with hk | hk
    · rw [ht.confirmed]
      rcases ht.conn with hconn | hconn
      · simp [hconn] at ha
      · exact h.unconfirmed ⟨k, hk, hanswer⟩ a (hconn ▸ ha)
    · simp [hnew k hk] at hanswer

theorem tail {k : Handler} {queue : List Handler} (h : Undecided s) (hq : s.queue = k :: queue) :
    Undecided { s with queue } where
  order := by
    have := h.order
    rw [hq] at this
    exact this.of_cons
  answer j hj := h.answer j (hq ▸ List.mem_cons_of_mem k hj)
  unconfirmed := fun ⟨k', hk', hanswer⟩ => h.unconfirmed ⟨k', hq ▸ List.mem_cons_of_mem k hk', hanswer⟩

/-- Behind what can confirm the mode no answer is queued. -/
theorem behind {k : Handler} {queue : List Handler} (h : Undecided s) (hq : s.queue = k :: queue)
    (hk : k.canConfirm = true) : ∀ k' ∈ queue, k'.isAnswer = false := by
  have horder := h.order
  rw [hq, List.pairwise_cons] at horder
  exact fun k' hk' => horder.1 k' hk' hk

/-- A tick that answers in the pool's place. -/
theorem answering (h : Undecided s) (hc : s.conn = some a) (hu : (s.uris a).stratumModeConfirmed = false)
    (halone : ∀ k ∈ s.queue, k.canConfirm = false) : Undecided s.answering := by
  refine ⟨?_, fun j hj => ?_, fun _ b hb => ?_⟩
  · refine List.pairwise_append.mpr ⟨h.order, List.pairwise_singleton _ _, fun k hk _ _ hcan => ?_⟩
    simp [halone k hk] at hcan
  · rcases List.mem_append.mp hj with hj | hj
    · exact h.answer j hj
    · exact Handler.processResponse.inj (List.mem_singleton.mp hj)
  · obtain rfl : a = b := Option.some.inj (hc.symm.trans hb)
    exact hu

end Undecided

theorem Kept.undecided {m : M Unit} (hm : Kept Calmly m) (h : Undecided s) : Undecided (call m s) :=
  call_of_wp (wp_mono (hm.from_ s) (fun _ _ ht => h.calm ht) fun _ _ ht =>
    ⟨(h.calm ht.1).order, (h.calm ht.1).answer, (h.calm ht.1).unconfirmed⟩)

/-- A handler behind which no answer is queued. -/
theorem Kept.clear {m : M Unit} (hm : Kept Grows m) (h : ∀ k ∈ s.queue, k.isAnswer = false) : Undecided (call m s) :=
  call_of_wp (wp_mono (hm.from_ s) (fun _ _ ht => .of_none (ht.all h)) fun _ _ ht => .of_none (ht.1.all h))

theorem timedOut_own (s : St) (rest : List Nat) : Own s (s.timedOut rest) :=
  ⟨rfl, rfl, rfl, rfl, id, Nat.le_refl _, [.disconnect], rfl, by simp [Handler.isAnswer, Handler.ofManager]⟩

/-- The tick answers alone, or leaves the modes alone. -/
theorem tick_undecided (h : Undecided s)
    (halone : ∀ a, s.conn = some a → loginOverdue E s a = true → ∀ k ∈ s.queue, k.canConfirm = false) :
    Undecided (call (workloopTimerElapsed E false) s) := by
  refine call_of_wp ?_
  cases hc : s.conn with
  | none => exact (wp_workloopTimerElapsed_none hc).mpr h
  | some a =>
    refine wp_workloopTimerElapsed_of hc (fun t ht _ => ?_) (fun t ht _ => ?_) fun x t ht => ?_
    · exact (h.calm (.own ht.own)).calm (.own (closed_own t))
    · suffices Undecided t from this.calm ⟨.inr rfl, fun _ => rfl, .armed t _⟩
      obtain ⟨u, hu, hchecked⟩ := ht
      have hsent := h.calm (.own hu.own)
      cases hchecked with
      | on => exact hsent
      | timedOut rest => exact hsent.calm (.own (timedOut_own u rest))
      | answer ho =>
        obtain ⟨_, _, _, _, _, rfl⟩ := hu
        have hover := ho
        simp only [loginOverdue, Bool.and_eq_true, Bool.not_eq_true'] at hover
        exact hsent.answering hc hover.2.1 (halone a hc ho)
    · have := h.calm (.own ht.own)
      exact ⟨this.order, this.answer, this.unconfirmed⟩

theorem rotateConnect_undecided (h : Undecided s) (choice : Option (Nat × Bool)) :
    Undecided (call (rotateConnect choice) s) := by
  refine call_of_wp ?_
  rw [wp_rotateConnect]
  split
  · exact h
  · split
    · exact h
    · rename_i a delayed
      -- The client's handlers vanish with it.
      have hfree : ∀ k ∈ (s.rebound a).queue, k.isAnswer = false := by
        intro k hk
        have hmanager := (List.mem_filter.mp hk).2
        cases k <;> first | rfl | cases hmanager
      split
      · exact .of_none hfree
      · exact wp_mono ((connect_kept Grows.lenient.reserved).from_ _) (fun _ _ ht => .of_none (ht.all hfree))
          fun _ _ ht => .of_none (ht.1.all hfree)

theorem answer_undecided (h : Undecided s)
    (hc : ∀ a, s.conn = some a → (s.uris a).stratumModeConfirmed = false) :
    Undecided (call (processResponse E noLoginReply) s) := by
  refine call_of_wp ((wp_noLoginReply hc).mpr ?_)
  split
  · exact ⟨h.order, h.answer, h.unconfirmed⟩
  · exact h.calm (.own
      ⟨rfl, rfl, rfl, rfl, id, Nat.le_refl _, [.disconnect], rfl, by simp [Handler.isAnswer, Handler.ofManager]⟩)

theorem run_undecided {choice : Option (Nat × Bool)} {k : Handler} {queue : List Handler} (h : Undecided s)
    (hq : s.queue = k :: queue) (halone : answersAlone E s (.run choice) = true) :
    Undecided (call (runHandler E choice k) { s with queue }) := by
  have htail := h.tail hq
  have hcalm := Calmly.lenient
  cases k with
  | startConnect => exact Kept.undecided (startConnect_kept hcalm.reserved) htail
  | disconnect => exact Kept.undecided (disconnect_kept hcalm.reserved) htail
  | disconnectFinalize => exact Kept.undecided (disconnectFinalize_kept hcalm.reserved) htail
  | resolveHandler endpoints => exact Kept.undecided (resolveHandler_kept hcalm.reserved endpoints) htail
  | connectHandler ec handshakeFails => exact Kept.clear (connectHandler_grows ec handshakeFails) (h.behind hq rfl)
  | workloopTimerElapsed aborted =>
    cases aborted with
    | true => exact call_of_wp (wp_workloopTimerElapsed_true.mpr htail)
    | false =>
      refine tick_undecided htail fun a hc ho k hk => ?_
      have hc' : s.conn = some a := hc
      have ho' : loginOverdue E s a = true := ho
      simp only [answersAlone, hq, hc', ho', Bool.not_true, Bool.false_or, List.all_eq_true,
        Bool.not_eq_true'] at halone
      exact halone k hk
  | onRecvSocketDataCompleted data =>
    cases data with
    | none => exact Kept.undecided (readFailed_kept (E := E) hcalm.reserved) htail
    | some rx =>
      have hgrows : Kept Grows (onRecvSocketDataCompleted E (some rx)) := ⟨fun t =>
        wp_mono ((onRecvSocketDataCompleted_rests _).from_ t) (fun _ _ ht => .idle ht)
          fun _ _ ht => ⟨.idle ht.1, trivial⟩⟩
      exact hgrows.clear (h.behind hq rfl)
  | onSendSocketDataCompleted ec => exact Kept.undecided (onSendSocketDataCompleted_kept hcalm.reserved ec) htail
  | onSSLShutdownCompleted => exact Kept.undecided (onSSLShutdownCompleted_kept hcalm.reserved) htail
  | processResponse j =>
    have hmem : .processResponse j ∈ s.queue := hq ▸ List.mem_cons_self
    rw [h.answer j hmem]
    exact answer_undecided htail (h.unconfirmed ⟨_, hmem, rfl⟩)
  | rotateConnect => exact rotateConnect_undecided htail choice
  | reconnectTimerElapsed => exact Kept.undecided (reconnectTimerElapsed_kept hcalm.reserved) htail

theorem Fired.undecided {e : Ev} (hf : Fired E s e t) (h : Undecided s) (halone : answersAlone E s e = true) :
    Undecided t := by
  cases hf with
  | run hq => exact run_undecided h hq halone
  | callDisconnect _ => exact Kept.undecided (disconnect_kept Calmly.lenient.reserved) h
  | stopConnected _ _ =>
    exact Kept.undecided (disconnect_kept Calmly.lenient.reserved) (h.calm ⟨.inr rfl, fun _ => rfl, [], by simp⟩)
  | submitSolution _ =>
    exact Kept.undecided
      (submitSolution_kept Calmly.lenient.reserved _ fun _ => ⟨.inr rfl, fun _ => rfl, [], by simp⟩) h
  | submitHashrate _ => exact Kept.undecided (submitHashrate_kept Calmly.lenient.reserved _ _) h
  | stopUnconnected _ | advance => exact h.calm ⟨.inr rfl, fun _ => rfl, [], by simp⟩
  | _ => exact h.calm ⟨.inr rfl, fun _ => rfl, [_], rfl, by simp [Handler.isAnswer]⟩

theorem undecided_of_run (h : Run E (fun s e => answersAlone E s e = true) s) : Undecided s := by
  refine run_invariant (fun uris _ => ?_) (fun _ _ _ hs _ halone hf => hf.undecided hs halone) h
  exact .of_none (by simp [init, Handler.isAnswer])

/-- Where ticks answer alone, the answer is executed before the pool's own has been, and it
    makes no connection unrecoverable and ends no session. -/
theorem timeout_spares_answered {choice : Option (Nat × Bool)} {j : Json} {queue : List Handler}
    (h : Run E (fun s e => answersAlone E s e = true) s) (hq : s.queue = .processResponse j :: queue)
    (hc : s.conn = some a) (ht : step E s (.run choice) = some t) :
    (s.uris a).stratumModeConfirmed = false ∧ (t.uris a).unrecoverable = (s.uris a).unrecoverable ∧
      t.session = s.session := by
  have hundecided := undecided_of_run h
  have hmem : .processResponse j ∈ s.queue := hq ▸ List.mem_cons_self
  have hconn := hundecided.unconfirmed ⟨_, hmem, rfl⟩
  obtain ⟨-, hf⟩ := fired_of_step ht
  cases hf with
  | @run _ k queue' hq' =>
    obtain ⟨rfl, rfl⟩ := List.cons.inj (hq.symm.trans hq')
    refine ⟨hconn a hc, ?_⟩
    rw [hundecided.answer j hmem]
    refine call_of_wp (m := processResponse E noLoginReply)
      (P := fun t => (t.uris a).unrecoverable = (s.uris a).unrecoverable ∧ t.session = s.session) ?_
    refine (wp_noLoginReply (s := { s with queue }) hconn).mpr ?_
    split
    · exact ⟨rfl, rfl⟩
    · exact ⟨rfl, rfl⟩

def silentTrace : List Ev := connectTrace ++ [.advance 2000000000, .timerExpires, .run none]

theorem isAnswer_head {s : St} (h : s.queue.head?.any Handler.isAnswer = true) :
    ∃ j queue, s.queue = .processResponse j :: queue := by
  cases hq : s.queue with
  | nil => simp [hq] at h
  | cons k queue =>
    simp only [hq, List.head?_cons, Option.any_some] at h
    cases k <;> first | exact ⟨_, _, rfl⟩ | cases h

/-- A pool that stays silent is not given up by the answer. -/
theorem silent_pool_spared : ∃ s t, Run (tableEnv []) (fun s e => answersAlone (tableEnv []) s e = true) s ∧
    s.conn = some 0 ∧ s.queue.head?.any Handler.isAnswer = true ∧ step (tableEnv []) s (.run none) = some t ∧
    (s.uris 0).stratumModeConfirmed = false ∧ (t.uris 0).unrecoverable = (s.uris 0).unrecoverable ∧
    t.session = s.session := by
  obtain ⟨s, hs, hc, hanswer, hstep⟩ := run_of_trace (tableEnv []) (C := answersAlone (tableEnv []))
    (fun _ => plainUri_fresh 999 (.inr rfl)) silentTrace
    (p := fun s => s.conn = some 0 ∧ s.queue.head?.any Handler.isAnswer = true ∧
      (step (tableEnv []) s (.run none)).isSome = true) (by decide +kernel)
  obtain ⟨t, ht⟩ := Option.isSome_iff_exists.mp hstep
  obtain ⟨j, queue, hq⟩ := isAnswer_head hanswer
  exact ⟨s, t, hs, hc, hanswer, ht, timeout_spares_answered hs hq hc ht⟩

def lateReplyTrace : List Ev := refusedTrace ++
  [.run none, .run none, .run none, .connectCompletes false false, .run none, .advance 2000000000, .timerExpires,
    .received (lineOf subscribeReplied), .run none, .run none]

/-- The pool has accepted the login, the session has begun, and the client's own answer to the
    login makes the connection unrecoverable. -/
theorem discarded_after_login : ∃ s t, Reach (tableEnv [refusedLogin, subscribeReplied]) s ∧ s.conn = some 0 ∧
    s.queue.head?.any Handler.isAnswer = true ∧ (s.uris 0).stratumModeConfirmed = true ∧ s.session.isSome = true ∧
    (s.uris 0).unrecoverable = false ∧ step (tableEnv [refusedLogin, subscribeReplied]) s (.run none) = some t ∧
    (t.uris 0).unrecoverable = true := by
  obtain ⟨s, hs, hc, hanswer, hconfirmed, hsession, hrecoverable, hstep⟩ := reach_of_trace
    (tableEnv [refusedLogin, subscribeReplied]) (fun _ => plainUri_fresh 999 (.inr rfl)) lateReplyTrace
    (p := fun s => s.conn = some 0 ∧ s.queue.head?.any Handler.isAnswer = true ∧
      (s.uris 0).stratumModeConfirmed = true ∧ s.session.isSome = true ∧ (s.uris 0).unrecoverable = false ∧
      (step (tableEnv [refusedLogin, subscribeReplied]) s (.run none)).any (fun t => (t.uris 0).unrecoverable) = true)
    (by decide +kernel)
  obtain ⟨t, ht, hunrecoverable⟩ := (Option.any_eq_true _ _).mp hstep
  exact ⟨s, t, hs, hc, hanswer, hconfirmed, hsession, hrecoverable, ht, hunrecoverable⟩

end CoreMiner.Stratum
