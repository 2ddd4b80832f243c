/-
  CoreMiner.Getwork.Moves — what the functions of the getwork client do to its state
  (`XcbGetworkClient.cpp`).

  A `wp` lemma for each of the functions that connect and send, over the states they lead
  to, and the events with what they need (`Fired`). A reply arms the timer, takes a job or
  reports a verdict on the pending request: a relation that holds of these is kept by every
  reply (`Replying`), and all that a reply can change is in `Answered`. With what touches the
  requests or is reported besides (`Working`) it is kept by every event (`Fired.kept`).
-/

import CoreMiner.Getwork.Client

namespace CoreMiner.Getwork

open DevCore EthCore Lib Prog
open Stratum (Stop raise wp_raise Uri)

variable {E : Env} {s t : St}

/-! ## What the functions do -/

section

variable {α : Type} {Q : Unit → St → Prop} {X : Stop → St → Prop}

@[simp] theorem wp_getConn {Q : Uri → St → Prop} : wp getConn Q X s ↔ match s.conn with
    | none => X .nullConn s
    | some u => Q u s := by
  simp only [getConn, wp_bind, wp_get]
  cases s.conn <;> rfl

def St.untimed (s : St) : St := { s with
  queue := if s.timer.isSome then s.queue ++ [.getworkTimerElapsed true] else s.queue
  timer := none }

def St.timed (s : St) (ns : Nat) : St := { s.untimed with timer := some (s.now + ns) }

@[simp] theorem wp_cancelTimer : wp cancelTimer Q X s ↔ Q () s.untimed := Iff.rfl

@[simp] theorem wp_armTimer {ns : Nat} : wp (armTimer ns) Q X s ↔ Q () (s.timed ns) := Iff.rfl

def St.gone (s : St) : St := { s.untimed with
  connected := false
  session := false
  connecting := false
  txPending := false
  txQueue := []
  request := []
  log := .onDisconnected :: s.log
  conn := none }

theorem wp_disconnect : wp disconnect Q X s ↔
    if s.session && s.conn.isNone then X .nullConn { s with connected := false } else Q () s.gone := by
  have hrest : ∀ t : St, t.connected = false → (wp (do
      modify fun s => { s with session := false, connecting := false, txPending := false }
      cancelTimer
      modify fun s => { s with txQueue := [], request := [] }
      emit .onDisconnected
      modify fun s => { s with conn := none }) Q X t ↔ Q () t.gone) := by
    intro t ht
    simp only [emit, wp_bind, wp_modify, wp_cancelTimer, St.gone, St.untimed, ht]
  rw [disconnect, wp_bind, wp_get, wp_bind, wp_modify, wp_bind, wp_when, wp_bind, wp_getConn, hrest _ rfl]
  cases s.session with
  | false => exact Iff.rfl
  | true => cases s.conn <;> simp [emit, St.gone, St.untimed]

def St.dialed (s : St) : St := { s with isOpen := true, connects := s.connects + 1 }

theorem wp_beginConnect : wp beginConnect Q X s ↔
    if s.endpoints.isEmpty then
      if s.conn.isNone then X .nullConn s else Q () s.gone
    else Q () s.dialed := by
  rw [beginConnect, wp_bind, wp_get, wp_ite, wp_bind, wp_getConn]
  split
  · cases hc : s.conn <;> simp [wp_disconnect, hc]
  · exact Iff.rfl

def St.queued (s : St) (req : Request) : St := { s with txQueue := s.txQueue ++ [req] }

theorem wp_send {req : Request} : wp (send req) Q X s ↔
    if s.txPending then Q () (s.queued req) else wp beginConnect Q X { s.queued req with txPending := true } := by
  rw [send, wp_bind, wp_modify, wp_bind, wp_get, wp_when]
  show (if (!s.txPending) = true then wp beginConnect Q X { s.queued req with txPending := true }
    else Q () (s.queued req)) ↔ _
  by_cases hp : s.txPending = true
  · rw [if_neg (by simp [hp]), if_pos hp]
  · rw [if_pos (by simp [hp]), if_neg hp]

theorem wp_popEndpoint : wp popEndpoint Q X s ↔ match s.endpoints with
    | [] => X .emptyEndpoints s
    | _ :: rest => Q () { s with endpoints := rest } := by
  rw [popEndpoint, wp_bind, wp_get]
  cases s.endpoints <;> exact Iff.rfl

theorem wp_reject : wp reject Q X s ↔ if s.conn.isNone then X .nullConn s else Q () s.gone := by
  rw [reject, wp_bind, wp_getConn]
  cases hc : s.conn <;> simp [wp_disconnect, hc]

theorem wp_tryNext : wp tryNext Q X s ↔
    if s.conn.isNone then X .nullConn s
    else match s.endpoints with
      | [] => X .emptyEndpoints s
      | [_] => Q () { s with endpoints := [] }.gone
      | _ :: b :: rest => Q () { s with endpoints := b :: rest }.dialed := by
  simp only [tryNext, wp_bind, wp_getConn, wp_popEndpoint, wp_beginConnect]
  cases s.conn with
  | none => simp
  | some u =>
    rcases s.endpoints with _ | ⟨a, _ | ⟨b, rest⟩⟩ <;> simp

def St.idled (s : St) : St := { s with txPending := false }

def St.taken (s : St) (req : Request) (rest : List Request) : St :=
  { s with txQueue := rest, pending := some req, pendingTstamp := s.now }

def St.written (s : St) (E : Env) (u : Uri) (req : Request) (rest : List Request) : St := { s.taken req rest with
  request := s.request ++ (httpRequest u (E.writeString req.json)).toList
  writes := s.writes + 1 }

def St.welcomed (s : St) : St :=
  if s.connecting then { s with
    connected := true
    session := true
    connecting := false
    log := .onConnected :: s.log
    currentTstamp := s.now }
  else s

theorem wp_handleConnect {ec : Option Failure} : wp (handleConnect E ec) Q X s ↔
    if ec = none ∧ s.isOpen = true then
      match s.txQueue with
      | [] => Q () s.welcomed.idled
      | req :: rest =>
        match s.conn with
        | none => X .nullConn (s.welcomed.taken req rest)
        | some u => Q () (s.welcomed.written E u req rest)
    else if ec = some .aborted then Q () s else wp tryNext Q X s := by
  have hopened : ∀ t : St, wp (match t.txQueue with
      | [] => modify St.idled
      | req :: rest => do
        modify fun s => s.taken req rest
        let u ← getConn
        modify fun s => { s with
          request := s.request ++ (httpRequest u (E.writeString req.json)).toList
          writes := s.writes + 1 }) Q X t ↔ match t.txQueue with
        | [] => Q () t.idled
        | req :: rest =>
          match t.conn with
          | none => X .nullConn (t.taken req rest)
          | some u => Q () (t.written E u req rest) := by
    intro t
    cases t.txQueue with
    | nil => exact Iff.rfl
    | cons req rest =>
      rw [wp_bind, wp_modify, wp_bind, wp_getConn]
      show (match t.conn with | none => _ | some u => _) ↔ _
      cases t.conn <;> exact Iff.rfl
  rw [handleConnect, wp_bind, wp_get, wp_ite]
  split
  · rw [wp_bind, wp_when]
    by_cases hc : s.connecting = true
    · have hwelcomed := hopened s.welcomed
      rw [St.welcomed, if_pos hc] at hwelcomed
      rw [if_pos hc, St.welcomed, if_pos hc]
      simp only [wp_bind, wp_modify, emit]
      exact hwelcomed
    · rw [if_neg hc, St.welcomed, if_neg hc]
      exact hopened s
  · rw [wp_when]
    by_cases hab : ec = some .aborted
    · simp [hab]
    · simp [hab]

end

/-! ## Replies -/

theorem wp_onWorkReceived {w : WorkPackage} {Q : Unit → St → Prop} {X : Stop → St → Prop} :
    wp (onWorkReceived w) Q X s ↔
      if w.HasBoundary then Q () { s with log := .onWorkReceived w :: s.log }
      else X (.exception .runtimeError) { s with log := .onWorkReceived w :: s.log } := by
  rw [onWorkReceived, emit, wp_bind, wp_modify, wp_when]
  by_cases h : w.HasBoundary
  · simp [h]
  · simp [h]

/-- What a reply can change: the job, the timer and what is reported. -/
def Answered (s t : St) : Prop := ∃ current currentTstamp timer queue log,
  (s.timer.isSome = true → timer.isSome = true) ∧
  (∃ n, queue = s.queue ++ List.replicate n (.getworkTimerElapsed true)) ∧
  t = { s with current, currentTstamp, timer, queue, log }

namespace Answered

theorem of_untimed {current : WorkPackage} {currentTstamp : Nat} {log : List Out}
    (h : t = { s with current, currentTstamp, log }) : Answered s t :=
  ⟨_, _, s.timer, s.queue, _, id, ⟨0, by simp⟩, h⟩

theorem refl (s : St) : Answered s s := of_untimed rfl

theorem trans (s t u : St) (h : Answered s t) (h' : Answered t u) : Answered s u := by
  obtain ⟨_, _, _, _, _, hm, ⟨m, rfl⟩, rfl⟩ := h
  obtain ⟨_, _, _, _, _, hn, ⟨n, rfl⟩, rfl⟩ := h'
  refine ⟨_, _, _, _, _, hn ∘ hm, ⟨m + n, ?_⟩, rfl⟩
  rw [List.append_assoc, List.replicate_append_replicate]

theorem timed (s : St) (ns : Nat) : Answered s (s.timed ns) := by
  refine ⟨_, _, some (s.now + ns), _, _, fun _ => rfl, ?_, rfl⟩
  unfold St.untimed
  split
  · exact ⟨1, rfl⟩
  · exact ⟨0, by simp⟩

end Answered

def Out.verdictOn : Out → Option Nat
  | .onSolutionAccepted _ miner _ | .onSolutionRejected _ miner => some miner
  | _ => none

/-- A relation that holds of whatever a reply does, where the jobs it carries are `P`. -/
structure Replying (P : WorkPackage → Prop) (R : St → St → Prop) : Prop where
  refl : ∀ s, R s s
  trans : ∀ s t u, R s t → R t u → R s u
  timed : ∀ (s : St) ns, R s (s.timed ns)
  works : ∀ (s : St) wp, P wp →
    R s { s with current := wp, currentTstamp := s.now, log := .onWorkReceived wp :: s.log }
  verdict : ∀ (s : St) o id, pendingId s.pending = .ok id → 40 ≤ id → Out.verdictOn o = some (id - 40) →
    R s { s with log := o :: s.log }

def carried (jRes : Json) : Except StdException WorkPackage := do workOf (← jRes.get "result" .null)

def LineCarries (E : Env) (P : WorkPackage → Prop) (line : List Char) : Prop :=
  ∀ jRes wp, E.parse line = .ok (some jRes) → carried jRes = .ok wp → P wp

section Replying

variable {P : WorkPackage → Prop} {R : St → St → Prop}

abbrev Kept (R : St → St → Prop) {α : Type} (m : M α) : Prop := Keeps R (fun _ _ => True) m

theorem Replying.bind (h : Replying P R) {α β : Type} {m : M α} {f : α → M β} (hm : Kept R m) (hf : ∀ x, Kept R (f x)) :
    Kept R (m >>= f) := Keeps.bind h.trans (fun _ _ _ _ _ => trivial) hm hf

theorem Replying.raise (h : Replying P R) {α : Type} (e : Except StdException α) : Kept R (raise e : M α) := by
  cases e with
  | error x => exact Keeps.throw h.refl fun _ => trivial
  | ok x => exact Keeps.pure h.refl x

theorem Replying.getConn (h : Replying P R) : Kept R getConn := by
  refine ⟨fun s => wp_getConn.mpr ?_⟩
  cases s.conn with
  | none => exact ⟨h.refl s, trivial⟩
  | some u => exact h.refl s

theorem Replying.armTimer (h : Replying P R) (ns : Nat) : Kept R (armTimer ns) :=
  ⟨fun s => wp_armTimer.mpr (h.timed s ns)⟩

theorem Replying.raise_bind (h : Replying P R) {α β : Type} {e : Except StdException α} {f : α → M β}
    (hf : ∀ x, e = .ok x → Kept R (f x)) : Kept R (Stratum.raise e >>= f) := by
  cases e with
  | error x => exact Keeps.throw h.refl fun _ => trivial
  | ok x => exact hf x rfl

theorem Replying.raise_bind_at (h : Replying P R) {α β : Type} {e : Except StdException α} {f : α → M β}
    (hf : ∀ x, e = .ok x → wp (f x) (fun _ t => R s t) (fun _ t => R s t ∧ True) s) :
    wp (Stratum.raise e >>= f) (fun _ t => R s t) (fun _ t => R s t ∧ True) s := by
  rw [wp_bind, wp_raise]
  cases e with
  | error x => exact ⟨h.refl s, trivial⟩
  | ok x => exact hf x rfl

theorem getWorkReply_kept (h : Replying P R) {jRes : Json} (isSuccess : Bool)
    (hjob : ∀ wp, carried jRes = .ok wp → P wp) : Kept R (getWorkReply E jRes isSuccess) := by
  refine Keeps.ite (fun _ => h.bind h.getConn fun _ => h.armTimer _) fun _ =>
    h.bind (h.raise _) fun _ => Keeps.ite (fun _ => h.bind h.getConn fun _ => Keeps.pure h.refl _) fun _ =>
    h.raise_bind fun newWp hnew => h.bind (Keeps.get h.refl) fun _ =>
    h.bind (Keeps.when h.refl fun _ => ⟨fun s => ?_⟩) fun _ => h.armTimer _
  rw [wp_bind, wp_modify, wp_onWorkReceived]
  split
  · exact h.works s newWp (hjob newWp hnew)
  · exact ⟨h.works s newWp (hjob newWp hnew), trivial⟩

theorem solutionReply_kept (h : Replying P R) {id : Nat} (hid : pendingId s.pending = .ok id) (h40 : 40 ≤ id)
    (jRes : Json) (isSuccess : Bool) :
    wp (solutionReply jRes isSuccess id) (fun _ t => R s t) (fun _ t => R s t ∧ True) s := by
  have hverdict := fun o => h.verdict s o id hid h40
  have haccepted := hverdict (.onSolutionAccepted ((s.now - s.pendingTstamp) / millisecond) (id - 40) false) rfl
  have hrejected := hverdict (.onSolutionRejected ((s.now - s.pendingTstamp) / millisecond) (id - 40)) rfl
  refine h.raise_bind_at fun result _ => ?_
  simp only [wp_bind, wp_get, wp_ite, emit, wp_modify]
  split <;> split <;> assumption

theorem processResponse_kept (h : Replying P R) {jRes : Json} (hjob : ∀ wp, carried jRes = .ok wp → P wp) :
    Kept R (processResponse E jRes) := by
  refine h.bind (h.raise _) fun _ => Keeps.ite (fun _ => h.bind h.getConn fun _ => Keeps.pure h.refl _) fun _ =>
    ⟨fun s => ?_⟩
  rw [wp_bind, wp_get]
  refine h.raise_bind_at fun id hid => h.raise_bind_at fun error _ => ?_
  have hroute : wp (if id = 0 ∨ id = 1 then getWorkReply E jRes error.empty
      else if id = 9 then Pure.pure ()
      else when (40 ≤ id ∧ id ≤ s.solutionSubmittedMaxId) (solutionReply jRes error.empty id))
      (fun _ t => R s t) (fun _ t => R s t ∧ True) s := by
    rw [wp_ite, wp_ite, wp_when]
    split
    · exact (getWorkReply_kept h _ hjob).from_ s
    split
    · exact h.refl s
    split
    · rename_i hrange
      exact solutionReply_kept h hid hrange.1 jRes _
    · exact h.refl s
  rw [wp_bind, wp_when]
  split
  · rw [wp_bind, wp_raise]
    cases processError jRes with
    | error x => exact ⟨h.refl s, trivial⟩
    | ok text => exact hroute
  · exact hroute

theorem processLine_kept (h : Replying P R) {line : List Char} (hjob : LineCarries E P line) :
    Kept R (processLine E line) := by
  refine h.raise_bind fun j hj => ?_
  cases j with
  | none => exact Keeps.pure h.refl _
  | some jRes => exact processResponse_kept h fun wp => hjob jRes wp hj

theorem lines_kept (h : Replying P R) {lines : List (List Char)} (hjobs : ∀ line ∈ lines, LineCarries E P line) :
    Kept R (lines.forM (processLine E)) := by
  induction lines with
  | nil => exact Keeps.pure h.refl _
  | cons line lines ih =>
    refine h.bind (processLine_kept h (hjobs line List.mem_cons_self)) fun _ => ih fun l hl => ?_
    exact hjobs l (List.mem_cons_of_mem _ hl)

end Replying

theorem answered_replying : Replying (fun _ => True) Answered where
  refl := .refl
  trans := .trans
  timed := .timed
  works _ _ _ := .of_untimed rfl
  verdict _ _ _ _ _ _ := .of_untimed rfl

theorem processLine_answers (line : List Char) : Kept Answered (processLine E line) :=
  processLine_kept answered_replying fun _ _ _ _ => trivial

theorem lines_answer (lines : List (List Char)) : Kept Answered (lines.forM (processLine E)) :=
  lines_kept answered_replying fun _ _ _ _ _ _ => trivial

/-! ## Events -/

inductive Fired (E : Env) (s : St) : Ev → St → Prop
  | run {k : Handler} {queue : List Handler} (h : s.queue = k :: queue) :
    Fired E s .run (call (runHandler E k) { s with queue })
  | resolved {endpoints : Option (List Nat)} (h : 0 < s.resolves) :
    Fired E s (.resolved endpoints) ({ s with resolves := s.resolves - 1 }.push (.handleResolve endpoints))
  | connectCompletes {fails : Bool} (h : 0 < s.connects) :
    Fired E s (.connectCompletes fails) ({ s with connects := s.connects - 1 }.push (.handleConnect (failure fails)))
  | writeCompletes {fails : Bool} (h : 0 < s.writes) :
    Fired E s (.writeCompletes fails) ({ s with writes := s.writes - 1 }.push (.handleWrite (failure fails)))
  | readCompletes {data : Option (List Char)} (h : 0 < s.reads) :
    Fired E s (.readCompletes data)
      ({ s with reads := s.reads - 1 }.push (.handleRead (data.elim (.error .other) .ok)))
  | timerExpires {d : Nat} (h : s.timer = some d) (hd : d ≤ s.now) :
    Fired E s .timerExpires ({ s with timer := none }.push (.getworkTimerElapsed false))
  | advance {ns : Nat} : Fired E s (.advance ns) { s with now := s.now + ns }
  | connect (h : s.connected = false) : Fired E s .connect (call connect s)
  | disconnect : Fired E s .disconnect (call disconnect s)
  | submitHashrate {rate : UInt64} {id : String} (h : s.connected = true) :
    Fired E s (.submitHashrate rate id) (call (submitHashrate rate id) s)
  | submitSolution {solution : Solution} (h : s.connected = true) :
    Fired E s (.submitSolution solution) (call (submitSolution solution) s)

theorem fire_cases {e : Ev} (h : fire E s e = some t) : Fired E s e t := by
  cases e with
  | run =>
    simp only [fire] at h
    split at h
    · cases h
    · cases h
      exact .run ‹_›
  | resolved endpoints =>
    obtain ⟨hpos, ⟨⟩⟩ := Option.ite_none_right_eq_some.mp h
    exact .resolved hpos
  | connectCompletes fails =>
    obtain ⟨hpos, ⟨⟩⟩ := Option.ite_none_right_eq_some.mp h
    exact .connectCompletes hpos
  | writeCompletes fails =>
    obtain ⟨hpos, ⟨⟩⟩ := Option.ite_none_right_eq_some.mp h
    exact .writeCompletes hpos
  | readCompletes data =>
    obtain ⟨hpos, ⟨⟩⟩ := Option.ite_none_right_eq_some.mp h
    exact .readCompletes hpos
  | timerExpires =>
    simp only [fire] at h
    split at h
    · split at h
      · cases h
        exact .timerExpires ‹_› ‹_›
      · cases h
    · cases h
  | advance ns =>
    cases h
    exact .advance
  | connect =>
    obtain ⟨hc, ⟨⟩⟩ := Option.ite_none_left_eq_some.mp h
    exact .connect (Bool.eq_false_of_not_eq_true hc)
  | disconnect =>
    cases h
    exact .disconnect
  | submitHashrate rate id =>
    obtain ⟨hc, ⟨⟩⟩ := Option.ite_none_right_eq_some.mp h
    exact .submitHashrate hc
  | submitSolution solution =>
    obtain ⟨hc, ⟨⟩⟩ := Option.ite_none_right_eq_some.mp h
    exact .submitSolution hc

theorem fired_of_step {e : Ev} (h : step E s e = some t) : s.crashed = none ∧ Fired E s e t := by
  rw [step] at h
  split at h
  · cases h
  · rename_i hc
    exact ⟨by simpa using hc, fire_cases h⟩

theorem call_of_wp {m : M Unit} {P : St → Prop}
    (h : wp m (fun _ t => P t) (fun x t => P { t with crashed := some x }) s) : P (call m s) := by
  unfold call
  rcases hm : m.exec s with ⟨x | _, t⟩
  · exact (wp_iff_exec.mp h).2 x t hm
  · exact (wp_iff_exec.mp h).1 _ t hm

theorem call_holds {m : M Unit} {P : St → Prop} (h : wp m (fun _ t => P t) (fun _ _ => True) s)
    (hrun : (call m s).crashed = none) : P (call m s) := by
  refine call_of_wp (P := fun t => t.crashed = none → P t) (wp_mono h (fun _ _ h _ => h) fun _ _ _ hcrash => ?_) hrun
  cases hcrash

/-! ## Whole events

A relation that does not look at the connection is kept by every function as soon as it holds
of the few things that touch the requests or are reported. -/

/-- A relation that holds of whatever the client does, where the jobs it is sent are `P` and the
    requests it is given are `Q`. -/
structure Working (P : WorkPackage → Prop) (Q : Request → Prop) (R : St → St → Prop) : Prop extends Replying P R where
  same : ∀ s t : St, t.txQueue = s.txQueue → t.pending = s.pending → t.log = s.log → R s t
  gone : ∀ s : St, R s s.gone
  welcomed : ∀ s : St, R s s.welcomed
  queued : ∀ (s : St) req, Q req → R s (s.queued req)
  taken : ∀ (s : St) req rest, s.txQueue = req :: rest → R s (s.taken req rest)

section Working

variable {P : WorkPackage → Prop} {Q : Request → Prop} {R : St → St → Prop}

theorem disconnect_kept (h : Working P Q R) : Kept R disconnect := by
  refine ⟨fun s => wp_disconnect.mpr ?_⟩
  split
  · exact ⟨h.same _ _ rfl rfl rfl, trivial⟩
  · exact h.gone s

theorem beginConnect_kept (h : Working P Q R) : Kept R beginConnect := by
  refine ⟨fun s => wp_beginConnect.mpr ?_⟩
  split
  · split
    · exact ⟨h.refl s, trivial⟩
    · exact h.gone s
  · exact h.same _ _ rfl rfl rfl

theorem send_kept (h : Working P Q R) {req : Request} (hreq : Q req) : Kept R (send req) := by
  refine ⟨fun s => wp_send.mpr ?_⟩
  have hqueued := h.queued s req hreq
  split
  · exact hqueued
  · have hpending : R s { s.queued req with txPending := true } := h.trans _ _ _ hqueued (h.same _ _ rfl rfl rfl)
    exact wp_mono ((beginConnect_kept h).from_ _) (fun _ t ht => h.trans _ _ _ hpending ht)
      fun _ t ht => ⟨h.trans _ _ _ hpending ht.1, trivial⟩

theorem reject_kept (h : Working P Q R) : Kept R reject := by
  refine ⟨fun s => wp_reject.mpr ?_⟩
  split
  · exact ⟨h.refl s, trivial⟩
  · exact h.gone s

theorem tryNext_kept (h : Working P Q R) : Kept R tryNext := by
  refine ⟨fun s => wp_tryNext.mpr ?_⟩
  split
  · exact ⟨h.refl s, trivial⟩
  · split
    · exact ⟨h.refl s, trivial⟩
    · exact h.trans _ { s with endpoints := [] } _ (h.same _ _ rfl rfl rfl) (h.gone _)
    · exact h.same _ _ rfl rfl rfl

theorem handleConnect_kept (h : Working P Q R) (ec : Option Failure) : Kept R (handleConnect E ec) := by
  refine ⟨fun s => wp_handleConnect.mpr ?_⟩
  have hwelcomed := h.welcomed s
  have htx : s.welcomed.txQueue = s.txQueue := by unfold St.welcomed; split <;> rfl
  split
  · split
    · exact h.trans _ _ _ hwelcomed (h.same _ _ rfl rfl rfl)
    · rename_i req rest hq
      have htaken := h.trans _ _ _ hwelcomed (h.taken _ _ _ (htx.trans hq))
      split
      · exact ⟨htaken, trivial⟩
      · exact h.trans _ _ _ htaken (h.same _ _ rfl rfl rfl)
  · split
    · exact h.refl s
    · exact (tryNext_kept h).from_ s

/-- The jobs that what is read can carry are `P`. -/
def Handler.Carries (E : Env) (P : WorkPackage → Prop) : Handler → Prop
  | .handleRead (.ok rxMessage) => ∀ lines, replyLines rxMessage = some lines → ∀ line ∈ lines, LineCarries E P line
  | _ => True

theorem handleRead_kept (h : Working P Q R) {data : Except Failure (List Char)}
    (hjobs : (Handler.handleRead data).Carries E P) : Kept R (handleRead E data) := by
  cases data with
  | error ec => exact Keeps.when h.refl fun _ => reject_kept h
  | ok rxMessage =>
    refine h.bind (Keeps.get h.refl) fun _ => h.bind (Keeps.when h.refl fun _ => Keeps.modify fun _ => ?_) fun _ =>
      Keeps.ite (fun _ => reject_kept h) fun _ => ?_
    · exact h.same _ _ rfl rfl rfl
    · cases hlines : replyLines rxMessage with
      | none => exact reject_kept h
      | some lines =>
        refine h.bind (lines_kept h.toReplying (hjobs lines hlines)) fun _ => h.bind (Keeps.get h.refl) fun _ =>
          Keeps.ite (fun _ => beginConnect_kept h) fun _ => Keeps.modify fun _ => ?_
        exact h.same _ _ rfl rfl rfl

theorem getworkTimerElapsed_kept (h : Working P Q R) (hQ : Q .getWork) (aborted : Bool) :
    Kept R (getworkTimerElapsed E aborted) := by
  refine Keeps.when h.refl fun _ => h.bind (Keeps.get h.refl) fun _ =>
    Keeps.ite (fun _ => h.bind ⟨fun s => wp_popEndpoint.mpr ?_⟩ fun _ => disconnect_kept h) fun _ => send_kept h hQ
  split
  · exact ⟨h.refl s, trivial⟩
  · exact h.same _ _ rfl rfl rfl

theorem handleResolve_kept (h : Working P Q R) (hQ : Q .getWork) (endpoints : Option (List Nat)) :
    Kept R (handleResolve endpoints) := by
  cases endpoints with
  | none => exact reject_kept h
  | some l => exact h.bind (Keeps.modify fun _ => h.same _ _ rfl rfl rfl) fun _ => send_kept h hQ

theorem handleWrite_kept (h : Working P Q R) (ec : Option Failure) : Kept R (handleWrite ec) := by
  cases ec with
  | none => exact Keeps.modify fun _ => h.same _ _ rfl rfl rfl
  | some ec => exact Keeps.when h.refl fun _ => tryNext_kept h

theorem connect_kept (h : Working P Q R) (hQ : Q .getWork) : Kept R connect := by
  refine h.bind (Keeps.get h.refl) fun _ => Keeps.when h.refl fun _ => h.bind (Keeps.modify fun _ => ?_) fun _ =>
    h.bind (Keeps.modify fun _ => ?_) fun _ => h.bind (Keeps.modify fun _ => ?_) fun _ => h.bind h.getConn fun _ =>
    Keeps.ite (fun _ => Keeps.modify fun _ => ?_) fun _ => h.bind (Keeps.modify fun _ => ?_) fun _ => send_kept h hQ
  all_goals exact h.same _ _ rfl rfl rfl

theorem runHandler_kept (h : Working P Q R) (hQ : Q .getWork) {k : Handler} (hjobs : k.Carries E P) :
    Kept R (runHandler E k) := by
  cases k with
  | handleResolve endpoints => exact handleResolve_kept h hQ endpoints
  | handleConnect ec => exact handleConnect_kept h ec
  | handleWrite ec => exact handleWrite_kept h ec
  | handleRead data => exact handleRead_kept h hjobs
  | getworkTimerElapsed aborted => exact getworkTimerElapsed_kept h hQ aborted

def Ev.request : Ev → Option Request
  | .submitHashrate rate id => some (.submitHashrate rate id)
  | .submitSolution solution => some (.submitSolution solution)
  | _ => none

/-- The jobs that the event's handler reads are `P`. -/
def Carried (E : Env) (P : WorkPackage → Prop) (s : St) : Ev → Prop
  | .run => ∀ k queue, s.queue = k :: queue → k.Carries E P
  | _ => True

theorem call_kept (h : Working P Q R) {m : M Unit} (hm : Kept R m) (s : St) : R s (call m s) :=
  call_of_wp (wp_mono (hm.from_ s) (fun _ _ ht => ht) fun _ _ ht => h.trans _ _ _ ht.1 (h.same _ _ rfl rfl rfl))

theorem Fired.kept (h : Working P Q R) (hQ : Q .getWork) {e : Ev} (hf : Fired E s e t)
    (hreq : ∀ req, e.request = some req → Q req) (hjobs : Carried E P s e) : R s t := by
  cases hf with
  | @run k queue hq =>
    refine h.trans _ { s with queue } _ (h.same _ _ rfl rfl rfl) ?_
    exact call_kept h (runHandler_kept h hQ (hjobs k queue hq)) _
  | connect _ => exact call_kept h (connect_kept h hQ) s
  | disconnect => exact call_kept h (disconnect_kept h) s
  | submitHashrate _ =>
    exact call_kept h (h.bind (Keeps.get h.refl) fun _ => Keeps.when h.refl fun _ => send_kept h (hreq _ rfl)) s
  | submitSolution _ =>
    refine call_kept h (h.bind (Keeps.get h.refl) fun _ => Keeps.when h.refl fun _ =>
      h.bind (Keeps.modify fun _ => ?_) fun _ => send_kept h (hreq _ rfl)) s
    exact h.same _ _ rfl rfl rfl
  | _ => exact h.same _ _ rfl rfl rfl

end Working

end CoreMiner.Getwork
