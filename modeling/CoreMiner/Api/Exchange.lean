/-
  CoreMiner.Api.Exchange — what a client of the API sends, what is made of it, and what it
  gets back (`ApiServer.cpp`: `onRecvSocketDataCompleted`, `sendSocketData`,
  `onSendSocketDataCompleted`).

  The client sends a stream of lines; how it is cut into reads is the network's business,
  and when a write completes is the system's. Two things are to be independent of that.

  (1) The requests processed. A read behind which fewer than four characters are there
  returns without another read, and the session is deaf from then on; without such a read
  the requests are those of the stream's lines (`requests_as_sent_iff`).

  (2) The bytes transmitted. A server that sends each response by itself (`serve`) says what
  they should be. Here a response is appended to the one buffer all writes share, and its
  write transmits what the buffer holds, so a response goes out again with every one that is
  sent before its write completes. One response at a time, the bytes are those of `serve`
  (`responses_in_order`).
-/

import CoreMiner.Api.Access

namespace CoreMiner.Api

open DevCore Lib Prog
open Stratum (trim)

variable {E : Env} {C : Config} {m : Moment}

/-! ## The stream -/

def Ev.isCalm : Ev → Bool
  | .received _ (some rx) => !rx.isEmpty
  | .received _ none => false
  | .sent _ ec => !ec

theorem Ev.calm_cases {e : Ev} (h : e.isCalm = true) :
    (∃ m rx, rx ≠ [] ∧ e = .received m (some rx)) ∨ ∃ i, e = .sent i false := by
  cases e with
  | received m data =>
    cases data with
    | none => cases h
    | some rx => exact .inl ⟨m, rx, by simpa [Ev.isCalm] using h, rfl⟩
  | sent i ec =>
    cases ec with
    | true => cases h
    | false => exact .inr ⟨i, rfl⟩

def Ev.data : Ev → List Char
  | .received _ (some rx) => rx
  | _ => []

def stream (events : List Ev) : List Char := events.flatMap Ev.data

/-- No line looks like the method of an HTTP request; a JSON text does not. -/
def Textual (x : List Char) : Prop :=
  ∀ line ∈ Lines.lines '\n' x ++ [Lines.rest '\n' x], ∀ c ∈ line.head?, ¬ ('A' ≤ c ∧ c ≤ 'Z')

theorem textual_of_all {x : List Char} (h : (Lines.lines '\n' x ++ [Lines.rest '\n' x]).all
    (fun line => line.head?.all fun c => decide (¬ ('A' ≤ c ∧ c ≤ 'Z'))) = true) : Textual x := by
  intro line hline c hc
  have hhead := List.all_eq_true.mp h line hline
  rw [Option.mem_def.mp hc] at hhead
  exact of_decide_eq_true hhead

theorem Textual.head {c : Char} {x : List Char} (h : Textual (c :: x)) : ¬ ('A' ≤ c ∧ c ≤ 'Z') := by
  by_cases hc : c = '\n'
  · rw [hc]
    decide
  · simp only [Textual, Lines.lines, Lines.rest, Lines.cut, if_neg hc] at h
    rcases hx : Lines.cut '\n' x with ⟨_ | ⟨line, lines⟩, rest⟩
    · rw [hx] at h
      exact h (c :: rest) (by simp) c (by simp)
    · rw [hx] at h
      exact h (c :: line) (by simp) c (by simp)

theorem Textual.rest {x y : List Char} (h : Textual (x ++ y)) : Textual (Lines.rest '\n' x ++ y) := by
  intro line hline
  refine h line ?_
  rw [Lines.lines_append, Lines.rest_append, List.append_assoc]
  exact List.mem_append_right _ hline

theorem httpRequest_of_textual {x y : List Char} (hx : x ≠ []) (h : Textual (x ++ y)) : httpRequest x = none := by
  cases x with
  | nil => exact absurd rfl hx
  | cons c x =>
    have hnone : (c :: x).takeWhile (fun c => decide ('A' ≤ c ∧ c ≤ 'Z')) = [] := by
      rw [List.takeWhile_cons, if_neg (by simpa using h.head)]
    rw [httpRequest, hnone]
    rfl

/-- The state between two handlers, if nothing went wrong: no line is left in `m_message` when a read is pending,
    and no write closes the connection. -/
structure Quiet (s : St) (left : List Char) : Prop where
  isOpen : s.isOpen = true
  message : s.reading = true → s.message = left
  left : '\n' ∉ left
  writes : ∀ w ∈ s.writes, w.2 = false

/-! ## One line -/

/-- The session `s` on the connection of `i`: what a request does not look at. -/
def St.onto (i s : St) : St := { i with node := s.node, isAuthenticated := s.isAuthenticated, requests := s.requests }

theorem handleRequest_steady (jMsg : Json) : Steady St.onto (handleRequest E C m jMsg) := by
  have hcall : Steady St.onto (zoom St.call St.called (response E C m jMsg)) :=
    Steady.zoom (k := St.onto) (fun _ _ => rfl) (fun _ _ _ => rfl) _
  refine .bind (.modify fun _ _ => rfl) fun _ => .tryCatch hcall fun x => ?_
  cases x with
  | exception what => exact .pure _
  | undefined => exact .throw _

theorem answer_steady (line : List Char) : Steady St.onto (answer E C m line) := by
  unfold answer
  rcases E.std (E.parse line) with x | r
  · exact .throw x
  · rw [raise_ok, pure_bind]
    cases r with
    | ok jMsg => exact handleRequest_steady jMsg
    | error what => exact .pure _

structure SameConnection (s t : St) : Prop where
  message : t.message = s.message
  isOpen : t.isOpen = s.isOpen
  reading : t.reading = s.reading
  sendBuffer : t.sendBuffer = s.sendBuffer
  writes : t.writes = s.writes
  wire : t.wire = s.wire

theorem sameConnection_onto (i s : St) : SameConnection i (i.onto s) := ⟨rfl, rfl, rfl, rfl, rfl, rfl⟩

theorem answer_sameConnection {line : List Char} {s t : St} {r : Except Stop Json}
    (h : (answer E C m line).exec s = (r, t)) : SameConnection s t := by
  have honto : (answer E C m line).exec s = (r, s.onto t) := by
    have hsteady := (answer_steady (E := E) (C := C) (m := m) line).exec_eq s s
    rwa [h] at hsteady
  have ht : t = s.onto t := by rw [h] at honto; exact congrArg Prod.snd honto
  rw [ht]
  exact sameConnection_onto s t

def St.sent (s : St) (text : List Char) : St := { s with
  sendBuffer := s.sendBuffer ++ text
  wire := s.wire ++ (s.sendBuffer ++ text)
  writes := s.writes ++ [((s.sendBuffer ++ text).length, false)] }

theorem sendSocketJson_exec {s : St} (hopen : s.isOpen = true) (jRes : Json) :
    (sendSocketJson E jRes false).exec s = (.ok (), s.sent (E.line jRes)) := by
  rw [sendSocketJson, exec_bind_ok (exec_get s), hopen]
  simp only [when, if_true]
  rw [sendSocketData, exec_bind_ok (exec_get s), hopen]
  rfl

theorem processLine_exec {s : St} (hopen : s.isOpen = true) (line : List Char) :
    (processLine E C m line).exec s = match (answer E C m line).exec s with
      | (.ok jRes, t) => (.ok (), t.sent (E.line jRes))
      | (.error x, t) => (.error x, t) := by
  rw [processLine, exec_bind]
  rcases hanswer : (answer E C m line).exec s with ⟨x | jRes, t⟩
  · rfl
  · exact sendSocketJson_exec ((answer_sameConnection hanswer).isOpen.trans hopen) jRes

/-! ## The requests -/

def requestOf (E : Env) (line : List Char) : Option Json :=
  if (trim line).isEmpty then none
  else match E.parse (trim line) with
    | .ok (.ok jMsg) => some jMsg
    | _ => none

def requestsOf (E : Env) (lines : List (List Char)) : List Json := lines.filterMap (requestOf E)

theorem handleRequest_requests (jMsg : Json) (s : St) :
    ((handleRequest E C m jMsg).exec s).2.requests = s.requests ++ [jMsg] := by
  rw [handleRequest, exec_bind_ok (exec_modify _ s), exec_tryCatch, exec_zoom]
  rcases (response E C m jMsg).exec _ with ⟨x | jRes, c⟩
  · cases x <;> rfl
  · rfl

theorem answer_requests {line : List Char} (hline : (trim line).isEmpty = false) (s : St) :
    ((answer E C m (trim line)).exec s).2.requests = s.requests ++ (requestOf E line).toList := by
  rw [answer, requestOf, hline]
  rcases hparse : E.parse (trim line) with x | r
  · simp [Env.std, Except.mapError, raise]
  · rw [std_ok, raise_ok, pure_bind]
    cases r with
    | ok jMsg => exact handleRequest_requests jMsg s
    | error what => simp

/-- What the given lines at the front of `m_message` leave behind. -/
structure Consumed (E : Env) (lines : List (List Char)) (s t : St) : Prop where
  isOpen : t.isOpen = s.isOpen
  reading : t.reading = s.reading
  message : t.message = s.message.drop (lines.map (·.length + 1)).sum
  writes : (∀ w ∈ s.writes, w.2 = false) → ∀ w ∈ t.writes, w.2 = false
  requests : t.requests = s.requests ++ requestsOf E lines

theorem Consumed.trans {l l' : List (List Char)} {s t u : St} (h : Consumed E l s t) (h' : Consumed E l' t u) :
    Consumed E (l ++ l') s u where
  isOpen := h'.isOpen.trans h.isOpen
  reading := h'.reading.trans h.reading
  message := by rw [h'.message, h.message, List.drop_drop, List.map_append, List.sum_append]
  writes hs := h'.writes (h.writes hs)
  requests := by rw [h'.requests, h.requests, requestsOf, requestsOf, requestsOf, List.filterMap_append,
    List.append_assoc]

theorem takeLine_consumed (line : List Char) {s : St} (hopen : s.isOpen = true) :
    wp (takeLine E C m line) (fun _ t => Consumed E [line] s t)
      (fun _ t => t.requests = s.requests ++ requestsOf E [line]) s := by
  rw [takeLine, wp_bind, handleLine]
  by_cases hline : (trim line).isEmpty = true
  · simp only [hline, Bool.not_true, Bool.false_eq_true, when, if_false]
    exact ⟨rfl, rfl, by simp, fun h => h, by simp [requestsOf, requestOf, hline]⟩
  · rw [Bool.not_eq_true] at hline
    have hrequests := answer_requests (E := E) (C := C) (m := m) hline s
    have hone : requestsOf E [line] = (requestOf E line).toList := by
      cases h : requestOf E line <;> simp [requestsOf, h]
    simp only [hline, Bool.not_false, when, if_true]
    rw [hone, wp, processLine_exec hopen]
    rcases hanswer : (answer E C m (trim line)).exec s with ⟨x | jRes, t⟩ <;> rw [hanswer] at hrequests
    · exact hrequests
    · have hsame := answer_sameConnection hanswer
      refine ⟨hsame.isOpen, hsame.reading, ?_, ?_, hrequests.trans (by rw [hone])⟩
      · simp [St.sent, hsame.message]
      · intro hs w hw
        simp only [St.sent, hsame.writes, List.mem_append, List.mem_singleton] at hw
        rcases hw with hw | rfl
        · exact hs w hw
        · rfl

theorem consume_consumed (lines : List (List Char)) {s : St} (hopen : s.isOpen = true) :
    wp (consume E C m lines) (fun _ t => Consumed E lines s t)
      (fun _ t => t.requests <+: s.requests ++ requestsOf E lines) s := by
  induction lines generalizing s with
  | nil => exact ⟨rfl, rfl, rfl, fun h => h, (List.append_nil _).symm⟩
  | cons line lines ih =>
    have happend : requestsOf E (line :: lines) = requestsOf E [line] ++ requestsOf E lines :=
      List.filterMap_append (l := [line])
    rw [consume, List.forM_cons, wp_bind]
    refine wp_mono (takeLine_consumed line hopen) (fun _ t ht => ?_) fun _ t ht => ?_
    · refine wp_mono (ih (ht.isOpen.trans hopen)) (fun _ u hu => ht.trans hu) fun _ u hu => ?_
      rwa [ht.requests, List.append_assoc, ← happend] at hu
    · rw [ht, happend, ← List.append_assoc]
      exact List.prefix_append _ _

/-! ## One event -/

theorem received_exec {s : St} {left rx : List Char} (hs : Quiet s left) (hreading : s.reading = true) (hrx : rx ≠ []) :
    (step E C (.received m (some rx))).exec s = (handleMessage E C m (left ++ rx)).exec (s.receiving rx) := by
  rw [step, exec_bind_ok (exec_get s)]
  simp only [hreading, when, if_true]
  rw [exec_bind, alive_exec, if_pos hs.isOpen]
  simp only
  rw [onRecvSocketDataCompleted_exec hrx, hs.message hreading]

theorem received_short {s : St} {left rx : List Char} (hs : Quiet s left) (hreading : s.reading = true) (hrx : rx ≠ [])
    (hshort : (left ++ rx).length < 4) : (step E C (.received m (some rx))).exec s = (.ok (), s.receiving rx) := by
  rw [received_exec hs hreading hrx, handleMessage, if_pos hshort]
  rfl

/-- What a read that is looked at does: its lines are handled, the rest is kept, and another read is pending. -/
structure Received (E : Env) (message : List Char) (s t : St) : Prop where
  quiet : Quiet t (Lines.rest '\n' message)
  reading : t.reading = true
  requests : t.requests = s.requests ++ requestsOf E (Lines.lines '\n' message)

theorem received_long {s : St} {left rx y : List Char} (hs : Quiet s left) (hreading : s.reading = true) (hrx : rx ≠ [])
    (hlong : ¬ (left ++ rx).length < 4) (htext : Textual (left ++ rx ++ y)) :
    wp (step E C (.received m (some rx))) (fun _ t => Received E (left ++ rx) s t)
      (fun _ t => t.requests <+: s.requests ++ requestsOf E (Lines.lines '\n' (left ++ rx))) s := by
  have hhttp : httpRequest (left ++ rx) = none := httpRequest_of_textual (by simp [hrx]) htext
  rw [wp, received_exec hs hreading hrx, ← wp, handleMessage, if_neg hlong, hhttp]
  rw [wp_bind]
  refine wp_mono (consume_consumed (s := s.receiving rx) _ hs.isOpen) (fun _ t ht => ?_) fun _ _ ht => ht
  have hopen : t.isOpen = true := ht.isOpen.trans hs.isOpen
  have hmessage : t.message = Lines.rest '\n' (left ++ rx) := by
    rw [ht.message, St.receiving, hs.message hreading, Lines.drop_lines]
  rw [wp_bind, wp_get, wp_when, if_pos hopen]
  exact ⟨⟨hopen, fun _ => hmessage, Lines.not_mem_rest _ _, ht.writes hs.writes⟩, rfl, ht.requests⟩

/-- A completed write takes its bytes off the buffer, and no more. -/
theorem sent_exec {s : St} {left : List Char} (hs : Quiet s left) (i : Nat) :
    ∃ t, (step E C (.sent i false)).exec s = (.ok (), t) ∧ Quiet t left ∧ t.reading = s.reading ∧
      t.message = s.message ∧ t.wire = s.wire ∧ t.onto s = t := by
  rw [step, exec_bind_ok (exec_get s)]
  cases hw : s.writes[i]? with
  | none => exact ⟨s, rfl, hs, rfl, rfl, rfl, rfl⟩
  | some w =>
    obtain ⟨n, disconnects⟩ := w
    have hdisconnects : disconnects = false := hs.writes _ (List.mem_of_getElem? hw)
    refine ⟨{ s with writes := s.writes.eraseIdx i, sendBuffer := s.sendBuffer.drop n }, ?_, ?_, rfl, rfl, rfl, rfl⟩
    · simp only
      rw [exec_bind, alive_exec, if_pos hs.isOpen, hdisconnects]
      rfl
    · exact ⟨hs.isOpen, hs.message, hs.left, fun w hw => hs.writes w (List.mem_of_mem_eraseIdx hw)⟩

/-! ## The requests of a run -/

/-- At least four characters are there. -/
def roomy (s : St) : Ev → Bool
  | .received _ (some rx) => decide (4 ≤ (s.message ++ rx).length)
  | _ => true

def roomyRun (E : Env) (C : Config) : St → List Ev → Bool
  | _, [] => true
  | s, e :: events => roomy s e && match (step E C e).exec s with
    | (.ok _, t) => roomyRun E C t events
    | (.error _, _) => true

def Rearmed (E : Env) (C : Config) : St → List Ev → Prop
  | _, [] => True
  | s, e :: events => wp (step E C e) (fun _ t => t.reading = true ∧ Rearmed E C t events) (fun _ _ => True) s

/-- The run's requests are those of the stream; if a handler throws, those up to there. -/
def PassesOn (E : Env) (C : Config) (s : St) (events : List Ev) (x : List Char) : Prop :=
  wp (run E C events) (fun _ t => t.requests = s.requests ++ requestsOf E (Lines.lines '\n' x))
    (fun _ t => t.requests <+: s.requests ++ requestsOf E (Lines.lines '\n' x)) s

theorem passesOn_cons {s : St} {e : Ev} {events : List Ev} {x y : List Char}
    (h : wp (step E C e) (fun _ t => t.requests = s.requests ++ requestsOf E (Lines.lines '\n' x) ∧
      PassesOn E C t events (Lines.rest '\n' x ++ y))
      (fun _ t => t.requests <+: s.requests ++ requestsOf E (Lines.lines '\n' x)) s) :
    PassesOn E C s (e :: events) (x ++ y) := by
  have happend : requestsOf E (Lines.lines '\n' (x ++ y)) =
      requestsOf E (Lines.lines '\n' x) ++ requestsOf E (Lines.lines '\n' (Lines.rest '\n' x ++ y)) := by
    rw [Lines.lines_append, requestsOf, List.filterMap_append]
    rfl
  rw [PassesOn, run, List.forM_cons, wp_bind, happend]
  refine wp_mono h (fun _ t ht => ?_) fun _ t ht => ?_
  · refine wp_mono ht.2 (fun _ u hu => ?_) fun _ u hu => ?_
    · rw [hu, ht.1, List.append_assoc]
    · rwa [ht.1, List.append_assoc] at hu
  · rw [← List.append_assoc]
    exact ht.trans (List.prefix_append _ _)

theorem deaf_of_short {s : St} {left rx : List Char} {events : List Ev} (hs : Quiet s left)
    (hreading : s.reading = true)
    (hrx : rx ≠ []) (hshort : (left ++ rx).length < 4) : ¬ Rearmed E C s (.received m (some rx) :: events) := by
  rw [Rearmed, wp, received_short hs hreading hrx hshort]
  intro h
  exact absurd h.1 Bool.false_ne_true

theorem rearmed_iff {s : St} {left : List Char} (hs : Quiet s left) (hreading : s.reading = true) {events : List Ev}
    (hcalm : events.all Ev.isCalm = true) (htext : Textual (left ++ stream events)) :
    (Rearmed E C s events ↔ roomyRun E C s events = true) ∧
    (roomyRun E C s events = true → PassesOn E C s events (left ++ stream events)) := by
  induction events generalizing s left with
  | nil =>
    have hlines : Lines.lines '\n' (left ++ stream []) = [] := by
      rw [stream, List.flatMap_nil, List.append_nil, Lines.lines, Lines.cut_of_not_mem hs.left]
    refine ⟨iff_of_true trivial rfl, fun _ => ?_⟩
    rw [PassesOn, hlines]
    exact (List.append_nil _).symm
  | cons e events ih =>
    rw [List.all_cons, Bool.and_eq_true] at hcalm
    rcases Ev.calm_cases hcalm.1 with ⟨m, rx, hrx, rfl⟩ | ⟨i, rfl⟩
    · have hstream : left ++ stream (.received m (some rx) :: events) = left ++ rx ++ stream events := by
        rw [stream, List.flatMap_cons, List.append_assoc]
        rfl
      rw [hstream] at htext ⊢
      rw [roomyRun, roomy, hs.message hreading, Bool.and_eq_true, decide_eq_true_iff]
      by_cases hshort : (left ++ rx).length < 4
      · exact ⟨iff_of_false (deaf_of_short hs hreading hrx hshort) fun h => by omega, fun h => by omega⟩
      · have hlong : 4 ≤ (left ++ rx).length := by omega
        have hread := received_long (E := E) (C := C) (m := m) hs hreading hrx hshort htext
        rw [Rearmed, and_iff_right hlong]
        rcases hstep : (step E C (.received m (some rx))).exec s with ⟨x | _, t⟩ <;> rw [wp, hstep] at hread
        · refine ⟨iff_of_true (by rw [wp, hstep]; trivial) rfl, fun _ => passesOn_cons ?_⟩
          rw [wp, hstep]
          exact hread
        · obtain ⟨hrearmed, hpasses⟩ := ih hread.quiet hread.reading hcalm.2 htext.rest
          simp only
          refine ⟨?_, fun h => passesOn_cons ?_⟩
          · rw [wp, hstep, ← hrearmed]
            exact and_iff_right hread.reading
          · rw [wp, hstep]
            exact ⟨hread.requests, hpasses h⟩
    · obtain ⟨t, hstep, hquiet, hsame, -, -, honto⟩ := sent_exec (E := E) (C := C) hs i
      have hrequests : t.requests = s.requests := by rw [← honto]; rfl
      have hreading' : t.reading = true := hsame.trans hreading
      obtain ⟨hrearmed, hpasses⟩ := ih hquiet hreading' hcalm.2 htext
      have hroomy : roomyRun E C s (.sent i false :: events) = roomyRun E C t events := by
        rw [roomyRun, hstep]
        rfl
      rw [hroomy, ← hrearmed]
      refine ⟨?_, fun h => ?_⟩
      · rw [Rearmed, wp, hstep]
        exact and_iff_right hreading'
      · rw [PassesOn, run, List.forM_cons, wp_bind, wp, hstep, ← hrequests]
        exact hpasses (hrearmed.mp h)

theorem quiet_init (n : Node) : Quiet (St.init C n) [] :=
  ⟨rfl, fun _ => rfl, List.not_mem_nil, fun _ h => absurd h List.not_mem_nil⟩

/-- However a stream of lines is cut into reads, its requests are passed on, and a read is pending after each, exactly
    if no read leaves the session with less than four characters. -/
theorem requests_as_sent_iff (E : Env) (C : Config) (n : Node) {events : List Ev} (hcalm : events.all Ev.isCalm = true)
    (htext : Textual (stream events)) :
    (Rearmed E C (St.init C n) events ∧ PassesOn E C (St.init C n) events (stream events)) ↔
      roomyRun E C (St.init C n) events = true := by
  obtain ⟨hrearmed, hpasses⟩ := rearmed_iff (E := E) (quiet_init n) rfl hcalm htext
  exact ⟨fun h => hrearmed.mp h.1, fun h => ⟨hrearmed.mpr h, hpasses h⟩⟩

def slowStart : List Ev := [.received plainMoment (some ['\x7b']), .received plainMoment (some "\x7d    \n".toList)]

/-- The second one is never made, and the request is lost. -/
theorem short_read_deafens :
    let s := St.init ⟨false, ""⟩ (plainNode 0)
    ¬ Rearmed (echoEnv (request "miner_ping" [])) ⟨false, ""⟩ s slowStart ∧
    ¬ PassesOn (echoEnv (request "miner_ping" [])) ⟨false, ""⟩ s slowStart (stream slowStart) := by
  refine ⟨deaf_of_short (quiet_init _) rfl (by decide) (by decide), fun h => ?_⟩
  have hlost : ([] : List Json) = [] ++ requestsOf (echoEnv (request "miner_ping" [])) [stream slowStart] := h
  exact absurd (congrArg List.length hlost) (by decide +kernel)

def goodStart : List Ev :=
  [.received plainMoment (some "\x7b   ".toList), .sent 0 false, .received plainMoment (some "\x7d\n".toList)]

theorem good_start_heard :
    Rearmed (echoEnv (request "miner_ping" [])) ⟨false, ""⟩ (St.init ⟨false, ""⟩ (plainNode 0)) goodStart ∧
    PassesOn (echoEnv (request "miner_ping" [])) ⟨false, ""⟩ (St.init ⟨false, ""⟩ (plainNode 0)) goodStart
      (stream goodStart) :=
  (requests_as_sent_iff _ _ (plainNode 0) (by decide) (textual_of_all (by decide +kernel))).mpr (by decide +kernel)

/-! ## The responses of a run -/

def serveLine (E : Env) (C : Config) (x : Moment × List Char) : M Unit :=
  when (!(trim x.2).isEmpty) do
    let jRes ← answer E C x.1 (trim x.2)
    modify fun s => { s with wire := s.wire ++ E.line jRes }

def serve (E : Env) (C : Config) (lines : List (Moment × List Char)) : M Unit := forM lines (serveLine E C)

/-- The lines of the stream, each with the moment at which it was complete. -/
def arrivals (left : List Char) : List Ev → List (Moment × List Char)
  | [] => []
  | .received m (some rx) :: events =>
    (Lines.lines '\n' (left ++ rx)).map (m, ·) ++ arrivals (Lines.rest '\n' (left ++ rx)) events
  | .received _ none :: events => arrivals left events
  | .sent _ _ :: events => arrivals left events

theorem arrivals_lines {left : List Char} (hleft : '\n' ∉ left) (events : List Ev) :
    (arrivals left events).map Prod.snd = Lines.lines '\n' (left ++ stream events) := by
  induction events generalizing left with
  | nil => simp [arrivals, stream, Lines.lines, Lines.cut_of_not_mem hleft]
  | cons e events ih =>
    cases e with
    | received m rx =>
      cases rx with
      | none => exact ih hleft
      | some rx =>
        have hstream : left ++ stream (.received m (some rx) :: events) = left ++ rx ++ stream events := by
          rw [stream, List.flatMap_cons, List.append_assoc]
          rfl
        rw [hstream, Lines.lines_append, arrivals, List.map_append, ih (Lines.not_mem_rest _ _), List.map_map]
        simp
    | sent i ec => exact ih hleft

structure Tracks (s t : St) : Prop where
  session : t.onto s = t
  wire : t.wire = s.wire

def Keeping (r r' : Except Stop Unit × St) : Prop := r'.1 = r.1 ∧ Tracks r.2 r'.2

def isBlank (line : List Char) : Bool := (trim line).isEmpty

theorem handleLine_blank {line : List Char} (h : isBlank line = true) : handleLine E C m line = pure () := by
  unfold isBlank at h
  simp [handleLine, when, h]

theorem serveLine_blank {line : List Char} (h : isBlank line = true) : serveLine E C (m, line) = pure () := by
  unfold isBlank at h
  simp [serveLine, when, h]

/-- One response, with nothing else to be sent. -/
theorem handleLine_keeping {line : List Char} {s t : St} (hs : Tracks s t) (hopen : s.isOpen = true)
    (hbuffer : isBlank line = false → s.sendBuffer = []) :
    Keeping ((handleLine E C m line).exec s) ((serveLine E C (m, line)).exec t) := by
  by_cases hline : isBlank line = true
  · rw [handleLine_blank hline, serveLine_blank hline]
    exact ⟨rfl, hs⟩
  · rw [Bool.not_eq_true] at hline
    have hempty := hbuffer hline
    unfold isBlank at hline
    have hideal : (answer E C m (trim line)).exec t =
        (((answer E C m (trim line)).exec s).1, t.onto ((answer E C m (trim line)).exec s).2) := by
      rw [← (answer_steady (trim line)).exec_eq t s, hs.session]
    simp only [handleLine, serveLine, hline, Bool.not_false, when, if_true]
    rw [processLine_exec hopen, exec_bind, hideal]
    rcases hanswer : (answer E C m (trim line)).exec s with ⟨x | jRes, s1⟩
    · have hsame := answer_sameConnection hanswer
      exact ⟨rfl, rfl, hs.wire.trans hsame.wire.symm⟩
    · have hsame := answer_sameConnection hanswer
      refine ⟨rfl, rfl, ?_⟩
      have hempty' : s1.sendBuffer = [] := hsame.sendBuffer.trans hempty
      simp only [St.sent, hempty', List.nil_append, hsame.wire]
      rw [← hs.wire]
      rfl

/-- The buffer is empty if there is a line to answer, and there is no other. -/
def unhurriedLines (lines : List (List Char)) (sendBuffer : List Char) : Bool :=
  match lines.filter (!isBlank ·) with
  | [] => true
  | [_] => sendBuffer.isEmpty
  | _ => false

theorem unhurriedLines_cons_blank {line : List Char} (hline : isBlank line = true) (lines : List (List Char))
    (sendBuffer : List Char) : unhurriedLines (line :: lines) sendBuffer = unhurriedLines lines sendBuffer := by
  simp [unhurriedLines, hline]

theorem unhurriedLines_cons {line : List Char} (hline : isBlank line = false) {lines : List (List Char)}
    {sendBuffer : List Char} (h : unhurriedLines (line :: lines) sendBuffer = true) :
    sendBuffer = [] ∧ ∀ sendBuffer', unhurriedLines lines sendBuffer' = true := by
  rw [unhurriedLines, List.filter_cons_of_pos (by simp [hline])] at h
  rcases hfilter : lines.filter (!isBlank ·) with _ | ⟨other, others⟩
  · rw [hfilter] at h
    exact ⟨by simpa using h, fun sendBuffer' => by rw [unhurriedLines, hfilter]⟩
  · rw [hfilter] at h
    exact absurd h Bool.false_ne_true

theorem handleLine_isOpen (line : List Char) {s t : St} {r : Except Stop Unit}
    (h : (handleLine E C m line).exec s = (r, t)) : t.isOpen = s.isOpen := by
  have hserves := ((handleLine_serves (E := E) (C := C) (m := m) line).from_ s)
  rw [wp, h] at hserves
  cases r with
  | ok _ => exact hserves.isOpen
  | error _ => exact hserves.1.isOpen

theorem consume_keeping {lines : List (List Char)} {s t : St} (hs : Tracks s t) (hopen : s.isOpen = true)
    (h : unhurriedLines lines s.sendBuffer = true) :
    Keeping ((consume E C m lines).exec s) ((serve E C (lines.map (m, ·))).exec t) := by
  induction lines generalizing s t with
  | nil => exact ⟨rfl, hs⟩
  | cons line lines ih =>
    rw [consume, serve, List.map_cons, List.forM_cons, List.forM_cons, takeLine, bind_assoc, exec_bind, exec_bind]
    have hbuffer : isBlank line = false → s.sendBuffer = [] := fun hline => (unhurriedLines_cons hline h).1
    obtain ⟨hsame, htracks⟩ := handleLine_keeping (E := E) (C := C) (m := m) hs hopen hbuffer
    rcases hline : (handleLine E C m line).exec s with ⟨x | _, s1⟩ <;>
      rcases hideal : (serveLine E C (m, line)).exec t with ⟨x' | _, t1⟩ <;>
      rw [hline, hideal] at hsame htracks <;> cases hsame
    · exact ⟨rfl, htracks⟩
    · simp only
      rw [exec_bind_ok (exec_modify _ s1)]
      refine ih ⟨htracks.session, htracks.wire⟩ ((handleLine_isOpen line hline).trans hopen) ?_
      -- Behind a line that was answered there are only blank ones.
      by_cases hblank : isBlank line = true
      · rw [handleLine_blank hblank] at hline
        cases hline
        rwa [unhurriedLines_cons_blank hblank] at h
      · exact (unhurriedLines_cons (by simpa using hblank) h).2 _

/-- A read is pending; it completes no more than one line to answer, all responses before have been sent, and there
    are four characters. -/
def unhurried (s : St) : Ev → Bool
  | .received _ (some rx) => s.reading && if (s.message ++ rx).length < 4
    then (Lines.lines '\n' (s.message ++ rx)).all isBlank
    else unhurriedLines (Lines.lines '\n' (s.message ++ rx)) s.sendBuffer
  | _ => true

def unhurriedRun (E : Env) (C : Config) : St → List Ev → Bool
  | _, [] => true
  | s, e :: events => unhurried s e && unhurriedRun E C ((step E C e).exec s).2 events

theorem serve_blank {lines : List (List Char)} (h : lines.all isBlank = true) (t : St) :
    (serve E C (lines.map (m, ·))).exec t = (.ok (), t) := by
  induction lines with
  | nil => rfl
  | cons line lines ih =>
    rw [List.all_cons, Bool.and_eq_true] at h
    rw [serve, List.map_cons, List.forM_cons, serveLine_blank h.1]
    exact ih h.2

theorem received_keeping {s t : St} {left rx y : List Char} (hs : Quiet s left) (htracks : Tracks s t) (hrx : rx ≠ [])
    (htext : Textual (left ++ rx ++ y)) (h : unhurried s (.received m (some rx)) = true) :
    Keeping ((step E C (.received m (some rx))).exec s)
      ((serve E C ((Lines.lines '\n' (left ++ rx)).map (m, ·))).exec t) ∧
    wp (step E C (.received m (some rx))) (fun _ u => Quiet u (Lines.rest '\n' (left ++ rx))) (fun _ _ => True) s := by
  rw [unhurried, Bool.and_eq_true] at h
  obtain ⟨hreading, h⟩ := h
  rw [hs.message hreading] at h
  by_cases hshort : (left ++ rx).length < 4
  · rw [if_pos hshort] at h
    rw [wp, received_short hs hreading hrx hshort, serve_blank h]
    exact ⟨⟨rfl, htracks.session, htracks.wire⟩, hs.isOpen,
      fun h => absurd h Bool.false_ne_true, Lines.not_mem_rest _ _,
      hs.writes⟩
  · rw [if_neg hshort] at h
    refine ⟨?_, wp_mono (received_long hs hreading hrx hshort htext) (fun _ u hu => hu.quiet) fun _ _ _ => trivial⟩
    have hhttp : httpRequest (left ++ rx) = none := httpRequest_of_textual (by simp [hrx]) htext
    rw [received_exec hs hreading hrx, handleMessage, if_neg hshort, hhttp]
    simp only
    have hconsume := consume_keeping (E := E) (C := C) (m := m) (s := s.receiving rx) (t := t)
      ⟨htracks.session, htracks.wire⟩ hs.isOpen h
    rw [exec_bind]
    rcases hc : (consume E C m (Lines.lines '\n' (left ++ rx))).exec (s.receiving rx) with ⟨x | _, u⟩ <;>
      rw [hc] at hconsume
    · exact hconsume
    · obtain ⟨hok, hu⟩ := hconsume
      simp only
      rw [exec_bind_ok (exec_get u)]
      refine ⟨?_, ?_⟩
      · rw [hok]
        cases u.isOpen <;> rfl
      · cases hopen : u.isOpen
        · exact hu
        · exact ⟨hu.session, hu.wire⟩

theorem run_keeping {s t : St} {left : List Char} (hs : Quiet s left) (htracks : Tracks s t) {events : List Ev}
    (hcalm : events.all Ev.isCalm = true) (htext : Textual (left ++ stream events))
    (h : unhurriedRun E C s events = true) :
    Keeping ((run E C events).exec s) ((serve E C (arrivals left events)).exec t) := by
  induction events generalizing s t left with
  | nil => exact ⟨rfl, htracks⟩
  | cons e events ih =>
    rw [List.all_cons, Bool.and_eq_true] at hcalm
    rw [unhurriedRun, Bool.and_eq_true] at h
    rw [run, List.forM_cons]
    rcases Ev.calm_cases hcalm.1 with ⟨m, rx, hrx, rfl⟩ | ⟨i, rfl⟩
    · rw [stream, List.flatMap_cons, ← List.append_assoc] at htext
      obtain ⟨⟨hsame, hkept⟩, hquiet⟩ := received_keeping (E := E) (C := C) hs htracks hrx htext h.1
      rw [arrivals, serve, List.forM_append, exec_bind, exec_bind]
      rcases hstep : (step E C (.received m (some rx))).exec s with ⟨x | _, s1⟩ <;>
        rcases hideal : (serve E C ((Lines.lines '\n' (left ++ rx)).map (m, ·))).exec t with ⟨x' | _, t1⟩ <;>
        rw [hstep, hideal] at hsame hkept <;> cases hsame <;> rw [serve] at hideal <;> rw [hideal]
      · exact ⟨rfl, hkept⟩
      · rw [hstep] at h
        rw [wp, hstep] at hquiet
        exact ih hquiet hkept hcalm.2 htext.rest h.2
    · obtain ⟨s1, hstep, hquiet, -, -, hwire, honto⟩ := sent_exec (E := E) (C := C) hs i
      rw [hstep] at h
      rw [exec_bind_ok hstep]
      refine ih hquiet ⟨?_, htracks.wire.trans hwire.symm⟩ hcalm.2 htext h.2
      rw [← honto]
      exact htracks.session

/-- One response at a time, what is transmitted is what a server sends that sends each by itself, line by line of the
    stream. -/
theorem responses_in_order (E : Env) (C : Config) (n : Node) {events : List Ev} (hcalm : events.all Ev.isCalm = true)
    (htext : Textual (stream events)) (h : unhurriedRun E C (St.init C n) events = true) :
    (arrivals [] events).map Prod.snd = Lines.lines '\n' (stream events) ∧
    ((run E C events).exec (St.init C n)).2.wire = ((serve E C (arrivals [] events)).exec (St.init C n)).2.wire :=
  ⟨arrivals_lines List.not_mem_nil events, (run_keeping (quiet_init n) ⟨rfl, rfl⟩ hcalm htext h).2.wire.symm⟩

/-- The second of two requests that come in one read is answered with both responses. -/
theorem first_response_repeated :
    ((run (echoEnv (request "miner_ping" [])) ⟨false, ""⟩ twoRequests).exec
      (St.init ⟨false, ""⟩ (plainNode 0))).2.wire =
      "-\n-\n-\n".toList ∧
    ((serve (echoEnv (request "miner_ping" [])) ⟨false, ""⟩ (arrivals [] twoRequests)).exec
      (St.init ⟨false, ""⟩ (plainNode 0))).2.wire = "-\n-\n".toList := by decide +kernel

def patient : List Ev := [.received plainMoment (some "\x7b\x7d \n".toList), .sent 0 false,
  .received plainMoment (some "\x7b\x7d \n".toList)]

theorem patient_answered : (arrivals [] patient).map Prod.snd = Lines.lines '\n' (stream patient) ∧
    ((run (echoEnv (request "miner_ping" [])) ⟨false, ""⟩ patient).exec (St.init ⟨false, ""⟩ (plainNode 0))).2.wire =
    ((serve (echoEnv (request "miner_ping" [])) ⟨false, ""⟩ (arrivals [] patient)).exec
      (St.init ⟨false, ""⟩ (plainNode 0))).2.wire :=
  responses_in_order _ _ _ (by decide) (textual_of_all (by decide +kernel)) (by decide +kernel)

end CoreMiner.Api
