/-
  CoreMiner.Stratum.Reading — which strings the JSON parser is given
  (`XcbStratumClient.cpp`: `onRecvSocketDataCompleted`, and `m_message.clear()` in
  `connect_handler`).

  The line loop, written once more with a note of each string it hands to `Reader::parse`.
  However a stream arrives, these are its trimmed, non-empty lines, and `m_message` holds what
  follows the last line feed, as long as no line escapes and none follows an `m_session` that is
  not there yet. Such a line is not erased, nor are the ones behind it read, and so the next
  chunk is split right exactly when it has none (`stream_splits`).
-/

import CoreMiner.Lib.Recorder
import CoreMiner.Stratum.Exceptions
import CoreMiner.Stratum.Intake
import CoreMiner.Stratum.Snapshot

namespace CoreMiner.Stratum

open DevCore Lib Prog

variable {E : Env} {s t : St}

/-! ## The loop, taking notes -/

abbrev Noted := Recorded St (List Char)

/-- Erase from the front of `m_message`. -/
def Noted.erase (n : Nat) (r : Noted) : Noted := { r with st := { r.st with message := r.st.message.drop n } }

def readingLoop (E : Env) : Nat → Prog Noted Stop Unit
  | 0 => pure ()
  | fuel + 1 => do
    let r ← get
    match r.st.message.findIdx? (· = '\n') with
    | none => pure ()
    | some offset =>
      when (0 < offset) do
        let line := trim (r.st.message.take offset)
        when (!line.isEmpty) do
          note line
          unnoted (processLine E line)
      modify (Noted.erase (offset + 1))
      readingLoop E fuel

def readingTransmission (E : Env) (rxMessage : List Char) : Prog Noted Stop Unit := do
  modify fun r => { r with st := r.st.receiving rxMessage }
  let r ← get
  readingLoop E (r.st.message.length + 1)

def handedBy (E : Env) (s : St) (rxMessage : List Char) : List (List Char) :=
  ((readingTransmission E rxMessage).exec ⟨s, []⟩).2.notes

theorem readingLoop_erases (fuel : Nat) : Erases (readingLoop E fuel) (lineLoop E fuel) := by
  induction fuel with
  | zero => exact .pure ()
  | succ fuel ih =>
    refine .get_bind fun r => ?_
    cases r.st.message.findIdx? (· = '\n') with
    | none => exact .pure ()
    | some offset =>
      refine .bind ?_ fun _ => .bind (.modify fun _ => rfl) fun _ => ih
      exact .when (.when (.note_bind (.unnoted _)))

theorem readingTransmission_erases (rxMessage : List Char) :
    Erases (readingTransmission E rxMessage) (processTransmission E rxMessage) :=
  .bind (.modify fun _ => rfl) fun _ => .get_bind fun _ => readingLoop_erases _

/-! ## As a pass over the lines -/

def readLine (E : Env) (line : List Char) : Prog Noted Stop Unit :=
  when (!(trim line).isEmpty) do
    note (trim line)
    unnoted (processLine E (trim line))

theorem readLine_eq (line : List Char) :
    (when (0 < line.length) (when (!(trim line).isEmpty) (do note (trim line); unnoted (processLine E (trim line)))) :
      Prog Noted Stop Unit) = readLine E line := by
  cases line with
  | nil => simp [readLine, when, trim_nil]
  | cons c line => simp [readLine, when]

/-- One line is noted, unless it is blank, and the buffer stays as it is. -/
theorem readLine_notes (line : List Char) (r : Noted) :
    wp (readLine E line)
      (fun _ r' => r'.notes = r.notes ++ [trim line].filter (!·.isEmpty) ∧ r'.st.message = r.st.message)
      (fun _ r' => r'.st.message = r.st.message) r := by
  rw [readLine, wp_when]
  split
  · rename_i hline
    rw [wp_bind, wp_note, wp_unnoted]
    refine wp_mono ((processLine_tame (trim line)).from_ _) (fun _ t ht => ⟨?_, ht.message⟩) fun _ t ht => ht.1.message
    rw [List.filter_cons_of_pos (by simpa using hline), List.filter_nil]
  · rename_i hline
    refine ⟨?_, rfl⟩
    rw [List.filter_cons_of_neg (by simpa using hline), List.filter_nil, List.append_nil]

theorem readingLoop_isLineLoop :
    IsLineLoop '\n' (fun r : Noted => r.st.message) Noted.erase (readLine E) (readingLoop E) where
  buf_erase _ _ := rfl
  keeps line r := wp_mono (readLine_notes line r) (fun _ _ h => h.2) fun _ _ _ => trivial
  done fuel r hno := by
    have hfind : r.st.message.findIdx? (· = '\n') = none :=
      List.findIdx?_eq_none_iff.mpr fun c hc => decide_eq_false (ne_of_mem_of_not_mem hc hno)
    rw [readingLoop, exec_bind_ok (exec_get r), hfind]
    rfl
  turn fuel r offset hfind := by
    have hread := readLine_eq (E := E) (r.st.message.take offset)
    rw [(split_of_findIdx? hfind).2.2] at hread
    rw [readingLoop, exec_bind_ok (exec_get r), hfind]
    simp only [hread]

def readLines (E : Env) (lines : List (List Char)) : Prog Noted Stop Unit :=
  forM lines fun line => do readLine E line; modify (Noted.erase (line.length + 1))

theorem readingTransmission_eq (rxMessage : List Char) (r : Noted) :
    (readingTransmission E rxMessage).exec r =
      (readLines E (Lines.lines '\n' (r.st.message ++ rxMessage))).exec { r with st := r.st.receiving rxMessage } := by
  rw [readingTransmission, exec_bind_ok (exec_modify _ r), exec_bind_ok (exec_get _),
    readingLoop_isLineLoop.exec_eq (Nat.lt_succ_self _)]
  rfl

def spoken (lines : List (List Char)) : List (List Char) := (lines.map trim).filter (!·.isEmpty)

theorem spoken_append (xs ys : List (List Char)) : spoken (xs ++ ys) = spoken xs ++ spoken ys := by
  rw [spoken, List.map_append, List.filter_append]
  rfl

/-- The lines of the buffer are noted in order and leave the rest of it. If one of them does
    not return, its line feed stays. -/
theorem readLines_notes {lines : List (List Char)} (r : Noted) (h : Lines.lines '\n' r.st.message = lines) :
    wp (readLines E lines)
      (fun _ r' => r'.notes = r.notes ++ spoken lines ∧ r'.st.message = Lines.rest '\n' r.st.message)
      (fun _ r' => '\n' ∈ r'.st.message) r := by
  -- On the lines: each stands at the front of what the ones before it left.
  induction lines generalizing r with
  | nil =>
    have hdrop := Lines.drop_lines '\n' r.st.message
    rw [h] at hdrop
    exact ⟨(List.append_nil _).symm, hdrop⟩
  | cons line lines ih =>
    obtain ⟨y, hsplit, hline, hy⟩ := Lines.lines_eq_cons h
    rw [readLines, List.forM_cons, bind_assoc, wp_bind]
    refine wp_mono (readLine_notes line r) (fun _ r' hr' => ?_) fun _ r' hr' => ?_
    · have herased : (Noted.erase (line.length + 1) r').st.message = y := by
        rw [Noted.erase, hr'.2, hsplit]
        simp
      rw [wp_bind, wp_modify]
      refine wp_mono (ih _ (by rw [herased, hy])) (fun _ u hu => ⟨?_, ?_⟩) fun _ _ hu => hu
      · rw [hu.1, show (Noted.erase (line.length + 1) r').notes = r'.notes from rfl, hr'.1, List.append_assoc,
          show line :: lines = [line] ++ lines from rfl, spoken_append]
        rfl
      · rw [hu.2, herased, hsplit, Lines.rest, Lines.rest, Lines.cut_append_cons hline]
        rfl
    · rw [hr', hsplit]
      simp

/-! ## One chunk -/

/-- In the state that the lines before it left, no line of the chunk escapes, and one that uses the
    session finds one. -/
def LinesReturn (E : Env) (s : St) (rxMessage : List Char) : Prop :=
  ∀ pre line post u, Lines.lines '\n' (s.message ++ rxMessage) = pre ++ line :: post →
    (consume E pre).exec (s.receiving rxMessage) = (.ok (), u) →
      ¬ Escapes E u line ∧ (UsesSession E u line → u.session.isSome = true)

theorem linesReturn_iff (hs : s.wired = true) (rxMessage : List Char) :
    LinesReturn E s rxMessage ↔
      wp (processTransmission E rxMessage) (fun _ _ => True) (fun _ _ => False) s := by
  rw [wp_processTransmission, consume, wp_forM_iff]
  refine forall₄_congr fun pre line post u => imp_congr_right fun _ => forall_congr' fun hu => ?_
  have hconsumed := (wp_iff_exec.mp ((consume_keeps pre).from_ (s.receiving rxMessage))).1 _ u hu
  exact (takeLine_returns_iff (hconsumed.wired.trans hs) line).symm

/-- What follows the lines leaves the buffer alone. -/
theorem received_message (rxMessage : List Char) (s : St) :
    (call (onRecvSocketDataCompleted E (some rxMessage)) s).message =
      ((processTransmission E rxMessage).exec s).2.message := by
  refine call_of_wp (P := fun t => t.message = _) ?_
  rw [onRecvSocketDataCompleted_eq, wp_bind]
  refine wp_iff_exec.mpr ⟨fun _ t ht => ?_, fun _ t ht => by rw [ht]⟩
  rw [ht]
  refine wp_mono (afterLines_dispatches t) ?_ ?_
  · rintro _ u ⟨-, n, rfl⟩
    rfl
  · rintro _ u ⟨n, rfl⟩
    rfl

theorem readingTransmission_notes (rxMessage : List Char) (s : St) :
    wp (readingTransmission E rxMessage)
      (fun _ r => r.notes = spoken (Lines.lines '\n' (s.message ++ rxMessage)) ∧
        r.st.message = Lines.rest '\n' (s.message ++ rxMessage))
      (fun _ r => '\n' ∈ r.st.message) ⟨s, []⟩ := by
  rw [wp, readingTransmission_eq]
  exact readLines_notes ⟨s.receiving rxMessage, []⟩ rfl

/-- A chunk whose lines all return is split into them and the rest. If some line of it does
    not, a line feed stays. -/
theorem receive_cases (hs : s.wired = true) (rxMessage : List Char) :
    (LinesReturn E s rxMessage ∧ handedBy E s rxMessage = spoken (Lines.lines '\n' (s.message ++ rxMessage)) ∧
      (call (onRecvSocketDataCompleted E (some rxMessage)) s).message = Lines.rest '\n' (s.message ++ rxMessage)) ∨
    (¬ LinesReturn E s rxMessage ∧ '\n' ∈ (call (onRecvSocketDataCompleted E (some rxMessage)) s).message) := by
  have hnotes := readingTransmission_notes (E := E) rxMessage s
  rw [received_message, ← (readingTransmission_erases rxMessage).leaves ⟨s, []⟩, handedBy, linesReturn_iff hs,
    ← (readingTransmission_erases rxMessage).wp_iff (r := ⟨s, []⟩)]
  unfold wp at hnotes ⊢
  rcases hexec : (readingTransmission E rxMessage).exec ⟨s, []⟩ with ⟨x | _, r⟩
  · rw [hexec] at hnotes
    exact .inr ⟨id, hnotes⟩
  · rw [hexec] at hnotes
    exact .inl ⟨trivial, hnotes⟩

/-! ## A stream -/

def Splits (stream : List Char) (handed : List (List Char)) (s : St) : Prop :=
  handed = spoken (Lines.lines '\n' stream) ∧ s.message = Lines.rest '\n' stream

instance (stream : List Char) (handed : List (List Char)) : Decidable (Splits stream handed s) :=
  inferInstanceAs (Decidable (_ ∧ _))

/-- The chunk is split right exactly when its lines return. -/
theorem Splits.receive_iff {stream : List Char} {handed : List (List Char)} (h : Splits stream handed s)
    (hs : s.wired = true) (rxMessage : List Char) :
    Splits (stream ++ rxMessage) (handed ++ handedBy E s rxMessage)
        (call (onRecvSocketDataCompleted E (some rxMessage)) s) ↔ LinesReturn E s rxMessage := by
  rcases receive_cases (E := E) hs rxMessage with ⟨hreturn, hhanded, hmessage⟩ | ⟨hreturn, hmem⟩
  · refine iff_of_true ⟨?_, ?_⟩ hreturn
    · rw [hhanded, h.1, h.2, Lines.lines_append '\n' stream, spoken_append]
    · rw [hmessage, h.2, ← Lines.rest_append]
  · refine iff_of_false (fun hsplits => ?_) hreturn
    rw [hsplits.2] at hmem
    exact Lines.not_mem_rest '\n' _ hmem

abbrev Receives (s : St) (rxMessage : List Char) (queue : List Handler) (e : Ev) : Prop :=
  Runs s (.onRecvSocketDataCompleted (some rxMessage)) queue e

structure Apart (s : St) (e : Ev) : Prop where
  receives : ∀ rxMessage queue, ¬ Receives s rxMessage queue e
  connects : ∀ ec handshakeFails queue, ¬ Runs s (.connectHandler ec handshakeFails) queue e
  rotates : ∀ queue, ¬ Runs s .rotateConnect queue e

/-- The runs of a connection, with the stream that has arrived on it and what of it the parser
    was given. It begins with an empty buffer; a chunk is read while the connection is there,
    between the chunks anything else may happen, and `C` is asked of the chunks. -/
inductive Reading (E : Env) (C : St → List Char → Prop) : List Char → List (List Char) → St → Prop
  | connected {s : St} (h : s.message = []) : Reading E C [] [] s
  | chunk {stream rxMessage : List Char} {handed : List (List Char)} {s t : St} {e : Ev} {queue : List Handler} :
    Reading E C stream handed s → Receives s rxMessage queue e → s.wired = true → C { s with queue } rxMessage →
      step E s e = some t →
      Reading E C (stream ++ rxMessage) (handed ++ handedBy E { s with queue } rxMessage) t
  | other {stream : List Char} {handed : List (List Char)} {s t : St} {e : Ev} :
    Reading E C stream handed s → Apart s e → step E s e = some t → Reading E C stream handed t

/-- Whatever lies between the chunks keeps the buffer. -/
theorem Apart.message {e : Ev} (h : Apart s e) (ht : step E s e = some t) : t.message = s.message := by
  cases (fired_of_step ht).2.intake with
  | spares hspares => exact hspares.message
  | connects hk _ => exact absurd hk (h.connects _ _ _)
  | renews hk _ => exact absurd hk (h.rotates _)
  | receives hk _ => exact absurd hk (h.receives _ _)
  | @answers response queue _ ht =>
    subst ht
    exact call_of_wp (P := fun t => t.message = s.message) (wp_mono ((processResponse_tame response).from_ _)
      (fun _ _ h => h.message) fun _ _ h => h.1.message)

theorem Receives.step_eq {rxMessage : List Char} {queue : List Handler} {e : Ev} (h : Receives s rxMessage queue e)
    (ht : step E s e = some t) : t = call (onRecvSocketDataCompleted E (some rxMessage)) { s with queue } := by
  obtain ⟨hq, choice, rfl⟩ := h
  cases (fired_of_step ht).2 with
  | @run _ k queue' hq' =>
    obtain ⟨rfl, rfl⟩ := List.cons.inj (hq.symm.trans hq')
    rfl

theorem Splits.chunk_iff {stream rxMessage : List Char} {handed : List (List Char)} {queue : List Handler} {e : Ev}
    (h : Splits stream handed s) (hr : Receives s rxMessage queue e) (hs : s.wired = true) (ht : step E s e = some t) :
    Splits (stream ++ rxMessage) (handed ++ handedBy E { s with queue } rxMessage) t ↔
      LinesReturn E { s with queue } rxMessage := by
  rw [hr.step_eq ht]
  exact Splits.receive_iff (s := { s with queue }) h hs rxMessage

theorem Reading.splits {stream : List Char} {handed : List (List Char)}
    (h : Reading E (LinesReturn E) stream handed s) : Splits stream handed s := by
  induction h with
  | connected h => exact ⟨rfl, h⟩
  | chunk _ hr hs hreturn ht ih => exact (ih.chunk_iff hr hs ht).mpr hreturn
  | other _ ha ht ih => exact ⟨ih.1, (ha.message ht).trans ih.2⟩

/-- As long as no line escapes or misses a session, the parser is given the trimmed, non-empty
    lines of the stream in order and `m_message` holds the rest; the next chunk keeps it so
    exactly when the same is true of its lines. On every buffer, the loop ends within as many
    turns as it has characters, and has handled its lines. -/
theorem stream_splits {stream : List Char} {handed : List (List Char)}
    (h : Reading E (LinesReturn E) stream handed s) :
    Splits stream handed s ∧
      (∀ rxMessage queue e t, Receives s rxMessage queue e → s.wired = true → step E s e = some t →
        (Splits (stream ++ rxMessage) (handed ++ handedBy E { s with queue } rxMessage) t ↔
          LinesReturn E { s with queue } rxMessage)) ∧
      ∀ (u : St) (fuel : Nat), u.message.length < fuel →
        (lineLoop E fuel).exec u = (consume E (Lines.lines '\n' u.message)).exec u :=
  ⟨h.splits, fun _ _ _ _ hr hs ht => h.splits.chunk_iff hr hs ht, fun _ _ hfuel => lineLoop_eq hfuel⟩

/-! ## A login and a job -/

def deliver (E : Env) (rxMessage : List Char) (s : St) : Option St :=
  if s.queue = [] ∧ s.wired then play E s [.received rxMessage, .run none] else none

/-- The client when its read has completed and the handler is taken. -/
def St.picked (s : St) : St := { s with reads := s.reads - 1, queue := [] }

theorem Reading.deliver {C : St → List Char → Prop} {stream rxMessage : List Char} {handed : List (List Char)}
    (h : Reading E C stream handed s) (hC : C s.picked rxMessage) (ht : deliver E rxMessage s = some t) :
    Reading E C (stream ++ rxMessage) (handed ++ handedBy E s.picked rxMessage) t := by
  rw [Stratum.deliver, Option.ite_none_right_eq_some] at ht
  obtain ⟨⟨hq, hs⟩, hplay⟩ := ht
  obtain ⟨u, hu, ht⟩ := Option.bind_eq_some_iff.mp hplay
  obtain ⟨t', ht', hlast⟩ := Option.bind_eq_some_iff.mp ht
  cases hlast
  have hapart : Apart s (.received rxMessage) := ⟨nofun, nofun, nofun⟩
  cases (fired_of_step hu).2 with
  | received _ _ =>
    refine (h.other hapart hu).chunk (show Receives _ _ [] _ from ⟨?_, none, rfl⟩) hs hC ht'
    simp [St.push, hq]

/-- The answer to the login in two pieces, and a job with the second: both are handed on, with no
    session before the first. -/
theorem two_chunks_split : ∃ s t u, Reach proxyEnv s ∧ s.session = none ∧
    deliver proxyEnv ((lineOf proxyLogin).take 9) s = some t ∧
    deliver proxyEnv ((lineOf proxyLogin).drop 9 ++ lineOf proxyWork) t = some u ∧
    Reading proxyEnv (LinesReturn proxyEnv) (lineOf proxyLogin ++ lineOf proxyWork)
      [proxyLogin.1.toList, proxyWork.1.toList] u ∧
    Splits (lineOf proxyLogin ++ lineOf proxyWork) [proxyLogin.1.toList, proxyWork.1.toList] u := by
  obtain ⟨s, hs, hmessage, hsession, hwired, hfirst, hhanded, hdeliver⟩ := reach_of_trace proxyEnv
    (p := fun s => s.message = [] ∧ s.session = none ∧ s.picked.wired = true ∧
      wp (processTransmission proxyEnv ((lineOf proxyLogin).take 9)) (fun _ _ => True) (fun _ _ => False) s.picked ∧
      handedBy proxyEnv s.picked ((lineOf proxyLogin).take 9) = [] ∧
      (deliver proxyEnv ((lineOf proxyLogin).take 9) s).any (fun t => t.picked.wired = true ∧
        wp (processTransmission proxyEnv ((lineOf proxyLogin).drop 9 ++ lineOf proxyWork)) (fun _ _ => True)
          (fun _ _ => False) t.picked ∧
        handedBy proxyEnv t.picked ((lineOf proxyLogin).drop 9 ++ lineOf proxyWork) =
          [proxyLogin.1.toList, proxyWork.1.toList] ∧
        (deliver proxyEnv ((lineOf proxyLogin).drop 9 ++ lineOf proxyWork) t).isSome = true) = true)
    (fun _ => plainUri_fresh ETHPROXY (.inl (by decide))) connectTrace (by decide +kernel)
  rw [Option.any_eq_true] at hdeliver
  obtain ⟨t, ht, hsecond⟩ := hdeliver
  obtain ⟨hwired', hreturns, hhanded', hu⟩ := decide_eq_true_iff.mp hsecond
  obtain ⟨u, hu⟩ := Option.isSome_iff_exists.mp hu
  have hreading := ((Reading.connected (E := proxyEnv) hmessage).deliver ((linesReturn_iff hwired _).mpr hfirst)
    ht).deliver ((linesReturn_iff hwired' _).mpr hreturns) hu
  rw [hhanded, hhanded'] at hreading
  have hstream : [] ++ (lineOf proxyLogin).take 9 ++ ((lineOf proxyLogin).drop 9 ++ lineOf proxyWork) =
      lineOf proxyLogin ++ lineOf proxyWork := by
    rw [List.nil_append, ← List.append_assoc, List.take_append_drop]
  rw [hstream] at hreading
  exact ⟨s, t, u, hs, hsession, ht, hu, hreading, (stream_splits hreading).1⟩

/-- The answer to the login, and then a job with its block number over the limit: the job stays
    in `m_message`. -/
theorem future_job_stays : ∃ s t handed, Reach proxyEnv s ∧ s.message = [] ∧
    (deliver proxyEnv (lineOf proxyLogin) s).bind (deliver proxyEnv (lineOf futureJob)) = some t ∧
    Reading proxyEnv (fun _ _ => True) (lineOf proxyLogin ++ lineOf futureJob) handed t ∧
    ¬ Splits (lineOf proxyLogin ++ lineOf futureJob) handed t := by
  obtain ⟨s, hs, hmessage, hstays⟩ := reach_of_trace proxyEnv
    (p := fun s => s.message = [] ∧ ((deliver proxyEnv (lineOf proxyLogin) s).bind
      (deliver proxyEnv (lineOf futureJob))).any (fun t => '\n' ∈ t.message) = true)
    (fun _ => plainUri_fresh ETHPROXY (.inl (by decide))) connectTrace (by decide +kernel)
  rw [Option.any_eq_true] at hstays
  obtain ⟨t, ht, hmem⟩ := hstays
  obtain ⟨u, hu, htu⟩ := Option.bind_eq_some_iff.mp ht
  have hreading := ((Reading.connected (E := proxyEnv) (C := fun _ _ => True) hmessage).deliver trivial hu).deliver
    trivial htu
  refine ⟨s, t, _, hs, hmessage, ht, hreading, fun hsplits => ?_⟩
  rw [hsplits.2, decide_eq_true_iff] at hmem
  exact Lines.not_mem_rest '\n' _ hmem

end CoreMiner.Stratum
