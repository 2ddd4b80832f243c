/-
  CoreMiner.Stratum.Transmission — the line loop as a pass over lines.

  The loop of `onRecvSocketDataCompleted` finds, cuts and erases in a buffer. Its fuel never
  runs out, and what it does is `consume`: handle each complete line of the buffer in order
  and leave the rest (`processTransmission_eq`).
-/

import CoreMiner.Lib.LineLoop
import CoreMiner.Stratum.Frame

namespace CoreMiner.Stratum

open DevCore Lib Prog

variable {E : Env}

def handleLine (E : Env) (line : List Char) : M Unit := when (!(trim line).isEmpty) (processLine E (trim line))

def takeLine (E : Env) (line : List Char) : M Unit := do
  handleLine E line
  modify fun s => { s with message := s.message.drop (line.length + 1) }

def consume (E : Env) (lines : List (List Char)) : M Unit := forM lines (takeLine E)

theorem handleLine_tame (line : List Char) : Tame ⟨true, true⟩ (handleLine E line) := .when fun _ => processLine_tame _

theorem trim_nil : trim [] = [] := rfl

theorem handleLine_eq (line : List Char) :
    when (0 < line.length) (when (!(trim line).isEmpty) (processLine E (trim line))) = handleLine E line := by
  cases line with
  | nil => simp [handleLine, when, trim_nil]
  | cons c line => simp [handleLine, when]

theorem lineLoop_isLineLoop : IsLineLoop '\n' (fun s : St => s.message)
    (fun n s => { s with message := s.message.drop n }) (handleLine E) (lineLoop E) where
  buf_erase _ _ := rfl
  keeps line s := wp_mono ((handleLine_tame line).from_ s) (fun _ _ h => h.message) fun _ _ _ => trivial
  done fuel s hno := by
    have hfind : s.message.findIdx? (· = '\n') = none :=
      List.findIdx?_eq_none_iff.mpr fun c hc => decide_eq_false (ne_of_mem_of_not_mem hc hno)
    rw [lineLoop, exec_bind_ok (exec_get s), hfind]
    rfl
  turn fuel s offset hfind := by
    have hhandle := handleLine_eq (E := E) (s.message.take offset)
    rw [(split_of_findIdx? hfind).2.2] at hhandle
    rw [lineLoop, exec_bind_ok (exec_get s), hfind]
    simp only [hhandle]

theorem lineLoop_eq {fuel : Nat} {s : St} (h : s.message.length < fuel) :
    (lineLoop E fuel).exec s = (consume E (Lines.lines '\n' s.message)).exec s :=
  lineLoop_isLineLoop.exec_eq h

def St.receiving (s : St) (rxMessage : List Char) : St :=
  { s with message := s.message ++ rxMessage, newjobprocessed := false }

/-- A transmission: append, and go through the complete lines. -/
theorem processTransmission_eq (rx : List Char) (s : St) :
    (processTransmission E rx).exec s =
      (consume E (Lines.lines '\n' (s.message ++ rx))).exec (s.receiving rx) := by
  rw [processTransmission, exec_bind_ok (exec_modify _ s), exec_bind_ok (exec_get _), lineLoop_eq (Nat.lt_succ_self _)]
  rfl

theorem wp_processTransmission {rx : List Char} {s : St} {Q : Unit → St → Prop} {X : Stop → St → Prop} :
    wp (processTransmission E rx) Q X s ↔
      wp (consume E (Lines.lines '\n' (s.message ++ rx))) Q X (s.receiving rx) := by
  unfold wp
  rw [processTransmission_eq]

def afterLines : M Unit := do
  let s ← get
  when s.newjobprocessed (onWorkReceived s.current)
  when s.isConnected recvSocketData

theorem onRecvSocketDataCompleted_eq (rx : List Char) :
    onRecvSocketDataCompleted E (some rx) = (do processTransmission E rx; afterLines) := rfl

def St.work (s : St) : List Out := if s.newjobprocessed then [.onWorkReceived s.current] else []

/-- The job that is signalled, if there is one, can be reported. -/
def St.Reportable (s : St) : Prop := s.newjobprocessed = true → s.current.HasBoundary

theorem wp_work {s : St} {Q : Unit → St → Prop} {X : Stop → St → Prop} :
    wp (when s.newjobprocessed (onWorkReceived s.current)) Q X s ↔
      (s.Reportable → Q () { s with log := s.work ++ s.log }) ∧
        (¬ s.Reportable → X (.exception .runtimeError) { s with log := s.work ++ s.log }) := by
  rw [wp_when, wp_onWorkReceived, St.work, St.Reportable]
  by_cases hnew : s.newjobprocessed = true
  · by_cases hb : s.current.HasBoundary
    · simp [hnew, hb]
    · simp [hnew, hb]
  · simp [hnew]

/-- Behind the lines a job is dispatched and the read is armed again, or the run stops. -/
theorem afterLines_dispatches (s : St) :
    wp afterLines (fun _ t => s.Reportable ∧ ∃ n, t = { s with reads := n, log := s.work ++ s.log })
      (fun _ t => ∃ n, t = { s with reads := n, log := s.work ++ s.log }) s := by
  have harm (b : Bool) (t : St) :
      wp (when b recvSocketData) (fun _ u => ∃ n, u = { t with reads := n })
        (fun _ u => ∃ n, u = { t with reads := n }) t := by
    rw [wp_when, recvSocketData, wp_bind, wp_stream]
    split
    · split
      · exact ⟨_, rfl⟩
      · split
        · exact ⟨_, rfl⟩
        · exact ⟨_, rfl⟩
    · exact ⟨_, rfl⟩
  rw [afterLines, wp_bind, wp_get, wp_bind, wp_work]
  refine ⟨fun hr => ?_, fun _ => ⟨s.reads, rfl⟩⟩
  exact wp_mono (harm s.isConnected { s with log := s.work ++ s.log }) (fun _ _ h => ⟨hr, h⟩) fun _ _ h => h

section

variable {R : St → St → Prop} {w : EthCore.WorkPackage}

theorem onWorkReceived_keeps {B : Stop → St → Prop} (h : ∀ s : St, R s { s with log := .onWorkReceived w :: s.log })
    (hB : ∀ s, B (.exception .runtimeError) s) : Keeps R B (onWorkReceived w) := by
  refine ⟨fun s => wp_onWorkReceived.mpr ?_⟩
  split
  · exact h s
  · exact ⟨h s, hB s⟩

theorem onWorkReceived_keepsIf {c : Stop → Bool} (h : ∀ s : St, R s { s with log := .onWorkReceived w :: s.log }) :
    KeepsIf c R (onWorkReceived w) := by
  refine ⟨fun s => wp_onWorkReceived.mpr ?_⟩
  split
  · exact h s
  · exact fun _ => h s

end

/-! ## What the lines leave alone -/

def Consumed (s t : St) : Prop := Processed s { t with message := s.message }

theorem Processed.withMessage {s t : St} (h : Processed s t) (m : List Char) :
    Processed { s with message := m } { t with message := m } :=
  ⟨h.link, rfl, h.reads, h.queue, h.log, h.uris, h.session⟩

theorem Consumed.refl (s : St) : Consumed s s := Processed.refl s

theorem Consumed.trans (s t u : St) (h : Consumed s t) (h' : Consumed t u) : Consumed s u :=
  Processed.trans _ _ _ h (h'.withMessage s.message)

theorem Consumed.conn {s t : St} (h : Consumed s t) : t.conn = s.conn := congrArg Link.conn h.link

theorem Consumed.blame {c : Faults} (x : Stop) (s t : St) (h : Consumed s t) (hx : Blame c x t) : Blame c x s :=
  Processed.blame x _ _ h (by cases x <;> exact hx)

theorem takeLine_keeps (line : List Char) : Keeps Consumed (Blame ⟨true, true⟩) (takeLine E line) := by
  refine ⟨fun s => ?_⟩
  rw [takeLine, wp_bind]
  exact wp_mono ((handleLine_tame line).from_ s) (fun _ t h => h.withMessage s.message)
    fun x t h => ⟨h.1.withMessage s.message, h.2⟩

theorem consume_keeps (lines : List (List Char)) : Keeps Consumed (Blame ⟨true, true⟩) (consume E lines) :=
  Keeps.forM Consumed.refl Consumed.trans Consumed.blame takeLine_keeps lines

theorem consume_message (lines : List (List Char)) (s : St) :
    wp (consume E lines) (fun _ t => t.message = s.message.drop (lines.map (·.length + 1)).sum)
      (fun _ _ => True) s := by
  induction lines generalizing s with
  | nil => exact (List.drop_zero).symm
  | cons line lines ih =>
    rw [consume, List.forM_cons, takeLine, bind_assoc, wp_bind]
    refine wp_mono ((handleLine_tame line).from_ s) (fun _ t h => ?_) fun _ _ _ => trivial
    rw [wp_bind, wp_modify]
    refine wp_mono (ih _) (fun _ u hu => ?_) fun _ _ _ => trivial
    rw [hu]
    simp [h.message]

end CoreMiner.Stratum
