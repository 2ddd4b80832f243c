/-
  CoreMiner.Getwork.Replies — which replies of a node throw out of the getwork client
  (`XcbGetworkClient.cpp`: `handle_read`, `processResponse`, `processError`; `FixedHash.h`).

  Nothing in the client catches an exception, so a reply must suit every conversion it is put
  through: a body that is an object, errors whose parts are scalars, a job of hexadecimal
  texts. And the manager's handler for a new job divides by its boundary (`suits`). The
  handler ends without an exception exactly on the replies that do (`handleRead_contained_iff`);
  a job that is no hexadecimal text is one that does not (`bad_hash_escapes`).
-/

import CoreMiner.Getwork.Polling

namespace CoreMiner.Getwork

open DevCore EthCore Lib Prog
open Stratum (Stop raise wp_raise Uri)

variable {E : Env} {s t : St}

/-! ## What converts -/

def printable : Json → Bool
  | .arr l => l.all Json.isConvertibleToString
  | .obj l => l.all fun m => m.2.isConvertibleToString
  | _ => true

def isHash (j : Json) : Bool :=
  match j.asString with
  | .ok text => isHexText text
  | .error _ => false

def isWork : Json → Bool
  | .null => true
  | .arr l => (l.take 3).all isHash
  | _ => false

def requestId : Option Request → Nat
  | none => 0
  | some .getWork => 1
  | some (.submitHashrate ..) => 9
  | some (.submitSolution solution) => Request.solutionId solution

def asksForWork (pending : Option Request) : Bool := requestId pending = 0 || requestId pending = 1

def newWork (header : H256) (result : Option Json) : Option WorkPackage :=
  (result.bind fun jPrm => (workOf jPrm).toOption).filter fun wp => header ≠ wp.header

/-- A result that is a job, and has a boundary if it is a new one. -/
def resultSuits (header : H256) (result : Option Json) : Bool :=
  result.all isWork && (newWork header result).all fun wp => decide wp.HasBoundary

/-- Every conversion this message is put through succeeds, and so does the division. -/
def suits (pending : Option Request) (header : H256) (jRes : Json) : Bool :=
  match jRes.find "id", jRes.find "error", jRes.find "result" with
  | .ok id, .ok error, .ok result =>
    id.isNone || printable (error.getD .null) &&
      (!asksForWork pending || !(error.getD .null).empty || resultSuits header result)
  | _, _, _ => false

def headerAfter (pending : Option Request) (header : H256) (jRes : Json) : H256 :=
  match jRes.find "id", jRes.find "error", jRes.find "result" with
  | .ok (some _), .ok error, .ok result =>
    if asksForWork pending && (error.getD .null).empty then ((newWork header result).map (·.header)).getD header
    else header
  | _, _, _ => header

def complains (pending : Option Request) (jRes : Json) : Bool :=
  match jRes.find "id", jRes.find "error", jRes.find "result" with
  | .ok id, .ok error, .ok result =>
    id.isNone || asksForWork pending && (!(error.getD .null).empty || result.isNone)
  | _, _, _ => false

/-- Every line suits, up to one at which the program stops for want of a host. -/
def linesSuit (E : Env) (pending : Option Request) (hasConn : Bool) (header : H256) : List (List Char) → Bool
  | [] => true
  | line :: lines =>
    match E.parse line with
    | .error _ => false
    | .ok none => linesSuit E pending hasConn header lines
    | .ok (some jRes) => suits pending header jRes && (!hasConn && complains pending jRes ||
        linesSuit E pending hasConn (headerAfter pending header jRes) lines)

def replySuits (E : Env) (s : St) : Except Failure (List Char) → Bool
  | .error _ => true
  | .ok rxMessage =>
    rxMessage.isEmpty || (replyLines rxMessage).all (linesSuit E s.pending s.conn.isSome s.current.header)

def Contained {α : Type} (m : M α) (s : St) : Prop := wp m (fun _ _ => True) (fun x _ => ∀ e, x ≠ .exception e) s

/-! ## Conversions -/

theorem asString_isOk (j : Json) : j.asString.isOk = j.isConvertibleToString := by cases j <;> rfl

theorem foldlM_isOk {α : Type} {f : String → α → Except StdException String} {p : α → Bool}
    (h : ∀ text a, (f text a).isOk = p a) (l : List α) (text : String) : (l.foldlM f text).isOk = l.all p := by
  induction l generalizing text with
  | nil => rfl
  | cons a l ih =>
    rw [List.foldlM_cons, List.all_cons, ← h text a]
    cases f text a with
    | error e => rfl
    | ok next => exact (ih next).trans (Bool.true_and _).symm

theorem processError_isOk {jRes error : Json} (h : jRes.at_ "error" = .ok error) :
    (processError jRes).isOk = printable error := by
  have hitem (text : String) (v : Json) (f : String → String) :
      (do return f (← v.asString) : Except StdException String).isOk = v.isConvertibleToString := by
    rw [← asString_isOk v]
    cases v.asString <;> rfl
  unfold processError
  rw [h]
  cases error with
  | arr l => exact foldlM_isOk (fun text v => hitem text v _) l ""
  | obj l => exact foldlM_isOk (fun text m => hitem text m.2 _) l ""
  | _ => rfl

theorem strHash_isOk (jPrm : Json) (i : Nat) :
    (do h256 (← jPrm.strIdx i) : Except StdException H256).isOk = (match jPrm with
      | .null => true
      | .arr l => isHash (l.getD i (.str ""))
      | _ => false) := by
  have htext (x : Json) : (do h256 (← x.asString) : Except StdException H256).isOk = isHash x := by
    unfold isHash
    cases x.asString with
    | error e => rfl
    | ok text => exact h256_isOk text
  cases jPrm with
  | null => exact htext (.str "")
  | arr l => exact htext _
  | _ => rfl

theorem isOk_bind {ε α β γ : Type} {e : Except ε α} {f : α → Except ε β} {g : β → Except ε γ} {p : Bool}
    (h : ∀ b, (g b).isOk = p) : (do g (← f (← e))).isOk = ((do f (← e)).isOk && p) := by
  cases e with
  | error x => rfl
  | ok a =>
    show (f a >>= g).isOk = ((f a).isOk && p)
    cases f a with
    | error x => rfl
    | ok b => exact (h b).trans (Bool.true_and p).symm

theorem workOf_isOk (jPrm : Json) : (workOf jPrm).isOk = isWork jPrm := by
  have hparts : (workOf jPrm).isOk = ((do h256 (← jPrm.strIdx 0) : Except StdException H256).isOk &&
      ((do h256 (← jPrm.strIdx 1) : Except StdException H256).isOk &&
      ((do h256 (← jPrm.strIdx 2) : Except StdException H256).isOk && true))) :=
    isOk_bind fun _ => isOk_bind fun _ => isOk_bind fun _ => rfl
  rw [hparts, strHash_isOk, strHash_isOk, strHash_isOk]
  have hblank : isHash (.str "") = true := by decide
  cases jPrm with
  | arr l => rcases l with _ | ⟨a, _ | ⟨b, _ | ⟨c, l⟩⟩⟩ <;> simp [isWork, hblank]
  | _ => rfl

theorem asUInt_natCast {n : Nat} (h : n < 2 ^ 32) : (Json.int n).asUInt = .ok n := by
  have hn : (0 : Int) ≤ n ∧ (n : Int) < 2 ^ 32 := by omega
  rw [Json.asUInt, if_pos hn, Int.toNat_natCast]

theorem requestId_lt (pending : Option Request) : requestId pending < 2 ^ 32 := by
  unfold requestId
  split
  · decide
  · decide
  · decide
  · exact Nat.mod_lt _ (Nat.two_pow_pos 32)

theorem pendingId_eq (pending : Option Request) : pendingId pending = .ok (requestId pending) := by
  have hid : ((pending.map Request.json).getD .null).get "id" (.int 0) = .ok (.int (requestId pending)) := by
    rcases pending with _ | _ | _ | _ <;>
      simp [Request.json, Json.get, Json.find, Except.map, requestId]
  simp only [pendingId, hid, bind, Except.bind, asUInt_natCast (requestId_lt pending)]

/-! ## One message -/

section

variable {G : H256 → Prop}

theorem getConn_contained {P : St → Prop} :
    wp getConn (fun _ t => P t) (fun x _ => ∀ e, x ≠ .exception e) s ↔ s.conn = none ∨ P s := by
  rw [wp_getConn]
  cases s.conn <;> simp

/-- What becomes of a job. -/
theorem takeWork_iff (newWp : WorkPackage) (ns : Nat) :
    wp (do
      let s ← get
      when (s.current.header ≠ newWp.header) do
        modify fun s => { s with current := newWp, currentTstamp := s.now }
        onWorkReceived newWp
      armTimer ns) (fun _ t => G t.current.header) (fun x _ => ∀ e, x ≠ .exception e) s ↔
      if s.current.header ≠ newWp.header then newWp.HasBoundary ∧ G newWp.header else G s.current.header := by
  simp only [wp_bind, wp_get, wp_when, wp_modify, wp_onWorkReceived, wp_armTimer]
  split
  · split
    · rename_i hb
      exact ⟨fun h => ⟨hb, h⟩, And.right⟩
    · rename_i hb
      exact iff_of_false (fun h => h .runtimeError rfl) fun h => hb h.1
  · exact Iff.rfl

/-- Where a getwork reply goes, if what follows it is contained when `G` holds of the header. -/
theorem getWorkReply_iff {jRes : Json} {isSuccess : Bool} {result : Option Json}
    (hresult : jRes.find "result" = .ok result) :
    wp (getWorkReply E jRes isSuccess) (fun _ t => G t.current.header) (fun x _ => ∀ e, x ≠ .exception e) s ↔
      (!isSuccess || resultSuits s.current.header result) = true ∧
        (G (if isSuccess then ((newWork s.current.header result).map (·.header)).getD s.current.header
            else s.current.header) ∨
          s.conn = none ∧ (!isSuccess || result.isNone) = true) := by
  unfold getWorkReply
  cases isSuccess with
  | false =>
    simp only [Bool.not_false, if_true, wp_bind, wp_armTimer]
    rw [getConn_contained (P := fun t => G (t.timed (30 * second)).current.header)]
    simp [or_comm, St.timed, St.untimed]
  | true =>
    have hmember : jRes.isMember "result" = .ok result.isSome := by rw [Json.isMember, hresult]; rfl
    have hget : jRes.get "result" .null = .ok (result.getD .null) := by rw [Json.get, hresult]; rfl
    simp only [Bool.not_true, Bool.false_eq_true, if_false, wp_bind, hmember, wp_raise]
    cases result with
    | none =>
      simp only [Option.isSome_none, Bool.not_false, if_true, wp_bind, wp_pure]
      rw [getConn_contained (P := fun t => G t.current.header)]
      simp [or_comm, resultSuits, newWork]
    | some jPrm =>
      simp only [Option.isSome_some, Bool.not_true, Bool.false_eq_true, if_false]
      rw [hget]
      show wp (raise (workOf jPrm) >>= fun newWp => _) _ _ s ↔ _
      have hwork := workOf_isOk jPrm
      rw [wp_bind, wp_raise, resultSuits, newWork]
      cases hnew : workOf jPrm with
      | error e =>
        rw [hnew] at hwork
        simp [← hwork, Except.isOk, Except.toBool]
      | ok newWp =>
        rw [hnew] at hwork
        refine (takeWork_iff newWp _).trans ?_
        by_cases hheader : s.current.header = newWp.header
        · simp [← hwork, Except.isOk, Except.toBool, hnew, Except.toOption, hheader, Option.filter_some]
        · simp [← hwork, Except.isOk, Except.toBool, hnew, Except.toOption, hheader, Option.filter_some]

theorem solutionReply_iff {jRes : Json} {isSuccess : Bool} {id : Nat} {result : Option Json}
    (hresult : jRes.find "result" = .ok result) :
    wp (solutionReply jRes isSuccess id) (fun _ t => G t.current.header) (fun x _ => ∀ e, x ≠ .exception e) s ↔
      G s.current.header := by
  have hat : jRes.at_ "result" = .ok (result.getD .null) := by rw [Json.at_, Json.get, hresult]; rfl
  simp only [solutionReply, wp_bind, hat, wp_raise, wp_get, wp_ite, emit, wp_modify, ite_self]

/-- A message that converts ends the program only where the host is missed. -/
theorem processResponse_iff (jRes : Json) :
    wp (processResponse E jRes) (fun _ t => G t.current.header) (fun x _ => ∀ e, x ≠ .exception e) s ↔
      suits s.pending s.current.header jRes = true ∧
        (G (headerAfter s.pending s.current.header jRes) ∨ s.conn = none ∧ complains s.pending jRes = true) := by
  have hshape : (∃ e, ∀ key, jRes.find key = .error e) ∨
      ∃ member : String → Option Json, ∀ key, jRes.find key = .ok (member key) := by
    cases jRes with
    | null => exact .inr ⟨fun _ => none, fun _ => rfl⟩
    | obj l => exact .inr ⟨_, fun _ => rfl⟩
    | _ => exact .inl ⟨.logicError, fun _ => rfl⟩
  rcases hshape with ⟨e, hfind⟩ | ⟨member, hfind⟩
  · simp [processResponse, suits, Json.isMember, hfind, Except.map]
  · have hmember : jRes.isMember "id" = .ok (member "id").isSome := by rw [Json.isMember, hfind]; rfl
    have hget : jRes.get "error" .null = .ok ((member "error").getD .null) := by rw [Json.get, hfind]; rfl
    simp only [processResponse, suits, complains, headerAfter, hfind, hmember, wp_bind, wp_raise, wp_ite]
    cases member "id" with
    | none =>
      simp only [Option.isSome_none, Bool.not_false, if_true, wp_pure]
      rw [getConn_contained (P := fun t => G t.current.header)]
      simp [or_comm]
    | some id =>
      have herror : (processError jRes).isOk = printable ((member "error").getD .null) := processError_isOk hget
      simp only [Option.isSome_some, Bool.not_true, Bool.false_eq_true, if_false, hget, pendingId_eq, wp_bind, wp_raise,
        wp_get, wp_when, wp_pure, getWorkReply_iff (hfind "result"), solutionReply_iff (hfind "result"), ite_self]
      have hasks : (requestId s.pending = 0 ∨ requestId s.pending = 1) ↔ asksForWork s.pending = true := by
        simp [asksForWork]
      simp only [hasks]
      rw [← herror]
      generalize hempty : ((member "error").getD .null).empty = empty
      cases empty with
      | true =>
        -- An error that is empty is not looked at; it would print.
        have hprints : (processError jRes).isOk = true := by
          rw [herror]
          generalize (member "error").getD .null = error at hempty
          cases error <;> simp_all [Json.empty, printable]
        rw [hprints]
        cases asksForWork s.pending <;> simp
      | false =>
        cases processError jRes <;> cases asksForWork s.pending <;> simp [Except.isOk, Except.toBool]

end

/-! ## A transmission -/

theorem Answered.pending (h : Answered s t) : t.pending = s.pending ∧ t.conn = s.conn := by
  obtain ⟨_, _, _, _, _, _, _, rfl⟩ := h
  exact ⟨rfl, rfl⟩

/-- What follows is the same wherever the message leads. -/
theorem wp_congr_of_post {α : Type} {m : M α} {P G : St → Prop} {X : Stop → St → Prop}
    (h : wp m (fun _ t => P t ↔ G t) (fun _ _ => True) s) :
    wp m (fun _ t => P t) X s ↔ wp m (fun _ t => G t) X s :=
  ⟨fun hP => wp_mono (wp_and h hP) (fun _ _ h => h.1.mp h.2) fun _ _ h => h.2,
    fun hG => wp_mono (wp_and h hG) (fun _ _ h => h.1.mpr h.2) fun _ _ h => h.2⟩

theorem lines_contained_iff (lines : List (List Char)) :
    Contained (lines.forM (processLine E)) s ↔
      linesSuit E s.pending s.conn.isSome s.current.header lines = true := by
  induction lines generalizing s with
  | nil => simp [Contained, linesSuit]
  | cons line lines ih =>
    have hrest : wp (processLine E line) (fun _ t => Contained (lines.forM (processLine E)) t ↔
        linesSuit E s.pending s.conn.isSome t.current.header lines = true) (fun _ _ => True) s := by
      refine wp_mono ((processLine_answers line).from_ s) (fun _ t ha => ?_) fun _ _ _ => trivial
      rw [ih, ha.pending.1, ha.pending.2]
    have hfirst : Contained ((line :: lines).forM (processLine E)) s ↔
        wp (processLine E line) (fun _ t => linesSuit E s.pending s.conn.isSome t.current.header lines = true)
          (fun x _ => ∀ e, x ≠ .exception e) s := by
      rw [← wp_congr_of_post hrest]
      exact wp_bind
    rw [hfirst, linesSuit, processLine, wp_bind, wp_raise]
    cases E.parse line with
    | error e => simp
    | ok j =>
      cases j with
      | none => simp
      | some jRes =>
        have hmessage := processResponse_iff (E := E) (s := s)
          (G := fun header => linesSuit E s.pending s.conn.isSome header lines = true) jRes
        simp only [hmessage, Bool.and_eq_true, Bool.or_eq_true, Bool.not_eq_true', Option.isSome_eq_false_iff,
          Option.isNone_iff_eq_none]
        tauto

theorem endRequest_contained (s : St) : Contained endRequest s := by
  rw [Contained, endRequest, wp_bind, wp_get, wp_ite, wp_modify, wp_beginConnect]
  split
  · split
    · split
      · rintro _ ⟨⟩
      · trivial
    · trivial
  · trivial

theorem reject_contained (s : St) : Contained reject s := by
  refine wp_reject.mpr ?_
  split
  · exact fun _ h => nomatch h
  · trivial

theorem reply_contained_iff (rxMessage : List Char) :
    Contained (if rxMessage.isEmpty then reject else
      match replyLines rxMessage with
      | none => reject
      | some lines => do
        lines.forM (processLine E)
        endRequest) s ↔ replySuits E s (.ok rxMessage) = true := by
  rw [replySuits]
  split
  case isTrue hempty => simp [hempty, reject_contained]
  case isFalse hempty =>
    rw [Bool.eq_false_of_not_eq_true hempty, Bool.false_or]
    cases replyLines rxMessage with
    | none => simp [reject_contained]
    | some lines =>
      rw [Option.all_some, ← lines_contained_iff, Contained, wp_bind]
      exact wp_congr_of_post (wp_mono ((lines_answer lines).from_ s)
        (fun _ t _ => iff_true_intro (endRequest_contained t)) fun _ _ _ => trivial)

/-- The handler ends without an exception exactly on the replies that suit. -/
theorem handleRead_contained_iff (E : Env) (s : St) (data : Except Failure (List Char)) :
    Contained (handleRead E data) s ↔ replySuits E s data = true := by
  cases data with
  | error ec =>
    refine iff_of_true (wp_when.mpr ?_) rfl
    split
    · exact reject_contained s
    · trivial
  | ok rxMessage =>
    rw [Contained, handleRead, wp_bind, wp_get, wp_bind, wp_when]
    split
    · rw [closeSocket, wp_modify]
      exact reply_contained_iff rxMessage
    · exact reply_contained_iff rxMessage

def endsInException {α : Type} (m : M α) (s : St) : Bool :=
  match (m.exec s).1 with
  | .error (.exception _) => true
  | _ => false

theorem not_contained {α : Type} {m : M α} (h : endsInException m s = true) : ¬ Contained m s := by
  intro hm
  unfold endsInException at h
  rcases hexec : m.exec s with ⟨x | a, t⟩
  · rw [hexec] at h
    cases x with
    | exception e => exact (wp_iff_exec.mp hm).2 _ t hexec e rfl
    | _ => cases h
  · rw [hexec] at h
    cases h

def badHashReply : Json := .obj [("id", .int 1), ("result", .arr [.str "0xzz"])]

/-- The first reply throws: the client has asked for work, and gets a hash that is none. -/
theorem bad_hash_escapes : ∃ past s, Traced (step (nodeEnv badHashReply)) (fun s => ∃ u maxId, s = init u maxId)
      (fun _ _ => true = true) past s ∧ (s.conn.isSome = true ∧ s.pending = some .getWork ∧ 0 < s.reads) ∧
    ¬ Contained (handleRead (nodeEnv badHashReply) (.ok (okReply "\x7b\"id\":1,\"result\":[\"0xzz\"]\x7d"))) s := by
  obtain ⟨past, s, hrun, hs, hthrows⟩ := traced_of_record (step (nodeEnv badHashReply))
    (I := fun s => ∃ u maxId, s = init u maxId) (fun _ _ => true) ⟨nodeUri, 0, rfl⟩ firstPoll
    (P := fun _ s => (s.conn.isSome = true ∧ s.asking = true ∧ 0 < s.reads) ∧
      endsInException (handleRead (nodeEnv badHashReply)
        (.ok (okReply "\x7b\"id\":1,\"result\":[\"0xzz\"]\x7d"))) s = true) (by decide +kernel)
  exact ⟨past, s, hrun, ⟨hs.1, pending_of_asking hs.2.1, hs.2.2⟩, not_contained hthrows⟩

end CoreMiner.Getwork
