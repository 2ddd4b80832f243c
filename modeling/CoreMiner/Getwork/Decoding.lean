/-
  CoreMiner.Getwork.Decoding — how the replies of a getwork node are decoded
  (`XcbGetworkClient.cpp`: `handle_read`).

  One loop finds and erases line ends in the message, with a flag for the headers and a line
  counter. It is written here as in the source, with a note of each value that goes to
  `processResponse`; it ends on every message and does what `handleRead` does
  (`readReply_erases`). A reply should be taken once, with the value of its body (`Faithful`).
  The code has no body, it has lines: what it parses are the pieces of `piecesOf`, so a line end
  inside the document cuts it, and a message that begins with a line end has its status not
  looked at. `reply_decoded_iff` says on which messages that makes no difference.
-/

import CoreMiner.Getwork.Replies
import CoreMiner.Lib.Recorder

namespace CoreMiner.Getwork

open DevCore EthCore Lib Prog
open Stratum (Stop raise wp_raise Uri)

variable {E : Env} {s t : St}

/-! ## Line ends -/

def crlf : List Char := ['\r', '\n']

def findCrlf : List Char → Option Nat
  | '\r' :: '\n' :: _ => some 0
  | _ :: rest => (findCrlf rest).map (· + 1)
  | [] => none

def CrlfFree (l : List Char) : Prop := ¬ crlf <:+: l

theorem crlfFree_cons {c : Char} {l : List Char} (h : CrlfFree l) (hc : c = '\r' → l.head? ≠ some '\n') :
    CrlfFree (c :: l) := by
  rw [CrlfFree, List.infix_cons_iff, not_or]
  refine ⟨?_, h⟩
  rintro ⟨rest, hrest⟩
  obtain ⟨rfl, rfl⟩ := List.cons.inj hrest
  exact hc rfl rfl

theorem splitCrlf_cons {c : Char} {l line : List Char} {lines : List (List Char)}
    (hc : c = '\r' → l.head? ≠ some '\n') (h : splitCrlf l = line :: lines) :
    splitCrlf (c :: l) = (c :: line) :: lines := by
  rw [splitCrlf, h]
  rintro rest rfl rfl
  exact hc rfl rfl

theorem splitCrlf_append {line : List Char} (h : CrlfFree line) (rest : List Char) :
    splitCrlf (line ++ '\r' :: '\n' :: rest) = line :: splitCrlf rest := by
  induction line with
  | nil => rfl
  | cons c line ih =>
    have hfree : CrlfFree line := fun hin => h (List.infix_cons_iff.mpr (.inr hin))
    refine splitCrlf_cons ?_ (ih hfree)
    rintro rfl hhead
    cases line with
    | nil => cases hhead
    | cons d line =>
      cases hhead
      exact h ⟨[], line, rfl⟩

theorem splitCrlf_of_free {l : List Char} (h : CrlfFree l) : splitCrlf l = [l] := by
  induction l with
  | nil => rfl
  | cons c l ih =>
    refine splitCrlf_cons ?_ (ih fun hin => h (List.infix_cons_iff.mpr (.inr hin)))
    rintro rfl hhead
    cases l with
    | nil => cases hhead
    | cons d l =>
      cases hhead
      exact h ⟨[], l, rfl⟩

theorem findCrlf_none {l : List Char} (h : findCrlf l = none) : CrlfFree l := by
  fun_induction findCrlf l with
  | case1 rest => cases h
  | case2 c rest hc ih =>
    refine crlfFree_cons (ih (Option.map_eq_none_iff.mp h)) ?_
    rintro rfl hhead
    obtain ⟨tail, rfl⟩ := List.head?_eq_some_iff.mp hhead
    exact hc tail rfl rfl
  | case3 => exact fun hin => by simp [crlf] at hin

theorem findCrlf_some {l : List Char} {n : Nat} (h : findCrlf l = some n) :
    l = l.take n ++ '\r' :: '\n' :: l.drop (n + 2) ∧ CrlfFree (l.take n) ∧ n + 2 ≤ l.length := by
  fun_induction findCrlf l generalizing n with
  | case1 rest =>
    cases h
    exact ⟨rfl, fun hin => by simp [crlf] at hin, by simp⟩
  | case2 c rest hc ih =>
    obtain ⟨m, hm, rfl⟩ := Option.map_eq_some_iff.mp h
    obtain ⟨hsplit, hfree, hlen⟩ := ih hm
    refine ⟨?_, ?_, ?_⟩
    · rw [List.take_succ_cons, List.drop_succ_cons, List.cons_append, ← hsplit]
    · rw [List.take_succ_cons]
      refine crlfFree_cons hfree ?_
      rintro rfl hhead
      rw [List.head?_take] at hhead
      split at hhead
      · cases hhead
      · obtain ⟨tail, rfl⟩ := List.head?_eq_some_iff.mp hhead
        exact hc tail rfl rfl
    · rw [List.length_cons]
      omega
  | case3 => cases h

theorem splitCrlf_of_find {l : List Char} {n : Nat} (h : findCrlf l = some n) :
    splitCrlf l = l.take n :: splitCrlf (l.drop (n + 2)) := by
  obtain ⟨hsplit, hfree, -⟩ := findCrlf_some h
  conv_lhs => rw [hsplit]
  exact splitCrlf_append hfree _

theorem splitCrlf_of_none {l : List Char} (h : findCrlf l = none) : splitCrlf l = [l] :=
  splitCrlf_of_free (findCrlf_none h)

theorem splitCrlf_eq_cons (l : List Char) : ∃ line lines, splitCrlf l = line :: lines := by
  cases h : findCrlf l with
  | none => exact ⟨_, _, splitCrlf_of_none h⟩
  | some n => exact ⟨_, _, splitCrlf_of_find h⟩

theorem findCrlf_filter (l : List Char) : findCrlf (l.filter (· ≠ '\n')) = none := by
  cases h : findCrlf (l.filter (· ≠ '\n')) with
  | none => rfl
  | some n =>
    have hmem : '\n' ∈ l.filter (· ≠ '\n') := by
      rw [(findCrlf_some h).1]
      simp
    simp at hmem

/-! ## The loop, taking notes -/

/-- The client, and the values `processResponse` was called with. -/
abbrev Heard := Recorded St Json

def readBody (E : Env) (line : List Char) : Prog Heard Stop Unit := do
  match ← unnoted (raise (E.parse line)) with
  | some jRes =>
    note jRes
    unnoted (processResponse E jRes)
  | none => pure ()

/-- The `while` loop; `fuel` bounds its iterations. `false` where it returns early. -/
def readLoop (E : Env) : Nat → List Char → Nat → Bool → Prog Heard Stop Bool
  | 0, _, _, _ => pure true
  | fuel + 1, rxMessage, linenum, isHeader =>
    match findCrlf rxMessage with
    | none => pure true
    | some delimiteroffset =>
      let linenum := linenum + 1
      let line := rxMessage.take delimiteroffset
      let rxMessage := rxMessage.drop (delimiteroffset + 2)
      if line.isEmpty ∧ (findCrlf rxMessage).isSome then readLoop E fuel rxMessage linenum false
      else
        let isHeader := isHeader && !line.isEmpty
        let rxMessage := if line.isEmpty then rxMessage.filter (· ≠ '\n') else rxMessage
        let line := if line.isEmpty then rxMessage else line
        if isHeader ∧ linenum = 1 ∧ !statusOk line then do
          unnoted reject
          pure false
        else do
          when (!isHeader) (readBody E line)
          readLoop E fuel rxMessage linenum isHeader

def readReply (E : Env) (fuel : Nat) (rxMessage : List Char) : Prog Heard Stop Unit := do
  let r ← get
  when r.st.isOpen (unnoted closeSocket)
  if rxMessage.isEmpty then unnoted reject
  else
    let ends ← readLoop E fuel rxMessage 0 true
    when ends (unnoted endRequest)

def callsOf (E : Env) (s : St) (rxMessage : List Char) : List Json :=
  ((readReply E (rxMessage.length + 1) rxMessage).exec ⟨s, []⟩).2.notes

def readLines (E : Env) (lines : List (List Char)) : Prog Heard Stop Bool := do
  lines.forM (readBody E)
  pure true

theorem readLines_cons (line : List Char) (lines : List (List Char)) :
    readLines E (line :: lines) = (do readBody E line; readLines E lines) := by
  show (do (do readBody E line; lines.forM (readBody E)); pure true) = _
  rw [bind_assoc]
  rfl

/-- With a status line that is fine, or behind it, the loop is the pass over `bodyLines`. -/
theorem readLoop_eq {fuel : Nat} {rxMessage : List Char} {linenum : Nat} {isHeader : Bool}
    (hfuel : rxMessage.length < fuel)
    (hstatus : ∀ n, findCrlf rxMessage = some n → isHeader = true → linenum = 0 → (rxMessage.take n).isEmpty = false →
      statusOk (rxMessage.take n) = true) :
    readLoop E fuel rxMessage linenum isHeader = readLines E (bodyLines isHeader (splitCrlf rxMessage)) := by
  -- On the fuel: every turn erases a line end.
  induction fuel generalizing rxMessage linenum isHeader with
  | zero => omega
  | succ fuel ih =>
    rw [readLoop]
    cases hfind : findCrlf rxMessage with
    | none =>
      rw [splitCrlf_of_none hfind]
      rfl
    | some n =>
      have hlen := (findCrlf_some hfind).2.2
      have hrest : (rxMessage.drop (n + 2)).length < fuel := by
        rw [List.length_drop]
        omega
      obtain ⟨next, more, hnext⟩ := splitCrlf_eq_cons (rxMessage.drop (n + 2))
      have hlater (isHeader : Bool) : readLoop E fuel (rxMessage.drop (n + 2)) (linenum + 1) isHeader =
          readLines E (bodyLines isHeader (next :: more)) := by
        rw [← hnext]
        exact ih hrest fun _ _ _ h => absurd h (Nat.succ_ne_zero _)
      rw [splitCrlf_of_find hfind, hnext, bodyLines]
      cases hempty : (rxMessage.take n).isEmpty with
      | true =>
        cases hmore : findCrlf (rxMessage.drop (n + 2)) with
        | some m =>
          have hne : more.isEmpty = false := by
            rw [splitCrlf_of_find hmore] at hnext
            obtain ⟨_, _, hdeeper⟩ := splitCrlf_eq_cons ((rxMessage.drop (n + 2)).drop (m + 2))
            rw [← (List.cons.inj hnext).2, hdeeper]
            rfl
          simp only [hempty, hmore, Option.isSome_some, and_self, if_true, hne, Bool.false_eq_true, if_false]
          exact hlater false
        | none =>
          -- What is left has no line end: it is the body, without its line feeds.
          rw [splitCrlf_of_none hmore] at hnext
          obtain ⟨hline, hnil⟩ := List.cons.inj hnext
          subst hline hnil
          have hdone :
              readLoop E fuel ((rxMessage.drop (n + 2)).filter (· ≠ '\n')) (linenum + 1) false = pure true := by
            cases fuel with
            | zero => omega
            | succ fuel => rw [readLoop, findCrlf_filter]
          simp only [hempty, hmore, if_true, Option.isSome_none, Bool.false_eq_true, and_false, if_false, Bool.not_true,
            Bool.and_false, false_and, List.isEmpty_nil, hdone]
          rw [when, if_pos (by simp [hempty]), readLines_cons]
          rfl
      | false =>
        simp only [hempty, Bool.false_eq_true, false_and, if_false, Bool.not_false, Bool.and_true]
        rw [if_neg]
        · cases isHeader with
          | true =>
            simp only [if_true]
            rw [← hlater true, when, if_neg (by simp [hempty]), pure_bind]
          | false =>
            simp only [Bool.false_eq_true, if_false]
            rw [readLines_cons, ← hlater false, when, if_pos (by simp)]
        · rintro ⟨hheader, hfirst, hbad⟩
          rw [hstatus n hfind hheader (by omega) hempty] at hbad
          cases hbad

theorem readLoop_start {fuel : Nat} {rxMessage : List Char} (hfuel : rxMessage.length < fuel) :
    readLoop E fuel rxMessage 0 true =
      match replyLines rxMessage with
      | none => do unnoted reject; pure false
      | some lines => readLines E lines := by
  cases hfind : findCrlf rxMessage with
  | none =>
    rw [readLoop_eq hfuel fun n h => by rw [hfind] at h; cases h]
    rw [replyLines, splitCrlf_of_none hfind]
    rfl
  | some n =>
    obtain ⟨next, more, hnext⟩ := splitCrlf_eq_cons (rxMessage.drop (n + 2))
    have hsplit := splitCrlf_of_find hfind
    rw [hnext] at hsplit
    by_cases hok : ((rxMessage.take n).isEmpty || statusOk (rxMessage.take n)) = true
    · rw [readLoop_eq hfuel]
      · rw [replyLines, hsplit]
        simp only [hok, if_true]
      · intro m hm _ _ hne
        cases hfind.symm.trans hm
        simpa [hne] using hok
    · simp only [Bool.or_eq_true, not_or, Bool.not_eq_true] at hok
      cases fuel with
      | zero => omega
      | succ fuel =>
        rw [readLoop, hfind, replyLines, hsplit]
        simp [hok.1, hok.2]

theorem readBody_erases (line : List Char) : Erases (readBody E line) (processLine E line) := by
  refine .bind (.unnoted _) fun jRes => ?_
  cases jRes with
  | none => exact .pure ()
  | some jRes => exact .note_bind (.unnoted _)

theorem readLines_erases (lines : List (List Char)) :
    Erases (readLines E lines) (do lines.forM (processLine E); pure true) := by
  refine .bind ?_ fun _ => .pure true
  induction lines with
  | nil => exact .pure ()
  | cons line lines ih => exact .bind (readBody_erases line) fun _ => ih

/-- The loop ends on every message, and the client is left as `handleRead` leaves it. -/
theorem readReply_erases {fuel : Nat} {rxMessage : List Char} (hfuel : rxMessage.length < fuel) :
    Erases (readReply E fuel rxMessage) (handleRead E (.ok rxMessage)) := by
  refine .get_bind fun r => .bind (.when (.unnoted _)) fun _ => ?_
  cases hempty : rxMessage.isEmpty with
  | true => exact .unnoted reject
  | false =>
    simp only [Bool.false_eq_true, if_false]
    rw [readLoop_start hfuel]
    cases replyLines rxMessage with
    | none =>
      have hnone : (do
          let ends ← (do unnoted reject; pure false : Prog Heard Stop Bool)
          when (ends = true) (unnoted endRequest)) = unnoted reject := by
        rw [bind_assoc]
        simp [when]
      rw [hnone]
      exact .unnoted reject
    | some lines =>
      have hsome : (do
          lines.forM (processLine E)
          endRequest) = (do
          let ends ← (do lines.forM (processLine E); pure true : M Bool)
          when (ends = true) endRequest) := by
        rw [bind_assoc]
        simp [when]
      dsimp only
      rw [hsome]
      exact .bind (readLines_erases lines) fun _ => .when (.unnoted _)

/-! ## The calls -/

/-- The values of some pieces, up to one at which the parser throws. -/
def values (E : Env) : List (List Char) → List Json
  | [] => []
  | piece :: pieces =>
    match E.parse piece with
    | .error _ => []
    | .ok none => values E pieces
    | .ok (some jRes) => jRes :: values E pieces

/-- `processResponse` returns: every conversion succeeds, and no host is missed. -/
def answered (s : St) (jRes : Json) : Bool :=
  suits s.pending s.current.header jRes && (s.conn.isSome || !complains s.pending jRes)

/-- All that of a client behind a message later ones depend on. -/
def St.behind (s : St) (jRes : Json) : St :=
  { s with current := { s.current with header := headerAfter s.pending s.current.header jRes } }

def callsOn (E : Env) (s : St) : List (List Char) → List Json
  | [] => []
  | piece :: pieces =>
    match E.parse piece with
    | .error _ => []
    | .ok none => callsOn E s pieces
    | .ok (some jRes) => jRes :: if answered s jRes then callsOn E (s.behind jRes) pieces else []

theorem answered_iff (s : St) (jRes : Json) :
    answered s jRes = true ↔
      suits s.pending s.current.header jRes = true ∧ ¬ (s.conn = none ∧ complains s.pending jRes = true) := by
  rw [answered, Bool.and_eq_true, Bool.or_eq_true, Bool.not_eq_true', ← Option.isNone_iff_eq_none]
  cases s.conn <;> simp

theorem processResponse_returns_iff (jRes : Json) :
    wp (processResponse E jRes) (fun _ _ => True) (fun _ _ => False) s ↔ answered s jRes = true := by
  have hthrows := processResponse_iff (E := E) (s := s) (G := fun _ => True) jRes
  have hmissed := processResponse_iff (E := E) (s := s) (G := fun _ => False) jRes
  rw [answered_iff]
  unfold wp at hthrows hmissed ⊢
  rcases hexec : (processResponse E jRes).exec s with ⟨x | _, t⟩ <;>
    simp only [hexec, true_or, and_true, false_or] at hthrows hmissed
  · exact iff_of_false id fun h => h.2 (hmissed.mp (hthrows.mpr h.1)).2
  · exact iff_of_true trivial ⟨hthrows.mp trivial, fun h => hmissed.mpr ⟨hthrows.mp trivial, h⟩⟩

/-- A reply that returns leaves this header. -/
theorem processResponse_header {jRes : Json} (h : (processResponse E jRes).exec s = (.ok (), t)) :
    t.current.header = headerAfter s.pending s.current.header jRes := by
  have hthrows := processResponse_iff (E := E) (s := s) (G := fun _ => True) jRes
  have hleaves := processResponse_iff (E := E) (s := s)
    (G := fun header => header = headerAfter s.pending s.current.header jRes) jRes
  rw [wp, h] at hthrows hleaves
  exact hleaves.mpr ⟨(hthrows.mp trivial).1, .inl rfl⟩

structure Alike (s t : St) : Prop where
  pending : t.pending = s.pending
  conn : t.conn = s.conn
  header : t.current.header = s.current.header

theorem Alike.answered (h : Alike s t) (jRes : Json) : answered t jRes = answered s jRes := by
  rw [Getwork.answered, Getwork.answered, h.pending, h.conn, h.header]

theorem Alike.behind (h : Alike s t) (jRes : Json) : Alike (s.behind jRes) (t.behind jRes) :=
  ⟨h.pending, h.conn, by simp only [St.behind, h.pending, h.header]⟩

theorem Alike.callsOn (h : Alike s t) (pieces : List (List Char)) : callsOn E t pieces = callsOn E s pieces := by
  induction pieces generalizing s t with
  | nil => rfl
  | cons piece pieces ih =>
    rw [Getwork.callsOn, Getwork.callsOn]
    rcases E.parse piece with e | _ | jRes
    · rfl
    · exact ih h
    · simp only [h.answered, ih (h.behind jRes)]

/-- The pass notes the calls, however it ends. -/
theorem readLines_notes (pieces : List (List Char)) (r : Heard) :
    wp (readLines E pieces) (fun ends r' => ends = true ∧ r'.notes = r.notes ++ callsOn E r.st pieces)
      (fun _ r' => r'.notes = r.notes ++ callsOn E r.st pieces) r := by
  -- On the pieces: what is left of the pass starts in a state that is alike.
  induction pieces generalizing r with
  | nil => exact ⟨rfl, (List.append_nil _).symm⟩
  | cons piece pieces ih =>
    rw [readLines_cons, wp_bind, readBody, wp_bind, wp_unnoted, wp_raise, callsOn]
    cases hparse : E.parse piece with
    | error e => exact (List.append_nil _).symm
    | ok found =>
      cases found with
      | none => exact ih r
      | some jRes =>
        simp only [wp_bind, wp_note, wp_unnoted]
        have hanswers : Kept Answered (processResponse E jRes) :=
          processResponse_kept answered_replying fun _ _ => trivial
        have hreturns := processResponse_returns_iff (E := E) (s := r.st) jRes
        refine wp_iff_exec.mpr ⟨fun _ t ht => ?_, fun x t ht => ?_⟩
        · have hyes : answered r.st jRes = true := by
            rw [← hreturns, wp, ht]
            trivial
          have hkept : Answered r.st t := (wp_iff_exec.mp (hanswers.from_ r.st)).1 _ t ht
          have hpass := ih { st := t, notes := r.notes ++ [jRes] }
          have hbehind : Alike (r.st.behind jRes) t := ⟨hkept.pending.1, hkept.pending.2, processResponse_header ht⟩
          rw [hbehind.callsOn] at hpass
          simpa [hyes] using hpass
        · have hno : answered r.st jRes = false := by
            rw [← Bool.not_eq_true, ← hreturns, wp, ht]
            exact id
          simp [hno]

def heardOf (E : Env) (s : St) (rxMessage : List Char) : List Json :=
  match replyLines rxMessage with
  | none => []
  | some pieces => callsOn E s pieces

theorem readMessage_notes (s : St) (rxMessage : List Char) :
    wp (if rxMessage.isEmpty then unnoted reject else do
        let ends ← readLoop E (rxMessage.length + 1) rxMessage 0 true
        when ends (unnoted endRequest))
      (fun _ r => r.notes = heardOf E s rxMessage) (fun _ r => r.notes = heardOf E s rxMessage) ⟨s, []⟩ := by
  rw [wp_ite]
  split
  · rename_i hempty
    rw [List.isEmpty_iff.mp hempty]
    exact unnoted_notes reject ⟨s, []⟩
  · rw [readLoop_start (Nat.lt_succ_self _), heardOf, wp_bind]
    cases replyLines rxMessage with
    | none =>
      rw [wp_bind]
      refine wp_mono (unnoted_notes reject ⟨s, []⟩) (fun _ r hr => ?_) fun _ _ h => h
      rw [wp_pure, wp_when, if_neg Bool.false_ne_true]
      exact hr
    | some pieces =>
      refine wp_mono (readLines_notes pieces ⟨s, []⟩) ?_ fun _ _ h => h
      rintro ends r ⟨rfl, hr⟩
      rw [wp_when, if_pos rfl]
      exact wp_mono (unnoted_notes endRequest r) (fun _ _ h => h.trans hr) fun _ _ h => h.trans hr

theorem callsOf_eq (s : St) (rxMessage : List Char) : callsOf E s rxMessage = heardOf E s rxMessage := by
  have hsame (t : St) (h : Alike s t) : heardOf E t rxMessage = heardOf E s rxMessage := by
    unfold heardOf
    cases replyLines rxMessage with
    | none => rfl
    | some pieces => exact h.callsOn pieces
  have hnotes : wp (readReply E (rxMessage.length + 1) rxMessage) (fun _ r => r.notes = heardOf E s rxMessage)
      (fun _ r => r.notes = heardOf E s rxMessage) ⟨s, []⟩ := by
    rw [readReply, wp_bind, wp_get, wp_bind, wp_when]
    split
    · rw [wp_unnoted, closeSocket, wp_modify]
      exact wp_mono (readMessage_notes _ rxMessage) (fun _ _ h => h.trans (hsame _ ⟨rfl, rfl, rfl⟩))
        fun _ _ h => h.trans (hsame _ ⟨rfl, rfl, rfl⟩)
    · exact readMessage_notes s rxMessage
  rw [wp] at hnotes
  rw [callsOf]
  rcases hexec : (readReply E (rxMessage.length + 1) rxMessage).exec ⟨s, []⟩ with ⟨x | _, r⟩ <;>
    · rw [hexec] at hnotes
      exact hnotes

/-! ## Replies -/

/-- The head of a message in front of its body: lines that are not empty, and then one that is. -/
structure Framed (heads : List (List Char)) (rxMessage body : List Char) : Prop where
  lines : ∀ line ∈ heads, line ≠ [] ∧ CrlfFree line
  message : rxMessage = heads.flatMap (· ++ crlf) ++ crlf ++ body

def statusIs200 (line : List Char) : Bool :=
  line.take 7 = "HTTP/1.".toList && ((line.dropWhile (· ≠ ' ')).drop 1).takeWhile (· ≠ ' ') = "200".toList

def Reply (rxMessage body : List Char) : Prop :=
  ∃ line headers, Framed (line :: headers) rxMessage body ∧ statusIs200 line = true

/-- A reply whose body is a document is taken once, with the value of the whole body, and
    nothing else is. -/
structure Faithful (E : Env) (rxMessage : List Char) (calls : List Json) : Prop where
  taken : ∀ body jRes, Reply rxMessage body → E.parse body = .ok (some jRes) → calls = [jRes]
  nothing : (∀ body jRes, Reply rxMessage body → E.parse body ≠ .ok (some jRes)) → calls = []

/-- What of a body, cut at its line ends, is parsed: the lines with a line end that are not empty
    and, unless the last of these lines is one of them, what follows it, without its line feeds. -/
def piecesIn (lines : List (List Char)) : List (List Char) :=
  lines.dropLast.filter (!·.isEmpty) ++
    if lines.dropLast.getLast?.all (·.isEmpty) then (lines.getLast?.map (·.filter (· ≠ '\n'))).toList else []

def piecesOf (body : List Char) : List (List Char) := piecesIn (splitCrlf body)

def expected (E : Env) (heads : List (List Char)) (body : List Char) : List Json :=
  if heads.head?.any statusIs200 then values E [body] else []

/-- The pieces have the value of the body, or only the first of theirs is come to: the pieces
    have another value behind it, but processing it does not return. -/
def Decodes (E : Env) (s : St) (rxMessage : List Char) : Prop :=
  ∀ heads body, Framed heads rxMessage body → heads.head?.all statusOk = true →
    values E (piecesOf body) = expected E heads body ∨
      ∃ jRes others, values E (piecesOf body) = jRes :: others ∧ expected E heads body = [jRes] ∧
        answered s jRes = false

/-! ## The head of a message -/

theorem splitCrlf_heads {heads : List (List Char)} (h : ∀ line ∈ heads, line ≠ [] ∧ CrlfFree line) (body : List Char) :
    splitCrlf (heads.flatMap (· ++ crlf) ++ crlf ++ body) = heads ++ [] :: splitCrlf body := by
  induction heads with
  | nil => rfl
  | cons line heads ih =>
    have hline := h line List.mem_cons_self
    have hrest := ih fun l hl => h l (List.mem_cons_of_mem _ hl)
    rw [List.flatMap_cons, List.cons_append, ← hrest, ← splitCrlf_append hline.2]
    simp [crlf]

theorem Framed.split {heads : List (List Char)} {rxMessage body : List Char} (h : Framed heads rxMessage body) :
    splitCrlf rxMessage = heads ++ [] :: splitCrlf body := by rw [h.message, splitCrlf_heads h.lines]

theorem Framed.heads_eq {heads : List (List Char)} {rxMessage body : List Char} (h : Framed heads rxMessage body) :
    heads = (splitCrlf rxMessage).takeWhile (!·.isEmpty) := by
  rw [h.split, List.takeWhile_append_of_pos]
  · simp
  · intro line hline
    simpa using (h.lines line hline).1

theorem Framed.unique {heads heads' : List (List Char)} {rxMessage body body' : List Char}
    (h : Framed heads rxMessage body) (h' : Framed heads' rxMessage body') : heads' = heads ∧ body' = body := by
  have hheads : heads' = heads := h'.heads_eq.trans h.heads_eq.symm
  subst hheads
  exact ⟨rfl, List.append_cancel_left (h'.message.symm.trans h.message)⟩

/-- A message without one is not looked at. -/
theorem bodyLines_of_not_framed {rxMessage : List Char} (h : ∀ heads body, ¬ Framed heads rxMessage body) :
    bodyLines true (splitCrlf rxMessage) = [] := by
  -- On the length: behind a first line that is not empty the rest has no head either.
  induction hn : rxMessage.length using Nat.strong_induction_on generalizing rxMessage with
  | _ n ih =>
    cases hfind : findCrlf rxMessage with
    | none =>
      rw [splitCrlf_of_none hfind]
      rfl
    | some offset =>
      obtain ⟨hsplit, hfree, hlen⟩ := findCrlf_some hfind
      obtain ⟨next, more, hnext⟩ := splitCrlf_eq_cons (rxMessage.drop (offset + 2))
      by_cases hempty : rxMessage.take offset = []
      · refine absurd ⟨nofun, ?_⟩ (h [] (rxMessage.drop (offset + 2)))
        rw [hempty] at hsplit
        exact hsplit
      · have hrest : bodyLines true (splitCrlf (rxMessage.drop (offset + 2))) = [] := by
          refine ih _ ?_ (fun heads body hframed => ?_) rfl
          · rw [List.length_drop]
            omega
          · refine h (rxMessage.take offset :: heads) body ⟨?_, ?_⟩
            · rintro line hline
              rcases List.mem_cons.mp hline with rfl | hline
              · exact ⟨hempty, hfree⟩
              · exact hframed.lines line hline
            · have hmessage := hframed.message
              rw [List.append_assoc] at hmessage
              rw [List.flatMap_cons, List.append_assoc, List.append_assoc, List.append_assoc, ← hmessage]
              exact hsplit
        rw [splitCrlf_of_find hfind, hnext, bodyLines, if_neg (by simpa using hempty), if_pos rfl, ← hnext]
        exact hrest

theorem replyLines_of_not_framed {rxMessage : List Char} {pieces : List (List Char)}
    (h : ¬ ∃ heads body, Framed heads rxMessage body) (hlines : replyLines rxMessage = some pieces) : pieces = [] := by
  have hnone := bodyLines_of_not_framed fun heads body hframed => h ⟨heads, body, hframed⟩
  rw [replyLines] at hlines
  split at hlines
  · rename_i hsplit
    rw [Option.ite_none_right_eq_some, Option.some.injEq] at hlines
    rw [← hlines.2, ← hsplit, hnone]
  · cases hlines
    rfl

theorem bodyLines_heads {heads : List (List Char)} (h : ∀ line ∈ heads, line ≠ []) (next : List Char)
    (more : List (List Char)) : bodyLines true (heads ++ [] :: next :: more) = bodyLines true ([] :: next :: more) := by
  induction heads with
  | nil => rfl
  | cons line heads ih =>
    have hline : line.isEmpty = false := by simpa using h line List.mem_cons_self
    have hrest := ih fun l hl => h l (List.mem_cons_of_mem _ hl)
    cases heads with
    | nil => simp [bodyLines, hline]
    | cons line' heads =>
      rw [List.cons_append, List.cons_append, bodyLines, if_neg (by simp [hline]), if_pos rfl]
      exact hrest

theorem bodyLines_false (line next : List Char) (more : List (List Char)) :
    bodyLines false (line :: next :: more) = piecesIn (line :: next :: more) := by
  induction more generalizing line next with
  | nil => cases line <;> simp [bodyLines, piecesIn]
  | cons last more ih =>
    have hlater : piecesIn (line :: next :: last :: more) =
        [line].filter (!·.isEmpty) ++ piecesIn (next :: last :: more) := by
      simp only [piecesIn, List.dropLast_cons_cons, List.getLast?_cons_cons, ← List.append_assoc, ← List.filter_append]
      rfl
    rw [hlater, ← ih, bodyLines]
    cases line <;> simp

theorem bodyLines_body (body : List Char) : bodyLines true ([] :: splitCrlf body) = piecesOf body := by
  rw [piecesOf]
  obtain ⟨line, more, hbody⟩ := splitCrlf_eq_cons body
  rw [hbody]
  cases more with
  | nil => simp [bodyLines, piecesIn]
  | cons next more =>
    rw [← bodyLines_false, bodyLines]
    simp

/-- Behind a head that passes, the pieces of the body are parsed. -/
theorem replyLines_framed {heads : List (List Char)} {rxMessage body : List Char} (h : Framed heads rxMessage body) :
    replyLines rxMessage = if heads.head?.all statusOk then some (piecesOf body) else none := by
  obtain ⟨next, more, hbody⟩ := splitCrlf_eq_cons body
  have hlines : bodyLines true (splitCrlf rxMessage) = piecesOf body := by
    rw [h.split, hbody, bodyLines_heads (fun line hline => (h.lines line hline).1), ← hbody, bodyLines_body]
  rw [replyLines]
  cases heads with
  | nil =>
    rw [h.split, hbody] at hlines ⊢
    exact congrArg some hlines
  | cons line heads =>
    have hline : line.isEmpty = false := by simpa using (h.lines line List.mem_cons_self).1
    have hsplit : ∃ second rest, splitCrlf rxMessage = line :: second :: rest := by
      rw [h.split, hbody]
      cases heads <;> exact ⟨_, _, rfl⟩
    obtain ⟨second, rest, hsplit⟩ := hsplit
    rw [hsplit] at hlines ⊢
    simp only [hline, Bool.false_or, hlines, List.head?_cons, Option.all_some]
    rfl

theorem statusOk_of_200 {line : List Char} (h : statusIs200 line = true) : statusOk line = true := by
  simp only [statusIs200, Bool.and_eq_true, decide_eq_true_iff] at h
  obtain ⟨hversion, hword⟩ := h
  have hspace : ' ' ∈ line := by
    by_contra hno
    have hnone : line.dropWhile (· ≠ ' ') = [] :=
      List.dropWhile_eq_nil_iff.mpr fun c hc => decide_eq_true (ne_of_mem_of_not_mem hc hno)
    rw [hnone] at hword
    exact absurd hword (by decide)
  have htake : ((line.dropWhile (· ≠ ' ')).drop 1).take 3 = "200".toList := by
    have hfront := List.prefix_iff_eq_take.mp
      ( List.takeWhile_prefix (l := (line.dropWhile (· ≠ ' ')).drop 1) (· ≠ ' '))
    rw [hword] at hfront
    exact hfront.symm
  simp only [statusOk, Bool.and_eq_true, decide_eq_true_iff, List.contains_iff_mem]
  exact ⟨⟨hversion, hspace⟩, htake⟩

/-! ## Which messages are decoded -/

/-- The first value is always come to, and the others if it is answered. -/
theorem callsOn_cases (s : St) (pieces : List (List Char)) :
    (values E pieces = [] ∧ callsOn E s pieces = []) ∨
      ∃ jRes later, values E pieces = jRes :: values E later ∧
        callsOn E s pieces = jRes :: if answered s jRes then callsOn E (s.behind jRes) later else [] := by
  induction pieces with
  | nil => exact .inl ⟨rfl, rfl⟩
  | cons piece pieces ih =>
    rw [values, callsOn]
    cases E.parse piece with
    | error e => exact .inl ⟨rfl, rfl⟩
    | ok found =>
      cases found with
      | none => exact ih
      | some jRes => exact .inr ⟨jRes, pieces, rfl, rfl⟩

theorem callsOn_eq_nil_iff (s : St) (pieces : List (List Char)) : callsOn E s pieces = [] ↔ values E pieces = [] := by
  rcases callsOn_cases (E := E) s pieces with ⟨hvalues, hcalls⟩ | ⟨jRes, later, hvalues, hcalls⟩
  · simp [hvalues, hcalls]
  · simp [hvalues, hcalls]

/-- When the calls are one value or none. -/
theorem callsOn_eq_iff (s : St) (pieces : List (List Char)) {calls : List Json} (h : calls.length ≤ 1) :
    callsOn E s pieces = calls ↔ values E pieces = calls ∨
      ∃ jRes others, values E pieces = jRes :: others ∧ calls = [jRes] ∧ answered s jRes = false := by
  rcases calls with _ | ⟨jRes, _ | ⟨_, _⟩⟩
  · simp [callsOn_eq_nil_iff]
  · rcases callsOn_cases (E := E) s pieces with ⟨hvalues, hcalls⟩ | ⟨first, later, hvalues, hcalls⟩
    · simp [hvalues, hcalls]
    · rw [hvalues, hcalls]
      cases hanswered : answered s first with
      | true =>
        simp only [if_true, List.cons.injEq, callsOn_eq_nil_iff]
        refine ⟨.inl, ?_⟩
        rintro (h | ⟨_, _, ⟨rfl, rfl⟩, ⟨rfl, -⟩, hno⟩)
        · exact h
        · rw [hanswered] at hno
          cases hno
      | false =>
        simp only [Bool.false_eq_true, if_false, List.cons.injEq, and_true]
        refine ⟨?_, ?_⟩
        · rintro rfl
          exact .inr ⟨first, _, ⟨rfl, rfl⟩, rfl, hanswered⟩
        · rintro (h | ⟨_, _, ⟨rfl, rfl⟩, rfl, -⟩)
          · exact h.1
          · rfl
  · simp at h

theorem expected_length (heads : List (List Char)) (body : List Char) : (expected E heads body).length ≤ 1 := by
  unfold expected
  split
  · rw [values]
    rcases E.parse body with _ | _ | _ <;> simp [values]
  · exact Nat.zero_le 1

theorem faithful_iff_nil {rxMessage : List Char}
    (h : ∀ body jRes, Reply rxMessage body → E.parse body ≠ .ok (some jRes)) (calls : List Json) :
    Faithful E rxMessage calls ↔ calls = [] := by
  refine ⟨fun hfaithful => hfaithful.nothing h, fun hcalls => ⟨fun body jRes hreply hparse => ?_, fun _ => hcalls⟩⟩
  exact absurd hparse (h body jRes hreply)

/-- What is faithful to a message with a head. -/
theorem faithful_iff {heads : List (List Char)} {rxMessage body : List Char} (h : Framed heads rxMessage body)
    (calls : List Json) : Faithful E rxMessage calls ↔ calls = expected E heads body := by
  have hreply (body' : List Char) : Reply rxMessage body' → body' = body ∧ heads.head?.any statusIs200 = true := by
    rintro ⟨line, headers, hframed, hstatus⟩
    obtain ⟨rfl, rfl⟩ := h.unique hframed
    exact ⟨rfl, hstatus⟩
  by_cases hvalue : ∃ jRes, heads.head?.any statusIs200 = true ∧ E.parse body = .ok (some jRes)
  · obtain ⟨jRes, hstatus, hparse⟩ := hvalue
    have hexpected : expected E heads body = [jRes] := by simp [expected, hstatus, values, hparse]
    have hbody : Reply rxMessage body := by
      cases heads with
      | nil => cases hstatus
      | cons line headers => exact ⟨line, headers, h, hstatus⟩
    rw [hexpected]
    refine ⟨fun hfaithful => hfaithful.taken body jRes hbody hparse, fun hcalls => ⟨?_, ?_⟩⟩
    · intro body' jRes' hreply' hparse'
      obtain ⟨rfl, -⟩ := hreply body' hreply'
      cases hparse.symm.trans hparse'
      exact hcalls
    · intro hnone
      exact absurd hparse (hnone body jRes hbody)
  · have hexpected : expected E heads body = [] := by
      rw [expected]
      split
      · rename_i hstatus
        rw [values]
        rcases hparse : E.parse body with _ | _ | jRes
        · rfl
        · rfl
        · exact absurd ⟨jRes, hstatus, hparse⟩ hvalue
      · rfl
    rw [hexpected]
    refine faithful_iff_nil (fun body' jRes hreply' hparse => ?_) calls
    obtain ⟨rfl, hstatus⟩ := hreply body' hreply'
    exact hvalue ⟨jRes, hstatus, hparse⟩

theorem expected_of_bad_status {heads : List (List Char)} (h : ¬ heads.head?.all statusOk = true) (body : List Char) :
    expected E heads body = [] := by
  rw [expected, if_neg]
  intro hstatus
  cases heads with
  | nil => cases hstatus
  | cons line heads => exact h (statusOk_of_200 hstatus)

theorem faithful_iff_decodes (s : St) (rxMessage : List Char) :
    Faithful E rxMessage (callsOf E s rxMessage) ↔ Decodes E s rxMessage := by
  rw [callsOf_eq, heardOf]
  by_cases hframed : ∃ heads body, Framed heads rxMessage body
  · obtain ⟨heads, body, hframed⟩ := hframed
    have hdecodes : Decodes E s rxMessage ↔ (heads.head?.all statusOk = true →
        values E (piecesOf body) = expected E heads body ∨ ∃ jRes others, values E (piecesOf body) = jRes :: others ∧
          expected E heads body = [jRes] ∧ answered s jRes = false) := by
      refine ⟨fun h => h heads body hframed, fun h heads' body' hframed' => ?_⟩
      obtain ⟨rfl, rfl⟩ := hframed.unique hframed'
      exact h
    rw [faithful_iff hframed, hdecodes, replyLines_framed hframed]
    by_cases hstatus : heads.head?.all statusOk = true
    · rw [if_pos hstatus, imp_iff_right hstatus]
      exact callsOn_eq_iff s _ (expected_length heads body)
    · rw [if_neg hstatus]
      exact iff_of_true (expected_of_bad_status hstatus body).symm fun h => absurd h hstatus
  · rw [faithful_iff_nil fun body _ ⟨line, headers, h, _⟩ => absurd ⟨_, body, h⟩ hframed]
    refine iff_of_true ?_ fun heads body h => absurd ⟨heads, body, h⟩ hframed
    cases hlines : replyLines rxMessage with
    | none => rfl
    | some pieces =>
      rw [replyLines_of_not_framed hframed hlines]
      rfl

/-- `processResponse` is called once with the value of a reply's body, and with nothing else,
    exactly where the pieces make no difference. The loop ends on every message. -/
theorem reply_decoded_iff (E : Env) (s : St) (rxMessage : List Char) :
    (Faithful E rxMessage (callsOf E s rxMessage) ↔ Decodes E s rxMessage) ∧
      ∀ fuel, rxMessage.length < fuel → Erases (readReply E fuel rxMessage) (handleRead E (.ok rxMessage)) :=
  ⟨faithful_iff_decodes s rxMessage, fun _ hfuel => readReply_erases hfuel⟩

/-- On one line a body is its only piece. -/
theorem piecesOf_of_not_mem {body : List Char} (h : '\n' ∉ body) : piecesOf body = [body] := by
  have hfree : CrlfFree body := fun hin => h (hin.subset (by simp [crlf]))
  have hkept : body.filter (· ≠ '\n') = body :=
    List.filter_eq_self.mpr fun c hc => decide_eq_true (ne_of_mem_of_not_mem hc h)
  rw [piecesOf, splitCrlf_of_free hfree]
  exact congrArg (fun piece => [piece]) hkept

/-- The replies of a node that writes its documents on one line are decoded faithfully. -/
theorem one_line_reply_decoded {line body : List Char} {headers : List (List Char)} {rxMessage : List Char}
    (h : Framed (line :: headers) rxMessage body) (hstatus : statusIs200 line = true) (hbody : '\n' ∉ body) (s : St) :
    Faithful E rxMessage (callsOf E s rxMessage) := by
  refine (faithful_iff_decodes s rxMessage).mpr fun heads' body' h' _ => .inl ?_
  obtain ⟨rfl, rfl⟩ := h.unique h'
  rw [piecesOf_of_not_mem hbody]
  exact (if_pos hstatus).symm

def brokenBody : String := "\x7b\"id\":1,\r\n\"result\":[\"0x01\",\"0x02\",\"0x03\"]\x7d"

def brokenEnv : Env := { nodeEnv jobReply with
  parse := fun text => .ok (if text = brokenBody.toList then some jobReply else none) }

/-- The first job is a reply with a line end between its members, and is not taken. -/
theorem broken_reply_dropped : ∃ past s, Traced (step brokenEnv) (fun s => ∃ u maxId, s = init u maxId)
      (fun _ _ => true = true) past s ∧ 0 < s.reads ∧
    ¬ Faithful brokenEnv (okReply brokenBody) (callsOf brokenEnv s (okReply brokenBody)) := by
  obtain ⟨past, s, hrun, hreads, hcalls⟩ := traced_of_record (step brokenEnv)
    (I := fun s => ∃ u maxId, s = init u maxId) (fun _ _ => true) ⟨nodeUri, 0, rfl⟩ firstPoll
    (P := fun _ s => 0 < s.reads ∧ (callsOf brokenEnv s (okReply brokenBody)).isEmpty = true) (by decide +kernel)
  have hreply : Reply (okReply brokenBody) brokenBody.toList := by
    refine ⟨"HTTP/1.0 200 OK".toList, [], ⟨?_, by decide +kernel⟩, by decide⟩
    intro line hline
    rw [List.mem_singleton.mp hline]
    exact ⟨by decide, findCrlf_none (by decide)⟩
  refine ⟨past, s, hrun, hreads, fun hfaithful => ?_⟩
  have htaken := hfaithful.taken brokenBody.toList jobReply hreply (congrArg _ (if_pos rfl))
  rw [htaken] at hcalls
  cases hcalls

end CoreMiner.Getwork
