/-
  CoreMiner.Stratum.Exceptions — which lines throw out of the line loop
  (`XcbStratumClient.cpp`: `onRecvSocketDataCompleted`, the block number of a
  `mining.notify`).

  The handler around `processResponse` catches `std::exception`s. Two things get past it:
  what `Reader::parse` throws, which is called in front of the handler, and the pointer that
  an eth-proxy job with a block number out of range is answered with (`throw new`).
  `Escapes` says of a line whether it does one of these. Behind the lines the job they
  signalled is reported, and the manager's division by a boundary of zero throws outside any
  handler. A transmission is processed to its end, with the read armed again, exactly when no
  line of it escapes and the job it signals can be reported (`onRecvSocketDataCompleted_iff`).
-/

import CoreMiner.Stratum.Jobs
import CoreMiner.Stratum.SessionUse
import CoreMiner.Stratum.Transmission

namespace CoreMiner.Stratum

open DevCore EthCore Lib Prog

variable {E : Env}

/-! ## The messages that throw a pointer -/

def blockOutOfRange (prm : Json) (prmIdx : Nat) : Except StdException Bool := do
  let _ ← prm.strIdx 0
  let _ ← prm.strIdx prmIdx
  let _ ← prm.strIdx (prmIdx + 1)
  let _ ← prm.strIdx (prmIdx + 2)
  if prmIdx + 3 < prm.size then
    let text ← prm.strIdx (prmIdx + 3)
    if text.toList.take 2 = ['0', 'x'] then return maxBlock < toInt32 (← stoul text) else return false
  else return false

def badJob (j : Json) : Except StdException Bool := do
  let inResult ← j.isMember "result"
  let jPrm ← j.get (if inResult then "result" else "params") .null
  if jPrm.isArray && !jPrm.empty then blockOutOfRange jPrm (if inResult then 0 else 1) else return false

/-- Would this message throw a pointer at a client that takes jobs from `u`? -/
def throwsPointer (u : Uri) (j : Json) : Except StdException Bool := do
  if ← announces u j then
    if u.stratumMode = ETHPROXY then badJob j else return false
  else return false

/-- A job is taken once the session is subscribed, and one in each transmission. -/
def St.takesJob (s : St) : Bool := s.isSubscribed && !s.newjobprocessed

/-! ## One message -/

theorem readBlock_never_iff (prm : Json) (idx : Nat) (w : WorkPackage) :
    Never .exceptionPtr (readBlock prm idx) w ↔
      ∀ text, prm.strIdx idx = .ok text → ∀ n, stoul text = .ok n → ¬ maxBlock < toInt32 n := by
  have hcatch : Never .exceptionPtr (readBlock prm idx) w ↔ Never .exceptionPtr (do
      let text ← raise (prm.strIdx idx)
      let n ← raise (stoul text)
      modify fun w => { w with block := toInt32 n }
      when (maxBlock < toInt32 n) (throw .exceptionPtr)) w := by
    rw [Never, Never, readBlock, wp_catching, wp_iff_exec, wp_iff_exec]
    refine and_congr_right fun _ => forall₃_congr fun x t _ => ?_
    cases x <;> simp [Stop.isStd]
  rw [hcatch, never_raise_bind rfl]
  refine forall₂_congr fun text _ => ?_
  rw [never_raise_bind rfl]
  refine forall₂_congr fun n _ => ?_
  rw [never_modify_bind, never_when]
  exact imp_congr_right fun _ => iff_false_intro fun h => h rfl

theorem stratumJob_never_iff (prm : Json) (prmIdx : Nat) (w : WorkPackage) :
    Never .exceptionPtr (stratumJob ETHPROXY prm prmIdx) w ↔ blockOutOfRange prm prmIdx ≠ .ok true := by
  rw [stratumJob, blockOutOfRange, never_raise_bind rfl, except_bind_ne_ok_iff]
  refine forall₂_congr fun job _ => ?_
  rw [never_modify_bind, never_raise_bind rfl, except_bind_ne_ok_iff]
  refine forall₂_congr fun sHeaderHash _ => ?_
  rw [never_raise_bind rfl, except_bind_ne_ok_iff]
  refine forall₂_congr fun sSeedHash _ => ?_
  rw [never_raise_bind rfl, except_bind_ne_ok_iff]
  refine forall₂_congr fun sShareTarget _ => ?_
  rw [never_modify_bind, never_bind_iff_left, never_when]
  · by_cases hsize : prmIdx + 3 < prm.size
    · rw [if_pos hsize, never_raise_bind rfl, except_bind_ne_ok_iff, imp_iff_right ⟨rfl, hsize⟩]
      refine forall₂_congr fun text htext => ?_
      rw [never_when, readBlock_never_iff]
      by_cases hx : text.toList.take 2 = ['0', 'x']
      · rw [if_pos hx, except_bind_ne_ok_iff, imp_iff_right hx, htext]
        simp only [Except.ok.injEq, forall_eq']
        refine forall₂_congr fun n _ => ?_
        show _ ↔ Except.ok (decide (maxBlock < toInt32 n)) ≠ .ok true
        rw [ne_eq, Except.ok.injEq, decide_eq_true_iff]
      · rw [if_neg hx]
        exact iff_of_true (fun h => absurd h hx) nofun
    · rw [if_neg hsize]
      exact iff_of_true (fun h => absurd h.2 hsize) nofun
  · intro _ t
    refine Throws.never_exceptionPtr ?_ t
    exact .bind (.raise _) fun _ => .bind (.raise _) fun _ => .bind (.modify _) fun _ => .bind (.raise _) fun _ =>
      .bind (.modify _) fun _ => .bind (.raise _) fun _ => .modify _

theorem notify_never_iff {u : Uri} (hu : u.stratumMode = ETHPROXY) (j : Json) (s : St) :
    Never .exceptionPtr (notify u j) s ↔ (s.takesJob = true → badJob j ≠ .ok true) := by
  rw [notify, Never, wp_bind, wp_get, St.takesJob, St.isSubscribed]
  cases hs : s.session with
  | none => exact iff_of_true trivial (by simp)
  | some session =>
    show Never .exceptionPtr (when _ _) s ↔ _
    rw [never_when]
    refine imp_congr_right fun _ => ?_
    rw [badJob, jobInResult, if_pos hu, never_raise_bind rfl, except_bind_ne_ok_iff]
    refine forall₂_congr fun inResult _ => ?_
    rw [never_raise_bind rfl, except_bind_ne_ok_iff]
    refine forall₂_congr fun jPrm _ => ?_
    rw [never_when]
    by_cases harr : (jPrm.isArray && !jPrm.empty) = true
    · rw [if_pos harr, imp_iff_right harr, ← stratumJob_never_iff _ _ s.current,
        never_bind_iff_left fun _ t => (Tame.when fun _ => signalJob_tame).never_exceptionPtr t]
      rw [Never, onCurrent, wp_zoom, legacyJob, hu, if_neg (by decide), wp_bind]
      rfl
    · rw [if_neg harr]
      exact iff_of_true (fun h => absurd h harr) fun h => by cases h

theorem takeJob_never_iff (u : Uri) (j : Json) (s : St) :
    Never .exceptionPtr (takeJob u j) s ↔ (s.takesJob = true → u.stratumMode = ETHPROXY → badJob j ≠ .ok true) := by
  by_cases hu : u.stratumMode = ETHPROXY
  · rw [takeJob, hu, if_pos (by decide), notify_never_iff hu]
    simp
  · refine iff_of_true (Tame.never_exceptionPtr ?_ s) fun _ h => absurd h hu
    exact .ite (fun _ => notify_tame (fun h => absurd h hu) j) fun _ => notify2_tame j

theorem processResponse_never_iff {s : St} {a : Nat} (hc : s.conn = some a) (j : Json) :
    Never .exceptionPtr (processResponse E j) s ↔
      (s.takesJob = true → throwsPointer (s.uris a) j ≠ .ok true) := by
  have hsame : Never .exceptionPtr (processResponse E j) s ↔ Never .exceptionPtr (processFor E (s.uris a) j) s := by
    unfold Never wp
    rw [processResponse_eq hc]
  rw [hsame, throwsPointer, except_bind_ne_ok_iff]
  by_cases ha : announces (s.uris a) j = .ok true
  · rw [processFor_of_announces ha, takeJob_never_iff, ha]
    by_cases hu : (s.uris a).stratumMode = ETHPROXY
    · simp [hu]
    · simp [hu, pure, Except.pure]
  · refine iff_of_true ((processFor_of_not_announces ha).tame.never_exceptionPtr s) fun _ b hb => ?_
    cases b with
    | true => exact absurd hb ha
    | false => simp [pure, Except.pure]

/-! ## One line -/

/-- A client with a session: nothing a message follows is null. -/
structure St.Live (s : St) : Prop where
  conn : s.conn.isSome = true
  session : s.session.isSome = true
  stream : s.isConnected = true → ∀ a, s.conn = some a → s.hasStream (s.uris a) = true

/-- There is a connection, and the stream object that is read from. -/
def St.wired (s : St) : Bool := s.conn.any fun a => !s.isConnected || s.hasStream (s.uris a)

theorem St.wired_iff {s : St} :
    s.wired = true ↔ ∃ a, s.conn = some a ∧ (s.isConnected = true → s.hasStream (s.uris a) = true) := by
  rw [St.wired, Option.any_eq_true]
  refine exists_congr fun a => and_congr_right fun _ => ?_
  cases s.isConnected <;> simp

theorem St.Live.wired {s : St} (hs : s.Live) : s.wired = true := by
  obtain ⟨a, ha⟩ := Option.isSome_iff_exists.mp hs.conn
  exact St.wired_iff.mpr ⟨a, ha, fun hconnected => hs.stream hconnected a ha⟩

/-- Then only a session can be missing. -/
theorem St.wired_blame {s : St} (hs : s.wired = true) {c : Faults} {x : Stop} (hx : Blame c x s) :
    x.isStd = true ∨ x = .exceptionPtr ∨ x = .nullSession := by
  obtain ⟨a, ha, hstream⟩ := St.wired_iff.mp hs
  cases x with
  | exception => exact .inl rfl
  | exceptionPtr => exact .inr (.inl rfl)
  | nullConn => cases ha.symm.trans hx
  | nullSession => exact .inr (.inr rfl)
  | nullSocket =>
    obtain ⟨hconnected, b, hb, hnone⟩ := hx
    cases ha.symm.trans hb
    rw [hstream hconnected] at hnone
    cases hnone
  | emptyEndpoints => exact hx.elim

/-- The line is parsed with an exception, or its message throws a pointer at the client. -/
def Escapes (E : Env) (s : St) (line : List Char) : Prop :=
  trim line ≠ [] ∧ match E.parse (trim line) with
    | .error _ => True
    | .ok none => False
    | .ok (some j) => s.takesJob = true ∧ ∃ a, s.conn = some a ∧ throwsPointer (s.uris a) j = .ok true

/-- Its message follows `m_session`. -/
def UsesSession (E : Env) (s : St) (line : List Char) : Prop :=
  trim line ≠ [] ∧ ∃ j, E.parse (trim line) = .ok (some j) ∧ ∃ a, s.conn = some a ∧ usesSession (s.uris a) j = .ok true

/-- A line comes back to the loop exactly when it does not escape, and does not miss a session. -/
theorem takeLine_returns_iff {s : St} (hs : s.wired = true) (line : List Char) :
    wp (takeLine E line) (fun _ _ => True) (fun _ _ => False) s ↔
      ¬ Escapes E s line ∧ (UsesSession E s line → s.session.isSome = true) := by
  rw [takeLine, handleLine, wp_bind, wp_when, Escapes, UsesSession, not_and]
  by_cases hline : trim line = []
  · simp [hline]
  · rw [if_pos (by simpa using hline), imp_iff_right hline, processLine, wp_bind, wp_raise]
    cases E.parse (trim line) with
    | error e => simp
    | ok j =>
      cases j with
      | none => simp
      | some j =>
        obtain ⟨a, ha, -⟩ := St.wired_iff.mp hs
        have hptr := processResponse_never_iff (E := E) ha j
        have hsession := processResponse_safe_iff (E := E) ha j
        simp only [ha, Option.some.injEq, exists_eq_left', not_and, Except.ok.injEq, ne_eq, hline, not_false_eq_true,
          true_and]
        rw [← hptr, ← hsession, wp_catching]
        have htame := (wp_iff_exec.mp ((processResponse_tame (E := E) j).from_ s)).2
        unfold Never wp
        rcases hexec : (processResponse E j).exec s with ⟨x | _, t⟩
        · rcases St.wired_blame hs (htame x t hexec).2 with hstd | rfl | rfl
          · have hne : x ≠ .exceptionPtr ∧ x ≠ .nullSession := by
              constructor <;> (rintro rfl; cases hstd)
            simp [hstd, hne]
          · simp [Stop.isStd]
          · simp [Stop.isStd]
        · simp

theorem takeLine_ends_iff {s : St} (hs : s.Live) (line : List Char) :
    wp (takeLine E line) (fun _ _ => True) (fun _ _ => False) s ↔ ¬ Escapes E s line := by
  rw [takeLine_returns_iff hs.wired, and_iff_left fun _ => hs.session]

/-! ## A transmission -/

theorem Consumed.isConnected {s t : St} (h : Consumed s t) : t.isConnected = s.isConnected := by
  have hl : t.link = s.link := h.link
  simp only [St.isConnected, St.isPendingState, show t.connected = s.connected from congrArg Link.connected hl,
    show t.connecting = s.connecting from congrArg Link.connecting hl,
    show t.disconnecting = s.disconnecting from congrArg Link.disconnecting hl]

theorem Consumed.hasStream {s t : St} (h : Consumed s t) (a : Nat) :
    t.hasStream (t.uris a) = s.hasStream (s.uris a) := by
  have hl : t.link = s.link := h.link
  rw [St.hasStream, (h.uris a).secure, show t.securesocket = s.securesocket from congrArg Link.securesocket hl,
    show t.socket = s.socket from congrArg Link.socket hl]
  rfl

theorem Consumed.wired {s t : St} (h : Consumed s t) : t.wired = s.wired := by
  rw [St.wired, h.conn, h.isConnected, St.wired]
  simp only [h.hasStream]

theorem Consumed.live {s t : St} (h : Consumed s t) (hs : s.Live) : t.Live := by
  refine ⟨h.conn ▸ hs.conn, h.session hs.session, fun hc a ha => ?_⟩
  rw [h.hasStream]
  exact hs.stream (h.isConnected ▸ hc) a (h.conn ▸ ha)

def St.rearmed (s : St) : St :=
  { s with log := s.work ++ s.log, reads := s.reads + if s.isConnected then 1 else 0 }

/-- Behind the loop only the report stops the client from arming the read again. -/
theorem wp_afterLines {s : St} (hs : s.Live) {Q : Unit → St → Prop} {X : Stop → St → Prop} :
    wp afterLines Q X s ↔ (s.Reportable → Q () s.rearmed) ∧
      (¬ s.Reportable → X (.exception .runtimeError) { s with log := s.work ++ s.log }) := by
  obtain ⟨a, ha⟩ := Option.isSome_iff_exists.mp hs.conn
  have harm : wp (when s.isConnected recvSocketData) Q X { s with log := s.work ++ s.log } ↔ Q () s.rearmed := by
    rw [wp_when, St.rearmed]
    by_cases hc : s.isConnected = true
    · have hstream : (if (s.uris a).secure then s.securesocket else s.socket) = true := hs.stream hc a ha
      rw [if_pos hc, if_pos hc, recvSocketData, wp_bind, wp_stream]
      simp [ha, St.hasStream, hstream]
    · rw [if_neg hc, if_neg hc]
      rfl
  rw [afterLines, wp_bind, wp_get, wp_bind, wp_work, harm]

theorem exec_afterLines {s : St} (hs : s.Live) (hr : s.Reportable) : afterLines.exec s = (.ok (), s.rearmed) := by
  have hwp : wp afterLines (fun _ t => t = s.rearmed) (fun _ _ => False) s :=
    (wp_afterLines hs).mpr ⟨fun _ => rfl, fun h => h hr⟩
  rw [wp] at hwp
  rcases hexec : afterLines.exec s with ⟨x | _, t⟩
  · rw [hexec] at hwp
    exact hwp.elim
  · rw [hexec] at hwp
    rw [show t = s.rearmed from hwp]

def Survives (E : Env) (s : St) (rxMessage : List Char) : Prop :=
  wp (onRecvSocketDataCompleted E (some rxMessage))
    (fun _ t => t.message = Lines.rest '\n' (s.message ++ rxMessage) ∧
      t.reads = s.reads + if s.isConnected then 1 else 0)
    (fun _ _ => False) s

instance (s : St) (rxMessage : List Char) : Decidable (Survives E s rxMessage) :=
  inferInstanceAs (Decidable (wp _ _ _ s))

theorem consume_ends_iff {s : St} (hs : s.Live) (lines : List (List Char)) :
    wp (consume E lines) (fun _ _ => True) (fun _ _ => False) s ↔
      ∀ pre line post t, lines = pre ++ line :: post → (consume E pre).exec s = (.ok (), t) → ¬ Escapes E t line := by
  unfold consume
  rw [wp_forM_iff]
  refine forall₄_congr fun pre line post t => imp_congr_right fun _ => forall_congr' fun ht => ?_
  have hconsumed := (wp_iff_exec.mp ((consume_keeps pre).from_ s)).1 _ t ht
  exact takeLine_ends_iff (hconsumed.live hs) line

/-- What arrives at a client with a session is processed to the last line, and the read is
    armed again, exactly when no line escapes, each in the state the lines before it left, and
    the job that is signalled behind the last one, if any, is void or has a boundary. -/
theorem onRecvSocketDataCompleted_iff {s : St} (hs : s.Live) (rxMessage : List Char) :
    Survives E s rxMessage ↔
      (∀ pre line post t, Lines.lines '\n' (s.message ++ rxMessage) = pre ++ line :: post →
        (consume E pre).exec (s.receiving rxMessage) = (.ok (), t) → ¬ Escapes E t line) ∧
      ∀ t, (consume E (Lines.lines '\n' (s.message ++ rxMessage))).exec (s.receiving rxMessage) = (.ok (), t) →
        t.newjobprocessed = true → t.current.header ≠ .zero 32 → t.current.boundary ≠ .zero 32 := by
  have hlive : (s.receiving rxMessage).Live := ⟨hs.conn, hs.session, hs.stream⟩
  have hbehind (t : St) (ht : (consume E (Lines.lines '\n' (s.message ++ rxMessage))).exec (s.receiving rxMessage) =
      (.ok (), t)) : wp afterLines (fun _ t => t.message = Lines.rest '\n' (s.message ++ rxMessage) ∧
        t.reads = s.reads + if s.isConnected then 1 else 0) (fun _ _ => False) t ↔ t.Reportable := by
    have hconsumed := (wp_iff_exec.mp ((consume_keeps (E := E) _).from_ (s.receiving rxMessage))).1 _ t ht
    have hmessage := (wp_iff_exec.mp (consume_message (E := E) _ (s.receiving rxMessage))).1 _ t ht
    rw [wp_afterLines (hconsumed.live hlive)]
    refine ⟨fun h => by_contra h.2, fun hr => ⟨fun _ => ⟨?_, ?_⟩, fun h => h hr⟩⟩
    · exact hmessage.trans (Lines.drop_lines '\n' (s.message ++ rxMessage))
    · show t.reads + (if t.isConnected then 1 else 0) = _
      rw [hconsumed.isConnected, show t.reads = s.reads from hconsumed.reads]
      rfl
  rw [← consume_ends_iff hlive, Survives, onRecvSocketDataCompleted_eq, wp_bind, wp_processTransmission, wp_iff_exec,
    wp_iff_exec]
  constructor
  · rintro ⟨hends, hstops⟩
    exact ⟨⟨fun _ _ _ => trivial, hstops⟩, fun t ht => (hbehind t ht).mp (hends () t ht)⟩
  · rintro ⟨⟨-, hstops⟩, hreports⟩
    exact ⟨fun _ t ht => (hbehind t ht).mpr (hreports t ht), hstops⟩

/-! ## An eth-proxy job far in the future -/

def proxyLogin : String × Json := ("\x7b\"id\":1,\"result\":true\x7d", .obj [("id", .int 1), ("result", .bool true)])

def futureJob : String × Json :=
  ("\x7b\"id\":0,\"result\":[\"0x0a\",\"0x0b\",\"0x0c\",\"0x9660181\"]\x7d",
    .obj [("id", .int 0), ("result", .arr [.str "0x0a", .str "0x0b", .str "0x0c", .str "0x9660181"])])

def proxyWork : String × Json :=
  ("\x7b\"id\":0,\"result\":[\"0x" ++ String.ofList (List.replicate 64 '1') ++ "\",\"0x0b\",\"0x0c\"]\x7d",
    .obj [("id", .int 0),
      ("result", .arr [.str ("0x" ++ String.ofList (List.replicate 64 '1')), .str "0x0b", .str "0x0c"])])

def proxyEnv : Env := tableEnv [proxyLogin, futureJob, proxyWork]

def proxyTrace : List Ev := connectTrace ++ [.received (lineOf proxyLogin), .run none]

theorem proxy_reached {p : St → Prop} [DecidablePred p]
    (hp : (play proxyEnv (init fun _ => plainUri ETHPROXY) proxyTrace).any (fun s =>
      s.conn = some 0 ∧ s.session.isSome = true ∧ s.hasStream (s.uris 0) = true ∧ p s) = true) :
    ∃ s, Reach proxyEnv s ∧ s.Live ∧ p s := by
  obtain ⟨s, hs, hconn, hsession, hstream, hp⟩ := reach_of_trace proxyEnv
    (fun _ => plainUri_fresh ETHPROXY (.inl (by decide))) proxyTrace hp
  refine ⟨s, hs, ⟨by simp [hconn], hsession, fun _ a ha => ?_⟩, hp⟩
  cases hconn.symm.trans ha
  exact hstream

/-- The job with the block number over the limit is not processed to its end. -/
theorem future_job_escapes : ∃ s, Reach proxyEnv s ∧ s.Live ∧ ¬ Survives proxyEnv s (lineOf futureJob) :=
  proxy_reached (by decide +kernel)

/-- A job without a block number is dispatched by the same client, which reads on. -/
theorem plain_job_survives : ∃ s, Reach proxyEnv s ∧ s.Live ∧
    (∀ pre line post t, Lines.lines '\n' (s.message ++ lineOf proxyWork) = pre ++ line :: post →
      (consume proxyEnv pre).exec (s.receiving (lineOf proxyWork)) = (.ok (), t) → ¬ Escapes proxyEnv t line) ∧
    ∀ t, (consume proxyEnv (Lines.lines '\n' (s.message ++ lineOf proxyWork))).exec (s.receiving (lineOf proxyWork)) =
      (.ok (), t) → t.newjobprocessed = true → t.current.header ≠ .zero 32 → t.current.boundary ≠ .zero 32 := by
  obtain ⟨s, hs, hlive, hsurvives⟩ := proxy_reached (p := fun s => Survives proxyEnv s (lineOf proxyWork))
    (by decide +kernel)
  exact ⟨s, hs, hlive, (onRecvSocketDataCompleted_iff hlive _).mp hsurvives⟩

end CoreMiner.Stratum
