/-
  CoreMiner.Stratum.JobParameters — boundary, start nonce and extranonce size of the jobs a
  CoreStratum pool sends (`XcbStratumClient.cpp`: `mining.notify`, `mining.set_difficulty`,
  `mining.set_extranonce`, `mining.set`).

  A job copies the session (`jobProgram_params`), and the session is what the messages before
  the job left in it (`Tracks`). So the extranonce of a dispatched job is the last one
  announced before the job's line. Its boundary is the one last announced exactly when that
  was no difficulty above the least one (`job_follows_announcements`).
-/

import CoreMiner.Stratum.Announcements

namespace CoreMiner.Stratum

open DevCore EthCore Lib Prog

variable {E : Env} {s t : St} {a mode : Nat} {j : Json}

/-! ## Jobs copy the session -/

def jobParams (w : WorkPackage) : Params := ⟨w.boundary, w.startNonce, w.exSizeBytes⟩

/-- The same package but for the job id and the block. -/
def Renamed (w w' : WorkPackage) : Prop := w' = { w with job := w'.job, block := w'.block }

theorem Renamed.trans {w w' w'' : WorkPackage} (h : Renamed w w') (h' : Renamed w' w'') : Renamed w w'' := by
  rw [Renamed] at *
  rw [h', h]

theorem coreStratumJob_params (session : Session) (prm : Json) (w : WorkPackage) :
    wp (coreStratumJob session prm) (fun isNew w' => isNew = true → jobParams w' = session.params)
      (fun _ _ => True) w := by
  refine wp_raise_bind_of fun job _ => wp_modify_bind_of (wp_raise_bind_of fun sSeedHash _ =>
    wp_raise_bind_of fun sHeaderHash _ => ?_)
  split
  · refine wp_raise_bind_of fun seed _ => wp_modify_bind_of (wp_raise_bind_of fun header _ => wp_modify_bind_of ?_)
    exact fun _ => rfl
  · exact nofun

/-- A job that throws has stored its id and its block at most. -/
theorem coreStratum2Job_params (session : Session) (prm : Json) (w : WorkPackage) :
    wp (coreStratum2Job session prm) (fun _ w' => jobParams w' = session.params) (fun _ w' => Renamed w w') w := by
  rw [coreStratum2Job]
  cases prm.strIdx 0 with
  | error e => exact rfl
  | ok job =>
    rw [raise_ok_bind, wp_bind, wp_modify]
    show wp (raise (coreStratum2Block prm) >>= _) _ _ _
    cases coreStratum2Block prm with
    | error e => exact rfl
    | ok block =>
      rw [raise_ok_bind, wp_bind, wp_modify]
      show wp (raise (coreStratum2Header prm) >>= _) _ _ _
      cases coreStratum2Header prm with
      | error e => exact rfl
      | ok header =>
        rw [raise_ok_bind, wp_bind, wp_modify, h256_hex, raise_ok_bind, wp_modify]
        exact rfl

theorem jobProgram_params {u : Uri} (hm : u.stratumMode = CORESTRATUM ∨ u.stratumMode = CORESTRATUM2)
    {session : Option Session} {p : Prog WorkPackage Stop Bool} (hp : jobProgram u session j = .ok (some p))
    (w : WorkPackage) :
    ∃ x, session = some x ∧ wp p (fun isNew w' => isNew = true → jobParams w' = x.params) (fun _ _ => True) w := by
  rcases hm with hu | hu
  · obtain ⟨x, _, prm, hx, -, -, rfl⟩ := jobProgram_eq_legacy (by rw [hu]; decide) hp
    refine ⟨x, hx, ?_⟩
    rw [legacyJob, if_pos hu]
    exact coreStratumJob_params x prm w
  · obtain ⟨x, prm, hx, -, rfl⟩ := jobProgram_eq_coreStratum2 hu hp
    refine ⟨x, hx, wp_bind.mpr ?_⟩
    exact wp_mono (coreStratum2Job_params x prm w) (fun _ _ h _ => h) fun _ _ _ => trivial

/-! ## The line a package comes from -/

/-- The line is a job processed to its end, and `w` is what it left, but for the id and block
    a malformed job behind it may have put there. -/
def Took (E : Env) (s : St) (line : List Char) (w : WorkPackage) : Prop :=
  ∃ p w', lineJob E s line = some p ∧ p.exec s.current = (.ok true, w') ∧ Renamed w' w

theorem Took.renamed {line : List Char} {w w' : WorkPackage} (h : Took E s line w) (hw : Renamed w w') :
    Took E s line w' := by
  obtain ⟨p, w₀, hp, hw₀, hrenamed⟩ := h
  exact ⟨p, w₀, hp, hw₀, hrenamed.trans hw⟩

theorem handleLine_takes (hc : s.conn = some a)
    (hm : (s.uris a).stratumMode = CORESTRATUM ∨ (s.uris a).stratumMode = CORESTRATUM2) (line : List Char) :
    Accounts E (Took E) s line := by
  by_cases hidle : ∀ p, lineJob E s line = some p → s.refusesJob (s.uris a) = true
  · refine wp_mono (handleLine_idle hc hidle) (fun _ t ht htnew => ?_) fun _ _ h => h
    exact .inl ⟨ht.2.symm.trans htnew, fun _ _ h => by rwa [ht.1]⟩
  · obtain ⟨p, hp, href⟩ : ∃ p, lineJob E s line = some p ∧ s.refusesJob (s.uris a) = false := by simpa using hidle
    obtain ⟨_, j, b, -, hconn, -, hprog⟩ := lineJob_eq_some hp
    cases hc.symm.trans hconn
    -- A job that is not new, or throws, leaves a package signalled before it alone but for id and block.
    have hrenames : wp p (fun isNew w => isNew = false → s.newjobprocessed = true → Renamed s.current w)
        (fun _ w => s.newjobprocessed = true → Renamed s.current w) s.current := by
      rcases hm with hu | hu
      · have hfresh : s.newjobprocessed = false := by simpa [St.refusesJob, hu] using href
        simp [hfresh, wp_iff_exec]
      · obtain ⟨x, prm, -, -, rfl⟩ := jobProgram_eq_coreStratum2 hu hprog
        refine wp_bind.mpr (wp_mono (coreStratum2Job_params x prm s.current) (fun _ _ _ h => ?_) fun _ _ h _ => h)
        cases h
    rw [Accounts, wp_handleLine_of_job hc hp href, wp_iff_exec]
    obtain ⟨hok, herror⟩ := wp_iff_exec.mp hrenames
    refine ⟨fun isNew w hw hnew => ?_, fun x w hw => ?_⟩
    · cases isNew with
      | true => exact .inr ⟨p, w, hp, hw, rfl⟩
      | false => exact .inl ⟨hnew, fun _ _ h => h.renamed (hok false w hw rfl hnew)⟩
    · split
      · exact fun hnew => .inl ⟨hnew, fun _ _ h => h.renamed (herror x w hw hnew)⟩
      · trivial

/-! ## The session behind the messages -/

def messageOf (E : Env) (line : List Char) : Option Json :=
  if trim line = [] then none else (E.parse (trim line)).toOption.join

def messagesOf (E : Env) (lines : List (List Char)) : List Json := lines.filterMap (messageOf E)

/-- These parameters are the last ones announced, if every difficulty has the boundary `least`. -/
structure Heeded (least : H256) (mode : Nat) (messages : List Json) (p : Params) : Prop where
  boundary : lastOf (Announcement.boundary? fun _ => some least) mode messages = some p.boundary
  extranonce : lastExtranonce mode messages = some (p.startNonce, p.exSizeBytes)

structure Tracks (least : H256) (a mode : Nat) (messages : List Json) (s : St) : Prop where
  conn : s.conn = some a
  flavour : (s.uris a).stratumMode = mode
  confirmed : s.session.isSome = true → (s.uris a).stratumModeConfirmed = true
  heeded : ∀ x, s.session = some x → Heeded least mode messages x.params

section

variable {least : H256} {messages : List Json}

theorem Heeded.behind {p : Params} (h : Heeded least mode messages p) (j : Json) :
    Heeded least mode (messages ++ [j]) (p.behind least (announcement mode j)) where
  boundary := by
    rw [lastOf_concat, h.boundary, Params.behind]
    cases (announcement mode j).boundary? fun _ => some least <;> rfl
  extranonce := by
    have hbefore : lastOf Announcement.extranonce? mode messages = some (p.startNonce, p.exSizeBytes) := h.extranonce
    rw [lastExtranonce, lastOf_concat, hbefore, Params.behind]
    cases (announcement mode j).extranonce? <;> rfl

/-- A session begins with parameters of its own. -/
theorem heeded_session {enonce : String} (h : announcement mode j = .session enonce) :
    Heeded least mode (messages ++ [j]) (Params.initial.behind least (announcement mode j)) where
  boundary := by
    rw [lastOf_concat, h]
    rfl
  extranonce := by
    rw [lastExtranonce, lastOf_concat, h]
    rfl

theorem Tracks.step (h : Tracks least a mode messages s) (ht : Processed s t)
    (hf : Followed least (announcement mode j) a s t) : Tracks least a mode (messages ++ [j]) t where
  conn := ht.conn.trans h.conn
  flavour := by
    rw [(ht.uris a).same]
    exact h.flavour
  confirmed := by
    intro hsome
    obtain ⟨y, hy⟩ := Option.isSome_iff_exists.mp hsome
    obtain ⟨p, -, ⟨-, -, hconfirmed⟩ | hp⟩ := hf y hy
    · exact hconfirmed
    · refine (ht.uris a).confirmed (h.confirmed ?_)
      obtain ⟨x, hx, -⟩ := Option.map_eq_some_iff.mp hp
      rw [hx]
      rfl
  heeded := by
    intro y hy
    obtain ⟨p, hparams, ⟨⟨enonce, hann⟩, rfl, -⟩ | hp⟩ := hf y hy
    · rw [hparams]
      exact heeded_session hann
    · obtain ⟨x, hx, rfl⟩ := Option.map_eq_some_iff.mp hp
      rw [hparams]
      exact (h.heeded x hx).behind j

section

variable (hE : h256 leastTarget = .ok least) (hm : mode = CORESTRATUM ∨ mode = CORESTRATUM2)

include hE hm

theorem guarded_tracks (h : Tracks least a mode messages s) (hr : (announcement mode j).Readable) :
    wp (guarded E j) (fun _ t => Tracks least a mode (messages ++ [j]) t) (fun _ _ => True) s := by
  have hleads : Leads least (announcement mode j) a (processResponse E j) s := by
    unfold Leads wp
    rw [processResponse_eq h.conn]
    exact processFor_leads hE h.conn h.flavour hm h.confirmed hr
  rw [guarded, wp_catching]
  refine wp_mono (wp_and ((processResponse_tame (E := E) j).from_ s) hleads) (fun _ t ht => h.step ht.1 ht.2)
    fun x t ht => ?_
  split
  case isTrue hstd => exact h.step ht.1.1 (ht.2 hstd)
  case isFalse => trivial

theorem handleLine_tracks (h : Tracks least a mode messages s) {line : List Char}
    (hr : ∀ j, messageOf E line = some j → (announcement mode j).Readable) :
    wp (handleLine E line) (fun _ t => Tracks least a mode (messages ++ (messageOf E line).toList) t)
      (fun _ _ => True) s := by
  unfold messageOf at hr ⊢
  by_cases hline : trim line = []
  · rw [handleLine, if_pos hline, wp_when, hline, Option.toList_none, List.append_nil]
    exact h
  · rw [if_neg hline] at hr ⊢
    unfold wp
    rw [exec_handleLine hline]
    rcases hparse : E.parse (trim line) with e | _ | j
    · trivial
    · show Tracks least a mode (messages ++ []) s
      rwa [List.append_nil]
    · exact guarded_tracks hE hm h (hr j (by rw [hparse]; rfl))

theorem consume_tracks (h : Tracks least a mode messages s) {lines : List (List Char)}
    (hr : ∀ j ∈ messagesOf E lines, (announcement mode j).Readable) :
    wp (consume E lines) (fun _ t => Tracks least a mode (messages ++ messagesOf E lines) t) (fun _ _ => True) s := by
  refine wp_forM_of_step (I := fun lines t => Tracks least a mode (messages ++ messagesOf E lines) t)
    (by simpa [messagesOf] using h) fun pre line post t hl _ hI => ?_
  have hmessages : messagesOf E (pre ++ [line]) = messagesOf E pre ++ (messageOf E line).toList := by
    rw [messagesOf, List.filterMap_append]
    cases hline : messageOf E line <;> simp [messagesOf, hline]
  have hread : ∀ j, messageOf E line = some j → (announcement mode j).Readable := by
    intro j hj
    refine hr j (List.mem_filterMap.mpr ⟨line, ?_, hj⟩)
    simp [hl]
  rw [takeLine, wp_bind]
  refine wp_mono (handleLine_tracks hE hm hI hread) (fun _ u hu => ?_) fun _ _ h => h
  rw [wp_modify, hmessages, ← List.append_assoc]
  exact ⟨hu.conn, hu.flavour, hu.confirmed, hu.heeded⟩

theorem onRecvSocketDataCompleted_tracks (h : Tracks least a mode messages s) {rxMessage : List Char}
    (hr : ∀ j ∈ messagesOf E (Lines.lines '\n' (s.message ++ rxMessage)), (announcement mode j).Readable) :
    wp (onRecvSocketDataCompleted E (some rxMessage))
      (fun _ t => Tracks least a mode (messages ++ messagesOf E (Lines.lines '\n' (s.message ++ rxMessage))) t ∧
        t.message = Lines.rest '\n' (s.message ++ rxMessage)) (fun _ _ => True) s := by
  have hreceiving : Tracks least a mode messages (s.receiving rxMessage) := ⟨h.conn, h.flavour, h.confirmed, h.heeded⟩
  rw [onRecvSocketDataCompleted_eq, wp_bind, wp_processTransmission]
  refine wp_mono (wp_and (consume_tracks hE hm hreceiving hr) (consume_message _ _)) (fun _ t ht => ?_)
    fun _ _ h => trivial
  refine wp_mono (afterLines_dispatches t) ?_ fun _ _ _ => trivial
  rintro _ u ⟨-, n, rfl⟩
  exact ⟨⟨ht.1.conn, ht.1.flavour, ht.1.confirmed, ht.1.heeded⟩,
    ht.2.trans (Lines.drop_lines '\n' (s.message ++ rxMessage))⟩

theorem receiveAll_tracks (h : Tracks least a mode [] s) (hs : '\n' ∉ s.message) {reads : List (List Char)}
    (hr : ∀ j ∈ messagesOf E (Lines.lines '\n' (s.message ++ reads.flatten)), (announcement mode j).Readable) :
    wp (receiveAll E reads)
      (fun _ t => Tracks least a mode (messagesOf E (Lines.lines '\n' (s.message ++ reads.flatten))) t ∧
        t.message = Lines.rest '\n' (s.message ++ reads.flatten)) (fun _ _ => True) s := by
  refine wp_forM_of_step (I := fun reads t =>
    Tracks least a mode (messagesOf E (Lines.lines '\n' (s.message ++ reads.flatten))) t ∧
      t.message = Lines.rest '\n' (s.message ++ reads.flatten)) ?_ fun pre rxMessage post t hl _ hI => ?_
  · rw [List.flatten_nil, List.append_nil, Lines.lines, Lines.rest, Lines.cut_of_not_mem hs]
    exact ⟨h, rfl⟩
  · have hflat : s.message ++ (pre ++ [rxMessage]).flatten = (s.message ++ pre.flatten) ++ rxMessage := by simp
    have hlines : Lines.lines '\n' (s.message ++ (pre ++ [rxMessage]).flatten) =
        Lines.lines '\n' (s.message ++ pre.flatten) ++ Lines.lines '\n' (t.message ++ rxMessage) := by
      rw [hflat, Lines.lines_append, hI.2]
    have hread : ∀ j ∈ messagesOf E (Lines.lines '\n' (t.message ++ rxMessage)), (announcement mode j).Readable := by
      intro j hj
      refine hr j ?_
      have hall : s.message ++ reads.flatten = (s.message ++ (pre ++ [rxMessage]).flatten) ++ post.flatten := by
        simp [hl]
      rw [hall, Lines.lines_append, hlines, messagesOf, List.filterMap_append, List.filterMap_append]
      exact List.mem_append_left _ (List.mem_append_right _ hj)
    refine wp_mono (onRecvSocketDataCompleted_tracks hE hm hI.1 hread) (fun _ u hu => ?_) fun _ _ h => h
    rw [hlines, hflat, Lines.rest_append, ← hI.2, messagesOf, List.filterMap_append]
    exact hu

end

end

/-! ## Difficulties -/

/-- A boundary that every difficulty sets to the least one's is the boundary last announced,
    unless that was a greater difficulty's. -/
theorem lastBoundary_iff {target : Rat → H256} (hinj : ∀ d, leastDifficulty < d → target d ≠ target leastDifficulty)
    {messages : List Json} (hr : ∀ j ∈ messages, (announcement mode j).Readable) {boundary : H256}
    (h : lastOf (Announcement.boundary? fun _ => some (target leastDifficulty)) mode messages = some boundary) :
    lastBoundary target mode messages = some boundary ↔
      ∀ d, lastDifficulty mode messages = some d → d ≤ leastDifficulty := by
  induction messages using List.reverseRecOn with
  | nil => cases h
  | append_singleton messages j ih =>
    have hread := hr j (by simp)
    have hbefore (h : lastOf (Announcement.boundary? fun _ => some (target leastDifficulty)) mode messages =
        some boundary) :=
      ih (fun j hj => hr j (List.mem_append_left _ hj)) h
    rw [lastBoundary, lastDifficulty, lastOf_concat, lastOf_concat]
    rw [lastOf_concat] at h
    cases hann : announcement mode j with
    | difficulty prm =>
      obtain ⟨d, hd⟩ := Option.isSome_iff_exists.mp (hread.number prm hann)
      rw [hann] at h
      have hboundary : target leastDifficulty = boundary := Option.some.inj h
      simp only [Announcement.boundary?, Announcement.difficulty?, hd, Option.map_some, Option.some_or,
        Option.join_some,
        Option.some.injEq, forall_eq', ← hboundary]
      constructor
      · intro heq
        by_contra hgreater
        have hlt : leastDifficulty < d := lt_of_not_ge hgreater
        exact hinj d hlt (by rwa [max_eq_left hlt.le] at heq)
      · intro hle
        rw [max_eq_right hle]
    | session enonce =>
      rw [hann] at h
      simpa [Announcement.boundary?, Announcement.difficulty?] using h
    | set prm =>
      rw [hann] at h
      cases hset : boundaryOf ((prm.strKey "target" "").toOption.getD "") with
      | none =>
        simp only [Announcement.boundary?, hset, Option.none_or] at h
        simp only [Announcement.boundary?, Announcement.difficulty?, hset, Option.map_none, Option.none_or]
        exact hbefore h
      | some b =>
        simp only [Announcement.boundary?, hset, Option.some_or] at h
        simpa [Announcement.boundary?, Announcement.difficulty?, hset] using h
    | nothing =>
      rw [hann] at h
      exact hbefore h
    | extranonce enonce =>
      rw [hann] at h
      exact hbefore h

/-! ## Dispatched jobs -/

/-- Among the lines of the transmissions, `line` comes behind the lines `before` and is
    handled in the state `u`. -/
def Heard (E : Env) (s : St) (reads before : List (List Char)) (line : List Char) (u : St) : Prop :=
  ∃ pre rxMessage post t, reads = pre ++ rxMessage :: post ∧ (receiveAll E pre).exec s = (.ok (), t) ∧
    ∃ these others, Lines.lines '\n' (t.message ++ rxMessage) = these ++ line :: others ∧
      (consume E these).exec (t.receiving rxMessage) = (.ok (), u) ∧
      before = Lines.lines '\n' (s.message ++ pre.flatten) ++ these

section

variable {least : H256} {reads : List (List Char)}

theorem heard_of_arrives {rxMessage line : List Char} {u : St} (ht : Among E s reads rxMessage t)
    (hu : Arrives E t rxMessage line u) : ∃ before, Heard E s reads before line u := by
  obtain ⟨pre, post, hreads, ht⟩ := ht
  obtain ⟨these, others, hlines, hu⟩ := hu
  exact ⟨_, pre, rxMessage, post, t, hreads, ht, these, others, hlines, hu, rfl⟩

/-- Behind the lines before it, a line finds what they announced in the session. -/
theorem Heard.tracks (hE : h256 leastTarget = .ok least) (hm : mode = CORESTRATUM ∨ mode = CORESTRATUM2)
    (h : Tracks least a mode [] s) (hs : '\n' ∉ s.message)
    (hr : ∀ j ∈ messagesOf E (Lines.lines '\n' (s.message ++ reads.flatten)), (announcement mode j).Readable)
    {before : List (List Char)} {line : List Char} {u : St} (hu : Heard E s reads before line u) :
    Tracks least a mode (messagesOf E before) u ∧ ∀ j ∈ messagesOf E before, (announcement mode j).Readable := by
  obtain ⟨pre, rxMessage, post, t, hreads, ht, these, others, hlines, hu, rfl⟩ := hu
  have hall : s.message ++ reads.flatten = (s.message ++ pre.flatten) ++ (rxMessage ++ post.flatten) := by simp [hreads]
  have hpre : ∀ j ∈ messagesOf E (Lines.lines '\n' (s.message ++ pre.flatten)), (announcement mode j).Readable := by
    intro j hj
    refine hr j ?_
    rw [hall, Lines.lines_append, messagesOf, List.filterMap_append]
    exact List.mem_append_left _ hj
  obtain ⟨htracks, hmessage⟩ := (wp_iff_exec.mp (receiveAll_tracks hE hm h hs hpre)).1 _ t ht
  have hthese : ∀ j ∈ messagesOf E these, (announcement mode j).Readable := by
    intro j hj
    refine hr j ?_
    rw [hall, Lines.lines_append, ← hmessage, ← List.append_assoc t.message,
      Lines.lines_append '\n' (t.message ++ rxMessage), hlines, messagesOf, List.filterMap_append,
      List.filterMap_append, List.filterMap_append]
    exact List.mem_append_right _ (List.mem_append_left _ (List.mem_append_left _ hj))
  have hreceiving : Tracks least a mode (messagesOf E (Lines.lines '\n' (s.message ++ pre.flatten)))
      (t.receiving rxMessage) := ⟨htracks.conn, htracks.flavour, htracks.confirmed, htracks.heeded⟩
  have hconsumed := (wp_iff_exec.mp (consume_tracks hE hm hreceiving hthese)).1 _ u hu
  rw [messagesOf, List.filterMap_append]
  refine ⟨hconsumed, fun j hj => ?_⟩
  rcases List.mem_append.mp hj with hj | hj
  · exact hpre j hj
  · exact hthese j hj

/-- What a job took over from the session it was handled in. -/
theorem Took.params (hm : mode = CORESTRATUM ∨ mode = CORESTRATUM2) {messages : List Json}
    (h : Tracks least a mode messages s) {line : List Char} {w : WorkPackage} (hw : Took E s line w) :
    Heeded least mode messages (jobParams w) := by
  obtain ⟨p, w', hp, hexec, hrenamed⟩ := hw
  obtain ⟨-, j, b, -, hconn, -, hprog⟩ := lineJob_eq_some hp
  cases h.conn.symm.trans hconn
  obtain ⟨x, hx, hparams⟩ := jobProgram_params (by rwa [h.flavour]) hprog s.current
  have hsame : jobParams w = jobParams w' := by
    rw [hrenamed]
    rfl
  rw [hsame, (wp_iff_exec.mp hparams).1 true w' hexec rfl]
  exact h.heeded x hx

end

/-- In a session with a CoreStratum pool, whatever its messages, as long as their values can
    be read: every job dispatched comes from a line, and carries the extranonce last announced
    before that line. It carries the boundary last announced exactly when that was not a
    difficulty above the least one. -/
theorem job_follows_announcements {target : Rat → H256} (hc : s.conn = some a) (hmode : (s.uris a).stratumMode = mode)
    (hm : mode = CORESTRATUM ∨ mode = CORESTRATUM2) (hsession : s.session = none) (hs : '\n' ∉ s.message)
    (htarget : h256 leastTarget = .ok (target leastDifficulty))
    (hinj : ∀ d, leastDifficulty < d → target d ≠ target leastDifficulty) (reads : List (List Char))
    (hr : ∀ j ∈ messagesOf E (Lines.lines '\n' (s.message ++ reads.flatten)), (announcement mode j).Readable)
    {w : WorkPackage} (hw : .onWorkReceived w ∈ ((receiveAll E reads).exec s).2.log)
      (hnew : .onWorkReceived w ∉ s.log) :
    ∃ before line u, Heard E s reads before line u ∧ Took E u line w ∧
      lastExtranonce mode (messagesOf E before) = some (w.startNonce, w.exSizeBytes) ∧
      (lastBoundary target mode (messagesOf E before) = some w.boundary ↔
        ∀ d, lastDifficulty mode (messagesOf E before) = some d → d ≤ leastDifficulty) := by
  have hstart : Tracks (target leastDifficulty) a mode [] s :=
    ⟨hc, hmode, fun h => by simp [hsession] at h, fun x hx => by simp [hsession] at hx⟩
  have htracks {rxMessage line : List Char} {t u : St} (ht : Among E s reads rxMessage t)
      (hu : Arrives E t rxMessage line u) : ∃ before, Heard E s reads before line u ∧
        Tracks (target leastDifficulty) a mode (messagesOf E before) u ∧
        ∀ j ∈ messagesOf E before, (announcement mode j).Readable := by
    obtain ⟨before, hheard⟩ := heard_of_arrives ht hu
    exact ⟨before, hheard, hheard.tracks htarget hm hstart hs hr⟩
  have haccounted := dispatched_accounted (P := Took E) hc reads (fun rxMessage t ht line u hu hconn => by
    obtain ⟨before, -, h, -⟩ := htracks ht hu
    exact handleLine_takes hconn (by rwa [h.flavour]) line) hw
  rcases haccounted with hold | ⟨rxMessage, t, ht, line, u, hu, htook⟩
  · exact absurd hold hnew
  · obtain ⟨before, hheard, h, hread⟩ := htracks ht hu
    have hheeded := htook.params hm h
    exact ⟨before, line, u, hheard, htook, hheeded.extranonce, lastBoundary_iff hinj hread hheeded.boundary⟩

/-! ## A difficulty that is not read -/

def coreSubscription : String × Json :=
  ("\x7b\"id\":1,\"result\":[[\"\",\"\",\"CoreStratum/1.0.0\"],\"07\"]\x7d",
    .obj [("id", .int 1), ("result", .arr [.arr [.str "", .str "", .str "CoreStratum/1.0.0"], .str "07"])])

def difficultyLine (text : String) (value : Json) : String × Json :=
  ("\x7b\"method\":\"mining.set_difficulty\",\"params\":[" ++ text ++ "]\x7d",
    .obj [("method", .str "mining.set_difficulty"), ("params", .arr [value])])

def coreJob : String × Json :=
  ("\x7b\"method\":\"mining.notify\",\"params\":[\"1\",\"0x2\",\"0x3\"]\x7d",
    .obj [("method", .str "mining.notify"), ("params", .arr [.str "1", .str "0x2", .str "0x3"])])

/-- The pool asks for difficulty 4, and its next job is mined at the least difficulty. -/
theorem difficulty_ignored :
    ∃ s w, Reach (tableEnv [coreSubscription, difficultyLine "4" (.int 4), coreJob]) s ∧ .onWorkReceived w ∈ s.log ∧
      ∀ target : Rat → H256, h256 leastTarget = .ok (target leastDifficulty) →
        (∀ d, leastDifficulty < d → target d ≠ target leastDifficulty) →
        lastBoundary target CORESTRATUM [coreSubscription.2, (difficultyLine "4" (.int 4)).2] ≠ some w.boundary := by
  obtain ⟨s, w, hs, hlog, hw⟩ := reach_of_dispatch (tableEnv [coreSubscription, difficultyLine "4" (.int 4), coreJob])
    (fun _ => plainUri_fresh CORESTRATUM (.inl (by decide)))
    (connectTrace ++ [.received (lineOf coreSubscription ++ lineOf (difficultyLine "4" (.int 4)) ++ lineOf coreJob),
      .run none]) (fun w => h256 leastTarget = .ok w.boundary) (by decide +kernel)
  refine ⟨s, w, hs, hlog, fun target htarget hinj hlast => ?_⟩
  have hfour : leastDifficulty < 4 := by decide +kernel
  have hspec : lastBoundary target CORESTRATUM [coreSubscription.2, (difficultyLine "4" (.int 4)).2] =
    some (target (max 4 leastDifficulty)) := rfl
  rw [hspec, max_eq_left hfour.le] at hlast
  rw [of_decide_eq_true hw] at htarget
  exact hinj 4 hfour ((Option.some.inj hlast).trans (Except.ok.inj htarget))

def greetedClient : St where
  uris _ := (plainUri CORESTRATUM).setStratumMode CORESTRATUM true
  conn := some 0

def leastLine : String × Json := difficultyLine "1e-05" (.real (some (1 / 100000)) "1e-05")

def leastEnv : Env := tableEnv [coreSubscription, leastLine, coreJob]

def leastRead : List Char := lineOf coreSubscription ++ lineOf leastLine ++ lineOf coreJob

def twoTargets (d : Rat) : H256 :=
  if d ≤ leastDifficulty then (h256 leastTarget).toOption.getD defaultBoundary else .zero 32

theorem leastRead_readable :
    ∀ j ∈ messagesOf leastEnv (Lines.lines '\n' (greetedClient.message ++ [leastRead].flatten)),
    (announcement CORESTRATUM j).Readable := by
  have hmessages : messagesOf leastEnv (Lines.lines '\n' (greetedClient.message ++ [leastRead].flatten)) =
      [coreSubscription.2, leastLine.2, coreJob.2] := rfl
  rw [hmessages]
  intro j hj
  rcases List.mem_cons.mp hj with rfl | hj
  · refine ⟨fun x => ?_, fun _ h => by cases h⟩
    show wp (processExtranonce "07") _ _ x
    obtain ⟨n, hn⟩ : ∃ n, stoul (resize "07" 16 '0') = .ok n := ⟨_, rfl⟩
    rw [processExtranonce, hn]
    trivial
  rcases List.mem_cons.mp hj with rfl | hj
  · refine ⟨fun x => ?_, fun prm hprm => ?_⟩
    · show wp setDifficulty _ _ x
      obtain ⟨n, hn⟩ : ∃ n, h256 leastTarget = .ok n := ⟨_, rfl⟩
      rw [setDifficulty, hn]
      trivial
    · cases hprm
      rfl
  · cases List.mem_singleton.mp hj
    exact ⟨fun _ => trivial, fun _ h => by cases h⟩

theorem least_difficulty_followed :
    let w := ((receiveAll leastEnv [leastRead]).exec greetedClient).2.current
    .onWorkReceived w ∈ ((receiveAll leastEnv [leastRead]).exec greetedClient).2.log ∧
      ∃ before line u, Heard leastEnv greetedClient [leastRead] before line u ∧ Took leastEnv u line w ∧
        lastExtranonce CORESTRATUM (messagesOf leastEnv before) = some (w.startNonce, w.exSizeBytes) ∧
        (lastBoundary twoTargets CORESTRATUM (messagesOf leastEnv before) = some w.boundary ↔
          ∀ d, lastDifficulty CORESTRATUM (messagesOf leastEnv before) = some d → d ≤ leastDifficulty) := by
  have hw : .onWorkReceived ((receiveAll leastEnv [leastRead]).exec greetedClient).2.current ∈
      ((receiveAll leastEnv [leastRead]).exec greetedClient).2.log := by decide +kernel
  have htarget : h256 leastTarget = .ok (twoTargets leastDifficulty) := by
    rw [twoTargets, if_pos le_rfl]
    decide +kernel
  have hinj (d : Rat) (hd : leastDifficulty < d) : twoTargets d ≠ twoTargets leastDifficulty := by
    rw [twoTargets, twoTargets, if_neg (not_le_of_gt hd), if_pos le_rfl]
    decide +kernel
  exact ⟨hw, job_follows_announcements rfl rfl (.inl rfl) rfl List.not_mem_nil htarget hinj
    [leastRead] leastRead_readable
    hw List.not_mem_nil⟩

end CoreMiner.Stratum
