/-
  CoreMiner.Stratum.Boundaries — can a stratum client report work with a zero boundary
  (`XcbStratumClient.cpp`: `processResponse`, `onRecvSocketDataCompleted`)?

  The boundary of a package is the target of its job, or the one the session was told. Both come
  from the pool's texts by way of `h256`, which reads a zero from a text that denotes zero and
  from one of the wrong length. Unless a message carries such a target (`ZeroTarget`), a session's
  boundary is never zero and neither is that of a job signalled (`Sound`): each message keeps
  this, and so does every event of a run (`sound_of_run`).
-/

import CoreMiner.Stratum.Intake
import CoreMiner.Stratum.JobParameters

namespace CoreMiner.Stratum

open DevCore EthCore Lib Prog

variable {E : Env} {s t : St} {a : Nat} {j : Json}

/-! ## Messages with a zero target -/

def jobBoundary (mode : Nat) (j : Json) : Except StdException H256 := do
  let inResult ← jobInResult mode j
  let jPrm ← j.get (if inResult then "result" else "params") .null
  h256 (← fillTarget (← jPrm.strIdx ((if inResult then 0 else 1) + 2)))

/-- The message carries a target that is read as zero: a job's, or the one of a `mining.set`. -/
def ZeroTarget (mode : Nat) (j : Json) : Prop :=
  (mode ≠ CORESTRATUM ∧ mode ≠ CORESTRATUM2 ∧ jobBoundary mode j = .ok (.zero 32)) ∨
    ∃ prm, announcement mode j = .set prm ∧ boundaryOf ((prm.strKey "target" "").toOption.getD "") = some (.zero 32)

def St.incoming (E : Env) (s : St) : List Json :=
  match s.queue with
  | .onRecvSocketDataCompleted (some rx) :: _ => messagesOf E (Lines.lines '\n' (s.message ++ rx))
  | .processResponse response :: _ => [response]
  | _ => []

def Targeted (E : Env) (s : St) (e : Ev) : Prop :=
  (∃ choice, e = .run choice) → ∀ a, s.conn = some a → ∀ j ∈ s.incoming E, ¬ ZeroTarget (s.uris a).stratumMode j

/-! ## The invariant -/

structure Session.HasBoundary (x : Session) : Prop where
  ne_zero : x.nextWorkBoundary ≠ .zero 32

theorem Session.HasBoundary.of_eq {x y : Session} (hx : x.HasBoundary) (h : y.nextWorkBoundary = x.nextWorkBoundary) :
    y.HasBoundary := ⟨h ▸ hx.ne_zero⟩

/-- No boundary of a session, of a signalled job or of reported work is zero. -/
structure Sound (s : St) : Prop where
  session : ∀ x, s.session = some x → x.HasBoundary
  signalled : s.newjobprocessed = true → s.current.boundary ≠ .zero 32
  log : ∀ w, Out.onWorkReceived w ∈ s.log → w.boundary ≠ .zero 32

theorem defaultBoundary_ne_zero : defaultBoundary ≠ .zero 32 := by decide

theorem Spares.sound (h : Spares s t) (hs : Sound s) : Sound t where
  session y hy := by
    obtain ⟨x, hx, hboundary⟩ := h.session y hy
    exact (hs.session x hx).of_eq hboundary
  signalled hnew := by
    rw [h.current]
    exact hs.signalled (h.newjobprocessed ▸ hnew)
  log w hw := hs.log w (h.log w hw)

theorem Sound.cleared (h : Sound s) : Sound s.cleared := ⟨h.session, h.signalled, h.log⟩

theorem Sound.renewed (h : Sound s) : Sound s.renewed := ⟨nofun, nofun, h.log⟩

/-! ## Without a connection -/

/-- A message to a client without a connection goes as far as the first look at it. -/
theorem processResponse_unbound (hc : s.conn = none) (j : Json) :
    wp (processResponse E j) (fun _ t => Spares s t) (fun _ t => Spares s t) s := by
  have hstop {α : Type} {f : Uri → M α} {t : St} (ht : t.conn = none) (hst : Spares s t) :
      wp (getConn >>= f) (fun _ t => Spares s t) (fun _ t => Spares s t) t := by
    rw [wp_bind, wp_getConn, ht]
    exact hst
  have hnotification (h : Header) : wp (notification E h j) (fun _ t => Spares s t) (fun _ t => Spares s t) s :=
    hstop hc (.refl s)
  have hreply (h : Header) (result : Json) :
      wp (reply E h j result) (fun _ t => Spares s t) (fun _ t => Spares s t) s := by
    rw [reply, wp_bind, wp_get, wp_ite, wp_ite, wp_ite, wp_ite]
    split
    · rw [loginReply, wp_bind, wp_dequeueResponsePlea]
      exact hstop hc (.of_same rfl rfl)
    split
    · exact hstop hc (.refl s)
    split
    · exact hstop hc (.refl s)
    split
    · exact hstop hc (.refl s)
    · rw [wp_when, strayReply, wp_when]
      split
      · split
        · exact hstop hc (.refl s)
        · exact .refl s
      · exact .refl s
  rw [processResponse, wp_bind, wp_raise]
  cases retrieve j with
  | error e => exact .refl s
  | ok h =>
    show wp (asGetWork h j >>= fun h => handle E h j) _ _ s
    rw [asGetWork]
    split
    · rw [bind_assoc]
      exact hstop hc (.refl s)
    · rw [pure_bind, handle, wp_bind, wp_raise]
      cases invalid h j with
      | error e => exact .refl s
      | ok b =>
        show wp (if b then _ else _) _ _ s
        split
        · exact .of_same rfl rfl
        · split
          · exact hnotification h
          · rw [response, wp_bind, wp_bind, wp_raise]
            cases j.get "result" .null with
            | error e => exact .refl s
            | ok result =>
              show wp (if h.id = 5 then _ else _) _ _ s
              split
              · rw [getWorkReply, wp_bind, wp_getConn, hc]
                exact .refl s
              · rw [wp_bind]
                exact wp_mono (hreply h result) (fun _ _ h => h) fun _ _ h => h

/-! ## The session's boundary -/

/-- A boundary that is not zero does not become zero. -/
def Firm (s t : St) : Prop := (∀ x, s.session = some x → x.HasBoundary) → ∀ y, t.session = some y → y.HasBoundary

theorem firm_along : Along Firm where
  refl _ h := h
  trans _ _ _ h h' hs := h' (h hs)

theorem SameParams.firm (h : SameParams s t) : Firm s t := by
  intro hs y hy
  have hsame : s.session.map Session.params = some y.params := by
    rw [← h, hy]
    rfl
  obtain ⟨x, hx, hparams⟩ := Option.map_eq_some_iff.mp hsame
  have hboundary : x.nextWorkBoundary = y.nextWorkBoundary := congrArg Params.boundary hparams
  exact (hs x hx).of_eq hboundary.symm

theorem firm_of_same {α : Type} {m : M α} (h : Kept SameParams m) : Kept Firm m :=
  ⟨fun s => wp_mono (h.from_ s) (fun _ _ h => h.firm) fun _ _ h => ⟨h.1.firm, trivial⟩⟩

abbrev Retains {α : Type} (m : Prog Session Stop α) : Prop :=
  Keeps (fun x y => Session.HasBoundary x → Session.HasBoundary y) (fun _ _ => True) m

theorem firm_onSession {α : Type} {m : Prog Session Stop α} (hm : Retains m) : Kept Firm (onSession m) := by
  refine ⟨fun s => ?_⟩
  rw [onSession, wp_bind, wp_get]
  cases hs : s.session with
  | none => exact ⟨firm_along.refl s, trivial⟩
  | some x =>
    rw [wp_zoom]
    have hfirm (y : Session) (hy : x.HasBoundary → y.HasBoundary) : Firm s { s with session := some y } := by
      rintro hx z ⟨⟩
      exact hy (hx x hs)
    exact wp_mono (hm.from_ x) (fun _ y hy => hfirm y hy) fun _ y hy => ⟨hfirm y hy.1, trivial⟩

theorem startSession_firm : Kept Firm startSession := by
  refine firm_along.bind (Keeps.modify fun s _ y hy => ?_) fun _ => firm_of_same (sameParams_modify fun _ => rfl)
  cases hy
  exact ⟨defaultBoundary_ne_zero⟩

section

variable {α β : Type}

theorem retains_bind {m : Prog Session Stop α} {f : α → Prog Session Stop β} (hm : Retains m)
    (hf : ∀ a, Retains (f a)) : Retains (m >>= f) :=
  Keeps.bind (fun _ _ _ h h' hx => h' (h hx)) (fun _ _ _ _ _ => trivial) hm hf

theorem retains_raise_bind {e : Except StdException α} {f : α → Prog Session Stop β}
    (hf : ∀ a, e = .ok a → Retains (f a)) : Retains (raise e >>= f) := by
  cases e with
  | error x => exact ⟨fun _ => ⟨id, trivial⟩⟩
  | ok a => exact hf a rfl

theorem retains_when {p : Prop} [Decidable p] {m : Prog Session Stop Unit} (hm : p → Retains m) : Retains (when p m) :=
  Keeps.when (fun _ => id) hm

theorem retains_modify {g : Session → Session} (hg : ∀ x, (g x).nextWorkBoundary = x.nextWorkBoundary) :
    Retains (modify g) := Keeps.modify fun x hx => hx.of_eq (hg x)

end

theorem processExtranonce_retains (enonce : String) : Retains (processExtranonce enonce) :=
  retains_bind (retains_modify fun _ => rfl) fun _ => retains_raise_bind fun _ _ => retains_modify fun _ => rfl

theorem leastTarget_ne_zero : h256 leastTarget ≠ .ok (.zero 32) := by decide +kernel

theorem setDifficulty_retains : Retains setDifficulty :=
  retains_raise_bind fun _ hb => Keeps.modify fun _ _ => ⟨fun hzero => leastTarget_ne_zero (hzero ▸ hb)⟩

theorem miningSet_retains {prm : Json}
    (hprm : boundaryOf ((prm.strKey "target" "").toOption.getD "") ≠ some (.zero 32)) : Retains (miningSet prm) := by
  refine retains_bind (retains_modify fun _ => rfl) fun _ => retains_raise_bind fun timeout _ =>
    retains_raise_bind fun epoch _ => retains_raise_bind fun target htarget => ?_
  refine retains_bind (retains_when fun _ => retains_raise_bind fun _ _ => retains_modify fun _ => rfl) fun _ =>
    retains_bind (retains_when fun _ => retains_raise_bind fun _ _ => retains_modify fun _ => rfl) fun _ =>
    retains_bind (retains_when fun hne => retains_raise_bind fun b hb => Keeps.modify fun _ _ => ⟨fun hzero => hprm ?_⟩)
    fun _ => retains_raise_bind fun _ _ => retains_bind (retains_modify fun _ => rfl) fun _ =>
    retains_raise_bind fun _ _ => retains_when fun _ => processExtranonce_retains _
  -- The target is the one write that could make the boundary zero.
  rw [htarget]
  show boundaryOf target = _
  rw [boundaryOf, if_neg hne, hb, ← show b = .zero 32 from hzero]
  rfl

theorem dispatch_firm {u : Uri} {h : Header}
    (hset : ∀ jPrm prm, j.get "params" .null = .ok jPrm → announcedBy u.stratumMode h.method jPrm = .set prm →
      boundaryOf ((prm.strKey "target" "").toOption.getD "") ≠ some (.zero 32)) : Kept Firm (dispatch E u h j) := by
  have hA := firm_along
  refine ⟨fun s => ?_⟩
  rw [dispatch, wp_bind, wp_raise]
  cases hjPrm : j.get "params" .null with
  | error e => exact ⟨hA.refl s, trivial⟩
  | ok jPrm =>
  refine Keeps.from_ (?_ : Kept Firm (if h.method = "mining.notify" then _ else _)) s
  refine Keeps.ite (fun _ => firm_of_same (takeJob_sameParams u j)) fun _ =>
    Keeps.ite (fun _ => hA.when fun _ => firm_onSession setDifficulty_retains) fun hdifficulty =>
    Keeps.ite (fun _ => hA.when fun _ => ?_) fun hextranonce =>
    Keeps.ite (fun hm => hA.when fun hobject => firm_onSession (miningSet_retains (hset jPrm jPrm hjPrm ?_))) fun _ =>
    firm_of_same ?_
  · exact hA.bind (firm_of_same (sameParams_raise _)) fun _ => hA.when fun _ =>
      firm_onSession (processExtranonce_retains _)
  · rw [announcedBy, if_neg hdifficulty, if_neg hextranonce, if_pos hm, if_pos hobject]
  · exact Keeps.ite (fun _ => sameParams_post _) fun _ => Keeps.ite (fun _ => sameParams_send _) fun _ =>
      sameParams_send _

theorem welcome_firm {mode : Nat} {β : Type} {f : Unit → M β} (hf : Kept Firm (f ())) :
    Kept Firm (modifyConn (·.setStratumMode mode true) >>= fun _ => startSession >>= f) :=
  firm_along.bind (firm_of_same (sameParams_modifyConn _)) fun _ => firm_along.bind startSession_firm fun _ => hf

theorem loginFor_firm (mode : Nat) (h : Header) (result : Json) : Kept Firm (loginFor E mode h result) := by
  have hA := firm_along
  have hpure (x : Option Json) : Kept Firm (pure x : M (Option Json)) := Keeps.pure hA.refl x
  have hrefused : Kept Firm (do refuse; return (none : Option Json)) :=
    hA.bind (firm_of_same refuse_sameParams) fun _ => hpure _
  have hwrites {g : Session → Session} (hg : ∀ x, (g x).params = x.params) : Kept Firm (onSession (modify g)) :=
    firm_of_same (sameParams_onSession hg)
  have hplain {f : St → St} (hf : ∀ s, (f s).session = s.session) : Kept Firm (modify f) :=
    firm_of_same (sameParams_modify hf)
  unfold loginFor
  split
  case h_1 =>
    refine hA.bind (firm_of_same (sameParams_raise _)) fun accepted => Keeps.ite (fun _ => ?_) fun _ => hrefused
    exact welcome_firm (hA.bind (hplain fun _ => rfl) fun _ => hpure _)
  case h_2 =>
    refine hA.bind (firm_of_same (sameParams_raise _)) fun accepted => Keeps.ite (fun _ => ?_) fun _ => hrefused
    exact welcome_firm <| hA.bind (hwrites fun _ => rfl) fun _ => hA.bind (firm_of_same (sameParams_send _)) fun _ =>
      hA.bind (firm_of_same (sameParams_raise _)) fun _ =>
      hA.bind (hA.when fun _ => firm_onSession (processExtranonce_retains _)) fun _ =>
      hA.bind (hplain fun _ => rfl) fun _ => hA.bind hA.getConn fun _ => hA.bind (hplain fun _ => rfl) fun _ => hpure _
  case h_3 =>
    exact Keeps.ite (fun _ => welcome_firm (hA.bind (hwrites fun _ => rfl) fun _ => hpure _)) fun _ => hrefused
  case h_4 =>
    refine Keeps.ite (fun _ => ?_) fun _ => hrefused
    exact welcome_firm <| hA.bind (hwrites fun _ => rfl) fun _ => hA.bind (hplain fun _ => rfl) fun _ =>
      hA.bind hA.getConn fun _ => hA.bind (hplain fun _ => rfl) fun _ => hpure _
  case h_5 => exact hpure _

theorem reply_firm (h : Header) (j result : Json) : Kept Firm (reply E h j result) := by
  have hA := firm_along
  by_cases hid : h.id = 1
  · refine hA.get_bind fun _ => ?_
    rw [if_pos hid]
    refine hA.bind (firm_of_same sameParams_dequeue) fun _ => hA.bind hA.getConn fun u => Keeps.ite ?_ fun _ => ?_
    · exact fun _ => firm_of_same (sameParams_post _)
    · refine hA.bind (loginFor_firm _ h result) fun jReq => ?_
      cases jReq with
      | none => exact Keeps.pure hA.refl _
      | some jReq => exact firm_of_same (sameParams_send _)
  · exact firm_of_same (reply_sameParams hid j result)

/-- What a message does to a session's boundary. -/
theorem processFor_firm {u : Uri} (hz : ¬ ZeroTarget u.stratumMode j) :
    Kept Firm (processFor E u j) := by
  have hA := firm_along
  refine ⟨fun s => ?_⟩
  rw [processFor, wp_bind, wp_raise]
  cases hret : retrieve j with
  | error e => exact ⟨hA.refl s, trivial⟩
  | ok h =>
  obtain ⟨params, hparams⟩ := get_of_retrieve hret "params" .null
  show wp (raise (asGetWorkFor u h j) >>= _) _ _ s
  rw [wp_bind, wp_raise]
  cases hwork : asGetWorkFor u h j with
  | error e => exact ⟨hA.refl s, trivial⟩
  | ok h' =>
  show wp (raise (invalid h' j) >>= _) _ _ s
  rw [wp_bind, wp_raise]
  cases hvalid : invalid h' j with
  | error e => exact ⟨hA.refl s, trivial⟩
  | ok b =>
  refine Keeps.from_ (?_ : Kept Firm (if b then _ else _)) s
  refine Keeps.ite (fun _ => firm_of_same (sameParams_post _)) fun hb =>
    Keeps.ite (fun hn => hA.when fun _ => ?_) fun _ => ?_
  · -- A `mining.set` is the announcement the condition speaks of; a job is none.
    refine dispatch_firm fun jPrm prm hjPrm hset => fun hzero => hz (.inr ⟨prm, ?_, hzero⟩)
    have hsame : h' = h := by
      rw [asGetWorkFor] at hwork
      split at hwork
      · rcases hresult : j.at_ "result" with e | result
        · rw [hresult] at hwork
          cases hwork
        · rw [hresult] at hwork
          simp only [bind, Except.bind, pure, Except.pure, Except.ok.injEq] at hwork
          split at hwork
          · rw [← hwork] at hset
            simp [announcedBy] at hset
          · exact hwork.symm
      · exact (Except.ok.inj hwork).symm
    subst hsame
    have hfalse : b = false := by simpa using hb
    rw [announcement, hret]
    simp only [hvalid, hfalse, Except.toOption, if_true, hn, hjPrm, Option.getD_some]
    exact hset
  · refine hA.bind (firm_of_same (sameParams_raise _)) fun result =>
      Keeps.ite (fun _ => hA.when fun _ => hA.when fun _ => ?_) fun _ => reply_firm h' j result
    exact dispatch_firm fun jPrm prm _ hset => by simp [announcedBy] at hset

/-! ## The job's boundary -/

/-- The boundary of a new job is its target, or the session's. -/
theorem stratumJob_boundary (mode : Nat) (prm : Json) (prmIdx : Nat) (w : WorkPackage) :
    wp (stratumJob mode prm prmIdx)
      (fun _ w' => (do h256 (← fillTarget (← prm.strIdx (prmIdx + 2)))) = .ok w'.boundary) (fun _ _ => True) w := by
  refine wp_raise_bind_of fun job _ => wp_modify_bind_of (wp_raise_bind_of fun sHeaderHash _ =>
    wp_raise_bind_of fun sSeedHash _ => wp_raise_bind_of fun sShareTarget htarget => wp_modify_bind_of ?_)
  rw [wp_bind, wp_iff_exec]
  refine ⟨fun _ w' _ => ?_, fun _ _ _ => trivial⟩
  refine wp_raise_bind_of fun filled hfilled => wp_raise_bind_of fun seed _ => wp_modify_bind_of
    (wp_raise_bind_of fun header _ => wp_modify_bind_of (wp_raise_bind_of fun boundary hboundary => ?_))
  rw [wp_modify, htarget]
  show (do h256 (← fillTarget sShareTarget)) = Except.ok boundary
  rw [hfilled]
  exact hboundary

theorem jobProgram_sound {u : Uri} {x : Session} (hx : x.HasBoundary)
    (hz : ¬ ZeroTarget u.stratumMode j) {p : Prog WorkPackage Stop Bool} (hp : jobProgram u (some x) j = .ok (some p))
    (w : WorkPackage) : wp p (fun isNew w' => isNew = true → w'.boundary ≠ .zero 32) (fun _ _ => True) w := by
  by_cases hcore : u.stratumMode = CORESTRATUM ∨ u.stratumMode = CORESTRATUM2
  · obtain ⟨y, hy, hparams⟩ := jobProgram_params hcore hp w
    cases hy
    refine wp_mono hparams (fun isNew w' h hnew => ?_) fun _ _ h => h
    have hcopied : w'.boundary = x.nextWorkBoundary := congrArg Params.boundary (h hnew)
    rw [hcopied]
    exact hx.ne_zero
  · obtain ⟨hcore₁, hcore₂⟩ := not_or.mp hcore
    obtain ⟨_, inResult, prm, -, hin, hprm, rfl⟩ := jobProgram_eq_legacy hcore₂ hp
    rw [legacyJob, if_neg hcore₁, wp_bind]
    refine wp_mono (stratumJob_boundary _ prm _ w) (fun _ w' hboundary _ hzero => hz (.inl ⟨hcore₁, hcore₂, ?_⟩))
      fun _ _ _ => trivial
    rw [jobBoundary, hin]
    show (do
      let jPrm ← j.get (if inResult then "result" else "params") .null
      h256 (← fillTarget (← jPrm.strIdx ((if inResult then 0 else 1) + 2)))) = Except.ok (FixedHash.zero 32)
    rw [hprm, ← hzero]
    exact hboundary

/-- A job that is not new or throws leaves a signalled one's boundary alone. -/
theorem jobProgram_keeps {u : Uri} {session : Option Session} {p : Prog WorkPackage Stop Bool}
    (hp : jobProgram u session j = .ok (some p)) (href : s.refusesJob u = false) (hnew : s.newjobprocessed = true) :
    wp p (fun isNew w => isNew = false → w.boundary = s.current.boundary)
      (fun _ w => w.boundary = s.current.boundary) s.current := by
  have hu : u.stratumMode = CORESTRATUM2 := by simpa [St.refusesJob, hnew] using href
  obtain ⟨x, prm, -, -, rfl⟩ := jobProgram_eq_coreStratum2 hu hp
  refine wp_bind.mpr (wp_mono (coreStratum2Job_params x prm s.current) (fun _ _ _ h => by cases h) fun _ w hw => ?_)
  rw [Renamed] at hw
  rw [hw]

def Signalled (t : St) : Prop := t.newjobprocessed = true → t.current.boundary ≠ .zero 32

theorem takeJob_signals (hs : Sound s) {u : Uri} (hz : ¬ ZeroTarget u.stratumMode j) :
    wp (takeJob u j) (fun _ t => Signalled t) (fun _ t => Signalled t) s := by
  unfold wp
  rw [takeJob_eq]
  by_cases href : s.refusesJob u = true
  · rw [if_pos href]
    exact hs.signalled
  · have href := Bool.eq_false_of_not_eq_true href
    rw [href, if_neg Bool.false_ne_true]
    show wp (raise (jobProgram u s.session j) >>= runJob) _ _ s
    rw [wp_bind, wp_raise]
    rcases hprog : jobProgram u s.session j with e | _ | p
    · exact hs.signalled
    · exact hs.signalled
    · obtain ⟨x, hx⟩ : ∃ x, s.session = some x := by
        cases hs : s.session with
        | none =>
          rw [hs] at hprog
          cases hprog
        | some x => exact ⟨x, rfl⟩
      have hsound := jobProgram_sound (hs.session x hx) hz (hx ▸ hprog) s.current
      -- Before a signalled job only CORESTRATUM2 goes on, whose failures spare the boundary.
      have hkeeps : wp p (fun isNew w => isNew = false → s.newjobprocessed = true → w.boundary = s.current.boundary)
          (fun _ w => s.newjobprocessed = true → w.boundary = s.current.boundary) s.current := by
        by_cases hnew : s.newjobprocessed = true
        · exact wp_mono (jobProgram_keeps hprog href hnew) (fun _ _ h hf _ => h hf) fun _ _ h _ => h
        · exact wp_iff_exec.mpr ⟨fun _ _ _ _ h => absurd h hnew, fun _ _ _ h => absurd h hnew⟩
      show wp (runJob (some p)) _ _ s
      rw [runJob, wp_bind, onCurrent, wp_zoom]
      refine wp_mono (wp_and hsound hkeeps) (fun isNew w hw => ?_) fun _ w hw hnew => ?_
      · rw [wp_when]
        cases isNew with
        | true => exact fun _ => hw.1 rfl
        | false =>
          intro hnew
          show w.boundary ≠ _
          rw [hw.2 rfl hnew]
          exact hs.signalled hnew
      · show w.boundary ≠ _
        rw [hw.2 hnew]
        exact hs.signalled hnew

/-! ## Messages -/

theorem processResponse_sound (hs : Sound s)
    (hz : ∀ a, s.conn = some a → ¬ ZeroTarget (s.uris a).stratumMode j) :
    wp (processResponse E j) (fun _ t => Sound t) (fun _ t => Sound t) s := by
  cases hc : s.conn with
  | none => exact wp_mono (processResponse_unbound hc j) (fun _ _ h => h.sound hs) fun _ _ h => h.sound hs
  | some a =>
    have hz := hz a hc
    have hlog {t : St} (h : Processed s t) : ∀ w, Out.onWorkReceived w ∈ t.log → w.boundary ≠ .zero 32 := by
      obtain ⟨new, hnew, hreply⟩ := h.log
      intro w hw
      rw [hnew] at hw
      rcases List.mem_append.mp hw with hw | hw
      · exact absurd (hreply _ hw) (by simp [Out.isReply])
      · exact hs.log w hw
    have hfirm : wp (processResponse E j) (fun _ t => Firm s t) (fun _ t => Firm s t) s := by
      unfold wp
      rw [processResponse_eq hc]
      exact wp_mono ((processFor_firm hz).from_ s) (fun _ _ h => h) fun _ _ h => h.1
    have hsignals : wp (processResponse E j) (fun _ t => Signalled t) (fun _ t => Signalled t) s := by
      unfold wp
      rw [processResponse_eq hc]
      by_cases ha : announces (s.uris a) j = .ok true
      · rw [processFor_of_announces ha]
        exact takeJob_signals hs hz
      · have hsame := (processFor_of_not_announces (E := E) ha).quiet.exec_eq s.overlay s
        rw [St.overlay_put] at hsame
        have hstate : ((processFor E (s.uris a) j).exec s).2 = s.overlay.put ((processFor E (s.uris a) j).exec s).2 :=
          congrArg Prod.snd hsame
        have hquiet : Signalled ((processFor E (s.uris a) j).exec s).2 := by
          rw [hstate]
          exact hs.signalled
        rcases hexec : (processFor E (s.uris a) j).exec s with ⟨x | _, t⟩ <;> (rw [hexec] at hquiet; exact hquiet)
    have htame := (processResponse_tame (E := E) j).from_ s
    exact wp_mono (wp_and (wp_and hfirm hsignals) htame)
      (fun _ t h => ⟨h.1.1 hs.session, h.1.2, hlog h.2⟩) fun _ t h => ⟨h.1.1 hs.session, h.1.2, hlog h.2.1⟩

/-! ## Transmissions and runs -/

theorem handleLine_sound (hs : Sound s) {line : List Char}
    (hz : ∀ a, s.conn = some a → ∀ j, messageOf E line = some j → ¬ ZeroTarget (s.uris a).stratumMode j) :
    wp (handleLine E line) (fun _ t => Sound t) (fun _ t => Sound t) s := by
  by_cases hline : trim line = []
  · rw [handleLine, wp_when, hline]
    exact hs
  · unfold wp
    rw [exec_handleLine hline]
    rcases hparse : E.parse (trim line) with e | _ | j
    · exact hs
    · exact hs
    · have hj : messageOf E line = some j := by
        rw [messageOf, if_neg hline, hparse]
        rfl
      show wp (guarded E j) _ _ s
      rw [guarded, wp_catching]
      refine wp_mono (processResponse_sound hs fun a ha => hz a ha j hj) (fun _ _ h => h) fun x t ht => ?_
      split <;> exact ht

theorem consume_sound (hs : Sound s) {lines : List (List Char)}
    (hz : ∀ a, s.conn = some a → ∀ j ∈ messagesOf E lines, ¬ ZeroTarget (s.uris a).stratumMode j) :
    wp (consume E lines) (fun _ t => Sound t) (fun _ t => Sound t) s := by
  -- The connection and its mode stay, so the condition is the same at every line.
  refine wp_mono (wp_forM_of_step (I := fun _ t => Sound t ∧ Consumed s t) ⟨hs, .refl s⟩
    fun pre line post t hl _ hI => ?_) (fun _ _ h => h.1) fun _ _ h => h
  rw [takeLine, wp_bind]
  have hline : ∀ a, t.conn = some a → ∀ j, messageOf E line = some j → ¬ ZeroTarget (t.uris a).stratumMode j := by
    intro a ha j hj
    have hmode : (t.uris a).stratumMode = (s.uris a).stratumMode := by
      have hsame := (hI.2.uris a).same
      rw [show (t.uris a) = _ from hsame]
    rw [hmode]
    refine hz a (hI.2.conn.symm.trans ha) j (List.mem_filterMap.mpr ⟨line, ?_, hj⟩)
    simp [hl]
  refine wp_mono (wp_and (handleLine_sound hI.1 hline) ((handleLine_tame line).from_ t)) (fun _ u hu => ?_)
    fun _ _ h => h.1
  refine wp_modify.mpr ⟨⟨hu.1.session, hu.1.signalled, hu.1.log⟩, ?_⟩
  exact Consumed.trans _ _ _ hI.2 (hu.2.withMessage t.message)

theorem onRecvSocketDataCompleted_sound (hs : Sound s) {rx : List Char}
    (hz : ∀ a, s.conn = some a → ∀ j ∈ messagesOf E (Lines.lines '\n' (s.message ++ rx)),
      ¬ ZeroTarget (s.uris a).stratumMode j) :
    wp (onRecvSocketDataCompleted E (some rx)) (fun _ t => Sound t) (fun _ t => Sound t) s := by
  have hreceiving : Sound (s.receiving rx) := ⟨hs.session, nofun, hs.log⟩
  rw [onRecvSocketDataCompleted_eq, wp_bind, wp_processTransmission]
  refine wp_mono (consume_sound hreceiving hz) (fun _ t ht => ?_) fun _ _ h => h
  have hdispatched (n : Nat) : Sound { t with reads := n, log := t.work ++ t.log } := by
    refine ⟨ht.session, ht.signalled, fun w hw => ?_⟩
    rcases List.mem_append.mp hw with hw | hw
    · rw [St.work] at hw
      split at hw
      · cases List.mem_singleton.mp hw
        exact ht.signalled ‹_›
      · cases hw
    · exact ht.log w hw
  refine wp_mono (afterLines_dispatches t) ?_ ?_
  · rintro _ u ⟨-, n, rfl⟩
    exact hdispatched n
  · rintro _ u ⟨n, rfl⟩
    exact hdispatched n

theorem call_sound {m : M Unit} (hm : wp m (fun _ t => Sound t) (fun _ t => Sound t) s) : Sound (call m s) :=
  call_of_wp (wp_mono hm (fun _ _ h => h) fun _ _ h => ⟨h.session, h.signalled, h.log⟩)

theorem step_sound (hs : Sound s) {e : Ev} (hz : Targeted E s e) (h : step E s e = some t) :
    Sound t := by
  cases (fired_of_step h).2.intake with
  | spares h => exact h.sound hs
  | connects _ h => exact h.sound hs.cleared
  | renews _ h => exact h.sound hs.renewed
  | @receives rx queue hk h =>
    subst h
    have hpopped : Sound { s with queue } := ⟨hs.session, hs.signalled, hs.log⟩
    refine call_sound (onRecvSocketDataCompleted_sound hpopped fun a ha j hj => ?_)
    refine hz hk.2 a ha j ?_
    rw [St.incoming, hk.1]
    exact hj
  | @answers response queue hk h =>
    subst h
    have hpopped : Sound { s with queue } := ⟨hs.session, hs.signalled, hs.log⟩
    refine call_sound (processResponse_sound hpopped fun a ha => ?_)
    refine hz hk.2 a ha response ?_
    rw [St.incoming, hk.1]
    exact List.mem_singleton_self _

/-- In a run without zero targets no boundary is zero. -/
theorem sound_of_run (h : Run E (Targeted E) s) : Sound s := by
  induction h with
  | init _ => exact ⟨nofun, nofun, nofun⟩
  | step e _ hz hstep ih => exact step_sound ih hz hstep

end CoreMiner.Stratum
