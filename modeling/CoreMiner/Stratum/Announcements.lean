/-
  CoreMiner.Stratum.Announcements — do a job's parameters follow what the pool announced
  (`XcbStratumClient.cpp`: `mining.set_difficulty`, `mining.set_extranonce`, `mining.set`,
  the login replies and `mining.notify` of the CoreStratum flavours)?

  `announcement` reads what a message announces; the last announcement of a boundary and of
  an extranonce before a job's notification say what the job should carry (`lastBoundary`,
  `lastExtranonce`). The client takes announcements over into its session one by one: behind
  a message the session is the one before it with the announcement taken over
  (`processFor_leads`), but for the difficulty of a `mining.set_difficulty`, which is not
  read: whatever it is, the boundary becomes that of the least difficulty
  (`Announcement.program`).
-/

import CoreMiner.Stratum.Lenient
import CoreMiner.Stratum.Snapshot

namespace CoreMiner.Stratum

open DevCore EthCore Lib Prog

variable {E : Env} {s t : St} {a mode : Nat} {j : Json}

/-! ## What the pool announces -/

inductive Announcement where
  | nothing
  /-- A login is accepted: a session begins, perhaps with an extranonce. -/
  | session (enonce : String)
  | difficulty (prm : Json)
  | extranonce (enonce : String)
  | set (prm : Json)

def announcedBy (mode : Nat) (method : String) (jPrm : Json) : Announcement :=
  if method = "mining.set_difficulty" ∧ mode = CORESTRATUM then
    if jPrm.isArray then .difficulty jPrm else .nothing
  else if method = "mining.set_extranonce" ∧ mode = CORESTRATUM then
    if jPrm.isArray then .extranonce ((jPrm.strIdx 0).toOption.getD "") else .nothing
  else if method = "mining.set" ∧ mode = CORESTRATUM2 then
    if jPrm.isObject && !jPrm.empty then .set jPrm else .nothing
  else .nothing

def announcedByLogin (mode : Nat) (result : Json) : Announcement :=
  if mode = CORESTRATUM2 then
    if (acceptsHello result).toOption = some true then .session "" else .nothing
  else if mode = CORESTRATUM then
    if (acceptsSubscribe result).toOption = some true then .session ((result.strIdx 1).toOption.getD "") else .nothing
  else .nothing

/-- What a message announces to a client in this mode. -/
def announcement (mode : Nat) (j : Json) : Announcement :=
  match retrieve j with
  | .error _ => .nothing
  | .ok h =>
    if (invalid h j).toOption = some false then
      if h.isNotification then announcedBy mode h.method ((j.get "params" .null).toOption.getD .null)
      else if h.id = 1 then announcedByLogin mode ((j.get "result" .null).toOption.getD .null)
      else .nothing
    else .nothing

/-! ## What it is worth -/

def leastDifficulty : Rat := 1 / 100000

def difficultyIn (prm : Json) : Option Rat :=
  match prm.getIdx 0 .null with
  | .ok (.int i) => some i
  | .ok (.real q _) => q
  | _ => none

def extranonceOf (enonce : String) : Option (UInt64 × UInt16) :=
  if enonce = "" then none
  else (stoul (resize enonce 16 '0')).toOption.map fun n => (n, UInt16.ofNat enonce.length)

def boundaryOf (target : String) : Option H256 :=
  if target = "" then none else (h256 ("0x" ++ padLeft target 64 '0')).toOption

def Announcement.extranonce? : Announcement → Option (UInt64 × UInt16)
  | session enonce => some ((extranonceOf enonce).getD (0, 0))
  | extranonce enonce => extranonceOf enonce
  | set prm => extranonceOf ((prm.strKey "extranonce" "").toOption.getD "")
  | _ => none

def Announcement.boundary? (ofDifficulty : Json → Option H256) : Announcement → Option H256
  | session _ => some defaultBoundary
  | difficulty prm => ofDifficulty prm
  | set prm => boundaryOf ((prm.strKey "target" "").toOption.getD "")
  | _ => none

def lastOf {β : Type} (f : Announcement → Option β) (mode : Nat) (messages : List Json) : Option β :=
  messages.reverse.findSome? fun j => f (announcement mode j)

theorem lastOf_concat {β : Type} (f : Announcement → Option β) (mode : Nat) (messages : List Json) (j : Json) :
    lastOf f mode (messages ++ [j]) = (f (announcement mode j)).or (lastOf f mode messages) := by
  rw [lastOf, List.reverse_append, List.reverse_singleton, List.singleton_append, List.findSome?_cons]
  cases f (announcement mode j) <;> rfl

def lastExtranonce : Nat → List Json → Option (UInt64 × UInt16) := lastOf Announcement.extranonce?

/-- `target` is `getTargetFromDiff`, read as a number. -/
def lastBoundary (target : Rat → H256) : Nat → List Json → Option H256 :=
  lastOf (Announcement.boundary? fun prm => (difficultyIn prm).map fun d => target (max d leastDifficulty))

def Announcement.difficulty? : Announcement → Option (Option Rat)
  | difficulty prm => some (difficultyIn prm)
  | ann => (ann.boundary? fun _ => none).map fun _ => none

def lastDifficulty (mode : Nat) (messages : List Json) : Option Rat :=
  (lastOf Announcement.difficulty? mode messages).join

/-! ## What the client takes over -/

def Announcement.program : Announcement → Prog Session Stop Unit
  | nothing => pure ()
  | session enonce | extranonce enonce => when (enonce ≠ "") (processExtranonce enonce)
  | difficulty _ => setDifficulty
  | set prm => miningSet prm

/-- The values of the announcement can be read: no conversion of the client's throws, and a
    difficulty is a number. -/
structure Announcement.Readable (ann : Announcement) : Prop where
  converts : ∀ x, wp ann.program (fun _ _ => True) (fun _ _ => False) x
  number : ∀ prm, ann = .difficulty prm → (difficultyIn prm).isSome = true

structure Params where
  boundary : H256
  startNonce : UInt64
  exSizeBytes : UInt16

def Session.params (x : Session) : Params := ⟨x.nextWorkBoundary, x.extraNonce, UInt16.ofNat x.extraNonceSizeBytes⟩

def Params.initial : Params := ⟨defaultBoundary, 0, 0⟩

/-- The parameters behind an announcement, if every difficulty has the boundary `least`. -/
def Params.behind (p : Params) (least : H256) (ann : Announcement) : Params where
  boundary := (ann.boundary? fun _ => some least).getD p.boundary
  startNonce := (ann.extranonce?.getD (p.startNonce, p.exSizeBytes)).1
  exSizeBytes := (ann.extranonce?.getD (p.startNonce, p.exSizeBytes)).2

def Params.renonced (p : Params) (enonce : Option (UInt64 × UInt16)) : Params where
  boundary := p.boundary
  startNonce := (enonce.getD (p.startNonce, p.exSizeBytes)).1
  exSizeBytes := (enonce.getD (p.startNonce, p.exSizeBytes)).2

theorem processExtranonce_params (enonce : String) (x : Session) :
    wp (when (enonce ≠ "") (processExtranonce enonce)) (fun _ y => y.params = x.params.renonced (extranonceOf enonce))
      (fun _ _ => True) x := by
  rw [wp_when, extranonceOf]
  by_cases he : enonce = ""
  · rw [if_neg (not_not_intro he), if_pos he]
    rfl
  · rw [if_pos he, if_neg he, processExtranonce, wp_bind, wp_modify, wp_bind, wp_raise]
    cases stoul (resize enonce 16 '0') with
    | error e => trivial
    | ok n => exact rfl

theorem aside_params {α : Type} {p : Prop} [Decidable p] (e : Except StdException α) {g : α → Session → Session}
    (hg : ∀ n x, (g n x).params = x.params) (x : Session) :
    wp (when p do let n ← raise e; modify (g n)) (fun _ y => y.params = x.params) (fun _ _ => True) x := by
  rw [wp_when, wp_bind, wp_raise]
  split
  · cases e with
    | error e => trivial
    | ok n => exact hg n x
  · rfl

theorem target_params (target : String) (x : Session) :
    wp (when (target ≠ "") do
        let boundary ← raise (h256 ("0x" ++ padLeft target 64 '0'))
        modify fun x : Session => { x with nextWorkBoundary := boundary })
      (fun _ y => y.params = { x.params with boundary := (boundaryOf target).getD x.params.boundary })
      (fun _ _ => True) x := by
  rw [wp_when, boundaryOf]
  by_cases ht : target = ""
  · rw [if_neg (not_not_intro ht), if_pos ht]
    rfl
  · rw [if_pos ht, if_neg ht, wp_bind, wp_raise]
    cases h256 ("0x" ++ padLeft target 64 '0') with
    | error e => trivial
    | ok boundary => exact rfl

theorem miningSet_params (prm : Json) (least : H256) (x : Session) :
    wp (miningSet prm) (fun _ y => y.params = x.params.behind least (.set prm)) (fun _ _ => True) x := by
  rw [miningSet]
  refine wp_modify_bind_of (wp_raise_bind_of fun timeout _ => wp_raise_bind_of fun epoch _ =>
    wp_raise_bind_of fun target htarget => ?_)
  rw [wp_bind]
  refine wp_mono (aside_params (g := fun n x => { x with timeout := .ofInt n }) (stoi timeout) (fun _ _ => rfl) _)
    (fun _ x₁ h₁ => ?_) fun _ _ h => h
  rw [wp_bind]
  refine wp_mono (aside_params (g := fun n x => { x with epoch := n.toUInt32 }) (stoul epoch) (fun _ _ => rfl) x₁)
    (fun _ x₂ h₂ => ?_) fun _ _ h => h
  rw [wp_bind]
  refine wp_mono (target_params target x₂) (fun _ x₃ h₃ => ?_) fun _ _ h => h
  refine wp_raise_bind_of fun algo _ => wp_modify_bind_of (wp_raise_bind_of fun enonce henonce => ?_)
  refine wp_mono (processExtranonce_params enonce _) (fun _ y hy => ?_) fun _ _ h => h
  have hsame : ({ x₃ with algo := algo } : Session).params = x₃.params := rfl
  have hx : x₂.params = x.params := h₂.trans h₁
  rw [hy, hsame, h₃, hx, Params.behind, Params.renonced, Announcement.boundary?, Announcement.extranonce?,
    htarget, henonce]
  rfl

theorem program_params {least : H256} (hE : h256 leastTarget = .ok least) (ann : Announcement) (x : Session)
    (hsession : ∀ enonce, ann = .session enonce → x.params = .initial) :
    wp ann.program (fun _ y => y.params = x.params.behind least ann) (fun _ _ => True) x := by
  cases ann with
  | nothing => exact rfl
  | session enonce =>
    refine wp_mono (processExtranonce_params enonce x) (fun _ y hy => ?_) fun _ _ h => h
    rw [hy, hsession enonce rfl]
    rfl
  | difficulty prm =>
    rw [Announcement.program, setDifficulty, hE]
    exact rfl
  | extranonce enonce => exact processExtranonce_params enonce x
  | set prm => exact miningSet_params prm least x

/-! ## The messages that announce nothing -/

def SameParams (s t : St) : Prop := t.session.map Session.params = s.session.map Session.params

theorem SameParams.refl (s : St) : SameParams s s := rfl

theorem SameParams.trans (s t u : St) (h : SameParams s t) (h' : SameParams t u) : SameParams s u := Eq.trans h' h

section

variable {α β : Type}

theorem sameParams_bind {m : M α} {f : α → M β} (hm : Kept SameParams m) (hf : ∀ x, Kept SameParams (f x)) :
    Kept SameParams (m >>= f) := Keeps.bind SameParams.trans (fun _ _ _ _ _ => trivial) hm hf

theorem sameParams_when {p : Prop} [Decidable p] {m : M Unit} (hm : p → Kept SameParams m) :
    Kept SameParams (when p m) := Keeps.when SameParams.refl hm

theorem sameParams_modify {f : St → St} (hf : ∀ s, (f s).session = s.session) : Kept SameParams (modify f) :=
  Keeps.modify fun s => congrArg (Option.map Session.params) (hf s)

theorem sameParams_get : Kept SameParams (get : M St) := Keeps.get SameParams.refl

theorem sameParams_raise (e : Except StdException α) : Kept SameParams (raise e) := by
  cases e with
  | error x => exact Keeps.throw SameParams.refl fun _ => trivial
  | ok x => exact Keeps.pure SameParams.refl x

theorem sameParams_getConn : Kept SameParams getConn := by
  refine ⟨fun s => wp_getConn.mpr ?_⟩
  cases s.conn with
  | none => exact ⟨.refl s, trivial⟩
  | some a => exact .refl s

theorem sameParams_modifyConn (f : Uri → Uri) : Kept SameParams (modifyConn f) := by
  refine ⟨fun s => wp_modifyConn.mpr ?_⟩
  cases s.conn with
  | none => exact ⟨.refl s, trivial⟩
  | some a => exact rfl

theorem sameParams_send (jReq : Json) : Kept SameParams (send E jReq) := by
  have hsent : ∀ s t, Sent s t → SameParams s t := by
    rintro s t ⟨_, _, _, _, _, rfl⟩
    exact rfl
  exact ⟨fun s => wp_mono ((send_sent jReq).from_ s) (fun _ t h => hsent s t h) fun _ t h => ⟨hsent s t h.1, trivial⟩⟩

theorem sameParams_onSession {g : Session → Session} (hg : ∀ x, (g x).params = x.params) :
    Kept SameParams (onSession (modify g)) := by
  refine ⟨fun s => ?_⟩
  rw [onSession, wp_bind, wp_get]
  cases hs : s.session with
  | none => exact ⟨.refl s, trivial⟩
  | some x =>
    show Option.map Session.params (some (g x)) = s.session.map Session.params
    rw [hs, Option.map_some, Option.map_some, hg]

theorem sameParams_onCurrent (m : Prog WorkPackage Stop α) : Kept SameParams (onCurrent m) :=
  ⟨fun _ => wp_zoom.mpr (wp_iff_exec.mpr ⟨fun _ _ _ => rfl, fun _ _ _ => ⟨rfl, trivial⟩⟩)⟩

end

theorem sameParams_post (k : Handler) : Kept SameParams (post k) := sameParams_modify fun _ => rfl

theorem sameParams_dequeue : Kept SameParams dequeueResponsePlea :=
  sameParams_bind sameParams_get fun _ => sameParams_bind (sameParams_modify fun _ => rfl)
    fun _ => Keeps.pure SameParams.refl _

theorem sameParams_abandon : Kept SameParams abandon :=
  sameParams_bind (sameParams_modifyConn _) fun _ => sameParams_post _

theorem subscribeReply_sameParams (result : Json) : Kept SameParams (subscribeReply E result) := by
  refine sameParams_bind sameParams_getConn
    fun u => sameParams_when fun _ => sameParams_bind sameParams_dequeue fun _ => ?_
  cases textOf result with
  | none => exact sameParams_abandon
  | some sessionId =>
    exact sameParams_bind (sameParams_onSession fun _ => rfl)
      fun _ => sameParams_bind (sameParams_modify fun _ => rfl) fun _ =>
      sameParams_bind sameParams_getConn fun _ => sameParams_bind (sameParams_modify fun _ => rfl)
        fun _ => sameParams_send _

theorem authorizeReply_sameParams (h : Header) (result : Json) : Kept SameParams (authorizeReply h result) :=
  sameParams_bind sameParams_dequeue fun _ => sameParams_bind (sameParams_modify fun _ => rfl) fun _ =>
    sameParams_bind (sameParams_onSession fun _ => rfl) fun _ => sameParams_bind sameParams_get fun _ =>
    sameParams_when fun _ => sameParams_abandon

theorem authorizeReply2_sameParams (h : Header) (result : Json) : Kept SameParams (authorizeReply2 h result) := by
  refine sameParams_bind sameParams_dequeue fun _ => ?_
  cases (if h.isSuccess then textOf result else none) with
  | none => exact sameParams_abandon
  | some workerId => exact sameParams_bind (sameParams_modify fun _ => rfl) fun _ => sameParams_onSession fun _ => rfl

theorem submitReply_sameParams (h : Header) (result : Json) : Kept SameParams (submitReply h result) :=
  sameParams_bind sameParams_dequeue fun _ => Keeps.ite (fun _ => sameParams_modify fun _ => rfl) fun _ =>
    sameParams_modify fun _ => rfl

theorem submitReply2_sameParams (h : Header) (j : Json) : Kept SameParams (submitReply2 h j) :=
  sameParams_bind sameParams_dequeue fun _ => sameParams_bind (sameParams_raise _) fun _ =>
    Keeps.ite (fun _ => sameParams_modify fun _ => rfl) fun _ => sameParams_modify fun _ => rfl

theorem strayReply_sameParams (h : Header) : Kept SameParams (strayReply h) :=
  sameParams_when fun _ => sameParams_bind sameParams_getConn fun _ => sameParams_bind sameParams_get fun _ =>
    sameParams_when fun _ => sameParams_post _

/-- Only the first reply of a connection begins a session. -/
theorem reply_sameParams {h : Header} (hid : h.id ≠ 1) (j result : Json) : Kept SameParams (reply E h j result) := by
  refine sameParams_bind sameParams_get fun s => ?_
  rw [if_neg hid]
  refine Keeps.ite (fun _ => subscribeReply_sameParams result) fun _ => Keeps.ite (fun _ => ?_) fun _ =>
    Keeps.ite (fun _ => ?_) fun _ => sameParams_when fun _ => strayReply_sameParams h
  · exact sameParams_bind sameParams_getConn fun _ => Keeps.ite (fun _ => authorizeReply_sameParams h result) fun _ =>
      authorizeReply2_sameParams h result
  · exact sameParams_bind sameParams_getConn fun _ => Keeps.ite (fun _ => submitReply_sameParams h result) fun _ =>
      submitReply2_sameParams h j

theorem takeJob_sameParams (u : Uri) (j : Json) : Kept SameParams (takeJob u j) := by
  have hsignal : Kept SameParams signalJob := sameParams_modify fun _ => rfl
  refine Keeps.ite (fun _ => sameParams_bind sameParams_get fun s => ?_)
    fun _ => sameParams_bind sameParams_get fun s => ?_
  · cases s.session with
    | none => exact Keeps.pure SameParams.refl _
    | some session =>
      exact sameParams_when fun _ => sameParams_bind (sameParams_raise _)
        fun _ => sameParams_bind (sameParams_raise _) fun _ =>
        sameParams_when fun _ => sameParams_bind (sameParams_onCurrent _) fun _ => sameParams_when fun _ => hsignal
  · cases s.session with
    | none => exact Keeps.pure SameParams.refl _
    | some session =>
      exact sameParams_when fun _ => sameParams_bind (sameParams_raise _) fun _ => sameParams_when fun _ =>
        sameParams_bind (sameParams_onCurrent _) fun _ => hsignal

/-! ## The messages that announce something -/

/-- The session behind the message is the one before it, or a new one in a mode that is
    confirmed, and has taken over what the message announces. -/
def Followed (least : H256) (ann : Announcement) (a : Nat) (s t : St) : Prop :=
  ∀ y, t.session = some y → ∃ p, y.params = p.behind least ann ∧
    ((∃ enonce, ann = .session enonce) ∧ p = .initial ∧ (t.uris a).stratumModeConfirmed = true ∨
      s.session.map Session.params = some p)

def Leads (least : H256) (ann : Announcement) (a : Nat) (m : M Unit) (s : St) : Prop :=
  wp m (fun _ t => Followed least ann a s t) (fun x t => x.isStd = true → Followed least ann a s t) s

theorem wp_onSession_some {α : Type} {m : Prog Session Stop α} {Q : α → St → Prop} {X : Stop → St → Prop} {x : Session}
    (hs : s.session = some x) : wp (onSession m) Q X s ↔
      wp m (fun r y => Q r { s with session := some y }) (fun e y => X e { s with session := some y }) x := by
  rw [onSession, wp_bind, wp_get, hs]
  exact wp_zoom

section

variable {least : H256} {ann : Announcement} {m : M Unit}

theorem followed_of_same (hann : ∀ p : Params, p.behind least ann = p) (h : SameParams s t) :
    Followed least ann a s t := by
  intro y hy
  have hp : s.session.map Session.params = some y.params := by
    rw [← h, hy]
    rfl
  exact ⟨y.params, (hann _).symm, .inr hp⟩

theorem followed_of_none (hs : s.session = none) (h : SameParams s t) : Followed least ann a s t := by
  intro y hy
  have hnone : t.session.map Session.params = none := Eq.trans h (by rw [hs]; rfl)
  simp [hy] at hnone

theorem leads_of_same (hann : ∀ p : Params, p.behind least ann = p) (hm : Kept SameParams m) :
    Leads least ann a m s :=
  wp_mono (hm.from_ s) (fun _ _ h => followed_of_same hann h) fun _ _ h _ => followed_of_same hann h.1

theorem leads_when {c : Prop} [Decidable c] (hm : c → Leads least ann a m s) :
    Leads least (if c then ann else .nothing) a (when c m) s := by
  by_cases hc : c
  · rw [if_pos hc, when, if_pos hc]
    exact hm hc
  · rw [if_neg hc, when, if_neg hc]
    exact leads_of_same (fun _ => rfl) (Keeps.pure SameParams.refl _)

/-- What an announcement does to a session that is there. -/
theorem leads_onSession (hE : h256 leastTarget = .ok least) (hr : ann.Readable)
    (hann : ∀ enonce, ann ≠ .session enonce) : Leads least ann a (onSession ann.program) s := by
  cases hs : s.session with
  | none =>
    rw [Leads, onSession, wp_bind, wp_get, hs]
    exact fun hstd => by cases hstd
  | some x =>
    rw [Leads, wp_onSession_some hs]
    have hprogram := program_params hE ann x fun enonce h => absurd h (hann enonce)
    refine wp_mono (wp_and hprogram (hr.converts x)) (fun _ y hy => ?_) fun _ _ h => h.2.elim
    intro z hz
    cases hz
    exact ⟨x.params, hy.1, .inr (by rw [hs]; rfl)⟩

end

theorem Announcement.Readable.of_ite {c : Prop} [Decidable c] {ann : Announcement}
    (h : (if c then ann else Announcement.nothing).Readable) (hc : c) : ann.Readable := by
  rwa [if_pos hc] at h

theorem setExtranonce_leads {least : H256} (hE : h256 leastTarget = .ok least) {prm : Json}
    (hr : (Announcement.extranonce ((prm.strIdx 0).toOption.getD "")).Readable) :
    Leads least (.extranonce ((prm.strIdx 0).toOption.getD "")) a (do
      let enonce ← raise (prm.strIdx 0)
      when (enonce ≠ "") (onSession (processExtranonce enonce))) s := by
  cases henonce : prm.strIdx 0 with
  | error e => exact fun _ => followed_of_same (fun _ => rfl) (.refl s)
  | ok enonce =>
    rw [henonce] at hr
    rw [raise_ok_bind]
    show Leads least (.extranonce enonce) a (when (enonce ≠ "") (onSession (processExtranonce enonce))) s
    by_cases he : enonce = ""
    · subst he
      exact leads_of_same (fun _ => rfl) (Keeps.pure SameParams.refl _)
    · have hprogram : (Announcement.extranonce enonce).program = processExtranonce enonce := if_pos he
      rw [when, if_pos he, ← hprogram]
      exact leads_onSession hE hr fun _ h => by cases h

theorem dispatch_leads {least : H256} (hE : h256 leastTarget = .ok least) {u : Uri} {h : Header} {prm : Json}
    (hprm : j.get "params" .null = .ok prm) (hr : (announcedBy u.stratumMode h.method prm).Readable) :
    Leads least (announcedBy u.stratumMode h.method prm) a (dispatch E u h j) s := by
  by_cases hjob : h.method = "mining.notify"
  · rw [dispatch_job ⟨prm, hprm⟩ hjob]
    exact leads_of_same (by simp [announcedBy, hjob, Params.behind, Announcement.boundary?, Announcement.extranonce?])
      (takeJob_sameParams u j)
  rw [dispatch, hprm, raise_ok_bind, if_neg hjob]
  unfold announcedBy at hr ⊢
  split
  case isTrue hm =>
    rw [if_pos hm] at hr
    exact leads_when fun hc => leads_onSession hE (hr.of_ite hc) fun _ h => by cases h
  case isFalse hm =>
    rw [if_neg hm] at hr
    split
    case isTrue hm =>
      rw [if_pos hm] at hr
      exact leads_when fun hc => setExtranonce_leads hE (hr.of_ite hc)
    case isFalse hm =>
      rw [if_neg hm] at hr
      split
      case isTrue hm =>
        rw [if_pos hm] at hr
        exact leads_when fun hc => leads_onSession hE (hr.of_ite hc) fun _ h => by cases h
      case isFalse hm =>
        refine leads_of_same (fun _ => rfl) (Keeps.ite (fun _ => sameParams_post _) fun _ => ?_)
        exact Keeps.ite (fun _ => sameParams_send _) fun _ => sameParams_send _

/-! ## Logins -/

structure Began (a : Nat) (t : St) : Prop where
  conn : t.conn = some a
  confirmed : (t.uris a).stratumModeConfirmed = true
  params : t.session.map Session.params = some .initial

section

variable {least : H256} {ann : Announcement}

theorem Began.session (h : Began a t) : ∃ x, t.session = some x ∧ x.params = .initial := by
  obtain ⟨x, hx, hp⟩ := Option.map_eq_some_iff.mp h.params
  exact ⟨x, hx, hp⟩

theorem Began.followed (h : Began a t) : Followed least (.session "") a s t := by
  intro y hy
  have hp := h.params
  rw [hy] at hp
  exact ⟨.initial, Option.some.inj hp, .inl ⟨⟨_, rfl⟩, rfl, h.confirmed⟩⟩

theorem Began.sent (h : Began a s) (ht : Sent s t) : Began a t := by
  obtain ⟨_, _, _, _, _, rfl⟩ := ht
  exact ⟨h.conn, h.confirmed, h.params⟩

theorem Followed.of_eq {t' : St} (h : Followed least ann a s t) (hs : t'.session = t.session)
    (hu : t'.uris = t.uris) : Followed least ann a s t' := by
  intro y hy
  rw [hu]
  exact h y (hs ▸ hy)

/-- The mode is confirmed and the session starts. -/
theorem startSession_began {Q : Unit → St → Prop} {X : Stop → St → Prop} {mode : Nat} (hc : s.conn = some a)
    (h : ∀ t, Began a t → Q () t) : wp (do modifyConn (·.setStratumMode mode true); startSession) Q X s := by
  rw [wp_bind, wp_modifyConn_some hc]
  refine h _ ⟨hc, ?_, rfl⟩
  show ((s.updateUri a fun u => u.setStratumMode mode true).uris a).stratumModeConfirmed = true
  rw [show (s.updateUri a fun u => u.setStratumMode mode true).uris a =
    (s.uris a).setStratumMode mode true from if_pos rfl]
  rfl

theorem refuse_sameParams : Kept SameParams refuse :=
  sameParams_bind sameParams_getConn
    fun _ => sameParams_bind (sameParams_when fun _ => sameParams_modifyConn _) fun _ =>
    sameParams_post _

theorem refuse_follows {Q : Option Json → St → Prop} {X : Stop → St → Prop}
    (hQ : ∀ t, SameParams s t → Q none t) (hX : ∀ x t, SameParams s t → X x t) :
    wp (do refuse; return none) Q X s := by
  rw [wp_bind]
  exact wp_mono (refuse_sameParams.from_ s) (fun _ t h => hQ t h) fun x t h => hX x t h.1

end

theorem extranonce_leads {least : H256} (hE : h256 leastTarget = .ok least) {enonce : String} (ht : Began a t)
    (hr : (Announcement.session enonce).Readable) :
    wp (when (enonce ≠ "") (onSession (processExtranonce enonce)))
      (fun _ u => Followed least (.session enonce) a s u ∧ u.conn = some a) (fun _ _ => False) t := by
  obtain ⟨x, hx, hparams⟩ := ht.session
  rw [wp_when]
  split
  case isTrue he =>
    have hprogram : (Announcement.session enonce).program = processExtranonce enonce := if_pos he
    rw [wp_onSession_some hx, ← hprogram]
    have hbehind := program_params hE (.session enonce) x fun _ _ => hparams
    refine wp_mono (wp_and hbehind (hr.converts x)) (fun _ y hy => ⟨fun z hz => ?_, ht.conn⟩) fun _ _ h => h.2
    cases hz
    exact ⟨x.params, hy.1, .inl ⟨⟨_, rfl⟩, hparams, ht.confirmed⟩⟩
  case isFalse he =>
    rw [not_not.mp he]
    exact ⟨ht.followed, ht.conn⟩

theorem loginCoreStratum2_leads {least : H256} (hc : s.conn = some a) (result : Json) :
    wp (loginCoreStratum2 result) (fun _ t => Followed least (announcedByLogin CORESTRATUM2 result) a s t)
      (fun x t => x.isStd = true → Followed least (announcedByLogin CORESTRATUM2 result) a s t) s := by
  have hann : announcedByLogin CORESTRATUM2 result =
      if (acceptsHello result).toOption = some true then .session "" else .nothing := rfl
  rw [hann, loginCoreStratum2]
  rcases acceptsHello result with e | _ | _
  · exact fun _ => followed_of_same (fun _ => rfl) (.refl s)
  · exact refuse_follows (fun _ => followed_of_same fun _ => rfl) fun _ _ h _ => followed_of_same (fun _ => rfl) h
  · rw [raise_ok_bind, if_pos rfl, ← bind_assoc, wp_bind]
    refine startSession_began hc fun t ht => ?_
    rw [wp_bind, enqueueResponsePlea, wp_modify]
    exact ht.followed.of_eq rfl rfl

theorem loginCoreStratum_leads {least : H256} (hE : h256 leastTarget = .ok least) (hc : s.conn = some a)
    (result : Json) (hr : (announcedByLogin CORESTRATUM result).Readable) :
    wp (loginCoreStratum E result) (fun _ t => Followed least (announcedByLogin CORESTRATUM result) a s t)
      (fun x t => x.isStd = true → Followed least (announcedByLogin CORESTRATUM result) a s t) s := by
  have hann : announcedByLogin CORESTRATUM result =
      if (acceptsSubscribe result).toOption = some true then .session ((result.strIdx 1).toOption.getD "")
      else .nothing := rfl
  rw [hann] at hr ⊢
  rw [loginCoreStratum]
  rcases haccepts : acceptsSubscribe result with e | _ | _
  · exact fun _ => followed_of_same (fun _ => rfl) (.refl s)
  · exact refuse_follows (fun _ => followed_of_same fun _ => rfl) fun _ _ h _ => followed_of_same (fun _ => rfl) h
  · rw [raise_ok_bind, if_pos rfl, ← bind_assoc, wp_bind]
    refine startSession_began hc fun t ht => ?_
    obtain ⟨x, hx, hparams⟩ := ht.session
    rw [wp_bind, wp_onSession_some hx, wp_modify, wp_bind]
    have hbegan : Began a { t with session := some { x with subscribed := true } } :=
      ⟨ht.conn, ht.confirmed, congrArg some hparams⟩
    refine wp_mono ((send_sent _).from_ _) (fun _ t₁ ht₁ => ?_) fun x t₁ ht₁ hstd => ?_
    · have hbegan₁ := hbegan.sent ht₁
      cases henonce : result.strIdx 1 with
      | error e => exact fun _ => hbegan₁.followed
      | ok enonce =>
        rw [haccepts, henonce] at hr
        rw [raise_ok_bind, wp_bind]
        refine wp_mono (extranonce_leads (s := s) hE hbegan₁ hr) (fun _ t₂ ht₂ => ?_) fun _ _ h => h.elim
        rw [wp_bind, wp_modify, wp_bind, wp_getConn]
        rw [ht₂.2]
        exact ht₂.1.of_eq rfl rfl
    · rw [ht₁.2] at hstd
      cases hstd

/-- The reply to the first message of a connection. -/
theorem loginReply_leads {least : H256} (hE : h256 leastTarget = .ok least) (hc : s.conn = some a)
    (hmode : (s.uris a).stratumMode = mode) (hm : mode = CORESTRATUM ∨ mode = CORESTRATUM2)
    (hconfirmed : s.session.isSome = true → (s.uris a).stratumModeConfirmed = true) (h : Header) (result : Json)
    (hr : (announcedByLogin mode result).Readable) :
    Leads least (announcedByLogin mode result) a (loginReply E h result) s := by
  rw [Leads, wp_loginReply, hc]
  show if _ then _ else _
  split
  case isTrue hfailed =>
    have hnone : s.session = none := by
      cases hs : s.session with
      | none => rfl
      | some x => simp [hconfirmed (by simp [hs])] at hfailed
    exact followed_of_none hnone rfl
  case isFalse =>
    have hlogin : wp (loginFor E (s.uris a).stratumMode h result)
        (fun _ t => Followed least (announcedByLogin mode result) a s t)
        (fun x t => x.isStd = true → Followed least (announcedByLogin mode result) a s t) s.dequeued := by
      rw [hmode]
      rcases hm with rfl | rfl
      · exact loginCoreStratum_leads (s := s.dequeued) hE hc result hr
      · exact loginCoreStratum2_leads (s := s.dequeued) hc result
    refine wp_mono hlogin (fun jReq t ht => ?_) fun _ _ h => h
    cases jReq with
    | none => exact ht
    | some jReq =>
      refine wp_mono ((send_sent jReq).from_ t) (fun _ u hu => ?_) fun x u hu hstd => ?_
      · obtain ⟨_, _, _, _, _, rfl⟩ := hu
        exact ht.of_eq rfl rfl
      · rw [hu.2] at hstd
        cases hstd

/-- Outside of eth-proxy a reply is no job. -/
theorem asGetWorkFor_of_mode {u : Uri} (hu : u.stratumMode ≠ ETHPROXY) {h : Header} (hret : retrieve j = .ok h) :
    asGetWorkFor u h j = .ok h := by
  obtain ⟨result, hresult⟩ := get_of_retrieve hret "result" .null
  rw [asGetWorkFor, Json.at_, hresult]
  split
  · simp [hu, bind, Except.bind, pure, Except.pure]
  · rfl

/-- Behind a message the session has taken over what it announces. -/
theorem processFor_leads {least : H256} (hE : h256 leastTarget = .ok least) (hc : s.conn = some a)
    (hmode : (s.uris a).stratumMode = mode) (hm : mode = CORESTRATUM ∨ mode = CORESTRATUM2)
    (hconfirmed : s.session.isSome = true → (s.uris a).stratumModeConfirmed = true)
    (hr : (announcement mode j).Readable) :
    Leads least (announcement mode j) a (processFor E (s.uris a) j) s := by
  have hproxy : (s.uris a).stratumMode ≠ ETHPROXY := by
    rw [hmode]
    rcases hm with rfl | rfl <;> decide
  have hsame {m : M Unit} (hm : Kept SameParams m) : Leads least .nothing a m s := leads_of_same (fun _ => rfl) hm
  unfold processFor announcement at *
  cases hret : retrieve j with
  | error e => exact hsame (sameParams_raise (.error e))
  | ok h =>
    obtain ⟨prm, hprm⟩ := get_of_retrieve hret "params" .null
    obtain ⟨result, hresult⟩ := get_of_retrieve hret "result" .null
    simp only [hret, hprm, hresult] at hr ⊢
    rw [raise_ok_bind, asGetWorkFor_of_mode hproxy hret, raise_ok_bind]
    rcases hvalid : invalid h j with e | _ | _
    · exact hsame (sameParams_raise (.error e))
    · rw [raise_ok_bind, if_neg Bool.false_ne_true]
      rw [hvalid] at hr
      simp only [Except.toOption, if_true, Option.getD_some] at hr ⊢
      by_cases hn : h.isNotification = true
      · rw [if_pos hn] at hr
        rw [if_pos hn, if_pos hn]
        by_cases hconf : (s.uris a).stratumModeConfirmed = true
        · rw [when, if_pos hconf]
          rw [← hmode] at hr ⊢
          exact dispatch_leads hE hprm hr
        · have hnone : s.session = none := by
            cases hs : s.session with
            | none => rfl
            | some x => exact absurd (hconfirmed (by simp [hs])) hconf
          rw [when, if_neg hconf]
          exact followed_of_none hnone rfl
      · rw [if_neg hn] at hr
        rw [if_neg hn, if_neg hn, raise_ok_bind]
        by_cases hid : h.id = 1
        · rw [if_pos hid] at hr
          rw [if_pos hid, if_neg (by omega)]
          have hlogin := loginReply_leads (E := E) hE hc hmode hm hconfirmed h result hr
          rw [Leads, reply, wp_bind, wp_get, if_pos hid]
          exact hlogin
        · rw [if_neg hid]
          split
          · exact hsame (sameParams_when fun hc => by simp [hproxy] at hc)
          · exact hsame (reply_sameParams hid j result)
    · exact hsame (sameParams_post _)

end CoreMiner.Stratum
