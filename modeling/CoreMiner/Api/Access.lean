/-
  CoreMiner.Api.Access — who can change the miner through the API, and who can see it
  (`ApiServer.cpp`; `docs/API.md`: read-only mode and the password).

  A read-only session changes nothing (`readonly_keeps_node`): of the methods that change the
  node each is behind `checkApiWriteAccess`, and the rest of a session only reads it.

  With a password, a session that has not been authorized is to learn nothing either. Its
  requests are answered without a look at the node (`Answers`), so two runs on different
  nodes stay in step (`unauthorized_learns_nothing`). But the password guards the requests
  only: the statistics page is served to anyone (`page_served_to_anyone`). And what is compared is
  the first 500 characters, filled up with zeros, so other passwords pass, too.
-/

import CoreMiner.Api.Responses
import CoreMiner.Api.Session

namespace CoreMiner.Api

open DevCore EthCore Lib Prog
open Stratum (trim)

variable {E : Env} {C : Config} {m : Moment}

/-! ## Read-only sessions -/

def SameNode {σ : Type} (node : σ → Node) (s t : σ) : Prop := node t = node s

theorem SameNode.refl {σ : Type} {node : σ → Node} (s : σ) : SameNode node s s := rfl

theorem SameNode.trans {σ : Type} {node : σ → Node} (s t u : σ) (h : SameNode node s t) (h' : SameNode node t u) :
    SameNode node s u := Eq.trans h' h

def Spares {σ α : Type} (node : σ → Node) (p : Prog σ Stop α) : Prop := Keeps (SameNode node) (fun _ _ => True) p

namespace Spares

variable {σ α β : Type} {node : σ → Node}

theorem bind {p : Prog σ Stop α} {f : α → Prog σ Stop β} (hp : Spares node p) (hf : ∀ a, Spares node (f a)) :
    Spares node (p >>= f) := Keeps.bind SameNode.trans (fun _ _ _ _ _ => trivial) hp hf

theorem pure (a : α) : Spares node (Pure.pure a : Prog σ Stop α) := Keeps.pure SameNode.refl a

theorem throw (x : Stop) : Spares node (MonadExcept.throw x : Prog σ Stop α) :=
  Keeps.throw SameNode.refl fun _ => trivial

theorem get_bind {f : σ → Prog σ Stop α} (hf : ∀ s, Spares node (f s)) : Spares node (get >>= f) :=
  bind (Keeps.get SameNode.refl) hf

theorem modify {f : σ → σ} (h : ∀ s, node (f s) = node s) : Spares node (modify f : Prog σ Stop PUnit) := Keeps.modify h

theorem raise (e : Except Stop α) : Spares node (Api.raise e : Prog σ Stop α) := by
  cases e with
  | ok a => exact pure a
  | error x => exact throw x

theorem ite {c : Prop} [Decidable c] {p q : Prog σ Stop α} (hp : Spares node p) (hq : Spares node q) :
    Spares node (if c then p else q) := Keeps.ite (fun _ => hp) fun _ => hq

theorem when {c : Prop} [Decidable c] {p : Prog σ Stop Unit} (hp : Spares node p) : Spares node (Prog.when c p) :=
  ite hp (pure ())

theorem forM {f : β → Prog σ Stop Unit} (hf : ∀ b, Spares node (f b)) (l : List β) : Spares node (forM l f) :=
  Keeps.forM SameNode.refl SameNode.trans (fun _ _ _ _ _ => trivial) hf l

theorem tryCatch {p : Prog σ Stop α} {h : Stop → Prog σ Stop α} (hp : Spares node p) (hh : ∀ x, Spares node (h x)) :
    Spares node (tryCatch p h : Prog σ Stop α) :=
  Keeps.tryCatch SameNode.trans (fun _ _ _ _ _ => trivial) hp hh

theorem exec {p : Prog σ Stop α} (h : Spares node p) (s : σ) : node (p.exec s).2 = node s := by
  have hends := h.from_ s
  unfold wp at hends
  rcases hexec : p.exec s with ⟨x | a, t⟩
  · rw [hexec] at hends
    exact hends.1
  · rw [hexec] at hends
    exact hends

theorem of_exec {p : Prog σ Stop α} (h : ∀ s, node (p.exec s).2 = node s) : Spares node p :=
  ⟨fun s => wp_iff_exec.mpr
    ⟨fun _ _ ht => by rw [SameNode, ← h s, ht], fun _ _ ht => ⟨by rw [SameNode, ← h s, ht], trivial⟩⟩⟩

end Spares

section requests

variable {jRequest : Json}

theorem error_spares (code : Int) (message : String) : Spares Call.node (error code message) := .modify fun _ => rfl

theorem put_spares (key : String) (v : Json) : Spares Call.node (put key v) := .modify fun _ => rfl

theorem error_return_spares {α : Type} (code : Int) (message : String) (a : α) :
    Spares Call.node (do error code message; return a) := .bind (error_spares _ _) fun _ => .pure _

theorem requestValue_spares {α : Type} (isType : Json → Bool) (as : Json → Except StdException α) (key : String)
    (ref : α) (optional : Bool) : Spares Call.node (requestValue E isType as key ref jRequest optional) := by
  refine .bind (.raise _) fun isMember => .ite (.ite (.pure _) (error_return_spares _ _ _)) ?_
  refine .bind (.raise _) fun value => .ite (error_return_spares _ _ _) (.ite (error_return_spares _ _ _) ?_)
  rw [map_eq_pure_bind]
  exact .bind (.raise _) fun a => .pure _

theorem writing_spares (hreadonly : C.readonly = true) (body : R Unit) : Spares Call.node (writing C body) := by
  refine ⟨fun c => ?_⟩
  rw [wp_writing, if_pos hreadonly]
  rfl

theorem runMethod_spares (hreadonly : C.readonly = true) (x : Method) :
    Spares Call.node (runMethod E C m jRequest x) := by
  cases x with
  | minerGetstat1 | minerGetstatdetail => exact .get_bind fun _ => .bind (.raise _) fun _ => put_spares _ _
  | minerGetconnections | minerGetscramblerinfo => exact .get_bind fun _ => put_spares _ _
  | minerPing => exact put_spares _ _
  | minerShuffle | minerRestart | minerReboot | minerAddconnection | minerSetactiveconnection | minerRemoveconnection
  | minerSetscramblerinfo | minerPausegpu | minerSetverbosity => exact writing_spares hreadonly _

theorem authorize_spares : Spares Call.node (authorize E C jRequest) := by
  refine .bind (.modify fun _ => rfl) fun _ => .bind (requestValue_spares _ _ _ _ _) fun params => ?_
  cases params with
  | none => exact .pure _
  | some p =>
    refine .bind (requestValue_spares _ _ _ _ _) fun psw => ?_
    cases psw with
    | none => exact .pure _
    | some psw => exact .ite (.modify fun _ => rfl) (error_spares _ _)

theorem parseRequestId_spares : Spares Call.node (parseRequestId E jRequest) := by
  refine .bind (.raise _) fun isMember => .bind (.raise _) fun id => ?_
  have hrefused (message : String) : Spares Call.node (do put "id" .null; error (-32600) message; return false) :=
    .bind (put_spares _ _) fun _ => error_return_spares _ _ _
  refine .ite (hrefused _) (.ite ?_ (.ite ?_ (hrefused _)))
  · exact .bind (.raise _) fun n => .bind (put_spares _ _) fun _ => .pure _
  · exact .bind (.raise _) fun text => .bind (put_spares _ _) fun _ => .pure _

theorem readMethod_spares : Spares Call.node (readMethod E jRequest) := by
  refine .bind (requestValue_spares _ _ _ _ _) fun jsonrpc => ?_
  cases jsonrpc with
  | none => exact .pure _
  | some jsonrpc => exact .ite (.pure _) (requestValue_spares _ _ _ _ _)

theorem processRequest_spares (hreadonly : C.readonly = true) : Spares Call.node (processRequest E C m jRequest) := by
  refine .bind (put_spares _ _) fun _ => .bind parseRequestId_spares fun accepted => ?_
  refine .ite (.bind readMethod_spares fun method => ?_) (.pure _)
  cases method with
  | none => exact error_spares _ _
  | some method =>
    refine .get_bind fun c => .ite (.ite (error_spares _ _) authorize_spares) ?_
    unfold dispatch
    cases Method.ofText method with
    | none => exact error_spares _ _
    | some x => exact runMethod_spares hreadonly x

end requests

section session

theorem sendSocketData_spares (text : List Char) (disconnects : Bool) :
    Spares St.node (sendSocketData text disconnects) :=
  .get_bind fun _ => .when (.bind (.modify fun _ => rfl) fun _ => .modify fun _ => rfl)

theorem handleRequest_spares (hreadonly : C.readonly = true) (jMsg : Json) :
    Spares St.node (handleRequest E C m jMsg) := by
  refine .bind (.modify fun _ => rfl) fun _ => ?_
  refine .tryCatch (.of_exec fun s => ?_) fun x => ?_
  · have hresponse : Spares Call.node (response E C m jMsg) :=
      .bind (processRequest_spares hreadonly) fun _ => .get_bind fun _ => .pure _
    rw [exec_zoom]
    exact hresponse.exec s.call
  · cases x with
    | exception what => exact .pure _
    | undefined => exact .throw _

theorem processLine_spares (hreadonly : C.readonly = true) (line : List Char) :
    Spares St.node (processLine E C m line) := by
  refine .bind (.bind (.raise _) fun r => ?_) fun jRes => .get_bind fun _ => .when (sendSocketData_spares _ _)
  cases r with
  | ok jMsg => exact handleRequest_spares hreadonly jMsg
  | error what => exact .pure _

theorem handleMessage_spares (hreadonly : C.readonly = true) (message : List Char) :
    Spares St.node (handleMessage E C m message) := by
  unfold handleMessage
  refine .ite (.pure _) ?_
  cases httpRequest message with
  | some r =>
    refine .get_bind fun s => .bind (.raise _) fun text => ?_
    exact .bind (sendSocketData_spares _ _) fun _ => .modify fun _ => rfl
  | none =>
    refine .bind ?_ fun _ => .get_bind fun s => .when (.modify fun _ => rfl)
    refine .forM (fun line => ?_) _
    exact .bind (.when (processLine_spares hreadonly _)) fun _ => .modify fun _ => rfl

theorem onRecvSocketDataCompleted_spares (hreadonly : C.readonly = true) (data : Option (List Char)) :
    Spares St.node (onRecvSocketDataCompleted E C m data) := by
  match data with
  | none | some [] => exact .bind (.modify fun _ => rfl) fun _ => .modify fun _ => rfl
  | some (c :: rx) =>
    refine .of_exec fun s => ?_
    rw [onRecvSocketDataCompleted_exec (by simp)]
    exact (handleMessage_spares hreadonly (s.message ++ c :: rx)).exec (s.receiving (c :: rx))

theorem alive_spares : Spares St.node alive := .get_bind fun _ => .when (.throw _)

theorem step_spares (hreadonly : C.readonly = true) (e : Ev) : Spares St.node (step E C e) := by
  cases e with
  | received m data =>
    exact .get_bind fun s => .when (.bind alive_spares fun _ => onRecvSocketDataCompleted_spares hreadonly data)
  | sent i ec =>
    refine .get_bind fun s => ?_
    cases s.writes[i]? with
    | none => exact .pure _
    | some w => exact .bind alive_spares fun _ => .bind (.modify fun _ => rfl) fun _ => .when (.modify fun _ => rfl)

end session

/-- Whatever a read-only session receives, the farm, the pool manager and the log options stay as they were. -/
theorem readonly_keeps_node (E : Env) {C : Config} (hreadonly : C.readonly = true) (events : List Ev) (s : St) :
    ((run E C events).exec s).2.node = s.node :=
  (Spares.forM (step_spares hreadonly) events).exec s

/-! ## Requests without an authorization -/

/-- Without an authorization `p` returns `a` and rewrites the response, and does not look at the node. -/
def Answers {α : Type} (p : R α) (a : α) : Prop :=
  ∃ f : Json → Json, ∀ c, c.isAuthenticated = false → p.exec c = (.ok a, { c with jResponse := f c.jResponse })

section answers

variable {α β : Type} {jRequest : Json}

theorem Answers.pure (a : α) : Answers (Pure.pure a : R α) a := ⟨id, fun _ _ => rfl⟩

theorem Answers.bind {p : R α} {a : α} {f : α → R β} {b : β} (hp : Answers p a) (hf : Answers (f a) b) :
    Answers (p >>= f) b := by
  obtain ⟨g, hg⟩ := hp
  obtain ⟨k, hk⟩ := hf
  refine ⟨k ∘ g, fun c hc => ?_⟩
  rw [exec_bind_ok (hg c hc), hk { c with jResponse := g c.jResponse } hc]
  rfl

theorem error_answers (code : Int) (message : String) : Answers (error code message) () :=
  ⟨fun j => j.withError code message, fun _ _ => rfl⟩

theorem requestValue_answers {isType : Json → Bool} {as : Json → Except StdException α}
    (hok : ∀ v, isType v = true → (as v).isOk = true) (hj : jRequest.isOpen = true) (key : String) (ref : α) :
    Answers (requestValue E isType as key ref jRequest false) (readAt isType as jRequest key) := by
  rcases hread : readAt isType as jRequest key with _ | a
  · exact ⟨fun j => j.withError (-32602) (complaint isType key (jRequest.member key)), fun c _ => by
      rw [requestValue_exec hok hj, hread]
      rfl⟩
  · exact ⟨id, fun c _ => by rw [requestValue_exec hok hj, hread]; rfl⟩

theorem readMethod_answers (hj : jRequest.isOpen = true) : Answers (readMethod E jRequest) (methodOf jRequest) := by
  refine .bind (requestValue_answers asString_isOk hj _ _) ?_
  have hjsonrpc : readAt Json.isString Json.asString jRequest "jsonrpc" = stringAt jRequest "jsonrpc" := rfl
  rw [hjsonrpc, methodOf]
  rcases stringAt jRequest "jsonrpc" with _ | jsonrpc
  · exact .pure _
  · by_cases hversion : jsonrpc = "2.0"
    · simp only [hversion, ne_eq, not_true_eq_false, if_false, if_true]
      exact requestValue_answers asString_isOk hj _ _
    · simp only [ne_eq, hversion, not_false_eq_true, if_true, Option.some.injEq, if_false]
      exact .pure _

theorem authorize_answers (hj : jRequest.isOpen = true)
    (hfails : ((objectAt jRequest "params").bind (stringAt · "psw")).any
      (fun psw => passwordResult psw C.password = 0) = false) : Answers (authorize E C jRequest) () := by
  have hlocked : Answers (modify fun c => { c with isAuthenticated := false } : R PUnit) ⟨⟩ :=
    ⟨id, fun c hc => by rw [exec_modify, ← hc]; rfl⟩
  have hread : readAt Json.isObject (fun v => Except.ok v) jRequest "params" = objectAt jRequest "params" := rfl
  refine .bind hlocked (.bind (requestValue_answers (fun _ _ => rfl) hj _ _) ?_)
  rw [hread]
  rcases hp : objectAt jRequest "params" with _ | p
  · exact .pure _
  · have hpsw : readAt Json.isString Json.asString p "psw" = stringAt p "psw" := rfl
    refine .bind (requestValue_answers asString_isOk (isOpen_of_objectAt hp) _ _) ?_
    rw [hp, Option.bind_some] at hfails
    rw [hpsw]
    rcases hs : stringAt p "psw" with _ | psw
    · exact .pure _
    · rw [hs, Option.any_some, decide_eq_false_iff_not] at hfails
      simp only [hfails, if_false]
      exact error_answers _ _

theorem processRequest_answers (hj : jRequest.isOpen = true) (h : authorizes C jRequest = false) :
    Answers (processRequest E C m jRequest) () := by
  refine .bind (a := ()) ⟨fun j => j.set "jsonrpc" (.str "2.0"), fun _ _ => rfl⟩ ?_
  refine .bind (a := (idOf jRequest).isSome) ⟨idResponse jRequest, fun c _ => parseRequestId_exec hj⟩ ?_
  rcases hid : (idOf jRequest).isSome with _ | _
  · exact .pure _
  simp only [if_true]
  refine .bind (readMethod_answers hj) ?_
  rw [authorizes, hid] at h
  rcases hmethod : methodOf jRequest with _ | method
  · exact error_answers _ _
  by_cases hauth : method = "api_authorize"
  · have hbranch : Answers (authorize E C jRequest) () := authorize_answers hj (by simpa [hmethod, hauth] using h)
    obtain ⟨f, hf⟩ := hbranch
    refine ⟨f, fun c hc => ?_⟩
    simp only [exec_bind_ok (exec_get c), hauth, hc, Bool.not_false, Bool.true_or, if_true, ne_eq, not_true_eq_false,
      if_false]
    rw [hf c hc, hc]
  · refine ⟨fun j => j.withError (-403) "Authorization needed", fun c hc => ?_⟩
    simp only [exec_bind_ok (exec_get c), hauth, hc, Bool.not_false, Bool.true_or, if_true, ne_eq, not_false_eq_true]
    rw [← hc]
    rfl

/-- So the response to a request without an authorization is a function of the request. -/
theorem handleRequest_answers {jMsg : Json} (h : authorizes C jMsg = false) :
    ∃ jRes, ∀ s, s.isAuthenticated = false →
      (handleRequest E C m jMsg).exec s = (.ok jRes, { s with requests := s.requests ++ [jMsg] }) := by
  rcases hj : jMsg.isOpen with _ | _
  · refine ⟨failure "500" (E.what .logicError), fun s hs => ?_⟩
    rw [handleRequest, exec_bind_ok (exec_modify _ s), exec_tryCatch, exec_zoom, response, exec_bind,
      processRequest_throws hj]
    rfl
  · obtain ⟨f, hf⟩ := processRequest_answers (E := E) (m := m) hj h
    refine ⟨f .null, fun s hs => ?_⟩
    rw [handleRequest, exec_bind_ok (exec_modify _ s), exec_tryCatch, exec_zoom, response, exec_bind, hf _ hs]
    rfl

end answers

/-! ## Two nodes, one session -/

def authorizing (E : Env) (C : Config) (line : List Char) : Bool :=
  match E.parse (trim line) with
  | .ok (.ok jMsg) => authorizes C jMsg
  | _ => false

/-- What stands in `m_message` neither is a request for the statistics page nor has an authorization that passes. -/
def discreetMessage (E : Env) (C : Config) (message : List Char) : Bool :=
  decide (message.length < 4) || match httpRequest message with
    | some r => !isPage r
    | none => (Lines.lines '\n' message).all fun line => !authorizing E C line

def discreet (E : Env) (C : Config) (s : St) : Ev → Bool
  | .received _ (some rx) => discreetMessage E C (s.message ++ rx)
  | _ => true

def discreetRun (E : Env) (C : Config) : St → List Ev → Bool
  | _, [] => true
  | s, e :: events => discreet E C s e && discreetRun E C ((step E C e).exec s).2 events

/-- Two sessions that are not authorized and differ in their nodes only. -/
structure Blind (n n' : Node) (s s' : St) : Prop where
  node : s.node = n
  same : s' = { s with node := n' }
  locked : s.isAuthenticated = false

abbrev Blinds {α : Type} (n n' : Node) (p : M α) : Prop := Relates (Blind n n') p (fun _ => Blind n n') (Blind n n')

section blind

variable {n n' : Node}

theorem Blind.modify {f : St → St} (hnode : ∀ s, (f s).node = s.node)
    (hlocked : ∀ s, (f s).isAuthenticated = s.isAuthenticated)
    (hcomm : ∀ s, f { s with node := n' } = { f s with node := n' }) : Blinds n n' (modify f : M PUnit) :=
  .modify fun s s' h => ⟨(hnode s).trans h.node, by rw [h.same, hcomm], (hlocked s).trans h.locked⟩

theorem sendSocketData_blinds (text : List Char) (disconnects : Bool) :
    Blinds n n' (sendSocketData text disconnects) := by
  refine .get_bind (fun s s' h => by rw [h.same]) fun s => .when (fun _ => ?_) fun _ _ _ h => h
  refine .bind (U := fun _ => Blind n n') ?_ fun _ => ?_
  · exact Blind.modify (fun _ => rfl) (fun _ => rfl) fun _ => rfl
  · exact Blind.modify (fun _ => rfl) (fun _ => rfl) fun _ => rfl

theorem answer_blinds {line : List Char} (h : authorizing E C line = false) :
    Blinds n n' (answer E C m (trim line)) := by
  unfold authorizing at h
  unfold answer
  rcases hparse : E.parse (trim line) with x | r
  · exact .throw fun _ _ h => h
  · rw [hparse] at h
    rw [std_ok, raise_ok, pure_bind]
    cases r with
    | error what => exact .pure fun _ _ h => h
    | ok jMsg =>
      obtain ⟨jRes, hexec⟩ := handleRequest_answers (E := E) (m := m) h
      refine ⟨fun s s' hs => ?_⟩
      have hlocked' : s'.isAuthenticated = false := by rw [hs.same]; exact hs.locked
      simp only
      rw [hexec s hs.locked, hexec s' hlocked', hs.same]
      exact ⟨rfl, hs.node, rfl, hs.locked⟩

theorem takeLine_blinds {line : List Char} (h : authorizing E C line = false) : Blinds n n' (takeLine E C m line) := by
  refine .bind (U := fun _ => Blind n n') (.when (fun _ => ?_) fun _ _ _ h => h) fun _ => ?_
  · refine .bind (answer_blinds h) fun jRes => .get_bind (fun s s' h => by rw [h.same]) fun s => ?_
    exact .when (fun _ => sendSocketData_blinds _ _) fun _ _ _ h => h
  · exact Blind.modify (fun _ => rfl) (fun _ => rfl) fun _ => rfl

theorem handleMessage_blinds {message : List Char} (h : discreetMessage E C message = true) :
    Blinds n n' (handleMessage E C m message) := by
  unfold handleMessage
  refine .ite (fun _ => .pure fun _ _ h => h) fun hlong => ?_
  rw [discreetMessage, decide_eq_false hlong, Bool.false_or] at h
  rcases hhttp : httpRequest message with _ | r
  · rw [hhttp, List.all_eq_true] at h
    refine .bind (U := fun _ => Blind n n') (.forM fun line hline => ?_) fun _ => ?_
    · exact takeLine_blinds (by simpa using h line hline)
    · refine .get_bind (fun s s' h => by rw [h.same]) fun s => .when (fun _ => ?_) fun _ _ _ h => h
      exact Blind.modify (fun _ => rfl) (fun _ => rfl) fun _ => rfl
  · rw [hhttp, Bool.not_eq_true'] at h
    have htext (k : Node) : httpText E m r k = .ok (refusal E r) := by rw [httpText, h]; rfl
    refine .get_bind (fun s s' _ => by rw [htext, htext]) fun s => ?_
    rw [htext, raise_ok, pure_bind]
    refine .bind (sendSocketData_blinds _ _) fun _ => ?_
    exact Blind.modify (fun _ => rfl) (fun _ => rfl) fun _ => rfl

theorem Blind.receiving {s s' : St} (h : Blind n n' s s') (rx : List Char) :
    Blind n n' (s.receiving rx) (s'.receiving rx) := ⟨h.node, by rw [h.same]; rfl, h.locked⟩

def InStep (n n' : Node) (r r' : Except Stop Unit × St) : Prop := r'.1 = r.1 ∧ Blind n n' r.2 r'.2

theorem Blinds.inStep {p : M Unit} (h : Blinds n n' p) {s s' : St} (hs : Blind n n' s s') :
    InStep n n' (p.exec s) (p.exec s') := by
  obtain ⟨hsame, hpost⟩ := h.from_ s s' hs
  refine ⟨hsame, ?_⟩
  rcases hr : (p.exec s).1 with x | a <;> rw [hr] at hpost <;> exact hpost

theorem onRecvSocketDataCompleted_inStep {s s' : St} (hs : Blind n n' s s') (data : Option (List Char))
    (h : discreet E C s (.received m data) = true) :
    InStep n n' ((onRecvSocketDataCompleted E C m data).exec s) ((onRecvSocketDataCompleted E C m data).exec s') := by
  match data with
  | none | some [] =>
    refine Blinds.inStep (.bind (U := fun _ => Blind n n') ?_ fun _ => ?_) hs
    · exact Blind.modify (fun _ => rfl) (fun _ => rfl) fun _ => rfl
    · exact Blind.modify (fun _ => rfl) (fun _ => rfl) fun _ => rfl
  | some (c :: rx) =>
    have hmessage : s'.message = s.message := by rw [hs.same]
    rw [onRecvSocketDataCompleted_exec (by simp), onRecvSocketDataCompleted_exec (by simp), hmessage]
    exact (handleMessage_blinds h).inStep (hs.receiving (c :: rx))

theorem alive_exec (s : St) : alive.exec s = (if s.isOpen then .ok () else .error .undefined, s) := by
  rw [alive, exec_bind_ok (exec_get s)]
  cases s.isOpen <;> rfl

theorem step_inStep {s s' : St} (hs : Blind n n' s s') (e : Ev) (h : discreet E C s e = true) :
    InStep n n' ((step E C e).exec s) ((step E C e).exec s') := by
  have hopen : s'.isOpen = s.isOpen := by rw [hs.same]
  cases e with
  | received m data =>
    have hreading : s'.reading = s.reading := by rw [hs.same]
    rw [step, exec_bind_ok (exec_get s), exec_bind_ok (exec_get s'), hreading]
    by_cases hr : s.reading = true
    · simp only [hr, Prog.when, if_true]
      rw [exec_bind, exec_bind, alive_exec, alive_exec, hopen]
      by_cases hclosed : s.isOpen = true
      · rw [if_pos hclosed]
        exact onRecvSocketDataCompleted_inStep hs data h
      · rw [if_neg hclosed]
        exact ⟨rfl, hs⟩
    · simp only [hr, Prog.when]
      exact ⟨rfl, hs⟩
  | sent i ec =>
    refine Blinds.inStep (.get_bind (fun s s' h => by rw [h.same]) fun s => ?_) hs
    rcases s.writes[i]? with _ | ⟨size, disconnects⟩
    · exact .pure fun _ _ h => h
    · refine .bind (U := fun _ => Blind n n') (.get_bind (fun s s' h => by rw [h.same]) fun s => ?_) fun _ => ?_
      · exact .when (fun _ => .throw fun _ _ h => h) fun _ _ _ h => h
      · refine .bind (U := fun _ => Blind n n') ?_ fun _ => .when (fun _ => ?_) fun _ _ _ h => h
        · exact Blind.modify (fun _ => rfl) (fun _ => rfl) fun _ => rfl
        · exact Blind.modify (fun _ => rfl) (fun _ => rfl) fun _ => rfl

theorem run_inStep {s s' : St} (hs : Blind n n' s s') (events : List Ev) (h : discreetRun E C s events = true) :
    InStep n n' ((run E C events).exec s) ((run E C events).exec s') := by
  induction events generalizing s s' with
  | nil => exact ⟨rfl, hs⟩
  | cons e events ih =>
    rw [discreetRun, Bool.and_eq_true] at h
    obtain ⟨hsame, hstep⟩ := step_inStep hs e h.1
    rw [run, List.forM_cons, exec_bind, exec_bind]
    rcases hr : (step E C e).exec s with ⟨x | _, t⟩ <;> rcases hr' : (step E C e).exec s' with ⟨x' | _, t'⟩ <;>
      rw [hr, hr'] at hsame hstep <;> cases hsame
    · exact ⟨rfl, hstep⟩
    · rw [hr] at h
      exact ih hstep h.2

end blind

/-- With a password, as long as nobody asks for the statistics page and no password passes, what is sent does not
    depend on the node, and the node stays as it was. -/
theorem unauthorized_learns_nothing (E : Env) {C : Config} (hpassword : C.password ≠ "")
    (events : List Ev) (n n' : Node)
    (h : discreetRun E C (St.init C n) events = true) :
    ((run E C events).exec (St.init C n')).2.wire = ((run E C events).exec (St.init C n)).2.wire ∧
    ((run E C events).exec (St.init C n)).2.node = n ∧ ((run E C events).exec (St.init C n')).2.node = n' := by
  have hstart : Blind n n' (St.init C n) (St.init C n') := ⟨rfl, rfl, by simpa [St.init] using hpassword⟩
  obtain ⟨-, hend⟩ := run_inStep hstart events h
  exact ⟨by rw [hend.same], hend.node, by rw [hend.same]⟩

/-! ## The page -/

/-- Whoever asks for it is sent the text for that node, authorized or not. -/
theorem http_sent {s : St} {rx : List Char} {r : HttpRequest} {text : String} (hopen : s.isOpen = true)
    (hreading : s.reading = true) (hrx : rx ≠ []) (hlong : ¬ (s.message ++ rx).length < 4)
    (hhttp : httpRequest (s.message ++ rx) = some r) (htext : httpText E m r s.node = .ok text) :
    ((step E C (.received m (some rx))).exec s).2.wire = s.wire ++ (s.sendBuffer ++ text.toList) := by
  rw [step, exec_bind_ok (exec_get s)]
  simp only [hreading, Prog.when, if_true]
  rw [exec_bind, alive_exec, if_pos hopen]
  simp only
  rw [onRecvSocketDataCompleted_exec hrx, handleMessage, if_neg hlong, hhttp]
  simp only
  rw [handleHttp, exec_bind_ok (exec_get _)]
  simp only [St.receiving, htext, raise_ok, pure_bind]
  rw [sendSocketData, bind_assoc, exec_bind_ok (exec_get _)]
  simp only [hopen, Prog.when, if_true]
  rfl

theorem httpResponse_injective {ver status contentType body body' : String} (hlength : body.length = body'.length)
    (h : httpResponse E ver status contentType body = httpResponse E ver status contentType body') : body = body' := by
  simp only [httpResponse, hlength] at h
  simpa using h

theorem run_singleton (e : Ev) : run E C [e] = step E C e := by
  rw [run, List.forM_cons, List.forM_nil]
  exact bind_pure _

section samples

def hourMoment : Moment := { plainMoment with now := 3600 * second }

def plainPage (time : String) : String :=
  pageHead ++ "" ++ pageStyle ++ "coreminer" ++ " - " ++ time ++ "<br>Pool: " ++ "stratum+tcp://pool:8008" ++
    pageColumns ++ "" ++ ("</tbody>" ++
    "<tfoot><tr class=bg-header0><td colspan=4 class=right>Total</td><td class=right>" ++ ("" ++ " " ++ "h") ++
    "</td><td class=right>" ++ "0" ++ "</td><td colspan=3 class=right>" ++
    "" ++ "</td></tfoot>" ++ "</table></body></html>")

theorem plainPage_injective {t t' : String} (h : plainPage t = plainPage t') : t = t' := by
  simpa [plainPage] using h

theorem plainPage_length {t t' : String} (h : t.length = t'.length) : (plainPage t).length = (plainPage t').length := by
  simp only [plainPage, String.length_append, h]

theorem plainNode_detail (start : Nat) : getMinerStatDetail plainEnv hourMoment (plainNode start) = .ok (.obj [
    ("devices", .arr []),
    ("connection", .obj [("uri", .str "stratum+tcp://pool:8008"), ("connected", .bool true), ("switches", .int 0)]),
    ("host", .obj [("version", .str "coreminer"), ("runtime", .int ((3600 * second - start) / second : Nat)),
      ("name", .null)]),
    ("mining", .obj [("hashrate", .str (hashrateHex 0)), ("epoch", .int (-1)), ("epoch_changes", .int 0),
      ("difficulty", double plainEnv 0), ("shares", sharesJson hourMoment {})])]) := rfl

theorem plainPage_hour : getHttpMinerStatDetail plainEnv hourMoment (plainNode 0) =
    .ok (plainPage (runningTime 3600)) := by
  rw [getHttpMinerStatDetail, plainNode_detail]
  rfl

theorem plainPage_start : getHttpMinerStatDetail plainEnv hourMoment (plainNode (3600 * second)) =
    .ok (plainPage (runningTime 0)) := by
  rw [getHttpMinerStatDetail, plainNode_detail]
  rfl

def getPage : List Char := "GET / HTTP/1.1\r\n\r\n".toList

def visit (start : Nat) : Except Stop Unit × St :=
  (run plainEnv ⟨false, "secret"⟩ [.received hourMoment (some getPage)]).exec
    (St.init ⟨false, "secret"⟩ (plainNode start))

theorem visit_wire {start : Nat} {body : String}
    (h : getHttpMinerStatDetail plainEnv hourMoment (plainNode start) = .ok body) : (visit start).2.wire =
      (httpResponse plainEnv "HTTP/1.1" "200 Ok Error" "text/html; charset=utf-8" body).toList := by
  have hget : httpRequest getPage = some ⟨"GET", "/", "HTTP/1.1"⟩ := by decide +kernel
  have htext : httpText plainEnv hourMoment ⟨"GET", "/", "HTTP/1.1"⟩ (plainNode start) =
      .ok (httpResponse plainEnv "HTTP/1.1" "200 Ok Error" "text/html; charset=utf-8" body) := by
    rw [httpText, if_pos (by decide), page, h]
  rw [visit, run_singleton]
  have hsent := http_sent (C := ⟨false, "secret"⟩) (s := St.init ⟨false, "secret"⟩ (plainNode start)) rfl rfl
    (show getPage ≠ [] by decide) (show ¬ getPage.length < 4 by decide) hget htext
  simpa only [St.init, List.nil_append] using hsent

/-- The page tells how long the miner has been running. -/
theorem page_served_to_anyone : (visit 0).2.wire ≠ (visit (3600 * second)).2.wire := by
  rw [visit_wire plainPage_hour, visit_wire plainPage_start]
  intro h
  have hbody := httpResponse_injective (plainPage_length (by decide +kernel)) (String.toList_inj.mp h)
  exact absurd (plainPage_injective hbody) (by decide +kernel)

def echoEnv (jMsg : Json) : Env := { plainEnv with parse := fun _ => .ok (.ok jMsg), writeString := fun _ => ['-'] }

def twoRequests : List Ev := [.received plainMoment (some "\x7b\x7d \n\x7b\x7d \n".toList), .sent 0 false]

/-- A shuffle asked for in a read-only session. -/
theorem shuffle_refused :
    ((run (echoEnv (request "miner_shuffle" [])) ⟨true, ""⟩ twoRequests).exec
      (St.init ⟨true, ""⟩ (plainNode 0))).2.node =
      plainNode 0 :=
  readonly_keeps_node _ rfl twoRequests _

def asked (start : Nat) : Except Stop Unit × St :=
  (run (echoEnv (request "miner_getstatdetail" [])) ⟨false, "secret"⟩ twoRequests).exec
    (St.init ⟨false, "secret"⟩ (plainNode start))

theorem statistics_refused : (asked second).2.wire = (asked 0).2.wire ∧ (asked 0).2.node = plainNode 0 ∧
    (asked second).2.node = plainNode second := by
  have hdiscreet : discreetRun (echoEnv (request "miner_getstatdetail" [])) ⟨false, "secret"⟩
      (St.init ⟨false, "secret"⟩ (plainNode 0)) twoRequests = true := by decide +kernel
  have hlearns := unauthorized_learns_nothing (echoEnv (request "miner_getstatdetail" [])) (C := ⟨false, "secret"⟩)
    (by decide) twoRequests (plainNode 0) (plainNode second) hdiscreet
  unfold asked
  exact hlearns

end samples

end CoreMiner.Api
