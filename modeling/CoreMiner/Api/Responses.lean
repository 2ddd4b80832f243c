/-
  CoreMiner.Api.Responses — are the responses those of JSON-RPC 2.0? (`ApiServer.cpp`:
  `processRequest` and the functions it reads the request with; `docs/API.md`.)

  A response is to have a result or an error, an error a code and a message, and the request
  its id back. Every method body that starts on a response with neither ends on one with
  either (`Completes`); the bodies are walked through once, with one rule for each reader.

  `response_wellFormed_iff`: three kinds of requests get another response. An authorization
  that succeeds writes neither member (`authorizes`); a scrambler that is no 64-bit number
  gets an error without a code (`losesCode`); an id of more than 32 bits is not given back.
-/

import CoreMiner.Api.Requests

namespace CoreMiner.DevCore.Json

def unsigned : Json → Option Nat
  | int i => if 0 ≤ i then some i.toNat else none
  | real (some q) _ => if 0 ≤ q ∧ q.den = 1 then some q.num.toNat else none
  | _ => none

end CoreMiner.DevCore.Json

namespace CoreMiner.Api

open DevCore EthCore Lib Prog

/-! ## Well-formed responses -/

def IsError (e : Json) : Prop :=
  ∃ code message, e.member "code" = some (.int code) ∧ e.member "message" = some (.str message)

structure WellFormed (jRequest jResponse : Json) : Prop where
  one : (jResponse.member "result").isSome ≠ (jResponse.member "error").isSome
  error : ∀ e, jResponse.member "error" = some e → IsError e
  number : ∀ id n, jRequest.member "id" = some id → id.unsigned = some n → jResponse.member "id" = some (.int n)
  text : ∀ s, jRequest.member "id" = some (.str s) → jResponse.member "id" = some (.str s)

def idFits (jRequest : Json) : Bool := ((jRequest.member "id").bind Json.unsigned).all (· < 2 ^ 32)

def authorizes (C : Config) (jRequest : Json) : Bool :=
  (idOf jRequest).isSome && methodOf jRequest = some "api_authorize" &&
    ((objectAt jRequest "params").bind (stringAt · "psw")).any fun psw => passwordResult psw C.password = 0

/-- The scrambler is not written in hexadecimal, and no 64-bit number. -/
def badNonce (jRequestParams : Json) : Bool := (jRequestParams.member "noncescrambler").any fun v =>
  !v.empty && v.asString.toOption.any (fun text => text.toList.take 2 ≠ ['0', 'x']) && !v.asUInt64.isOk

/-- The error's code is written into the request. -/
def losesCode (C : Config) (isAuthenticated : Bool) (jRequest : Json) : Bool :=
  isAuthenticated && !C.readonly && (idOf jRequest).isSome && methodOf jRequest = some "miner_setscramblerinfo" &&
    (objectAt jRequest "params").any badNonce

/-! ## Building a response -/

structure Pending (j : Json) : Prop where
  isOpen : j.isOpen = true
  errorOf : j.errorOf.isOpen = true
  result : j.member "result" = none

structure Fresh (j : Json) : Prop extends Pending j where
  error : j.member "error" = none

structure Complete (id : Option Json) (j : Json) : Prop where
  one : (j.member "result").isSome ≠ (j.member "error").isSome
  error : ∀ e, j.member "error" = some e → IsError e
  id : j.member "id" = id

structure Ends (id : Option Json) (ok : Bool) (j : Json) : Prop where
  complete : Complete id j ↔ ok = true
  id : j.member "id" = id

theorem Complete.ends {id : Option Json} {j : Json} (h : Complete id j) : Ends id true j := ⟨iff_of_true h rfl, h.id⟩

section building

variable {j : Json} {key : String} {v : Json}

theorem Fresh.set (h : Fresh j) (hr : "result" ≠ key) (he : "error" ≠ key) : Fresh (j.set key v) where
  isOpen := Json.set_isOpen h.isOpen key v
  errorOf := by rw [Json.errorOf, Json.member_set h.isOpen, if_neg he]; exact h.errorOf
  result := by rw [Json.member_set h.isOpen, if_neg hr, h.result]
  error := by rw [Json.member_set h.isOpen, if_neg he, h.error]

theorem Fresh.complete (h : Fresh j) (v : Json) : Complete (j.member "id") (j.set "result" v) where
  one := by simp [Json.member_set h.isOpen, h.error]
  error e he := by simp [Json.member_set h.isOpen, h.error] at he
  id := by simp [Json.member_set h.isOpen]

theorem member_setError (h : j.isOpen = true) (key' : String) :
    (j.setError key v).member key' = if key' = "error" then some (j.errorOf.set key v) else j.member key' :=
  Json.member_set h "error" key' _

theorem errorOf_setError (h : j.isOpen = true) : (j.setError key v).errorOf = j.errorOf.set key v := by
  rw [Json.errorOf, member_setError h, if_pos rfl]
  rfl

theorem Pending.setError (h : Pending j) : Pending (j.setError key v) where
  isOpen := Json.set_isOpen h.isOpen _ _
  errorOf := by rw [errorOf_setError h.isOpen]; exact Json.set_isOpen h.errorOf _ _
  result := by rw [member_setError h.isOpen, if_neg (by decide), h.result]

theorem Pending.withError (h : Pending j) (code : Int) (message : String) : Pending (j.withError code message) :=
  h.setError.setError

theorem member_withError (h : Pending j) (code : Int) (message key' : String) :
    (j.withError code message).member key' =
      if key' = "error" then some ((j.errorOf.set "code" (.int code)).set "message" (.str message))
      else j.member key' := by
  have h' : (j.setError "code" (.int code)).isOpen = true := h.setError.isOpen
  rw [Json.withError, member_setError h', member_setError h.isOpen, errorOf_setError h.isOpen]
  split <;> rfl

/-- An error completes a response that has no result, whatever error it had. -/
theorem Pending.complete (h : Pending j) (code : Int) (message : String) :
    Complete (j.member "id") (j.withError code message) where
  one := by simp [member_withError h, h.result]
  error e he := by
    rw [member_withError h, if_pos rfl] at he
    cases he
    have h1 := Json.set_isOpen h.errorOf "code" (.int code)
    exact ⟨code, message, by simp [Json.member_set h1, Json.member_set h.errorOf], by simp [Json.member_set h1]⟩
  id := by simp [member_withError h]

/-- An error is overwritten by the next one. -/
theorem Pending.complete_again (h : Pending j) (code code' : Int) (message message' : String) :
    Complete (j.member "id") ((j.withError code message).withError code' message') := by
  have hagain := (h.withError code message).complete code' message'
  rwa [member_withError h, if_neg (by decide)] at hagain

/-- A message alone is no error. -/
theorem Fresh.codeless (h : Fresh j) (message : Json) : Ends (j.member "id") false (j.setError "message" message) := by
  refine ⟨iff_of_false (fun hc => ?_) nofun, by rw [member_setError h.isOpen, if_neg (by decide)]⟩
  have hnull : j.errorOf = .null := by rw [Json.errorOf, h.error]; rfl
  obtain ⟨code, _, hcode, -⟩ := hc.error _ (by rw [member_setError h.isOpen, if_pos rfl])
  rw [hnull] at hcode
  simp [Json.set, Json.member] at hcode

/-- Nor is a response complete to which nothing was added. -/
theorem Fresh.bare (h : Fresh j) : Ends (j.member "id") false j :=
  ⟨iff_of_false (fun hc => hc.one (by rw [h.result, h.error])) nofun, rfl⟩

end building

/-! ## The methods -/

/-- From a response with neither member the program ends on one with either. -/
def Completes (body : R Unit) : Prop := ∀ c, Fresh c.jResponse →
  wp body (fun _ t => Complete (c.jResponse.member "id") t.jResponse) (fun _ _ => True) c

variable {E : Env} {C : Config} {m : Moment} {jRequest : Json}

theorem error_completes (code : Int) (message : String) : Completes (error code message) :=
  fun _ h => h.toPending.complete code message

theorem put_completes (v : Json) : Completes (put "result" v) := fun _ h => h.complete v

theorem Completes.modifyNode_bind {f : Node → Node} {body : R Unit} (h : Completes body) :
    Completes (do modifyNode f; body) := fun c hc => h { c with node := f c.node } hc

theorem Completes.get_bind {body : Call → R Unit} (h : ∀ c, Completes (body c)) : Completes (do let c ← get; body c) :=
  fun c hc => h c c hc

theorem Completes.raise_bind {α : Type} {e : Except Stop α} {body : α → R Unit} (h : ∀ a, Completes (body a)) :
    Completes (do let a ← raise e; body a) := by
  intro c hc
  cases e with
  | error x => trivial
  | ok a => exact h a c hc

theorem Completes.put_result_bind {v : Json} {f : Node → Node} : Completes (do put "result" v; modifyNode f) :=
  fun _ h => h.complete v

theorem writing_completes {body : R Unit} (h : Completes body) : Completes (writing C body) := by
  intro c hc
  rw [wp_writing]
  split
  · exact hc.toPending.complete _ _
  · exact h c hc

theorem withParams_completes (hj : jRequest.isOpen = true) {body : Json → R Unit}
    (h : ∀ p, p.isOpen = true → Completes (body p)) : Completes (withParams E jRequest body) := by
  intro c hc
  rw [wp_withParams hj]
  cases hp : objectAt jRequest "params" with
  | none => exact hc.toPending.complete _ _
  | some p => exact h p (isOpen_of_objectAt hp) c hc

/-- A reader that returns `false` has completed the response. -/
theorem Read.completes {α : Type} {isType : Json → Bool} {key : String} {p : Json} {r : Option α}
    {f : Option α → R Unit} {c : Call} (hc : Fresh c.jResponse) (hnone : f none = pure ())
    (hsome : ∀ a, r = some a → Completes (f (some a))) :
    Read (fun a t => wp (f a) (fun _ t => Complete (c.jResponse.member "id") t.jResponse) (fun _ _ => True) t)
      isType key p c r := by
  cases r with
  | none =>
    simp only [Read, hnone, wp_pure]
    exact hc.toPending.complete _ _
  | some a => exact hsome a rfl c hc

theorem Completes.onPools_bind {α : Type} {p : Pools.P α} {body : Except String α → R Unit}
    (h : ∀ r, Completes (body r)) : Completes (do let r ← onPools p; body r) := fun c hc => h _ { c with node := _ } hc

theorem minerAddconnection_completes (hj : jRequest.isOpen = true) : Completes (minerAddconnection E C jRequest) := by
  refine writing_completes (withParams_completes hj fun p hp c hc => ?_)
  rw [wp_bind, wp_getRequestString hp]
  refine Read.completes hc rfl fun sUri _ => Completes.onPools_bind fun r => ?_
  cases r with
  | ok _ => exact put_completes _
  | error _ => exact error_completes _ _

theorem activate_completes (p : Pools.P Bool) : Completes (activate m p) := by
  refine Completes.onPools_bind fun r => ?_
  cases r with
  | error what => exact error_completes _ _
  | ok disconnects =>
    intro c hc
    rcases disconnects with _ | _
    · exact put_completes _ c hc
    · rcases hclient : c.node.client with _ | connected
      · simp [disconnectClient, hclient]
      · simp only [disconnectClient, hclient, wp_bind, wp_get, if_true, wp_modifyNode, wp_pure]
        -- The client throws, or it does not.
        split
        · exact error_completes _ _ { c with node := _ } hc
        · exact put_completes _ { c with node := _ } hc

theorem minerSetactiveconnection_completes (hj : jRequest.isOpen = true) :
    Completes (minerSetactiveconnection E C m jRequest) := by
  refine writing_completes (withParams_completes hj fun p hp c hc => ?_)
  rw [isMember_of_isOpen hp, std_ok, raise_ok, pure_bind]
  split
  · rw [wp_bind, wp_getRequestUInt hp]
    cases uintAt p "index" with
    | some index => exact activate_completes _ c hc
    | none => exact hc.toPending.complete_again _ _ _ _
  · rw [wp_bind, wp_getRequestString hp]
    cases stringAt p "URI" with
    | some uri => exact activate_completes _ c hc
    | none => exact hc.toPending.complete_again _ _ _ _

theorem minerRemoveconnection_completes (hj : jRequest.isOpen = true) :
    Completes (minerRemoveconnection E C jRequest) := by
  refine writing_completes (withParams_completes hj fun p hp c hc => ?_)
  rw [wp_bind, wp_getRequestUInt hp]
  refine Read.completes hc rfl fun index _ => Completes.onPools_bind fun r => ?_
  cases r with
  | ok _ => exact put_completes _
  | error _ => exact error_completes _ _

theorem minerPausegpu_completes (hj : jRequest.isOpen = true) : Completes (minerPausegpu E C jRequest) := by
  refine writing_completes (withParams_completes hj fun p hp c hc => ?_)
  rw [wp_bind, wp_getRequestUInt hp]
  refine Read.completes hc rfl fun index _ c hc => ?_
  rw [wp_bind, wp_getRequestBool hp]
  refine Read.completes hc rfl fun pause _ => Completes.get_bind fun s => ?_
  split
  · exact (put_completes _).modifyNode_bind
  · exact error_completes _ _

theorem minerSetverbosity_completes (hj : jRequest.isOpen = true) : Completes (minerSetverbosity E C jRequest) := by
  refine writing_completes (withParams_completes hj fun p hp c hc => ?_)
  rw [wp_bind, wp_getRequestUInt hp]
  refine Read.completes hc rfl fun verbosity _ => ?_
  show Completes (if logNext ≤ verbosity then _ else _)
  split
  · exact error_completes _ _
  · exact (put_completes _).modifyNode_bind

/-- The scrambler is read, or the response is complete but for the code of a bad one. -/
theorem readNonce_spec {p : Json} (hp : p.isOpen = true) (nonce : UInt64) {c : Call} (hc : Fresh c.jResponse) :
    wp (readNonce E p nonce) (fun r t => match r with
      | some _ => t = c ∧ badNonce p = false
      | none => Ends (c.jResponse.member "id") (!badNonce p) t.jResponse) (fun _ _ => True) c := by
  rw [readNonce, isMember_of_isOpen hp, at_of_isOpen hp, std_ok, raise_ok, pure_bind]
  unfold badNonce
  rcases hv : p.member "noncescrambler" with _ | v
  · exact ⟨rfl, rfl⟩
  rw [Option.isSome_some, if_pos rfl, Option.getD_some, Option.any_some]
  rcases htext : v.asString with x | text
  · rw [wp_bind]
    simp [htext, bind, Except.bind, Env.std, Except.mapError]
  have hread : (do (← (Except.ok v : Except StdException Json)).asString) = .ok text := htext
  rw [hread, std_ok, raise_ok, pure_bind]
  by_cases hhex : text.toList.take 2 = ['0', 'x']
  · rw [if_pos hhex]
    have hgood : (!v.empty && (Except.ok text : Except StdException String).toOption.any
        (fun text => text.toList.take 2 ≠ ['0', 'x']) && !v.asUInt64.isOk) = false := by
      simp [Except.toOption, hhex]
    rw [hgood]
    cases stoul text with
    | ok n => exact ⟨rfl, rfl⟩
    | error _ => exact (hc.toPending.complete _ _).ends
  · have hbad : (!v.empty && (Except.ok text : Except StdException String).toOption.any
        (fun text => text.toList.take 2 ≠ ['0', 'x']) && !v.asUInt64.isOk) = (!v.empty && !v.asUInt64.isOk) := by
      simp [Except.toOption, hhex]
    rw [hbad, if_neg hhex, getRequestUInt64, isMember_of_isOpen hp, at_of_isOpen hp, hv]
    simp only [std_ok, raise_ok, pure_bind, Option.isSome_some, Option.getD_some]
    rcases v.empty with _ | _
    · rcases v.asUInt64 with x | n
      · exact hc.codeless _
      · exact ⟨rfl, rfl⟩
    · exact (hc.toPending.complete _ _).ends

theorem minerSetscramblerinfo_spec (hj : jRequest.isOpen = true) {c : Call} (hc : Fresh c.jResponse) :
    wp (minerSetscramblerinfo E C jRequest)
      (fun _ t => Ends (c.jResponse.member "id")
        (!(!C.readonly && (objectAt jRequest "params").any badNonce)) t.jResponse)
      (fun _ _ => True) c := by
  rw [minerSetscramblerinfo, wp_writing]
  split
  case isTrue hreadonly =>
    rw [hreadonly]
    exact (hc.toPending.complete _ _).ends
  case isFalse hwrites =>
    rw [wp_withParams hj, Bool.eq_false_of_not_eq_true hwrites]
    rcases hp : objectAt jRequest "params" with _ | p
    · exact (hc.toPending.complete _ _).ends
    have hopen := isOpen_of_objectAt hp
    rw [Option.any_some, Bool.not_false, Bool.true_and]
    simp only
    rw [wp_bind, wp_get, wp_bind]
    refine wp_mono (readNonce_spec hopen _ hc) (fun r t hr => ?_) fun _ _ h => h
    cases r with
    | none => exact hr
    | some nonce =>
      obtain ⟨rfl, hgood⟩ := hr
      rw [hgood]
      -- What is left completes the response.
      have hend (exp : Nat) : Completes (
          if (!((p.member "noncescrambler").isSome || (p.member "segmentwidth").isSome)) = true
          then error (-32602) "Missing parameters"
          else do
            modifyFarm (·.setNonceScrambler nonce)
            modifyFarm (·.setNonceSegmentWidth (Farm.clampWidth exp))
            put "result" (.bool true)) := by
        split
        · exact error_completes _ _
        · exact (put_completes _).modifyNode_bind.modifyNode_bind
      refine wp_mono (?_ : wp _ (fun _ u => Complete (t.jResponse.member "id") u.jResponse) (fun _ _ => True) t)
        (fun _ u hu => hu.ends) fun _ _ h => h
      rw [wp_bind, readWidth, isMember_of_isOpen hopen, std_ok, raise_ok, pure_bind]
      split
      · rw [wp_getRequestUInt hopen]
        exact Read.completes hc rfl fun exp _ => hend exp
      · exact hend _ t hc

/-- The bodies of the other methods complete the response. -/
theorem runMethod_completes (hj : jRequest.isOpen = true) {x : Method} (hx : x ≠ .minerSetscramblerinfo) :
    Completes (runMethod E C m jRequest x) := by
  cases x with
  | minerGetstat1 | minerGetstatdetail =>
    exact Completes.get_bind fun _ => Completes.raise_bind fun _ => put_completes _
  | minerGetconnections | minerGetscramblerinfo => exact Completes.get_bind fun _ => put_completes _
  | minerPing => exact put_completes _
  | minerShuffle | minerRestart => exact writing_completes Completes.put_result_bind
  | minerReboot => exact writing_completes (put_completes _).modifyNode_bind
  | minerAddconnection => exact minerAddconnection_completes hj
  | minerSetactiveconnection => exact minerSetactiveconnection_completes hj
  | minerRemoveconnection => exact minerRemoveconnection_completes hj
  | minerPausegpu => exact minerPausegpu_completes hj
  | minerSetverbosity => exact minerSetverbosity_completes hj
  | minerSetscramblerinfo => exact absurd rfl hx

/-! ## The dispatcher -/

theorem dispatch_spec (hj : jRequest.isOpen = true) (method : String) {c : Call} (hc : Fresh c.jResponse) :
    wp (dispatch E C m jRequest method) (fun _ t => Ends (c.jResponse.member "id")
      (!(!C.readonly && method = "miner_setscramblerinfo" && (objectAt jRequest "params").any badNonce)) t.jResponse)
      (fun _ _ => True) c := by
  unfold dispatch
  by_cases hscrambler : method = "miner_setscramblerinfo"
  · have htext : Method.ofText method = some .minerSetscramblerinfo := by rw [hscrambler]; decide
    rw [htext]
    have hspec := minerSetscramblerinfo_spec (E := E) (C := C) hj hc
    simpa [hscrambler, runMethod] using hspec
  · have hok : (!(!C.readonly && method = "miner_setscramblerinfo" && (objectAt jRequest "params").any badNonce)) =
        true := by
      simp [hscrambler]
    rw [hok]
    cases hx : Method.ofText method with
    | none => exact (hc.toPending.complete _ _).ends
    | some x =>
      have hne : x ≠ .minerSetscramblerinfo := by
        intro h
        have htext := List.find?_some hx
        rw [decide_eq_true_eq] at htext
        rw [h] at htext
        exact hscrambler htext.symm
      exact wp_mono (runMethod_completes hj hne c hc) (fun _ _ h => h.ends) fun _ _ h => h

theorem authorize_spec (hj : jRequest.isOpen = true) {c : Call} (hc : Fresh c.jResponse) :
    wp (authorize E C jRequest) (fun _ t => Ends (c.jResponse.member "id")
      (!((objectAt jRequest "params").bind (stringAt · "psw")).any
        fun psw => passwordResult psw C.password = 0) t.jResponse)
      (fun _ _ => True) c := by
  rw [authorize, wp_bind, wp_modify, wp_bind, wp_getRequestObject hj]
  rcases hp : objectAt jRequest "params" with _ | p
  · exact (hc.toPending.complete _ _).ends
  · have hopen := isOpen_of_objectAt hp
    simp only [Read, Option.bind_some]
    rw [wp_bind, wp_getRequestString hopen]
    rcases stringAt p "psw" with _ | psw
    · exact (hc.toPending.complete _ _).ends
    · simp only [Read, Option.any_some, wp_ite]
      split
      case isTrue hpasses =>
        rw [decide_eq_true hpasses]
        exact hc.bare
      case isFalse hfails =>
        rw [decide_eq_false hfails]
        exact (hc.toPending.complete _ _).ends

theorem processMethod_spec (hj : jRequest.isOpen = true) (hid : (idOf jRequest).isSome = true) {c : Call}
    (hc : Fresh c.jResponse) :
    wp (processMethod E C m jRequest) (fun _ t => Ends (c.jResponse.member "id")
      (!authorizes C jRequest && !losesCode C c.isAuthenticated jRequest) t.jResponse) (fun _ _ => True) c := by
  rw [processMethod, wp_bind]
  simp only [authorizes, losesCode, hid]
  refine wp_readMethod hj (fun method hmethod => ?_) fun hmethod => ?_
  · rw [wp_bind, wp_get]
    simp only [hmethod, Option.some.injEq]
    by_cases hauth : method = "api_authorize"
    · rw [if_pos (by simp [hauth]), if_neg (by simp [hauth])]
      simpa [hauth] using authorize_spec (C := C) (E := E) hj hc
    · rcases hflag : c.isAuthenticated with _ | _
      · rw [if_pos (by simp), if_pos hauth]
        simpa [hauth] using (hc.toPending.complete (-403) "Authorization needed").ends
      · rw [if_neg (by simp [hauth])]
        simpa [hauth] using dispatch_spec (C := C) (E := E) (m := m) hj method hc
  · simp only [hmethod]
    exact ⟨by simpa using (hc.toPending.complete _ _).ends,
      fun _ _ _ => by simpa [Call.complained] using (hc.toPending.complete_again _ _ _ _).ends⟩

theorem processRequest_spec (hj : jRequest.isOpen = true) {c : Call} (hnew : c.jResponse = .null) :
    wp (processRequest E C m jRequest) (fun _ t => Ends (some ((idOf jRequest).getD .null))
      (!authorizes C jRequest && !losesCode C c.isAuthenticated jRequest) t.jResponse) (fun _ _ => True) c := by
  have hfresh : Fresh (Json.null.set "jsonrpc" (.str "2.0")) := ⟨⟨rfl, rfl, rfl⟩, rfl⟩
  have hstarted (id : Json) : Fresh ((Json.null.set "jsonrpc" (.str "2.0")).set "id" id) :=
    hfresh.set (by decide) (by decide)
  rw [processRequest, wp_bind, wp_put, hnew, wp_bind, wp_parseRequestId hj, idResponse]
  rcases hid : idOf jRequest with _ | id
  · simp only [authorizes, losesCode, hid, Option.isSome_none, Bool.and_false, Bool.false_and]
    exact ((hstarted .null).toPending.complete _ _).ends
  · exact processMethod_spec hj (by rw [hid]; rfl) (c := { c with jResponse := _ }) (hstarted id)

/-! ## The id -/

theorem isUInt_of_unsigned {id : Json} {n : Nat} (h : id.unsigned = some n) : id.isUInt = decide (n < 2 ^ 32) := by
  cases id with
  | int i =>
    obtain ⟨hi, hn⟩ := Option.ite_none_right_eq_some.mp h
    cases hn
    exact decide_eq_decide.mpr (by omega)
  | real value text =>
    cases value with
    | none => cases h
    | some q =>
      obtain ⟨⟨hq, hden⟩, hn⟩ := Option.ite_none_right_eq_some.mp h
      cases hn
      obtain ⟨k, rfl⟩ : ∃ k : ℤ, q = k := ⟨q.num, (Rat.coe_int_num_of_den_eq_one hden).symm⟩
      refine decide_eq_decide.mpr ?_
      have hbound : (k : ℚ) ≤ 2 ^ 32 - 1 ↔ k ≤ 2 ^ 32 - 1 := by exact_mod_cast Iff.rfl
      have hpos : (0 : ℚ) ≤ k ↔ 0 ≤ k := by exact_mod_cast Iff.rfl
      rw [hbound, Rat.num_intCast]
      rw [hpos] at hq ⊢
      constructor
      · omega
      · intro hlt
        exact ⟨hq, by omega, hden⟩
  | null | bool | str | arr | obj => cases h

theorem asUInt_of_unsigned {id : Json} {n : Nat} (h : id.unsigned = some n) (hlt : n < 2 ^ 32) : id.asUInt = .ok n := by
  have huint : id.isUInt = true := by rw [isUInt_of_unsigned h, decide_eq_true hlt]
  cases id with
  | int i =>
    obtain ⟨hi, hn⟩ := Option.ite_none_right_eq_some.mp h
    cases hn
    exact if_pos (of_decide_eq_true huint)
  | real value text =>
    cases value with
    | none => cases h
    | some q =>
      obtain ⟨⟨hq, hden⟩, hn⟩ := Option.ite_none_right_eq_some.mp h
      cases hn
      have hrange : 0 ≤ q ∧ q ≤ 2 ^ 32 - 1 ∧ q.den = 1 := of_decide_eq_true huint
      rw [Json.asUInt, if_pos ⟨hrange.1, hrange.2.1⟩, Rat.floor_def, hden]
      simp
  | null | bool | str | arr | obj => cases h

/-- An unsigned number is given back if it has 32 bits, and is no id otherwise. -/
theorem idOf_of_unsigned {id : Json} {n : Nat} (hmem : jRequest.member "id" = some id) (h : id.unsigned = some n) :
    idOf jRequest = if n < 2 ^ 32 then some (.int n) else none := by
  have hscalar : id.empty = false ∧ id.isString = false := by
    cases id <;> first | exact ⟨rfl, rfl⟩ | cases h
  simp only [idOf, uintAt, stringAt, readAt, hmem, Option.bind_some, isUInt_of_unsigned h, hscalar]
  by_cases hlt : n < 2 ^ 32
  · rw [decide_eq_true hlt, asUInt_of_unsigned h hlt, if_pos hlt]
    rfl
  · rw [decide_eq_false hlt, if_neg hlt]
    rfl

theorem idOf_of_str {s : String} (hmem : jRequest.member "id" = some (.str s)) : idOf jRequest = some (.str s) := by
  simp [idOf, uintAt, stringAt, readAt, hmem, Json.isUInt, Json.isString, Json.empty, Json.asString, Except.toOption]

/-- A response that ends so is well-formed if it is complete and the id fits. -/
theorem Ends.wellFormed_iff {ok : Bool} {j : Json} (h : Ends (some ((idOf jRequest).getD .null)) ok j) :
    WellFormed jRequest j ↔ idFits jRequest = true ∧ ok = true := by
  rw [← h.complete]
  constructor
  · intro hw
    refine ⟨?_, hw.one, hw.error, h.id⟩
    rw [idFits, Option.all_eq_true]
    intro n hn
    obtain ⟨id, hmem, hid⟩ := Option.bind_eq_some_iff.mp hn
    by_contra hlt
    -- A longer number is answered with a null id.
    have hback := hw.number id n hmem hid
    rw [h.id, idOf_of_unsigned hmem hid, if_neg (by simpa using hlt)] at hback
    cases hback
  · rintro ⟨hfits, hc⟩
    refine ⟨hc.one, hc.error, fun id n hmem hn => ?_, fun s hmem => ?_⟩
    · have hlt : n < 2 ^ 32 := by
        rw [idFits, hmem, Option.bind_some, hn] at hfits
        simpa using hfits
      rw [h.id, idOf_of_unsigned hmem hn, if_pos hlt]
      rfl
    · rw [h.id, idOf_of_str hmem]
      rfl

/-! ## Which responses are well-formed -/

/-- A request that is processed gets a well-formed response unless its id is too long a number, it is an
    authorization that succeeds, or its scrambler's error loses its code. -/
theorem response_wellFormed_iff (E : Env) (C : Config) (m : Moment) (jRequest : Json) {c t : Call}
    (hnew : c.jResponse = .null) (hreturns : (processRequest E C m jRequest).exec c = (.ok (), t)) :
    WellFormed jRequest t.jResponse ↔ idFits jRequest = true ∧ authorizes C jRequest = false ∧
      losesCode C c.isAuthenticated jRequest = false := by
  rcases hj : jRequest.isOpen with _ | _
  · rw [processRequest_throws hj] at hreturns
    cases hreturns
  · have hends := (wp_iff_exec.mp (processRequest_spec (E := E) (C := C) (m := m) hj hnew)).1 _ _ hreturns
    rw [hends.wellFormed_iff, Bool.and_eq_true, Bool.not_eq_true', Bool.not_eq_true']

section samples

def plainEnv : Env where
  parse _ := .error .runtimeError
  writeString _ := []
  what _ := ""
  fixed _ _ := ""
  valueToString _ := ""
  projectNameWithVersion := "coreminer"
  hostName := none
  settings := { connectionMaxRetries := 3, delayBeforeRetry := 0, poolFailoverTimeout := 0, noEval := false,
                str := fun _ => "stratum+tcp://pool:8008", findEpochNumber := fun _ => 0, eval := fun _ _ => none }
  uris _ := { version := 0, secLevel := .none, hostNameType := .dns, host := "pool", port := 8008 }
  fromString _ := none
  object _ := 0

def plainMoment : Moment := { now := 0, random := 0, spawns := false, disconnectThrows := none }

def plainNode (start : Nat) : Node where
  pools := { connections := [0], farm := { devices := [], ergodicity := 0, nonceScrambler := 0 } }
  client := some true
  telemetry := { start }
  descriptor _ := { uniqueId := "", totalMemory := 0 }
  logOptions := 0

def request (method : String) (params : List (String × Json)) : Json := .obj [("id", .int 1), ("jsonrpc", .str "2.0"),
  ("method", .str method), ("params", .obj params)]

def login : Json := request "api_authorize" [("psw", .str "secret")]

def loginCall : Except Stop Unit × Call :=
  (processRequest plainEnv ⟨false, "secret"⟩ plainMoment login).exec { node := plainNode 0, isAuthenticated := false }

/-- It is answered with neither a result nor an error. -/
theorem authorization_unanswered : loginCall.1.isOk = true ∧ ¬ WellFormed login loginCall.2.jResponse :=
  ⟨by decide +kernel, fun h => h.one (by decide +kernel)⟩

/-- A ping gets a well-formed response. -/
theorem pong_wellFormed : WellFormed (request "miner_ping" [])
    ((processRequest plainEnv ⟨false, ""⟩ plainMoment (request "miner_ping" [])).exec
      { node := plainNode 0, isAuthenticated := true }).2.jResponse :=
  (response_wellFormed_iff plainEnv ⟨false, ""⟩ plainMoment (request "miner_ping" [])
    (c := { node := plainNode 0, isAuthenticated := true }) rfl (by rfl)).mpr
    ⟨by decide +kernel, by decide +kernel, by decide +kernel⟩

end samples

end CoreMiner.Api
