/-
  CoreMiner.Stratum.Intake — what the events of a run do to the intake of the client: the
  unfinished line in `m_message`, the job at hand and the boundary announced for the next one
  (`XcbStratumClient.cpp`, all handlers).

  Only messages change the job and the boundary, and only what is received adds to the buffer.
  Connecting clears the buffer, a new client starts with an empty one; every other event spares
  the intake, but for the end of a session (`Fired.intake`).
-/

import CoreMiner.Stratum.Lenient
import CoreMiner.Stratum.Reports

namespace CoreMiner.Stratum

open DevCore EthCore Lib Prog

variable {E : Env} {s t : St} {a : Nat}

/-- The intake stays, a session may end, and no work is reported. -/
structure Spares (s t : St) : Prop where
  message : t.message = s.message
  newjobprocessed : t.newjobprocessed = s.newjobprocessed
  current : t.current = s.current
  session : ∀ y, t.session = some y → ∃ x, s.session = some x ∧ y.nextWorkBoundary = x.nextWorkBoundary
  log : ∀ w, Out.onWorkReceived w ∈ t.log → Out.onWorkReceived w ∈ s.log

namespace Spares

theorem of_intake (h : t.intake = s.intake) (hlog : ∀ w, Out.onWorkReceived w ∈ t.log → Out.onWorkReceived w ∈ s.log) :
    Spares s t := by
  simp only [St.intake, Prod.mk.injEq] at h
  obtain ⟨hmessage, hnew, hcurrent, hsession⟩ := h
  refine ⟨hmessage, hnew, hcurrent, fun y hy => ?_, hlog⟩
  rw [hy, Option.map_some] at hsession
  obtain ⟨x, hx, hboundary⟩ := Option.map_eq_some_iff.mp hsession.symm
  exact ⟨x, hx, hboundary.symm⟩

theorem of_same (h : t.intake = s.intake) (hlog : t.log = s.log) : Spares s t := of_intake h fun w hw => by rwa [← hlog]

theorem of_ended (hmessage : t.message = s.message) (hnew : t.newjobprocessed = s.newjobprocessed)
    (hcurrent : t.current = s.current) (hsession : t.session = none)
    (hlog : ∀ w, Out.onWorkReceived w ∈ t.log → Out.onWorkReceived w ∈ s.log) : Spares s t :=
  ⟨hmessage, hnew, hcurrent, fun y hy => (Option.some_ne_none y (hy.symm.trans hsession)).elim, hlog⟩

theorem refl (s : St) : Spares s s := of_same rfl rfl

theorem trans (s t u : St) (h : Spares s t) (h' : Spares t u) : Spares s u where
  message := h'.message.trans h.message
  newjobprocessed := h'.newjobprocessed.trans h.newjobprocessed
  current := h'.current.trans h.current
  session z hz := by
    obtain ⟨y, hy, hzy⟩ := h'.session z hz
    obtain ⟨x, hx, hyx⟩ := h.session y hy
    exact ⟨x, hx, hzy.trans hyx⟩
  log w hw := h.log w (h'.log w hw)

theorem own (h : Own s t) (hintake : t.intake = s.intake) : Spares s t := of_same hintake h.log

theorem sent (h : Sent s t) : Spares s t := own h.own h.intake

theorem reported (s : St) : Spares s s.reported := of_intake rfl fun w hw => by simpa [St.reported] using hw

theorem released (s : St) (a : Nat) : Spares s (s.released a) :=
  of_ended rfl rfl rfl rfl fun w hw => by
    simpa [St.released, St.finalizing, St.sessionReleased, St.updateUri, St.closed, St.aborted] using hw

theorem finalized (s : St) (a : Nat) : Spares s (s.finalized a) := by
  have hreleased := released s a
  unfold St.finalized
  split
  · split
    · exact hreleased.trans _ _ _ (of_intake rfl fun w hw => by simpa [St.lowered, St.updateUri] using hw)
    · have hmarked : Spares (s.released a) ((s.released a).updateUri a Uri.markUnrecoverable) := of_same rfl rfl
      exact hreleased.trans _ _ _ (hmarked.trans _ _ _ (reported _))
  · exact hreleased.trans _ _ _ (reported _)

theorem reserved : Reserved Spares where
  refl := refl
  trans := trans
  own _ _ h hintake := own h hintake
  marked _ _ := of_same rfl rfl
  finalized s a _ := finalized s a
  lost s _ := of_intake rfl fun w hw => by simpa [St.lost, St.finalizing, St.closed, St.aborted] using hw

end Spares

/-! ## The handlers -/

theorem workloopTimerElapsed_spares (aborted : Bool) : Kept Spares (workloopTimerElapsed E aborted) :=
  Spares.reserved.tick Spares.reserved.own (fun _ => .of_same rfl rfl) aborted

def St.cleared (s : St) : St := { s with message := [] }

def St.renewed (s : St) : St :=
  { s with message := [], newjobprocessed := false, current := {}, session := none }

/-- The intake is spared, or first reset by `f`. -/
def Resets (f : St → St) (s t : St) : Prop := Spares s t ∨ Spares (f s) t

theorem Resets.within {f : St → St} {s' t' : St} (h : Resets f s' t) (hs : Spares s s') (hf : Spares (f s) (f s'))
    (ht : Spares t t') : Resets f s t' := by
  rcases h with h | h
  · exact .inl (hs.trans _ _ _ (h.trans _ _ _ ht))
  · exact .inr (hf.trans _ _ _ (h.trans _ _ _ ht))

abbrev Connects : St → St → Prop := Resets St.cleared

theorem connectEstablished_connects (handshakeFails : Bool) (s : St) :
    wp (connectEstablished E handshakeFails) (fun _ t => Connects s t) (fun _ t => Connects s t) s := by
  rw [wp_connectEstablished]
  split
  · exact .inl (.refl s)
  · rename_i a hc
    split
    · exact .inr (.of_same rfl rfl)
    · have hsent : ∀ t, Sent ((s.established a).greeting a) t → Connects s t := fun t ht =>
        .inr (Spares.trans _ ((s.established a).greeting a) _ (.of_same rfl rfl) (.sent ht))
      rw [wp_login (s := s.established a) hc]
      split
      · exact wp_mono ((send_sent _).from_ _) (fun _ t ht => hsent t ht) fun _ t ht => hsent t ht.1
      · exact .inr (.of_same rfl rfl)

theorem connectHandler_connects (ec handshakeFails : Bool) (s : St) :
    wp (connectHandler E ec handshakeFails) (fun _ t => Connects s t) (fun _ t => Connects s t) s := by
  have hafter : Spares s { s with connecting := false } := .of_same rfl rfl
  have hstart {t : St} (h : Connects { s with connecting := false } t) : Connects s t :=
    h.within hafter (.of_same rfl rfl) (.refl t)
  rw [connectHandler, wp_bind, wp_modify, wp_bind, wp_get, wp_bind, wp_when]
  split
  · exact .inl hafter
  · rw [wp_ite]
    split
    · exact wp_mono ((connectFailed_kept Spares.reserved).from_ _) (fun _ t ht => hstart (.inl ht))
        fun _ t ht => hstart (.inl ht.1)
    · exact wp_mono (connectEstablished_connects _ _) (fun _ t ht => hstart ht) fun _ t ht => hstart ht

abbrev Rotates : St → St → Prop := Resets St.renewed

theorem rotateConnect_rotates (choice : Option (Nat × Bool)) (s : St) :
    wp (rotateConnect choice) (fun _ t => Rotates s t) (fun _ t => Rotates s t) s := by
  rw [wp_rotateConnect]
  split
  · exact .inl (.refl s)
  · split
    · exact .inl (.refl s)
    · rename_i a delayed
      have hrebound : Spares s.renewed (s.rebound a) :=
        .of_intake rfl fun w hw => by simpa [St.rebound, St.updateUri, St.newClient, St.renewed] using hw
      split
      · exact .inr (hrebound.trans _ _ _ (.of_same rfl rfl))
      · exact wp_mono ((connect_kept Spares.reserved).from_ _) (fun _ t ht => .inr (hrebound.trans _ _ _ ht))
          fun _ t ht => .inr (hrebound.trans _ _ _ ht.1)

/-! ## The events -/

def Runs (s : St) (k : Handler) (queue : List Handler) (e : Ev) : Prop :=
  s.queue = k :: queue ∧ ∃ choice, e = .run choice

inductive Takes (E : Env) (s : St) (e : Ev) (t : St) : Prop
  | spares (h : Spares s t)
  | connects {ec handshakeFails : Bool} {queue : List Handler} (hk : Runs s (.connectHandler ec handshakeFails) queue e)
    (h : Spares s.cleared t)
  | renews {queue : List Handler} (hk : Runs s .rotateConnect queue e) (h : Spares s.renewed t)
  | receives {rx : List Char} {queue : List Handler} (hk : Runs s (.onRecvSocketDataCompleted (some rx)) queue e)
    (h : t = call (onRecvSocketDataCompleted E (some rx)) { s with queue })
  | answers {response : Json} {queue : List Handler} (hk : Runs s (.processResponse response) queue e)
    (h : t = call (processResponse E response) { s with queue })

theorem call_spares {m : M Unit} (hm : Kept Spares m) (s : St) : Spares s (call m s) :=
  call_of_wp (wp_mono (hm.from_ s) (fun _ _ h => h) fun _ _ h => h.1.trans _ _ _ (.of_same rfl rfl))

/-- A handler that may reset the intake, run from the queue. -/
theorem call_resets {f : St → St} {m : M Unit} {queue : List Handler}
    (hm : ∀ s, wp m (fun _ t => Resets f s t) (fun _ t => Resets f s t) s) (hf : Spares (f s) (f { s with queue })) :
    Resets f s (call m { s with queue }) := by
  have hpopped : Spares s { s with queue } := .of_same rfl rfl
  refine call_of_wp (wp_mono (hm _) (fun _ t ht => ?_) fun _ t ht => ?_)
  · exact ht.within hpopped hf (.refl t)
  · exact ht.within hpopped hf (.of_same rfl rfl)

theorem Fired.intake {e : Ev} (h : Fired E s e t) : Takes E s e t := by
  have hr := Spares.reserved
  cases h with
  | @run choice k queue hq =>
    have hpopped : Spares s { s with queue } := .of_same rfl rfl
    have hkept {m : M Unit} (hm : Kept Spares m) : Takes E s (.run choice) (call m { s with queue }) :=
      .spares (hpopped.trans _ _ _ (call_spares hm _))
    cases k with
    | startConnect => exact hkept (startConnect_kept hr)
    | disconnect => exact hkept (disconnect_kept hr)
    | disconnectFinalize => exact hkept (disconnectFinalize_kept hr)
    | resolveHandler endpoints => exact hkept (resolveHandler_kept hr endpoints)
    | connectHandler ec handshakeFails =>
      have hconnects : Connects s (call (connectHandler E ec handshakeFails) { s with queue }) :=
        call_resets (connectHandler_connects ec handshakeFails) (.of_same rfl rfl)
      rcases hconnects with h | h
      · exact .spares h
      · exact .connects ⟨hq, choice, rfl⟩ h
    | workloopTimerElapsed aborted => exact hkept (workloopTimerElapsed_spares aborted)
    | onRecvSocketDataCompleted data =>
      cases data with
      | none => exact hkept (readFailed_kept (E := E) hr)
      | some rx => exact .receives ⟨hq, choice, rfl⟩ rfl
    | onSendSocketDataCompleted ec => exact hkept (onSendSocketDataCompleted_kept hr ec)
    | onSSLShutdownCompleted => exact hkept (onSSLShutdownCompleted_kept hr)
    | processResponse response => exact .answers ⟨hq, choice, rfl⟩ rfl
    | rotateConnect =>
      have hrotates : Rotates s (call (rotateConnect choice) { s with queue }) :=
        call_resets (rotateConnect_rotates choice) (.of_same rfl rfl)
      rcases hrotates with h | h
      · exact .spares h
      · exact .renews ⟨hq, choice, rfl⟩ h
    | reconnectTimerElapsed => exact hkept (reconnectTimerElapsed_kept hr)
  | written _ => exact .spares (.of_intake rfl fun w hw => by simpa [St.push] using hw)
  | callDisconnect _ => exact .spares (call_spares (disconnect_kept hr) s)
  | stopConnected _ _ =>
    exact .spares (Spares.trans _ { s with stopping := true } _ (.of_same rfl rfl) (call_spares (disconnect_kept hr) _))
  | submitSolution _ =>
    exact .spares (call_spares (submitSolution_kept hr _ fun _ => .of_same rfl rfl) s)
  | submitHashrate _ => exact .spares (call_spares (submitHashrate_kept hr _ _) s)
  | _ => exact .spares (.of_same rfl rfl)

/-! ## The packages reported -/

/-- While the program runs, its callback has returned from every package; the newest report may be the
    one it throws on. -/
structure Reports (s : St) : Prop where
  before : ∀ w, Out.onWorkReceived w ∈ s.log.tail → w.HasBoundary
  running : s.crashed = none → ∀ w, Out.onWorkReceived w ∈ s.log → w.HasBoundary

def AllBounded (s : St) : Prop := ∀ w, Out.onWorkReceived w ∈ s.log → w.HasBoundary

theorem AllBounded.reports (h : AllBounded s) : Reports s := ⟨fun w hw => h w (List.mem_of_mem_tail hw), fun _ => h⟩

theorem Spares.reports (h : Spares s t) (hs : AllBounded s) : Reports t :=
  AllBounded.reports fun w hw => hs w (h.log w hw)

theorem Processed.allBounded (h : Processed s t) (hs : AllBounded s) : AllBounded t := by
  obtain ⟨new, hlog, hreply⟩ := h.log
  intro w hw
  rw [hlog] at hw
  rcases List.mem_append.mp hw with hw | hw
  · exact absurd (hreply _ hw) (by simp [Out.isReply])
  · exact hs w hw

theorem onRecvSocketDataCompleted_reports (hs : AllBounded s) (rx : List Char) :
    wp (onRecvSocketDataCompleted E (some rx)) (fun _ t => AllBounded t)
      (fun _ t => ∀ w, Out.onWorkReceived w ∈ t.log.tail → w.HasBoundary) s := by
  have hconsumed {t : St} (h : Consumed (s.receiving rx) t) : AllBounded t :=
    Processed.allBounded (t := { t with message := (s.receiving rx).message }) h hs
  rw [onRecvSocketDataCompleted_eq, wp_bind, wp_processTransmission]
  refine wp_mono ((consume_keeps _).from_ _) (fun _ t ht => ?_) fun _ t ht w hw =>
    hconsumed ht.1 w (List.mem_of_mem_tail hw)
  refine wp_mono (afterLines_dispatches t) ?_ ?_
  · rintro _ u ⟨hr, n, rfl⟩ w hw
    rcases List.mem_append.mp hw with hw | hw
    · rw [St.work] at hw
      split at hw
      · cases List.mem_singleton.mp hw
        exact hr ‹_›
      · cases hw
    · exact hconsumed ht w hw
  · rintro _ u ⟨n, rfl⟩ w hw
    refine hconsumed ht w ?_
    dsimp only [St.work] at hw
    split at hw
    · exact hw
    · exact List.mem_of_mem_tail hw

theorem Fired.reports {e : Ev} (h : Fired E s e t) (hs : AllBounded s) : Reports t := by
  cases h.intake with
  | spares h => exact h.reports hs
  | connects _ h => exact h.reports (s := s.cleared) hs
  | renews _ h => exact h.reports (s := s.renewed) hs
  | @receives rx queue _ h =>
    subst h
    refine call_of_wp (wp_mono (onRecvSocketDataCompleted_reports (s := { s with queue }) hs rx)
      (fun _ _ h => AllBounded.reports h) fun _ _ h => ⟨h, fun hnone => by cases hnone⟩)
  | @answers response queue _ h =>
    subst h
    have hprocessed {t : St} (h : Processed { s with queue } t) : AllBounded t := h.allBounded hs
    exact call_of_wp (wp_mono ((processResponse_tame response).from_ _) (fun _ _ h => (hprocessed h).reports)
      fun _ _ h => AllBounded.reports fun w hw => hprocessed h.1 w hw)

end CoreMiner.Stratum
