/-
  CoreMiner.Stratum.Verdicts — the miners that a pool's verdicts can name
  (`XcbStratumClient.cpp`: `processResponse`, `submitSolution`).

  The index of a verdict is taken from the id of a response, which is the pool's to choose.
  The only bound on it is `m_solution_submitted_max_id`: the highest id a solution was
  submitted with, since it was last reset. It grows to the id of a submission and by nothing
  else, and no verdict is above it (`Fired.credits`), whatever the events.
-/

import CoreMiner.Stratum.Reports

namespace CoreMiner.Stratum

open DevCore EthCore Lib Prog

variable {E : Env} {s t : St} {a n : Nat}

/-- No id above `n` is added, and the verdicts are on submitted ones. -/
structure Credits (n : Nat) (s t : St) : Prop where
  ids : t.solutionSubmittedMaxId ≤ max s.solutionSubmittedMaxId n
  log : ∃ new, t.log = new ++ s.log ∧ ∀ o ∈ new, ∀ i, o.verdictOn = some i → i + 40 ≤ max s.solutionSubmittedMaxId n

namespace Credits

theorem of_log (hids : t.solutionSubmittedMaxId ≤ max s.solutionSubmittedMaxId n) (new : List Out)
    (hlog : t.log = new ++ s.log)
    (hnew : ∀ o ∈ new, o.verdictOn = none) : Credits n s t :=
  ⟨hids, new, hlog, fun o ho i hi => by simp [hnew o ho] at hi⟩

theorem of_same (hids : t.solutionSubmittedMaxId = s.solutionSubmittedMaxId) (hlog : t.log = s.log) : Credits n s t :=
  of_log (hids.trans_le (Nat.le_max_left ..)) [] hlog (by simp)

theorem refl (s : St) : Credits n s s := of_same rfl rfl

theorem trans (s t u : St) (h : Credits n s t) (h' : Credits n t u) : Credits n s u where
  ids := h'.ids.trans (Nat.max_le.mpr ⟨h.ids, Nat.le_max_right ..⟩)
  log := by
    obtain ⟨x, hx, hxi⟩ := h.log
    obtain ⟨y, hy, hyi⟩ := h'.log
    refine ⟨y ++ x, by rw [hy, hx, List.append_assoc], fun o ho i hi => ?_⟩
    rcases List.mem_append.mp ho with ho | ho
    · exact (hyi o ho i hi).trans (Nat.max_le.mpr ⟨h.ids, Nat.le_max_right ..⟩)
    · exact hxi o ho i hi

theorem own (h : Own s t) : Credits n s t := of_log (h.ids.trans (Nat.le_max_left ..)) [] h.log (by simp)

theorem reported (s : St) : Credits n s s.reported :=
  of_log (Nat.zero_le _) [.onDisconnected] rfl (by simp [Out.verdictOn])

theorem released (s : St) (a : Nat) : Credits n s (s.released a) :=
  of_log (Nat.le_max_left ..) [.finalizing s.conn] rfl (by simp [Out.verdictOn])

theorem finalized (s : St) (a : Nat) : Credits n s (s.finalized a) := by
  have hreleased : Credits n s (s.released a) := released s a
  unfold St.finalized
  split
  · split
    · exact hreleased.trans _ _ _ (of_log (Nat.le_max_left ..) [.reposted (some a)] rfl (by simp [Out.verdictOn]))
    · have hmarked : Credits n (s.released a) ((s.released a).updateUri a Uri.markUnrecoverable) := of_same rfl rfl
      exact hreleased.trans _ _ _ (hmarked.trans _ _ _ (reported _))
  · exact hreleased.trans _ _ _ (reported _)

theorem lenient : Lenient (Credits n) where
  refl := refl
  trans := trans
  own _ _ h := own h
  marked _ _ := of_same rfl rfl
  finalized s a _ := finalized s a
  lost s _ := of_log (Nat.le_max_left ..) [.finalizing s.conn] rfl (by simp [Out.verdictOn])

theorem receptive : Receptive E (fun _ => true) (Credits n) where
  refl := refl
  trans := trans
  caught _ _ := rfl
  inner s t h := by
    obtain ⟨_, _, _, _, _, _, _, -, rfl⟩ := h
    exact of_same rfl rfl
  sends jReq := ⟨fun s => wp_mono ((send_sent jReq).from_ s) (fun _ t ht => own ht.own) fun _ t ht _ => own ht.1.own⟩
  posts _ := of_same rfl rfl
  marks _ _ := of_same rfl rfl
  replies s o i ho hi := ⟨Nat.le_max_left .., [o], rfl, fun o' ho' j hj => by
    obtain rfl := List.mem_singleton.mp ho'
    cases ho.symm.trans hj
    exact hi.trans (Nat.le_max_left ..)⟩
  welcomes s a _ := of_log (Nat.le_max_left ..) [.onConnected] rfl (by simp [Out.verdictOn])

end Credits

/-! ## The handlers -/

theorem connectEstablished_credits (handshakeFails : Bool) :
    Kept (Credits n) (connectEstablished E handshakeFails) := by
  refine ⟨fun s => ?_⟩
  rw [wp_connectEstablished]
  split
  · exact ⟨.refl s, trivial⟩
  · rename_i a hc
    split
    · exact .of_same rfl rfl
    · have hsent : ∀ t, Sent ((s.established a).greeting a) t → Credits n s t := fun t ht =>
        Credits.trans _ ((s.established a).greeting a) _ (.of_same rfl rfl) (.own ht.own)
      rw [wp_login (s := s.established a) hc]
      split
      · exact wp_mono ((send_sent _).from_ _) (fun _ t ht => hsent t ht) fun _ t ht => ⟨hsent t ht.1, trivial⟩
      · exact ⟨.of_same rfl rfl, trivial⟩

theorem workloopTimerElapsed_credits (aborted : Bool) : Kept (Credits n) (workloopTimerElapsed E aborted) :=
  Credits.lenient.reserved.tick Credits.lenient.reserved.own (fun _ => .of_same rfl rfl) aborted

theorem rotateConnect_credits (choice : Option (Nat × Bool)) : Kept (Credits n) (rotateConnect choice) :=
  rotateConnect_kept Credits.lenient.reserved
    (fun _ a => .of_log (Nat.zero_le _) [.setConnection a] rfl (by simp [Out.verdictOn])) choice

theorem call_credits {m : M Unit} (hm : Kept (Credits n) m) (s : St) : Credits n s (call m s) :=
  call_of_wp (wp_mono (hm.from_ s) (fun _ _ h => h) fun _ _ h => ⟨h.1.ids, h.1.log⟩)

theorem call_credits_told {m : M Unit} (hm : KeepsIf (fun _ => true) (Credits n) m) (s : St) : Credits n s (call m s) :=
  call_of_wp (wp_mono (hm.from_ s) (fun _ _ h => h) fun _ _ h => ⟨(h rfl).ids, (h rfl).log⟩)

theorem runHandler_credits (choice : Option (Nat × Bool)) (k : Handler) (s : St) :
    Credits n s (call (runHandler E choice k) s) := by
  have h : Lenient (Credits n) := Credits.lenient
  cases k with
  | startConnect => exact call_credits (startConnect_kept h.reserved) s
  | disconnect => exact call_credits (disconnect_kept h.reserved) s
  | disconnectFinalize => exact call_credits (disconnectFinalize_kept h.reserved) s
  | resolveHandler endpoints => exact call_credits (resolveHandler_kept h.reserved endpoints) s
  | connectHandler ec handshakeFails =>
    exact call_credits (connectHandler_kept h.reserved (connectEstablished_credits handshakeFails)) s
  | workloopTimerElapsed aborted => exact call_credits (workloopTimerElapsed_credits aborted) s
  | onRecvSocketDataCompleted data =>
    cases data with
    | none => exact call_credits (readFailed_kept (E := E) h.reserved) s
    | some rx =>
      refine call_credits_told (onRecvSocketDataCompleted_told Credits.receptive (fun s wp => ?_) (fun s => ?_) rx) s
      · exact .of_log (Nat.le_max_left ..) [.onWorkReceived wp] rfl (by simp [Out.verdictOn])
      · exact .of_same rfl rfl
  | onSendSocketDataCompleted ec => exact call_credits (onSendSocketDataCompleted_kept h.reserved ec) s
  | onSSLShutdownCompleted => exact call_credits (onSSLShutdownCompleted_kept h.reserved) s
  | processResponse response => exact call_credits_told (processResponse_told Credits.receptive response) s
  | rotateConnect => exact call_credits (rotateConnect_credits choice) s
  | reconnectTimerElapsed => exact call_credits (reconnectTimerElapsed_kept h.reserved) s

def Ev.submits : Ev → Nat
  | submitSolution solution => 40 + solution.midx
  | _ => 0

theorem Fired.credits {e : Ev} (h : Fired E s e t) : Credits e.submits s t := by
  cases h with
  | @run choice k queue hq =>
    have hcredits := runHandler_credits (E := E) (n := 0) choice k { s with queue }
    exact ⟨hcredits.ids, hcredits.log⟩
  | written _ => exact .of_log (Nat.le_max_left ..) [_] rfl (by simp [Out.verdictOn])
  | callDisconnect _ => exact call_credits (disconnect_kept Credits.lenient.reserved) s
  | stopConnected _ _ =>
    have hcredits := call_credits (n := 0) (disconnect_kept Credits.lenient.reserved) { s with stopping := true }
    exact ⟨hcredits.ids, hcredits.log⟩
  | submitSolution _ =>
    refine call_credits (submitSolution_kept Credits.lenient.reserved _ fun _ => ?_) s
    exact .of_log (Nat.le_refl _) [] rfl (by simp)
  | submitHashrate _ => exact call_credits (submitHashrate_kept Credits.lenient.reserved _ _) s
  | _ => exact .of_same rfl rfl

end CoreMiner.Stratum
