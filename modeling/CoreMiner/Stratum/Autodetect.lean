/-
  CoreMiner.Stratum.Autodetect — how the stratum mode of a URI develops
  (`XcbStratumClient.cpp`: `connect_handler`, `disconnect_finalize`; `PoolURI.h`).

  A URI of an autodetecting scheme starts without a mode (999), is given mode 3 by its first
  established connection, and loses one with every `start_connect` that
  `disconnect_finalize` posts instead of reporting. So the modes left and the posts made add
  up to three at most (`Detecting`), whatever the pool, the network and the pool manager do:
  the relation `Detects` between the URIs before and after holds of every handler
  (`runHandler_detective`). Hence autodetection ends, and a confirmed mode stays
  (`autodetection_settles`).
-/

import CoreMiner.Stratum.Lenient

namespace CoreMiner.Stratum

open DevCore EthCore Lib Prog

variable {E : Env} {s t : St} {a : Nat}

/-! ## One URI -/

/-- A message does not make the next mode be tried. -/
theorem Uri.Processed.retries {u v : Uri} (h : u.Processed v) (hu : retriesNextMode u = false) :
    retriesNextMode v = false := by
  have hresponds : v.responds = u.responds := by rw [h.same]
  simp only [retriesNextMode, Bool.and_eq_false_iff, Bool.not_eq_false'] at *
  rw [hresponds]
  rcases hu with (hu | hu) | hu
  · exact .inl (.inl (h.unrecoverable hu))
  · exact .inl (.inr (h.confirmed hu))
  · exact .inr hu

def reposts (a : Nat) (log : List Out) : Nat := log.count (.reposted (some a))

inductive Detecting (u : Uri) (n : Nat) : Prop
  /-- Until the mode is confirmed, every post costs one. -/
  | tried (hmode : u.stratumMode ≤ 3) (hn : n ≤ 3) (hleft : u.stratumModeConfirmed = false → n + u.stratumMode ≤ 3)
  /-- Without a mode the next one is not tried. -/
  | untried (hmode : u.stratumMode = 999) (hn : n = 0) (hkeep : retriesNextMode u = false)

/-- What happens to the URI of an autodetecting scheme. -/
structure Develops (u : Uri) (n : Nat) (v : Uri) (m : Nat) : Prop where
  version : v.version = u.version
  detecting : u.version = 999 → Detecting u n → Detecting v m
  stable : u.version = 999 → u.stratumModeConfirmed = true →
    v.stratumModeConfirmed = true ∧ v.stratumMode = u.stratumMode

namespace Develops

variable {u v w : Uri} {n m k : Nat}

theorem refl (u : Uri) (n : Nat) : Develops u n u n := ⟨rfl, fun _ h => h, fun _ h => ⟨h, rfl⟩⟩

theorem trans (h : Develops u n v m) (h' : Develops v m w k) : Develops u n w k where
  version := h'.version.trans h.version
  detecting hu hd := h'.detecting (h.version.trans hu) (h.detecting hu hd)
  stable hu hc := by
    obtain ⟨hv, hmode⟩ := h.stable hu hc
    obtain ⟨hw, hmode'⟩ := h'.stable (h.version.trans hu) hv
    exact ⟨hw, hmode'.trans hmode⟩

theorem of_same (u v : Uri) (hversion : v.version = u.version) (hmode : v.stratumMode = u.stratumMode)
    (hconfirmed : u.stratumModeConfirmed = true → v.stratumModeConfirmed = true)
    (hkeep : retriesNextMode u = false → retriesNextMode v = false) (n : Nat) : Develops u n v n where
  version := hversion
  detecting _ hd := by
    cases hd with
    | tried hle hn hleft =>
      refine .tried (hmode ▸ hle) hn fun hc => ?_
      rw [hmode]
      apply hleft
      by_contra h
      simp [hconfirmed (Bool.eq_true_of_not_eq_false h)] at hc
    | untried h999 hn hu => exact .untried (hmode.trans h999) hn (hkeep hu)
  stable _ hc := ⟨hconfirmed hc, hmode⟩

theorem lasting (u : Uri) (d n : Nat) : Develops u n { u with totalDuration := d } n :=
  of_same u { u with totalDuration := d } rfl rfl id id n

theorem processed (h : u.Processed v) (n : Nat) : Develops u n v n :=
  of_same u v (by rw [h.same]) (by rw [h.same]) h.confirmed h.retries n

theorem lower (hretry : retriesNextMode u = true) (hpos : 0 < u.stratumMode) :
    Develops u n { u with stratumMode := u.stratumMode - 1 } (n + 1) := by
  have hunconfirmed : u.stratumModeConfirmed = false := by
    simp only [retriesNextMode, Bool.and_eq_true, Bool.not_eq_true'] at hretry
    exact hretry.1.2
  refine ⟨rfl, fun _ hd => ?_, fun _ hc => by simp [hunconfirmed] at hc⟩
  cases hd with
  | tried hle hn hleft =>
    have := hleft hunconfirmed
    exact .tried (show u.stratumMode - 1 ≤ 3 by omega) (by omega)
      fun _ => show n + 1 + (u.stratumMode - 1) ≤ 3 by omega
  | untried _ _ hkeep => simp [hretry] at hkeep

/-- The first established connection brings the first mode. -/
theorem chosen (u : Uri) (n : Nat) : Develops u n (chooseMode { u with responds := true }) n := by
  refine ⟨?_, fun hu hd => ?_, fun hu hc => ?_⟩
  · unfold chooseMode Uri.setStratumMode
    split_ifs <;> rfl
  · have hnot : ¬ u.version < 999 := by omega
    cases hd with
    | tried hle hn hleft =>
      have hmode : u.stratumMode ≠ 999 := by omega
      have hsame : chooseMode { u with responds := true } = { u with responds := true } := by
        simp [chooseMode, hnot, hmode]
      rw [hsame]
      exact .tried hle hn hleft
    | untried hmode hn _ =>
      by_cases hc : u.stratumModeConfirmed = true
      · have hsame : chooseMode { u with responds := true } = { u with responds := true } := by
          simp [chooseMode, hnot, hc]
        rw [hsame]
        exact .untried hmode hn (by simp [retriesNextMode, hc])
      · have hfirst : (chooseMode { u with responds := true }).stratumMode = 3 := by
          simp [chooseMode, hnot, hc, hmode, Uri.setStratumMode, CORESTRATUM2]
        exact .tried hfirst.le (by omega) fun _ => by omega
  · have hnot : ¬ u.version < 999 := by omega
    simp [chooseMode, hnot, hc]

end Develops

/-! ## All URIs -/

def Detects (s t : St) : Prop := ∀ a, Develops (s.uris a) (reposts a s.log) (t.uris a) (reposts a t.log)

namespace Detects

theorem refl (s : St) : Detects s s := fun _ => .refl _ _

theorem trans (s t u : St) (h : Detects s t) (h' : Detects t u) : Detects s u := fun a => (h a).trans (h' a)

theorem of_same (hu : t.uris = s.uris) (hl : ∀ a, reposts a t.log = reposts a s.log) : Detects s t := by
  intro a
  rw [hu, hl]
  exact .refl _ _

theorem updateUri {f : Uri → Uri} (hf : ∀ n, Develops (s.uris a) n (f (s.uris a)) n) : Detects s (s.updateUri a f) := by
  intro b
  by_cases hb : b = a
  · subst hb
    have hat : (s.updateUri b f).uris b = f (s.uris b) := if_pos rfl
    rw [hat]
    exact hf _
  · have hat : (s.updateUri a f).uris b = s.uris b := if_neg hb
    rw [hat]
    exact .refl _ _

/-- Only the URI `a` develops, and nothing is posted. -/
theorem at_uri {v : Uri} (hu : t.uris = fun b => if b = a then v else s.uris b) (hl : t.log = s.log)
    (ha : ∀ n, Develops (s.uris a) n v n) : Detects s t := by
  have hupdate := updateUri (f := fun _ => v) ha
  exact hupdate.trans _ _ _ (.of_same hu fun b => by rw [hl]; rfl)

theorem idle (h : Idle s t) : Detects s t := by
  intro a
  obtain ⟨new, hlog, hnew⟩ := h.log
  have hcount : reposts a t.log = reposts a s.log := by
    rw [reposts, hlog, List.count_append, List.count_eq_zero.mpr fun hmem => ?_, Nat.zero_add]
    · rfl
    · simpa [Out.isIdle] using hnew _ hmem
  rw [hcount]
  exact .processed (h.uris a) _

end Detects

/-! ## The handlers -/

theorem reported_detects (s : St) : Detects s s.reported := .of_same rfl fun a => by simp [reposts, St.reported]

theorem released_detects (s : St) (a : Nat) : Detects s (s.released a) := by
  have hclosed : Detects s s.finalizing := .of_same rfl fun b => by
    simp [reposts, St.finalizing, St.closed, St.aborted]
  refine hclosed.trans _ _ _
    (.trans _ (s.finalizing.updateUri a s.finalizing.uriReleased) _ (.updateUri fun n => ?_) ?_)
  · unfold St.uriReleased
    split
    · exact .refl _ _
    · exact .lasting _ _ n
  · exact .of_same rfl fun b => rfl

/-- `disconnect_finalize` posts `start_connect` at the price of a mode. -/
theorem finalized_detects (s : St) (a : Nat) : Detects s (s.finalized a) := by
  have hreleased := released_detects s a
  obtain ⟨hretries, hmode⟩ := retriesNextMode_released s a
  unfold St.finalized
  split
  case isTrue hretry =>
    split
    case isTrue hpos =>
      refine hreleased.trans _ _ _ fun b => ?_
      by_cases hb : b = a
      · subst hb
        have hat : ((s.released b).lowered b).uris b =
            { (s.released b).uris b with stratumMode := ((s.released b).uris b).stratumMode - 1 } := if_pos rfl
        have hcount : reposts b ((s.released b).lowered b).log = reposts b (s.released b).log + 1 :=
          List.count_cons_self
        rw [hat, hcount]
        exact .lower (hretries.trans hretry) (hmode ▸ hpos)
      · have hat : ((s.released a).lowered a).uris b = (s.released a).uris b := if_neg hb
        have hcount : reposts b ((s.released a).lowered a).log = reposts b (s.released a).log :=
          List.count_cons_of_ne (by simpa using fun h : a = b => hb h.symm)
        rw [hat, hcount]
        exact .refl _ _
    case isFalse =>
      refine hreleased.trans _ _ _ (.trans _ _ _ (.updateUri fun n => ?_) (reported_detects _))
      exact .processed (Uri.markUnrecoverable_processed _) n
  case isFalse => exact hreleased.trans _ _ _ (reported_detects _)

theorem detects_lenient : Lenient Detects where
  refl := .refl
  trans := .trans
  own _ _ h := .of_same h.uris fun _ => by rw [h.log]
  marked _ _ := .updateUri fun n => .processed (Uri.markUnrecoverable_processed _) n
  finalized s a _ := finalized_detects s a
  lost _ _ := .of_same rfl fun a => by simp [reposts, St.lost, St.finalizing, St.closed, St.aborted]

abbrev Detective {α : Type} (m : M α) : Prop := Kept Detects m

theorem Rests.detective {α : Type} {m : M α} (hm : Rests m) : Detective m :=
  ⟨fun s => wp_mono (hm.from_ s) (fun _ _ h => .idle h) fun _ _ h => ⟨.idle h.1, trivial⟩⟩

theorem established_uris (s : St) (a : Nat) (f : Uri → Uri) :
    ((s.established a).updateUri a f).uris =
      fun b => if b = a then f { s.uris a with responds := true } else s.uris b := by
  funext b
  by_cases hb : b = a
  · simp [St.updateUri, St.established, hb]
  · simp [St.updateUri, St.established, hb]

/-- The connection answers, and gets its mode or is abandoned. -/
theorem connectEstablished_detective (handshakeFails : Bool) : Detective (connectEstablished E handshakeFails) := by
  refine ⟨fun s => ?_⟩
  rw [wp_connectEstablished]
  split
  · exact ⟨.refl s, trivial⟩
  · rename_i a hc
    split
    · refine .at_uri (established_uris s a Uri.markUnrecoverable) rfl fun n => ?_
      exact .of_same (s.uris a) (Uri.markUnrecoverable { s.uris a with responds := true }) rfl rfl id (fun _ => rfl) n
    · have hlogging : Detects s ((s.established a).loggingIn a) :=
        .at_uri (established_uris s a chooseMode) rfl (Develops.chosen _)
      rw [wp_login (s := s.established a) hc]
      have hgreeting : Detects s ((s.established a).greeting a) := hlogging
      split
      · refine wp_mono ((send_sent _).from_ _) (fun _ t ht => ?_) fun _ t ht => ⟨?_, trivial⟩
        · exact hgreeting.trans _ _ _ (.idle ht.idle)
        · exact hgreeting.trans _ _ _ (.idle ht.1.idle)
      · exact ⟨hlogging, trivial⟩

theorem workloopTimerElapsed_detective (aborted : Bool) : Detective (workloopTimerElapsed E aborted) :=
  detects_lenient.reserved.tick detects_lenient.reserved.own (fun _ => .of_same rfl fun _ => rfl) aborted

theorem rotateConnect_detective (choice : Option (Nat × Bool)) : Detective (rotateConnect choice) := by
  refine rotateConnect_kept detects_lenient.reserved (fun s a => ?_) choice
  refine Detects.trans _ { s.newClient a with log := .setConnection a :: s.log } _ ?_ (.updateUri fun n => ?_)
  · exact .of_same rfl fun b => by simp [reposts]
  · exact .of_same (s.uris a) { s.uris a with responds := false } rfl rfl id (fun _ => by simp [retriesNextMode]) n

theorem runHandler_detective (choice : Option (Nat × Bool)) (k : Handler) : Detective (runHandler E choice k) := by
  have h := detects_lenient
  cases k with
  | startConnect => exact startConnect_kept h.reserved
  | disconnect => exact disconnect_kept h.reserved
  | disconnectFinalize => exact disconnectFinalize_kept h.reserved
  | resolveHandler endpoints => exact resolveHandler_kept h.reserved endpoints
  | connectHandler ec handshakeFails =>
    exact connectHandler_kept h.reserved (connectEstablished_detective handshakeFails)
  | workloopTimerElapsed aborted => exact workloopTimerElapsed_detective aborted
  | onRecvSocketDataCompleted data => exact (onRecvSocketDataCompleted_rests data).detective
  | onSendSocketDataCompleted ec => exact onSendSocketDataCompleted_kept h.reserved ec
  | onSSLShutdownCompleted => exact onSSLShutdownCompleted_kept h.reserved
  | processResponse response => exact (processResponse_tame response).rests.detective
  | rotateConnect => exact rotateConnect_detective choice
  | reconnectTimerElapsed => exact reconnectTimerElapsed_kept h.reserved

/-! ## The runs -/

theorem Detective.call {m : M Unit} (hm : Detective m) (s : St) : Detects s (call m s) :=
  call_of_wp (wp_mono (hm.from_ s) (fun _ _ h => h) fun _ _ h => h.1)

theorem Fired.detects {e : Ev} (h : Fired E s e t) : Detects s t := by
  cases h with
  | @run choice k queue hq => exact (runHandler_detective choice k).call { s with queue := queue }
  | written _ => exact .of_same rfl fun a => by simp [reposts, St.push]
  | callDisconnect _ => exact Detective.call (disconnect_kept detects_lenient.reserved) s
  | stopConnected _ _ => exact Detective.call (disconnect_kept detects_lenient.reserved) { s with stopping := true }
  | submitSolution _ =>
    exact Detective.call (submitSolution_kept detects_lenient.reserved _ fun _ => .of_same rfl fun _ => rfl) s
  | submitHashrate _ => exact Detective.call (submitHashrate_kept detects_lenient.reserved _ _) s
  | _ => exact .of_same rfl fun _ => rfl

theorem step_detects {e : Ev} (h : step E s e = some t) : Detects s t := (fired_of_step h).2.detects

theorem play_detects {es : List Ev} (h : play E s es = some t) : Detects s t := by
  induction es generalizing s with
  | nil =>
    cases h
    exact .refl _
  | cons e es ih =>
    obtain ⟨u, hu, ht⟩ := Option.bind_eq_some_iff.mp h
    exact (step_detects hu).trans _ _ _ (ih ht)

theorem detecting_of_reach (h : Reach E s) (ha : (s.uris a).version = 999) :
    Detecting (s.uris a) (reposts a s.log) := by
  induction h with
  | @init uris hfresh =>
    have hu := hfresh a
    exact .untried hu.mode rfl (by simp [retriesNextMode, init, hu.responds])
  | @step s t e _ _ hst ih =>
    have hstep := step_detects hst a
    have hversion := hstep.version.symm.trans ha
    exact hstep.detecting hversion (ih hversion)

/-- Autodetection of a URI posts at most three connection attempts in all, and once its mode is
    confirmed it stays so, whatever happens. -/
theorem autodetection_settles {es : List Ev} (hs : Reach E s) (ht : play E s es = some t)
    (ha : (s.uris a).version = 999) :
    reposts a t.log ≤ 3 ∧ ((s.uris a).stratumModeConfirmed = true →
      (t.uris a).stratumModeConfirmed = true ∧ (t.uris a).stratumMode = (s.uris a).stratumMode) := by
  have hdetects := play_detects ht a
  refine ⟨?_, hdetects.stable ha⟩
  cases detecting_of_reach (reach_play E hs ht) (hdetects.version.trans ha) with
  | tried _ hn _ => exact hn
  | untried _ hn _ => omega

def refusedLogin : String × Json := ("\x7b\"id\":1,\"error\":1\x7d", .obj [("id", .int 1), ("error", .int 1)])

def subscribeReplied : String × Json :=
  ("\x7b\"id\":1,\"result\":[[\"\",\"\",\"CoreStratum/1.0.0\"],\"\"]\x7d",
    .obj [("id", .int 1), ("result", .arr [.arr [.str "", .str "", .str "CoreStratum/1.0.0"], .str ""])])

def refusedTrace : List Ev := connectTrace ++ [.received (lineOf refusedLogin), .run none, .run none]

def reconnectTrace : List Ev :=
  [.readFails, .run none, .run none, .run none, .run none, .run (some (0, false)), .run none, .run none,
    .connectCompletes false false, .run none]

/-- A pool that refuses mode 3 and accepts mode 2 is addressed in mode 2 from then on. -/
theorem detected_mode_kept : ∃ s t, Reach (tableEnv [refusedLogin, subscribeReplied]) s ∧
    play (tableEnv [refusedLogin, subscribeReplied]) s reconnectTrace = some t ∧ reposts 0 t.log ≤ 3 ∧
    (t.uris 0).stratumModeConfirmed = true ∧ (t.uris 0).stratumMode = (s.uris 0).stratumMode := by
  obtain ⟨s, hs, hversion, hconfirmed, hplay⟩ := reach_of_trace (tableEnv [refusedLogin, subscribeReplied])
    (fun _ => plainUri_fresh 999 (.inr rfl))
    (refusedTrace ++ [.run none, .run none, .run none, .connectCompletes false false, .run none,
      .received (lineOf subscribeReplied), .run none])
    (p := fun s => (s.uris 0).version = 999 ∧ (s.uris 0).stratumModeConfirmed = true ∧
      (play (tableEnv [refusedLogin, subscribeReplied]) s reconnectTrace).isSome = true) (by decide +kernel)
  obtain ⟨t, ht⟩ := Option.isSome_iff_exists.mp hplay
  obtain ⟨hposts, hstable⟩ := autodetection_settles hs ht hversion
  exact ⟨s, t, hs, ht, hposts, hstable hconfirmed⟩

end CoreMiner.Stratum
