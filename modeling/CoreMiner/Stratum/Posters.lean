/-
  CoreMiner.Stratum.Posters — handlers that leave the connection and its endpoints alone
  (`XcbStratumClient.cpp`: `processResponse`, `onRecvSocketDataCompleted`,
  `onSendSocketDataCompleted`, `submitSolution`, `submitHashrate`).

  All they do to the rest of the client is to post `disconnect`. They start a read or a write only
  on a connection that is established, and none of them pops an endpoint (`Posting`).
-/

import CoreMiner.Stratum.Receptive

namespace CoreMiner.Stratum

open DevCore EthCore Lib Prog

variable {E : Env} {s t u : St} {a : Nat}

/-! ## Writes -/

def Unwritten (s t : St) : Prop := s.isConnected = false → t.writes = s.writes ∧ t.isConnected = false

theorem sendSocketData_unwritten : KeepsIf (fun _ => true) Unwritten sendSocketData := by
  refine ⟨fun s => wp_sendSocketData.mpr ?_⟩
  split
  · exact fun hs => ⟨rfl, hs⟩
  · rename_i hconnected
    have hnone {P : Prop} (hs : s.isConnected = false) : P := by
      rw [hs, Bool.not_false, Bool.true_or] at hconnected
      exact absurd rfl hconnected
    split
    · exact fun _ hs => hnone hs
    · split
      · exact fun hs => hnone hs
      · exact fun _ hs => hnone hs

theorem send_unwritten (jReq : Json) : KeepsIf (fun _ => true) Unwritten (send E jReq) := by
  refine ⟨fun s => wp_send.mpr ?_⟩
  split
  · exact fun hs => ⟨rfl, hs⟩
  · exact sendSocketData_unwritten.from_ _

theorem unwritten_receptive : Receptive E (fun _ => true) Unwritten where
  refl _ hs := ⟨rfl, hs⟩
  trans _ _ _ h h' hs := ⟨(h' (h hs).2).1.trans (h hs).1, (h' (h hs).2).2⟩
  caught _ _ := rfl
  inner s t h := by
    obtain ⟨_, _, _, _, _, _, _, -, rfl⟩ := h
    exact fun hs => ⟨rfl, hs⟩
  sends := send_unwritten
  posts _ hs := ⟨rfl, hs⟩
  marks _ _ hs := ⟨rfl, hs⟩
  replies _ _ _ _ _ hs := ⟨rfl, hs⟩
  welcomes _ _ _ hs := ⟨rfl, hs⟩

/-! ## The connection -/

structure Posts (s t : St) : Prop where
  link : t.link = s.link
  queue : ∃ n, t.queue = s.queue ++ List.replicate n .disconnect
  secure : ∀ a, (t.uris a).secure = (s.uris a).secure
  /-- Without a connection nothing is read or written. -/
  still : s.isConnected = false → t.reads = s.reads ∧ t.writes = s.writes

namespace Posts

theorem of_eq (hl : t.link = s.link) (hq : t.queue = s.queue) (hu : t.uris = s.uris)
    (hs : s.isConnected = false → t.reads = s.reads ∧ t.writes = s.writes) : Posts s t :=
  ⟨hl, ⟨0, by simp [hq]⟩, fun _ => by rw [hu], hs⟩

theorem refl (s : St) : Posts s s := of_eq rfl rfl rfl fun _ => ⟨rfl, rfl⟩

theorem isConnected (h : Posts s t) : t.isConnected = s.isConnected := by
  have hl := h.link
  simp only [St.isConnected, St.isPendingState, show t.connected = s.connected from congrArg Link.connected hl,
    show t.connecting = s.connecting from congrArg Link.connecting hl,
    show t.disconnecting = s.disconnecting from congrArg Link.disconnecting hl]

theorem trans (s t u : St) (h : Posts s t) (h' : Posts t u) : Posts s u where
  link := h'.link.trans h.link
  queue := by
    obtain ⟨m, hm⟩ := h.queue
    obtain ⟨n, hn⟩ := h'.queue
    exact ⟨m + n, by rw [hn, hm, List.append_assoc, List.replicate_append_replicate]⟩
  secure a := (h'.secure a).trans (h.secure a)
  still hs := by
    obtain ⟨hreads, hwrites⟩ := h.still hs
    obtain ⟨hreads', hwrites'⟩ := h'.still (h.isConnected.trans hs)
    exact ⟨hreads'.trans hreads, hwrites'.trans hwrites⟩

theorem push (s : St) : Posts s (s.push .disconnect) := ⟨rfl, ⟨1, rfl⟩, fun _ => rfl, fun _ => ⟨rfl, rfl⟩⟩

end Posts

abbrev Posting {α : Type} (m : M α) : Prop := Keeps Posts (fun x _ => x ≠ .emptyEndpoints) m

namespace Posting

variable {α β : Type}

theorem bind {m : M α} {f : α → M β} (hm : Posting m) (hf : ∀ x, Posting (f x)) : Posting (m >>= f) :=
  Keeps.bind Posts.trans (fun _ _ _ _ h => h) hm hf

theorem when {p : Prop} [Decidable p] {m : M Unit} (hm : p → Posting m) : Posting (when p m) :=
  Keeps.when Posts.refl hm

theorem get_bind {f : St → M α} (hf : ∀ s, Posting (f s)) : Posting (get >>= f) := bind (Keeps.get Posts.refl) hf

theorem modify {f : St → St} (h : ∀ s, Posts s (f s)) : Posting (modify f) := Keeps.modify h

end Posting

theorem Blame.ne_emptyEndpoints {c : Faults} {x : Stop} (h : Blame c x s) : x ≠ .emptyEndpoints := by
  rintro rfl
  exact h

theorem Processed.posts (h : Processed s t) (hw : Unwritten s t) : Posts s t :=
  ⟨h.link, h.queue, fun a => (h.uris a).secure, fun hs => ⟨h.reads, (hw hs).1⟩⟩

theorem posting_of_tame {α : Type} {c : Faults} {m : M α} (h : Tame c m) (hw : KeepsIf (fun _ => true) Unwritten m) :
    Posting m :=
  ⟨fun s => wp_mono (wp_and (h.from_ s) (hw.from_ s)) (fun _ _ ht => ht.1.posts ht.2)
    fun _ _ ht => ⟨ht.1.1.posts (ht.2 rfl), ht.1.2.ne_emptyEndpoints⟩⟩

theorem send_posting (jReq : Json) : Posting (send E jReq) :=
  posting_of_tame (send_tame (c := ⟨true, true⟩) jReq) (send_unwritten jReq)

theorem processResponse_posting (j : Json) : Posting (processResponse E j) :=
  posting_of_tame (processResponse_tame j) (processResponse_told unwritten_receptive j)

/-! ## The handlers -/

theorem getConn_posting : Posting getConn := by
  refine ⟨fun s => wp_getConn.mpr ?_⟩
  cases s.conn with
  | none => exact ⟨.refl s, nofun⟩
  | some a => exact .refl s

theorem mark_posting : Posting (modifyConn Uri.markUnrecoverable) := by
  refine ⟨fun s => wp_modifyConn.mpr ?_⟩
  cases s.conn with
  | none => exact ⟨.refl s, nofun⟩
  | some a => exact (St.updateUri_processed (Uri.markUnrecoverable_processed _)).posts fun hs => ⟨rfl, hs⟩

theorem processTransmission_posting (rx : List Char) : Posting (processTransmission E rx) := by
  refine ⟨fun s => ?_⟩
  have hlines : wp (processTransmission E rx) (fun _ t => Consumed (s.receiving rx) t)
      (fun x t => Consumed (s.receiving rx) t ∧ Blame ⟨true, true⟩ x (s.receiving rx)) s :=
    wp_processTransmission.mpr ((consume_keeps _).from_ _)
  have hposts {t : St} (ht : Consumed (s.receiving rx) t) (hw : Unwritten s t) : Posts s t :=
    ⟨ht.link, ht.queue, fun a => (ht.uris a).secure, fun hs => ⟨ht.reads, (hw hs).1⟩⟩
  exact wp_mono (wp_and hlines ((processTransmission_told unwritten_receptive rx).from_ s))
    (fun _ _ ht => hposts ht.1 ht.2) fun _ _ ht => ⟨hposts ht.1.1 (ht.2 rfl), ht.1.2.ne_emptyEndpoints⟩

/-- A read is started on a connection. -/
theorem recvSocketData_posts_from (hs : s.isConnected = true) :
    wp recvSocketData (fun _ t => Posts s t) (fun x t => Posts s t ∧ x ≠ .emptyEndpoints) s := by
  rw [recvSocketData, wp_bind, wp_stream]
  split
  · exact ⟨.refl s, by simp⟩
  · split
    · exact ⟨.refl s, by simp⟩
    · exact .of_eq rfl rfl rfl fun hdown => absurd (hdown.symm.trans hs) Bool.false_ne_true

theorem afterLines_posting : Posting afterLines := by
  refine ⟨fun s => ?_⟩
  have hwork : Posting (when s.newjobprocessed (onWorkReceived s.current)) :=
    .when fun _ => onWorkReceived_keeps (fun _ => .of_eq rfl rfl rfl fun _ => ⟨rfl, rfl⟩) (by simp)
  rw [afterLines, wp_bind, wp_get, wp_bind]
  refine wp_mono (hwork.from_ s) (fun _ t ht => ?_) fun _ _ h => h
  rw [wp_when]
  split
  · rename_i hs
    exact wp_mono (recvSocketData_posts_from (ht.isConnected.trans hs)) (fun _ _ hu => ht.trans _ _ _ hu)
      fun _ _ hu => ⟨ht.trans _ _ _ hu.1, hu.2⟩
  · exact ht

theorem onRecvSocketDataCompleted_posting (data : Option (List Char)) :
    Posting (onRecvSocketDataCompleted E data) := by
  cases data with
  | none =>
    exact .get_bind fun s => .when fun _ => .bind (.when fun _ => mark_posting) fun _ => .modify Posts.push
  | some rx => exact (processTransmission_posting rx).bind fun _ => afterLines_posting

theorem stampTransmission_posting : Posting stampTransmission := by
  refine Posting.get_bind fun s => .when fun _ => getConn_posting.bind fun _ => .when fun _ => ⟨fun t => ?_⟩
  rw [onSession, wp_bind, wp_get]
  cases t.session with
  | none => exact ⟨.refl t, by simp⟩
  | some session =>
    rw [wp_zoom, wp_modify]
    exact .of_eq rfl rfl rfl fun _ => ⟨rfl, rfl⟩

theorem onSendSocketDataCompleted_posting (ec : Option WriteError) : Posting (onSendSocketDataCompleted ec) := by
  have hkept {f : St → St} (hf : ∀ s, Posts s (f s)) : Posting (modify f) := .modify hf
  cases ec with
  | some ec =>
    refine Posting.bind (hkept fun _ => .of_eq rfl rfl rfl fun _ => ⟨rfl, rfl⟩) fun _ => ?_
    exact .bind (.when fun _ => hkept Posts.push) fun _ => .get_bind fun _ => .when fun _ => hkept Posts.push
  | none =>
    refine stampTransmission_posting.bind fun _ => .get_bind fun _ => Keeps.ite (fun _ => ?_) fun _ => ?_
    · exact hkept fun _ => .of_eq rfl rfl rfl fun _ => ⟨rfl, rfl⟩
    · exact posting_of_tame (sendSocketData_tame (c := ⟨true, true⟩)) sendSocketData_unwritten

theorem submitSolution_posting (solution : Solution) : Posting (submitSolution E solution) := by
  have hkept {f : St → St} (hf : ∀ s, Posts s (f s)) : Posting (modify f) := .modify hf
  refine Posting.get_bind fun s => ?_
  cases s.session with
  | none => exact Keeps.pure Posts.refl _
  | some session =>
    refine .when fun _ => .bind (hkept fun _ => .of_eq rfl rfl rfl fun _ => ⟨rfl, rfl⟩) fun _ =>
      getConn_posting.bind fun _ => .bind ?_ fun _ => .bind ?_ fun _ => send_posting _
    · exact posting_of_tame (raise_tame (c := ⟨true, true⟩) _) (unwritten_receptive (E := E).raise _)
    · exact hkept fun _ => .of_eq rfl rfl rfl fun _ => ⟨rfl, rfl⟩

theorem submitHashrate_posting (rate : UInt64) (id : String) : Posting (submitHashrate E rate id) := by
  refine Posting.get_bind fun s => .when fun _ => getConn_posting.bind fun u =>
    Keeps.ite (fun _ => ?_) fun _ => send_posting _
  cases s.session with
  | none => exact Keeps.throw Posts.refl fun _ => nofun
  | some session => exact send_posting _

theorem keepAlive_posting (u : Uri) : Posting (keepAlive E u) := by
  refine Posting.get_bind fun s => ?_
  cases s.session with
  | none => exact Keeps.pure Posts.refl _
  | some session => exact .when fun _ => send_posting _

end CoreMiner.Stratum
