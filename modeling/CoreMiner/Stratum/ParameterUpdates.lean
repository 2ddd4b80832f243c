/-
  CoreMiner.Stratum.ParameterUpdates — what a parameter message that fails leaves behind
  (`XcbStratumClient.cpp`: `processExtranonce`, `mining.set`, `mining.set_extranonce`, the
  extranonce of the login reply).

  A message is a list of conversions, each with the write it makes to the session
  (`Announcement.updates`, `program_eq`). It stops at the first conversion that throws, behind the
  writes of those in front of it. The writes are to different members, so none makes up for
  another one: a message that fails leaves the session as it was exactly if each of these writes
  has the value that is there already (`failed_message_keeps_iff`).
-/

import CoreMiner.Stratum.Announcements

namespace CoreMiner.Stratum

open DevCore EthCore Lib Prog

/-! ## Writes -/

inductive Write where
  | nothing
  | firstMiningSet
  | timeout (n : UInt32)
  | epoch (n : UInt32)
  | nextWorkBoundary (boundary : H256)
  | algo (name : String)
  | extraNonceSizeBytes (n : Nat)
  | extraNonce (n : UInt64)

namespace Write

def apply : Write → Session → Session
  | nothing, x => x
  | firstMiningSet, x => { x with firstMiningSet := true }
  | timeout n, x => { x with timeout := n }
  | epoch n, x => { x with epoch := n }
  | nextWorkBoundary boundary, x => { x with nextWorkBoundary := boundary }
  | algo name, x => { x with algo := name }
  | extraNonceSizeBytes n, x => { x with extraNonceSizeBytes := n }
  | extraNonce n, x => { x with extraNonce := n }

def member : Write → Nat
  | nothing => 0
  | firstMiningSet => 1
  | timeout _ => 2
  | epoch _ => 3
  | nextWorkBoundary _ => 4
  | algo _ => 5
  | extraNonceSizeBytes _ => 6
  | extraNonce _ => 7

def Apart (w v : Write) : Prop := w = nothing ∨ v = nothing ∨ w.member ≠ v.member

def Held (x : Session) : Write → Prop
  | nothing => True
  | firstMiningSet => x.firstMiningSet = true
  | timeout n => x.timeout = n
  | epoch n => x.epoch = n
  | nextWorkBoundary boundary => x.nextWorkBoundary = boundary
  | algo name => x.algo = name
  | extraNonceSizeBytes n => x.extraNonceSizeBytes = n
  | extraNonce n => x.extraNonce = n

theorem apply_eq_iff (w : Write) (x : Session) : w.apply x = x ↔ w.Held x := by
  cases x
  cases w <;> simp [apply, Held] <;> exact eq_comm

theorem apply_idem (w : Write) (x : Session) : w.apply (w.apply x) = w.apply x := by cases w <;> rfl

theorem Apart.comm {w v : Write} (h : w.Apart v) (x : Session) : w.apply (v.apply x) = v.apply (w.apply x) := by
  rcases h with rfl | rfl | h
  · rfl
  · rfl
  · cases w <;> cases v <;> first | rfl | exact absurd rfl h

end Write

def written (ws : List Write) (x : Session) : Session := ws.foldl (fun x w => w.apply x) x

theorem written_comm {w : Write} {ws : List Write} (h : ∀ v ∈ ws, w.Apart v) (x : Session) :
    written ws (w.apply x) = w.apply (written ws x) := by
  induction ws generalizing x with
  | nil => rfl
  | cons v ws ih =>
    rw [List.forall_mem_cons] at h
    show written ws (v.apply (w.apply x)) = w.apply (written ws (v.apply x))
    rw [← h.1.comm, ih h.2]

/-- Writes to different members change nothing together exactly if each one changes nothing. -/
theorem written_eq_iff {ws : List Write} (h : ws.Pairwise Write.Apart) (x : Session) :
    written ws x = x ↔ ∀ w ∈ ws, w.Held x := by
  induction ws with
  | nil => simp [written]
  | cons w ws ih =>
    rw [List.pairwise_cons] at h
    rw [List.forall_mem_cons, ← ih h.2, ← w.apply_eq_iff]
    have hcons : written (w :: ws) x = written ws (w.apply x) := rfl
    constructor
    · intro hx
      -- Writing again what is written changes nothing, and by then the session is the one before.
      have hw : w.apply x = x := by
        calc w.apply x = w.apply (written ws (w.apply x)) := by rw [← hcons, hx]
          _ = written ws (w.apply (w.apply x)) := (written_comm h.1 _).symm
          _ = x := by rw [w.apply_idem, ← hcons, hx]
      exact ⟨hw, by rw [hcons, hw] at hx; exact hx⟩
    · rintro ⟨hw, hx⟩
      rw [hcons, hw, hx]

/-! ## Messages as updates -/

abbrev Update := Except StdException Write

def applyAll : List Update → Prog Session Stop Unit
  | [] => pure ()
  | u :: us => do
    let w ← raise u
    modify w.apply
    applyAll us

/-- The writes in front of the first conversion that throws. -/
def ahead : List Update → List Write
  | .ok w :: us => w :: ahead us
  | _ => []

def throws (us : List Update) : Bool := us.any fun u => !u.isOk

/-- The member `key`, converted if it is not empty. -/
def given (prm : Json) (key : String) (conversion : String → Update) : Update := do
  let text ← prm.strKey key ""
  if text = "" then return .nothing else conversion text

def extranonceUpdates (enonce : String) : List Update :=
  [.ok (.extraNonceSizeBytes enonce.length), (stoul (resize enonce 16 '0')).map .extraNonce]

def miningSetUpdates (prm : Json) : List Update := [
  .ok .firstMiningSet,
  (prm.strKey "timeout" "").map fun _ => .nothing,
  (prm.strKey "epoch" "").map fun _ => .nothing,
  (prm.strKey "target" "").map fun _ => .nothing,
  given prm "timeout" fun timeout => (stoi timeout).map fun n => .timeout (.ofInt n),
  given prm "epoch" fun epoch => (stoul epoch).map fun n => .epoch n.toUInt32,
  given prm "target" fun target => (h256 ("0x" ++ padLeft target 64 '0')).map .nextWorkBoundary,
  (prm.strKey "algo" "ethash").map .algo,
  given prm "extranonce" fun enonce => .ok (.extraNonceSizeBytes enonce.length),
  given prm "extranonce" fun enonce => (stoul (resize enonce 16 '0')).map .extraNonce]

def Announcement.updates : Announcement → List Update
  | nothing => []
  | session enonce | extranonce enonce => if enonce = "" then [] else extranonceUpdates enonce
  | difficulty _ => [(h256 leastTarget).map .nextWorkBoundary]
  | set prm => miningSetUpdates prm

/-! The source's statements, each as the update it is. -/

section
variable {α : Type} {us : List Update} {k : Unit → Prog Session Stop Unit}

theorem modify_update (w : Write) (h : k () = applyAll us) : (modify w.apply >>= k) = applyAll (.ok w :: us) := by
  rw [← show (modify w.apply >>= fun _ => applyAll us) = applyAll (.ok w :: us) from rfl, ← h]

theorem raise_update {e : Except StdException α} {f : α → Prog Session Stop Unit}
    (h : ∀ a, e = .ok a → f a = applyAll us) : (raise e >>= f) = applyAll ((e.map fun _ => .nothing) :: us) := by
  cases e with
  | error x => rfl
  | ok a => exact h a rfl

theorem write_update {e : Except StdException α} (write : α → Write) (h : k () = applyAll us) :
    (raise e >>= fun a => modify (write a).apply >>= k) = applyAll (e.map write :: us) := by
  cases e with
  | error x => rfl
  | ok a => exact modify_update (write a) h

theorem given_of {prm : Json} {key text : String} (conversion : String → Update) (h : prm.strKey key "" = .ok text) :
    given prm key conversion = if text = "" then .ok .nothing else conversion text := by rw [given, h]; rfl

theorem given_update {prm : Json} {key text : String} {conversion : String → Except StdException α} (write : α → Write)
    (hprm : prm.strKey key "" = .ok text) (h : k () = applyAll us) :
    (when (text ≠ "") (do let a ← raise (conversion text); modify (write a).apply) >>= k) =
      applyAll (given prm key (fun t => (conversion t).map write) :: us) := by
  rw [given_of _ hprm]
  by_cases ht : text = ""
  · rw [when, if_neg (not_not.mpr ht), if_pos ht]
    exact h
  · rw [when, if_pos ht, if_neg ht]
    cases conversion text with
    | error x => rfl
    | ok a => exact modify_update (write a) h

end

theorem processExtranonce_eq (enonce : String) : processExtranonce enonce = applyAll (extranonceUpdates enonce) :=
  modify_update (.extraNonceSizeBytes _) (write_update (k := pure) .extraNonce rfl)

theorem miningSet_eq (prm : Json) : miningSet prm = applyAll (miningSetUpdates prm) := by
  apply modify_update .firstMiningSet
  apply raise_update
  intro timeout htimeout
  apply raise_update
  intro epoch hepoch
  apply raise_update
  intro target htarget
  apply given_update (fun n : Int => .timeout (.ofInt n)) htimeout
  apply given_update (fun n : UInt64 => .epoch n.toUInt32) hepoch
  apply given_update .nextWorkBoundary htarget
  apply write_update .algo
  -- The extranonce is read once for both of its updates.
  cases henonce : prm.strKey "extranonce" "" with
  | error x =>
    rw [given, henonce]
    rfl
  | ok enonce =>
    rw [given_of _ henonce, given_of _ henonce]
    by_cases h : enonce = ""
    · rw [if_pos h, if_pos h, raise_ok_bind, when, if_neg (not_not.mpr h)]
      rfl
    · rw [if_neg h, if_neg h, raise_ok_bind, when, if_pos h, processExtranonce_eq]
      rfl

theorem Announcement.program_eq (ann : Announcement) : ann.program = applyAll ann.updates := by
  have hextranonce (enonce : String) :
      when (enonce ≠ "") (processExtranonce enonce) =
        applyAll (if enonce = "" then [] else extranonceUpdates enonce) := by
    by_cases h : enonce = ""
    · rw [when, if_neg (not_not.mpr h), if_pos h]
      rfl
    · rw [when, if_pos h, if_neg h, processExtranonce_eq]
  cases ann with
  | nothing => rfl
  | session enonce => exact hextranonce enonce
  | difficulty prm => exact write_update (k := pure) .nextWorkBoundary rfl
  | extranonce enonce => exact hextranonce enonce
  | set prm => exact miningSet_eq prm

/-! ## What a failing message leaves -/

theorem applyAll_leaves (us : List Update) (x : Session) :
    wp (applyAll us) (fun _ _ => throws us = false) (fun _ y => throws us = true ∧ y = written (ahead us) x) x := by
  induction us generalizing x with
  | nil => exact rfl
  | cons u us ih =>
    cases u with
    | error e => exact ⟨rfl, rfl⟩
    | ok w => exact ih (w.apply x)

def Writes (us : List Update) (members : List Nat) : Prop :=
  List.Forall₂ (fun u m => ∀ w, u = .ok w → w = .nothing ∨ w.member = m) us members

theorem ahead_apart {us : List Update} {members : List Nat} (h : Writes us members) (hm : members.Nodup) :
    (ahead us).Pairwise Write.Apart ∧ ∀ w ∈ ahead us, w = .nothing ∨ w.member ∈ members := by
  induction h with
  | nil => simp [ahead]
  | @cons u m us members hu hus ih =>
    rw [List.nodup_cons] at hm
    obtain ⟨hapart, hmembers⟩ := ih hm.2
    cases u with
    | error e => simp [ahead]
    | ok w =>
      have hw := hu w rfl
      constructor
      · rw [ahead, List.pairwise_cons]
        refine ⟨fun v hv => ?_, hapart⟩
        rcases hw with hw | hw
        · exact .inl hw
        · rcases hmembers v hv with hv | hv
          · exact .inr (.inl hv)
          · exact .inr (.inr fun heq => hm.1 (by rw [← hw, heq]; exact hv))
      · rw [ahead, List.forall_mem_cons]
        refine ⟨hw.imp_right fun hw => ?_, fun v hv => (hmembers v hv).imp_right (List.mem_cons_of_mem m)⟩
        rw [hw]
        exact List.mem_cons_self

theorem given_writes {prm : Json} {key : String} {conversion : String → Update} {m : Nat}
    (h : ∀ text w, conversion text = .ok w → w.member = m) :
    ∀ w, given prm key conversion = .ok w → w = .nothing ∨ w.member = m := by
  intro w hw
  cases ht : prm.strKey key "" with
  | error e =>
    rw [given, ht] at hw
    exact absurd hw nofun
  | ok text =>
    rw [given_of _ ht] at hw
    by_cases hempty : text = ""
    · rw [if_pos hempty] at hw
      exact .inl (Except.ok.inj hw).symm
    · rw [if_neg hempty] at hw
      exact .inr (h text w hw)

theorem map_writes {α : Type} {e : Except StdException α} (write : α → Write) {m : Nat}
    (h : ∀ a, (write a).member = m) : ∀ w, e.map write = .ok w → w.member = m := by
  intro w hw
  cases e with
  | error x => exact absurd hw nofun
  | ok a =>
    cases hw
    exact h a

theorem extranonceUpdates_writes (enonce : String) : Writes (extranonceUpdates enonce) [6, 7] := by
  refine .cons (fun w hw => .inr ?_) (.cons (fun w hw => .inr ?_) .nil)
  · cases hw
    rfl
  · exact map_writes .extraNonce (fun _ => rfl) w hw

theorem miningSetUpdates_writes (prm : Json) : Writes (miningSetUpdates prm) [1, 10, 11, 12, 2, 3, 4, 5, 6, 7] := by
  have hread (key : String) (m : Nat) :
      ∀ w, ((prm.strKey key "").map fun _ => Write.nothing) = .ok w → w = .nothing ∨ w.member = m := by
    intro w hw
    cases h : prm.strKey key "" with
    | error e =>
      rw [h] at hw
      exact absurd hw nofun
    | ok text =>
      rw [h] at hw
      exact .inl (Except.ok.inj hw).symm
  refine .cons (fun w hw => .inr ?_) (.cons (hread _ _) (.cons (hread _ _) (.cons (hread _ _) (.cons (given_writes ?_)
    (.cons (given_writes ?_) (.cons (given_writes ?_) (.cons (fun w hw => .inr ?_) (.cons (given_writes ?_)
      (.cons (given_writes ?_) .nil)))))))))
  · cases hw
    rfl
  · exact fun _ => map_writes (fun n : Int => .timeout (.ofInt n)) fun _ => rfl
  · exact fun _ => map_writes (fun n : UInt64 => .epoch n.toUInt32) fun _ => rfl
  · exact fun _ => map_writes .nextWorkBoundary fun _ => rfl
  · exact map_writes .algo (fun _ => rfl) w hw
  · rintro text w ⟨⟩
    rfl
  · exact fun _ => map_writes .extraNonce fun _ => rfl

/-- No member is written twice. -/
theorem Announcement.updates_apart (ann : Announcement) : (ahead ann.updates).Pairwise Write.Apart := by
  have hextranonce (enonce : String) :
      (ahead (if enonce = "" then [] else extranonceUpdates enonce)).Pairwise Write.Apart := by
    by_cases h : enonce = ""
    · rw [if_pos h]
      exact .nil
    · rw [if_neg h]
      exact (ahead_apart (extranonceUpdates_writes enonce) (by decide)).1
  cases ann with
  | nothing => exact .nil
  | session enonce => exact hextranonce enonce
  | difficulty prm =>
    have hwrites : Writes (Announcement.difficulty prm).updates [4] :=
      .cons (fun w hw => .inr (map_writes .nextWorkBoundary (fun _ => rfl) w hw)) .nil
    exact (ahead_apart hwrites (by decide)).1
  | extranonce enonce => exact hextranonce enonce
  | set prm => exact (ahead_apart (miningSetUpdates_writes prm) (by decide)).1

/-- A message that fails leaves the session as it was if and only if all that is written in front
    of the conversion that fails is there already. -/
theorem failed_message_keeps_iff (ann : Announcement) (x : Session) :
    (∀ stop y, ann.program.exec x = (.error stop, y) → y = x) ↔
      (throws ann.updates = true → ∀ w ∈ ahead ann.updates, w.Held x) := by
  obtain ⟨hok, herror⟩ := wp_iff_exec.mp (applyAll_leaves ann.updates x)
  rw [← ann.program_eq] at hok herror
  rw [← written_eq_iff ann.updates_apart]
  constructor
  · intro h hthrows
    rcases hexec : ann.program.exec x with ⟨stop | _, y⟩
    · rw [← (herror stop y hexec).2]
      exact h stop y hexec
    · rw [hok () y hexec] at hthrows
      exact absurd hthrows (by decide)
  · intro h stop y hexec
    obtain ⟨hthrows, hy⟩ := herror stop y hexec
    rw [hy, h hthrows]

def badTarget : Announcement := .set (.obj [("epoch", .str "1"), ("target", .str "zz")])

/-- The epoch in front of it has changed. -/
theorem epoch_changes_before_target :
    let x : Session := { start := 0, lastTxStamp := 0 }
    badTarget.program.exec x =
        (.error (.exception .badHexCharacter), { x with firstMiningSet := true, epoch := 1 }) := by
  decide +kernel

end CoreMiner.Stratum
