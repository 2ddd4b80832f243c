/-
  CoreMiner.Getwork.Verdicts — the miners that a node's verdicts can name
  (`XcbGetworkClient.cpp`: `processResponse`, `submitSolution`).

  The client takes the index of a verdict from the request that is pending, whatever id the
  response carries, so it names a miner that has submitted. As long as only miners below `n`
  submit, no verdict is above it (`Fired.bills`): the bound on the ids, which nothing
  initialises, does not matter. The sum of an id wraps around; the index it gives is then too
  small, never too large.
-/

import CoreMiner.Getwork.Replies

namespace CoreMiner.Getwork

open DevCore EthCore Lib Prog
open Stratum (Stop raise wp_raise Uri)

variable {E : Env} {s t : St} {n : Nat}

def Request.within (n : Nat) : Request → Bool
  | submitSolution solution => solution.midx < n
  | _ => true

/-- The solutions that wait, and the one that is pending, are of the first `n` miners. -/
structure Within (n : Nat) (s : St) : Prop where
  queue : ∀ req ∈ s.txQueue, req.within n = true
  pending : ∀ req, s.pending = some req → req.within n = true

def Bills (n : Nat) (s t : St) : Prop :=
  Within n s → Within n t ∧ ∃ new, t.log = new ++ s.log ∧ ∀ o ∈ new, ∀ i, Out.verdictOn o = some i → i < n

namespace Bills

theorem of_log (hq : ∀ req ∈ t.txQueue, req ∈ s.txQueue) (hp : t.pending = s.pending) (new : List Out)
    (hlog : t.log = new ++ s.log) (hnew : ∀ o ∈ new, Out.verdictOn o = none) : Bills n s t := fun h =>
  ⟨⟨fun req hreq => h.queue req (hq req hreq), fun req hreq => h.pending req (hp ▸ hreq)⟩,
    new, hlog, fun o ho i hi => by simp [hnew o ho] at hi⟩

theorem of_same (hq : t.txQueue = s.txQueue) (hp : t.pending = s.pending) (hlog : t.log = s.log) : Bills n s t :=
  of_log (fun _ => hq ▸ id) hp [] hlog (by simp)

theorem refl (s : St) : Bills n s s := of_same rfl rfl rfl

theorem trans (s t u : St) (h : Bills n s t) (h' : Bills n t u) : Bills n s u := by
  intro hs
  obtain ⟨ht, x, hx, hxi⟩ := h hs
  obtain ⟨hu, y, hy, hyi⟩ := h' ht
  refine ⟨hu, y ++ x, by rw [hy, hx, List.append_assoc], fun o ho => ?_⟩
  exact (List.mem_append.mp ho).elim (hyi o) (hxi o)

theorem gone (s : St) : Bills n s s.gone :=
  of_log (by simp [St.gone]) rfl [.onDisconnected] rfl (by simp [Out.verdictOn])

/-- The pending request is the one that is answered. -/
theorem verdict {o : Out} {id : Nat} (hid : pendingId s.pending = .ok id) (h40 : 40 ≤ id)
    (ho : Out.verdictOn o = some (id - 40)) : Bills n s { s with log := o :: s.log } := by
  intro h
  refine ⟨{ h with }, [o], rfl, fun o' ho' i hi => ?_⟩
  obtain rfl := List.mem_singleton.mp ho'
  cases ho.symm.trans hi
  rw [pendingId_eq] at hid
  cases hid
  rcases hp : s.pending with _ | _ | _ | solution
  case some.submitSolution =>
    have hmidx : solution.midx < n := by simpa [Request.within] using h.pending _ hp
    have hle : Request.solutionId solution ≤ 40 + solution.midx := Nat.mod_le ..
    simp only [hp, requestId] at h40 ⊢
    omega
  all_goals simp [hp, requestId] at h40

theorem welcomed (s : St) : Bills n s s.welcomed := by
  unfold St.welcomed
  split
  · exact .of_log (fun _ => id) rfl [.onConnected] rfl (by simp [Out.verdictOn])
  · exact .refl s

theorem queued {req : Request} (hreq : req.within n = true) : Bills n s (s.queued req) := by
  refine fun h => ⟨⟨fun req' h' => ?_, h.pending⟩, [], rfl, by simp⟩
  rcases List.mem_append.mp h' with h' | h'
  · exact h.queue req' h'
  · exact List.mem_singleton.mp h' ▸ hreq

theorem taken {req : Request} {rest : List Request} (hq : s.txQueue = req :: rest) : Bills n s (s.taken req rest) :=
  fun h => ⟨⟨fun req' h' => h.queue req' (hq ▸ List.mem_cons_of_mem _ h'), fun req' h' => by
    cases h'
    exact h.queue req (hq ▸ List.mem_cons_self)⟩, [], rfl, by simp⟩

theorem working : Working (fun _ => True) (fun req => req.within n = true) (Bills n) where
  refl := refl
  trans := trans
  timed _ _ := of_same rfl rfl rfl
  works s wp _ := of_log (fun _ => id) rfl [.onWorkReceived wp] rfl (by simp [Out.verdictOn])
  verdict _ _ _ := verdict
  same _ _ := of_same
  gone := gone
  welcomed := welcomed
  queued _ _ := queued
  taken _ _ _ := taken

end Bills

def Ev.submits : Ev → Option Nat
  | submitSolution solution => some solution.midx
  | _ => none

/-- If only miners below `n` submit, the verdicts are on these. -/
theorem Fired.bills {e : Ev} (h : Fired E s e t) (he : ∀ i, e.submits = some i → i < n) : Bills n s t := by
  refine h.kept Bills.working rfl (fun req hreq => ?_) ?_
  · cases e <;> cases hreq
    · rfl
    · simpa [Request.within] using he _ rfl
  · cases e with
    | run => exact fun k _ _ => by unfold Handler.Carries; split <;> simp [LineCarries]
    | _ => trivial

end CoreMiner.Getwork
