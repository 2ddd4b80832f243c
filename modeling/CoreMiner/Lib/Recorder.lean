/-
  CoreMiner.Lib.Recorder — programs that make notes.

  To say which calls a program makes, and with what, the program is written once more over a
  state with a list of notes: the same text, with a `note` in front of each call. That it is the
  same text is `Erases`: whatever the notes, it ends as the program itself does and leaves the
  same state. The rules follow the text.
-/

import CoreMiner.Lib.Prog

namespace CoreMiner.Lib

open Prog

variable {σ γ ξ α β : Type}

structure Recorded (σ γ : Type) where
  st : σ
  notes : List γ

def note (c : γ) : Prog (Recorded σ γ) ξ Unit := modify fun r => { r with notes := r.notes ++ [c] }

def unnoted (m : Prog σ ξ α) : Prog (Recorded σ γ) ξ α := zoom Recorded.st (fun t r => { r with st := t }) m

@[simp] theorem wp_note {c : γ} {Q : Unit → Recorded σ γ → Prop} {X : ξ → Recorded σ γ → Prop} {r : Recorded σ γ} :
    wp (note c) Q X r ↔ Q () { r with notes := r.notes ++ [c] } := Iff.rfl

@[simp] theorem wp_unnoted {m : Prog σ ξ α} {Q : α → Recorded σ γ → Prop} {X : ξ → Recorded σ γ → Prop}
    {r : Recorded σ γ} :
    wp (unnoted m) Q X r ↔ wp m (fun a t => Q a { r with st := t }) (fun x t => X x { r with st := t }) r.st := wp_zoom

theorem unnoted_notes (m : Prog σ ξ α) (r : Recorded σ γ) :
    wp (unnoted m) (fun _ r' => r'.notes = r.notes) (fun _ r' => r'.notes = r.notes) r :=
  wp_unnoted.mpr (wp_iff_exec.mpr ⟨fun _ _ _ => rfl, fun _ _ _ => rfl⟩)

/-- Without its notes `n` is `m`. -/
structure Erases (n : Prog (Recorded σ γ) ξ α) (m : Prog σ ξ α) : Prop where
  ends : ∀ r, (n.exec r).1 = (m.exec r.st).1
  leaves : ∀ r, (n.exec r).2.st = (m.exec r.st).2

theorem Erases.pure (a : α) : Erases (pure a : Prog (Recorded σ γ) ξ α) (pure a) := ⟨fun _ => rfl, fun _ => rfl⟩

theorem Erases.unnoted (m : Prog σ ξ α) : Erases (unnoted m : Prog (Recorded σ γ) ξ α) m :=
  ⟨fun r => congrArg Prod.fst (exec_zoom _ _ m r),
    fun r => congrArg (Recorded.st ∘ Prod.snd) (exec_zoom _ _ m r)⟩

theorem Erases.bind {n : Prog (Recorded σ γ) ξ α} {m : Prog σ ξ α} {k : α → Prog (Recorded σ γ) ξ β}
    {f : α → Prog σ ξ β} (h : Erases n m) (hk : ∀ a, Erases (k a) (f a)) : Erases (n >>= k) (m >>= f) := by
  have hboth : ∀ r, ((n >>= k).exec r).1 = ((m >>= f).exec r.st).1 ∧
      ((n >>= k).exec r).2.st = ((m >>= f).exec r.st).2 := by
    intro r
    have hends := h.ends r
    have hleaves := h.leaves r
    rw [exec_bind, exec_bind]
    rcases hn : n.exec r with ⟨x | a, r'⟩ <;> rcases hm : m.exec r.st with ⟨y | b, t⟩
    · rw [hn, hm] at hends hleaves
      exact ⟨congrArg _ (Except.error.inj hends), hleaves⟩
    · rw [hn, hm] at hends
      cases hends
    · rw [hn, hm] at hends
      cases hends
    · rw [hn, hm] at hends hleaves
      cases hends
      cases hleaves
      exact ⟨(hk _).ends r', (hk _).leaves r'⟩
  exact ⟨fun r => (hboth r).1, fun r => (hboth r).2⟩

theorem Erases.note_bind {c : γ} {n : Unit → Prog (Recorded σ γ) ξ α} {m : Prog σ ξ α} (h : Erases (n ()) m) :
    Erases (note c >>= n) m :=
  ⟨fun r => h.ends { r with notes := r.notes ++ [c] }, fun r => h.leaves { r with notes := r.notes ++ [c] }⟩

theorem Erases.get_bind {n : Recorded σ γ → Prog (Recorded σ γ) ξ α} {f : σ → Prog σ ξ α}
    (h : ∀ r, Erases (n r) (f r.st)) : Erases (get >>= n) (get >>= f) :=
      ⟨fun r => (h r).ends r, fun r => (h r).leaves r⟩

theorem Erases.modify {k : Recorded σ γ → Recorded σ γ} {f : σ → σ} (h : ∀ r, (k r).st = f r.st) :
    Erases (modify k : Prog (Recorded σ γ) ξ PUnit) (modify f) := ⟨fun _ => rfl, h⟩

theorem Erases.when {p : Prop} [Decidable p] {n : Prog (Recorded σ γ) ξ Unit} {m : Prog σ ξ Unit} (h : Erases n m) :
    Erases (when p n) (when p m) := by
  unfold Prog.when
  split
  · exact h
  · exact .pure ()

/-- What the notes do not show can be said of either. -/
theorem Erases.wp_iff {n : Prog (Recorded σ γ) ξ α} {m : Prog σ ξ α} (h : Erases n m) {Q : α → σ → Prop}
    {X : ξ → σ → Prop} {r : Recorded σ γ} : wp n (fun a r => Q a r.st) (fun x r => X x r.st) r ↔ wp m Q X r.st := by
  have hends := h.ends r
  have hleaves := h.leaves r
  unfold wp
  rcases hn : n.exec r with ⟨x | a, r'⟩ <;> rcases hm : m.exec r.st with ⟨y | b, t⟩ <;>
    rw [hn, hm] at hends hleaves <;> cases hends <;> cases hleaves <;> rfl

end CoreMiner.Lib
