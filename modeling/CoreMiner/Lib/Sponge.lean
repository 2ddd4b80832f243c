/-
  CoreMiner.Lib.Sponge — the sponge over any state: absorbing a message block by block, and
  squeezing symbols out.

  Taking the symbols in one at a time, with a buffer that is absorbed when it is full, absorbs the
  blocks of the message (`foldl_push`). A sponge over symbols that stand for strings of the same
  length over another alphabet is the sponge over those strings (`absorb_map`, `squeeze_map`).
-/

import Mathlib.Data.List.Basic
import Mathlib.Logic.Function.Iterate

namespace CoreMiner.Lib.Sponge

section

variable {S β : Type*} (f : S → S) (add : List β → S → S) (out : S → List β) (r : Nat)

/-- The state after the blocks of `r` symbols of the message, `k` of them. -/
def absorb : Nat → S → List β → S
  | 0, s, _ => s
  | k + 1, s, l => absorb k (f (add (l.take r) s)) (l.drop r)

/-- What is read of the state and of the `n` states that follow it, `r` symbols each. -/
def squeeze : Nat → S → List β
  | 0, s => (out s).take r
  | n + 1, s => (out s).take r ++ squeeze n (f s)

/-- One symbol more, behind those that wait for their block. -/
def push (p : S × List β) (b : β) : S × List β :=
  if p.2.length + 1 = r then (f (add (p.2 ++ [b]) p.1), []) else (p.1, p.2 ++ [b])

variable {f add out r}

theorem foldl_push_wait (s : S) : ∀ (l buf : List β), buf.length + l.length < r →
    l.foldl (push f add r) (s, buf) = (s, buf ++ l)
  | [], buf, _ => by simp
  | b :: l, buf, h => by
    have hlen : buf.length + 1 + l.length < r := by simp only [List.length_cons] at h; omega
    have hstep : push f add r (s, buf) b = (s, buf ++ [b]) := if_neg (by simp only; omega)
    rw [List.foldl_cons, hstep, foldl_push_wait s l (buf ++ [b]) (by simpa using hlen), List.append_assoc]
    rfl

theorem foldl_push_block (s : S) (buf l : List β) (h : buf.length + l.length = r) (hl : l ≠ []) :
    l.foldl (push f add r) (s, buf) = (f (add (buf ++ l) s), []) := by
  obtain ⟨l, b, rfl⟩ := List.eq_nil_or_concat l |>.resolve_left hl
  simp only [List.concat_eq_append, List.length_append, List.length_singleton] at h
  rw [List.concat_eq_append, List.foldl_append, foldl_push_wait s l buf (by omega)]
  simp only [List.foldl_cons, List.foldl_nil, push, List.length_append, List.append_assoc]
  exact if_pos (by omega)

theorem foldl_push (hr : 0 < r) (k : Nat) : ∀ (s : S) (l : List β), l.length = k * r →
    l.foldl (push f add r) (s, []) = (absorb f add r k s l, []) := by
  induction k with
  | zero =>
    intro s l h
    obtain rfl : l = [] := List.length_eq_zero_iff.mp (by omega)
    rfl
  | succ k ih =>
    intro s l h
    have hle : r ≤ l.length := by rw [h, Nat.succ_mul]; omega
    have hblock : (l.take r).length = r := by simp [hle]
    have hne : l.take r ≠ [] := by
      intro hnil
      rw [hnil] at hblock
      simp only [List.length_nil] at hblock
      omega
    have hrest : (l.drop r).length = k * r := by rw [List.length_drop, h, Nat.succ_mul]; omega
    rw [← List.take_append_drop r l, List.foldl_append,
      foldl_push_block s [] (l.take r) (by simpa using hblock) hne, ih _ _ hrest, List.take_append_drop]
    rfl

theorem length_foldl_push (hr : 0 < r) (s : S) (l : List β) :
    (l.foldl (push f add r) (s, [])).2.length = l.length % r := by
  have hblocks : (l.take (l.length / r * r)).length = l.length / r * r := by
    rw [List.length_take]
    exact Nat.min_eq_left (Nat.div_mul_le_self _ _)
  have hmod := Nat.div_add_mod l.length r
  have hlt := Nat.mod_lt l.length hr
  have hrest : (l.drop (l.length / r * r)).length = l.length % r := by
    rw [List.length_drop, Nat.mul_comm]
    omega
  conv_lhs => rw [← List.take_append_drop (l.length / r * r) l]
  rw [List.foldl_append, foldl_push hr _ s _ hblocks, foldl_push_wait _ _ [] (by simp [hrest, hlt])]
  simpa using hrest

/-- How many states are squeezed does not matter, if they are enough. -/
theorem take_squeeze (hout : ∀ s, r ≤ (out s).length) {d : Nat} (n : Nat) :
    ∀ (m : Nat) (s : S), d ≤ (n + 1) * r → d ≤ (m + 1) * r →
      (squeeze f out r n s).take d = (squeeze f out r m s).take d := by
  induction n generalizing d with
  | zero =>
    intro m s hn _
    have hlen : ((out s).take r).length = r := by simp [hout s]
    cases m with
    | zero => rfl
    | succ m =>
      rw [squeeze, squeeze, List.take_append_of_le_length (by rw [hlen]; omega)]
  | succ n ih =>
    intro m s hn hm
    have hlen : ((out s).take r).length = r := by simp [hout s]
    cases m with
    | zero =>
      rw [squeeze, squeeze, List.take_append_of_le_length (by rw [hlen]; omega)]
    | succ m =>
      have hrest : d - r ≤ (n + 1) * r ∧ d - r ≤ (m + 1) * r := by
        simp only [Nat.succ_mul] at hn hm ⊢
        omega
      rw [squeeze, squeeze, List.take_append, List.take_append, hlen, ih m (f s) hrest.1 hrest.2]

end

section

variable {S T β γ : Type*} {f : S → S} {f' : T → T} {add : List β → S → S} {add' : List γ → T → T}
  {out : S → List β} {out' : T → List γ} {e : β → List γ} {m : Nat} {φ : S → T}

theorem length_flatMap_symbols (he : ∀ b, (e b).length = m) (l : List β) : (l.flatMap e).length = m * l.length := by
  simp [List.length_flatMap, he, Nat.mul_comm]

theorem take_flatMap_symbols (he : ∀ b, (e b).length = m) :
    ∀ (r : Nat) (l : List β), (l.take r).flatMap e = (l.flatMap e).take (m * r)
  | 0, l => by simp
  | r + 1, [] => by simp
  | r + 1, b :: l => by
    have hsplit : m * (r + 1) = (e b).length + m * r := by rw [he, Nat.mul_succ, Nat.add_comm]
    rw [List.take_succ_cons, List.flatMap_cons, List.flatMap_cons, hsplit, List.take_length_add_append,
      take_flatMap_symbols he r l]

theorem drop_flatMap_symbols (he : ∀ b, (e b).length = m) :
    ∀ (r : Nat) (l : List β), (l.drop r).flatMap e = (l.flatMap e).drop (m * r)
  | 0, l => by simp
  | r + 1, [] => by simp
  | r + 1, b :: l => by
    have hsplit : m * (r + 1) = (e b).length + m * r := by rw [he, Nat.mul_succ, Nat.add_comm]
    rw [List.drop_succ_cons, List.flatMap_cons, hsplit, List.drop_length_add_append, drop_flatMap_symbols he r l]

theorem absorb_map (he : ∀ b, (e b).length = m) (hf : ∀ s, φ (f s) = f' (φ s))
    (hadd : ∀ l s, φ (add l s) = add' (l.flatMap e) (φ s)) (r k : Nat) :
    ∀ (s : S) (l : List β), φ (absorb f add r k s l) = absorb f' add' (m * r) k (φ s) (l.flatMap e) := by
  induction k with
  | zero => intro s l; rfl
  | succ k ih =>
    intro s l
    rw [absorb, absorb, ih, hf, hadd, take_flatMap_symbols he, drop_flatMap_symbols he]

theorem squeeze_map (he : ∀ b, (e b).length = m) (hf : ∀ s, φ (f s) = f' (φ s))
    (hout : ∀ s, (out s).flatMap e = out' (φ s)) (r n : Nat) :
    ∀ s : S, (squeeze f out r n s).flatMap e = squeeze f' out' (m * r) n (φ s) := by
  induction n with
  | zero => intro s; rw [squeeze, squeeze, take_flatMap_symbols he, hout]
  | succ n ih =>
    intro s
    rw [squeeze, squeeze, List.flatMap_append, take_flatMap_symbols he, hout, ih, hf]

end

end CoreMiner.Lib.Sponge
