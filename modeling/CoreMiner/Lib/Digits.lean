/-
  CoreMiner.Lib.Digits — numerals: a list of digits, the most significant one first, and
  the number it denotes in base `b`.
-/

import Mathlib.Tactic.Ring

namespace CoreMiner.Lib.Digits

def value (b : Nat) (l : List Nat) : Nat := l.foldl (fun a d => a * b + d) 0

@[simp] theorem value_nil (b : Nat) : value b [] = 0 := rfl

theorem foldl_value (b : Nat) (l : List Nat) (a : Nat) :
    l.foldl (fun a d => a * b + d) a = a * b ^ l.length + value b l := by
  induction l generalizing a with
  | nil => simp
  | cons d l ih =>
    have hd : value b (d :: l) = d * b ^ l.length + value b l := by
      unfold value
      rw [List.foldl_cons, ih, zero_mul, zero_add]
      rfl
    rw [List.foldl_cons, ih, hd, List.length_cons]
    ring

theorem value_cons (b d : Nat) (l : List Nat) : value b (d :: l) = d * b ^ l.length + value b l := by
  unfold value
  rw [List.foldl_cons, foldl_value, zero_mul, zero_add]
  rfl

theorem value_append (b : Nat) (x y : List Nat) : value b (x ++ y) = value b x * b ^ y.length + value b y := by
  unfold value
  rw [List.foldl_append, foldl_value]
  rfl

@[simp] theorem value_zeros (b k : Nat) : value b (List.replicate k 0) = 0 := by
  induction k with
  | zero => rfl
  | succ k ih => rw [List.replicate_succ, value_cons, ih, zero_mul]

theorem value_lt {b : Nat} {l : List Nat} (h : ∀ d ∈ l, d < b) : value b l < b ^ l.length := by
  induction l with
  | nil => simp
  | cons d l ih =>
    have hd := h d (by simp)
    have hl := ih fun x hx => h x (by simp [hx])
    calc value b (d :: l) = d * b ^ l.length + value b l := value_cons b d l
      _ < d * b ^ l.length + b ^ l.length := by omega
      _ = (d + 1) * b ^ l.length := by ring
      _ ≤ b * b ^ l.length := Nat.mul_le_mul_right _ hd
      _ = b ^ (d :: l).length := by rw [List.length_cons, pow_succ, mul_comm]

/-- Cutting the first `k` digits off keeps the number's remainder. -/
theorem value_drop {b : Nat} {l : List Nat} (h : ∀ d ∈ l, d < b) (k : Nat) :
    value b (l.drop k) = value b l % b ^ (l.length - k) := by
  have hs : value b l = value b (l.take k) * b ^ (l.drop k).length + value b (l.drop k) := by
    rw [← value_append, List.take_append_drop]
  have hlt : value b (l.drop k) < b ^ (l.drop k).length := value_lt fun d hd => h d (List.mem_of_mem_drop hd)
  rw [← List.length_drop, hs, Nat.mul_add_mod', Nat.mod_eq_of_lt hlt]

/-- Numerals of one length are ordered by their first digit, then by the rest. -/
theorem value_cons_lt_iff {b x y : Nat} {l m : List Nat} (hl : ∀ d ∈ l, d < b) (hm : ∀ d ∈ m, d < b)
    (hlen : l.length = m.length) :
    value b (x :: l) < value b (y :: m) ↔ x < y ∨ x = y ∧ value b l < value b m := by
  have hl := value_lt hl
  have hm := value_lt hm
  rw [value_cons, value_cons, hlen] at *
  rcases Nat.lt_trichotomy x y with hxy | rfl | hxy
  · have hstep : (x + 1) * b ^ m.length ≤ y * b ^ m.length := Nat.mul_le_mul_right _ hxy
    rw [Nat.succ_mul] at hstep
    simp only [hxy, true_or, iff_true]
    omega
  · simp
  · have hstep : (y + 1) * b ^ m.length ≤ x * b ^ m.length := Nat.mul_le_mul_right _ hxy
    rw [Nat.succ_mul] at hstep
    constructor <;> intro h <;> omega

/-- The digits of a numeral, the least significant one first. -/
theorem map_div_value_reverse {b : Nat} {l : List Nat} (h : ∀ d ∈ l, d < b) :
    (List.range l.length).map (fun i => value b l.reverse / b ^ i % b) = l := by
  induction l with
  | nil => rfl
  | cons d l ih =>
    have hd : d < b := h d List.mem_cons_self
    have hvalue : value b (d :: l).reverse = value b l.reverse * b + d := by
      rw [List.reverse_cons, value_append, List.length_singleton, pow_one, value_cons]
      simp
    have hfirst : value b (d :: l).reverse % b = d := by
      rw [hvalue, Nat.mul_add_mod', Nat.mod_eq_of_lt hd]
    have hrest (i : Nat) : value b (d :: l).reverse / b ^ (i + 1) = value b l.reverse / b ^ i := by
      rw [pow_succ', ← Nat.div_div_eq_div_mul, hvalue, Nat.mul_comm, Nat.mul_add_div (by omega), Nat.div_eq_of_lt hd,
        Nat.add_zero]
    rw [List.length_cons, List.range_succ_eq_map, List.map_cons, List.map_map, pow_zero, Nat.div_one, hfirst]
    simp only [Function.comp_def, Nat.succ_eq_add_one, hrest]
    rw [ih fun x hx => h x (List.mem_cons_of_mem _ hx)]

/-- A numeral of a given length is read off its value. -/
theorem value_inj {b : Nat} {l m : List Nat} (hl : ∀ d ∈ l, d < b) (hm : ∀ d ∈ m, d < b)
    (hlen : l.length = m.length) (h : value b l = value b m) : l = m := by
  have hback := map_div_value_reverse (l := l.reverse) fun d hd => hl d (List.mem_reverse.mp hd)
  have hback' := map_div_value_reverse (l := m.reverse) fun d hd => hm d (List.mem_reverse.mp hd)
  rw [List.length_reverse, List.reverse_reverse] at hback hback'
  rw [h, hlen, hback'] at hback
  exact (List.reverse_inj.mp hback).symm

end CoreMiner.Lib.Digits
