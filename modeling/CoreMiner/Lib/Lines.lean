/-
  CoreMiner.Lib.Lines — cutting a sequence at a delimiter, and what survives when the
  sequence arrives in pieces: `lines` are the complete lines, `rest` what follows the last
  delimiter. Cutting `x ++ y` is cutting `x`, and then `y` behind the rest of `x`.
-/

import Mathlib.Algebra.GroupWithZero.Nat
import Mathlib.Data.List.Basic

namespace CoreMiner.Lib.Lines

variable {α : Type} [DecidableEq α]

def cut (d : α) : List α → List (List α) × List α
  | [] => ([], [])
  | c :: l =>
    if c = d then ([] :: (cut d l).1, (cut d l).2)
    else match cut d l with
      | ([], rest) => ([], c :: rest)
      | (line :: lines, rest) => ((c :: line) :: lines, rest)

def lines (d : α) (l : List α) : List (List α) := (cut d l).1

def rest (d : α) (l : List α) : List α := (cut d l).2

@[simp] theorem lines_nil (d : α) : lines d [] = [] := rfl

@[simp] theorem rest_nil (d : α) : rest d [] = [] := rfl

theorem cut_cons_delim (d : α) (l : List α) : cut d (d :: l) = ([] :: lines d l, rest d l) := by
  simp [cut, lines, rest]

theorem cut_of_not_mem {d : α} {l : List α} (h : d ∉ l) : cut d l = ([], l) := by
  induction l with
  | nil => rfl
  | cons c l ih =>
    rw [List.mem_cons, not_or] at h
    rw [cut, if_neg (Ne.symm h.1), ih h.2]

theorem cut_append_cons {d : α} {x : List α} (h : d ∉ x) (y : List α) :
    cut d (x ++ d :: y) = (x :: lines d y, rest d y) := by
  induction x with
  | nil => exact cut_cons_delim d y
  | cons c x ih =>
    rw [List.mem_cons, not_or] at h
    rw [List.cons_append, cut, if_neg (Ne.symm h.1), ih h.2]

theorem cut_append (d : α) (x y : List α) :
    cut d (x ++ y) = (lines d x ++ lines d (rest d x ++ y), rest d (rest d x ++ y)) := by
  induction x with
  | nil => rfl
  | cons c x ih =>
    rw [List.cons_append, cut]
    by_cases hc : c = d
    · subst hc
      have hl : lines c (c :: x) = [] :: lines c x := congrArg Prod.fst (cut_cons_delim c x)
      have hr : rest c (c :: x) = rest c x := by rw [rest, cut_cons_delim]
      rw [if_pos rfl, ih, hl, hr, List.cons_append]
    · rw [if_neg hc, ih]
      have hx : cut d (c :: x) = match cut d x with
          | ([], rest) => ([], c :: rest)
          | (line :: lines, rest) => ((c :: line) :: lines, rest) := by rw [cut, if_neg hc]
      -- Without a complete line in `x`, its first one ends in `y`.
      rcases hcut : cut d x with ⟨_ | ⟨line, ls⟩, r⟩
      · simp only [lines, rest, hcut, List.nil_append, List.cons_append, cut, if_neg hc]
      · rw [hcut] at hx
        simp only [lines, rest, hcut, hx, List.cons_append]

theorem lines_append (d : α) (x y : List α) : lines d (x ++ y) = lines d x ++ lines d (rest d x ++ y) :=
  congrArg Prod.fst (cut_append d x y)

theorem rest_append (d : α) (x y : List α) : rest d (x ++ y) = rest d (rest d x ++ y) := by
  rw [rest, cut_append]

theorem not_mem_rest (d : α) (l : List α) : d ∉ rest d l := by
  induction l with
  | nil => exact List.not_mem_nil
  | cons c l ih =>
    simp only [rest, cut] at ih ⊢
    split
    · exact ih
    · rename_i hc
      rcases hcut : cut d l with ⟨_ | ⟨line, ls⟩, r⟩
      · rw [hcut] at ih
        simpa [Ne.symm hc] using ih
      · rw [hcut] at ih
        exact ih

/-- The rest is what the lines and their delimiters leave. -/
theorem drop_lines (d : α) (l : List α) : l.drop ((lines d l).map (·.length + 1)).sum = rest d l := by
  induction l with
  | nil => rfl
  | cons c l ih =>
    simp only [lines, rest, cut] at ih ⊢
    split
    · simpa [Nat.add_comm 1] using ih
    · rcases hcut : cut d l with ⟨_ | ⟨line, ls⟩, r⟩
      · rw [hcut] at ih
        simpa using ih
      · rw [hcut] at ih
        simpa [Nat.add_right_comm _ 1] using ih

/-! ## In pieces -/

/-- The lines each piece completes, behind what was left before. -/
def groups (d : α) (left : List α) : List (List α) → List (List (List α))
  | [] => []
  | x :: xs => lines d (left ++ x) :: groups d (rest d (left ++ x)) xs

/-- Together they are the lines of the whole. -/
theorem flatten_groups (d : α) {left : List α} (hleft : d ∉ left) (xs : List (List α)) :
    (groups d left xs).flatten = lines d (left ++ xs.flatten) := by
  induction xs generalizing left with
  | nil => simp [groups, lines, cut_of_not_mem hleft]
  | cons x xs ih =>
    rw [groups, List.flatten_cons, ih (not_mem_rest d _), List.flatten_cons, ← List.append_assoc, ← lines_append]

theorem lines_eq_cons {d : α} {x line : List α} {ls : List (List α)} (h : lines d x = line :: ls) :
    ∃ y, x = line ++ d :: y ∧ d ∉ line ∧ lines d y = ls := by
  by_cases hd : d ∈ x
  · obtain ⟨front, y, rfl, hfront⟩ := List.eq_append_cons_of_mem hd
    rw [lines, cut_append_cons hfront] at h
    cases h
    exact ⟨y, rfl, hfront, rfl⟩
  · rw [lines, cut_of_not_mem hd] at h
    cases h

/-- A division of the lines divides the sequence. -/
theorem lines_eq_append {d : α} {x : List α} {g ls : List (List α)} (h : lines d x = g ++ ls) :
    ∃ y z, x = y ++ z ∧ lines d y = g ∧ rest d y = [] ∧ lines d z = ls := by
  induction g generalizing x with
  | nil => exact ⟨[], x, rfl, rfl, rfl, h⟩
  | cons line g ih =>
    obtain ⟨x', rfl, hline, hx'⟩ := lines_eq_cons h
    obtain ⟨y, z, rfl, hy, hrest, hz⟩ := ih hx'
    have hcut := cut_append_cons hline y
    refine ⟨line ++ d :: y, z, by simp, ?_, ?_, hz⟩
    · rw [lines, hcut, hy]
    · rw [rest, hcut, hrest]

/-- Every division of the lines comes from pieces; the last piece is the rest. -/
theorem exists_groups {d : α} {x : List α} {gs : List (List (List α))} (h : gs.flatten = lines d x) :
    ∃ xs : List (List α), xs.flatten = x ∧ groups d [] xs = gs ++ [[]] := by
  induction gs generalizing x with
  | nil => exact ⟨[x], by simp, by simp [groups, ← h]⟩
  | cons g gs ih =>
    obtain ⟨y, z, rfl, hy, hrest, hz⟩ := lines_eq_append h.symm
    obtain ⟨xs, rfl, hxs⟩ := ih hz.symm
    exact ⟨y :: xs, rfl, by rw [groups, List.nil_append, hrest, hxs, hy]; rfl⟩

end CoreMiner.Lib.Lines
