/-
  CoreMiner.Lib.Tiles — ranges of natural numbers, by their first element and their size, that
  follow each other without a gap and without an overlap.

  Being a tiling is a matter of each range and the next one only. That the ranges have no element
  in common and together all elements between the ends follows (`Tiles.disjoint`, `Tiles.union`).
-/

import Mathlib.Data.List.Chain
import Mathlib.Order.CompletePartialOrder
import Mathlib.Order.Interval.Set.Disjoint

namespace CoreMiner.Lib

def points (r : Nat × Nat) : Set Nat := Set.Ico r.1 (r.1 + r.2)

/-- The ranges tile the numbers from the start on, up to the end `b`. -/
inductive Tiles (b : Nat) : Nat → List (Nat × Nat) → Prop
  | done : Tiles b b []
  | range {a : Nat} (count : Nat) {l : List (Nat × Nat)} : Tiles b (a + count) l → Tiles b a ((a, count) :: l)

namespace Tiles

variable {a b : Nat} {l : List (Nat × Nat)}

theorem le (h : Tiles b a l) : a ≤ b := by
  induction h with
  | done => exact Nat.le_refl b
  | range count _ ih => omega

theorem mem_le (h : Tiles b a l) : ∀ r ∈ l, r.1 + r.2 ≤ b := by
  induction h with
  | done => simp
  | range count h ih => exact List.forall_mem_cons.mpr ⟨h.le, ih⟩

theorem head (h : Tiles b a l) : ∀ r ∈ l.head?, r.1 = a := by
  cases h with
  | done => simp
  | range count _ => simp

theorem snoc (h : Tiles b a l) (count : Nat) : Tiles (b + count) a (l ++ [(b, count)]) := by
  induction h with
  | done => exact .range count .done
  | range n _ ih => exact .range n ih

theorem isChain (h : Tiles b a l) : l.IsChain fun r q => r.1 + r.2 = q.1 := by
  induction h with
  | done => exact .nil
  | range count h ih => exact List.isChain_cons.mpr ⟨fun q hq => (h.head q hq).symm, ih⟩

theorem union (h : Tiles b a l) : ⋃ r ∈ l, points r = Set.Ico a b := by
  induction h with
  | done => simp
  | range count h ih =>
    have hle := h.le
    simp only [List.mem_cons, Set.iUnion_iUnion_eq_or_left, ih]
    exact Set.Ico_union_Ico_eq_Ico (Nat.le_add_right _ _) hle

theorem disjoint (h : Tiles b a l) : l.Pairwise fun r q => Disjoint (points r) (points q) := by
  induction h with
  | done => exact .nil
  | range count h ih =>
    refine .cons (fun q hq => ?_) ih
    -- What is behind the first range starts at its end or later.
    have hq : points q ⊆ Set.Ico _ b := h.union ▸ Set.subset_biUnion_of_mem (u := points) hq
    exact Set.Ico_disjoint_Ico_same.mono_right hq

end Tiles

end CoreMiner.Lib
