/-
  CoreMiner.Lib.LineLoop — the loop that takes the complete lines off the front of a buffer.

  A receiver looks for the delimiter, handles what stands before it, erases it from the
  buffer and looks again (`IsLineLoop`). If handling a line leaves the buffer alone, the loop
  is a pass over the buffer's lines (`IsLineLoop.exec_eq`), and its fuel never runs out.
-/

import CoreMiner.Lib.Lines
import CoreMiner.Lib.Prog

namespace CoreMiner.Lib

open Prog

variable {α σ ξ : Type} [DecidableEq α]

/-- `loop` handles the lines of `buf`, which `erase` cuts off its front. -/
structure IsLineLoop (d : α) (buf : σ → List α) (erase : Nat → σ → σ) (handle : List α → Prog σ ξ Unit)
    (loop : Nat → Prog σ ξ Unit) : Prop where
  buf_erase : ∀ n s, buf (erase n s) = (buf s).drop n
  keeps : ∀ line s, wp (handle line) (fun _ t => buf t = buf s) (fun _ _ => True) s
  done : ∀ fuel s, d ∉ buf s → (loop (fuel + 1)).exec s = (.ok (), s)
  turn : ∀ fuel s offset, (buf s).findIdx? (· = d) = some offset → (loop (fuel + 1)).exec s =
    (do handle ((buf s).take offset); modify (erase (offset + 1)); loop fuel : Prog σ ξ Unit).exec s

theorem split_of_findIdx? {d : α} {l : List α} {offset : Nat} (h : l.findIdx? (· = d) = some offset) :
    l = l.take offset ++ d :: l.drop (offset + 1) ∧ d ∉ l.take offset ∧ (l.take offset).length = offset := by
  obtain ⟨hlt, hat, hbefore⟩ := List.findIdx?_eq_some_iff_getElem.mp h
  have hat' : l[offset] = d := by simpa using hat
  refine ⟨?_, ?_, ?_⟩
  · conv_lhs => rw [← List.take_append_drop offset l, List.drop_eq_getElem_cons hlt, hat']
  · intro hmem
    obtain ⟨k, hk, hck⟩ := List.mem_iff_getElem.mp hmem
    have hk' : k < offset := Nat.lt_of_lt_of_le hk (List.length_take_le offset l)
    rw [List.getElem_take] at hck
    simpa [hck] using hbefore k hk'
  · rw [List.length_take]
    omega

namespace IsLineLoop

variable {d : α} {buf : σ → List α} {erase : Nat → σ → σ} {handle : List α → Prog σ ξ Unit}
  {loop : Nat → Prog σ ξ Unit}

theorem exec_eq (h : IsLineLoop d buf erase handle loop) {fuel : Nat} {s : σ} (hfuel : (buf s).length < fuel) :
    (loop fuel).exec s =
      (forM (Lines.lines d (buf s)) fun line => do handle line; modify (erase (line.length + 1))).exec s := by
  induction fuel generalizing s with
  | zero => omega
  | succ fuel ih =>
    cases hfind : (buf s).findIdx? (· = d) with
    | none =>
      have hno : d ∉ buf s := by
        intro hmem
        simpa using List.findIdx?_eq_none_iff.mp hfind d hmem
      rw [h.done fuel s hno, Lines.lines, Lines.cut_of_not_mem hno]
      rfl
    | some offset =>
      obtain ⟨hsplit, hnot, hlen⟩ := split_of_findIdx? hfind
      have hlines : Lines.lines d (buf s) = (buf s).take offset :: Lines.lines d ((buf s).drop (offset + 1)) := by
        conv_lhs => rw [Lines.lines, hsplit, Lines.cut_append_cons hnot]
      rw [h.turn fuel s offset hfind, hlines, List.forM_cons, hlen]
      simp only [exec_bind]
      -- Handling leaves the buffer alone, so the erased front is the line itself.
      rcases hexec : (handle ((buf s).take offset)).exec s with ⟨x | _, t⟩
      · rfl
      · have hkept := h.keeps ((buf s).take offset) s
        rw [wp, hexec] at hkept
        have hrest : buf (erase (offset + 1) t) = (buf s).drop (offset + 1) := by rw [h.buf_erase, hkept]
        have hshort : (buf (erase (offset + 1) t)).length < fuel := by
          rw [hrest, List.length_drop]
          have : 0 < (buf s).length := List.length_pos_of_ne_nil (by rw [hsplit]; simp)
          omega
        simp only [exec_modify]
        rw [ih hshort, hrest]

end IsLineLoop

end CoreMiner.Lib
