/-
  CoreMiner.Lib.Text — cutting a text at the last occurrence of a character, and replacing
  every occurrence of a phrase.

  A phrase between two quotation marks occurs where two consecutive marks enclose it. In a
  text of quoted parts with single characters between them, replacing it changes the parts
  equal to it (`replaceAll_joined`). Exchanging the parts for tokens by a dictionary and back
  again gives the parts (`restore_tokens`), however many they are, as long as none of them is
  the token of an entry before its own.
-/

import Mathlib.Data.List.Basic

namespace CoreMiner.Lib.Text

variable {α : Type} [DecidableEq α]

/-! ## The last occurrence -/

/-- What is before and what is behind the last `c`. -/
def splitLast (c : α) : List α → Option (List α × List α)
  | [] => none
  | x :: s => match splitLast c s with
    | some (a, b) => some (x :: a, b)
    | none => if x = c then some ([], s) else none

theorem splitLast_of_not_mem {c : α} {s : List α} (h : c ∉ s) : splitLast c s = none := by
  induction s with
  | nil => rfl
  | cons x s ih =>
    rw [List.mem_cons, not_or] at h
    rw [splitLast, ih h.2]
    exact if_neg (Ne.symm h.1)

theorem splitLast_append_cons {c : α} {b : List α} (h : c ∉ b) (a : List α) :
    splitLast c (a ++ c :: b) = some (a, b) := by
  induction a with
  | nil => rw [List.nil_append, splitLast, splitLast_of_not_mem h]; exact if_pos rfl
  | cons x a ih => rw [List.cons_append, splitLast, ih]

/-! ## Replacing -/

def replaceFrom (search format : List α) : Nat → List α → List α
  | _, [] => []
  | skip + 1, _ :: s => replaceFrom search format skip s
  | 0, x :: s =>
    if search <+: x :: s then format ++ replaceFrom search format (search.length - 1) s
    else x :: replaceFrom search format 0 s

/-- Every occurrence of `search`, from the left and without overlaps, is exchanged for `format`. -/
def replaceAll (search format s : List α) : List α := replaceFrom search format 0 s

theorem replaceFrom_length (search format a b : List α) :
    replaceFrom search format a.length (a ++ b) = replaceFrom search format 0 b := by
  induction a with
  | nil => rfl
  | cons x a ih => rw [List.length_cons, List.cons_append, replaceFrom, ih]

section phrase

variable {q : α} {phrase format : List α}

/-- Nothing is found before the first mark. -/
theorem replaceAll_append_of_not_mem {a : List α} (h : q ∉ a) (b : List α) :
    replaceAll (q :: phrase) format (a ++ b) = a ++ replaceAll (q :: phrase) format b := by
  induction a with
  | nil => rfl
  | cons x a ih =>
    rw [List.mem_cons, not_or] at h
    have hno : ¬ (q :: phrase) <+: x :: (a ++ b) := by
      rw [List.cons_prefix_cons]
      exact fun hp => h.1 hp.1
    rw [List.cons_append, replaceAll, replaceFrom, if_neg hno]
    exact congrArg (x :: ·) (ih h.2)

theorem replaceAll_of_not_mem {a : List α} (h : q ∉ a) : replaceAll (q :: phrase) format a = a := by
  have : replaceAll (q :: phrase) format (a ++ []) = a ++ replaceAll (q :: phrase) format [] :=
    replaceAll_append_of_not_mem h []
  rwa [List.append_nil, replaceAll, replaceAll, replaceFrom, List.append_nil] at this

omit [DecidableEq α] in
/-- Between two marks, the phrase is all or nothing. -/
theorem concat_prefix_iff {v a : List α} (hv : q ∉ v) (ha : q ∉ a) (b : List α) :
    (v ++ [q] <+: a ++ q :: b) ↔ a = v := by
  induction v generalizing a with
  | nil =>
    cases a with
    | nil => simp
    | cons x a =>
      rw [List.mem_cons, not_or] at ha
      simp [ha.1]
  | cons y v ih =>
    rw [List.mem_cons, not_or] at hv
    cases a with
    | nil => simp [Ne.symm hv.1]
    | cons x a =>
      rw [List.mem_cons, not_or] at ha
      rw [List.cons_append, List.cons_append, List.cons_prefix_cons, ih hv.2 ha.2, List.cons.injEq]
      exact and_congr_left fun _ => eq_comm

theorem replaceAll_found {v : List α} (hv : q ∉ v) (b : List α) :
    replaceAll (q :: (v ++ [q])) format (q :: (v ++ q :: b)) = format ++ replaceAll (q :: (v ++ [q])) format b := by
  have hfound : (q :: (v ++ [q])) <+: q :: (v ++ q :: b) := by
    rw [List.cons_prefix_cons]
    exact ⟨rfl, (concat_prefix_iff hv hv b).mpr rfl⟩
  have hrest : v ++ q :: b = v ++ [q] ++ b := by simp
  rw [replaceAll, replaceFrom, if_pos hfound, List.length_cons, Nat.add_sub_cancel, hrest, replaceFrom_length]
  rfl

theorem replaceAll_missed {v a : List α} (hv : q ∉ v) (ha : q ∉ a) (hne : a ≠ v) (b : List α) :
    replaceAll (q :: (v ++ [q])) format (q :: (a ++ q :: b)) =
      q :: (a ++ replaceAll (q :: (v ++ [q])) format (q :: b)) := by
  have hno : ¬ (q :: (v ++ [q])) <+: q :: (a ++ q :: b) := by
    rw [List.cons_prefix_cons, concat_prefix_iff hv ha]
    exact fun h => hne h.2
  rw [replaceAll, replaceFrom, if_neg hno]
  exact congrArg (q :: ·) (replaceAll_append_of_not_mem ha (q :: b))

theorem replaceAll_mark (v : List α) : replaceAll (q :: (v ++ [q])) format [q] = [q] := by
  have hno : ¬ (q :: (v ++ [q])) <+: [q] := fun hp => by simpa using hp.length_le
  rw [replaceAll, replaceFrom, if_neg hno, replaceFrom]

end phrase

/-! ## Quoted parts -/

def quoted (q : α) (a : List α) : List α := q :: (a ++ [q])

/-- Parts with single characters between them, each of them written by `write`. -/
def joined (write : List α → List α) (a : List α) : List (α × List α) → List α
  | [] => write a
  | (c, b) :: l => write a ++ c :: joined write b l

section joined

omit [DecidableEq α]

variable {write write' : List α → List α} {a : List α} {l : List (α × List α)}

theorem joined_append (write : List α → List α) (a b : List α) (c : α) (l l' : List (α × List α)) :
    joined write a (l ++ (c, b) :: l') = joined write a l ++ c :: joined write b l' := by
  induction l generalizing a with
  | nil => rfl
  | cons x l ih =>
    obtain ⟨d, a'⟩ := x
    rw [List.cons_append, joined, ih, joined, List.append_assoc]
    rfl

theorem joined_congr (h : ∀ x ∈ a :: l.map Prod.snd, write x = write' x) : joined write a l = joined write' a l := by
  induction l generalizing a with
  | nil => exact h a List.mem_cons_self
  | cons x l ih =>
    obtain ⟨c, b⟩ := x
    rw [joined, joined, h a List.mem_cons_self, ih fun x hx => h x (List.mem_cons_of_mem _ hx)]

theorem joined_map (write f : List α → List α) (a : List α) (l : List (α × List α)) :
    joined write (f a) (l.map fun x => (x.1, f x.2)) = joined (fun x => write (f x)) a l := by
  induction l generalizing a with
  | nil => rfl
  | cons x l ih =>
    obtain ⟨c, b⟩ := x
    rw [List.map_cons, joined, joined, ih]

theorem not_mem_joined {c : α} (hl : c ∉ l.map Prod.fst) (h : ∀ x ∈ a :: l.map Prod.snd, c ∉ write x) :
    c ∉ joined write a l := by
  induction l generalizing a with
  | nil => exact h a List.mem_cons_self
  | cons x l ih =>
    obtain ⟨d, b⟩ := x
    rw [List.map_cons, List.mem_cons, not_or] at hl
    rw [joined, List.mem_append, List.mem_cons, not_or, not_or]
    exact ⟨h a List.mem_cons_self, hl.1, ih hl.2 fun x hx => h x (List.mem_cons_of_mem _ hx)⟩

theorem joined_eq_append (write : List α → List α) (a : List α) (l : List (α × List α)) :
    ∃ z, joined write a l = write a ++ z := by
  cases l with
  | nil => exact ⟨[], (List.append_nil _).symm⟩
  | cons x l => exact ⟨_, rfl⟩

end joined

variable {q : α}

/-- A quoted `k` is found wherever a part is written so, and nowhere else, as long as no separator continues a mark
    to it. -/
theorem replaceAll_joined {k format : List α} {write write' : List α → List α} {a : List α} {l : List (α × List α)}
    (hk : q ∉ k) (hl : ∀ x ∈ l, x.1 ≠ q ∧ ∀ z, ¬ k ++ [q] <+: x.1 :: (write x.2 ++ z))
    (hw : ∀ x ∈ a :: l.map Prod.snd, q ∉ x ∧ write x = quoted q x ∧ write' x = (if x = k then format else write x) ∨
      q ∉ write x ∧ write' x = write x) :
    replaceAll (quoted q k) format (joined write a l) = joined write' a l := by
  induction l generalizing a with
  | nil =>
    rw [joined, joined]
    rcases hw a List.mem_cons_self with ⟨ha, hwrite, hwrite'⟩ | ⟨ha, hwrite'⟩
    · rw [hwrite', hwrite]
      by_cases h : a = k
      · rw [if_pos h, h]
        exact (replaceAll_found hk []).trans (List.append_nil _)
      · rw [if_neg h, quoted, quoted, replaceAll_missed hk ha h, replaceAll_mark]
    · rw [hwrite']
      exact replaceAll_of_not_mem ha
  | cons x l ih =>
    obtain ⟨c, b⟩ := x
    obtain ⟨hcq, hopen⟩ := hl (c, b) List.mem_cons_self
    have ih := ih (fun x hx => hl x (List.mem_cons_of_mem _ hx)) fun x hx => hw x (List.mem_cons_of_mem _ hx)
    have hrest : replaceAll (quoted q k) format (c :: joined write b l) = c :: joined write' b l := by
      rw [← ih]
      exact replaceAll_append_of_not_mem (a := [c]) (by simpa using hcq.symm) _
    rw [joined, joined]
    rcases hw a List.mem_cons_self with ⟨ha, hwrite, hwrite'⟩ | ⟨ha, hwrite'⟩
    · have htext : quoted q a ++ c :: joined write b l = q :: (a ++ q :: c :: joined write b l) := by simp [quoted]
      rw [hwrite', hwrite, htext]
      by_cases h : a = k
      · rw [if_pos h, h, quoted, replaceAll_found hk]
        exact congrArg (format ++ ·) hrest
      · -- The mark behind `a` opens nothing that is looked for.
        have hno : ¬ quoted q k <+: q :: c :: joined write b l := by
          obtain ⟨z, hz⟩ := joined_eq_append write b l
          rw [quoted, List.cons_prefix_cons, hz]
          exact fun hp => hopen z hp.2
        rw [if_neg h, quoted, replaceAll_missed hk ha h, ← quoted, replaceAll, replaceFrom, if_neg hno]
        have hrest : replaceFrom (quoted q k) format 0 (c :: joined write b l) = c :: joined write' b l := hrest
        rw [hrest]
        simp [quoted]
    · rw [hwrite', ← hrest]
      exact replaceAll_append_of_not_mem ha _

/-! ## Tokens -/

/-- A part equal to `v` becomes `k`. -/
def exchange (v k a : List α) : List α := if a = v then k else a

/-- Every part of the dictionary is exchanged for its token, one entry after the other. -/
def token (dict : List (List α × List α)) (a : List α) : List α := dict.foldl (fun s e => exchange e.2 e.1 s) a

/-- Every token in quotation marks is exchanged for its part. -/
def restore (q : α) (dict : List (List α × List α)) (s : List α) : List α :=
  dict.foldl (fun s e => replaceAll (quoted q e.1) e.2 s) s

theorem token_of_ne {dict : List (List α × List α)} {a : List α} (h : ∀ e ∈ dict, e.2 ≠ a) : token dict a = a := by
  induction dict with
  | nil => rfl
  | cons e dict ih =>
    have hne : exchange e.2 e.1 a = a := if_neg fun ha => h e List.mem_cons_self ha.symm
    rw [token, List.foldl_cons, hne]
    exact ih fun e' he' => h e' (List.mem_cons_of_mem _ he')

theorem restore_of_not_mem {dict : List (List α × List α)} {a : List α} (h : q ∉ a) : restore q dict a = a := by
  induction dict with
  | nil => rfl
  | cons e dict ih =>
    rw [restore, List.foldl_cons, quoted, replaceAll_of_not_mem h]
    exact ih

/-- A part of the dictionary becomes one of its tokens, if no part is a token of an entry before its own. -/
theorem token_mem {dict : List (List α × List α)} {a : List α} (hmem : ∃ e ∈ dict, e.2 = a)
    (hclear : dict.Pairwise fun e e' => e'.2 ≠ e.1) : ∃ e ∈ dict, e.2 = a ∧ token dict a = e.1 := by
  induction dict with
  | nil => exact absurd hmem (by simp)
  | cons d dict ih =>
    obtain ⟨hlater, hclear⟩ := List.pairwise_cons.mp hclear
    by_cases hd : a = d.2
    · refine ⟨d, List.mem_cons_self, hd.symm, ?_⟩
      rw [token, List.foldl_cons, exchange, if_pos hd]
      exact token_of_ne hlater
    · obtain ⟨e, he, hea⟩ := hmem
      have hmem' : ∃ e ∈ dict, e.2 = a := by
        rcases List.mem_cons.mp he with rfl | he
        · exact absurd hea.symm hd
        · exact ⟨e, he, hea⟩
      obtain ⟨e, he, hea, htoken⟩ := ih hmem' hclear
      refine ⟨e, List.mem_cons_of_mem _ he, hea, ?_⟩
      rw [token, List.foldl_cons, exchange, if_neg hd]
      exact htoken

theorem replaceAll_exchange {v k a : List α} {l : List (α × List α)} (hv : q ∉ v)
    (hl : ∀ x ∈ l, x.1 ≠ q ∧ [x.1] ≠ v) (ha : ∀ x ∈ a :: l.map Prod.snd, q ∉ x) :
    replaceAll (quoted q v) (quoted q k) (joined (quoted q) a l) =
      joined (quoted q) (exchange v k a) (l.map fun x => (x.1, exchange v k x.2)) := by
  rw [joined_map]
  refine replaceAll_joined hv (fun x hx => ⟨(hl x hx).1, fun z hp => ?_⟩) fun x hx => .inl ⟨ha x hx, rfl, ?_⟩
  · have hcut := (concat_prefix_iff (a := [x.1]) hv (by simpa using (hl x hx).1.symm) _).mp hp
    exact (hl x hx).2 hcut
  · rw [exchange]
    split <;> rfl

/-- The parts of a text become tokens, entry by entry of the dictionary. -/
theorem foldl_replaceAll_joined {dict : List (List α × List α)} {a : List α} {l : List (α × List α)}
    (hq : ∀ e ∈ dict, q ∉ e.1 ∧ q ∉ e.2) (hl : ∀ x ∈ l, x.1 ≠ q ∧ ∀ e ∈ dict, [x.1] ≠ e.2)
    (ha : ∀ x ∈ a :: l.map Prod.snd, q ∉ x) :
    dict.foldl (fun s e => replaceAll (quoted q e.2) (quoted q e.1) s) (joined (quoted q) a l) =
      joined (fun x => quoted q (token dict x)) a l := by
  induction dict generalizing a l with
  | nil => rfl
  | cons d dict ih =>
    obtain ⟨hdkey, hdpart⟩ := hq d List.mem_cons_self
    rw [List.foldl_cons, replaceAll_exchange hdpart (fun x hx => ⟨(hl x hx).1, (hl x hx).2 d List.mem_cons_self⟩) ha,
      ih fun e he => hq e (List.mem_cons_of_mem _ he)]
    · exact joined_map (fun x => quoted q (token dict x)) (exchange d.2 d.1) a l
    · intro x hx
      obtain ⟨y, hy, rfl⟩ := List.mem_map.mp hx
      exact ⟨(hl y hy).1, fun e he => (hl y hy).2 e (List.mem_cons_of_mem _ he)⟩
    · intro x hx
      have hmap : exchange d.2 d.1 a :: (l.map fun x => (x.1, exchange d.2 d.1 x.2)).map Prod.snd =
          (a :: l.map Prod.snd).map (exchange d.2 d.1) := by simp
      rw [hmap] at hx
      obtain ⟨y, hy, rfl⟩ := List.mem_map.mp hx
      rw [exchange]
      split
      · exact hdkey
      · exact ha y hy

/-! ## Back again -/

/-- A token is written as its part, and in quotation marks if it has none. -/
def written (q : α) (dict : List (List α × List α)) (k : List α) : List α :=
  (dict.lookup k).getD (quoted q k)

theorem lookup_append_single (done : List (List α × List α)) (d : List α × List α) (k : List α) :
    (done ++ [d]).lookup k = (done.lookup k).or (if k = d.1 then some d.2 else none) := by
  induction done with
  | nil =>
    rw [List.nil_append, List.lookup_cons, List.lookup_nil]
    by_cases h : k = d.1
    · simp [h]
    · rw [beq_eq_false_iff_ne.mpr h, if_neg h]
      rfl
  | cons e done ih =>
    rw [List.cons_append, List.lookup_cons, List.lookup_cons, ih]
    cases k == e.1 <;> rfl

omit [DecidableEq α] in
theorem not_prefix_of_not_mem {k : List α} {c : α} (hk : c ∉ k) (hq : c ≠ q) (z : List α) :
    ¬ k ++ [q] <+: c :: z := by
  intro hp
  cases k with
  | nil => exact hq (List.cons_prefix_cons.mp hp).1.symm
  | cons d k => exact hk ((List.cons_prefix_cons.mp hp).1 ▸ List.mem_cons_self)

theorem restore_joined (done : List (List α × List α)) {dict : List (List α × List α)} {a : List α} {l : List (α × List α)}
    (hq : ∀ e ∈ done ++ dict, q ∉ e.1 ∧ q ∉ e.2) (hnodup : ((done ++ dict).map Prod.fst).Nodup)
    (hl : ∀ x ∈ l, x.1 ≠ q ∧ ∀ e ∈ dict, x.1 ∉ e.1) (hparts : ∀ x ∈ a :: l.map Prod.snd, q ∉ x) :
    restore q dict (joined (written q done) a l) = joined (written q (done ++ dict)) a l := by
  induction dict generalizing done with
  | nil => rw [List.append_nil]; rfl
  | cons d dict ih =>
    have hd := hq d (by simp)
    have hstep : replaceAll (quoted q d.1) d.2 (joined (written q done) a l) =
        joined (written q (done ++ [d])) a l := by
      refine replaceAll_joined hd.1 (fun x hx => ⟨(hl x hx).1, fun z => ?_⟩) fun x hx => ?_
      · exact not_prefix_of_not_mem ((hl x hx).2 d List.mem_cons_self) (hl x hx).1 _
      rw [written, written, lookup_append_single]
      cases hlookup : done.lookup x with
      | none =>
        refine .inl ⟨hparts x hx, rfl, ?_⟩
        by_cases h : x = d.1
        · simp [h]
        · simp [h]
      | some v =>
        obtain ⟨l₁, l₂, hsplit, -⟩ := List.lookup_eq_some_iff.mp hlookup
        exact .inr ⟨(hq (x, v) (by simp [hsplit])).2, rfl⟩
    rw [restore, List.foldl_cons, hstep]
    have := ih (done ++ [d]) (by simpa using hq) (by simpa using hnodup) fun x hx =>
      ⟨(hl x hx).1, fun e he => (hl x hx).2 e (List.mem_cons_of_mem _ he)⟩
    rw [List.append_assoc] at this
    exact this

theorem lookup_of_mem {dict : List (List α × List α)} {e : List α × List α} (he : e ∈ dict)
    (hnodup : (dict.map Prod.fst).Nodup) : dict.lookup e.1 = some e.2 := by
  obtain ⟨l₁, l₂, rfl⟩ := List.append_of_mem he
  refine List.lookup_eq_some_iff.mpr ⟨l₁, l₂, rfl, fun d hd => ?_⟩
  rw [bne_iff_ne]
  rw [List.map_append, List.map_cons, List.nodup_append] at hnodup
  exact (hnodup.2.2 d.1 (List.mem_map_of_mem hd) e.1 List.mem_cons_self).symm

/-- The tokens of parts become the parts again. -/
theorem restore_tokens {dict : List (List α × List α)} {a : List α} {l : List (α × List α)}
    (hq : ∀ e ∈ dict, q ∉ e.1 ∧ q ∉ e.2) (hnodup : (dict.map Prod.fst).Nodup)
    (hclear : dict.Pairwise fun e e' => e'.2 ≠ e.1) (hl : ∀ x ∈ l, x.1 ≠ q ∧ ∀ e ∈ dict, x.1 ∉ e.1)
    (hparts : ∀ x ∈ a :: l.map Prod.snd, ∃ e ∈ dict, e.2 = x) :
    restore q dict (joined (fun x => quoted q (token dict x)) a l) = joined id a l := by
  have htoken {x : List α} (hx : x ∈ a :: l.map Prod.snd) : q ∉ token dict x ∧ written q dict (token dict x) = x := by
    obtain ⟨e, he, rfl, htoken⟩ := token_mem (hparts x hx) hclear
    rw [htoken, written, lookup_of_mem he hnodup]
    exact ⟨(hq e he).1, rfl⟩
  have hrestore := restore_joined [] (a := token dict a) (l := l.map fun x => (x.1, token dict x.2)) hq hnodup
    (fun x hx => ?_) fun x hx => ?_
  · rw [joined_map, joined_map] at hrestore
    exact hrestore.trans (joined_congr fun x hx => (htoken hx).2)
  · obtain ⟨y, hy, rfl⟩ := List.mem_map.mp hx
    exact hl y hy
  · have hmap : token dict a :: (l.map fun x => (x.1, token dict x.2)).map Prod.snd =
        (a :: l.map Prod.snd).map (token dict) := by simp
    rw [hmap] at hx
    obtain ⟨y, hy, rfl⟩ := List.mem_map.mp hx
    exact (htoken hy).1

end CoreMiner.Lib.Text
