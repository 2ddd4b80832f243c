/-
  CoreMiner.Lib.Batches — a machine that takes its items in batches.

  A batch clears the machine's flag, takes its items one after the other and, if the flag is
  set behind the last one, puts out the machine's value; a value that does not fit ends the
  machine. When is the value put out last the same for every division of the items into
  batches? `outs` are the values put out when each item is a batch of its own, and
  `Undivided` says that the last of them is put out last by every division.

  (1) `Latest.undivided_iff`: where a later flagged item replaces an earlier one of its batch,
      exactly when no item behind the last flagged one changes the value, and from the first
      flagged one on every value fits.
  (2) `Earliest.undivided_iff`: where the first flagged item of a batch shuts out the others,
      exactly when all values of `outs` fit and are equal.
-/

import Mathlib.Data.List.Basic
import Mathlib.Data.List.Induction

namespace CoreMiner.Lib

structure Machine (ι σ ω : Type) where
  /-- Take an item; `none` is the end of the machine. -/
  step : ι → σ → Option σ
  reset : σ → σ
  flag : σ → Bool
  out : σ → ω
  /-- Whether a value can be put out; if not, the machine ends. -/
  fits : ω → Bool

namespace Machine

variable {ι σ ω : Type} (m : Machine ι σ ω)

def steps (c : σ) (l : List ι) : Option σ := l.foldlM (fun c i => m.step i c) c

/-- What was put out last, after a batch. -/
def put (c : σ) (last : Option ω) : Option ω := if m.flag c then some (m.out c) else last

def run (c : σ) (last : Option ω) : List (List ι) → Option (σ × Option ω)
  | [] => some (c, last)
  | g :: gs => do
    let c ← m.steps (m.reset c) g
    if m.flag c && !m.fits (m.out c) then none else run c (m.put c last) gs

/-! ## Each item on its own -/

def alone (i : ι) (c : σ) : Option σ := m.step i (m.reset c)

def after (c : σ) (l : List ι) : Option σ := l.foldlM (fun c i => m.alone i c) c

def outs (c : σ) : List ι → List ω
  | [] => []
  | i :: l => match m.alone i c with
    | none => []
    | some c => if m.flag c then m.out c :: outs c l else outs c l

/-- Every division puts out last what the items on their own put out last. -/
def Undivided (c : σ) (last : Option ω) (l : List ι) : Prop :=
  ∀ gs, gs.flatten = l → (m.run c last gs).map Prod.snd = some ((m.outs c l).getLast?.or last)

variable {m}

theorem after_cons {c c' : σ} {i : ι} {l : List ι} :
    m.after c (i :: l) = some c' ↔ ∃ d, m.alone i c = some d ∧ m.after d l = some c' := Option.bind_eq_some_iff

theorem after_append {c c' : σ} {l l' : List ι} :
    m.after c (l ++ l') = some c' ↔ ∃ d, m.after c l = some d ∧ m.after d l' = some c' := by
  rw [after, List.foldlM_append]
  exact Option.bind_eq_some_iff

theorem after_isSome_iff {c : σ} {l : List ι} :
    (m.after c l).isSome = true ↔
      ∀ pre i post t, l = pre ++ i :: post → m.after c pre = some t → (m.alone i t).isSome = true := by
  constructor
  · rintro hl pre i post t rfl ht
    obtain ⟨e, he⟩ := Option.isSome_iff_exists.mp hl
    obtain ⟨t₁, ht₁, hrest⟩ := after_append.mp he
    cases ht.symm.trans ht₁
    obtain ⟨d, hd, -⟩ := after_cons.mp hrest
    rw [hd]
    rfl
  · intro h
    induction l generalizing c with
    | nil => rfl
    | cons i l ih =>
      obtain ⟨d, hd⟩ := Option.isSome_iff_exists.mp (h [] i l c rfl rfl)
      obtain ⟨e, he⟩ := Option.isSome_iff_exists.mp
        (ih fun pre j post t hl ht => h (i :: pre) j post t (by rw [hl]; rfl) (after_cons.mpr ⟨d, hd, ht⟩))
      rw [after_cons.mpr ⟨d, hd, he⟩]
      rfl

theorem outs_cons {c d : σ} {i : ι} (h : m.alone i c = some d) (l : List ι) :
    m.outs c (i :: l) = if m.flag d then m.out d :: m.outs d l else m.outs d l := by
  rw [outs, h]

theorem outs_append {c d : σ} {l : List ι} (h : m.after c l = some d) (l' : List ι) :
    m.outs c (l ++ l') = m.outs c l ++ m.outs d l' := by
  induction l generalizing c with
  | nil =>
    cases h
    rfl
  | cons i l ih =>
    obtain ⟨e, he, hd⟩ := after_cons.mp h
    rw [List.cons_append, outs_cons he, outs_cons he, ih hd]
    split <;> rfl

theorem mem_outs {c : σ} {l : List ι} {w : ω} (hw : w ∈ m.outs c l) (hl : (m.after c l).isSome = true) :
    ∃ pre i post t t', l = pre ++ i :: post ∧ m.after c pre = some t ∧ m.alone i t = some t' ∧
      m.flag t' = true ∧ m.out t' = w := by
  induction l generalizing c with
  | nil => cases hw
  | cons i l ih =>
    obtain ⟨c', hc'⟩ := Option.isSome_iff_exists.mp hl
    obtain ⟨d, hd, hrest⟩ := after_cons.mp hc'
    by_cases hnow : m.flag d = true ∧ m.out d = w
    · exact ⟨[], i, l, c, d, rfl, rfl, hd, hnow⟩
    · have hlater : w ∈ m.outs d l := by
        rw [outs_cons hd] at hw
        split at hw
        · rename_i hf
          rcases List.mem_cons.mp hw with rfl | hw
          · exact absurd ⟨hf, rfl⟩ hnow
          · exact hw
        · exact hw
      obtain ⟨pre, j, post, t, t', rfl, ht, h⟩ := ih hlater (by simp [hrest])
      exact ⟨i :: pre, j, post, t, t', rfl, after_cons.mpr ⟨d, hd, ht⟩, h⟩

theorem run_cons {c d : σ} {g : List ι} (hd : m.steps (m.reset c) g = some d)
    (hfits : m.flag d = true → m.fits (m.out d) = true) (last : Option ω) (gs : List (List ι)) :
    m.run c last (g :: gs) = m.run d (m.put d last) gs := by
  rw [run, hd, Option.bind_eq_bind, Option.bind_some, if_neg]
  cases hf : m.flag d with
  | false => simp
  | true => simp [hfits hf]

theorem run_cons_eq_none {c d : σ} {g : List ι} (hd : m.steps (m.reset c) g = some d) (hf : m.flag d = true)
    (hfits : ¬ m.fits (m.out d) = true) (last : Option ω) (gs : List (List ι)) : m.run c last (g :: gs) = none := by
  rw [run, hd, Option.bind_eq_bind, Option.bind_some, if_pos]
  simp [hf, hfits]

/-- The division into batches of one item. -/
theorem run_singletons {c e : σ} {last v : Option ω} {l : List ι} (h : m.run c last (l.map ([·])) = some (e, v)) :
    m.after c l = some e ∧ ∀ w ∈ m.outs c l, m.fits w = true := by
  induction l generalizing c last with
  | nil =>
    cases h
    exact ⟨rfl, fun w hw => by cases hw⟩
  | cons i l ih =>
    cases hd : m.alone i c with
    | none =>
      have hrun : m.run c last ((i :: l).map ([·])) = none := by
        simp [run, steps, show m.step i (m.reset c) = none from hd]
      cases hrun.symm.trans h
    | some d =>
      have hbatch : m.steps (m.reset c) [i] = some d := by
        simp [steps, show m.step i (m.reset c) = some d from hd]
      by_cases hfits : m.flag d = true → m.fits (m.out d) = true
      · rw [List.map_cons, run_cons hbatch hfits] at h
        obtain ⟨he, hlater⟩ := ih h
        refine ⟨after_cons.mpr ⟨d, hd, he⟩, fun w hw => ?_⟩
        rw [outs_cons hd] at hw
        split at hw
        · rcases List.mem_cons.mp hw with rfl | hw
          · exact hfits ‹_›
          · exact hlater w hw
        · exact hlater w hw
      · obtain ⟨hf, hno⟩ := Classical.not_imp.mp hfits
        cases (run_cons_eq_none hbatch hf hno last _).symm.trans h

theorem Undivided.singletons {c : σ} {last : Option ω} {l : List ι} (h : m.Undivided c last l) :
    (m.after c l).isSome = true ∧ ∀ w ∈ m.outs c l, m.fits w = true := by
  have hrun := h (l.map ([·])) (by rw [← List.flatMap_def, List.flatMap_singleton'])
  obtain ⟨⟨e, v⟩, he, -⟩ := Option.map_eq_some_iff.mp hrun
  obtain ⟨hafter, hfits⟩ := run_singletons he
  exact ⟨by rw [hafter]; rfl, hfits⟩

theorem Undivided.after_isSome {c : σ} {last : Option ω} {l : List ι} (h : m.Undivided c last l) :
    (m.after c l).isSome = true := h.singletons.1

theorem run_append_nil (hreset : ∀ d, m.flag (m.reset d) = false) (c : σ) (last : Option ω) (gs : List (List ι)) :
    (m.run c last (gs ++ [[]])).map Prod.snd = (m.run c last gs).map Prod.snd := by
  induction gs generalizing c last with
  | nil => simp [run, steps, put, hreset]
  | cons g gs ih =>
    rw [List.cons_append, run, run]
    cases m.steps (m.reset c) g with
    | none => rfl
    | some d =>
      simp only [Option.bind_eq_bind, Option.bind_some]
      split
      · rfl
      · exact ih d (m.put d last)

/-! ## The latest counts -/

/-- `R` relates the machine on single items to the machine somewhere in a batch: a flagged
    item flags the batch, and the values agree. -/
structure Latest (m : Machine ι σ ω) (R : σ → σ → Prop) : Prop where
  reset : ∀ {c d}, R c d → R c (m.reset d)
  flag_reset : ∀ d, m.flag (m.reset d) = false
  out : ∀ {c d}, R c d → m.out d = m.out c
  step : ∀ {c c' d i}, R c d → m.alone i c = some c' →
    ∃ d', m.step i d = some d' ∧ R c' d' ∧ m.flag d' = (m.flag d || m.flag c')

/-- No item behind the last flagged one changes the value. -/
def Settled (m : Machine ι σ ω) (c : σ) (l : List ι) : Prop :=
  ∀ pre i post t t', l = pre ++ i :: post → m.after c pre = some t → m.alone i t = some t' →
    m.outs c pre ≠ [] → m.outs t (i :: post) = [] → m.out t' = m.out t

/-- From the first flagged item on every value fits. -/
def Fitting (m : Machine ι σ ω) (c : σ) (l : List ι) : Prop :=
  ∀ pre post t, l = pre ++ post → m.after c pre = some t → m.outs c pre ≠ [] → m.fits (m.out t) = true

namespace Latest

variable {R : σ → σ → Prop}

theorem steps (h : m.Latest R) {c c' d : σ} {l : List ι} (hr : R c d) (hl : m.after c l = some c') :
    ∃ d', m.steps d l = some d' ∧ R c' d' ∧ m.flag d' = (m.flag d || !(m.outs c l).isEmpty) := by
  induction l generalizing c d with
  | nil =>
    cases hl
    exact ⟨d, rfl, hr, by simp [outs]⟩
  | cons i l ih =>
    obtain ⟨c₁, hc₁, hrest⟩ := after_cons.mp hl
    obtain ⟨d₁, hd₁, hr₁, hf₁⟩ := h.step hr hc₁
    obtain ⟨d', hd', hr', hf'⟩ := ih hr₁ hrest
    refine ⟨d', ?_, hr', ?_⟩
    · rw [Machine.steps, List.foldlM_cons, hd₁]
      exact hd'
    · rw [hf', hf₁, outs_cons hc₁]
      cases m.flag c₁ <;> simp

theorem batch (h : m.Latest R) {c c' d : σ} {l : List ι} (hr : R c d) (hl : m.after c l = some c') :
    ∃ d', m.steps (m.reset d) l = some d' ∧ R c' d' ∧ m.flag d' = !(m.outs c l).isEmpty := by
  obtain ⟨d', hd', hr', hf'⟩ := h.steps (h.reset hr) hl
  exact ⟨d', hd', hr', by rw [hf', h.flag_reset, Bool.false_or]⟩

end Latest

theorem Settled.drop {c t : σ} {pre l : List ι} (h : m.Settled c (pre ++ l)) (ht : m.after c pre = some t) :
    m.Settled t l := by
  rintro pre' i post u u' rfl hu hu' houts hquiet
  refine h (pre ++ pre') i post u u' (by simp) (after_append.mpr ⟨t, ht, hu⟩) hu' ?_ hquiet
  rw [outs_append ht]
  exact fun hnil => houts (List.append_eq_nil_iff.mp hnil).2

theorem Fitting.drop {c t : σ} {pre l : List ι} (h : m.Fitting c (pre ++ l)) (ht : m.after c pre = some t) :
    m.Fitting t l := by
  rintro pre' post u rfl hu houts
  refine h (pre ++ pre') post u (by simp) (after_append.mpr ⟨t, ht, hu⟩) ?_
  rw [outs_append ht]
  exact fun hnil => houts (List.append_eq_nil_iff.mp hnil).2

theorem Settled.take {c t : σ} {l post : List ι} (h : m.Settled c (l ++ post)) (ht : m.after c l = some t)
    (hpost : m.outs t post = []) : m.Settled c l := by
  rintro pre i post' u u' rfl hu hu' houts hquiet
  refine h pre i (post' ++ post) u u' (by simp) hu hu' houts ?_
  obtain ⟨u₁, hu₁, hrest⟩ := after_append.mp ht
  cases hu.symm.trans hu₁
  rw [← List.cons_append, outs_append hrest, hquiet, hpost]
  rfl

theorem Settled.getLast?_outs {c t : σ} {l : List ι} (h : m.Settled c l) (ht : m.after c l = some t)
    (houts : m.outs c l ≠ []) : (m.outs c l).getLast? = some (m.out t) := by
  induction l using List.reverseRecOn generalizing t with
  | nil => exact absurd rfl houts
  | append_singleton l i ih =>
    obtain ⟨u, hu, hlast⟩ := after_append.mp ht
    obtain ⟨t', hi, htt⟩ := after_cons.mp hlast
    cases htt
    have hone : m.outs u [i] = if m.flag t then [m.out t] else [] := by
      rw [outs_cons hi]
      rfl
    rw [outs_append hu, hone] at houts ⊢
    by_cases hf : m.flag t = true
    · simp [hf]
    · rw [if_neg hf] at hone
      rw [if_neg hf, List.append_nil] at houts ⊢
      rw [ih (h.take hu hone) hu houts, h l i [] u t rfl hu hi houts hone]

namespace Latest

variable {R : σ → σ → Prop}

theorem run_of_settled (h : m.Latest R) (gs : List (List ι)) {c d : σ} (last : Option ω) (hr : R c d)
    (hl : (m.after c gs.flatten).isSome = true) (hs : m.Settled c gs.flatten) (hfit : m.Fitting c gs.flatten) :
    (m.run d last gs).map Prod.snd = some ((m.outs c gs.flatten).getLast?.or last) := by
  induction gs generalizing c d last with
  | nil => rfl
  | cons g gs ih =>
    obtain ⟨e, he⟩ := Option.isSome_iff_exists.mp hl
    rw [List.flatten_cons] at he hs hfit ⊢
    obtain ⟨c₁, hc₁, hrest⟩ := after_append.mp he
    obtain ⟨d₁, hd₁, hr₁, hf₁⟩ := h.batch hr hc₁
    have hfits : m.flag d₁ = true → m.fits (m.out d₁) = true := by
      intro hf
      rw [h.out hr₁]
      exact hfit g gs.flatten c₁ rfl hc₁ (by simpa [hf₁, List.isEmpty_iff] using hf)
    rw [run_cons hd₁ hfits, ih _ hr₁ (by rw [hrest]; rfl) (hs.drop hc₁) (hfit.drop hc₁), outs_append hc₁]
    by_cases hlater : m.outs c₁ gs.flatten = []
    · rw [hlater, List.append_nil, put, hf₁, h.out hr₁]
      by_cases hnow : m.outs c g = []
      · simp [hnow]
      · have hvalue := (hs.take hc₁ hlater).getLast?_outs hc₁ hnow
        simp [hvalue, hnow]
    · rw [List.getLast?_append_of_ne_nil _ hlater]
      obtain ⟨w, hw⟩ := Option.ne_none_iff_exists'.mp (mt List.getLast?_eq_none_iff.mp hlater)
      rw [hw]
      rfl

/-- A division in two, with nothing flagged in the second half. -/
theorem run_pair (h : m.Latest R) {c t : σ} {l l' : List ι} (last : Option ω) (hc : R c c) (ht : m.after c l = some t)
    (hl' : (m.after t l').isSome = true) (houts : m.outs c l ≠ []) (hfits : m.fits (m.out t) = true)
    (hquiet : m.outs t l' = []) : (m.run c last [l, l']).map Prod.snd = some (some (m.out t)) := by
  obtain ⟨e, he⟩ := Option.isSome_iff_exists.mp hl'
  obtain ⟨d₁, hd₁, hr₁, hf₁⟩ := h.batch hc ht
  obtain ⟨d₂, hd₂, hr₂, hf₂⟩ := h.batch hr₁ he
  rw [hquiet] at hf₂
  have hf₁ : m.flag d₁ = true := by simpa [hf₁, List.isEmpty_iff] using houts
  have hrun : m.run c last [l, l'] = some (d₂, m.put d₂ (m.put d₁ last)) := by
    rw [run_cons hd₁ fun _ => by rw [h.out hr₁]; exact hfits]
    exact run_cons hd₂ (fun hf => by rw [hf₂] at hf; cases hf) _ []
  rw [hrun, Option.map_some, put, hf₂, put, if_pos hf₁, h.out hr₁]
  rfl

/-- A division behind a flagged item puts the value there out. -/
theorem fitting (h : m.Latest R) {c : σ} (hc : R c c) {last : Option ω} {l : List ι} (hu : m.Undivided c last l) :
    m.Fitting c l := by
  rintro pre post t rfl ht houts
  obtain ⟨d, hd, hr, hf⟩ := h.batch hc ht
  by_contra hno
  have hnone := run_cons_eq_none (m := m) hd (by simpa [hf, List.isEmpty_iff] using houts)
    (by rw [h.out hr]; exact hno) last [post]
  have hsome := hu [pre, post] (by simp)
  rw [hnone] at hsome
  cases hsome

theorem undivided_iff (h : m.Latest R) {c : σ} (hc : R c c) (last : Option ω) (l : List ι) :
    m.Undivided c last l ↔ (m.after c l).isSome = true ∧ m.Settled c l ∧ m.Fitting c l := by
  refine ⟨fun hu => ⟨hu.after_isSome, ?_, h.fitting hc hu⟩, fun ⟨hl, hs, hfit⟩ gs hgs => ?_⟩
  · rintro pre i post t t' rfl ht hi houts hquiet
    -- divided before the item and behind it, both halves put out the same
    have hfit := h.fitting hc hu
    obtain ⟨e, he⟩ := Option.isSome_iff_exists.mp hu.after_isSome
    obtain ⟨t₁, ht₁, hrest⟩ := after_append.mp he
    cases ht.symm.trans ht₁
    obtain ⟨t₂, hi₂, hpost⟩ := after_cons.mp hrest
    cases hi.symm.trans hi₂
    have hnot : m.outs t' post = [] ∧ m.outs t [i] = [] := by
      rw [outs_cons hi] at hquiet ⊢
      split at hquiet
      · cases hquiet
      · rename_i hf
        rw [if_neg hf]
        exact ⟨hquiet, rfl⟩
    have ht' : m.after c (pre ++ [i]) = some t' := after_append.mpr ⟨t, ht, after_cons.mpr ⟨t', hi, rfl⟩⟩
    have houts' : m.outs c (pre ++ [i]) ≠ [] := by
      rw [outs_append ht, hnot.2, List.append_nil]
      exact houts
    have hbefore := h.run_pair last hc ht (by rw [hrest]; rfl) houts (hfit pre _ t rfl ht houts) hquiet
    have hbehind := h.run_pair last hc ht' (by rw [hpost]; rfl) houts'
      (hfit (pre ++ [i]) post t' (by simp) ht' houts') hnot.1
    rw [hu _ (by simp)] at hbefore hbehind
    exact Option.some.inj (Option.some.inj (hbehind.symm.trans hbefore))
  · subst hgs
    exact h.run_of_settled gs last hc hl hs hfit

end Latest

/-! ## The earliest counts -/

/-- As `Latest`, but once the batch is flagged its items leave the value alone; before, a
    flagged item gives the value it gives on its own. -/
structure Earliest (m : Machine ι σ ω) (R : σ → σ → Prop) : Prop where
  reset : ∀ {c d}, R c d → R c (m.reset d)
  flag_reset : ∀ d, m.flag (m.reset d) = false
  step : ∀ {c c' d i}, R c d → m.alone i c = some c' → ∃ d', m.step i d = some d' ∧ R c' d' ∧
    (m.flag d = true → m.flag d' = true ∧ m.out d' = m.out d) ∧
    (m.flag d = false → m.flag d' = m.flag c' ∧ (m.flag c' = true → m.out d' = m.out c'))

namespace Earliest

variable {R : σ → σ → Prop}

theorem steps_flagged (h : m.Earliest R) {c c' d : σ} {l : List ι} (hr : R c d) (hl : m.after c l = some c')
    (hf : m.flag d = true) :
    ∃ d', m.steps d l = some d' ∧ R c' d' ∧ m.flag d' = true ∧ m.out d' = m.out d := by
  induction l generalizing c d with
  | nil =>
    cases hl
    exact ⟨d, rfl, hr, hf, rfl⟩
  | cons i l ih =>
    obtain ⟨c₁, hc₁, hrest⟩ := after_cons.mp hl
    obtain ⟨d₁, hd₁, hr₁, hkeep, -⟩ := h.step hr hc₁
    obtain ⟨d', hd', hr', hf', hout⟩ := ih hr₁ hrest (hkeep hf).1
    refine ⟨d', ?_, hr', hf', hout.trans (hkeep hf).2⟩
    rw [Machine.steps, List.foldlM_cons, hd₁]
    exact hd'

theorem steps (h : m.Earliest R) {c c' d : σ} {l : List ι} (hr : R c d) (hl : m.after c l = some c')
    (hf : m.flag d = false) :
    ∃ d', m.steps d l = some d' ∧ R c' d' ∧ ∀ last, m.put d' last = (m.outs c l).head?.or last := by
  induction l generalizing c d with
  | nil =>
    cases hl
    exact ⟨d, rfl, hr, fun last => by simp [put, hf, outs]⟩
  | cons i l ih =>
    obtain ⟨c₁, hc₁, hrest⟩ := after_cons.mp hl
    obtain ⟨d₁, hd₁, hr₁, -, hfirst⟩ := h.step hr hc₁
    obtain ⟨hf₁, hout₁⟩ := hfirst hf
    rw [outs_cons hc₁, Machine.steps, List.foldlM_cons, hd₁]
    cases hc : m.flag c₁ with
    | true =>
      obtain ⟨d', hd', hr', hf', hout⟩ := h.steps_flagged hr₁ hrest (hf₁.trans hc)
      exact ⟨d', hd', hr', fun last => by simp [put, hf', hout, hout₁ hc]⟩
    | false => exact ih hr₁ hrest (hf₁.trans hc)

/-- A batch puts out its first flagged value. -/
theorem batch (h : m.Earliest R) {c c' d : σ} {l : List ι} (hr : R c d) (hl : m.after c l = some c') :
    ∃ d', m.steps (m.reset d) l = some d' ∧ R c' d' ∧ ∀ last, m.put d' last = (m.outs c l).head?.or last :=
  h.steps (h.reset hr) hl (h.flag_reset d)

theorem batch_fits (h : m.Earliest R) {c c' d d' : σ} {l : List ι} (hr : R c d) (hl : m.after c l = some c')
    (hfits : ∀ w ∈ m.outs c l, m.fits w = true) (hd' : m.steps (m.reset d) l = some d') (hf : m.flag d' = true) :
    m.fits (m.out d') = true := by
  obtain ⟨e, he, -, hput⟩ := h.batch hr hl
  cases hd'.symm.trans he
  have hfirst := hput none
  rw [put, if_pos hf, Option.or_none] at hfirst
  exact hfits _ (List.mem_of_mem_head? hfirst.symm)

theorem run_mem (h : m.Earliest R) (gs : List (List ι)) {c d : σ} (last : Option ω) (hr : R c d)
    (hl : (m.after c gs.flatten).isSome = true) (hfits : ∀ w ∈ m.outs c gs.flatten, m.fits w = true) :
    ∃ v, (m.run d last gs).map Prod.snd = some v ∧
      (v = last ∧ m.outs c gs.flatten = [] ∨ ∃ w ∈ m.outs c gs.flatten, v = some w) := by
  induction gs generalizing c d last with
  | nil => exact ⟨last, rfl, .inl ⟨rfl, rfl⟩⟩
  | cons g gs ih =>
    obtain ⟨e, he⟩ := Option.isSome_iff_exists.mp hl
    rw [List.flatten_cons] at he hfits ⊢
    obtain ⟨c₁, hc₁, hrest⟩ := after_append.mp he
    obtain ⟨d₁, hd₁, hr₁, hput⟩ := h.batch hr hc₁
    rw [outs_append hc₁] at hfits ⊢
    rw [run_cons hd₁ (h.batch_fits hr hc₁ (fun w hw => hfits w (List.mem_append_left _ hw)) hd₁)]
    obtain ⟨v, hv, hcases⟩ := ih (m.put d₁ last) hr₁ (by rw [hrest]; rfl)
      fun w hw => hfits w (List.mem_append_right _ hw)
    refine ⟨v, hv, ?_⟩
    rcases hcases with ⟨rfl, hlater⟩ | ⟨w, hw, rfl⟩
    · rw [hput, hlater, List.append_nil]
      cases houts : m.outs c g with
      | nil => exact .inl ⟨rfl, rfl⟩
      | cons w l => exact .inr ⟨w, by simp, rfl⟩
    · exact .inr ⟨w, List.mem_append_right _ hw, rfl⟩

/-- A division in two right before a flagged item puts that item's value out last. -/
theorem run_pair (h : m.Earliest R) {c t t' : σ} {pre post : List ι} {i : ι} (last : Option ω) (hc : R c c)
    (hl : (m.after c (pre ++ i :: post)).isSome = true)
    (hfits : ∀ w ∈ m.outs c (pre ++ i :: post), m.fits w = true) (ht : m.after c pre = some t)
    (hi : m.alone i t = some t') (hf : m.flag t' = true) :
    (m.run c last [pre, i :: post]).map Prod.snd = some (some (m.out t')) := by
  obtain ⟨e, he⟩ := Option.isSome_iff_exists.mp hl
  obtain ⟨t₁, ht₁, hrest⟩ := after_append.mp he
  cases ht.symm.trans ht₁
  obtain ⟨d₁, hd₁, hr₁, -⟩ := h.batch hc ht
  obtain ⟨d₂, hd₂, hr₂, hput⟩ := h.batch hr₁ hrest
  rw [outs_append ht] at hfits
  have hrun : m.run c last [pre, i :: post] = some (d₂, m.put d₂ (m.put d₁ last)) := by
    rw [run_cons hd₁ (h.batch_fits hc ht (fun w hw => hfits w (List.mem_append_left _ hw)) hd₁)]
    exact run_cons hd₂ (h.batch_fits hr₁ hrest (fun w hw => hfits w (List.mem_append_right _ hw)) hd₂) _ []
  rw [hrun, Option.map_some, hput, outs_cons hi, if_pos hf]
  rfl

theorem undivided_iff (h : m.Earliest R) {c : σ} (hc : R c c) (last : Option ω) (l : List ι) :
    m.Undivided c last l ↔
      (m.after c l).isSome = true ∧ (∀ w ∈ m.outs c l, m.fits w = true) ∧
        ∀ w ∈ m.outs c l, ∀ w' ∈ m.outs c l, w = w' := by
  refine ⟨fun hu => ⟨hu.after_isSome, hu.singletons.2, ?_⟩, fun ⟨hl, hfits, hsame⟩ gs hgs => ?_⟩
  · -- every value is put out last by some division
    have hlast : ∀ w ∈ m.outs c l, (m.outs c l).getLast?.or last = some w := by
      intro w hw
      obtain ⟨pre, i, post, t, t', hsplit, ht, hi, hf, rfl⟩ := mem_outs hw hu.after_isSome
      have hpair := h.run_pair last hc (hsplit ▸ hu.after_isSome) (hsplit ▸ hu.singletons.2) ht hi hf
      rw [hu _ (by simp [hsplit])] at hpair
      exact Option.some.inj hpair
    exact fun w hw w' hw' => Option.some.inj ((hlast w hw).symm.trans (hlast w' hw'))
  · subst hgs
    obtain ⟨v, hv, ⟨rfl, hnil⟩ | ⟨w, hw, rfl⟩⟩ := h.run_mem gs last hc hl hfits
    · rw [hv, hnil]
      rfl
    · obtain ⟨w', hw'⟩ := Option.ne_none_iff_exists'.mp (mt List.getLast?_eq_none_iff.mp (List.ne_nil_of_mem hw))
      rw [hv, hw', hsame w hw w' (List.mem_of_getLast? hw')]
      rfl

end Earliest

end Machine

end CoreMiner.Lib
