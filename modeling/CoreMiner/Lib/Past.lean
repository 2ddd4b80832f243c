/-
  CoreMiner.Lib.Past — runs of a machine together with their past.

  A machine is a partial function `next` from a state and an event to a state. `Traced`
  are its runs, with the steps made so far (newest first), and `since done lost` says that
  some step was `done` and none after it was `lost`. What is to be known about the past in
  order to show that is a property `K` of the present (`Traced.since`): it does not hold at
  the start, and where it holds after a step, the step was `done`, or `K` held before it
  and it was not `lost`.
-/

namespace CoreMiner.Lib

variable {σ ε : Type} {next : σ → ε → Option σ} {I : σ → Prop} {C : σ → ε → Prop}

/-- Runs from `I` whose steps all meet `C`. -/
inductive Traced (next : σ → ε → Option σ) (I : σ → Prop) (C : σ → ε → Prop) : List (σ × ε) → σ → Prop
  | start {s : σ} (h : I s) : Traced next I C [] s
  | step {past : List (σ × ε)} {s t : σ} (e : ε) :
    Traced next I C past s → C s e → next s e = some t → Traced next I C ((s, e) :: past) t

/-- A step was `done`, and none after it was `lost`. -/
def since (done lost : σ → ε → Bool) : List (σ × ε) → Bool
  | [] => false
  | (s, e) :: past => done s e || (!lost s e && since done lost past)

namespace Traced

variable {past : List (σ × ε)} {s : σ}

theorem invariant {J : σ → Prop} (h0 : ∀ s, I s → J s) (hstep : ∀ s e t, J s → C s e → next s e = some t → J t)
    (h : Traced next I C past s) : J s := by
  induction h with
  | start hs => exact h0 _ hs
  | step e _ hC hst ih => exact hstep _ e _ ih hC hst

theorem mono {D : σ → ε → Prop} (hC : ∀ s e, C s e → D s e) (h : Traced next I C past s) : Traced next I D past s := by
  induction h with
  | start hs => exact .start hs
  | step e _ he hst ih => exact .step e ih (hC _ e he) hst

theorem since {J K : σ → Prop} {done lost : σ → ε → Bool} (h0 : ∀ s, I s → J s)
    (hJ : ∀ s e t, J s → C s e → next s e = some t → J t) (hK0 : ∀ s, I s → ¬ K s)
    (hK : ∀ s e t, J s → C s e → next s e = some t → K t → done s e = true ∨ K s ∧ lost s e = false)
    (h : Traced next I C past s) (hs : K s) : since done lost past = true := by
  induction h with
  | start hI => exact absurd hs (hK0 _ hI)
  | @step past s t e htraced hC hst ih =>
    rw [Lib.since, Bool.or_eq_true]
    rcases hK s e t (htraced.invariant h0 hJ) hC hst hs with hdone | ⟨hbefore, hkept⟩
    · exact .inl hdone
    · exact .inr (by rw [hkept, ih hbefore]; rfl)

end Traced

def record (next : σ → ε → Option σ) (C : σ → ε → Bool) (s : σ) (es : List ε) : Option (List (σ × ε) × σ) :=
  es.foldlM (fun p e => if C p.2 e then (next p.2 e).map fun t => ((p.2, e) :: p.1, t) else none) ([], s)

theorem traced_record {C : σ → ε → Bool} {s t : σ} {es : List ε} {past : List (σ × ε)} (hs : I s)
    (h : record next C s es = some (past, t)) : Traced next I (fun s e => C s e = true) past t := by
  suffices hgeneral : ∀ (es : List ε) (p : List (σ × ε) × σ), Traced next I (fun s e => C s e = true) p.1 p.2 →
      (es.foldlM (fun p e => if C p.2 e then (next p.2 e).map fun t => ((p.2, e) :: p.1, t) else none) p) =
        some (past, t) → Traced next I (fun s e => C s e = true) past t from hgeneral es ([], s) (.start hs) h
  intro es
  induction es with
  | nil =>
    intro p hp h
    cases h
    exact hp
  | cons e es ih =>
    intro p hp h
    obtain ⟨q, hq, hrest⟩ := Option.bind_eq_some_iff.mp h
    obtain ⟨hC, hmap⟩ := Option.ite_none_right_eq_some.mp hq
    obtain ⟨u, hu, rfl⟩ := Option.map_eq_some_iff.mp hmap
    exact ih _ (.step e hp hC hu) hrest

theorem traced_of_record (next : σ → ε → Option σ) (C : σ → ε → Bool) {s : σ} (hs : I s) (es : List ε)
    {P : List (σ × ε) → σ → Prop}
    [∀ past t, Decidable (P past t)] (h : (record next C s es).any (fun r => P r.1 r.2) = true) :
    ∃ past t, Traced next I (fun s e => C s e = true) past t ∧ P past t := by
  cases hr : record next C s es with
  | none => simp [hr] at h
  | some r => exact ⟨r.1, r.2, traced_record hs hr, by simpa [hr] using h⟩

end CoreMiner.Lib
