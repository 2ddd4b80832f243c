/-
  CoreMiner.Lib.Prog — imperative programs: a state `σ` that survives a throw, and a way
  `ξ` of stopping early (an exception in flight, an undefined operation). The monad is
  the standard `ExceptT ξ (StateM σ)`; here are its equations and the rules the proofs
  use, one for each way of composing programs:

  - `wp m Q X s`: from `s`, `m` ends normally in a state and with a value that `Q` allows,
    or stops early in a way and a state that `X` allows. The rules are equivalences, so
    they run a program symbolically, and a property of its outcome has an exact condition.
  - `Keeps R B m`: from every state, `m` ends (normally or not) in a state related to it
    by `R`, and a way of stopping early is one that `B` blames on that state. For a
    reflexive and transitive `R` that `B` respects this follows the text of `m`.
  - `Steady k m`: `m` neither reads nor writes what `k` overwrites. Running it commutes
    with every `k i`, so two runs that differ only there stay in step.
-/

namespace CoreMiner.Lib

abbrev Prog (σ ξ α : Type) := ExceptT ξ (StateM σ) α

namespace Prog

variable {σ τ ξ α β ι : Type}

/-- How `m` ends from `s`, and the state it leaves. -/
def exec (m : Prog σ ξ α) (s : σ) : Except ξ α × σ := (ExceptT.run m).run s

def after (m : Prog σ ξ α) (s : σ) : σ := (m.exec s).2

/-- `try { m } catch { handler }`, for the ways of stopping the handler catches. -/
def catching (catches : ξ → Bool) (m handler : Prog σ ξ α) : Prog σ ξ α :=
  tryCatch m fun x => if catches x then handler else throw x

/-- `m` under a condition, and on with the program. -/
def when (c : Prop) [Decidable c] (m : Prog σ ξ Unit) : Prog σ ξ Unit := if c then m else pure ()

/-- Run `m` on the part of the state that `view` shows and `put` writes back. -/
def zoom (view : σ → τ) (put : τ → σ → σ) (m : Prog τ ξ α) : Prog σ ξ α := do
  let s ← get
  let (r, t) := m.exec (view s)
  set (put t s)
  match r with
  | .ok a => pure a
  | .error x => throw x

/-- A pure computation that may throw has a result only if its parts have theirs. -/
theorem except_bind_eq_ok_iff {e : Except ξ α} {f : α → Except ξ β} {b : β} :
    (e >>= f) = .ok b ↔ ∃ a, e = .ok a ∧ f a = .ok b := by
  constructor
  · intro h
    cases e with
    | error x => cases h
    | ok a => exact ⟨a, rfl, h⟩
  · rintro ⟨a, rfl, h⟩
    exact h

theorem except_bind_ne_ok_iff {e : Except ξ α} {f : α → Except ξ β} {b : β} :
    (e >>= f) ≠ .ok b ↔ ∀ a, e = .ok a → f a ≠ .ok b := by
  rw [ne_eq, except_bind_eq_ok_iff, not_exists]
  exact forall_congr' fun _ => not_and

@[simp] theorem exec_pure (a : α) (s : σ) : (pure a : Prog σ ξ α).exec s = (.ok a, s) := rfl

@[simp] theorem exec_throw (x : ξ) (s : σ) : (throw x : Prog σ ξ α).exec s = (.error x, s) := rfl

@[simp] theorem exec_get (s : σ) : (get : Prog σ ξ σ).exec s = (.ok s, s) := rfl

@[simp] theorem exec_modify (f : σ → σ) (s : σ) :
    (modify f : Prog σ ξ PUnit).exec s = (.ok ⟨⟩, f s) := rfl

theorem exec_bind (m : Prog σ ξ α) (f : α → Prog σ ξ β) (s : σ) :
    (m >>= f).exec s = match m.exec s with
      | (.ok a, t) => (f a).exec t
      | (.error x, t) => (.error x, t) := by
  simp only [exec, ExceptT.run_bind, StateT.run_bind]
  rcases (ExceptT.run m).run s with ⟨_ | _, t⟩ <;> rfl

theorem ext_exec {m n : Prog σ ξ α} (h : ∀ s, m.exec s = n.exec s) : m = n := funext h

theorem exec_bind_ok {m : Prog σ ξ α} {f : α → Prog σ ξ β} {s t : σ} {a : α}
    (h : m.exec s = (.ok a, t)) : (m >>= f).exec s = (f a).exec t := by
  rw [exec_bind, h]

theorem exec_tryCatch (m : Prog σ ξ α) (h : ξ → Prog σ ξ α) (s : σ) :
    (tryCatch m h : Prog σ ξ α).exec s = match m.exec s with
      | (.ok a, t) => (.ok a, t)
      | (.error x, t) => (h x).exec t := by
  simp only [exec, ExceptT.run_tryCatch, StateT.run_bind]
  rcases (ExceptT.run m).run s with ⟨x | _, t⟩ <;> rfl

theorem exec_catching (c : ξ → Bool) (m h : Prog σ ξ α) (s : σ) :
    (catching c m h).exec s = match m.exec s with
      | (.ok a, t) => (.ok a, t)
      | (.error x, t) => if c x then h.exec t else (.error x, t) := by
  rw [catching, exec_tryCatch]
  rcases m.exec s with ⟨x | _, t⟩
  · dsimp only
    split <;> rfl
  · rfl

theorem exec_catching_congr {c : ξ → Bool} {m n : Prog σ ξ α} (h : Prog σ ξ α) {s : σ} (hmn : m.exec s = n.exec s) :
    (catching c m h).exec s = (catching c n h).exec s := by
  rw [exec_catching, exec_catching, hmn]

@[simp] theorem exec_zoom (view : σ → τ) (put : τ → σ → σ) (m : Prog τ ξ α) (s : σ) :
    (zoom view put m).exec s = ((m.exec (view s)).1, put (m.exec (view s)).2 s) := by
  rw [zoom, exec_bind_ok (exec_get s)]
  rcases m.exec (view s) with ⟨_ | _, t⟩ <;> rfl

/-! ## How a program ends -/

/-- From `s`, `m` ends as `Q` and `X` allow. -/
def wp (m : Prog σ ξ α) (Q : α → σ → Prop) (X : ξ → σ → Prop) (s : σ) : Prop :=
  match m.exec s with
  | (.ok a, t) => Q a t
  | (.error x, t) => X x t

section wp

variable {Q Q' : α → σ → Prop} {X X' : ξ → σ → Prop} {s : σ}

instance [∀ a t, Decidable (Q a t)] [∀ x t, Decidable (X x t)] (m : Prog σ ξ α) : Decidable (wp m Q X s) :=
  match h : m.exec s with
  | (.ok a, t) => decidable_of_iff (Q a t) (by rw [wp, h])
  | (.error x, t) => decidable_of_iff (X x t) (by rw [wp, h])

@[simp] theorem wp_pure {a : α} : wp (pure a : Prog σ ξ α) Q X s ↔ Q a s := Iff.rfl

@[simp] theorem wp_throw {x : ξ} : wp (throw x : Prog σ ξ α) Q X s ↔ X x s := Iff.rfl

@[simp] theorem wp_get {Q : σ → σ → Prop} : wp (get : Prog σ ξ σ) Q X s ↔ Q s s := Iff.rfl

@[simp] theorem wp_modify {f : σ → σ} {Q : PUnit → σ → Prop} :
    wp (modify f : Prog σ ξ PUnit) Q X s ↔ Q ⟨⟩ (f s) := Iff.rfl

@[simp] theorem wp_bind {m : Prog σ ξ α} {f : α → Prog σ ξ β} {Q : β → σ → Prop} :
    wp (m >>= f) Q X s ↔ wp m (fun a t => wp (f a) Q X t) X s := by
  unfold wp
  rw [exec_bind]
  rcases m.exec s with ⟨_ | _, t⟩ <;> rfl

@[simp] theorem wp_zoom {view : σ → τ} {put : τ → σ → σ} {m : Prog τ ξ α} :
    wp (zoom view put m) Q X s ↔ wp m (fun a t => Q a (put t s)) (fun x t => X x (put t s)) (view s) := by
  unfold wp
  rw [exec_zoom]
  rcases m.exec (view s) with ⟨_ | _, t⟩ <;> rfl

theorem wp_catching {c : ξ → Bool} {m h : Prog σ ξ α} :
    wp (catching c m h) Q X s ↔ wp m Q (fun x t => if c x then wp h Q X t else X x t) s := by
  unfold wp
  rw [exec_catching]
  rcases m.exec s with ⟨x | _, t⟩
  · by_cases hc : c x <;> simp [hc]
  · rfl

theorem wp_ite {p : Prop} [Decidable p] {m n : Prog σ ξ α} :
    wp (if p then m else n) Q X s ↔ if p then wp m Q X s else wp n Q X s := by split <;> rfl

@[simp] theorem wp_when {p : Prop} [Decidable p] {m : Prog σ ξ Unit} {Q : Unit → σ → Prop} :
    wp (when p m) Q X s ↔ if p then wp m Q X s else Q () s := by unfold when; split <;> rfl

theorem wp_mono {m : Prog σ ξ α} (h : wp m Q X s) (hQ : ∀ a t, Q a t → Q' a t) (hX : ∀ x t, X x t → X' x t) :
    wp m Q' X' s := by
  unfold wp at h ⊢
  rcases hm : m.exec s with ⟨x | a, t⟩
  · rw [hm] at h
    exact hX x t h
  · rw [hm] at h
    exact hQ a t h

theorem wp_iff_exec {m : Prog σ ξ α} : wp m Q X s ↔
    (∀ a t, m.exec s = (.ok a, t) → Q a t) ∧ ∀ x t, m.exec s = (.error x, t) → X x t := by
  unfold wp
  rcases m.exec s with ⟨x | a, t⟩ <;> simp

/-- However the program ends, it leaves a state that has the property. -/
theorem after_of_wp {m : Prog σ ξ α} {P : σ → Prop} (h : wp m (fun _ => P) (fun _ => P) s) : P (m.after s) := by
  unfold wp at h
  unfold after
  rcases hm : m.exec s with ⟨x | a, t⟩ <;> rw [hm] at h <;> exact h

theorem wp_and {m : Prog σ ξ α} (h : wp m Q X s) (h' : wp m Q' X' s) :
    wp m (fun a t => Q a t ∧ Q' a t) (fun x t => X x t ∧ X' x t) s := by
  rw [wp_iff_exec] at *
  exact ⟨fun a t hm => ⟨h.1 a t hm, h'.1 a t hm⟩, fun x t hm => ⟨h.2 x t hm, h'.2 x t hm⟩⟩

/-- A loop: what holds of the turns made so far, if each turn keeps it. -/
theorem wp_forM_of_step {f : β → Prog σ ξ Unit} {l : List β} {I : List β → σ → Prop} {X : ξ → σ → Prop} {s : σ}
    (h0 : I [] s)
    (hstep : ∀ pre b post t, l = pre ++ b :: post → (forM pre f).exec s = (.ok (), t) → I pre t →
      wp (f b) (fun _ u => I (pre ++ [b]) u) X t) :
    wp (forM l f) (fun _ t => I l t) X s := by
  suffices h : ∀ post pre t, l = pre ++ post → (forM pre f).exec s = (.ok (), t) → I pre t →
      wp (forM post f) (fun _ u => I l u) X t from h l [] s rfl rfl h0
  intro post
  induction post with
  | nil =>
    intro pre t hl _ hpre
    rw [List.append_nil] at hl
    rw [hl]
    exact hpre
  | cons b post ih =>
    intro pre t hl ht hpre
    rw [List.forM_cons, wp_bind]
    have hturn := hstep pre b post t hl ht hpre
    rw [wp_iff_exec] at hturn ⊢
    refine ⟨fun _ u hu => ih (pre ++ [b]) u (by simp [hl]) ?_ (hturn.1 _ u hu), hturn.2⟩
    rw [List.forM_append, exec_bind_ok ht, List.forM_cons, exec_bind_ok hu]
    rfl

/-- A loop stops in no bad way exactly when none of its turns does, from the state it starts in. -/
theorem wp_forM_iff {f : β → Prog σ ξ Unit} {l : List β} {X : ξ → Prop} {s : σ} :
    wp (forM l f) (fun _ _ => True) (fun x _ => X x) s ↔
      ∀ pre b post t, l = pre ++ b :: post → (forM pre f).exec s = (.ok (), t) →
        wp (f b) (fun _ _ => True) (fun x _ => X x) t := by
  induction l generalizing s with
  | nil => simp
  | cons b l ih =>
    rw [List.forM_cons, wp_bind]
    constructor
    · intro h pre c post t hl ht
      cases pre with
      | nil =>
        obtain ⟨rfl, rfl⟩ := List.cons.inj hl
        cases ht
        exact wp_mono h (fun _ _ _ => trivial) fun _ _ hx => hx
      | cons _ pre =>
        obtain ⟨rfl, hl'⟩ := List.cons.inj hl
        rw [List.forM_cons, exec_bind] at ht
        rcases hb : (f b).exec s with ⟨x | _, u⟩
        · simp [hb] at ht
        · rw [hb] at ht
          exact ih.mp ((wp_iff_exec.mp h).1 _ u hb) pre c post t hl' ht
    · intro h
      refine wp_iff_exec.mpr ⟨fun _ u hu => ih.mpr fun pre c post t hl ht => ?_, fun x u hu => ?_⟩
      · refine h (b :: pre) c post t (by rw [hl]; rfl) ?_
        rw [List.forM_cons, exec_bind_ok hu]
        exact ht
      · exact (wp_iff_exec.mp (h [] b l s rfl rfl)).2 x u hu

end wp

/-! ## What a program can change -/

/-- However `m` ends, its last state is related to its first one, and how it stops early is
    to be blamed on the first one. -/
structure Keeps (R : σ → σ → Prop) (B : ξ → σ → Prop) (m : Prog σ ξ α) : Prop where
  from_ : ∀ s, wp m (fun _ t => R s t) (fun x t => R s t ∧ B x s) s

section Keeps

variable {R : σ → σ → Prop} {B : ξ → σ → Prop}

theorem Keeps.pure (hr : ∀ s, R s s) (a : α) : Keeps R B (Pure.pure a : Prog σ ξ α) := ⟨hr⟩

theorem Keeps.throw (hr : ∀ s, R s s) {x : ξ} (hx : ∀ s, B x s) : Keeps R B (MonadExcept.throw x : Prog σ ξ α) :=
  ⟨fun s => ⟨hr s, hx s⟩⟩

theorem Keeps.get (hr : ∀ s, R s s) : Keeps R B (MonadState.get : Prog σ ξ σ) := ⟨hr⟩

theorem Keeps.modify {f : σ → σ} (h : ∀ s, R s (f s)) : Keeps R B (modify f : Prog σ ξ PUnit) := ⟨h⟩

/-- From a state where the first part keeps `R`, the sequence does if the second part does. -/
theorem Keeps.bind_at (ht : ∀ a b c, R a b → R b c → R a c) (hb : ∀ x s t, R s t → B x t → B x s)
    {m : Prog σ ξ α} {f : α → Prog σ ξ β} {s : σ}
    (hm : wp m (fun _ t => R s t) (fun x t => R s t ∧ B x s) s) (hf : ∀ a, Keeps R B (f a)) :
    wp (m >>= f) (fun _ t => R s t) (fun x t => R s t ∧ B x s) s := by
  rw [wp_bind]
  refine wp_mono hm (fun a t h => ?_) (fun _ _ h => h)
  exact wp_mono ((hf a).from_ t) (fun _ u hu => ht _ _ _ h hu) (fun x u hu => ⟨ht _ _ _ h hu.1, hb x _ _ h hu.2⟩)

theorem Keeps.bind (ht : ∀ a b c, R a b → R b c → R a c) (hb : ∀ x s t, R s t → B x t → B x s)
    {m : Prog σ ξ α} {f : α → Prog σ ξ β} (hm : Keeps R B m) (hf : ∀ a, Keeps R B (f a)) : Keeps R B (m >>= f) :=
  ⟨fun s => Keeps.bind_at ht hb (hm.from_ s) hf⟩

theorem Keeps.catching (ht : ∀ a b c, R a b → R b c → R a c) (hb : ∀ x s t, R s t → B x t → B x s)
    {c : ξ → Bool} {m h : Prog σ ξ α} (hm : Keeps R B m) (hh : Keeps R B h) : Keeps R B (catching c m h) := by
  constructor
  intro s
  rw [wp_catching]
  refine wp_mono (hm.from_ s) (fun _ _ h => h) fun x t hx => ?_
  split
  · exact wp_mono (hh.from_ t) (fun _ u hu => ht _ _ _ hx.1 hu)
      (fun y u hu => ⟨ht _ _ _ hx.1 hu.1, hb y _ _ hx.1 hu.2⟩)
  · exact hx

theorem Keeps.tryCatch (ht : ∀ a b c, R a b → R b c → R a c) (hb : ∀ x s t, R s t → B x t → B x s) {m : Prog σ ξ α}
    {h : ξ → Prog σ ξ α} (hm : Keeps R B m) (hh : ∀ x, Keeps R B (h x)) : Keeps R B (tryCatch m h : Prog σ ξ α) := by
  constructor
  intro s
  have hfirst := hm.from_ s
  unfold wp at hfirst ⊢
  rw [exec_tryCatch]
  rcases hs : m.exec s with ⟨x | a, t⟩
  · rw [hs] at hfirst
    exact wp_mono ((hh x).from_ t) (fun _ u hu => ht _ _ _ hfirst.1 hu)
      (fun y u hu => ⟨ht _ _ _ hfirst.1 hu.1, hb y _ _ hfirst.1 hu.2⟩)
  · rw [hs] at hfirst
    exact hfirst

theorem Keeps.ite {p : Prop} [Decidable p] {m n : Prog σ ξ α} (hm : p → Keeps R B m) (hn : ¬ p → Keeps R B n) :
    Keeps R B (if p then m else n) := by
  split
  · exact hm ‹_›
  · exact hn ‹_›

theorem Keeps.when (hr : ∀ s, R s s) {p : Prop} [Decidable p] {m : Prog σ ξ Unit} (hm : p → Keeps R B m) :
    Keeps R B (when p m) := Keeps.ite hm fun _ => Keeps.pure hr ()

theorem Keeps.forM (hr : ∀ s, R s s) (ht : ∀ a b c, R a b → R b c → R a c) (hb : ∀ x s t, R s t → B x t → B x s)
    {f : β → Prog σ ξ Unit} (hf : ∀ b, Keeps R B (f b)) (l : List β) : Keeps R B (forM l f) := by
  induction l with
  | nil => exact Keeps.pure hr _
  | cons b l ih => exact Keeps.bind ht hb (hf b) fun _ => ih

/-- A program on a part of the state: its stops are blamed wherever they may occur. -/
theorem Keeps.zoom {C : ξ → τ → Prop} {view : σ → τ} {put : τ → σ → σ} (h : ∀ s t, R s (put t s))
    (hb : ∀ x s, C x (view s) → B x s) {m : Prog τ ξ α} (hm : Keeps (fun _ _ => True) C m) :
    Keeps R B (zoom view put m) := by
  constructor
  intro s
  rw [wp_zoom]
  exact wp_mono (hm.from_ (view s)) (fun _ t _ => h s t) (fun x t hx => ⟨h s t, hb x s hx.2⟩)

end Keeps

/-- `m` keeps `R`, but for the stops that `c` leaves out. -/
structure KeepsIf (c : ξ → Bool) (R : σ → σ → Prop) (m : Prog σ ξ α) : Prop where
  from_ : ∀ s, wp m (fun _ t => R s t) (fun x t => c x = true → R s t) s

section KeepsIf

variable {c : ξ → Bool} {R : σ → σ → Prop}

theorem KeepsIf.pure (hr : ∀ s, R s s) (a : α) : KeepsIf c R (Pure.pure a : Prog σ ξ α) := ⟨hr⟩

theorem KeepsIf.throw (hr : ∀ s, R s s) (x : ξ) : KeepsIf c R (MonadExcept.throw x : Prog σ ξ α) := ⟨fun s _ => hr s⟩

theorem KeepsIf.get (hr : ∀ s, R s s) : KeepsIf c R (MonadState.get : Prog σ ξ σ) := ⟨hr⟩

theorem KeepsIf.modify {f : σ → σ} (h : ∀ s, R s (f s)) : KeepsIf c R (modify f : Prog σ ξ PUnit) := ⟨h⟩

theorem KeepsIf.bind_at (ht : ∀ a b c, R a b → R b c → R a c) {m : Prog σ ξ α} {f : α → Prog σ ξ β} {s : σ}
    (hm : wp m (fun _ t => R s t) (fun x t => c x = true → R s t) s) (hf : ∀ a, KeepsIf c R (f a)) :
    wp (m >>= f) (fun _ t => R s t) (fun x t => c x = true → R s t) s := by
  rw [wp_bind]
  refine wp_mono hm (fun a t h => ?_) (fun _ _ h => h)
  exact wp_mono ((hf a).from_ t) (fun _ u hu => ht _ _ _ h hu) (fun x u hu hx => ht _ _ _ h (hu hx))

theorem KeepsIf.bind (ht : ∀ a b c, R a b → R b c → R a c) {m : Prog σ ξ α} {f : α → Prog σ ξ β} (hm : KeepsIf c R m)
    (hf : ∀ a, KeepsIf c R (f a)) : KeepsIf c R (m >>= f) := ⟨fun s => KeepsIf.bind_at ht (hm.from_ s) hf⟩

/-- What is caught must not be left out. -/
theorem KeepsIf.catching (ht : ∀ a b c, R a b → R b c → R a c) {d : ξ → Bool} (hd : ∀ x, d x = true → c x = true)
    {m h : Prog σ ξ α} (hm : KeepsIf c R m) (hh : KeepsIf c R h) : KeepsIf c R (catching d m h) := by
  constructor
  intro s
  rw [wp_catching]
  refine wp_mono (hm.from_ s) (fun _ _ h => h) fun x t hx => ?_
  split
  case isTrue hcaught =>
    have hst := hx (hd x hcaught)
    exact wp_mono (hh.from_ t) (fun _ u hu => ht _ _ _ hst hu) (fun y u hu hy => ht _ _ _ hst (hu hy))
  case isFalse => exact hx

theorem KeepsIf.ite {p : Prop} [Decidable p] {m n : Prog σ ξ α} (hm : p → KeepsIf c R m) (hn : ¬ p → KeepsIf c R n) :
    KeepsIf c R (if p then m else n) := by
  split
  · exact hm ‹_›
  · exact hn ‹_›

theorem KeepsIf.forM (hr : ∀ s, R s s) (ht : ∀ a b c, R a b → R b c → R a c) {f : β → Prog σ ξ Unit}
    (hf : ∀ b, KeepsIf c R (f b)) (l : List β) : KeepsIf c R (forM l f) := by
  induction l with
  | nil => exact KeepsIf.pure hr _
  | cons b l ih => exact KeepsIf.bind ht (hf b) fun _ => ih

end KeepsIf

/-! ## What a program does not look at -/

/-- Running `m` commutes with every overwrite `k i`. -/
structure Steady (k : ι → σ → σ) (m : Prog σ ξ α) : Prop where
  exec_eq : ∀ i s, m.exec (k i s) = ((m.exec s).1, k i (m.exec s).2)

section Steady

variable {k : ι → σ → σ}

theorem Steady.pure (a : α) : Steady k (Pure.pure a : Prog σ ξ α) := ⟨fun _ _ => rfl⟩

theorem Steady.throw (x : ξ) : Steady k (MonadExcept.throw x : Prog σ ξ α) := ⟨fun _ _ => rfl⟩

theorem Steady.modify {f : σ → σ} (h : ∀ i s, f (k i s) = k i (f s)) : Steady k (modify f : Prog σ ξ PUnit) :=
  ⟨fun i s => by simp [h i s]⟩

theorem Steady.bind {m : Prog σ ξ α} {f : α → Prog σ ξ β} (hm : Steady k m) (hf : ∀ a, Steady k (f a)) :
    Steady k (m >>= f) := by
  constructor
  intro i s
  rw [exec_bind, exec_bind, hm.exec_eq i s]
  rcases m.exec s with ⟨x | a, t⟩
  · rfl
  · exact (hf a).exec_eq i t

/-- Reading the state, and on with a program that uses only what `k` leaves alone. -/
theorem Steady.get_bind {f : σ → Prog σ ξ α} (h : ∀ i s, f (k i s) = f s) (hf : ∀ s, Steady k (f s)) :
    Steady k (get >>= f) := by
  constructor
  intro i s
  rw [exec_bind_ok (exec_get _), exec_bind_ok (exec_get _), h]
  exact (hf s).exec_eq i s

theorem Steady.ite {p : Prop} [Decidable p] {m n : Prog σ ξ α} (hm : p → Steady k m) (hn : ¬ p → Steady k n) :
    Steady k (if p then m else n) := by
  split
  · exact hm ‹_›
  · exact hn ‹_›

theorem Steady.when {p : Prop} [Decidable p] {m : Prog σ ξ Unit} (hm : p → Steady k m) : Steady k (when p m) :=
  Steady.ite hm fun _ => Steady.pure ()

theorem Steady.catching {c : ξ → Bool} {m h : Prog σ ξ α} (hm : Steady k m) (hh : Steady k h) :
    Steady k (catching c m h) := by
  constructor
  intro i s
  rw [exec_catching, exec_catching, hm.exec_eq i s]
  rcases m.exec s with ⟨x | a, t⟩
  · dsimp only
    split
    · exact hh.exec_eq i t
    · rfl
  · rfl

theorem Steady.tryCatch {m : Prog σ ξ α} {h : ξ → Prog σ ξ α} (hm : Steady k m) (hh : ∀ x, Steady k (h x)) :
    Steady k (tryCatch m h : Prog σ ξ α) := by
  constructor
  intro i s
  rw [exec_tryCatch, exec_tryCatch, hm.exec_eq i s]
  rcases m.exec s with ⟨x | a, t⟩
  · exact (hh x).exec_eq i t
  · rfl

theorem Steady.zoom {view : σ → τ} {put : τ → σ → σ} (hv : ∀ i s, view (k i s) = view s)
    (hp : ∀ i s t, put t (k i s) = k i (put t s)) (m : Prog τ ξ α) : Steady k (zoom view put m) :=
  ⟨fun i s => by rw [exec_zoom, exec_zoom, hv, hp]⟩

end Steady

/-! ## Two runs of a program -/

/-- From related states both runs end in the same way: with a value, in states related by
    `S`, or stopped, in states related by `T`. -/
structure Relates (R : σ → σ → Prop) (m : Prog σ ξ α) (S : α → σ → σ → Prop) (T : σ → σ → Prop) : Prop where
  from_ : ∀ s s', R s s' → (m.exec s').1 = (m.exec s).1 ∧ match (m.exec s).1 with
    | .ok a => S a (m.exec s).2 (m.exec s').2
    | .error _ => T (m.exec s).2 (m.exec s').2

section Relates

variable {R : σ → σ → Prop} {T : σ → σ → Prop}

theorem Relates.pure {S : α → σ → σ → Prop} {a : α} (h : ∀ s s', R s s' → S a s s') :
    Relates R (Pure.pure a : Prog σ ξ α) S T := ⟨fun s s' hr => ⟨rfl, h s s' hr⟩⟩

theorem Relates.throw {S : α → σ → σ → Prop} {x : ξ} (h : ∀ s s', R s s' → T s s') :
    Relates R (MonadExcept.throw x : Prog σ ξ α) S T := ⟨fun s s' hr => ⟨rfl, h s s' hr⟩⟩

theorem Relates.modify {S : PUnit → σ → σ → Prop} {f : σ → σ} (h : ∀ s s', R s s' → S ⟨⟩ (f s) (f s')) :
    Relates R (modify f : Prog σ ξ PUnit) S T := ⟨fun s s' hr => ⟨rfl, h s s' hr⟩⟩

theorem Relates.bind {U : α → σ → σ → Prop} {S : β → σ → σ → Prop} {m : Prog σ ξ α} {f : α → Prog σ ξ β}
    (hm : Relates R m U T) (hf : ∀ a, Relates (U a) (f a) S T) : Relates R (m >>= f) S T := by
  constructor
  intro s s' hr
  obtain ⟨hsame, hpost⟩ := hm.from_ s s' hr
  rw [exec_bind, exec_bind]
  rcases hs : m.exec s with ⟨x | a, t⟩ <;> rcases hs' : m.exec s' with ⟨x' | a', t'⟩ <;> rw [hs, hs'] at hsame hpost <;>
    cases hsame
  · exact ⟨rfl, hpost⟩
  · exact (hf a).from_ t t' hpost

/-- Reading the state, and on with a program in which the two runs read the same. -/
theorem Relates.get_bind {S : α → σ → σ → Prop} {f : σ → Prog σ ξ α} (h : ∀ s s', R s s' → f s' = f s)
    (hf : ∀ s, Relates R (f s) S T) : Relates R (get >>= f) S T := by
  constructor
  intro s s' hr
  rw [exec_bind_ok (exec_get s), exec_bind_ok (exec_get s'), h s s' hr]
  exact (hf s).from_ s s' hr

theorem Relates.forM {f : β → Prog σ ξ Unit} {l : List β} (h : ∀ b ∈ l, Relates R (f b) (fun _ => R) T) :
    Relates R (forM l f) (fun _ => R) T := by
  induction l with
  | nil => exact .pure fun _ _ hr => hr
  | cons b l ih =>
    rw [List.forM_cons]
    exact .bind (h b List.mem_cons_self) fun _ => ih fun b' hb' => h b' (List.mem_cons_of_mem _ hb')

theorem Relates.mono {S S' : α → σ → σ → Prop} {T' : σ → σ → Prop} {m : Prog σ ξ α} (h : Relates R m S T)
    (hS : ∀ a s s', S a s s' → S' a s s') (hT : ∀ s s', T s s' → T' s s') : Relates R m S' T' := by
  constructor
  intro s s' hr
  obtain ⟨hsame, hpost⟩ := h.from_ s s' hr
  refine ⟨hsame, ?_⟩
  cases hs : (m.exec s).1 with
  | error x => exact hT _ _ (by rwa [hs] at hpost)
  | ok a => exact hS a _ _ (by rwa [hs] at hpost)

theorem Relates.ite {S : α → σ → σ → Prop} {p : Prop} [Decidable p] {m n : Prog σ ξ α} (hm : p → Relates R m S T)
    (hn : ¬ p → Relates R n S T) : Relates R (if p then m else n) S T := by
  split
  · exact hm ‹_›
  · exact hn ‹_›

theorem Relates.when {S : Unit → σ → σ → Prop} {p : Prop} [Decidable p] {m : Prog σ ξ Unit} (hm : p → Relates R m S T)
    (hn : ¬ p → ∀ s s', R s s' → S () s s') : Relates R (when p m) S T :=
  .ite hm fun hp => .pure (hn hp)

theorem Relates.catching {S : α → σ → σ → Prop} {c : ξ → Bool} {m h : Prog σ ξ α} (hm : Relates R m S T)
    (hh : Relates T h S T) : Relates R (catching c m h) S T := by
  constructor
  intro s s' hr
  obtain ⟨hsame, hpost⟩ := hm.from_ s s' hr
  rw [exec_catching, exec_catching]
  rcases hs : m.exec s with ⟨x | a, t⟩ <;> rcases hs' : m.exec s' with ⟨x' | a', t'⟩ <;> rw [hs, hs'] at hsame hpost <;>
    cases hsame
  · dsimp only
    split
    · exact hh.from_ t t' hpost
    · exact ⟨rfl, hpost⟩
  · exact ⟨rfl, hpost⟩

end Relates

end Prog
end CoreMiner.Lib
