/-
  CoreMiner.Stratum.Pleas — how the stratum client times the requests it waits an answer
  for (`XcbStratumClient.cpp`: `enqueue_response_plea`, `dequeue_response_plea`,
  `clear_response_pleas`).

  Three representations: a counter, the queue of enqueue times, and a cached time of the
  oldest request. Times are in nanoseconds of the steady clock, delays in milliseconds.
  The queue (`boost::lockfree::queue`, which allocates when it is full) holds exactly the
  unanswered requests and the counter counts them (`run_times`). The counter is an `int`; as
  each request it counts has a node in the queue, memory is out long before 2^31 of them, and
  it is a natural number here. The cache does not follow: a dequeue stores the time it has
  just popped, that of the request that was answered, instead of the time of the next one. So
  it is right exactly as long as no request is answered while the two oldest ones were made
  at different times (`accurate_iff`).
-/

import Mathlib.Data.List.Induction

namespace CoreMiner.Stratum

structure Pleas where
  count : Nat
  older : Nat
  times : List Nat
  deriving DecidableEq, Repr

def toMilliseconds (ns : Nat) : Nat := ns / 1000000

namespace Pleas

def enqueue (p : Pleas) (now : Nat) : Pleas :=
  { count := p.count + 1
    older := if p.count = 0 then now else p.older
    times := p.times ++ [now] }

/-- The delay is taken before the pop. -/
def dequeue (p : Pleas) (now : Nat) : Nat × Pleas :=
  let delay := toMilliseconds (now - p.older)
  let p := match p.times with
    | [] => p
    | t :: rest => { p with older := t, times := rest }
  if 0 < p.count then (delay, { p with count := p.count - 1 }) else (0, p)

def clear (now : Nat) : Pleas := { count := 0, older := now, times := [] }

/-! ## Runs -/

inductive Op where
  | enqueue
  | dequeue
  | clear
  deriving DecidableEq, Repr

def apply (p : Pleas) (now : Nat) : Op → Pleas
  | .enqueue => p.enqueue now
  | .dequeue => (p.dequeue now).2
  | .clear => clear now

/-- The client clears its pleas when it is built, at `t₀`. -/
def run (t₀ : Nat) (ops : List (Nat × Op)) : Pleas := ops.foldl (fun p x => p.apply x.1 x.2) (clear t₀)

/-- What the bookkeeping is for: the enqueue times of the requests not yet answered, oldest
    first, an answer being for the oldest one. -/
def unanswered (ops : List (Nat × Op)) : List Nat :=
  ops.foldl (fun u x => match x.2 with
    | .enqueue => u ++ [x.1]
    | .dequeue => u.tail
    | .clear => []) []

/-- After every operation the counter and the cached time are those of the unanswered
    requests, and every answered request is given its own delay. -/
def Accurate (t₀ : Nat) (ops : List (Nat × Op)) : Prop :=
  (∀ pre, pre <+: ops → (run t₀ pre).count = (unanswered pre).length ∧
    ∀ t ∈ (unanswered pre).head?, (run t₀ pre).older = t) ∧
  ∀ pre now, pre ++ [(now, .dequeue)] <+: ops →
    ∀ t ∈ (unanswered pre).head?, ((run t₀ pre).dequeue now).1 = toMilliseconds (now - t)

/-- No request is answered while the two oldest ones were made at different times. -/
def Unhurried (ops : List (Nat × Op)) : Prop :=
  ∀ pre now, pre ++ [(now, .dequeue)] <+: ops → ∀ a b rest, unanswered pre = a :: b :: rest → a = b

theorem run_append_singleton (t₀ : Nat) (ops : List (Nat × Op)) (now : Nat) (op : Op) :
    run t₀ (ops ++ [(now, op)]) = (run t₀ ops).apply now op := by
  simp [run]

theorem unanswered_append_singleton (ops : List (Nat × Op)) (now : Nat) (op : Op) :
    unanswered (ops ++ [(now, op)]) = match op with
      | .enqueue => unanswered ops ++ [now]
      | .dequeue => (unanswered ops).tail
      | .clear => [] := by
  simp [unanswered]

theorem run_times (t₀ : Nat) (ops : List (Nat × Op)) :
    (run t₀ ops).times = unanswered ops ∧ (run t₀ ops).count = (unanswered ops).length := by
  induction ops using List.reverseRecOn with
  | nil => exact ⟨rfl, rfl⟩
  | append_singleton ops x ih =>
    obtain ⟨now, op⟩ := x
    obtain ⟨ht, hc⟩ := ih
    rw [run_append_singleton, unanswered_append_singleton]
    cases op with
    | enqueue => simp [apply, enqueue, ht, hc]
    | dequeue =>
      cases hu : unanswered ops with
      | nil => simp [apply, dequeue, ht, hc, hu]
      | cons t rest => simp [apply, dequeue, ht, hc, hu]
    | clear => exact ⟨rfl, rfl⟩

/-- A dequeue leaves the cache at the time of the request it answered. -/
theorem older_after_dequeue {t₀ now a : Nat} {ops : List (Nat × Op)} {rest : List Nat}
    (h : unanswered ops = a :: rest) : (run t₀ (ops ++ [(now, .dequeue)])).older = a := by
  obtain ⟨ht, hc⟩ := run_times t₀ ops
  rw [run_append_singleton]
  simp [apply, dequeue, ht, hc, h]

theorem dequeue_delay (t₀ now : Nat) {ops : List (Nat × Op)} {t : Nat} (h : t ∈ (unanswered ops).head?)
    (holder : (run t₀ ops).older = t) : ((run t₀ ops).dequeue now).1 = toMilliseconds (now - t) := by
  obtain ⟨ht, hc⟩ := run_times t₀ ops
  obtain ⟨rest, hu⟩ := List.head?_eq_some_iff.mp h
  simp [dequeue, ht, hc, hu, holder]

/-- In an unhurried run the cache is the oldest unanswered request's time. -/
theorem older_of_unhurried {t₀ : Nat} {ops : List (Nat × Op)} (h : Unhurried ops) :
    ∀ t ∈ (unanswered ops).head?, (run t₀ ops).older = t := by
  induction ops using List.reverseRecOn with
  | nil => simp [unanswered]
  | append_singleton ops x ih =>
    obtain ⟨now, op⟩ := x
    have hops : Unhurried ops := fun pre n hp => h pre n (hp.trans (List.prefix_append _ _))
    have hc := (run_times t₀ ops).2
    rw [unanswered_append_singleton]
    cases op with
    | enqueue =>
      rw [run_append_singleton]
      cases hu : unanswered ops with
      | nil => simp [apply, enqueue, hc, hu]
      | cons t rest =>
        have hold := ih hops t (by simp [hu])
        simp [apply, enqueue, hc, hu, hold]
    | dequeue =>
      match hu : unanswered ops with
      | [] => simp
      | [a] => simp
      | a :: b :: rest =>
        have hab : a = b := h ops now (List.prefix_refl _) a b rest hu
        simp [older_after_dequeue hu, hab]
    | clear => simp

/-- The bookkeeping is accurate throughout a run exactly when no request is answered while
    the two oldest ones were made at different times. -/
theorem accurate_iff (t₀ : Nat) (ops : List (Nat × Op)) : Accurate t₀ ops ↔ Unhurried ops := by
  constructor
  · rintro ⟨hcache, -⟩ pre now hpre a b rest hu
    have hb := (hcache _ hpre).2 b (by rw [unanswered_append_singleton, hu]; rfl)
    rwa [older_after_dequeue hu] at hb
  · intro h
    have hpre : ∀ pre, pre <+: ops → ∀ t ∈ (unanswered pre).head?, (run t₀ pre).older = t :=
      fun pre hp => older_of_unhurried fun q n hq => h q n (hq.trans hp)
    refine ⟨fun pre hp => ⟨(run_times t₀ pre).2, hpre pre hp⟩, fun pre now hp t ht => ?_⟩
    exact dequeue_delay t₀ now ht (hpre pre ((List.prefix_append _ _).trans hp) t ht)

/-- Two requests a second apart, and the first one is answered a second later: the cache
    still says 0 although only the second request, made at one second, is outstanding. -/
theorem not_accurate_of_overlap :
    let ops : List (Nat × Op) := [(0, .enqueue), (1000000000, .enqueue), (2000000000, .dequeue)]
    (ops.map Prod.fst).Pairwise (· ≤ ·) ∧ unanswered ops = [1000000000] ∧ (run 0 ops).older = 0 ∧
      ¬ Accurate 0 ops := by
  refine ⟨by decide, by decide, by decide, fun h => ?_⟩
  have := (h.1 _ (List.prefix_refl _)).2 1000000000 (by decide)
  exact absurd this (by decide)

end Pleas
end CoreMiner.Stratum
