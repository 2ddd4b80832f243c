/-
  CoreMiner.Api.Segments — the nonce segments the API reports, against those the miners were given
  (`ApiServer.cpp`: `getMinerStatDetailPerMiner`; `Farm.cpp`: `setWork`; `API.md`:
  `miner_getscramblerinfo`).

  The API does not read what was assigned. It starts from the scrambler and the width the farm has
  now, as `setWork` does for a job without extranonce. For a job with one, `setWork` starts from
  the nonce the pool gave out: what is reported then is what is searched only if that nonce happens
  to be the scrambler (`segments_reported_iff`).
-/

import CoreMiner.Api.Responses
import CoreMiner.EthCore.Pausing

namespace CoreMiner.EthCore.Farm

/-! ## What `setWork` hands out -/

def Numbered (f : Farm) : Prop := ∀ (i : Nat) (m : Miner), f.miners[i]? = some m → m.index = i

theorem Numbered.setWork {f g : Farm} {wp : WorkPackage} {random : UInt64} {given : List WorkPackage}
    (hf : f.Numbered) (h : f.setWork wp random = some (g, given)) : g.Numbered := by
  obtain ⟨-, enter, hsame, hminers⟩ := setWork_miners h
  intro i m hm
  rw [hminers, List.getElem?_zipWith] at hm
  split at hm
  · rename_i x y hx hy
    cases hm
    have hindex : ((enter x).setWork y).index = (enter x).index := by
      unfold Miner.setWork
      split <;> rfl
    rw [hindex, (hsame x).2]
    exact hf i x hx
  · cases hm

theorem reach_numbered {f : Farm} (h : Reach f) : f.Numbered := by
  have hmap {f : Farm} {change : Miner → Miner} (hf : f.Numbered) (hindex : ∀ m, (change m).index = m.index) :
      Numbered { f with miners := f.miners.map change } := by
    intro i m hm
    obtain ⟨x, hx, rfl⟩ := Option.map_eq_some_iff.mp ((List.getElem?_map ..).symm.trans hm)
    rw [hindex]
    exact hf i x hx
  induction h with
  | init => intro i m hm; simp [init] at hm
  | @step f g op _ _ happ ih =>
    cases op with
    | setWork wp random =>
      obtain ⟨⟨g', given⟩, hset, rfl⟩ := Option.map_eq_some_iff.mp happ
      exact ih.setWork hset
    | setScramblerInfo nonce width =>
      cases happ
      unfold setScramblerInfo setNonceSegmentWidth
      repeat' split
      all_goals exact ih
    | start =>
      cases happ
      unfold start
      repeat' split
      · exact ih
      · intro i m hm
        obtain ⟨x, hx, rfl⟩ := Option.map_eq_some_iff.mp ((List.getElem?_map ..).symm.trans hm)
        exact (List.getElem?_eq_some_iff.mp hx).2 ▸ List.getElem_range _
      · exact ih
    | stop =>
      cases happ
      unfold stop
      split
      · intro i m hm
        cases hm
      · exact ih
    | pause => cases happ; exact hmap ih fun _ => rfl
    | resume => cases happ; exact hmap ih fun _ => rfl
    | _ => cases happ; exact ih

/-- Where the first segment of a job starts. -/
theorem setWork_start {f g : Farm} {wp : WorkPackage} {random : UInt64} {given : List WorkPackage}
    (h : f.setWork wp random = some (g, given)) :
    (f.miners.length ≠ 0 → g.nonceSegmentWidth < 64) ∧
    (0 < wp.exSizeBytes → f.miners.length ≠ 0 ∧ g.nonceScrambler = f.nonceScrambler) ∧
    given = packages wp (if 0 < wp.exSizeBytes then wp.startNonce else g.nonceScrambler) g.nonceSegmentWidth
      f.miners.length := by
  obtain ⟨scrambler, start, width, hscrambler, hchoose, hwidth, rfl, rfl⟩ := setWork_cases h
  rw [chooseSegments] at hchoose
  by_cases hex : 0 < wp.exSizeBytes
  · rw [if_pos hex] at hchoose ⊢
    obtain ⟨w, hw, heq⟩ := Option.map_eq_some_iff.mp hchoose
    cases heq
    refine ⟨hwidth, fun _ => ⟨fun hn => ?_, hscrambler hex⟩, rfl⟩
    rw [segmentWidth, if_pos (.inl hn)] at hw
    cases hw
  · rw [if_neg hex] at hchoose ⊢
    cases hchoose
    exact ⟨hwidth, fun h => absurd h hex, rfl⟩

end CoreMiner.EthCore.Farm

namespace CoreMiner.Api

open DevCore EthCore Lib

/-! ## The report -/

def Node.withFarm (n : Node) (f : Farm) : Node := { n with pools := { n.pools with farm := f } }

def segmentMember (j : Json) : Option Json := (j.member "mining").bind (·.member "segment")

theorem segmentMember_report {E : Env} {m : Moment} {n : Node} {miner : Miner} {j : Json}
    (h : getMinerStatDetailPerMiner E m n miner = .ok j) :
    let start := Farm.segmentStart n.pools.farm.nonceScrambler n.pools.farm.nonceSegmentWidth miner.index
    segmentMember j = some (.arr [.str (toHex start .add 16),
      .str (toHex (Farm.segmentStart start n.pools.farm.nonceSegmentWidth 1) .add 16)]) := by
  unfold getMinerStatDetailPerMiner at h
  dsimp only at h
  cases hmemory : getFormattedMemory E (n.descriptor miner.index).totalMemory with
  | error e => rw [hmemory] at h; cases h
  | ok memory =>
    cases htelemetry : n.telemetry.miners[miner.index]? with
    | none => rw [hmemory, htelemetry] at h; cases h
    | some t =>
      rw [hmemory, htelemetry] at h
      cases h
      rfl

theorem toHex_inj {a b : UInt64} (h : toHex a .add 16 = toHex b .add 16) : a = b := by
  have htext (n : UInt64) : toHex n .add 16 = "0x" ++ toHex n .dontAdd 16 := rfl
  rw [htext, htext, String.append_right_inj] at h
  have hvalue := congrArg (fun s => hexValue s.toList) h
  simp only [(toHex_spec _).2.1] at hvalue
  exact UInt64.toNat_inj.mp hvalue

theorem segmentStart_one (start : UInt64) {width : Nat} (h : width < 64) :
    Farm.segmentStart start width 1 = start + UInt64.ofNat (2 ^ width) := by
  rw [← UInt64.toNat_inj, Farm.segmentStart_toNat start h, UInt64.toNat_add, UInt64.toNat_ofNat', Nat.one_mul,
    Nat.add_mod_mod]

/-- Each miner's report names the segment it was given: its start, and the start plus the width. -/
def ReportsGiven (E : Env) (m : Moment) (n : Node) (given : List WorkPackage) : Prop :=
  ∀ (i : Nat) (miner : Miner) (wp : WorkPackage) (j : Json), n.pools.farm.miners[i]? = some miner →
    given[i]? = some wp → getMinerStatDetailPerMiner E m n miner = .ok j →
      segmentMember j = some (.arr [.str (toHex wp.startNonce .add 16),
        .str (toHex (wp.startNonce + UInt64.ofNat (2 ^ n.pools.farm.nonceSegmentWidth)) .add 16)])

/-- Right after `setWork` the reports name what was given exactly if the job has no extranonce, or the nonce it starts
    from is the farm's scrambler. -/
theorem segments_reported_iff {E : Env} {m : Moment} {n : Node} {wp : WorkPackage} {random : UInt64} {g : Farm}
    {given : List WorkPackage} (hnumbered : n.pools.farm.Numbered)
    (hset : n.pools.farm.setWork wp random = some (g, given))
    (hreports : ∀ miner ∈ g.miners, ∃ j, getMinerStatDetailPerMiner E m (n.withFarm g) miner = .ok j) :
    ReportsGiven E m (n.withFarm g) given ↔ wp.exSizeBytes = 0 ∨ wp.startNonce = n.pools.farm.nonceScrambler := by
  obtain ⟨hwidth, hex, hgiven⟩ := Farm.setWork_start hset
  obtain ⟨hlength, enter, -, hminers⟩ := Farm.setWork_miners hset
  have hpositive : wp.exSizeBytes = 0 ↔ ¬ 0 < wp.exSizeBytes := by
    rw [UInt16.lt_iff_toNat_lt, ← UInt16.toNat_inj]
    simp
  have hpackage {i : Nat} {p : WorkPackage} (hp : given[i]? = some p) : i < n.pools.farm.miners.length ∧
      p.startNonce = Farm.segmentStart (if 0 < wp.exSizeBytes then wp.startNonce else g.nonceScrambler)
        g.nonceSegmentWidth i := by
    rw [hgiven, Farm.packages] at hp
    obtain ⟨x, hx, rfl⟩ := Option.map_eq_some_iff.mp ((List.getElem?_map ..).symm.trans hp)
    obtain ⟨hi, rfl⟩ := List.getElem?_eq_some_iff.mp hx
    exact ⟨by simpa using hi, by rw [List.getElem_range]⟩
  constructor
  · intro h
    by_contra hno
    rw [not_or, hpositive, not_not] at hno
    obtain ⟨hex', hne⟩ := hno
    obtain ⟨hn, hscrambler⟩ := hex hex'
    -- The first miner tells.
    have h0 : 0 < g.miners.length := by
      rw [hminers, List.length_zipWith, hlength]
      omega
    obtain ⟨j, hj⟩ := hreports g.miners[0] (List.getElem_mem h0)
    have hp : given[0]? = some given[0] := List.getElem?_eq_getElem (by omega)
    have hmember := h 0 g.miners[0] given[0] j (List.getElem?_eq_getElem h0) hp hj
    rw [segmentMember_report hj, (hnumbered.setWork hset) 0 g.miners[0] (List.getElem?_eq_getElem h0)] at hmember
    have hstart := toHex_inj (Json.str.inj (List.cons.inj (Json.arr.inj (Option.some.inj hmember))).1)
    rw [(hpackage hp).2, if_pos hex'] at hstart
    exact hne ((UInt64.add_left_inj _).mp (hstart.symm.trans (congrArg (Farm.segmentStart · _ 0) hscrambler)))
  · intro h i miner p j hminer hp hj
    obtain ⟨hi, hstart⟩ := hpackage hp
    have hscrambler : (if 0 < wp.exSizeBytes then wp.startNonce else g.nonceScrambler) = g.nonceScrambler := by
      split
      · rename_i hex'
        rw [(hex hex').2]
        exact h.resolve_left fun h0 => hpositive.mp h0 hex'
      · rfl
    have hfarm : (n.withFarm g).pools.farm = g := rfl
    rw [segmentMember_report hj, (hnumbered.setWork hset) i miner hminer, hstart, hscrambler, hfarm,
      ← segmentStart_one _ (hwidth (by omega))]

def oneMiner : Node := { plainNode 0 with
  pools := { (plainNode 0).pools with farm := (Farm.init [.cpu] 0 7).start }
  telemetry := { start := 0, miners := [{}] } }

def twoMiners : Node := { plainNode 0 with
  pools := { (plainNode 0).pools with farm := (Farm.init [.cpu, .cpu] 0 7).start }
  telemetry := { start := 0, miners := [{}, {}] } }

def plainJob : WorkPackage where
  job := "1"
  boundary := ⟨List.replicate 32 255, rfl⟩
  header := ⟨List.replicate 32 36, rfl⟩
  epoch := 3

/-- A job without extranonce, for two miners. -/
theorem plain_job_reported : ∃ g given, twoMiners.pools.farm.setWork plainJob 0 = some (g, given) ∧
    given.map (·.startNonce) = [7, 4294967303] ∧ ReportsGiven plainEnv plainMoment (twoMiners.withFarm g) given := by
  have hnumbered : twoMiners.pools.farm.Numbered :=
    Farm.reach_numbered (.step .start (.init [.cpu, .cpu] 0 7) trivial rfl)
  have hset : twoMiners.pools.farm.setWork plainJob 0 = some
      (twoMiners.pools.farm.assign plainJob 32 (Farm.packages plainJob 7 32 2), Farm.packages plainJob 7 32 2) := rfl
  refine ⟨_, _, hset, by decide, (segments_reported_iff hnumbered hset ?_).mpr (.inl rfl)⟩
  intro miner hminer
  rcases List.mem_pair.mp hminer with rfl | rfl
  · exact ⟨_, rfl⟩
  · exact ⟨_, rfl⟩

def extranonceJob : WorkPackage := { exSizeBytes := 2, startNonce := 0x2a00000000000000 }

/-- The miner searches from there, and the API names the scrambler. -/
theorem extranonce_not_reported : ∃ g given, oneMiner.pools.farm.setWork extranonceJob 0 = some (g, given) ∧
    ¬ ReportsGiven plainEnv plainMoment (oneMiner.withFarm g) given := by
  have hchoose : oneMiner.pools.farm.chooseSegments extranonceJob = some (0x2a00000000000000, 56) := by decide
  have hset : oneMiner.pools.farm.setWork extranonceJob 0 =
      some (oneMiner.pools.farm.assign extranonceJob 56 [extranonceJob], [extranonceJob]) := by
    show oneMiner.pools.farm.distribute extranonceJob = _
    rw [Farm.distribute, hchoose]
    rfl
  refine ⟨_, _, hset, fun h => ?_⟩
  obtain ⟨j, hj⟩ : ∃ j, getMinerStatDetailPerMiner plainEnv plainMoment
      (oneMiner.withFarm (oneMiner.pools.farm.assign extranonceJob 56 [extranonceJob]))
      { index := 0, work := extranonceJob } = .ok j := ⟨_, rfl⟩
  have hmember := h 0 _ _ j rfl rfl hj
  rw [segmentMember_report hj] at hmember
  have hstart := toHex_inj (Json.str.inj (List.cons.inj (Json.arr.inj (Option.some.inj hmember))).1)
  exact absurd hstart (by decide +kernel)

end CoreMiner.Api
