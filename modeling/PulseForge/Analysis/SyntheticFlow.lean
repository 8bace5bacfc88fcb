import PulseForge.Analysis.ExchangeMoves
import PulseForge.Analysis.FeedNumbering

/-!
# The first order of the synthetic flow

An order of the synthetic flow belongs to nobody. Its callbacks tell no session anything, whatever
the ids of the sessions are, so that a submit that only accepts it and lets it rest leaves every
session as it was. The first step of the flow on a symbol enters a passive order, which the seed
decides.
-/

set_option autoImplicit false

namespace PulseForge

open Foundation

namespace Exchange

variable {x : Exchange}

/-! ## Callbacks for nobody -/

/-- An order of nobody is accepted, or some order rests: no session is told. -/
def Unheard : Event → Prop
  | .accepted _ req => req.owner = 0
  | .rested _ _ => True
  | _ => False

/-- **What passes by the sessions**: the log and the feed take the events in. -/
structure Aside (events : List Event) (x y : Exchange) : Prop where
  sessions : y.sessions = x.sessions
  log : y.log = x.log ++ events
  dropEvery : y.md.dropEvery = x.md.dropEvery

/-- Publishing passes by them too. -/
theorem Aside.publish {events : List Event} {y : Exchange} (h : Aside events x y)
    (m : Itch.Message) : Aside events x (y.publish m) := by
  unfold Exchange.publish
  dsimp only
  split
  · exact ⟨h.sessions, h.log,
      (MarketDataFeed.dropEvery_publish y.md y.nowNs _).trans h.dropEvery⟩
  · exact h

/-- A callback that no session hears leaves the sessions alone. -/
theorem aside_on {cb : Callback} (h : Unheard cb.event) (x : Exchange) :
    Aside [cb.event] x (x.on cb) := by
  unfold on
  dsimp only
  cases hev : cb.event with
  | accepted locate req =>
    rw [hev] at h
    have hnone : ({ x with log := x.log ++ [.accepted locate req] } : Exchange).sessionFor
        req.owner = none :=
      if_pos h
    dsimp only
    rw [onAccepted, hnone]
    exact ⟨rfl, rfl, rfl⟩
  | rested locate o =>
    have htick : Aside [.rested locate o] x
        ({ x with log := x.log ++ [.rested locate o] } : Exchange).tick :=
      ⟨rfl, rfl, rfl⟩
    dsimp only
    rw [onRested]
    exact htick.publish _
  | rejected | fill | restingCancelled | takerCancelled =>
    rw [hev] at h
    exact h.elim

/-- Callbacks for nobody pass the sessions by. -/
theorem aside_foldl_on {cbs : List Callback} (h : ∀ cb ∈ cbs, Unheard cb.event) (x : Exchange) :
    Aside (cbs.map Callback.event) x (cbs.foldl on x) := by
  induction cbs generalizing x with
  | nil => exact ⟨rfl, (List.append_nil _).symm, rfl⟩
  | cons cb cbs ih =>
    obtain ⟨hsessions, hlog, hdrop⟩ := aside_on (h cb List.mem_cons_self) x
    obtain ⟨hsessions', hlog', hdrop'⟩ := ih (fun cb' hcb => h cb' (List.mem_cons_of_mem _ hcb))
      (x.on cb)
    refine ⟨hsessions'.trans hsessions, ?_, hdrop'.trans hdrop⟩
    rw [List.foldl_cons, hlog', hlog, List.append_assoc]
    rfl

/-- **A submit that no session hears** passes by the sessions, and the engine answers as the
reference matcher does. -/
theorem submit_unheard (hwf : x.engine.WF) {locate : ℕ} {req : OrderRequest}
    (h : ∀ ev ∈ (x.engine.abs.submit locate req).2, Unheard ev) :
    Aside (x.engine.abs.submit locate req).2 x (x.submit locate req) ∧
      (x.submit locate req).engine.WF ∧
      (x.submit locate req).engine.abs = (x.engine.abs.submit locate req).1 := by
  obtain ⟨e, cbs, hsubmit, hwf', habs, -⟩ := MatchingEngine.submit_spec hwf locate req
  have hevents : ∀ cb ∈ cbs, Unheard cb.event := by
    intro cb hcb
    apply h
    rw [← habs]
    exact List.mem_map_of_mem hcb
  obtain ⟨hsessions, hlog, hdrop⟩ := aside_foldl_on hevents x
  rw [submit, hsubmit, ← habs]
  exact ⟨⟨hsessions, hlog, hdrop⟩, hwf', rfl⟩

/-! ## The first step -/

/-- The order that the seed 42 gives for a symbol whose fair value is 100.00. -/
def firstOrder (id : ℕ) : OrderRequest := ⟨id, .sell, 1000100, 300, .day, 0, 0⟩

/-- The process behind the draws of the first step, when the order has its id. -/
def firstDraws (x : Exchange) : Exchange :=
  { x with
    rng := xorshift64 (xorshift64 (xorshift64 (xorshift64 (xorshift64 x.rng))))
    nextOrderId := x.nextOrderId + 1 }

/-- A number is drawn from the next state of the generator. -/
theorem below_eq (x : Exchange) (n : UInt64) :
    x.below n = ((xorshift64 x.rng % n).toNat, { x with rng := xorshift64 x.rng }) := rfl

/-- A coin is tossed with the next state of the generator. -/
theorem coin_eq (x : Exchange) :
    x.coin = (decide (xorshift64 x.rng &&& 1 ≠ 0), { x with rng := xorshift64 x.rng }) := by
  unfold coin random
  simp

/-- The fair value does not walk. -/
theorem walkFair_first (hrng : x.rng = 42) (bc : BookConfig) (fair : ℤ) :
    x.walkFair bc fair = (fair, { x with rng := xorshift64 x.rng }) := by
  have hdraw : ¬ (xorshift64 x.rng % 100).toNat < 6 := by
    rw [hrng]
    decide +kernel
  unfold walkFair
  rw [below_eq]
  exact if_neg hdraw

/-- The third to the fifth draw make a sell one tick away, of 300 shares. -/
theorem synthPassive_first (hrng : x.rng = xorshift64 (xorshift64 42)) {y : Exchange}
    (hy : y = ({ x with rng := xorshift64 (xorshift64 (xorshift64 x.rng))
                        nextOrderId := x.nextOrderId + 1 } : Exchange).submit 1
      (firstOrder (x.nextOrderId % 2 ^ 64))) :
    x.synthPassive 1 100 1000000 =
      if (y.engine.book 1).find (x.nextOrderId % 2 ^ 64) ≠ none then
        y.setSynth 1 { y.synthOf 1 with live := (y.synthOf 1).live ++ [x.nextOrderId % 2 ^ 64] }
      else y := by
  have hcoin : decide (xorshift64 x.rng &&& 1 ≠ 0) = false := by
    rw [hrng]
    decide +kernel
  have haway : (xorshift64 (xorshift64 x.rng) % 8).toNat = 0 := by
    rw [hrng]
    decide +kernel
  have hlots : (xorshift64 (xorshift64 (xorshift64 x.rng)) % 5).toNat = 2 := by
    rw [hrng]
    decide +kernel
  subst hy
  unfold synthPassive
  rw [coin_eq]
  dsimp only
  rw [below_eq]
  dsimp only
  rw [below_eq]
  dsimp only
  rw [hcoin, haway, hlots]
  rfl

/-- **The first step** of the flow submits the first order. -/
theorem synthStep_first (hrng : x.rng = 42) (hsynth : x.synth = [{ fair := 1000000 }])
    (hcfg : (x.engine.book 1).cfg = {}) {y : Exchange}
    (hy : y = x.firstDraws.submit 1 (firstOrder (x.nextOrderId % 2 ^ 64))) :
    x.synthStep 1 = if (y.engine.book 1).find (x.nextOrderId % 2 ^ 64) ≠ none then
      y.setSynth 1 { y.synthOf 1 with live := (y.synthOf 1).live ++ [x.nextOrderId % 2 ^ 64] }
    else y := by
  have hst : x.synthOf 1 = { fair := 1000000 } := by
    rw [synthOf, hsynth]
    rfl
  unfold synthStep
  dsimp only
  rw [hcfg, hst, walkFair_first hrng, below_eq]
  dsimp only
  refine (if_pos (.inl (by decide))).trans ?_
  set z : Exchange := { ({ x with rng := xorshift64 x.rng } : Exchange).setSynth 1
    { fair := 1000000 } with rng := xorshift64 (xorshift64 x.rng) } with hz
  have hdraws : x.firstDraws = { z with
      rng := xorshift64 (xorshift64 (xorshift64 z.rng))
      nextOrderId := z.nextOrderId + 1 } := by
    have hset : z.synth = x.synth := by
      rw [hz, setSynth, hsynth]
      rfl
    rw [firstDraws, hset]
    rfl
  rw [hdraws] at hy
  have hzrng : z.rng = xorshift64 (xorshift64 42) := by rw [← hrng]
  exact synthPassive_first hzrng hy

end Exchange

end PulseForge
