import Mathlib.Data.List.GetD
import Mathlib.Data.List.NodupEquivFin
import PulseForge.Analysis.RiskExposure
import PulseForge.Foundation.RingWindow

/-!
# The rolling order rate

The ring of the gate holds the times of the last `N` orders, and an order passes when the oldest
of them is a second old. So `N + 1` orders in a row take a second, as long as the 64-bit counter
of the orders has not come round: then the gate takes the ring for unfilled once more.
-/

set_option autoImplicit false

namespace PulseForge

open Foundation

/-! ## Runs of the gate -/

/-- The size of the ring. -/
def RiskLimits.rate (lim : RiskLimits) : ℕ := max 1 lim.maxOrdersPerSec

/-- A gate and what was done with it: the time of the last `Pass` if no order has used it, the
last time seen and the times of the orders. -/
structure Paced where
  gate : RiskGate
  cleared : Option ℕ := none
  clock : ℕ := 0
  sends : List ℕ := []
deriving DecidableEq

namespace Paced

/-- What is done with the gate. -/
inductive Act where
  | check (side : Side) (price : ℤ) (qty : ℕ) (reference : ℤ) (nowNs : ℕ)
  | call (call : RiskGate.Call)

def start (lim : RiskLimits) : Paced where
  gate := RiskGate.new lim

/-- One step: time does not run backwards, and an order is sent at the time of a `Pass`. -/
def step (p : Paced) : Act → Option Paced
  | .check side price qty reference nowNs =>
    if p.clock ≤ nowNs ∧ nowNs < 2 ^ 64 then
      some { p with
        clock := nowNs
        cleared :=
          if p.gate.check side price qty reference nowNs = .pass then some nowNs else p.cleared }
    else none
  | .call (.sent side qty nowNs) =>
    if p.cleared = some nowNs ∧ p.clock ≤ nowNs then
      some
        { gate := p.gate.onOrderSent side qty nowNs
          clock := nowNs
          sends := p.sends ++ [nowNs] }
    else none
  | .call call => some { p with gate := p.gate.apply call }

/-- The state after some steps, when all of them are allowed. -/
def run (p : Paced) (acts : List Act) : Option Paced := acts.foldlM step p

/-- Some acts, then others. -/
theorem run_append (p : Paced) (acts acts' : List Act) :
    p.run (acts ++ acts') = (p.run acts).bind fun p' => p'.run acts' :=
  List.foldlM_append

theorem run_cons (p : Paced) (act : Act) (acts : List Act) :
    p.run (act :: acts) = (p.step act).bind fun p' => p'.run acts :=
  List.foldlM_cons

/-- **One step**: a check, an order, or a call that leaves the ring alone. -/
theorem step_cases {p p' : Paced} {act : Act} (h : p.step act = some p') :
    (∃ now, p.clock ≤ now ∧ now < 2 ^ 64 ∧
      p' = { p with clock := now, cleared := p'.cleared } ∧
      (p'.cleared = p.cleared ∨ p'.cleared = some now ∧ ¬ p.gate.throttles now)) ∨
    (∃ side qty now, p.cleared = some now ∧ p.clock ≤ now ∧
      p' = { gate := p.gate.onOrderSent side qty now, clock := now, sends := p.sends ++ [now] }) ∨
    (∃ gate, p' = { p with gate := gate } ∧ gate.lim = p.gate.lim ∧
      gate.sentTimes = p.gate.sentTimes ∧ gate.nextSlot = p.gate.nextSlot ∧
      gate.sentCount = p.gate.sentCount) := by
  cases act with
  | check side price qty reference now =>
    simp only [step] at h
    split at h
    · next hnow =>
      obtain rfl := Option.some.inj h
      refine .inl ⟨now, hnow.1, hnow.2, rfl, ?_⟩
      by_cases hpass : p.gate.check side price qty reference now = .pass
      · refine .inr ⟨if_pos hpass, ?_⟩
        exact (RiskGate.check_eq_pass.mp hpass).2.2.2.2.2.2.2
      · exact .inl (if_neg hpass)
    · exact nomatch h
  | call call =>
    cases call with
    | sent side qty now =>
      simp only [step] at h
      split at h
      · next hnow => exact .inr (.inl ⟨side, qty, now, hnow.1, hnow.2, (Option.some.inj h).symm⟩)
      · exact nomatch h
    | fill side qty =>
      refine .inr (.inr ⟨_, (Option.some.inj h).symm, ?_⟩)
      cases side <;> exact ⟨rfl, rfl, rfl, rfl⟩
    | cancelled side qty =>
      refine .inr (.inr ⟨_, (Option.some.inj h).symm, ?_⟩)
      cases side <;> exact ⟨rfl, rfl, rfl, rfl⟩
    | closed => exact .inr (.inr ⟨_, (Option.some.inj h).symm, rfl, rfl, rfl, rfl⟩)
    | killSwitch on => exact .inr (.inr ⟨_, (Option.some.inj h).symm, rfl, rfl, rfl, rfl⟩)

/-! ## The ring -/

/-- **The ring holds the last orders**: the slots, the counter and the times fit each other, and
`N + 1` orders in a row take a second up to the round of the counter. -/
structure Inv (n : ℕ) (p : Paced) : Prop where
  pos : 0 < n
  length : p.gate.sentTimes.length = n
  slot : p.gate.nextSlot = p.sends.length % n
  count : p.gate.sentCount = p.sends.length % 2 ^ 64
  window : Window p.gate.sentTimes p.sends (p.sends.length - n) p.sends.length
  sorted : p.sends.Pairwise (· ≤ ·)
  past : ∀ t ∈ p.sends, t ≤ p.clock
  clock_lt : p.clock < 2 ^ 64
  cleared : ∀ t, p.cleared = some t → ¬ p.gate.throttles t ∧ (∀ s ∈ p.sends, s ≤ t) ∧ t < 2 ^ 64
  spaced : ∀ i, i + n < p.sends.length → i + n < 2 ^ 64 →
    p.sends.getD i 0 + 1000000000 ≤ p.sends.getD (i + n) 0

variable {n : ℕ} {p p' : Paced}

/-- At the start nothing was sent. -/
theorem inv_start (lim : RiskLimits) : Inv lim.rate (start lim) := by
  refine ⟨?_, ?_, ?_, rfl, fun i _ hi => absurd hi (Nat.not_lt_zero _), .nil,
    fun t ht => absurd ht List.not_mem_nil, Nat.two_pow_pos 64, fun t ht => (nomatch ht),
    fun i hi => absurd hi (Nat.not_lt_zero _)⟩
  · exact le_max_left 1 _
  · change (List.replicate _ 0).length = _
    rw [List.length_replicate, RiskLimits.rate]
    split <;> omega
  · exact (Nat.zero_mod _).symm

/-- **The oldest time in the ring**, once it is full. -/
theorem Inv.oldest (h : Inv n p) (hfull : n ≤ p.sends.length) :
    p.gate.sentTimes.getD p.gate.nextSlot 0 = p.sends.getD (p.sends.length - n) 0 := by
  have hpos := h.pos
  have hslot : p.gate.nextSlot = (p.sends.length - n) % p.gate.sentTimes.length := by
    rw [h.slot, h.length, Nat.mod_eq_sub_mod hfull]
  rw [List.getD_eq_getElem?_getD, List.getD_eq_getElem?_getD, hslot,
    h.window _ le_rfl (by omega)]

/-- An entry of the times is one of them. -/
theorem Inv.getD_mem {i : ℕ} (hi : i < p.sends.length) : p.sends.getD i 0 ∈ p.sends := by
  rw [List.getD_eq_getElem _ _ hi]
  exact List.getElem_mem hi

/-- **The test of the rate**: the counter, as it stands, and the age of the oldest time. -/
theorem Inv.throttles_iff (h : Inv n p) {now : ℕ} (hpast : ∀ s ∈ p.sends, s ≤ now)
    (hnow : now < 2 ^ 64) :
    p.gate.throttles now ↔
      n ≤ p.sends.length % 2 ^ 64 ∧ now < p.sends.getD (p.sends.length - n) 0 + 1000000000 := by
  unfold RiskGate.throttles
  rw [h.length, h.count]
  refine and_congr_right fun hfull => ?_
  have hpos := h.pos
  have hle := Nat.mod_le p.sends.length (2 ^ 64)
  have hold : p.sends.getD (p.sends.length - n) 0 ≤ now :=
    hpast _ (Inv.getD_mem (by omega))
  rw [h.oldest (hfull.trans hle)]
  omega

theorem pairwise_concat {ts : List ℕ} {t : ℕ} (h : ts.Pairwise (· ≤ ·)) (hlast : ∀ s ∈ ts, s ≤ t) :
    (ts ++ [t]).Pairwise (· ≤ ·) := by
  refine List.pairwise_append.mpr ⟨h, List.pairwise_singleton _ _, fun s hs t' ht' => ?_⟩
  rw [List.mem_singleton.mp ht']
  exact hlast s hs

/-- **An order sent** goes into the ring. -/
theorem Inv.sent (h : Inv n p) {side : Side} {qty now : ℕ} (hcleared : p.cleared = some now)
    (hclock : p.clock ≤ now) :
    Inv n { gate := p.gate.onOrderSent side qty now, clock := now, sends := p.sends ++ [now] } := by
  obtain ⟨hrate, hpast, hnow⟩ := h.cleared now hcleared
  have hpos := h.pos
  have hlen : (p.sends ++ [now]).length = p.sends.length + 1 := List.length_append
  have hslot : p.gate.nextSlot = p.sends.length % p.gate.sentTimes.length := by
    rw [h.slot, h.length]
  have hset : (p.gate.sentTimes.set p.gate.nextSlot now).length = n :=
    List.length_set.trans h.length
  refine
    { pos := hpos
      length := hset
      slot := ?_
      count := ?_
      window := ?_
      sorted := pairwise_concat h.sorted hpast
      past := fun t ht => ?_
      clock_lt := hnow
      cleared := fun t ht => (nomatch ht)
      spaced := fun i hi hround => ?_ }
  · change (p.gate.nextSlot + 1) % p.gate.sentTimes.length = (p.sends ++ [now]).length % n
    rw [hlen, h.length, h.slot, Nat.mod_add_mod]
  · change (p.gate.sentCount + 1) % 2 ^ 64 = (p.sends ++ [now]).length % 2 ^ 64
    rw [hlen, h.count, Nat.mod_add_mod]
  · change Window (p.gate.sentTimes.set p.gate.nextSlot now) (p.sends ++ [now])
      ((p.sends ++ [now]).length - n) (p.sends ++ [now]).length
    rw [hlen, hslot]
    have hwindow := (h.window.mono (show p.sends.length - n ≤ p.sends.length + 1 - n by omega)).set
      (by rw [h.length]; omega) now
    refine hwindow.push rfl ?_
    rw [List.length_set]
    refine List.getElem?_set_self ?_
    rw [h.length]
    exact Nat.mod_lt _ hpos
  · rcases List.mem_append.mp ht with ht | ht
    · exact (h.past t ht).trans hclock
    · exact (List.mem_singleton.mp ht).le
  · simp only [hlen] at hi
    rcases Nat.lt_or_ge (i + n) p.sends.length with hlt | hge
    · rw [List.getD_append _ _ _ _ (by omega), List.getD_append _ _ _ _ hlt]
      exact h.spaced i hlt hround
    · -- the order of this step, and the oldest time in the ring
      obtain rfl : i = p.sends.length - n := by omega
      have hlast : (p.sends ++ [now]).getD (p.sends.length - n + n) 0 = now := by
        rw [Nat.sub_add_cancel (by omega), List.getD_append_right _ _ _ _ le_rfl]
        simp
      rw [hlast, List.getD_append _ _ _ _ (by omega)]
      rw [h.throttles_iff hpast hnow, Nat.mod_eq_of_lt (by omega)] at hrate
      omega

/-- **One step** keeps the ring. -/
theorem Inv.step (h : Inv n p) {act : Act} (hstep : p.step act = some p') : Inv n p' := by
  rcases step_cases hstep with ⟨now, hclock, hnow, heq, hcleared⟩ |
    ⟨side, qty, now, hcleared, hclock, rfl⟩ | ⟨gate, rfl, hlim, htimes, hslot, hcount⟩
  · rw [heq]
    have hpast : ∀ t ∈ p.sends, t ≤ now := fun t ht => (h.past t ht).trans hclock
    refine ⟨h.pos, h.length, h.slot, h.count, h.window, h.sorted, hpast, hnow, fun t ht => ?_,
      h.spaced⟩
    rcases hcleared with hsame | ⟨hnew, hrate⟩
    · exact h.cleared t (hsame.symm.trans ht)
    · obtain rfl := Option.some.inj (hnew.symm.trans ht)
      exact ⟨hrate, hpast, hnow⟩
  · exact h.sent hcleared hclock
  · refine ⟨h.pos, htimes ▸ h.length, hslot ▸ h.slot, hcount ▸ h.count, htimes ▸ h.window, h.sorted,
      h.past, h.clock_lt, fun t ht => ?_, h.spaced⟩
    obtain ⟨hrate, hpast, hlt⟩ := h.cleared t ht
    refine ⟨?_, hpast, hlt⟩
    unfold RiskGate.throttles at hrate ⊢
    rw [htimes, hslot, hcount]
    exact hrate

/-- **A run** keeps the ring. -/
theorem Inv.run (h : Inv n p) {acts : List Act} (hrun : p.run acts = some p') : Inv n p' := by
  induction acts generalizing p with
  | nil => exact Option.some.inj hrun ▸ h
  | cons act acts ih =>
    rw [run_cons] at hrun
    obtain ⟨q, hstep, hrest⟩ := Option.bind_eq_some_iff.mp hrun
    exact ih (h.step hstep) hrest

/-! ## A second -/

/-- `n + 1` times in a row take a second. -/
def Spaced (n : ℕ) (ts : List ℕ) : Prop :=
  ∀ i, i + n < ts.length → ts.getD i 0 + 1000000000 ≤ ts.getD (i + n) 0

/-- Times in order, by their places. -/
theorem getD_le_getD {ts : List ℕ} (h : ts.Pairwise (· ≤ ·)) {i j : ℕ} (hij : i ≤ j)
    (hj : j < ts.length) : ts.getD i 0 ≤ ts.getD j 0 := by
  rw [List.getD_eq_getElem _ _ (hij.trans_lt hj), List.getD_eq_getElem _ _ hj]
  rcases hij.eq_or_lt with rfl | hlt
  · exact le_rfl
  · exact List.pairwise_iff_getElem.mp h i j _ _ hlt

/-- **Times in a window of a second** are at most `n` when they are spaced. -/
theorem Spaced.window {ts : List ℕ} (h : Spaced n ts) (hsorted : ts.Pairwise (· ≤ ·)) (a : ℕ) :
    (ts.filter fun t => a ≤ t ∧ t < a + 1000000000).length ≤ n := by
  by_contra hmany
  obtain ⟨f, hf⟩ := List.sublist_iff_exists_orderEmbedding_getElem?_eq.mp
    (@List.filter_sublist _ (fun t => decide (a ≤ t ∧ t < a + 1000000000)) ts)
  generalize hin : (ts.filter fun t => decide (a ≤ t ∧ t < a + 1000000000)) = inside at hmany hf
  have hentry : ∀ k, k < inside.length →
      f k < ts.length ∧ a ≤ ts.getD (f k) 0 ∧ ts.getD (f k) 0 < a + 1000000000 := by
    intro k hk
    have hsome : ts[f k]? = some inside[k] := (hf k).symm.trans (List.getElem?_eq_getElem hk)
    have hmem : inside[k] ∈ ts.filter fun t => decide (a ≤ t ∧ t < a + 1000000000) := by
      rw [hin]
      exact List.getElem_mem hk
    rw [List.getD_eq_getElem?_getD, hsome]
    exact ⟨(List.getElem?_eq_some_iff.mp hsome).1, by simpa using (List.mem_filter.mp hmem).2⟩
  obtain ⟨-, hfirst, -⟩ := hentry 0 (by omega)
  obtain ⟨hlt, -, hlast⟩ := hentry n (by omega)
  have hapart : ∀ k, f 0 + k ≤ f k := by
    intro k
    induction k with
    | zero => exact le_rfl
    | succ k ih => exact Nat.lt_of_le_of_lt ih (f.lt_iff_lt.mpr (Nat.lt_succ_self k))
  have hsecond := h (f 0) ((hapart n).trans_lt hlt)
  have horder := getD_le_getD hsorted (hapart n) hlt
  omega

/-- The age of the orders bounds their number before the counter comes round. -/
theorem Inv.length_le (h : Inv n p) (hn : n < 1000000000) : p.sends.length ≤ 2 ^ 64 := by
  by_contra hlong
  have hpos := h.pos
  have hage : ∀ k, k * n < 2 ^ 64 → k * 1000000000 ≤ p.sends.getD (k * n) 0 := by
    intro k
    induction k with
    | zero => exact fun _ => Nat.zero_le _
    | succ k ih =>
      intro hk
      have hnext : (k + 1) * n = k * n + n := Nat.add_one_mul k n
      have hlt : k * n + n < 2 ^ 64 := hnext ▸ hk
      have hstep := h.spaced (k * n) (by omega) hlt
      have hprev := ih (by omega)
      calc (k + 1) * 1000000000 = k * 1000000000 + 1000000000 := Nat.add_one_mul k _
        _ ≤ p.sends.getD (k * n) 0 + 1000000000 := Nat.add_le_add_right hprev _
        _ ≤ p.sends.getD (k * n + n) 0 := hstep
        _ = p.sends.getD ((k + 1) * n) 0 := congrArg (fun i => p.sends.getD i 0) hnext.symm
  have hlast := hage 18446744074 (by omega)
  have hmem := h.past _ (Inv.getD_mem (show 18446744074 * n < p.sends.length by omega))
  have hclock := h.clock_lt
  omega

/-- A refusal for the rate. -/
theorem throttles_of_check {g : RiskGate} {side : Side} {price reference : ℤ} {qty now : ℕ}
    (h : g.check side price qty reference now = .throttled) : g.throttles now := by
  unfold RiskGate.check at h
  dsimp only at h
  generalize (if reference < price then _ else _) = dev at h
  split_ifs at h with hkill hqty hnotional href hcollar hopen hlimit hrate
  exact hrate

/-- **A full second** behind a refusal. -/
theorem Inv.full (h : Inv n p) {now : ℕ} (hclock : p.clock ≤ now) (hnow : now < 2 ^ 64)
    (hrate : p.gate.throttles now) :
    n ≤ (p.sends.filter fun t => now < t + 1000000000).length := by
  obtain ⟨hfull, hold⟩ :=
    (h.throttles_iff (fun s hs => (h.past s hs).trans hclock) hnow).mp hrate
  have hle := Nat.mod_le p.sends.length (2 ^ 64)
  have hrecent : ∀ t ∈ p.sends.drop (p.sends.length - n), now < t + 1000000000 := by
    intro t ht
    obtain ⟨k, hk, rfl⟩ := List.mem_iff_getElem.mp ht
    rw [List.length_drop] at hk
    have hlater := getD_le_getD h.sorted (show p.sends.length - n ≤ p.sends.length - n + k by omega)
      (by omega)
    rw [List.getElem_drop, ← List.getD_eq_getElem _ 0]
    omega
  calc n = (p.sends.drop (p.sends.length - n)).length := by
        rw [List.length_drop]
        omega
    _ = ((p.sends.drop (p.sends.length - n)).filter fun t => now < t + 1000000000).length := by
        rw [List.filter_eq_self.mpr fun t ht => decide_eq_true (hrecent t ht)]
    _ ≤ (p.sends.filter fun t => now < t + 1000000000).length :=
        ((List.drop_sublist _ _).filter _).length_le

/-- **The rolling order rate.** In every run of a gate, as long as its counter has not come
round, `N + 1` orders in a row take a second and no half-open window of a second has more than `N`
orders; below a rate of `10 ^ 9` the counter cannot come round. An order is refused for the rate
only when `N` orders are less than a second old. -/
theorem rate_limit (lim : RiskLimits) (acts : List Act) (p : Paced)
    (hrun : (start lim).run acts = some p) :
    (p.sends.length ≤ 2 ^ 64 ∨ lim.rate < 1000000000 →
      Spaced lim.rate p.sends ∧
        ∀ a, (p.sends.filter fun t => a ≤ t ∧ t < a + 1000000000).length ≤ lim.rate) ∧
    ∀ side price qty reference now, p.clock ≤ now → now < 2 ^ 64 →
      p.gate.check side price qty reference now = .throttled →
      lim.rate ≤ (p.sends.filter fun t => now < t + 1000000000).length := by
  have hinv := (inv_start lim).run hrun
  refine ⟨fun hcount => ?_, fun side price qty reference now hclock hnow hcheck => ?_⟩
  · have hlen : p.sends.length ≤ 2 ^ 64 := by
      rcases hcount with hlen | hslow
      · exact hlen
      · exact hinv.length_le hslow
    have hspaced : Spaced lim.rate p.sends := by
      intro i hi
      exact hinv.spaced i hi (by omega)
    exact ⟨hspaced, hspaced.window hinv.sorted⟩
  · exact hinv.full hclock hnow (throttles_of_check hcheck)

/-- Three orders at a rate of two: the third waits until the first is a second old. -/
def threeOrders : List Act :=
  [.check .buy 1000000 1 1000000 5, .call (.sent .buy 1 5),
    .check .buy 1000000 1 1000000 6, .call (.sent .buy 1 6),
    .check .buy 1000000 1 1000000 7,
    .check .buy 1000000 1 1000000 1000000005, .call (.sent .buy 1 1000000005)]

/-- The three orders are spaced, and a fourth is refused while two are recent. -/
theorem three_orders_rate_limit :
    ∃ p, (start { maxOrdersPerSec := 2 }).run threeOrders = some p ∧
      p.sends = [5, 6, 1000000005] ∧ Spaced 2 p.sends ∧
      p.gate.check .buy 1000000 1 1000000 1000000005 = .throttled ∧
      2 ≤ (p.sends.filter fun t => 1000000005 < t + 1000000000).length := by
  have hrun : ((start { maxOrdersPerSec := 2 }).run threeOrders).map (fun p =>
      (p.sends, p.clock, p.gate.check .buy 1000000 1 1000000 1000000005)) =
      some ([5, 6, 1000000005], 1000000005, .throttled) := by
    decide +kernel
  obtain ⟨p, hp, hfields⟩ := Option.map_eq_some_iff.mp hrun
  simp only [Prod.mk.injEq] at hfields
  obtain ⟨hsends, hclock, hcheck⟩ := hfields
  have hlimit := rate_limit { maxOrdersPerSec := 2 } threeOrders p hp
  refine ⟨p, hp, hsends, (hlimit.1 (.inr (by decide))).1, hcheck, ?_⟩
  exact hlimit.2 _ _ _ _ _ (by rw [hclock]) (by decide) hcheck

/-! ## The counter comes round -/

/-- The default limits with another rate. -/
def rateLimits (r : ℕ) : RiskLimits := { maxOrdersPerSec := r }

/-- No order is open and there is no position. -/
structure Calm (r : ℕ) (p : Paced) : Prop where
  lim : p.gate.lim = rateLimits r
  position : p.gate.position = 0
  openBuy : p.gate.openBuy = 0
  openOrders : p.gate.openOrders = 0
  killed : p.gate.killed = false

/-- An order for one share that is cancelled at once. -/
def cycle (t : ℕ) : List Act :=
  [.check .buy 1000000 1 1000000 t, .call (.sent .buy 1 t), .call (.cancelled .buy 1),
    .call .closed]

variable {r t : ℕ}

/-- Nothing but the rate refuses the order. -/
theorem Calm.check (h : Calm r p) (hrate : ¬ p.gate.throttles t) :
    p.gate.check .buy 1000000 1 1000000 t = .pass := by
  refine RiskGate.check_eq_pass.mpr ⟨h.killed, ?_, ?_, by decide, ?_, ?_, ?_, hrate⟩
  · rw [h.lim]
    exact ⟨by decide, (by decide : 1 ≤ 1000)⟩
  · rw [h.lim]
    exact (by decide : i64 (1000000 * (1 : ℕ)) ≤ 250000 * kPriceScale)
  · rw [h.lim]
    exact (by decide : i64 (RiskGate.deviation 1000000 1000000 * 10000) ≤ i64 (50 * 1000000))
  · rw [h.lim, h.openOrders]
    exact (by decide : 0 < 4)
  · rw [RiskGate.overLimit, RiskGate.worstCase, h.position, h.openBuy, h.lim]
    exact (by decide : decide ((2000 : ℤ) < i64 (i64 (0 + 0) + (1 : ℕ))) = false)

/-- **One cycle** sends an order and leaves the rest as it was. -/
theorem Calm.cycle (h : Calm r p) (hclock : p.clock ≤ t) (ht : t < 2 ^ 64)
    (hrate : ¬ p.gate.throttles t) :
    ∃ p', p.run (cycle t) = some p' ∧ Calm r p' ∧ p'.sends = p.sends ++ [t] ∧ p'.clock = t := by
  have hone : p.step (.check .buy 1000000 1 1000000 t) =
      some { p with clock := t, cleared := some t } := by
    simp only [step]
    rw [if_pos ⟨hclock, ht⟩, if_pos (h.check hrate)]
  have htwo : step { p with clock := t, cleared := some t } (.call (.sent .buy 1 t)) =
      some { gate := p.gate.onOrderSent .buy 1 t, clock := t, sends := p.sends ++ [t] } := by
    simp only [step]
    rw [if_pos ⟨trivial, le_rfl⟩]
  refine ⟨{ gate := ((p.gate.onOrderSent .buy 1 t).onCancelled .buy 1).onOrderClosed
            clock := t
            sends := p.sends ++ [t] }, ?_, ⟨h.lim, h.position, ?_, ?_, h.killed⟩, rfl, rfl⟩
  · rw [Paced.cycle, run_cons, hone, Option.bind_some, run_cons, htwo]
    rfl
  · change i64 (i64 (p.gate.openBuy + (1 : ℕ)) - (1 : ℕ)) = 0
    rw [h.openBuy]
    decide
  · change (p.gate.openOrders + 1) % 2 ^ 32 - 1 = 0
    rw [h.openOrders]
    norm_num

/-- The time of an order, when `n` of them are sent every second. -/
def sendTime (n k : ℕ) : ℕ := k / n * 1000000000

/-- The first `k` orders. -/
def pacedActs (n k : ℕ) : List Act := (List.range k).flatMap fun j => cycle (sendTime n j)

/-- The times of the run are in order. -/
theorem sendTime_mono (n : ℕ) {j k : ℕ} (h : j ≤ k) : sendTime n j ≤ sendTime n k :=
  Nat.mul_le_mul_right _ (Nat.div_le_div_right h)

/-- The time of an order of the run. -/
theorem getD_sendTimes {n i k : ℕ} (h : i < k) :
    ((List.range k).map (sendTime n)).getD i 0 = sendTime n i := by
  simp [List.getD_eq_getElem?_getD, h]

/-- **Any number of orders** at the full rate. -/
theorem run_pacedActs (r k : ℕ) (hk : sendTime (rateLimits r).rate k < 2 ^ 64) :
    ∃ p, (start (rateLimits r)).run (pacedActs (rateLimits r).rate k) = some p ∧ Calm r p ∧
      Inv (rateLimits r).rate p ∧
      p.sends = (List.range k).map (sendTime (rateLimits r).rate) ∧
      p.clock ≤ sendTime (rateLimits r).rate (k - 1) := by
  generalize hn : (rateLimits r).rate = n at hk
  have hstart : Inv n (start (rateLimits r)) := hn ▸ inv_start (rateLimits r)
  induction k with
  | zero => exact ⟨_, rfl, ⟨rfl, rfl, rfl, rfl, rfl⟩, hstart, rfl, Nat.zero_le _⟩
  | succ k ih =>
    have hle := sendTime_mono n (Nat.le_succ k)
    obtain ⟨p, hrun, hcalm, hinv, hsends, hclock⟩ := ih (hle.trans_lt hk)
    have hpos := hinv.pos
    have hlen : p.sends.length = k := by
      rw [hsends]
      simp
    have hnow : p.clock ≤ sendTime n k := hclock.trans (sendTime_mono n (Nat.sub_le k 1))
    have hrate : ¬ p.gate.throttles (sendTime n k) := by
      rw [hinv.throttles_iff (fun s hs => (hinv.past s hs).trans hnow) (hle.trans_lt hk), hlen]
      rintro ⟨hfull, hyoung⟩
      have hround : n ≤ k := hfull.trans (Nat.mod_le _ _)
      rw [hsends, getD_sendTimes (by omega)] at hyoung
      have hdiv : k / n = (k - n) / n + 1 := Nat.div_eq_sub_div hpos hround
      unfold sendTime at hyoung
      omega
    obtain ⟨p', hcycle, hcalm', hsends', hclock'⟩ := hcalm.cycle hnow (hle.trans_lt hk) hrate
    refine ⟨p', ?_, hcalm', hinv.run hcycle, ?_, hclock'.le⟩
    · rw [pacedActs, List.range_succ, List.flatMap_append, ← pacedActs, run_append, hrun,
        Option.bind_some, List.flatMap_singleton, hcycle]
    · rw [hsends', hsends, List.range_succ, List.map_append, List.map_singleton]

/-- The limits of the run in which the counter comes round. -/
def fastLimits : RiskLimits := rateLimits (2 ^ 32 - 1)

/-- `2 ^ 64 + 2 ^ 32 - 2` orders at the full rate, and one more in the last second. -/
def roundActs : List Act :=
  pacedActs fastLimits.rate (2 ^ 64 + 2 ^ 32 - 2) ++
    cycle (sendTime fastLimits.rate (2 ^ 64 + 2 ^ 32 - 3))

/-- **When the counter comes round** the gate takes its ring for unfilled, and `2 ^ 32` orders go
out at one time under a rate of `2 ^ 32 - 1`. -/
theorem counter_comes_round :
    ∃ p, (start fastLimits).run roundActs = some p ∧ ¬ Spaced fastLimits.rate p.sends := by
  have hrate : fastLimits.rate = 4294967295 := rfl
  have htime : ∀ k, sendTime fastLimits.rate k = k / 4294967295 * 1000000000 := fun k => by
    rw [hrate, sendTime]
  obtain ⟨p, hrun, hcalm, hinv, hsends, hclock⟩ :=
    run_pacedActs (2 ^ 32 - 1) (2 ^ 64 + 2 ^ 32 - 2) (by
      change sendTime fastLimits.rate _ < _
      rw [htime]
      norm_num)
  change (start fastLimits).run (pacedActs fastLimits.rate _) = some p at hrun
  change Inv fastLimits.rate p at hinv
  change p.sends = (List.range _).map (sendTime fastLimits.rate) at hsends
  change p.clock ≤ sendTime fastLimits.rate _ at hclock
  have hlen : p.sends.length = 2 ^ 64 + 2 ^ 32 - 2 := by
    rw [hsends, List.length_map, List.length_range]
  have hlast : sendTime fastLimits.rate (2 ^ 64 + 2 ^ 32 - 3) = 4294967297000000000 := by
    rw [htime]
    norm_num
  have hnow : p.clock ≤ sendTime fastLimits.rate (2 ^ 64 + 2 ^ 32 - 3) :=
    hclock.trans (sendTime_mono _ (by norm_num))
  have hfree : ¬ p.gate.throttles (sendTime fastLimits.rate (2 ^ 64 + 2 ^ 32 - 3)) := by
    rw [hinv.throttles_iff (fun s hs => (hinv.past s hs).trans hnow) (by rw [hlast]; norm_num),
      hlen, hrate]
    intro hfull
    exact absurd hfull.1 (by norm_num)
  obtain ⟨p', hcycle, -, hsends', -⟩ := hcalm.cycle hnow (by rw [hlast]; norm_num) hfree
  refine ⟨p', by rw [roundActs, run_append, hrun, Option.bind_some, hcycle], fun hspaced => ?_⟩
  -- the order with which the counter came round, and the one of the last cycle
  have hsecond := hspaced (2 ^ 64 - 1) (by
    rw [hsends', List.length_append, hlen, hrate]
    norm_num)
  have hfirst : p'.sends.getD (2 ^ 64 - 1) 0 = 4294967297000000000 := by
    rw [hsends', List.getD_append _ _ _ _ (by rw [hlen]; norm_num), hsends,
      getD_sendTimes (by norm_num), htime]
    norm_num
  have hend : p'.sends.getD (2 ^ 64 - 1 + fastLimits.rate) 0 = 4294967297000000000 := by
    have hplace : 2 ^ 64 - 1 + fastLimits.rate = p.sends.length := by
      rw [hlen, hrate]
      norm_num
    rw [hsends', hplace, List.getD_append_right _ _ _ _ le_rfl, Nat.sub_self, hlast]
    rfl
  rw [hfirst, hend] at hsecond
  omega

end Paced

end PulseForge
