import PulseForge.Analysis.EngineRuns

/-!
# Shares are conserved over an order's whole life

The ledger of an order is read off the event log: what it was accepted for, what it traded
as taker and as maker, and what was reported cancelled for it. `Conserved` says that the
first is the sum of the others, of what rests in the book and of what is still being
matched; every rule of the event protocol keeps it.
-/

set_option autoImplicit false

namespace PulseForge

/-! ## The ledger -/

namespace Event

/-- Shares an event accepts for order `id` of symbol `locate`. -/
def acceptedQty (locate id : ℕ) : Event → ℕ
  | .accepted l req => if l = locate ∧ req.id = id then req.qty else 0
  | _ => 0

/-- Shares the order trades as taker. -/
def takenQty (locate id : ℕ) : Event → ℕ
  | .fill l f => if l = locate ∧ f.takerId = id then f.qty else 0
  | _ => 0

/-- Shares the order trades as maker. -/
def madeQty (locate id : ℕ) : Event → ℕ
  | .fill l f => if l = locate ∧ f.makerId = id then f.qty else 0
  | _ => 0

/-- Shares reported cancelled for the order. -/
def cancelledQty (locate id : ℕ) : Event → ℕ
  | .restingCancelled l before cancelled _ => if l = locate ∧ before.id = id then cancelled else 0
  | .takerCancelled l req cancelled _ => if l = locate ∧ req.id = id then cancelled else 0
  | _ => 0

/-- The fill, if the event is one. -/
def fill? : Event → Option Fill
  | .fill _ f => some f
  | _ => none

/-- The order an event accepts. -/
def acceptedKey? : Event → Option (ℕ × ℕ)
  | .accepted l req => some (l, req.id)
  | _ => none

/-- Only an event that accepts the order accepts shares of it. -/
theorem acceptedQty_eq_zero {locate id : ℕ} {ev : Event}
    (h : ev.acceptedKey? ≠ some (locate, id)) : ev.acceptedQty locate id = 0 := by
  cases ev with
  | accepted l req =>
    refine if_neg ?_
    rintro ⟨rfl, rfl⟩
    exact h rfl
  | rejected | fill | rested | restingCancelled | takerCancelled => rfl

end Event

/-- A quantity summed over a log. -/
def logSum (f : Event → ℕ) (log : List Event) : ℕ := (log.map f).sum

/-- The total of one event more. -/
@[simp] theorem logSum_append (f : Event → ℕ) (log : List Event) (ev : Event) :
    logSum f (log ++ [ev]) = logSum f log + f ev := by
  simp [logSum]

/-- The open quantity of an order, from the log alone. -/
def openQty (log : List Event) (locate id : ℕ) : ℕ :=
  logSum (Event.acceptedQty locate id) log -
    (logSum (Event.takenQty locate id) log + logSum (Event.madeQty locate id) log +
      logSum (Event.cancelledQty locate id) log)

/-- No order id of a symbol is accepted twice. -/
def NoReuse (log : List Event) : Prop := (log.filterMap Event.acceptedKey?).Nodup

instance (log : List Event) : Decidable (NoReuse log) :=
  inferInstanceAs (Decidable (List.Nodup _))

/-- What rests in the markets under an id. -/
def RefEngine.restingQty (r : RefEngine) (locate id : ℕ) : ℕ :=
  (((r.market? locate).bind fun m => m.find id).map BookOrder.qty).getD 0

/-- What rests in the book under an id. -/
def MatchingEngine.restingQty (e : MatchingEngine) (locate id : ℕ) : ℕ :=
  (((e.book locate).find id).map BookOrder.qty).getD 0

/-- What is still being matched of an order. -/
def Flow.takerQty (x : Flow) (locate id : ℕ) : ℕ :=
  match x.taker with
  | some (l, req, remaining) => if l = locate ∧ req.id = id then remaining else 0
  | none => 0

/-- A fill that reports the open quantities it leaves, `log` being the log up to it. -/
def TrueFill (log : List Event) (locate : ℕ) (f : Fill) : Prop :=
  0 < f.qty ∧ f.makerRemaining = openQty log locate f.makerId ∧
    f.takerRemaining = openQty log locate f.takerId

/-- **The conservation invariant**: the ledger balances, the order being matched does not
rest, and the fills of the log are numbered and report the open quantities they leave. -/
structure Conserved (log : List Event) (x : Flow) : Prop where
  balance : ∀ locate id, logSum (Event.acceptedQty locate id) log =
    logSum (Event.takenQty locate id) log + logSum (Event.madeQty locate id) log +
      logSum (Event.cancelledQty locate id) log +
      x.engine.restingQty locate id + x.takerQty locate id
  fresh : ∀ locate req remaining, x.taker = some (locate, req, remaining) →
    x.engine.restingQty locate req.id = 0
  numbered : (log.filterMap Event.fill?).map Fill.matchNumber =
    (List.range' 1 (log.filterMap Event.fill?).length).map (· % 2 ^ 64)
  nextMatch_eq : x.engine.nextMatch = ((log.filterMap Event.fill?).length + 1) % 2 ^ 64
  fills : ∀ pre locate f post, log = pre ++ .fill locate f :: post →
    TrueFill (pre ++ [.fill locate f]) locate f

namespace RefEngine

variable {r : RefEngine} {locate : ℕ} {m : Market} {o : BookOrder}

/-- The resting shares of an id, in its market. -/
theorem restingQty_of_market (hm : r.market? locate = some m) (id : ℕ) :
    r.restingQty locate id = ((m.find id).map BookOrder.qty).getD 0 := by
  rw [restingQty, hm]
  rfl

/-- An order rests with what it has. -/
theorem restingQty_of_mem (hr : r.WF) (hm : r.market? locate = some m) (ho : o ∈ m.orders) :
    r.restingQty locate o.id = o.qty := by
  have hfind : m.find o.id = some o := (hr.market hm).find_eq_some_iff.mpr ⟨ho, rfl⟩
  rw [restingQty_of_market hm, hfind]
  rfl

/-- The quantity that rests after an order lost shares. -/
theorem restingQty_take (hr : r.WF) (hm : r.market? locate = some m) {by' : ℕ}
    (hr' : (r.setMarket locate (m.take o by')).WF) (ho : o ∈ m.orders) (hle : by' ≤ o.qty)
    (l id : ℕ) :
    r.restingQty l id = (r.setMarket locate (m.take o by')).restingQty l id +
      if l = locate ∧ id = o.id then by' else 0 := by
  have hset := market?_setMarket_eq hm (m.take o by') l
  by_cases hl : l = locate
  · subst hl
    rw [if_pos rfl] at hset
    rw [restingQty_of_market hm, restingQty_of_market hset,
      (hr.market hm).find_take (hr'.market hset) ho]
    by_cases hid : id = o.id
    · subst hid
      have hfind : m.find o.id = some o := (hr.market hm).find_eq_some_iff.mpr ⟨ho, rfl⟩
      rw [if_pos rfl, if_pos ⟨rfl, rfl⟩, hfind, Market.leftOf]
      split
      · next h => simp [h]
      · simp only [Option.map_some, Option.getD_some]
        omega
    · simp [hid]
  · rw [if_neg hl] at hset
    rw [restingQty, restingQty, hset]
    simp [hl]

/-- The quantity that rests after an order came to rest. -/
theorem restingQty_rest (hr : r.WF) (hm : r.market? locate = some m)
    (hr' : (r.setMarket locate (m.rest o)).WF) (hfresh : m.find o.id = none) (l id : ℕ) :
    (r.setMarket locate (m.rest o)).restingQty l id = r.restingQty l id +
      if l = locate ∧ id = o.id then o.qty else 0 := by
  have hset := market?_setMarket_eq hm (m.rest o) l
  by_cases hl : l = locate
  · subst hl
    rw [if_pos rfl] at hset
    rw [restingQty_of_market hm, restingQty_of_market hset,
      (hr.market hm).find_rest (hr'.market hset) hfresh]
    by_cases hid : id = o.id
    · subst hid
      simp [hfresh]
    · simp [hid]
  · rw [if_neg hl] at hset
    rw [restingQty, restingQty, hset]
    simp [hl]

end RefEngine

namespace MatchingEngine

/-- A listed symbol changes no resting quantity. -/
theorem restingQty_list (r : RefEngine) (symbol : Symbol) (cfg : BookConfig) (locate id : ℕ) :
    (list r symbol cfg).restingQty locate id = r.restingQty locate id := by
  have hmarket : (list r symbol cfg).market? locate = r.market? locate ∨
      (r.market? locate = none ∧ (list r symbol cfg).market? locate = some ⟨cfg, [], []⟩) := by
    unfold RefEngine.market? list
    split_ifs
    · exact .inl rfl
    · rcases lt_trichotomy (locate - 1) r.markets.length with hlt | heq | hgt
      · exact .inl (List.getElem?_append_left hlt)
      · exact .inr ⟨by simp [heq], by simp [heq]⟩
      · exact .inl (by rw [List.getElem?_eq_none (by simp; omega), List.getElem?_eq_none (by omega)])
  rcases hmarket with h | ⟨hnone, hsome⟩
  · rw [RefEngine.restingQty, RefEngine.restingQty, h]
  · rw [RefEngine.restingQty, RefEngine.restingQty, hnone, hsome]
    rfl

end MatchingEngine

/-! ## Every rule keeps the ledger balanced -/

/-- What is proved of the fills of a log extends to one more event. -/
theorem trueFills_append {log : List Event} {ev : Event}
    (h : ∀ pre locate f post, log = pre ++ Event.fill locate f :: post →
      TrueFill (pre ++ [Event.fill locate f]) locate f)
    (hev : ∀ locate f, ev = .fill locate f → TrueFill (log ++ [ev]) locate f) :
    ∀ pre locate f post, log ++ [ev] = pre ++ Event.fill locate f :: post →
      TrueFill (pre ++ [Event.fill locate f]) locate f := by
  intro pre locate f post hsplit
  rcases List.eq_nil_or_concat post with rfl | ⟨post', last, rfl⟩
  · obtain ⟨rfl, hlast⟩ := List.append_inj' hsplit rfl
    have := hev locate f (List.singleton_inj.mp hlast)
    rwa [List.singleton_inj.mp hlast] at this
  · rw [List.concat_eq_append, ← List.cons_append, ← List.append_assoc] at hsplit
    exact h pre locate f post' (List.append_inj' hsplit rfl).1

/-- An event that is no fill: only the balance and the order being matched are at stake. -/
theorem Conserved.of_not_fill {log : List Event} {x y : Flow} {ev : Event} (h : Conserved log x)
    (hev : ev.fill? = none) (hnext : y.engine.nextMatch = x.engine.nextMatch)
    (hbal : ∀ locate id, ev.acceptedQty locate id + x.engine.restingQty locate id +
      x.takerQty locate id = ev.cancelledQty locate id + y.engine.restingQty locate id +
        y.takerQty locate id)
    (hfresh : ∀ locate req remaining, y.taker = some (locate, req, remaining) →
      y.engine.restingQty locate req.id = 0) :
    Conserved (log ++ [ev]) y := by
  have hno : (log ++ [ev]).filterMap Event.fill? = log.filterMap Event.fill? := by
    rw [List.filterMap_append, List.filterMap_cons_none hev, List.filterMap_nil, List.append_nil]
  have hzero : ∀ locate id, ev.takenQty locate id = 0 ∧ ev.madeQty locate id = 0 := by
    intro locate id
    cases ev <;> first | exact ⟨rfl, rfl⟩ | exact absurd hev (by simp [Event.fill?])
  refine ⟨fun locate id => ?_, hfresh, by rw [hno]; exact h.numbered, ?_, ?_⟩
  · have h1 := h.balance locate id
    have h2 := hbal locate id
    obtain ⟨h3, h4⟩ := hzero locate id
    simp only [logSum_append]
    omega
  · rw [hno, hnext]
    exact h.nextMatch_eq
  · refine trueFills_append h.fills fun locate f hf => ?_
    rw [hf] at hev
    exact absurd hev (by simp [Event.fill?])

/-- The open shares of a taker count for its id. -/
theorem Flow.takerQty_taking (r : RefEngine) (l : ℕ) (req : OrderRequest) (remaining locate id : ℕ) :
    (⟨r, taking l req remaining⟩ : Flow).takerQty locate id =
      if l = locate ∧ req.id = id then remaining else 0 := by
  unfold Flow.takerQty Flow.taking
  by_cases h0 : remaining = 0
  · simp [h0]
  · simp [h0]

/-- **An event that is a fill** moves shares from the maker and from the taker into the log. -/
theorem Conserved.of_fill {log : List Event} {x y : Flow} {locate : ℕ} {f : Fill}
    (h : Conserved log x) (hnum : f.matchNumber = x.engine.nextMatch)
    (hnext : y.engine.nextMatch = (x.engine.nextMatch + 1) % 2 ^ 64) (hpos : 0 < f.qty)
    (hrest : ∀ l id, x.engine.restingQty l id = y.engine.restingQty l id +
      if l = locate ∧ id = f.makerId then f.qty else 0)
    (htaker : ∀ l id, x.takerQty l id = y.takerQty l id +
      if locate = l ∧ f.takerId = id then f.qty else 0)
    (hmaker : f.makerRemaining =
      y.engine.restingQty locate f.makerId + y.takerQty locate f.makerId)
    (htake : f.takerRemaining =
      y.engine.restingQty locate f.takerId + y.takerQty locate f.takerId)
    (hfresh : ∀ l req remaining, y.taker = some (l, req, remaining) →
      y.engine.restingQty l req.id = 0) :
    Conserved (log ++ [Event.fill locate f]) y := by
  have hbal : ∀ l id, logSum (Event.acceptedQty l id) (log ++ [Event.fill locate f]) =
      logSum (Event.takenQty l id) (log ++ [Event.fill locate f]) +
        logSum (Event.madeQty l id) (log ++ [Event.fill locate f]) +
        logSum (Event.cancelledQty l id) (log ++ [Event.fill locate f]) +
        y.engine.restingQty l id + y.takerQty l id := by
    intro l id
    have h1 := h.balance l id
    have h2 := hrest l id
    have h3 := htaker l id
    have htk : Event.takenQty l id (Event.fill locate f) =
        if locate = l ∧ f.takerId = id then f.qty else 0 := rfl
    have hmk : Event.madeQty l id (Event.fill locate f) =
        if l = locate ∧ id = f.makerId then f.qty else 0 := by
      simp only [Event.madeQty, eq_comm]
    have hacc : Event.acceptedQty l id (Event.fill locate f) = 0 := rfl
    have hcan : Event.cancelledQty l id (Event.fill locate f) = 0 := rfl
    simp only [logSum_append]
    omega
  have hfilter : (log ++ [Event.fill locate f]).filterMap Event.fill? =
      log.filterMap Event.fill? ++ [f] := by
    rw [List.filterMap_append]
    rfl
  have hold := h.nextMatch_eq
  refine ⟨hbal, hfresh, ?_, ?_, trueFills_append h.fills fun l g hg => ?_⟩
  · have hlast : f.matchNumber = (1 + (log.filterMap Event.fill?).length) % 2 ^ 64 := by
      rw [hnum, hold, Nat.add_comm]
    rw [hfilter, List.map_append, h.numbered, List.length_append, List.map_cons, List.map_nil, hlast,
      List.length_singleton, List.range'_concat, Nat.one_mul, List.map_append]
    rfl
  · rw [hfilter, List.length_append, List.length_singleton, hnext, hold, Nat.mod_add_mod]
  · obtain ⟨rfl, rfl⟩ : locate = l ∧ f = g := by simpa using hg
    have hopen := hbal locate f.makerId
    have hopen' := hbal locate f.takerId
    refine ⟨hpos, ?_, ?_⟩ <;> rw [openQty] <;> omega

/-- The maker is taken off its market, and the taker has less to trade. -/
theorem Conserved.fill {log : List Event} {r : RefEngine} {locate : ℕ} {m : Market}
    {req : OrderRequest} {remaining : ℕ} {maker : BookOrder} {rest : List BookOrder}
    (h : Conserved log ⟨r, some (locate, req, remaining)⟩) (hr : r.WF)
    (hmarket : r.market? locate = some m) (hfront : m.side req.side.opposite = maker :: rest)
    (hremaining : 0 < remaining) {y : Flow}
    (hy : y = ⟨{ r.setMarket locate (m.take maker (min remaining maker.qty)) with
            nextMatch := (r.nextMatch + 1) % 2 ^ 64 },
          Flow.taking locate req (remaining - min remaining maker.qty)⟩) (hwf : y.engine.WF) :
    Conserved (log ++ [Event.fill locate
      (MatchingEngine.makeFill r.nextMatch req maker (min remaining maker.qty) remaining)]) y := by
  have hmem : maker ∈ m.orders := (Market.mem_orders_iff m).mpr ⟨_, by rw [hfront]; simp⟩
  have hpos := (hr.market hmarket).qty_pos maker hmem
  have hmaker := RefEngine.restingQty_of_mem hr hmarket hmem
  have hfreshx : r.restingQty locate req.id = 0 := h.fresh locate req remaining rfl
  have hne : maker.id ≠ req.id := by
    intro hc
    rw [hc, hfreshx] at hmaker
    omega
  set q := min remaining maker.qty with hq
  have hqle : q ≤ maker.qty := min_le_right _ _
  have hqrem : q ≤ remaining := min_le_left _ _
  have hrest : ∀ l id, r.restingQty l id = y.engine.restingQty l id +
      if l = locate ∧ id = maker.id then q else 0 := by
    intro l id
    have hwf' : (r.setMarket locate (m.take maker q)).WF := by
      rw [hy] at hwf
      exact hwf
    rw [hy]
    exact RefEngine.restingQty_take hr hmarket hwf' hmem hqle l id
  have htaker : ∀ l id, y.takerQty l id =
      if locate = l ∧ req.id = id then remaining - q else 0 := by
    intro l id
    rw [hy, Flow.takerQty_taking]
  have hmrest := hrest locate maker.id
  rw [if_pos ⟨rfl, rfl⟩] at hmrest
  have htrest := hrest locate req.id
  refine h.of_fill rfl (by rw [hy]) (show 0 < q by omega) hrest (fun l id => ?_) ?_ ?_ ?_
  · rw [htaker]
    show (if locate = l ∧ req.id = id then remaining else 0) =
      (if locate = l ∧ req.id = id then remaining - q else 0) +
        if locate = l ∧ req.id = id then q else 0
    split <;> omega
  · show maker.qty - q = y.engine.restingQty locate maker.id + y.takerQty locate maker.id
    rw [htaker, if_neg (fun hc => hne hc.2.symm)]
    omega
  · show remaining - q = y.engine.restingQty locate req.id + y.takerQty locate req.id
    rw [htaker, if_pos ⟨rfl, rfl⟩]
    omega
  · intro l req' rem' hsome
    rw [hy] at hsome
    simp only [Flow.taking] at hsome
    split at hsome
    · exact absurd hsome (by simp)
    · obtain ⟨rfl, rfl, rfl⟩ : locate = l ∧ req = req' ∧ remaining - q = rem' := by
        simpa using hsome
      omega

/-- **Every rule of the event protocol conserves shares.** -/
theorem Conserved.step {log : List Event} {x y : Flow} {ev : Event} (hx : x.engine.WF)
    (hy : y.engine.WF) (h : Conserved log x) (hstep : x.Step ev y) : Conserved (log ++ [ev]) y := by
  cases hstep with
  | rejected _ => exact h.of_not_fill rfl rfl (fun _ _ => rfl) h.fresh
  | @accepted r locate req hok =>
    refine h.of_not_fill rfl rfl ?_ ?_
    · intro l id
      simp only [Event.acceptedQty, Event.cancelledQty, Flow.takerQty]
      omega
    · rintro l req' rem' hsome
      obtain ⟨rfl, rfl, -⟩ : locate = l ∧ req = req' ∧ req.qty = rem' := by simpa using hsome
      -- an accepted id does not rest
      obtain ⟨m, hm, -, -, hfind⟩ := RefEngine.of_accepted hok
      simp [RefEngine.restingQty, hm, hfind]
  | fill hmarket hfront hremaining _ _ => exact h.fill hx hmarket hfront hremaining rfl hy
  | @selfMatch r locate m req remaining maker rest hmarket hfront hremaining _ _ =>
    have hmem : maker ∈ m.orders := (Market.mem_orders_iff m).mpr ⟨_, by rw [hfront]; simp⟩
    have htake := RefEngine.restingQty_take hx hmarket hy hmem (le_refl _)
    refine h.of_not_fill rfl rfl ?_ ?_
    · intro l id
      have := htake l id
      simp only [Event.acceptedQty, Event.cancelledQty, Flow.takerQty] at this ⊢
      grind
    · intro l req' rem' hsome
      have h1 := h.fresh l req' rem' hsome
      have h2 := htake l req'.id
      simp only at h1 h2 ⊢
      omega
  | takerCancelled _ =>
    refine h.of_not_fill rfl rfl ?_ (by simp)
    intro l id
    simp only [Event.acceptedQty, Event.cancelledQty, Flow.takerQty]
    omega
  | @rested r locate m req remaining hmarket hremaining hday hgrid hroom hclear =>
    have hfresh : m.find (req.resting remaining).id = none := by
      by_contra hc
      exact hroom (.inr (.inr (Option.isSome_iff_ne_none.mpr hc)))
    have hrest := RefEngine.restingQty_rest hx hmarket hy hfresh
    refine h.of_not_fill rfl rfl ?_ (by simp)
    intro l id
    have := hrest l id
    simp only [Event.acceptedQty, Event.cancelledQty, Flow.takerQty, OrderRequest.resting] at this ⊢
    grind
  | @cancelled r locate m o shares why hmarket hfind hpos hle =>
    have hmem := ((hx.market hmarket).find_eq_some_iff.mp hfind).1
    have htake := RefEngine.restingQty_take hx hmarket hy hmem hle
    refine h.of_not_fill rfl rfl ?_ (by simp)
    intro l id
    have := htake l id
    simp only [Event.acceptedQty, Event.cancelledQty, Flow.takerQty] at this ⊢
    grind

namespace MatchingEngine

/-- **Every run conserves shares.** -/
theorem conserved_after (stp : SelfMatchPolicy) (maxOrderQty : ℕ) (ops : List EngineOp) :
    Conserved (eventLog stp maxOrderQty ops) ⟨(after stp maxOrderQty ops).abs, none⟩ := by
  refine runs_invariant stp maxOrderQty ?_ ?_ (fun log x ev y hx hy h hstep => h.step hx hy hstep) ops
  · refine ⟨fun locate id => ?_, by simp, rfl, rfl, by simp⟩
    simp [logSum, RefEngine.restingQty, RefEngine.market?, start, abs, Flow.takerQty]
  · intro log r symbol cfg h
    refine ⟨fun locate id => ?_, by simp, h.numbered, h.nextMatch_eq, h.fills⟩
    have := h.balance locate id
    rw [restingQty_list]
    exact this

/-- The accepted shares of an order whose id is not used again. -/
theorem acceptedQty_of_noReuse {log : List Event} (h : NoReuse log) {locate : ℕ}
    {req : OrderRequest} (hmem : .accepted locate req ∈ log) :
    logSum (Event.acceptedQty locate req.id) log = req.qty := by
  obtain ⟨pre, post, rfl⟩ := List.append_of_mem hmem
  rw [NoReuse, List.filterMap_append, List.filterMap_cons_some (f := Event.acceptedKey?) rfl,
    List.nodup_middle, List.nodup_cons] at h
  have hzero : ∀ l : List Event, (∀ ev ∈ l, ev.acceptedKey? ≠ some (locate, req.id)) →
      (l.map (Event.acceptedQty locate req.id)).sum = 0 := by
    intro l hl
    rw [List.sum_eq_zero_iff]
    intro n hn
    obtain ⟨ev, hev, rfl⟩ := List.mem_map.mp hn
    exact Event.acceptedQty_eq_zero (hl ev hev)
  have hnot : ∀ ev ∈ pre ++ post, ev.acceptedKey? ≠ some (locate, req.id) := by
    intro ev hev hc
    apply h.1
    rw [← List.filterMap_append]
    exact List.mem_filterMap.mpr ⟨ev, hev, hc⟩
  have hpre := hzero pre fun ev hev => hnot ev (by simp [hev])
  have hpost := hzero post fun ev hev => hnot ev (by simp [hev])
  simp [logSum, hpre, hpost, Event.acceptedQty]

/-- The resting shares of the engine are those of its markets. -/
theorem restingQty_abs {e : MatchingEngine} (h : e.WF) {locate : ℕ} (hv : e.validLocate locate) (id : ℕ) :
    e.abs.restingQty locate id = e.restingQty locate id := by
  rw [RefEngine.restingQty, market?_abs, if_pos hv, restingQty, ← OrderBook.market_find (h.book hv)]
  rfl

/-- Only orders of listed symbols are accepted, and a symbol stays listed. -/
theorem validLocate_of_accepted (stp : SelfMatchPolicy) (maxOrderQty : ℕ) (ops : List EngineOp)
    {locate : ℕ} {req : OrderRequest} (hmem : .accepted locate req ∈ eventLog stp maxOrderQty ops) :
    (after stp maxOrderQty ops).validLocate locate := by
  have hinv := runs_invariant stp maxOrderQty
    (P := fun log x => ∀ l req, .accepted l req ∈ log → 1 ≤ l ∧ l ≤ x.engine.markets.length)
    (by simp) ?_ ?_ ops
  · have := hinv locate req hmem
    simpa [validLocate, abs] using this
  · intro log r symbol cfg h l req hl
    obtain ⟨h1, h2⟩ := h l req hl
    refine ⟨h1, ?_⟩
    simp only [list, List.length_append, List.length_singleton]
    exact Nat.le_succ_of_le h2
  · intro log x ev y _ _ h hstep l req hl
    have hlen : y.engine.markets.length = x.engine.markets.length := by
      cases hstep <;> simp [RefEngine.setMarket]
    rw [hlen]
    rcases List.mem_append.mp hl with hl | hl
    · exact h l req hl
    · rw [← List.mem_singleton.mp hl] at hstep
      cases hstep with
      | @accepted r _ _ hok =>
        obtain ⟨m, hm, -⟩ := RefEngine.of_accepted hok
        unfold RefEngine.market? at hm
        split_ifs at hm with h0
        have := (List.getElem?_eq_some_iff.mp hm).1
        exact ⟨by omega, by simp only; omega⟩

/-- **Shares are conserved.** After every run in which no accepted id is used again, what an
order was accepted for is what it traded as taker and as maker, what was reported cancelled
for it and what rests of it; the fills of the run have positive quantities, report the open
quantities they leave, and are numbered 1, 2, 3 and so on, as many as `trade_count` says, both as
the `uint64_t` that they are. -/
theorem shares_conserved (stp : SelfMatchPolicy) (maxOrderQty : ℕ) (ops : List EngineOp)
    (hreuse : NoReuse (eventLog stp maxOrderQty ops)) :
    (∀ locate req, .accepted locate req ∈ eventLog stp maxOrderQty ops →
      req.qty = logSum (Event.takenQty locate req.id) (eventLog stp maxOrderQty ops) +
        logSum (Event.madeQty locate req.id) (eventLog stp maxOrderQty ops) +
        logSum (Event.cancelledQty locate req.id) (eventLog stp maxOrderQty ops) +
        (after stp maxOrderQty ops).restingQty locate req.id) ∧
    (∀ pre locate f post, eventLog stp maxOrderQty ops = pre ++ .fill locate f :: post →
      TrueFill (pre ++ [.fill locate f]) locate f) ∧
    ((eventLog stp maxOrderQty ops).filterMap Event.fill?).map Fill.matchNumber =
      (List.range' 1 ((eventLog stp maxOrderQty ops).filterMap Event.fill?).length).map
        (· % 2 ^ 64) ∧
    (after stp maxOrderQty ops).tradeCount =
      ((eventLog stp maxOrderQty ops).filterMap Event.fill?).length % 2 ^ 64 := by
  have h := conserved_after stp maxOrderQty ops
  refine ⟨fun locate req hmem => ?_, h.fills, h.numbered, ?_⟩
  · have hbal := h.balance locate req.id
    have hv := validLocate_of_accepted stp maxOrderQty ops hmem
    rw [acceptedQty_of_noReuse hreuse hmem,
      restingQty_abs (wf_after stp maxOrderQty ops) hv] at hbal
    simpa [Flow.takerQty] using hbal
  · have hnext : (after stp maxOrderQty ops).nextMatch = _ := h.nextMatch_eq
    rw [tradeCount, hnext]
    omega

/-- A sell order of 5 trades 3 as a maker, loses 1 to a cancel and keeps 1. -/
theorem shares_conserved_one_symbol :
    let ops : List EngineOp := [.addSymbol (fun _ => 32) ⟨0, 2, 1, 4⟩,
      .submit 1 { id := 7, side := .sell, price := 1, qty := 5, owner := 2 },
      .submit 1 { id := 8, side := .buy, price := 2, qty := 3, owner := 3 },
      .cancel 1 7 1 2 .userRequested]
    NoReuse (eventLog .cancelResting 100 ops) ∧
      (after .cancelResting 100 ops).restingQty 1 7 = 1 ∧
      5 = logSum (Event.takenQty 1 7) (eventLog .cancelResting 100 ops) +
        logSum (Event.madeQty 1 7) (eventLog .cancelResting 100 ops) +
        logSum (Event.cancelledQty 1 7) (eventLog .cancelResting 100 ops) +
        (after .cancelResting 100 ops).restingQty 1 7 := by
  intro ops
  have hreuse : NoReuse (eventLog .cancelResting 100 ops) := by decide
  exact ⟨hreuse, by decide, (shares_conserved .cancelResting 100 ops hreuse).1 1
    { id := 7, side := .sell, price := 1, qty := 5, owner := 2 } (by decide)⟩

end MatchingEngine

end PulseForge
