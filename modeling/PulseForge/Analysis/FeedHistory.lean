import PulseForge.Analysis.FeedDeterminesBook
import PulseForge.Analysis.FeedNumbering
import PulseForge.Interface.MarketHistory

/-!
# The feed carries the history of the markets

`Aired` relates the feed to the event log: the messages published are those of the opening and
one for each public event, and the message of an event turns a replica of the markets before it
into a replica of the markets behind it. Every callback of the engine keeps it.
-/

set_option autoImplicit false

namespace PulseForge

open Foundation

/-! ## The history of the markets -/

section History

variable {r r' : RefEngine} {x y : Flow} {ev : Event} {log : List Event}

/-- The market of a locate depends on the markets. -/
theorem RefEngine.market?_congr (h : r'.markets = r.markets) (l : ℕ) :
    r'.market? l = r.market? l := by
  unfold RefEngine.market?
  rw [h]

/-- What an event does to the markets depends on the markets. -/
theorem Event.enact_congr (h : r'.markets = r.markets) (ev : Event) :
    (ev.enact r').markets = (ev.enact r).markets := by
  have hset : ∀ l m, (r'.setMarket l m).markets = (r.setMarket l m).markets := by
    intro l m
    simp only [RefEngine.setMarket, h]
  cases ev with
  | accepted | rejected | takerCancelled => exact h
  | fill l f =>
    simp only [enact, RefEngine.market?_congr h]
    cases r.market? l with
    | none => exact h
    | some m =>
      dsimp only
      cases m.find f.makerId with
      | none => exact h
      | some maker => exact hset l _
  | rested l o =>
    simp only [enact, RefEngine.market?_congr h]
    cases r.market? l with
    | none => exact h
    | some m => exact hset l _
  | restingCancelled l o q why =>
    simp only [enact, RefEngine.market?_congr h]
    cases r.market? l with
    | none => exact h
    | some m => exact hset l _

/-- A private event changes no market. -/
theorem Event.enact_of_private (h : ev.isPublic = false) (r : RefEngine) : ev.enact r = r := by
  cases ev with
  | accepted | rejected | takerCancelled => rfl
  | fill | rested | restingCancelled => cases h

/-- **Every rule of the event protocol** does to the markets what the event says. -/
theorem Flow.Step.enact (hstep : x.Step ev y) (hx : x.engine.WF) :
    y.engine.markets = (ev.enact x.engine).markets := by
  cases hstep with
  | rejected | accepted | takerCancelled => rfl
  | @fill r l m req remaining maker rest hmarket hfront hremaining hcross hother =>
    have ho : maker ∈ m.orders := (Market.mem_orders_iff m).mpr ⟨_, by rw [hfront]; simp⟩
    have hfind : m.find (MatchingEngine.makeFill r.nextMatch req maker (min remaining maker.qty)
        remaining).makerId = some maker :=
      (hx.market hmarket).find_eq_some_iff.mpr ⟨ho, rfl⟩
    simp only [Event.enact, hmarket, hfind]
    rfl
  | selfMatch hmarket => simp only [Event.enact, hmarket]
  | rested hmarket => simp only [Event.enact, hmarket]
  | cancelled hmarket => simp only [Event.enact, hmarket]

/-- No rule opens or closes a market, or changes its configuration. -/
theorem Flow.Step.market?_cfg (hstep : x.Step ev y) (l : ℕ) :
    (y.engine.market? l).map Market.cfg = (x.engine.market? l).map Market.cfg := by
  have hset : ∀ {r : RefEngine} {l' : ℕ} {m m' : Market}, r.market? l' = some m → m'.cfg = m.cfg →
      ((r.setMarket l' m').market? l).map Market.cfg = (r.market? l).map Market.cfg := by
    intro r l' m m' hm hcfg
    rw [RefEngine.market?_setMarket_eq hm]
    split
    · next hl => rw [hl, hm, Option.map_some, Option.map_some, hcfg]
    · rfl
  cases hstep with
  | rejected | accepted | takerCancelled => rfl
  | fill hmarket => exact hset hmarket (OrderBook.cfg_setSide ..)
  | selfMatch hmarket => exact hset hmarket (OrderBook.cfg_setSide ..)
  | rested hmarket => exact hset hmarket (OrderBook.cfg_setSide ..)
  | cancelled hmarket => exact hset hmarket (OrderBook.cfg_setSide ..)

/-- The public events of two logs. -/
theorem publicEvents_append (log log' : List Event) :
    publicEvents (log ++ log') = publicEvents log ++ publicEvents log' := by
  unfold publicEvents
  exact List.filter_append log log'

/-- What was behind a message does not change. -/
theorem RefEngine.behind_append (r : RefEngine) (log log' : List Event) {k : ℕ}
    (hk : k ≤ (publicEvents log).length) : r.behind (log ++ log') k = r.behind log k := by
  unfold RefEngine.behind
  rw [publicEvents_append, List.take_append_of_le_length hk]

/-- Behind one more public event. -/
theorem RefEngine.behind_concat (r : RefEngine) (log : List Event) (h : ev.isPublic = true) :
    (publicEvents (log ++ [ev])).length = (publicEvents log).length + 1 ∧
      r.behind (log ++ [ev]) ((publicEvents log).length + 1) =
        ev.enact (r.behind log (publicEvents log).length) := by
  have hone : publicEvents (log ++ [ev]) = publicEvents log ++ [ev] := by
    rw [publicEvents_append, publicEvents, publicEvents, List.filter_cons_of_pos h,
      List.filter_nil]
  unfold RefEngine.behind
  rw [hone, List.length_append, List.length_singleton]
  refine ⟨rfl, ?_⟩
  rw [List.take_of_length_le (by rw [List.length_append, List.length_singleton]), List.take_length,
    List.foldl_append]
  rfl

/-- A private event adds no public one. -/
theorem publicEvents_concat_private (log : List Event) (h : ev.isPublic = false) :
    publicEvents (log ++ [ev]) = publicEvents log := by
  rw [publicEvents_append, publicEvents, publicEvents, List.filter_cons_of_neg (by simp [h]),
    List.filter_nil, List.append_nil]

/-- The feed publishes the public events. -/
theorem isSome_publicMessage (e : MatchingEngine) (now : ℕ) (ev : Event) :
    (publicMessage e now ev).isSome = ev.isPublic := by
  cases ev <;> rfl

end History

/-! ## Messages and markets -/

/-- The message turns a replica of the market before it into one of the market behind it, and
the handler answers as expected. -/
def Itch.Message.Carries (locate : UInt16) (before after : Option Market) (msg : Itch.Message) :
    Prop :=
  ∀ m, before = some m → ∃ m', after = some m' ∧ ∀ b, Mirrors b m → ∃ b',
    applyItch b locate msg = (b', expectedAnswer locate msg) ∧ Mirrors b' m'

/-- **The message of an event** carries it. -/
theorem Flow.Step.carries {x y : Flow} {ev : Event} (hstep : x.Step ev y) (hx : x.engine.WF)
    (hfits : ∀ l, x.Fits l) (hev : ev.Fits)
    (hband : ∀ l m, x.engine.market? l = some m → m.cfg.Fits) {e : MatchingEngine} {now : ℕ}
    {msg : Itch.Message} (hmsg : publicMessage e now ev = some msg) (locate : UInt16) :
    msg.Carries locate (x.engine.market? locate.toNat) (y.engine.market? locate.toNat) := by
  intro m hm
  have hcfg := hstep.market?_cfg locate.toNat
  rw [hm, Option.map_some] at hcfg
  obtain ⟨m', hm', -⟩ := Option.map_eq_some_iff.mp hcfg
  refine ⟨m', hm', fun b hb => ?_⟩
  obtain ⟨m'', hm'', -, hcarry⟩ :=
    Mirrors.step hstep hx (hfits locate.toNat) hev hm (hband _ m hm) hb e now
  obtain rfl := Option.some.inj (hm'.symm.trans hm'')
  rw [hmsg] at hcarry
  exact hcarry

/-! ## The feed -/

/-- The bytes of a message. -/
def wireOf (m : Itch.Message) : Bytes := Itch.encode m Itch.kMaxMessageLen

/-- **The feed carries the history** of the markets since `r₀`: the first `opening` messages say
that the day begins, and from then on every public event has its message. -/
structure Aired (r₀ : RefEngine) (opening : ℕ) (x : Flow) (md : MarketDataFeed) (log : List Event)
    (packets : List Bytes) (msgs : List Itch.Message) : Prop where
  numbered : md.Numbered packets (msgs.map wireOf)
  stamped : ∀ m ∈ msgs, m.timestamp.toNat < 2 ^ 48
  count : msgs.length = opening + (publicEvents log).length
  first : ∀ k m, k < opening → msgs[k]? = some m → m.locate? = none
  carried : ∀ k m, msgs[opening + k]? = some m → ∀ locate : UInt16,
    m.Carries locate ((r₀.behind log k).market? locate.toNat)
      ((r₀.behind log (k + 1)).market? locate.toNat)
  now : x.engine.markets = (r₀.behind log (publicEvents log).length).markets
  fits : ∀ l, x.Fits l
  plain : ∀ l m, x.engine.market? l = some m → m.cfg = {}

namespace Aired

variable {r₀ : RefEngine} {opening : ℕ} {x y : Flow} {md : MarketDataFeed} {log : List Event}
  {packets : List Bytes} {msgs : List Itch.Message} {ev : Event}

/-- Every book is one that the exchange opens. -/
theorem band (h : Aired r₀ opening x md log packets msgs) {l : ℕ} {m : Market}
    (hm : x.engine.market? l = some m) : m.cfg.Fits := by
  rw [h.plain l m hm]
  decide

/-- What the feed sends when `msg` is published, or nothing is. -/
def heard (md : MarketDataFeed) (now : ℕ) : Option Itch.Message → MarketDataFeed
  | none => md
  | some msg => md.publish now (wireOf msg)

/-- **One callback.** -/
theorem step (h : Aired r₀ opening x md log packets msgs) (hx : x.engine.WF) (hev : ev.Fits)
    (hstep : x.Step ev y) (e : MatchingEngine) (now now' : ℕ) :
    ∃ packets', Aired r₀ opening y (heard md now' (publicMessage e now ev)) (log ++ [ev]) packets'
      (msgs ++ (publicMessage e now ev).toList) := by
  have hfits : ∀ l, y.Fits l := fun l => (h.fits l).step hx hev hstep
  have hplain : ∀ l m, y.engine.market? l = some m → m.cfg = {} := by
    intro l m' hm'
    have hcfg := hstep.market?_cfg l
    rw [hm', Option.map_some] at hcfg
    obtain ⟨m, hm, hsame⟩ := Option.map_eq_some_iff.mp hcfg.symm
    exact hsame.symm.trans (h.plain l m hm)
  have henact := hstep.enact hx
  have hsome := isSome_publicMessage e now ev
  cases hmsg : publicMessage e now ev with
  | none =>
    rw [hmsg] at hsome
    have hprivate : ev.isPublic = false := hsome.symm
    have hevents := publicEvents_concat_private log hprivate
    have hbehind : ∀ k, r₀.behind (log ++ [ev]) k = r₀.behind log k := by
      intro k
      unfold RefEngine.behind
      rw [hevents]
    refine ⟨packets, ?_⟩
    rw [Option.toList_none, List.append_nil]
    refine ⟨h.numbered, h.stamped, by rw [hevents]; exact h.count, h.first, ?_, ?_, hfits, hplain⟩
    · intro k m hk locate
      rw [hbehind, hbehind]
      exact h.carried k m hk locate
    · rw [henact, Event.enact_of_private hprivate, hevents, hbehind]
      exact h.now
  | some msg =>
    rw [hmsg] at hsome
    have hpublic : ev.isPublic = true := hsome.symm
    obtain ⟨hcount, hlast⟩ := r₀.behind_concat log hpublic
    have hcarries := hstep.carries hx h.fits hev (fun _ _ => h.band) hmsg
    have hts := MatchingEngine.timestamp_of_publicMessage hmsg
    have hnumbered := h.numbered.publish now' (MarketDataFeed.encode_length msg).2
    have hmarkets : y.engine.markets =
        (r₀.behind (log ++ [ev]) ((publicEvents log).length + 1)).markets := by
      rw [henact, hlast]
      exact Event.enact_congr h.now ev
    refine ⟨packets ++ if (md.pkt.append (wireOf msg)).2 then [] else md.outgoing,
      ?_, ?_, ?_, ?_, ?_, ?_, hfits, hplain⟩
    · rw [Option.toList_some, List.map_append, List.map_singleton]
      exact hnumbered
    · intro m hm
      rcases List.mem_append.mp hm with hm | hm
      · exact h.stamped m hm
      · rw [List.mem_singleton.mp hm, hts]
        exact MatchingEngine.midNow_lt now
    · rw [List.length_append, h.count, hcount]
      rfl
    · intro k m hk hm
      have hlt : k < msgs.length := by
        have := h.count
        omega
      rw [List.getElem?_append_left hlt] at hm
      exact h.first k m hk hm
    · intro k m hm locate
      rcases Nat.lt_or_ge (opening + k) msgs.length with hlt | hge
      · have hk : k + 1 ≤ (publicEvents log).length := by
          have := h.count
          omega
        rw [List.getElem?_append_left hlt] at hm
        rw [r₀.behind_append log [ev] (Nat.le_of_succ_le hk), r₀.behind_append log [ev] hk]
        exact h.carried k m hm locate
      · -- the message of this event
        have hk : k = (publicEvents log).length := by
          have hlen := (List.getElem?_eq_some_iff.mp hm).1
          rw [List.length_append, h.count, Option.toList_some, List.length_singleton] at hlen
          have := h.count
          omega
        subst hk
        rw [← h.count, List.getElem?_append_right le_rfl, Nat.sub_self] at hm
        obtain rfl : msg = m := Option.some.inj hm
        rw [r₀.behind_append log [ev] le_rfl, ← RefEngine.market?_congr h.now,
          ← RefEngine.market?_congr hmarkets]
        exact hcarries locate
    · rw [hcount]
      exact hmarkets

end Aired

end PulseForge
