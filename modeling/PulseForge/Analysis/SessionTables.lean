import PulseForge.Analysis.ExchangeMoves
import PulseForge.Analysis.OrderIds
import PulseForge.Analysis.SyntheticFlow

/-!
# Session order tables and cancel-on-disconnect

A run of the exchange is any list of actions on a new process, with any answers of the
kernel. `run_induction` carries a property of the desk through a run. The headline says that
between actions every session's table is exactly the orders of the session that rest, so
that no cancel of a client fails and closing a session leaves none of its orders.
-/

set_option autoImplicit false

namespace PulseForge

open Foundation

namespace Exchange

variable {x : Exchange}

/-! ## The start of day -/

/-- Listing symbols: the engine is well-formed and nothing rests. -/
theorem list_fresh (symbols : List Symbol) (e : MatchingEngine) (he : e.WF)
    (hempty : ∀ m ∈ e.abs.markets, m.orders = []) :
    (symbols.foldl listSymbol e).WF ∧
      ∀ m ∈ (symbols.foldl listSymbol e).abs.markets, m.orders = [] := by
  induction symbols generalizing e with
  | nil => exact ⟨he, hempty⟩
  | cons s symbols ih =>
    rw [List.foldl_cons, listSymbol]
    rcases MatchingEngine.addSymbol_cases e s {} with ⟨why, hadd⟩ | ⟨b, hnew, hadd⟩
    · rw [hadd]
      exact ih e he hempty
    · rw [hadd]
      have hcall : MatchingEngine.call e (.addSymbol s {}) =
          ({ e with books := e.books ++ [b], symbols := e.symbols ++ [s] }, []) := by
        simp only [MatchingEngine.call, hadd]
      have hwf := (MatchingEngine.call_cases he (.addSymbol s {})).1
      rw [hcall] at hwf
      refine ih _ hwf fun m hm => ?_
      simp only [MatchingEngine.abs, List.map_append, List.map_cons, List.map_nil,
        List.mem_append, List.mem_singleton] at hm
      rcases hm with hm | rfl
      · exact hempty m hm
      · have horders := OrderBook.new_orders hnew
        simp [Market.orders, OrderBook.market, horders]

/-- Before the first connection, when nothing rests. -/
theorem sound_of_empty (hwf : x.engine.WF) (hempty : ∀ m ∈ x.engine.abs.markets, m.orders = [])
    (hsessions : x.sessions = []) (hanswers : x.answers = []) : x.Sound ∧ x.desk.Inv := by
  have hnone : ∀ k, x.session? k = none := fun k => by rw [session?, hsessions]; rfl
  have hacc : ∀ k a, x.desk.account k ≠ some a := fun k a => by simp [desk, hnone]
  have hnothing : ∀ k ref h, ¬ Desk.Rests x.desk.engine k ref h := by
    rintro k ref h ⟨m, hm, o, ho, -⟩
    have hmem : m ∈ x.engine.abs.markets := by
      rw [show x.desk.engine = x.engine.abs from rfl, RefEngine.market?] at hm
      split_ifs at hm
      exact List.mem_of_getElem? hm
    rw [hempty m hmem] at ho
    simp at ho
  refine ⟨⟨hwf, hnone 0, fun k s hs => ?_⟩, hwf.abs, ?_, fun k a ha => absurd ha (hacc k a),
    fun k ref h hr => absurd hr (hnothing k ref h), fun k ref h hr => absurd hr (hnothing k ref h),
    fun k a ha => absurd ha (hacc k a), fun p hp => ?_⟩
  · rw [hnone] at hs
    cases hs
  · simp [desk, hnone]
  · rw [show x.desk.answers = x.answers from rfl, hanswers] at hp
    simp at hp

theorem quiet_directory (ts : UInt64) (e : MatchingEngine) (is : List ℕ) (y : Exchange) :
    Quiet y (is.foldl (fun x i =>
      x.publish (.stockDirectory (UInt16.ofNat (i + 1)) ts (e.symbol (i + 1)) 100)) y) := by
  induction is generalizing y with
  | nil => exact .refl y
  | cons i is ih =>
    have hfirst := quiet_publish y
      (.stockDirectory (UInt16.ofNat (i + 1)) ts (e.symbol (i + 1)) 100)
    rw [List.foldl_cons]
    exact hfirst.trans (ih _)

theorem quiet_flushFeed (y : Exchange) :
    Quiet y ({ y with md := y.md.flush y.nowNs } : Exchange).tick :=
  ⟨rfl, rfl, id⟩

/-- The start of day, from the exchange before its first message. -/
theorem new_quiet (cfg : Config) (clock : Clock) :
    ∃ x₀ : Exchange, Quiet x₀ (new cfg clock) ∧ x₀.sessions = [] ∧ x₀.answers = [] ∧ x₀.log = [] ∧
      x₀.nextSessionId = 1 ∧ x₀.engine = cfg.symbols.foldl listSymbol { stp := cfg.stp } := by
  unfold new
  dsimp only
  generalize hengine : cfg.symbols.foldl listSymbol { stp := cfg.stp } = engine
  set x₀ : Exchange :=
    { engine := engine
      md := .new kSessionName cfg.dropEvery
      synth := cfg.symbols.map fun _ => { fair := 100 * kPriceScale }
      rng := if cfg.seed ≠ 0 then cfg.seed else 0x9E3779B97F4A7C15
      clock := clock } with hx₀
  have hopen := (quiet_tick x₀).trans (quiet_publish x₀.tick (.systemEvent 0 x₀.midNow 79))
  have hlist := hopen.trans (quiet_directory x₀.midNow engine (List.range engine.books.length) _)
  have hquote := hlist.trans (quiet_publish _ (.systemEvent 0 x₀.midNow 81))
  exact ⟨x₀, hquote.trans (quiet_flushFeed _), rfl, rfl, rfl, rfl, rfl⟩

/-- A new process: no session, and nothing rests. -/
theorem new_spec (cfg : Config) (clock : Clock) :
    (new cfg clock).Sound ∧ (new cfg clock).desk.Inv ∧ (new cfg clock).desk.nextSessionId = 1 ∧
      (∀ k, (new cfg clock).desk.account k = none) ∧ (new cfg clock).desk.log = [] := by
  obtain ⟨x₀, hq, hsessions, hanswers, hlog, hid, hengine⟩ := new_quiet cfg clock
  obtain ⟨hwf, hempty⟩ := list_fresh cfg.symbols { stp := cfg.stp }
    (MatchingEngine.wf_start cfg.stp 1000000) (by simp [MatchingEngine.abs])
  rw [← hengine] at hwf hempty
  obtain ⟨hsound, hinv⟩ := sound_of_empty hwf hempty hsessions hanswers
  rw [hq.desk]
  refine ⟨hq.changes.sound hsound fun _ => rfl, hinv, hid, fun k => ?_, hlog⟩
  simp [desk, session?, hsessions]

/-! ## Runs -/

/-- The connections that a run accepts. -/
def accepts (actions : List Action) : ℕ := (actions.map Action.accepts).sum

/-- The connections of one action more. -/
theorem accepts_append (actions : List Action) (a : Action) :
    accepts (actions ++ [a]) = accepts actions + a.accepts := by
  simp [accepts]

/-- A run, one action longer. -/
theorem after_append (cfg : Config) (clock : Clock) (actions : List Action) (a : Action) :
    after cfg clock (actions ++ [a]) = (after cfg clock actions).step a := by
  simp [after]

/-- **The process is sound** after every run that does not use up the session ids, and the id of
the next session counts the connections. -/
theorem sound_after (cfg : Config) (clock : Clock) (actions : List Action)
    (hids : accepts actions < 2 ^ 32) :
    (after cfg clock actions).Sound ∧
      (after cfg clock actions).desk.nextSessionId = (accepts actions + 1) % 2 ^ 32 := by
  induction actions using List.reverseRecOn with
  | nil =>
    obtain ⟨hsound, -, hid, -⟩ := new_spec cfg clock
    exact ⟨hsound, hid⟩
  | append_singleton actions a ih =>
    rw [accepts_append] at hids ⊢
    rw [after_append]
    obtain ⟨hs, hn⟩ := ih (by omega)
    by_cases ha : a.accepts = 0
    · have hf := step_follows hs ha
      rw [ha, Nat.add_zero]
      refine ⟨hf.sound, ?_⟩
      have hmoves := hf.moves
      generalize ((after cfg clock actions).step a).desk = d at hmoves ⊢
      induction hmoves with
      | refl => exact hn
      | tail _ hm ih => exact hm.nextSessionId.trans ih
    · cases a with
      | accept kind =>
        have hone : (Action.accept kind).accepts = 1 := rfl
        rw [hone] at hids ⊢
        rw [Nat.mod_eq_of_lt hids] at hn
        have hne : (after cfg clock actions).nextSessionId ≠ 0 := by
          rw [show (after cfg clock actions).nextSessionId = accepts actions + 1 from hn]
          omega
        obtain ⟨hs', hop⟩ := accept_opens hs hne kind
        exact ⟨hs', hop.nextSessionId.trans (by rw [hn])⟩
      | session | synth | heartbeat | watchdog | reap | flushDirty | flushFeed =>
        exact absurd rfl ha

/-- **Induction over runs.** A property of the desk, given how many connections were accepted,
that holds at the start, that accepting a connection under a new id keeps and that every move
keeps holds after every run that uses up neither the session ids nor the order ids. -/
theorem run_induction (cfg : Config) (clock : Clock) {P : ℕ → Desk → Prop}
    (hstart : P 0 (new cfg clock).desk)
    (hopens : ∀ n d d', d.Inv → P n d → d.nextSessionId = n + 1 → d.Opens d' → P (n + 1) d')
    (hmove : ∀ n k d d', d.Inv → P n d → d'.nextOrderId ≤ 2 ^ 64 → d.Move k d' → P n d')
    (actions : List Action) (hids : accepts actions < 2 ^ 32)
    (horders : (after cfg clock actions).nextOrderId ≤ 2 ^ 64) :
    (after cfg clock actions).Sound ∧ (after cfg clock actions).desk.Inv ∧
      P (accepts actions) (after cfg clock actions).desk := by
  refine ⟨(sound_after cfg clock actions hids).1, ?_⟩
  have hmoves : ∀ {n k : ℕ} {d d' : Desk}, (d.nextOrderId ≤ 2 ^ 64 → d.Inv ∧ P n d) →
      Relation.ReflTransGen (Desk.Move k) d d' → d'.nextOrderId ≤ 2 ^ 64 → d'.Inv ∧ P n d' := by
    intro n k d d' h hrun
    induction hrun with
    | refl => exact h
    | tail _ hm ih =>
      intro hle
      obtain ⟨hi, hp⟩ := ih (hm.nextOrderId_le.trans hle)
      exact ⟨hi.move hm hle, hmove _ _ _ _ hi hp hle hm⟩
  -- the order ids only grow, so that no prefix of the run used them up
  induction actions using List.reverseRecOn with
  | nil => exact ⟨(new_spec cfg clock).2.1, hstart⟩
  | append_singleton actions a ih =>
    rw [accepts_append] at hids ⊢
    rw [after_append] at horders ⊢
    obtain ⟨hs, hn⟩ := sound_after cfg clock actions (by omega)
    by_cases ha : a.accepts = 0
    · rw [ha, Nat.add_zero]
      exact hmoves (ih (by omega)) (step_follows hs ha).moves horders
    · cases a with
      | accept kind =>
        have hone : (Action.accept kind).accepts = 1 := rfl
        rw [hone] at hids ⊢
        rw [Nat.mod_eq_of_lt hids] at hn
        have hne : (after cfg clock actions).nextSessionId ≠ 0 := by
          rw [show (after cfg clock actions).nextSessionId = accepts actions + 1 from hn]
          omega
        obtain ⟨-, hop⟩ := accept_opens hs hne kind
        obtain ⟨hi, hp⟩ := ih (by omega) (hop.nextOrderId.symm.trans_le horders)
        exact ⟨hi.opens hop hne, hopens _ _ _ hi hp hn hop⟩
      | session | synth | heartbeat | watchdog | reap | flushDirty | flushFeed =>
        exact absurd rfl ha

/-! ## Tables -/

/-- An order of the session `k` under the reference `ref` rests in the books. -/
def Resting (e : MatchingEngine) (k ref : ℕ) (h : OrderHandle) : Prop :=
  e.validLocate h.locate ∧
    ∃ o ∈ (e.book h.locate).forEachOrder, o.owner = k ∧ o.userRef = ref ∧ o.id = h.id

/-- What rests in the engine rests in its markets. -/
theorem rests_abs {e : MatchingEngine} (k ref : ℕ) (h : OrderHandle) :
    Desk.Rests e.abs k ref h ↔ Resting e k ref h := by
  unfold Desk.Rests Resting
  rw [MatchingEngine.market?_abs]
  by_cases hv : e.validLocate h.locate
  · rw [if_pos hv]
    simp only [Option.some.injEq, exists_eq_left', hv, true_and, OrderBook.market_orders]
  · simp [hv]

/-- Every table is exact, and what follows: whoever has an order resting is connected, no
cancel of a client was refused, and closing a session takes all its orders out. -/
structure TablesExact (x : Exchange) : Prop where
  table : ∀ k s, x.session? k = some s → ∀ ref h,
    s.orders.find ref = some h ↔ Resting x.engine k ref h
  entries : ∀ k s, x.session? k = some s → ∀ ref h,
    (ref, h) ∈ s.orders.forEach ↔ Resting x.engine k ref h
  owners : ∀ k ref h, Resting x.engine k ref h → k ≠ 0 → ∃ s, x.session? k = some s
  answers : ∀ owner answer, (owner, answer) ∈ x.answers → owner ≠ 0 →
    answer ≠ .unknownOrder ∧ answer ≠ .unknownSymbol ∧ answer ≠ .notOwner
  closed : ∀ k, k ≠ 0 → ∀ ref h, ¬ Resting (x.closeSession k).engine k ref h

/-- Closing a session leaves none of its orders. -/
theorem closeSession_resting (hx : x.Sound) (hinv : x.desk.Inv) {k : ℕ} (hk : k ≠ 0) (ref : ℕ)
    (h : OrderHandle) : ¬ Resting (x.closeSession k).engine k ref h := by
  rw [← rests_abs]
  intro hrests
  cases hs : x.session? k with
  | none =>
    rw [closeSession, hs] at hrests
    have hopen := hinv.owners k ref h hrests hk
    simp [desk, hs] at hopen
  | some s =>
    have horders : s.orders.WF := hx.tables k s hs
    have hempty := (hinv.closed (account_eq hs) (fun p => FlatIdMap.mem_forEach_iff horders)
      (FlatIdMap.nodup_forEach horders)).2 ref h
    rw [← (closeSession_desk hx hs).2] at hempty
    exact hempty hrests

/-- **Session order tables and cancel-on-disconnect.** In every run that accepts fewer than
2³² connections and uses fewer than 2⁶⁴ order ids, with either self-match policy, between any two
actions of the event loop the table of each open session is exactly its resting orders. -/
theorem tables_exact (cfg : Config) (clock : Clock) (actions : List Action)
    (hids : accepts actions < 2 ^ 32) (horders : (after cfg clock actions).nextOrderId ≤ 2 ^ 64) :
    TablesExact (after cfg clock actions) := by
  obtain ⟨hx, hinv, -⟩ := run_induction (P := fun _ _ => True) cfg clock trivial
    (fun _ _ _ _ _ _ _ => trivial) (fun _ _ _ _ _ _ _ _ => trivial) actions hids horders
  set x := after cfg clock actions with hx'
  have htable : ∀ k s, x.session? k = some s → ∀ ref h,
      s.orders.find ref = some h ↔ Resting x.engine k ref h := by
    intro k s hs ref h
    rw [← rests_abs]
    exact hinv.table_iff (account_eq hs) ref h
  refine ⟨htable, fun k s hs ref h => ?_, fun k ref h hrests hk => ?_,
    fun owner answer hmem howner => ?_, fun k hk => closeSession_resting hx hinv hk⟩
  · rw [FlatIdMap.mem_forEach_iff (hx.tables k s hs)]
    exact htable k s hs ref h
  · have hopen := hinv.owners k ref h ((rests_abs k ref h).mpr hrests) hk
    obtain ⟨a, ha⟩ := Option.isSome_iff_exists.mp hopen
    obtain ⟨s, hs, -⟩ := Option.map_eq_some_iff.mp ha
    exact ⟨s, hs⟩
  · have hok := hinv.answers (owner, answer) hmem howner
    rcases hok with hok | hok <;> (obtain rfl : answer = _ := hok) <;>
      exact ⟨by decide, by decide, by decide⟩

/-- A login. -/
def loginFrame : Soup.Frame :=
  ⟨Soup.kLoginRequest, Soup.encodeLoginRequest ⟨[65], [65], [], 1⟩⟩

/-- An order. -/
def order (userRef : UInt32) : Ouch.EnterOrder :=
  ⟨userRef, .buy, 100, fun _ => 65, 1000000, .day, fun _ => 32⟩

def orderFrame (userRef : UInt32) : Soup.Frame :=
  ⟨Soup.kUnsequencedData, Ouch.encodeInbound (.enterOrder (order userRef)) Ouch.kMaxMessageLen⟩

def oneSymbol : Config := { symbols := [fun _ => 65] }

def steadyClock : Clock := ⟨fun n => n, fun n => n, 0⟩

/-- Two clients connect; one of them logs in, enters an order and hangs up. -/
def twoClients : List Action :=
  [.accept .orderEntry, .accept .orderEntry,
    .session 1 (some [.data (Soup.appendFrame (Soup.appendFrame [] loginFrame) (orderFrame 1))])
      none false,
    .synth 1, .session 1 (some [.closed]) none true, .reap 1]

/-- Nobody owns a stale entry when one of two clients hangs up with an order in the book. -/
theorem tables_exact_two_clients : accepts twoClients < 2 ^ 32 ∧
    (after oneSymbol steadyClock twoClients).nextOrderId ≤ 2 ^ 64 ∧
      TablesExact (after oneSymbol steadyClock twoClients) := by
  have hids : accepts twoClients < 2 ^ 32 := by decide
  have hfew : (twoClients.map Action.orderIds).sum < 2 ^ 18 := by
    simp [twoClients, Action.orderIds, Soup.FrameReader.kBufSize]
  have hle := nextOrderId_after oneSymbol steadyClock twoClients
  have horders : (after oneSymbol steadyClock twoClients).nextOrderId ≤ 2 ^ 64 := by omega
  exact ⟨hids, horders, tables_exact oneSymbol steadyClock twoClients hids horders⟩

/-! ## When the session ids wrap -/

/-- A snapshot client connects under the id and hangs up. -/
def visit (id : ℕ) : List Action := [.accept .snapshot, .session id none none true, .reap id]

/-- Snapshot clients connect and hang up, one after the other. -/
def visits : ℕ → List Action
  | 0 => []
  | n + 1 => visits n ++ visit (n + 1)

/-- The order-entry connections that an action accepts. -/
def Action.orderEntries : Action → ℕ
  | .accept .orderEntry => 1
  | _ => 0

/-- The order-entry connections of a run. -/
def orderEntries (actions : List Action) : ℕ := (actions.map Action.orderEntries).sum

/-- Visits open no order-entry session. -/
theorem orderEntries_visits (n : ℕ) : orderEntries (visits n) = 0 := by
  induction n with
  | zero => rfl
  | succ n ih =>
    unfold orderEntries at ih ⊢
    rw [visits, List.map_append, List.sum_append, ih]
    rfl

/-- The only connection. -/
theorem accept_first (hsessions : x.sessions = []) (kind : SessionKind) :
    ∃ orders : FlatIdMap OrderHandle, orders.WF ∧ (∀ ref, orders.find ref = none) ∧
      x.accept kind = { x.tick with
        nextSessionId := (x.nextSessionId + 1) % 2 ^ 32
        sessions := [{ id := x.nextSessionId, kind := kind, lastRxNs := x.nowNs
                       orders := orders }] } := by
  have hcapacity : kind.capacity ≤ 2 ^ 62 := by cases kind <;> decide
  obtain ⟨orders, hnew, hwf, -, -, hfind⟩ := FlatIdMap.new_spec (V := OrderHandle) hcapacity
  refine ⟨orders, hwf, hfind, ?_⟩
  simp [accept, hnew, session?, tick, hsessions]

/-- **A visit** leaves nothing but the next id. -/
theorem step_visit (hsessions : x.sessions = []) :
    (visit x.nextSessionId).foldl step x =
      { x.tick with nextSessionId := (x.nextSessionId + 1) % 2 ^ 32 } := by
  obtain ⟨orders, hwf, hfind, haccept⟩ := accept_first hsessions .snapshot
  have hempty : orders.forEach = [] := by
    refine List.eq_nil_iff_forall_not_mem.mpr fun p hp => ?_
    have hp' := (FlatIdMap.mem_forEach_iff hwf).mp hp
    rw [hfind] at hp'
    cases hp'
  simp [visit, step, haccept, onSessionEvent, modify, session?, closeSession, hempty, tick]
  exact hsessions

/-- The exchange starts without sessions. -/
theorem sessions_oneSymbol : (new oneSymbol steadyClock).sessions = [] := by
  apply List.eq_nil_of_length_eq_zero
  decide +kernel

/-- **Visits** leave nothing but the next id, as long as no id comes again. -/
theorem after_visits (n : ℕ) (hn : n < 2 ^ 32) : ∃ c : Clock,
    after oneSymbol steadyClock (visits n) = { new oneSymbol steadyClock with
      clock := c
      nextSessionId := (n + 1) % 2 ^ 32 } := by
  induction n with
  | zero => exact ⟨(new oneSymbol steadyClock).clock, rfl⟩
  | succ n ih =>
    obtain ⟨c, hc⟩ := ih (by omega)
    rw [Nat.mod_eq_of_lt hn] at hc
    rw [visits, after, List.foldl_append, ← after, hc]
    have hvisit := step_visit (x := { new oneSymbol steadyClock with
      clock := c
      nextSessionId := n + 1 }) sessions_oneSymbol
    exact ⟨_, hvisit⟩

/-- The market of the one symbol, before the first order. -/
theorem engine_oneSymbol : (new oneSymbol steadyClock).engine.abs =
    ⟨.cancelResting, 1000000, [⟨{}, [], []⟩], [fun _ => 65], 1⟩ := by
  decide +kernel

/-- The first order rests, and no session hears of it. -/
theorem submit_firstOrder :
    (new oneSymbol steadyClock).engine.abs.submit 1 (firstOrder 1) =
      (⟨.cancelResting, 1000000, [⟨{}, [], [⟨1, 1000100, 300, 0, 0, .sell⟩]⟩], [fun _ => 65], 1⟩,
        [.accepted 1 (firstOrder 1), .rested 1 ⟨1, 1000100, 300, 0, 0, .sell⟩]) := by
  rw [engine_oneSymbol]
  decide +kernel

/-- **Nothing was traded yet**: the markets, the draws and the order ids are those of the start. -/
structure Untraded (x : Exchange) : Prop where
  engine : x.engine.abs = (new oneSymbol steadyClock).engine.abs
  cfg : (x.engine.book 1).cfg = {}
  draws : (x.rng, x.synth, x.nextOrderId) = (42, [{ fair := 1000000 }], 1)

/-- What the engine says of the first order. -/
def firstEvents : List Event :=
  [.accepted 1 (firstOrder 1), .rested 1 ⟨1, 1000100, 300, 0, 0, .sell⟩]

/-- **The first step of the flow** leaves one ask in the books, and the sessions as they were. -/
theorem synthStep_oneSymbol (hwf : x.engine.WF) (hx : x.Untraded) :
    Aside firstEvents x (x.synthStep 1) ∧
      (x.synthStep 1).engine.abs =
        ⟨.cancelResting, 1000000, [⟨{}, [], [⟨1, 1000100, 300, 0, 0, .sell⟩]⟩], [fun _ => 65], 1⟩ ∧
      (x.synthStep 1).nextOrderId = 2 := by
  obtain ⟨hengine, hcfg, hdraws⟩ := hx
  simp only [Prod.mk.injEq] at hdraws
  obtain ⟨hrng, hsynth, hid⟩ := hdraws
  obtain ⟨z, hz⟩ : ∃ z, z = x.firstDraws.submit 1 (firstOrder 1) := ⟨_, rfl⟩
  have hstep := synthStep_first hrng hsynth hcfg (y := z) (by rw [hid]; exact hz)
  have hrests : x.firstDraws.engine.abs.submit 1 (firstOrder 1) = _ :=
    (congrArg (fun r : RefEngine => r.submit 1 (firstOrder 1)) hengine).trans submit_firstOrder
  have hunheard : ∀ ev ∈ (x.firstDraws.engine.abs.submit 1 (firstOrder 1)).2, Unheard ev := by
    rw [hrests]
    simp [Unheard, firstOrder]
  obtain ⟨haside, -, hbook⟩ := submit_unheard (x := x.firstDraws) hwf hunheard
  rw [← hz, hrests] at haside hbook
  have hid' : z.nextOrderId = 2 := by
    rw [hz, orderId_submit]
    exact congrArg (· + 1) hid
  rw [hstep]
  split
  · exact ⟨⟨haside.sessions, haside.log, haside.dropEvery⟩, hbook, hid'⟩
  · exact ⟨⟨haside.sessions, haside.log, haside.dropEvery⟩, hbook, hid'⟩

/-- The timer acts for a symbol that is listed. -/
theorem step_synth {locate : ℕ} (h : x.engine.validLocate locate) :
    x.step (.synth locate) = x.synthStep locate :=
  if_pos h

/-- **The table of a session with the id of nobody** does not have the order of the synthetic flow
that rests under this id: one order-entry connection behind 2³² - 1 snapshot connections. -/
theorem tables_behind_visits :
    orderEntries (visits (2 ^ 32 - 1) ++ [.accept .orderEntry, .synth 1]) = 1 ∧
      ¬ TablesExact (after oneSymbol steadyClock
        (visits (2 ^ 32 - 1) ++ [.accept .orderEntry, .synth 1])) := by
  constructor
  · have hnone := orderEntries_visits (2 ^ 32 - 1)
    unfold orderEntries at hnone ⊢
    rw [List.map_append, List.sum_append, hnone]
    rfl
  obtain ⟨c, hc⟩ := after_visits (2 ^ 32 - 1) (by norm_num)
  rw [show (2 ^ 32 - 1 + 1) % 2 ^ 32 = 0 by norm_num] at hc
  rw [after, List.foldl_append, ← after, hc]
  set x : Exchange := { new oneSymbol steadyClock with clock := c, nextSessionId := 0 } with hx
  obtain ⟨orders, -, hfind, haccept⟩ := accept_first (x := x) sessions_oneSymbol .orderEntry
  set y := x.accept .orderEntry with hy
  have hengine : y.engine = (new oneSymbol steadyClock).engine := by rw [haccept]; rfl
  have hvalid : y.engine.validLocate 1 := by
    rw [hengine]
    decide +kernel
  have hcfg : (y.engine.book 1).cfg = {} := by
    rw [hengine]
    decide +kernel
  have hdraws : (y.rng, y.synth, y.nextOrderId) = (42, [{ fair := 1000000 }], 1) := by
    rw [haccept]
    show ((new oneSymbol steadyClock).rng, (new oneSymbol steadyClock).synth,
      (new oneSymbol steadyClock).nextOrderId) = _
    decide +kernel
  have hwf : y.engine.WF := hengine ▸ (new_spec oneSymbol steadyClock).1.engine
  obtain ⟨haside, hbook, -⟩ :=
    synthStep_oneSymbol hwf ⟨congrArg MatchingEngine.abs hengine, hcfg, hdraws⟩
  have hresting : Resting (y.synthStep 1).engine 0 0 ⟨1, 1⟩ := by
    rw [← rests_abs, hbook]
    exact ⟨_, rfl, ⟨1, 1000100, 300, 0, 0, .sell⟩, List.mem_singleton_self _, rfl, rfl, rfl⟩
  have hsession : (y.synthStep 1).session? 0 = some
      { id := 0, kind := .orderEntry, lastRxNs := x.nowNs, orders := orders } := by
    rw [session?, haside.sessions, haccept]
    rfl
  intro hexact
  have haccepts : x.step (.accept .orderEntry) = y := rfl
  have hrun : List.foldl step x [.accept .orderEntry, .synth 1] = y.synthStep 1 := by
    rw [List.foldl_cons, List.foldl_cons, List.foldl_nil, haccepts, step_synth hvalid]
  rw [hrun] at hexact
  have hentry := (hexact.table 0 _ hsession 0 ⟨1, 1⟩).mpr hresting
  rw [hfind] at hentry
  cases hentry

end Exchange

end PulseForge
