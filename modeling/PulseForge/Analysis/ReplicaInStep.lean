import PulseForge.Analysis.SnapshotMarket
import PulseForge.Analysis.StalePackets

/-!
# A replica in step with the feed

A packet that the exchange has sent carries a slice of the messages published, under their
numbers. So whatever arrives, however often and in whatever order, a trader that is synchronised
holds the market behind the last message it counted: what is due is carried out on the replica,
the rest is a duplicate or a gap, and a snapshot starts again behind some message.
-/

set_option autoImplicit false

namespace PulseForge

open Foundation

/-! ## What is on the network -/

namespace Mold

/-- A run of numbered messages is a slice of them, numbered. -/
theorem numbered_split {first : ℕ} {msgs : List Bytes} {before calls behind : List (ℕ × Bytes)}
    (h : numbered first msgs = before ++ (calls ++ behind)) :
    ∃ pre slice post, msgs = pre ++ (slice ++ post) ∧ pre.length = before.length ∧
      calls = numbered (first + pre.length) slice := by
  have hlen : msgs.length = before.length + (calls.length + behind.length) := by
    have hboth := congrArg List.length h
    rw [MarketDataFeed.length_numbered, List.length_append, List.length_append] at hboth
    exact hboth
  have hpre : (msgs.take before.length).length = before.length :=
    List.length_take_of_le (by omega)
  have hslice : ((msgs.drop before.length).take calls.length).length = calls.length := by
    rw [List.length_take, List.length_drop]
    omega
  refine ⟨msgs.take before.length, (msgs.drop before.length).take calls.length,
    (msgs.drop before.length).drop calls.length, ?_, hpre, ?_⟩
  · rw [List.take_append_drop, List.take_append_drop]
  · have hsplit : msgs = msgs.take before.length ++ ((msgs.drop before.length).take calls.length ++
        (msgs.drop before.length).drop calls.length) := by
      rw [List.take_append_drop, List.take_append_drop]
    rw [hsplit, numbered_append, numbered_append] at h
    have hrest := (List.append_inj h
      ((MarketDataFeed.length_numbered _ _).trans hpre)).2
    exact (List.append_inj hrest ((MarketDataFeed.length_numbered _ _).trans hslice)).1.symm

end Mold

namespace MarketDataFeed

variable {md : MarketDataFeed} {packets published : List Bytes}

/-- The number that the next message gets. -/
def upcoming (md : MarketDataFeed) : ℕ := md.nextSeq + md.pkt.count

/-- The number of the next message is one more than were published. -/
theorem Numbered.upcoming (h : md.Numbered packets published) :
    md.upcoming = published.length + 1 := by
  obtain ⟨done, pending, rfl, hholds, hnext, -⟩ := h.parts
  unfold MarketDataFeed.upcoming
  rw [hnext, hholds.count, List.length_append]
  omega

/-- **A datagram on the network** carries a slice of the messages published. -/
theorem Numbered.slice (h : md.Numbered packets published) {pkt : Bytes} (hpkt : pkt ∈ md.sent) :
    ∃ pre slice post, published = pre ++ (slice ++ post) ∧
      Mold.delivered pkt = Mold.numbered (1 + pre.length) slice := by
  by_cases hempty : Mold.delivered pkt = []
  · exact ⟨[], [], published, rfl, hempty⟩
  · have hkept : pkt ∈ kept md.dropEvery packets := by
      rw [← h.sent]
      exact List.mem_filter.mpr ⟨hpkt, decide_eq_true hempty⟩
    obtain ⟨entry, hentry, hsome⟩ := List.mem_filterMap.mp hkept
    have hmem : pkt ∈ packets := by
      have hone := List.fst_mem_of_mem_zipIdx hentry
      dsimp only at hsome
      split_ifs at hsome
      rw [← Option.some.inj hsome]
      exact hone
    obtain ⟨before, after, rfl⟩ := List.append_of_mem hmem
    obtain ⟨done, pending, rfl, -, -, hdel⟩ := h.parts
    rw [List.flatMap_append, List.flatMap_cons] at hdel
    obtain ⟨pre, slice, post, rfl, -, hslice⟩ := Mold.numbered_split hdel.symm
    refine ⟨pre, slice, post ++ pending, ?_, hslice⟩
    rw [List.append_assoc, List.append_assoc]

/-- Nothing is dropped on purpose. -/
theorem kept_zero (packets : List Bytes) : kept 0 packets = packets := by
  simp [kept, List.filterMap_eq_map']

/-- **Every message is on the network** when nothing is pending and nothing was dropped. -/
theorem Numbered.reaches (h : md.Numbered packets published) (hall : md.dropEvery = 0)
    (hflushed : md.pkt.count = 0) {i : ℕ} (hi : i < published.length) :
    ∃ pkt ∈ md.sent, ∃ pre slice post, published = pre ++ (slice ++ post) ∧
      Mold.delivered pkt = Mold.numbered (1 + pre.length) slice ∧
      pre.length ≤ i ∧ i < pre.length + slice.length := by
  obtain ⟨-, -, hdel⟩ := h.idle hflushed
  have hlen : i < (packets.flatMap Mold.delivered).length := by
    rw [hdel, length_numbered]
    exact hi
  obtain ⟨before, pkt, after, rfl, hle, hlt⟩ := exists_append_of_lt_flatMap hlen
  rw [List.flatMap_append, List.flatMap_cons] at hdel
  obtain ⟨pre, slice, post, hpublished, hpre, hslice⟩ := Mold.numbered_split hdel.symm
  have hmem : pkt ∈ md.sent := by
    have hkept := h.sent
    rw [hall, kept_zero] at hkept
    have hin : pkt ∈ md.sent.filter fun d => Mold.delivered d ≠ [] := by
      rw [hkept]
      exact List.mem_append_right _ List.mem_cons_self
    exact (List.mem_filter.mp hin).1
  refine ⟨pkt, hmem, pre, slice, post, hpublished, hslice, hpre.trans_le hle, ?_⟩
  rw [hslice, length_numbered] at hlt
  rw [hpre]
  exact hlt

end MarketDataFeed

/-- A message of the feed decodes. -/
theorem decode_wireOf {m : Itch.Message} (h : m.timestamp.toNat < 2 ^ 48) :
    Itch.decode (wireOf m) = some m := by
  unfold wireOf
  rw [Itch.encode_eq (MatchingEngine.len_le_max m), Itch.decode_layout h]

namespace Trader

variable {t t' : Trader} {r₀ : RefEngine} {symbols : List Symbol} {log : List Event}

/-! ## The view of the market -/

/-- **The same view** of the market. -/
structure SameView (t t' : Trader) : Prop where
  cfg : t'.cfg = t.cfg
  locate : t'.locate = t.locate
  book : t'.book = t.book
  seq : t'.seq = t.seq
  synced : t'.synced = t.synced

namespace SameView

theorem refl (t : Trader) : SameView t t := ⟨rfl, rfl, rfl, rfl, rfl⟩

theorem trans {t'' : Trader} (h : SameView t t') (h' : SameView t' t'') : SameView t t'' :=
  ⟨h'.cfg.trans h.cfg, h'.locate.trans h.locate, h'.book.trans h.book, h'.seq.trans h.seq,
    h'.synced.trans h.synced⟩

/-- The same view is of the same symbol. -/
theorem symbol (h : SameView t t') : t'.symbol = t.symbol := by
  unfold Trader.symbol
  rw [h.cfg]

end SameView

theorem Streams.view (h : Streams t t') : SameView t t' :=
  ⟨h.cfg, h.locate, h.book, h.seq, h.synced⟩

/-- `send_order` leaves the view. -/
theorem sendOrder_view (t : Trader) (sig : Signal) (bookDone : ℕ) :
    SameView t (t.sendOrder sig bookDone) := by
  obtain ⟨t₁, txRing, txHead, hstreams, heq⟩ := t.sendOrder_eq sig bookDone
  rw [heq]
  exact ⟨hstreams.cfg, hstreams.locate, hstreams.book, hstreams.seq, hstreams.synced⟩

/-- **`maybe_trade`** only looks at the book. -/
theorem maybeTrade_view (t : Trader) (bookDone : ℕ) : SameView t (t.maybeTrade bookDone) := by
  unfold maybeTrade
  generalize t.strat.onBookUpdate t.book t.risk.position _ bookDone = answer
  obtain ⟨sig, strat⟩ := answer
  have hstrat : SameView t { t with strat := strat } := ⟨rfl, rfl, rfl, rfl, rfl⟩
  cases sig with
  | none => exact hstrat
  | some sig =>
    dsimp only
    split
    · have hsend := sendOrder_view
        { t with
          strat := strat, overflowed := t.overflowed || t.risk.overflows sig.side sig.qty }
        sig bookDone
      exact ⟨hsend.cfg, hsend.locate, hsend.book, hsend.seq, hsend.synced⟩
    · exact hstrat

/-- A move of the order-entry session leaves the view. -/
theorem oeMove_view (h : OeMove t t') : SameView t t' := by
  cases h with
  | read => exact ⟨rfl, rfl, rfl, rfl, rfl⟩
  | report m =>
    rw [onReport_rest]
    exact ⟨rfl, rfl, rfl, rfl, rfl⟩
  | stopped => exact ⟨rfl, rfl, rfl, rfl, rfl⟩
  | lost => exact ⟨rfl, rfl, rfl, rfl, rfl⟩

/-- Reading the order-entry socket leaves the view. -/
theorem readOe_view (recvs : List (ArgOrder × RecvAnswer)) (t : Trader) :
    SameView t (readOe recvs t) := by
  have hmoves := readOe_moves recvs t
  generalize readOe recvs t = t' at hmoves ⊢
  induction hmoves with
  | refl => exact .refl t
  | tail _ hmove ih => exact ih.trans (oeMove_view hmove)

/-- **The order-entry socket** has nothing to do with the view. -/
theorem onOeEvent_view (t : Trader) (stamps : List ℕ) (error out : Bool)
    (recvs : Option (List (ArgOrder × RecvAnswer))) :
    SameView t (t.onOeEvent stamps error out recvs) := by
  have hstamps := (Streams.foldl streams_onTxStamp stamps t).view
  unfold onOeEvent
  dsimp only
  generalize stamps.foldl onTxStamp t = t₁ at hstamps ⊢
  split
  · exact hstamps.trans ⟨rfl, rfl, rfl, rfl, rfl⟩
  · have hflush : SameView t₁ (if out then flushOePending t₁.oePending.length t₁ else t₁) := by
      split
      · exact (streams_flushOePending _ t₁).view
      · exact .refl t₁
    generalize (if out then flushOePending t₁.oePending.length t₁ else t₁) = t₂ at hflush ⊢
    split
    · exact (hstamps.trans hflush).trans (readOe_view _ t₂)
    · exact hstamps.trans hflush

/-! ## In step -/

/-- **The replica is the market behind `k` public events**, and the next message is due. -/
structure Follows (r₀ : RefEngine) (symbols : List Symbol) (log : List Event) (t : Trader)
    (k : ℕ) : Prop where
  heard : k ≤ (publicEvents log).length
  expected : t.seq.expected = openingCount symbols + k + 1
  place : t.locate.toNat = lastPlace t.symbol symbols
  replica : ∃ m, (r₀.behind log k).market? t.locate.toNat = some m ∧ Mirrors t.book m

/-- **A trader in step** with a history of the markets. -/
structure InStep (r₀ : RefEngine) (symbols : List Symbol) (log : List Event) (t : Trader) :
    Prop where
  fillable : t.Fillable
  follows : t.synced = true → ∃ k, Follows r₀ symbols log t k

/-- Only the view decides whether a replica follows. -/
theorem Follows.view {k : ℕ} (h : Follows r₀ symbols log t k) (hv : SameView t t') :
    Follows r₀ symbols log t' k := by
  refine ⟨h.heard, ?_, ?_, ?_⟩
  · rw [hv.seq]
    exact h.expected
  · rw [hv.locate, hv.symbol]
    exact h.place
  · rw [hv.locate, hv.book]
    exact h.replica

/-- Only the view decides whether a trader is in step. -/
theorem InStep.view (h : InStep r₀ symbols log t) (hv : SameView t t') :
    InStep r₀ symbols log t' := by
  refine ⟨⟨?_, ?_⟩, fun hsynced => ?_⟩
  · rw [hv.book]
    exact h.fillable.wf
  · rw [hv.book]
    exact h.fillable.cfg
  · rw [hv.synced] at hsynced
    obtain ⟨k, hk⟩ := h.follows hsynced
    exact ⟨k, hk.view hv⟩

/-- What was does not change. -/
theorem Follows.append {k : ℕ} (h : Follows r₀ symbols log t k) (more : List Event) :
    Follows r₀ symbols (log ++ more) t k := by
  obtain ⟨m, hmarket, hmirrors⟩ := h.replica
  refine ⟨?_, h.expected, h.place, m, ?_, hmirrors⟩
  · rw [publicEvents_append, List.length_append]
    exact h.heard.trans (Nat.le_add_right _ _)
  · rw [r₀.behind_append log more h.heard]
    exact hmarket

/-- A trader in step stays so when the market goes on. -/
theorem InStep.append (h : InStep r₀ symbols log t) (more : List Event) :
    InStep r₀ symbols (log ++ more) t := by
  refine ⟨h.fillable, fun hsynced => ?_⟩
  obtain ⟨k, hk⟩ := h.follows hsynced
  exact ⟨k, hk.append more⟩

/-! ## Packets -/

/-- A message keeps the book well-formed, as the constructor made it. -/
theorem applyItch_plain {b : OrderBook} (hwf : b.WF) (locate : UInt16) (msg : Itch.Message) :
    (applyItch b locate msg).1.WF ∧ (applyItch b locate msg).1.cfg = b.cfg := by
  have hreduce : ∀ id by', (b.reduce id by').1.WF ∧ (b.reduce id by').1.cfg = b.cfg := by
    intro id by'
    cases hfind : b.find id with
    | none =>
      rw [OrderBook.reduce_of_unknown by' hfind]
      exact ⟨hwf, rfl⟩
    | some o =>
      rcases Nat.lt_trichotomy o.qty by' with hlt | heq | hgt
      · rw [OrderBook.reduce_of_lt hfind hlt]
        exact ⟨hwf, rfl⟩
      · obtain ⟨b', hred, hwf', hcfg, -⟩ := OrderBook.reduce_of_eq hwf hfind heq.symm
        rw [hred]
        exact ⟨hwf', hcfg⟩
      · obtain ⟨b', hred, hwf', hcfg, -⟩ := OrderBook.reduce_of_gt hwf hfind hgt
        rw [hred]
        exact ⟨hwf', hcfg⟩
  cases msg with
  | addOrder l ts orderRef side shares stock price =>
    dsimp only [applyItch]
    split
    · exact ⟨hwf, rfl⟩
    · by_cases hok : b.addAnswer orderRef.toNat price.toNat shares.toNat = .ok
      · obtain ⟨b', i, hadd, hwf', hcfg, -⟩ := OrderBook.add_of_ok hwf side 0 0 hok
        rw [hadd]
        exact ⟨hwf', hcfg⟩
      · rw [OrderBook.add_of_refused hwf hok]
        exact ⟨hwf, rfl⟩
  | orderExecuted l ts orderRef executed number =>
    dsimp only [applyItch]
    split
    · exact ⟨hwf, rfl⟩
    · exact hreduce orderRef.toNat executed.toNat
  | orderCancel l ts orderRef cancelled =>
    dsimp only [applyItch]
    split
    · exact ⟨hwf, rfl⟩
    · exact hreduce orderRef.toNat cancelled.toNat
  | orderDelete l ts orderRef =>
    dsimp only [applyItch]
    split
    · exact ⟨hwf, rfl⟩
    · cases hfind : b.find orderRef.toNat with
      | none =>
        rw [OrderBook.remove_of_unknown hfind]
        exact ⟨hwf, rfl⟩
      | some o =>
        obtain ⟨b', hrem, hwf', hcfg, -⟩ := OrderBook.remove_of_found hwf hfind
        rw [hrem]
        exact ⟨hwf', hcfg⟩
  | systemEvent | stockDirectory | endOfSnapshot => exact ⟨hwf, rfl⟩

/-- What the callback keeps while it goes through the messages of a packet. -/
structure Pass.Following (r₀ : RefEngine) (symbols : List Symbol) (log : List Event) (p : Pass) :
    Prop where
  fillable : p.trader.Fillable
  follows : ∃ k, Follows r₀ symbols log p.trader k
  consistent : p.inconsistent = false

/-- **One message** of the feed. -/
theorem Pass.Following.message {x : Flow} {md : MarketDataFeed} {packets : List Bytes}
    {msgs : List Itch.Message} {p : Pass} (h : p.Following r₀ symbols log)
    (haired : Aired r₀ (openingCount symbols) x md log packets msgs)
    (hroom : md.upcoming < 2 ^ 64) {i : ℕ} {m : Itch.Message} (hm : msgs[i]? = some m) :
    (p.onMessage ((1 + i) % 2 ^ 64, wireOf m)).Following r₀ symbols log := by
  obtain ⟨k, hk⟩ := h.follows
  have hlt := (List.getElem?_eq_some_iff.mp hm).1
  have hupcoming := haired.numbered.upcoming
  have hcount := haired.count
  have hheard := hk.heard
  rw [List.length_map] at hupcoming
  rw [Nat.mod_eq_of_lt (by omega)]
  unfold Pass.onMessage
  split
  · exact h
  · unfold SequenceTracker.onMessage
    dsimp only
    rw [hk.expected]
    split_ifs with hdue hseen
    · -- the message is due: it carries the next public event
      obtain rfl : i = openingCount symbols + k := by omega
      have hcarried := haired.carried k m hm p.trader.locate
      obtain ⟨market, hmarket, hmirrors⟩ := hk.replica
      obtain ⟨market', hmarket', happly⟩ := hcarried market hmarket
      obtain ⟨b', hanswer, hmirrors'⟩ := happly p.trader.book hmirrors
      have hplain := applyItch_plain h.fillable.wf p.trader.locate m
      rw [hanswer] at hplain
      have hfollows : ∀ closed, Follows r₀ symbols log
          { p.trader with
            seq := ⟨(openingCount symbols + k + 1 + 1) % 2 ^ 64⟩, book := b'
            exchangeClosed := closed } (k + 1) := by
        intro closed
        refine ⟨by omega, ?_, hk.place, market', hmarket', hmirrors'⟩
        show (openingCount symbols + k + 1 + 1) % 2 ^ 64 = openingCount symbols + (k + 1) + 1
        omega
      have hfillable : ∀ t : Trader, t.book = b' → t.Fillable := by
        intro t hbook
        exact ⟨hbook ▸ hplain.1, hbook ▸ hplain.2.trans h.fillable.cfg⟩
      unfold Pass.apply
      rw [decode_wireOf (haired.stamped m (List.mem_of_getElem? hm))]
      dsimp only
      rw [hanswer]
      unfold expectedAnswer
      split_ifs with hours
      · exact ⟨hfillable _ rfl, ⟨k + 1, hfollows _⟩, h.consistent⟩
      · dsimp only
        split
        · split
          · exact ⟨hfillable _ rfl, ⟨k + 1, hfollows _⟩, h.consistent⟩
          · exact ⟨hfillable _ rfl, ⟨k + 1, hfollows _⟩, h.consistent⟩
        · exact ⟨hfillable _ rfl, ⟨k + 1, hfollows _⟩, h.consistent⟩
    · exact h
    · exact ⟨h.fillable, h.follows, h.consistent⟩

/-- The first message of a slice. -/
theorem slice_cons {msgs : List Itch.Message} {bytes : Bytes} {pre slice post : List Bytes}
    (h : msgs.map wireOf = pre ++ (bytes :: slice ++ post)) :
    ∃ m, msgs[pre.length]? = some m ∧ wireOf m = bytes ∧
      msgs.map wireOf = (pre ++ [bytes]) ++ (slice ++ post) := by
  have hget : (msgs.map wireOf)[pre.length]? = some bytes := by
    rw [h, List.getElem?_append_right le_rfl, Nat.sub_self]
    rfl
  rw [List.getElem?_map] at hget
  obtain ⟨m, hm, hbytes⟩ := Option.map_eq_some_iff.mp hget
  refine ⟨m, hm, hbytes, ?_⟩
  rw [h, List.append_assoc]
  rfl

/-- **The messages of a packet** that the exchange has sent. -/
theorem Pass.Following.packet {x : Flow} {md : MarketDataFeed} {packets : List Bytes}
    {msgs : List Itch.Message} {p : Pass} (h : p.Following r₀ symbols log)
    (haired : Aired r₀ (openingCount symbols) x md log packets msgs)
    (hroom : md.upcoming < 2 ^ 64) {pre slice post : List Bytes}
    (hmsgs : msgs.map wireOf = pre ++ (slice ++ post)) :
    ((Mold.numbered (1 + pre.length) slice).foldl Pass.onMessage p).Following r₀ symbols log := by
  induction slice generalizing p pre with
  | nil => exact h
  | cons bytes slice ih =>
    obtain ⟨m, hm, rfl, hmsgs'⟩ := slice_cons hmsgs
    have hrest := ih (h.message haired hroom hm) hmsgs'
    rw [List.length_append, List.length_singleton, ← Nat.add_assoc] at hrest
    rw [Mold.numbered_cons, List.foldl_cons]
    exact hrest

/-- A message that does not come early is counted, or was counted before. -/
theorem Pass.Following.counts {x : Flow} {md : MarketDataFeed} {packets : List Bytes}
    {msgs : List Itch.Message} {p : Pass} (h : p.Following r₀ symbols log)
    (haired : Aired r₀ (openingCount symbols) x md log packets msgs)
    (hroom : md.upcoming < 2 ^ 64) {i : ℕ} {m : Itch.Message} (hm : msgs[i]? = some m)
    (hgap : p.gap = false) (hsoon : i < p.trader.seq.expected) :
    (p.onMessage ((1 + i) % 2 ^ 64, wireOf m)).gap = false ∧
      (p.onMessage ((1 + i) % 2 ^ 64, wireOf m)).trader.seq.expected =
        max p.trader.seq.expected (i + 2) := by
  have hlt := (List.getElem?_eq_some_iff.mp hm).1
  have hupcoming := haired.numbered.upcoming
  rw [List.length_map] at hupcoming
  rw [Nat.mod_eq_of_lt (by omega)]
  have hgo : (p.gap || p.inconsistent) = false := by rw [hgap, h.consistent, Bool.or_false]
  by_cases hdue : 1 + i = p.trader.seq.expected
  · have hfirst : ((1 + i, wireOf m) : ℕ × Bytes).1 = p.trader.seq.expected := hdue
    obtain ⟨hfate, -, -, hnext⟩ := p.onMessage_due hgo hfirst
    have hflag := (p.flags_onMessage (1 + i, wireOf m)).1
    have hnogap : dueFate p.trader.book p.trader.locate (wireOf m) ≠ .gap := by
      unfold dueFate
      split
      · exact Fate.noConfusion
      · split <;> exact Fate.noConfusion
    refine ⟨?_, ?_⟩
    · rw [← Bool.not_eq_true, hflag, hgap, hfate]
      simpa using hnogap
    · rw [hnext]
      omega
  · have hverdict : p.trader.seq.onMessage (1 + i) = (.duplicate, p.trader.seq) := by
      rw [SequenceTracker.onMessage, if_neg hdue, if_pos (by omega)]
    have hsame : p.onMessage (1 + i, wireOf m) = p := by
      rw [Pass.onMessage, if_neg (by rw [hgo]; exact Bool.false_ne_true), hverdict]
    rw [hsame]
    refine ⟨hgap, ?_⟩
    omega

/-- **A packet that does not come early** is counted up to its end. -/
theorem Pass.Following.counts_packet {x : Flow} {md : MarketDataFeed} {packets : List Bytes}
    {msgs : List Itch.Message} {p : Pass} (h : p.Following r₀ symbols log)
    (haired : Aired r₀ (openingCount symbols) x md log packets msgs)
    (hroom : md.upcoming < 2 ^ 64) {pre slice post : List Bytes}
    (hmsgs : msgs.map wireOf = pre ++ (slice ++ post)) (hgap : p.gap = false)
    (hsoon : pre.length < p.trader.seq.expected) :
    ((Mold.numbered (1 + pre.length) slice).foldl Pass.onMessage p).gap = false ∧
      ((Mold.numbered (1 + pre.length) slice).foldl Pass.onMessage p).trader.seq.expected =
        max p.trader.seq.expected (pre.length + slice.length + 1) := by
  induction slice generalizing p pre with
  | nil =>
    refine ⟨hgap, ?_⟩
    show p.trader.seq.expected = max p.trader.seq.expected (pre.length + 0 + 1)
    omega
  | cons bytes slice ih =>
    obtain ⟨m, hm, rfl, hmsgs'⟩ := slice_cons hmsgs
    obtain ⟨hgap', hcount⟩ := h.counts haired hroom hm hgap hsoon
    have hlen : (pre ++ [wireOf m]).length = pre.length + 1 := List.length_append
    obtain ⟨hgap'', hcount'⟩ := ih (h.message haired hroom hm) hmsgs' hgap' (by omega)
    rw [hlen, ← Nat.add_assoc] at hgap'' hcount'
    rw [Mold.numbered_cons, List.foldl_cons]
    refine ⟨hgap'', hcount'.trans ?_⟩
    rw [hcount, List.length_cons]
    omega

/-! ## Snapshots -/

/-- **What a snapshot connection may give**: nothing, or the front of a snapshot of the markets
behind some message, with the number of the next. -/
def Genuine (r₀ : RefEngine) (symbols : List Symbol) (log : List Event) (reply : SnapshotReply) :
    Prop :=
  reply.connected = true → reply.loginSent = true → ∀ t : Trader,
    Pull.received reply.recvs t.pullStart = [] ∨
      ∃ e k now, Snapshot r₀ symbols log e k ∧ Pull.received reply.recvs t.pullStart <+:
        Soup.wire (Exchange.snapshotFrames e now (openingCount symbols + k + 1))

/-- **The loop is as far** with another trader. -/
structure Pull.Abreast (p p' : Pull) : Prop where
  reader : p'.reader = p.reader
  done : p'.done = p.done
  refused : p'.refused = p.refused

/-- Two pulls stay abreast over a frame. -/
theorem Pull.Abreast.onFrame {p p' : Pull} (h : p.Abreast p') (f : Soup.Frame) :
    (p.onFrame f).Abreast (p'.onFrame f) := by
  obtain ⟨hreader, hdone, hrefused⟩ := h
  unfold Pull.onFrame
  split
  · exact ⟨hreader, hdone, rfl⟩
  · split
    · exact ⟨hreader, hdone, hrefused⟩
    · cases Itch.decode f.payload with
      | none => exact ⟨hreader, hdone, hrefused⟩
      | some msg =>
        dsimp only
        unfold Pull.onMessage
        cases msg with
        | endOfSnapshot next => exact ⟨hreader, rfl, hrefused⟩
        | stockDirectory locate ts stock lot =>
          dsimp only
          split_ifs
          all_goals exact ⟨hreader, hdone, hrefused⟩
        | addOrder locate ts orderRef side shares stock price =>
          dsimp only
          split_ifs
          all_goals exact ⟨hreader, hdone, hrefused⟩
        | systemEvent | orderExecuted | orderCancel | orderDelete =>
          exact ⟨hreader, hdone, hrefused⟩

/-- Two pulls stay abreast over the frames that are complete. -/
theorem Pull.Abreast.drain {p p' : Pull} (h : p.Abreast p') (fuel : ℕ) :
    (Pull.drain fuel p).Abreast (Pull.drain fuel p') := by
  induction fuel generalizing p p' with
  | zero => exact h
  | succ fuel ih =>
    unfold Pull.drain
    rw [h.reader]
    split
    · next f reader _ =>
      have hframe := @Pull.Abreast.onFrame { p with reader := reader } { p' with reader := reader }
        ⟨rfl, h.done, h.refused⟩ f
      dsimp only
      rw [hframe.refused]
      split
      · exact hframe
      · exact ih hframe
    · exact h

/-- **What is read of a connection** does not depend on the trader. -/
theorem Pull.Abreast.received {p p' : Pull} (h : p.Abreast p')
    (recvs : List (ArgOrder × RecvAnswer)) :
    Pull.received recvs p' = Pull.received recvs p := by
  induction recvs generalizing p p' with
  | nil => rw [Pull.received_nil, Pull.received_nil]
  | cons recv recvs ih =>
    obtain ⟨order, answer⟩ := recv
    unfold Pull.received
    rw [h.reader, h.done, h.refused]
    split
    · rfl
    · cases answer with
      | data bs =>
        dsimp only
        split
        · rfl
        · next b chunk _ =>
          refine congrArg (b :: chunk ++ ·) (ih ?_)
          apply Pull.Abreast.drain
          exact ⟨rfl, rfl, rfl⟩
      | closed | again | interrupted | failed => rfl

/-- Nothing received is no snapshot. -/
theorem Pull.refused_of_nothing {recvs : List (ArgOrder × RecvAnswer)} {p : Pull}
    (hdone : p.done = false) (h : Pull.received recvs p = []) :
    (Pull.loop recvs p).refused = true := by
  by_cases hrefused : p.refused = true
  · unfold Pull.loop
    rw [hrefused, Bool.or_true, if_pos rfl]
    exact hrefused
  · have hok := eq_false_of_ne_true hrefused
    cases recvs with
    | nil =>
      unfold Pull.loop
      rw [hdone, hok, if_neg (by simp)]
    | cons recv recvs =>
      obtain ⟨order, answer⟩ := recv
      unfold Pull.loop
      rw [hdone, hok, if_neg (by simp)]
      dsimp only
      cases answer with
      | data bs =>
        dsimp only
        cases hchunk : bs.take (order.len p.reader) with
        | nil => rfl
        | cons b chunk =>
          rw [Pull.received_data recvs hdone hok hchunk] at h
          exact absurd h (List.cons_ne_nil _ _)
      | closed | again | interrupted | failed => rfl

/-- A trader that is synchronised behind a snapshot was connected. -/
theorem connected_of_synced {reply : SnapshotReply} (hstale : t.synced = false)
    (h : (t.snapshot reply).synced = true) : reply.connected = true ∧ reply.loginSent = true := by
  by_contra hconn
  have hnone : reply.connected = false ∨ reply.loginSent = false := by
    rw [← Bool.not_eq_true, ← Bool.not_eq_true]
    exact not_and_or.mp hconn
  unfold Trader.snapshot at h
  rw [if_pos hnone, hstale] at h
  exact Bool.false_ne_true h

/-- A snapshot does not change which symbol is watched. -/
theorem symbol_snapshot (t : Trader) (reply : SnapshotReply) :
    (t.snapshot reply).symbol = t.symbol := by
  have hrest := refreshes_snapshot t reply
  unfold Refreshes at hrest
  unfold Trader.symbol
  rw [hrest]

/-- **A snapshot** leaves the trader without a replica, or in step. -/
theorem InStep.snapshot (h : InStep r₀ symbols log t) (hstale : t.synced = false)
    (hfew : symbols.length < 2 ^ 16)
    (hroom : openingCount symbols + (publicEvents log).length + 1 < 2 ^ 64)
    {reply : SnapshotReply} (hgenuine : Genuine r₀ symbols log reply) :
    InStep r₀ symbols log (t.snapshot reply) := by
  refine ⟨h.fillable.snapshot reply, fun hsynced => ?_⟩
  obtain ⟨hconnected, hlogin⟩ := connected_of_synced hstale hsynced
  have hcomplete : (t.snapshot reply).snapshots = t.snapshots + 1 :=
    (snapshot_fresh t reply hstale).resolve_left (by rw [hsynced]; exact Bool.noConfusion)
  rcases hgenuine hconnected hlogin t with hnothing | ⟨e, k, now, hsnapshot, hread⟩
  · have hrefused := Pull.refused_of_nothing rfl hnothing
    rw [(completed_eq hcomplete).1] at hrefused
    exact absurd hrefused Bool.false_ne_true
  · have hcount := hsnapshot.count
    obtain ⟨hnext, hplace, m, hmarket, hmirrors⟩ :=
      mirrors_snapshot hsnapshot hfew (by omega) h.fillable hread hcomplete
    refine ⟨k, hcount, hnext, ?_, m, ?_, hmirrors⟩
    · rw [symbol_snapshot]
      exact hplace
    · rw [← RefEngine.market?_congr hsnapshot.markets]
      exact hmarket

/-- **`resync`**. -/
theorem InStep.resync (h : InStep r₀ symbols log t) (hfew : symbols.length < 2 ^ 16)
    (hroom : openingCount symbols + (publicEvents log).length + 1 < 2 ^ 64)
    {reply : SnapshotReply} (hgenuine : Genuine r₀ symbols log reply) :
    InStep r₀ symbols log (t.resync reply) := by
  have hview := (streams_cancelAll { t with synced := false, resyncs := t.resyncs + 1 }).view
  have hstale : InStep r₀ symbols log { t with synced := false, resyncs := t.resyncs + 1 } :=
    ⟨⟨h.fillable.wf, h.fillable.cfg⟩, fun hc => absurd hc Bool.false_ne_true⟩
  exact (hstale.view hview).snapshot hview.synced hfew hroom hgenuine

/-! ## The callbacks -/

/-- **`handle_packet`** on a packet that the exchange has sent. -/
theorem InStep.handlePacket {x : Flow} {md : MarketDataFeed} {packets : List Bytes}
    {msgs : List Itch.Message} (h : InStep r₀ symbols log t) (hfew : symbols.length < 2 ^ 16)
    (haired : Aired r₀ (openingCount symbols) x md log packets msgs)
    (hroom : md.upcoming < 2 ^ 64) {pkt : Bytes} (hpkt : pkt ∈ md.sent) {reply : SnapshotReply}
    (hgenuine : Genuine r₀ symbols log reply) :
    InStep r₀ symbols log (t.handlePacket pkt reply) := by
  have hroom' : openingCount symbols + (publicEvents log).length + 1 < 2 ^ 64 := by
    have hupcoming := haired.numbered.upcoming
    rw [List.length_map, haired.count] at hupcoming
    omega
  obtain ⟨pre, slice, post, hmsgs, hdelivered⟩ := haired.numbered.slice hpkt
  unfold Mold.delivered Mold.parse at hdelivered
  unfold Trader.handlePacket
  cases hheader : Mold.parseHeader pkt with
  | none => exact h
  | some header =>
    rw [hheader] at hdelivered
    dsimp only [Option.map_some] at hdelivered ⊢
    split
    · exact h
    · split
      · exact h
      · next hsynced =>
        split
        · split
          · exact h.resync hfew hroom' hgenuine
          · exact h
        · have hstart : Pass.Following r₀ symbols log { trader := t } :=
            ⟨h.fillable, h.follows (eq_true_of_ne_false hsynced), rfl⟩
          have hend := hstart.packet haired hroom hmsgs
          rw [hdelivered]
          generalize List.foldl Pass.onMessage { trader := t } _ = p at hend ⊢
          have hstep : InStep r₀ symbols log p.trader := ⟨hend.fillable, fun _ => hend.follows⟩
          have htick := hstep.view (streams_tick p.trader).view
          unfold Pass.finish
          rw [hend.consistent]
          dsimp only
          split
          · exact htick.resync hfew hroom' hgenuine
          · rw [if_neg Bool.false_ne_true]
            split
            · exact htick.view (maybeTrade_view _ _)
            · exact htick

/-- **A packet without a gap** in front keeps the trader synchronised, and takes it to its end. -/
theorem InStep.handlePacket_counts {x : Flow} {md : MarketDataFeed} {packets : List Bytes}
    {msgs : List Itch.Message} (h : InStep r₀ symbols log t) (hsynced : t.synced = true)
    (haired : Aired r₀ (openingCount symbols) x md log packets msgs)
    (hroom : md.upcoming < 2 ^ 64) {pkt : Bytes} (reply : SnapshotReply)
    {pre slice post : List Bytes} (hmsgs : msgs.map wireOf = pre ++ (slice ++ post))
    (hdelivered : Mold.delivered pkt = Mold.numbered (1 + pre.length) slice) (hne : slice ≠ [])
    (hsoon : pre.length < t.seq.expected) :
    (t.handlePacket pkt reply).synced = true ∧ (t.handlePacket pkt reply).seq.expected =
      max t.seq.expected (pre.length + slice.length + 1) := by
  have hstart : Pass.Following r₀ symbols log { trader := t } :=
    ⟨h.fillable, h.follows hsynced, rfl⟩
  have hend := hstart.packet haired hroom hmsgs
  obtain ⟨hgap, hcount⟩ := hstart.counts_packet haired hroom hmsgs rfl hsoon
  have hsome : Mold.delivered pkt ≠ [] := by
    rw [hdelivered]
    intro hnil
    have hlen := congrArg List.length hnil
    rw [MarketDataFeed.length_numbered] at hlen
    exact hne (List.eq_nil_of_length_eq_zero hlen)
  unfold Mold.delivered Mold.parse at hdelivered hsome
  unfold Trader.handlePacket
  cases hheader : Mold.parseHeader pkt with
  | none =>
    rw [hheader] at hsome
    exact absurd rfl hsome
  | some header =>
    rw [hheader] at hdelivered hsome
    dsimp only [Option.map_some] at hdelivered hsome ⊢
    have hopen : header.count ≠ Mold.kEndOfSession := by
      intro hclosed
      rw [Mold.forEachMessage, if_pos hclosed] at hsome
      exact hsome rfl
    have hcarries : header.count ≠ 0 := by
      intro hzero
      rw [Mold.forEachMessage, if_neg hopen, hzero] at hsome
      exact hsome rfl
    rw [if_neg hopen, if_neg (by rw [hsynced]; exact Bool.noConfusion), if_neg hcarries, hdelivered]
    have hreplays := Pass.foldl_replays (Mold.numbered (1 + pre.length) slice) { trader := t }
    generalize List.foldl Pass.onMessage { trader := t } _ = p at hend hgap hcount hreplays ⊢
    unfold Replays at hreplays
    have hstays : p.trader.synced = true := by
      rw [hreplays]
      exact hsynced
    have htick := (streams_tick p.trader).view
    unfold Pass.finish
    rw [hgap, hend.consistent]
    dsimp only
    rw [if_neg Bool.false_ne_true, if_neg Bool.false_ne_true]
    split
    · have hview := htick.trans (maybeTrade_view p.trader.tick p.trader.nowRealtimeNs)
      exact ⟨hview.synced.trans hstays, (congrArg SequenceTracker.expected hview.seq).trans hcount⟩
    · exact ⟨htick.synced.trans hstays, (congrArg SequenceTracker.expected htick.seq).trans hcount⟩

/-- **`on_timer`**. -/
theorem InStep.onTimer (h : InStep r₀ symbols log t) (hfew : symbols.length < 2 ^ 16)
    (hroom : openingCount symbols + (publicEvents log).length + 1 < 2 ^ 64)
    {reply : SnapshotReply} (hgenuine : Genuine r₀ symbols log reply) :
    InStep r₀ symbols log (t.onTimer reply) := by
  have hbeat : ∀ {t : Trader} (c : Prop) [Decidable c] (bs : Bytes), InStep r₀ symbols log t →
      InStep r₀ symbols log (if c then (t.oeSend bs).1 else t) := by
    intro t c _ bs h
    split
    · exact h.view (streams_oeSend t bs).view
    · exact h
  have hretry : ∀ {t : Trader} (late : Prop) [Decidable late] (now : ℕ), InStep r₀ symbols log t →
      InStep r₀ symbols log (if t.synced = false ∧ late then
        ({ t with lastResyncTry := now } : Trader).snapshot reply else t) := by
    intro t late _ now h
    split
    · next hlate =>
      have htry : InStep r₀ symbols log { t with lastResyncTry := now } :=
        h.view ⟨rfl, rfl, rfl, rfl, rfl⟩
      exact htry.snapshot hlate.1 hfew hroom hgenuine
    · exact h
  have hstop : ∀ {t : Trader} (c : Prop) [Decidable c], InStep r₀ symbols log t →
      InStep r₀ symbols log (if c then { t with stop := true } else t) := by
    intro t c _ h
    split
    · exact h.view ⟨rfl, rfl, rfl, rfl, rfl⟩
    · exact h
  unfold Trader.onTimer
  dsimp only
  refine hstop _ (hstop _ (hretry _ _ (hbeat _ _ ?_)))
  exact h.view (streams_tick t).view

end Trader

end PulseForge
