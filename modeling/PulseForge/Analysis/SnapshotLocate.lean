import PulseForge.Analysis.FeedNumbering
import PulseForge.Analysis.ListedSymbols
import PulseForge.Analysis.SnapshotStream
import PulseForge.Model.ExchangeArgs

/-!
# The book that the trader watches

A snapshot names the symbols in the order of the command line, and the trader keeps the last locate
under its symbol; the exchange enters its orders under the first one. The two are the same book
exactly if the padded symbol was listed once.
-/

set_option autoImplicit false

namespace PulseForge

open Foundation Soup

/-- The trader pads its symbol as the exchange does. -/
theorem Trader.symbol_eq (t : Trader) : t.symbol = makeSymbol t.cfg.symbol := by
  funext i
  have hi := i.isLt
  unfold symbol Alpha.ofBytes putAlpha makeSymbol
  rw [List.getD_eq_getElem?_getD, List.getD_eq_getElem?_getD]
  by_cases hlen : i.val < t.cfg.symbol.length
  · rw [List.getElem?_append_left (by rw [List.length_take]; omega), List.getElem?_take_of_lt hi,
      List.getElem?_eq_getElem hlen]
    rfl
  · rw [List.getElem?_append_right (by rw [List.length_take]; omega),
      List.getElem?_eq_none (not_lt.mp hlen), List.length_take,
      List.getElem?_replicate_of_lt (by omega)]
    rfl

/-! ## The messages of a snapshot -/

namespace Exchange

/-- The directory of a list of symbols. -/
def directory (ts : UInt64) (symbols : List Symbol) : List Itch.Message :=
  symbols.zipIdx.map fun p => .stockDirectory (UInt16.ofNat (p.2 + 1)) ts p.1 100

theorem directory_concat (ts : UInt64) (symbols : List Symbol) (s : Symbol) :
    directory ts (symbols ++ [s]) =
      directory ts symbols ++ [.stockDirectory (UInt16.ofNat (symbols.length + 1)) ts s 100] := by
  unfold directory
  rw [List.zipIdx_append, List.map_append, List.zipIdx_singleton, Nat.zero_add]
  rfl

/-- The resting orders of all books, as a snapshot lists them. -/
def snapshotAdds (e : MatchingEngine) (ts : UInt64) : List Itch.Message :=
  ((List.range e.books.length).map (· + 1)).flatMap fun loc =>
    (e.book loc).forEachOrder.map (addMessage loc ts (e.symbol loc))

/-- A snapshot is the directory, the orders and the end. -/
theorem snapshotMessages_eq {e : MatchingEngine} (h : e.books.length = e.symbols.length)
    (ts : UInt64) (next : ℕ) : snapshotMessages e ts next =
      directory ts e.symbols ++ snapshotAdds e ts ++ [.endOfSnapshot (UInt64.ofNat next)] := by
  have hdirectory : ((List.range e.books.length).map (· + 1)).map (fun loc =>
      Itch.Message.stockDirectory (UInt16.ofNat loc) ts (e.symbol loc) 100) =
      directory ts e.symbols := by
    unfold directory MatchingEngine.symbol
    rw [h]
    apply List.ext_getElem
    · simp
    · intro i hi _
      rw [List.length_map, List.length_map, List.length_range] at hi
      simp [hi]
  unfold snapshotMessages snapshotAdds
  dsimp only
  rw [hdirectory]

/-- The clock of the day fits every message. -/
theorem timestamp_of_mem {e : MatchingEngine} {now next : ℕ} {m : Itch.Message}
    (hm : m ∈ snapshotMessages e (PulseForge.midNow now) next) : m.timestamp.toNat < 2 ^ 48 := by
  unfold snapshotMessages at hm
  dsimp only at hm
  rw [List.mem_append, List.mem_append] at hm
  rcases hm with (hm | hm) | hm
  · obtain ⟨loc, -, rfl⟩ := List.mem_map.mp hm
    exact MatchingEngine.midNow_lt now
  · obtain ⟨loc, -, hm⟩ := List.mem_flatMap.mp hm
    obtain ⟨o, -, rfl⟩ := List.mem_map.mp hm
    exact MatchingEngine.midNow_lt now
  · rw [List.mem_singleton.mp hm]
    exact Nat.two_pow_pos 48

/-- The frame of a message is legal, and short. -/
theorem legal_encode (m : Itch.Message) {f : Soup.Frame}
    (hf : f = ⟨kSequencedData, Itch.encode m Itch.kMaxMessageLen⟩) :
    f.Legal ∧ f.type ≠ kLoginRejected ∧ f.bytes.length ≤ 42 := by
  subst hf
  obtain ⟨-, hlen⟩ := MarketDataFeed.encode_length m
  have hlogin : kSequencedData ≠ kLoginRejected := by decide
  refine ⟨hlen.trans (by decide), hlogin, ?_⟩
  rw [Frame.length_bytes]
  exact Nat.add_le_add_right hlen kFrameHeaderLen

/-- The frames of a snapshot are legal, and short. -/
theorem legal_snapshotFrames (e : MatchingEngine) (now next : ℕ) :
    ∀ f ∈ snapshotFrames e now next, f.Legal ∧ f.type ≠ kLoginRejected ∧
      f.bytes.length ≤ 42 := by
  intro f hf
  unfold snapshotFrames at hf
  rcases List.mem_append.mp hf with hf | hf
  · obtain ⟨m, -, hm⟩ := List.mem_map.mp hf
    exact legal_encode m hm.symm
  · rw [List.mem_singleton.mp hf]
    exact ⟨Nat.zero_le _, by decide, by decide⟩

/-- The bytes of legal frames. -/
theorem wire_eq {fs : List Soup.Frame} (h : ∀ f ∈ fs, f.Legal) :
    wire fs = fs.flatMap Frame.bytes := by
  unfold wire
  rw [List.flatMap_def]
  congr 1
  apply List.map_congr_left
  intro f hf
  exact (appendFrame_eq (h f hf) []).trans (List.nil_append _)

/-- **The stream** says what was queued. -/
theorem parseFrames_snapshot (e : MatchingEngine) (now next : ℕ) :
    parseFrames (wire (snapshotFrames e now next)) = ⟨snapshotFrames e now next, [], false⟩ := by
  have hlegal := fun f hf => (legal_snapshotFrames e now next f hf).1
  rw [wire_eq hlegal]
  exact parseFrames_bytes _ hlegal

end Exchange

/-! ## What the trader makes of them -/

namespace Trader

namespace Pull

/-- The frame of a message is handled as the message. -/
theorem onFrame_encode (p : Pull) {m : Itch.Message} (h : m.timestamp.toNat < 2 ^ 48) :
    p.onFrame ⟨kSequencedData, Itch.encode m Itch.kMaxMessageLen⟩ = p.onMessage m := by
  have hfits : m.len ≤ Itch.kMaxMessageLen := by
    cases m with
    | _ => simp [Itch.Message.len, Itch.kMaxMessageLen]
  have hlogin : kSequencedData ≠ kLoginRejected := by decide
  unfold onFrame
  rw [if_neg hlogin, if_neg (not_not.mpr rfl)]
  dsimp only
  rw [Itch.encode_eq hfits, Itch.decode_layout h]

/-- The directory so far decides the locate. -/
structure Located (start : Pull) (symbols : List Symbol) (p : Pull) : Prop where
  locate : p.trader.locate = UInt16.ofNat (lastPlace start.trader.symbol symbols)
  cfg : p.trader.cfg = start.trader.cfg
  done : p.done = start.done

/-- One entry of the directory. -/
theorem Located.entry {start p : Pull} {symbols : List Symbol} (h : Located start symbols p)
    (ts : UInt64) (s : Symbol) : Located start (symbols ++ [s])
      (p.onMessage (.stockDirectory (UInt16.ofNat (symbols.length + 1)) ts s 100)) := by
  have hsymbol : p.trader.symbol = start.trader.symbol := by
    unfold symbol
    rw [h.cfg]
  unfold onMessage
  dsimp only
  rw [hsymbol]
  by_cases hs : s = start.trader.symbol
  · rw [if_pos hs]
    refine ⟨?_, h.cfg, h.done⟩
    rw [lastPlace_concat, if_pos hs]
  · rw [if_neg hs]
    refine ⟨?_, h.cfg, h.done⟩
    rw [lastPlace_concat, if_neg hs, h.locate]

/-- **The directory**: the last entry under the symbol is kept. -/
theorem located_directory {start : Pull} (hlocate : start.trader.locate = 0) (ts : UInt64)
    (symbols : List Symbol) :
    Located start symbols ((Exchange.directory ts symbols).foldl onMessage start) := by
  induction symbols using List.reverseRecOn with
  | nil => exact ⟨hlocate, rfl, rfl⟩
  | append_singleton symbols s ih =>
    rw [Exchange.directory_concat, List.foldl_append, List.foldl_cons, List.foldl_nil]
    exact ih.entry ts s

/-- Orders do not move the locate. -/
theorem Located.adds {start p : Pull} {symbols : List Symbol} (h : Located start symbols p)
    (e : MatchingEngine) (ts : UInt64) :
    Located start symbols ((Exchange.snapshotAdds e ts).foldl onMessage p) := by
  have hadds : ∀ (ms : List Itch.Message) {p : Pull}, Located start symbols p →
      (∀ m ∈ ms, ∃ loc stock o, m = addMessage loc ts stock o) →
      Located start symbols (ms.foldl onMessage p) := by
    intro ms
    induction ms with
    | nil => exact fun h _ => h
    | cons m ms ih =>
      intro p h hms
      obtain ⟨loc, stock, o, rfl⟩ := hms m List.mem_cons_self
      refine ih ?_ fun m hm => hms m (List.mem_cons_of_mem _ hm)
      unfold addMessage onMessage
      dsimp only
      split_ifs
      · exact ⟨h.locate, h.cfg, h.done⟩
      · exact h
  refine hadds _ h ?_
  intro m hm
  unfold Exchange.snapshotAdds at hm
  obtain ⟨loc, -, hm⟩ := List.mem_flatMap.mp hm
  obtain ⟨o, -, rfl⟩ := List.mem_map.mp hm
  exact ⟨loc, _, o, rfl⟩

/-- The frames of messages are handled as the messages. -/
theorem foldl_onFrame_encode (p : Pull) {ms : List Itch.Message}
    (h : ∀ m ∈ ms, m.timestamp.toNat < 2 ^ 48) :
    (ms.map fun m => ⟨kSequencedData, Itch.encode m Itch.kMaxMessageLen⟩).foldl onFrame p =
      ms.foldl onMessage p := by
  induction ms generalizing p with
  | nil => rfl
  | cons m ms ih =>
    rw [List.map_cons, List.foldl_cons, List.foldl_cons, onFrame_encode p (h m List.mem_cons_self)]
    exact ih _ fun m hm => h m (List.mem_cons_of_mem _ hm)

/-- Messages that are no end of a snapshot do not end the loop. -/
theorem done_foldl_onMessage (p : Pull) {ms : List Itch.Message}
    (h : ∀ m ∈ ms, ∀ next, m ≠ .endOfSnapshot next) : (ms.foldl onMessage p).done = p.done := by
  induction ms generalizing p with
  | nil => rfl
  | cons m ms ih =>
    rw [List.foldl_cons, ih _ fun m hm => h m (List.mem_cons_of_mem _ hm)]
    have hend := h m List.mem_cons_self
    unfold onMessage
    cases m with
    | endOfSnapshot next => exact absurd rfl (hend next)
    | stockDirectory | addOrder =>
      dsimp only
      split_ifs
      · rfl
      · rfl
    | systemEvent | orderExecuted | orderCancel | orderDelete => rfl

/-- What is behind the orders moves no locate. -/
theorem locate_tail (p : Pull) (next : UInt64) {fs : List Soup.Frame}
    (h : fs <+: [⟨kSequencedData, Itch.encode (.endOfSnapshot next) Itch.kMaxMessageLen⟩,
      ⟨kEndOfSession, []⟩]) : (fs.foldl onFrame p).trader.locate = p.trader.locate := by
  have hend : ∀ p : Pull, (p.onFrame ⟨kEndOfSession, []⟩) = p := fun p => rfl
  have hlast : ∀ p : Pull, (p.onFrame ⟨kSequencedData,
      Itch.encode (.endOfSnapshot next) Itch.kMaxMessageLen⟩).trader.locate = p.trader.locate := by
    intro p
    rw [onFrame_encode p (show (Itch.Message.endOfSnapshot next).timestamp.toNat < 2 ^ 48 from
      Nat.two_pow_pos 48)]
    rfl
  rcases List.prefix_cons_iff.mp h with rfl | ⟨fs', rfl, h'⟩
  · rfl
  · rcases List.prefix_cons_iff.mp h' with rfl | ⟨fs'', rfl, h''⟩
    · rw [List.foldl_cons, List.foldl_nil]
      exact hlast p
    · rw [List.prefix_nil.mp h'', List.foldl_cons, List.foldl_cons, List.foldl_nil, hend]
      exact hlast p

/-- **A part of a snapshot that ends the loop** has the whole directory. -/
theorem locate_of_prefix {e : MatchingEngine} (hlist : e.books.length = e.symbols.length)
    {now next : ℕ} {start : Pull} (hlocate : start.trader.locate = 0) (hstart : start.done = false)
    {fs : List Soup.Frame} (hpart : fs <+: Exchange.snapshotFrames e now next)
    (hdone : (fs.foldl onFrame start).done = true) :
    (fs.foldl onFrame start).trader.locate =
      UInt16.ofNat (lastPlace start.trader.symbol e.symbols) := by
  have hframes : Exchange.snapshotFrames e now next =
      (Exchange.directory (midNow now) e.symbols ++ Exchange.snapshotAdds e (midNow now)).map
        (fun m => ⟨kSequencedData, Itch.encode m Itch.kMaxMessageLen⟩) ++
      [⟨kSequencedData, Itch.encode (.endOfSnapshot (UInt64.ofNat next)) Itch.kMaxMessageLen⟩,
        ⟨kEndOfSession, []⟩] := by
    unfold Exchange.snapshotFrames
    rw [Exchange.snapshotMessages_eq hlist, List.map_append, List.append_assoc]
    rfl
  have hts : ∀ m ∈ Exchange.directory (midNow now) e.symbols ++
      Exchange.snapshotAdds e (midNow now), m.timestamp.toNat < 2 ^ 48 := by
    intro m hm
    apply @Exchange.timestamp_of_mem e now next m
    rw [Exchange.snapshotMessages_eq hlist]
    exact List.mem_append_left _ hm
  have hnone : ∀ m ∈ Exchange.directory (midNow now) e.symbols ++
      Exchange.snapshotAdds e (midNow now), ∀ next, m ≠ .endOfSnapshot next := by
    intro m hm next
    unfold Exchange.directory Exchange.snapshotAdds at hm
    rcases List.mem_append.mp hm with hm | hm
    · obtain ⟨p, -, rfl⟩ := List.mem_map.mp hm
      exact Itch.Message.noConfusion
    · obtain ⟨loc, -, hm⟩ := List.mem_flatMap.mp hm
      obtain ⟨o, -, rfl⟩ := List.mem_map.mp hm
      exact Itch.Message.noConfusion
  have hlocated := (located_directory hlocate (midNow now) e.symbols).adds e (midNow now)
  rw [hframes] at hpart
  rcases List.prefix_or_prefix_of_prefix hpart (List.prefix_append _ _) with hshort | hlong
  · -- the loop would not have ended
    obtain ⟨rest, hrest⟩ := hshort
    obtain ⟨ms, ms', hms, rfl, -⟩ := List.map_eq_append_iff.mp hrest.symm
    rw [hms] at hts hnone
    rw [foldl_onFrame_encode _ fun m hm => hts m (List.mem_append_left _ hm),
      done_foldl_onMessage _ fun m hm => hnone m (List.mem_append_left _ hm), hstart] at hdone
    exact absurd hdone Bool.false_ne_true
  · obtain ⟨tail, rfl⟩ := hlong
    rw [List.foldl_append, locate_tail _ _ ((List.prefix_append_right_inj _).mp hpart),
      foldl_onFrame_encode _ hts, List.foldl_append]
    exact hlocated.locate

end Pull

/-! ## The book that is watched -/

/-- The loop of `snapshot()` before the first `recv`. -/
def pullStart (t : Trader) : Pull := { trader := { t with book := t.book.clear, locate := 0 } }

/-- A snapshot that is completed has left the loop without a failure. -/
theorem loop_of_completed {t : Trader} {reply : SnapshotReply}
    (h : (t.snapshot reply).snapshots = t.snapshots + 1) :
    (Pull.loop reply.recvs t.pullStart).refused = false ∧
      (t.snapshot reply).locate = (Pull.loop reply.recvs t.pullStart).trader.locate := by
  have hpulls := Pull.pulls_loop reply.recvs t.pullStart
  unfold Pulls at hpulls
  unfold pullStart at hpulls ⊢
  unfold snapshot at h ⊢
  by_cases hconn : reply.connected = false ∨ reply.loginSent = false
  · rw [if_pos hconn] at h
    omega
  · rw [if_neg hconn] at h ⊢
    dsimp only at h ⊢
    generalize Pull.loop reply.recvs _ = p at h hpulls ⊢
    by_cases hfail : p.refused = true ∨ p.trader.locate = 0
    · rw [if_pos hfail, hpulls] at h
      dsimp only at h
      omega
    · rw [if_neg hfail]
      exact ⟨eq_false_of_ne_true fun hrefused => hfail (.inl hrefused), rfl⟩

/-- **A completed snapshot** leaves the last locate listed under the symbol. -/
theorem snapshot_locate {e : MatchingEngine} (hlist : e.books.length = e.symbols.length)
    (now next : ℕ) (t : Trader) (reply : SnapshotReply)
    (hread : Pull.received reply.recvs t.pullStart <+:
      Soup.wire (Exchange.snapshotFrames e now next))
    (hcomplete : (t.snapshot reply).snapshots = t.snapshots + 1) :
    (t.snapshot reply).locate = UInt16.ofNat (lastPlace t.symbol e.symbols) := by
  obtain ⟨hok, hlocate⟩ := loop_of_completed hcomplete
  have hstart : Pull.After t.pullStart [] t.pullStart := ⟨rfl, rfl, rfl⟩
  have hstream := Exchange.parseFrames_snapshot e now next
  obtain ⟨hdone, front, hfront, hafter⟩ := hstart.loop hstream
    (fun f hf => (Exchange.legal_snapshotFrames e now next f hf).2.1) reply.recvs hread hok
  have hbare : (Pull.loop reply.recvs t.pullStart).bare.done = true := hdone
  rw [hafter.bare] at hbare
  have hlast := @Pull.locate_of_prefix e hlist now next t.pullStart.bare rfl rfl _
    (Pull.items_prefix hstream hfront).2 hbare
  rw [← hafter.bare] at hlast
  exact hlocate.trans hlast

/-- The loop that ends well under a listed symbol completes the snapshot. -/
theorem completed_of_loop {t : Trader} {recvs : List (ArgOrder × RecvAnswer)}
    (hok : (Pull.loop recvs t.pullStart).refused = false)
    (hlocate : (Pull.loop recvs t.pullStart).trader.locate ≠ 0) :
    (t.snapshot { recvs := recvs }).snapshots = t.snapshots + 1 := by
  have hpulls := Pull.pulls_loop recvs t.pullStart
  unfold Pulls at hpulls
  unfold pullStart at hok hlocate hpulls
  unfold snapshot
  rw [if_neg (by simp)]
  dsimp only
  generalize Pull.loop recvs _ = p at hok hlocate hpulls ⊢
  rw [if_neg, hpulls]
  rintro (hrefused | hnone)
  · rw [hok] at hrefused
    exact Bool.false_ne_true hrefused
  · exact hlocate hnone

/-- The end of the snapshot is in it. -/
theorem Pull.done_frames (e : MatchingEngine) (now next : ℕ) (start : Pull) :
    ((Exchange.snapshotFrames e now next).foldl onFrame start).done = true := by
  unfold Exchange.snapshotFrames
  rw [List.foldl_append, foldl_onFrame_encode _ fun m hm => Exchange.timestamp_of_mem hm]
  unfold Exchange.snapshotMessages
  dsimp only
  rw [List.foldl_append]
  rfl

/-- **A snapshot in one piece** is completed. -/
theorem snapshot_whole {e : MatchingEngine} (hlist : e.books.length = e.symbols.length)
    {now next : ℕ} (hroom : (Soup.wire (Exchange.snapshotFrames e now next)).length ≤
      FrameReader.kBufSize) {t : Trader} (hmem : t.symbol ∈ e.symbols)
    (hfew : e.symbols.length < 2 ^ 16) :
    ∃ recvs, Pull.received recvs t.pullStart <+: Soup.wire (Exchange.snapshotFrames e now next) ∧
      (t.snapshot { recvs := recvs }).snapshots = t.snapshots + 1 := by
  have hstream := Exchange.parseFrames_snapshot e now next
  have hlogin := fun f hf => (Exchange.legal_snapshotFrames e now next f hf).2.1
  set stream := Soup.wire (Exchange.snapshotFrames e now next) with hs
  have hne : stream ≠ [] := by
    intro hnil
    rw [hnil] at hstream
    have hitems : [] = Exchange.snapshotFrames e now next := congrArg Parsed.items hstream
    unfold Exchange.snapshotFrames at hitems
    exact List.cons_ne_nil _ _ (List.append_eq_nil_iff.mp hitems.symm).2
  obtain ⟨hbare, hok, hread⟩ := @Pull.loop_chunk t.pullStart _ _ rfl rfl rfl hstream hlogin
    hroom hne (Pull.done_frames e now next _)
  have hlocate : (Pull.loop [(.ptrFirst, .data stream)] t.pullStart).trader.locate =
      UInt16.ofNat (lastPlace t.symbol e.symbols) := by
    rw [← Pull.locate_bare, hbare]
    exact Pull.locate_of_prefix hlist rfl rfl (List.prefix_refl _) (Pull.done_frames e now next _)
  refine ⟨[(.ptrFirst, .data stream)], ?_, completed_of_loop hok ?_⟩
  · rw [hread]
  · rw [hlocate]
    have hpos := lastPlace_pos hmem
    have hle := lastPlace_le t.symbol e.symbols
    intro hzero
    have hval := congrArg UInt16.toNat hzero
    rw [UInt16.toNat_ofNat', Nat.mod_eq_of_lt (by omega)] at hval
    change _ = 0 at hval
    omega

end Trader

/-! ## The start of day -/

namespace Exchange

theorem length_wire_le {fs : List Soup.Frame} (h : ∀ f ∈ fs, f.Legal ∧ f.bytes.length ≤ 42) :
    (Soup.wire fs).length ≤ 42 * fs.length := by
  rw [wire_eq fun f hf => (h f hf).1, List.length_flatMap, mul_comm]
  have hsum := List.sum_le_card_nsmul (fs.map fun f => f.bytes.length) 42 (by
    intro n hn
    obtain ⟨f, hf, rfl⟩ := List.mem_map.mp hn
    exact (h f hf).2)
  rw [List.length_map] at hsum
  exact hsum

/-- Before the first order nothing rests. -/
theorem snapshotAdds_new (cfg : Config) (clock : Clock) (ts : UInt64) :
    snapshotAdds (new cfg clock).engine ts = [] := by
  obtain ⟨x₀, hquiet, -, -, -, -, hengine⟩ := new_quiet cfg clock
  obtain ⟨-, hempty⟩ := list_fresh cfg.symbols { stp := cfg.stp }
    (MatchingEngine.wf_start cfg.stp 1000000) (by simp [MatchingEngine.abs])
  rw [hquiet.engine, hengine]
  unfold snapshotAdds
  rw [List.flatMap_eq_nil_iff]
  intro loc hloc
  obtain ⟨i, hi, rfl⟩ := List.mem_map.mp hloc
  rw [List.mem_range] at hi
  rw [List.map_eq_nil_iff]
  have hbook : (cfg.symbols.foldl listSymbol { stp := cfg.stp }).book (i + 1) ∈
      (cfg.symbols.foldl listSymbol { stp := cfg.stp }).books := by
    unfold MatchingEngine.book
    rw [Nat.add_sub_cancel, List.getD_eq_getElem?_getD, List.getElem?_eq_getElem hi]
    exact List.getElem_mem hi
  have hnone := hempty _ (List.mem_map_of_mem hbook)
  exact hnone

/-- The first snapshot fits the buffer of the trader. -/
theorem length_snapshot_new (cfg : Config) (clock : Clock) (now next : ℕ)
    (hfew : cfg.symbols.length ≤ 64) :
    (Soup.wire (snapshotFrames (new cfg clock).engine now next)).length ≤ FrameReader.kBufSize := by
  obtain ⟨hsymbols, hcount⟩ := listing_after cfg clock []
  have hafter : after cfg clock [] = new cfg clock := List.foldl_nil
  rw [hafter] at hsymbols hcount
  have hframes : (snapshotFrames (new cfg clock).engine now next).length =
      cfg.symbols.length + 2 := by
    unfold snapshotFrames
    rw [snapshotMessages_eq (hcount.trans (congrArg List.length hsymbols).symm), snapshotAdds_new]
    unfold directory
    simp [hsymbols]
  have hle := @length_wire_le (snapshotFrames (new cfg clock).engine now next) fun f hf =>
    ⟨(legal_snapshotFrames _ now next f hf).1, (legal_snapshotFrames _ now next f hf).2.2⟩
  rw [hframes] at hle
  have hbuf : FrameReader.kBufSize = 65536 := by decide
  omega

end Exchange

/-! ## The same book -/

namespace ExchangeConfig

variable {inetPton : Bytes → Option UInt32} {argv : List Bytes} {cfg : ExchangeConfig}

theorem length_symbols_le (h : parseArgs inetPton argv = .ok cfg) : cfg.symbols.length ≤ 64 := by
  unfold parseArgs at h
  split at h
  · cases h
  · split at h
    · cases h
    · next hcount =>
      split at h
      · cases h
      · split at h
        · cases h
        · cases h
          omega

/-- What both sides find under a symbol of an accepted list. -/
theorem places (h : parseArgs inetPton argv = .ok cfg) (clock : Clock)
    (actions actions' : List Exchange.Action) {now next : ℕ} {t : Trader} {reply : SnapshotReply}
    (hread : Trader.Pull.received reply.recvs t.pullStart <+:
      Soup.wire (Exchange.snapshotFrames (Exchange.after cfg.process clock actions).engine now
        next))
    (hcomplete : (t.snapshot reply).snapshots = t.snapshots + 1) :
    (t.snapshot reply).locate.toNat = lastPlace t.symbol (cfg.symbols.map makeSymbol) ∧
      (Exchange.after cfg.process clock actions').engine.findSymbol t.symbol =
        firstPlace t.symbol (cfg.symbols.map makeSymbol) := by
  have hfew := length_symbols_le h
  have hlen : (cfg.symbols.map makeSymbol).length ≤ 64 := by rwa [List.length_map]
  obtain ⟨hsymbols, hcount⟩ := Exchange.listing_after cfg.process clock actions
  obtain ⟨hsymbols', -⟩ := Exchange.listing_after cfg.process clock actions'
  change _ = cfg.symbols.map makeSymbol at hsymbols hsymbols'
  constructor
  · have hle := lastPlace_le t.symbol (cfg.symbols.map makeSymbol)
    have hlocate := Trader.snapshot_locate (hcount.trans (congrArg List.length hsymbols).symm)
      now next t reply hread hcomplete
    rw [hlocate, hsymbols, UInt16.toNat_ofNat', Nat.mod_eq_of_lt (by omega)]
  · rw [MatchingEngine.findSymbol_eq (by rw [hsymbols']; omega), hsymbols']

/-- **The trader watches the book its orders go to** exactly if its symbol, padded to eight
bytes, stands once on the list that the exchange was started with: whatever happened before the
snapshot and before the order, and however the snapshot was cut into reads. -/
theorem watches_iff (h : parseArgs inetPton argv = .ok cfg) {s : Bytes} (hs : s ∈ cfg.symbols)
    (clock : Clock) (actions actions' : List Exchange.Action) (now next : ℕ) (t : Trader)
    (ht : t.cfg.symbol = s) (reply : SnapshotReply)
    (hread : Trader.Pull.received reply.recvs t.pullStart <+:
      Soup.wire (Exchange.snapshotFrames (Exchange.after cfg.process clock actions).engine now
        next))
    (hcomplete : (t.snapshot reply).snapshots = t.snapshots + 1) :
    (t.snapshot reply).locate.toNat =
        (Exchange.after cfg.process clock actions').engine.findSymbol t.symbol ↔
      (cfg.symbols.map makeSymbol).count (makeSymbol s) = 1 := by
  obtain ⟨hlast, hfirst⟩ := places h clock actions actions' hread hcomplete
  have hsymbol : t.symbol = makeSymbol s := by rw [t.symbol_eq, ht]
  rw [hlast, hfirst, hsymbol]
  exact lastPlace_eq_firstPlace_iff (List.mem_map_of_mem hs)

/-! ## One list and another -/

/-- A snapshot at the start of day, in one piece. -/
theorem exists_snapshot (h : parseArgs inetPton argv = .ok cfg) (clock : Clock) {t : Trader}
    (hs : t.cfg.symbol ∈ cfg.symbols) :
    ∃ recvs, Trader.Pull.received recvs t.pullStart <+:
        Soup.wire (Exchange.snapshotFrames (Exchange.after cfg.process clock []).engine 0 1) ∧
      (t.snapshot { recvs := recvs }).snapshots = t.snapshots + 1 := by
  have hfew := length_symbols_le h
  have hlen : (cfg.symbols.map makeSymbol).length ≤ 64 := by rwa [List.length_map]
  obtain ⟨hsymbols, hcount⟩ := Exchange.listing_after cfg.process clock []
  change _ = cfg.symbols.map makeSymbol at hsymbols
  have hroom := Exchange.length_snapshot_new cfg.process clock 0 1 hlen
  apply Trader.snapshot_whole (hcount.trans (congrArg List.length hsymbols).symm) hroom
  · rw [hsymbols, t.symbol_eq]
    exact List.mem_map_of_mem hs
  · rw [hsymbols]
    omega

/-- `inet_pton` on the default group. -/
def defaultGroup (ip : Bytes) : Option UInt32 :=
  if ip = ascii "239.255.0.2" then some 0xEFFF0002 else none

/-- A clock, for runs at the start of day. -/
def anyClock : Clock := ⟨fun n => n, fun n => n, 0⟩

/-- A trader of the symbol. -/
theorem exists_trader (symbol : Bytes) : ∃ t : Trader, t.cfg.symbol = symbol := by
  obtain ⟨t, ht⟩ := Trader.new_isSome { symbol := symbol, user := [] } anyClock fun _ => .again
  obtain ⟨book, orders, -, -, heq⟩ := Trader.new_eq_some ht
  refine ⟨t, ?_⟩
  rw [heq]

/-- The second symbol of the default list. -/
theorem watches_iff_default : ∃ (cfg : ExchangeConfig) (t : Trader) (reply : SnapshotReply),
    parseArgs defaultGroup [] = .ok cfg ∧ t.cfg.symbol = ascii "ACME" ∧
      (t.snapshot reply).snapshots = t.snapshots + 1 ∧
      (t.snapshot reply).locate.toNat =
        (Exchange.after cfg.process anyClock []).engine.findSymbol t.symbol := by
  have hcfg : parseArgs defaultGroup [] = .ok {} := by rfl
  obtain ⟨t, ht⟩ := exists_trader (ascii "ACME")
  have hs : ascii "ACME" ∈ ({} : ExchangeConfig).symbols := by decide
  have hs' : t.cfg.symbol ∈ ({} : ExchangeConfig).symbols := by
    rw [ht]
    exact hs
  obtain ⟨recvs, hread, hcomplete⟩ := exists_snapshot hcfg anyClock hs'
  refine ⟨{}, t, { recvs := recvs }, hcfg, ht, hcomplete, ?_⟩
  exact (watches_iff hcfg hs anyClock [] [] 0 1 t ht _ hread hcomplete).mpr (by decide)

/-- **A symbol listed twice**: the trader watches the second book and trades on the first. -/
theorem watches_other_book : ∃ (cfg : ExchangeConfig) (t : Trader) (reply : SnapshotReply),
    parseArgs defaultGroup [ascii "--symbols", ascii "ACME,ACME"] = .ok cfg ∧
      t.cfg.symbol ∈ cfg.symbols ∧
      Trader.Pull.received reply.recvs t.pullStart <+:
        Soup.wire (Exchange.snapshotFrames (Exchange.after cfg.process anyClock []).engine 0 1) ∧
      (t.snapshot reply).snapshots = t.snapshots + 1 ∧
      (t.snapshot reply).locate.toNat = 2 ∧
      (Exchange.after cfg.process anyClock []).engine.findSymbol t.symbol = 1 := by
  obtain ⟨cfg, hcfg, hsymbols⟩ : ∃ cfg : ExchangeConfig,
      parseArgs defaultGroup [ascii "--symbols", ascii "ACME,ACME"] = .ok cfg ∧
        cfg.symbols = [ascii "ACME", ascii "ACME"] :=
    ⟨{ symbols := [ascii "ACME", ascii "ACME"] }, by rfl, rfl⟩
  obtain ⟨t, ht⟩ := exists_trader (ascii "ACME")
  have hs : t.cfg.symbol ∈ cfg.symbols := by
    rw [ht, hsymbols]
    exact List.mem_cons_self
  obtain ⟨recvs, hread, hcomplete⟩ := exists_snapshot hcfg anyClock hs
  obtain ⟨hlast, hfirst⟩ := places hcfg anyClock [] [] hread hcomplete
  refine ⟨cfg, t, { recvs := recvs }, hcfg, hs, hread, hcomplete, hlast.trans ?_, hfirst.trans ?_⟩
  · rw [t.symbol_eq, ht, hsymbols]
    decide
  · rw [t.symbol_eq, ht, hsymbols]
    decide

end ExchangeConfig

end PulseForge
