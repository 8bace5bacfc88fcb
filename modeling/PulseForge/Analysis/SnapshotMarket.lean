import PulseForge.Analysis.FeedRuns
import PulseForge.Analysis.SnapshotLocate
import PulseForge.Analysis.SnapshotReplay

/-!
# A snapshot makes a replica

A snapshot that the trader takes to its end leaves it with a replica of one market of the engine
that the snapshot is of: the market under the last locate of its symbol, and the number of the
first message that is not in it.
-/

set_option autoImplicit false

namespace PulseForge

open Foundation Soup

/-! ## The book -/

namespace OrderBook

variable {b c : OrderBook}

/-- The account that the reader of a snapshot gives every order. -/
def nobody : BookOrder → ℕ × ℕ := fun _ => (0, 0)

/-- An added order is nobody's. -/
theorem anonymous_feed (hwf : WF c) (h : ∀ o ∈ c.forEachOrder, o.anonymous = o) {o : BookOrder}
    (hok : (feed nobody c o).2 = .ok) : ∀ o' ∈ (feed nobody c o).1.forEachOrder,
      o'.anonymous = o' := by
  have hanswer : c.addAnswer o.id o.price o.qty = .ok := by
    by_contra hne
    unfold feed at hok
    rw [add_of_refused hwf hne] at hok
    exact hne hok
  obtain ⟨c', k, hadd, hwf', -, -, -, hfifo⟩ := add_of_ok hwf o.side 0 0 hanswer
  intro o' ho'
  have hadd' : (feed nobody c o).1 = c' := congrArg Prod.fst hadd
  rw [hadd'] at ho'
  obtain ⟨s, i, ho'⟩ := (mem_forEachOrder_iff_fifo hwf').mp ho'
  rw [hfifo] at ho'
  unfold pushFifo at ho'
  split_ifs at ho'
  · rcases List.mem_append.mp ho' with hold | hnew
    · exact h o' ((mem_forEachOrder_iff_fifo hwf).mpr ⟨_, _, hold⟩)
    · rw [List.mem_singleton.mp hnew]
      rfl
  · exact h o' ((mem_forEachOrder_iff_fifo hwf).mpr ⟨_, _, ho'⟩)

/-- A book that was filled by a snapshot knows no owners. -/
theorem Fed.anonymous {pre post : List BookOrder} (h : Fed b c pre) (hwf : WF b)
    (hsnapshot : pre ++ post = b.forEachOrder) (hc : ∀ o ∈ c.forEachOrder, o.anonymous = o) :
    ∀ o ∈ (OrderBook.replay nobody c post).1.forEachOrder, o.anonymous = o := by
  induction post generalizing pre c with
  | nil => exact hc
  | cons o post ih =>
    obtain ⟨hok, hfed⟩ := h.next hwf hsnapshot nobody
    rw [List.append_cons] at hsnapshot
    exact ih hfed hsnapshot (anonymous_feed h.wf hc hok)

/-- Orders of nobody are what they show. -/
theorem eq_anonymous {os os' : List BookOrder} (h : os.map BookOrder.visible =
    os'.map BookOrder.visible) (hos : ∀ o ∈ os, o.anonymous = o) :
    os = os'.map BookOrder.anonymous := by
  have hone : ∀ o o' : BookOrder, o.visible = o'.visible → o.anonymous = o'.anonymous := by
    rintro ⟨id, price, qty, owner, userRef, side⟩ ⟨id', price', qty', owner', userRef', side'⟩ h
    simp only [BookOrder.visible, Prod.mk.injEq] at h
    obtain ⟨rfl, rfl, rfl, rfl⟩ := h
    rfl
  induction os generalizing os' with
  | nil =>
    rw [List.map_eq_nil_iff.mp h.symm]
    rfl
  | cons o os ih =>
    cases os' with
    | nil => cases h
    | cons o' os' =>
      rw [List.map_cons, List.map_cons, List.cons.injEq] at h
      rw [List.map_cons, ← hone o o' h.1, hos o List.mem_cons_self,
        ← ih h.2 fun x hx => hos x (List.mem_cons_of_mem _ hx)]

/-- **A replayed book** is a replica of the market. -/
theorem mirrors_replay {e : OrderBook} (hwf : WF b) (hwf' : WF e) (hcfg : e.cfg = b.cfg)
    (hempty : e.orderCount = 0) :
    Mirrors (replay nobody e b.forEachOrder).1 b.market := by
  obtain ⟨-, halike⟩ := replay_alike hwf hwf' hcfg hempty nobody
  have hstart : Fed b e [] := by
    refine ⟨hwf', hcfg, fun s i => ?_⟩
    rw [fifo_of_orderCount hwf' hempty]
    rfl
  have hnone : ∀ o ∈ e.forEachOrder, o.anonymous = o := by
    intro o ho
    obtain ⟨s, i, ho⟩ := (mem_forEachOrder_iff_fifo hwf').mp ho
    rw [fifo_of_orderCount hwf' hempty] at ho
    exact absurd ho List.not_mem_nil
  have hall := hstart.anonymous hwf (List.nil_append _) hnone
  have hside : ∀ s, (replay nobody e b.forEachOrder).1.orders s =
      (b.orders s).map BookOrder.anonymous := by
    intro s
    refine eq_anonymous (halike.orders s) fun o ho => hall o ?_
    exact mem_forEachOrder.mpr ⟨s, ho⟩
  refine ⟨halike.wf', ?_⟩
  unfold OrderBook.market Market.anonymous
  dsimp only
  rw [halike.cfg, hside, hside]

/-- A cleared book has nothing in it. -/
theorem orderCount_clear (hwf : WF b) : WF b.clear ∧ b.clear.cfg = b.cfg ∧
    b.clear.orderCount = 0 := by
  obtain ⟨hwf', hcfg, hnil⟩ := clear_wf hwf
  refine ⟨hwf', hcfg, ?_⟩
  rw [(orderCount_eq hwf').1, List.length_eq_zero_iff, List.eq_nil_iff_forall_not_mem]
  intro o ho
  obtain ⟨s, i, ho⟩ := (mem_forEachOrder_iff_fifo hwf').mp ho
  rw [hnil] at ho
  exact List.not_mem_nil ho

end OrderBook

/-! ## The messages -/

namespace Trader.Pull

variable {e : MatchingEngine} {start p : Pull}

/-- **What ends the loop** is a whole snapshot. -/
theorem whole_of_done (hlist : e.books.length = e.symbols.length) {now next : ℕ}
    (hstart : start.done = false) {fs : List Soup.Frame}
    (hpart : fs <+: Exchange.snapshotFrames e now next)
    (hdone : (fs.foldl onFrame start).done = true) :
    fs.foldl onFrame start =
      (Exchange.snapshotMessages e (midNow now) next).foldl onMessage start := by
  have hts := fun m (hm : m ∈ Exchange.snapshotMessages e (midNow now) next) =>
    Exchange.timestamp_of_mem hm
  have hnone : ∀ m ∈ Exchange.directory (midNow now) e.symbols ++
      Exchange.snapshotAdds e (midNow now), ∀ next, m ≠ .endOfSnapshot next := by
    intro m hm next
    unfold Exchange.directory Exchange.snapshotAdds at hm
    rcases List.mem_append.mp hm with hm | hm
    · obtain ⟨p, -, rfl⟩ := List.mem_map.mp hm
      exact Itch.Message.noConfusion
    · obtain ⟨loc, -, hm⟩ := List.mem_flatMap.mp hm
      obtain ⟨o, -, rfl⟩ := List.mem_map.mp hm
      exact Itch.Message.noConfusion
  unfold Exchange.snapshotFrames at hpart
  rw [Exchange.snapshotMessages_eq hlist] at hpart hts ⊢
  generalize Exchange.directory (midNow now) e.symbols ++ Exchange.snapshotAdds e (midNow now) =
    front at hpart hts hnone ⊢
  rcases List.prefix_concat_iff.mp hpart with heq | hshort
  · rw [heq, List.foldl_append, foldl_onFrame_encode _ hts]
    rfl
  · rw [List.map_append, List.map_singleton] at hshort
    rcases List.prefix_concat_iff.mp hshort with heq | hshort
    · rw [heq, ← foldl_onFrame_encode start hts, List.map_append, List.map_singleton]
    · -- the loop would not have ended
      obtain ⟨rest, hrest⟩ := hshort
      obtain ⟨ms, ms', hms, rfl, -⟩ := List.map_eq_append_iff.mp hrest.symm
      rw [hms] at hts hnone
      rw [foldl_onFrame_encode _ fun m hm => hts m
          (List.mem_append_left _ (List.mem_append_left _ hm)),
        done_foldl_onMessage _ fun m hm => hnone m (List.mem_append_left _ hm), hstart] at hdone
      exact absurd hdone Bool.false_ne_true

/-- What the directory leaves alone. -/
theorem book_directory (ts : UInt64) (symbols : List Symbol) (p : Pull) :
    ((Exchange.directory ts symbols).foldl onMessage p).trader.book = p.trader.book := by
  induction symbols using List.reverseRecOn with
  | nil => rfl
  | append_singleton symbols s ih =>
    rw [Exchange.directory_concat, List.foldl_append, List.foldl_cons, List.foldl_nil]
    refine Eq.trans ?_ ih
    unfold onMessage
    dsimp only
    split_ifs
    · rfl
    · rfl

/-- The values of an order fit the fields of its message. -/
structure Shows (o : BookOrder) : Prop where
  id : o.id < 2 ^ 64
  qty : o.qty < 2 ^ 32
  price_nonneg : 0 ≤ o.price
  price_lt : o.price < 2 ^ 32

/-- **One resting order**: it joins the book if it is of the book that is watched. -/
theorem onMessage_add {l : UInt16} (hl : l ≠ 0) (hlocate : p.trader.locate = l) {loc : ℕ}
    (hloc : loc < 2 ^ 16) (ts : UInt64) (stock : Symbol) {o : BookOrder} (ho : Shows o) :
    p.onMessage (addMessage loc ts stock o) =
      if loc = l.toNat then
        { p with trader := { p.trader with
            book := (OrderBook.feed OrderBook.nobody p.trader.book o).1 } }
      else p := by
  have hsame : UInt16.ofNat loc = p.trader.locate ↔ loc = l.toNat := by
    rw [hlocate, ← UInt16.toNat_inj, UInt16.toNat_ofNat', Nat.mod_eq_of_lt hloc]
  have hid : (UInt64.ofNat o.id).toNat = o.id := by
    rw [UInt64.toNat_ofNat', Nat.mod_eq_of_lt ho.id]
  have hqty : (UInt32.ofNat o.qty).toNat = o.qty := by
    rw [UInt32.toNat_ofNat', Nat.mod_eq_of_lt ho.qty]
  have hprice : ((UInt32.ofInt o.price).toNat : ℤ) = o.price :=
    toNat_price ho.price_nonneg ho.price_lt
  unfold addMessage onMessage
  dsimp only
  by_cases hhere : loc = l.toNat
  · rw [if_pos ⟨hlocate ▸ hl, hsame.mpr hhere⟩, if_pos hhere, hid, hqty, hprice]
    rfl
  · rw [if_neg fun h => hhere (hsame.mp h.2), if_neg hhere]

/-- The orders of one book. -/
theorem onMessage_adds {l : UInt16} (hl : l ≠ 0) (hlocate : p.trader.locate = l) {loc : ℕ}
    (hloc : loc < 2 ^ 16) (ts : UInt64) (stock : Symbol) {os : List BookOrder}
    (hos : ∀ o ∈ os, Shows o) : (os.map (addMessage loc ts stock)).foldl onMessage p =
      if loc = l.toNat then
        { p with trader := { p.trader with
            book := (OrderBook.replay OrderBook.nobody p.trader.book os).1 } }
      else p := by
  induction os generalizing p with
  | nil => exact (ite_self _).symm
  | cons o os ih =>
    rw [List.map_cons, List.foldl_cons,
      onMessage_add hl hlocate hloc ts stock (hos o List.mem_cons_self)]
    have hrest := fun o ho => hos o (List.mem_cons_of_mem _ ho)
    split_ifs with hhere
    · rw [ih (by exact hlocate) hrest, if_pos hhere]
      rfl
    · rw [ih hlocate hrest, if_neg hhere]

/-- **All books**: the one that is watched is replayed. -/
theorem onMessage_books {l : UInt16} (hl : l ≠ 0) (hlocate : p.trader.locate = l) (ts : UInt64)
    {locs : List ℕ} (hnodup : locs.Nodup) (hlocs : ∀ loc ∈ locs, loc < 2 ^ 16)
    (hos : ∀ loc ∈ locs, ∀ o ∈ (e.book loc).forEachOrder, Shows o) :
    (locs.flatMap fun loc =>
      (e.book loc).forEachOrder.map (addMessage loc ts (e.symbol loc))).foldl onMessage p =
      if l.toNat ∈ locs then
        { p with trader := { p.trader with
            book := (OrderBook.replay OrderBook.nobody p.trader.book
              (e.book l.toNat).forEachOrder).1 } }
      else p := by
  induction locs generalizing p with
  | nil => rfl
  | cons loc locs ih =>
    obtain ⟨hnot, hothers⟩ := List.nodup_cons.mp hnodup
    have hrest := fun loc h => hlocs loc (List.mem_cons_of_mem _ h)
    have hrest' := fun loc h => hos loc (List.mem_cons_of_mem _ h)
    rw [List.flatMap_cons, List.foldl_append, onMessage_adds hl hlocate
      (hlocs loc List.mem_cons_self) ts (e.symbol loc) (hos loc List.mem_cons_self)]
    by_cases hhere : loc = l.toNat
    · subst hhere
      rw [if_pos rfl, ih (by exact hlocate) hothers hrest hrest', if_neg hnot,
        if_pos List.mem_cons_self]
    · rw [if_neg hhere, ih hlocate hothers hrest hrest']
      refine if_congr ?_ rfl rfl
      rw [List.mem_cons]
      exact (or_iff_right fun h => hhere h.symm).symm

end Trader.Pull

/-! ## Whatever arrives -/

namespace Trader

/-- **The book is one that can be filled**: well-formed, as the constructor made it. -/
structure Fillable (t : Trader) : Prop where
  wf : t.book.WF
  cfg : t.book.cfg = {}

/-- A book stays fillable when an order is added. -/
theorem Fillable.add {t : Trader} (h : t.Fillable) (id : ℕ) (side : Side) (price : ℤ) (qty : ℕ) :
    ({ t with book := (t.book.add id side price qty 0 0).1 } : Trader).Fillable := by
  by_cases hok : t.book.addAnswer id price qty = .ok
  · obtain ⟨b', i, hadd, hwf, hcfg, -⟩ := OrderBook.add_of_ok h.wf side 0 0 hok
    rw [hadd]
    exact ⟨hwf, hcfg.trans h.cfg⟩
  · rw [OrderBook.add_of_refused h.wf hok]
    exact h

/-- A frame keeps the book fillable. -/
theorem Pull.fillable_onFrame {p : Pull} (h : p.trader.Fillable) (f : Soup.Frame) :
    (p.onFrame f).trader.Fillable := by
  unfold Pull.onFrame
  split
  · exact h
  · split
    · exact h
    · split
      · exact h
      · next msg _ =>
        unfold Pull.onMessage
        cases msg with
        | stockDirectory locate ts stock lot =>
          dsimp only
          split
          · exact ⟨h.wf, h.cfg⟩
          · exact h
        | addOrder locate ts orderRef side shares stock price =>
          dsimp only
          split
          · exact h.add _ _ _ _
          · exact h
        | endOfSnapshot | systemEvent | orderExecuted | orderCancel | orderDelete => exact h

/-- The complete frames keep the book fillable. -/
theorem Pull.fillable_drain (fuel : ℕ) {p : Pull} (h : p.trader.Fillable) :
    (Pull.drain fuel p).trader.Fillable := by
  induction fuel generalizing p with
  | zero => exact h
  | succ fuel ih =>
    rw [Pull.drain]
    split
    · next f reader _ =>
      have hframe := @Pull.fillable_onFrame { p with reader := reader } h f
      dsimp only
      split
      · exact hframe
      · exact ih hframe
    · exact h

/-- The loop keeps the book fillable. -/
theorem Pull.fillable_loop (recvs : List (ArgOrder × RecvAnswer)) {p : Pull}
    (h : p.trader.Fillable) : (Pull.loop recvs p).trader.Fillable := by
  induction recvs generalizing p with
  | nil =>
    rw [Pull.loop]
    split
    · exact h
    · exact h
  | cons recv recvs ih =>
    obtain ⟨order, answer⟩ := recv
    rw [Pull.loop]
    split
    · exact h
    · dsimp only
      split
      · split
        · exact ⟨h.wf, h.cfg⟩
        · exact ih (Pull.fillable_drain _ ⟨h.wf, h.cfg⟩)
      all_goals exact ⟨h.wf, h.cfg⟩

/-- **A snapshot**, of anything. -/
theorem Fillable.snapshot {t : Trader} (h : t.Fillable) (reply : SnapshotReply) :
    (t.snapshot reply).Fillable := by
  have hclear := OrderBook.orderCount_clear h.wf
  have hloop := @Pull.fillable_loop reply.recvs t.pullStart ⟨hclear.1, hclear.2.1.trans h.cfg⟩
  unfold pullStart at hloop
  unfold Trader.snapshot
  split
  · exact h
  · dsimp only
    split
    · exact hloop
    · exact ⟨hloop.wf, hloop.cfg⟩

/-! ## A completed snapshot -/

/-- The orders of a snapshot fit their messages. -/
theorem shows_of_snapshot {r₀ : RefEngine} {symbols : List Symbol} {log : List Event}
    {e : MatchingEngine} {k : ℕ} (h : Snapshot r₀ symbols log e k) {loc : ℕ}
    (hloc : e.validLocate loc) : ∀ o ∈ (e.book loc).forEachOrder, Pull.Shows o := by
  intro o ho
  have hmarket : e.abs.market? loc = some (e.book loc).market := by
    rw [MatchingEngine.market?_abs, if_pos hloc]
  have hmem : o ∈ (e.book loc).market.orders := ho
  obtain ⟨hid, hqty⟩ := (h.fits loc).orders _ hmarket o hmem
  have hgrid := (OrderBook.market_wf (h.wf.book hloc)).onGrid o hmem
  rw [h.plain loc _ hmarket] at hgrid
  obtain ⟨hmin, hmax, -⟩ := hgrid
  have hlow : (0 : ℤ) ≤ ({} : BookConfig).minPrice := by decide
  have hhigh : ({} : BookConfig).maxPrice < 2 ^ 32 := by decide
  exact ⟨hid, hqty, hlow.trans hmin, hmax.trans_lt hhigh⟩

/-- A completed snapshot is what the loop leaves. -/
theorem completed_eq {t : Trader} {reply : SnapshotReply}
    (h : (t.snapshot reply).snapshots = t.snapshots + 1) :
    (Pull.loop reply.recvs t.pullStart).refused = false ∧
      (Pull.loop reply.recvs t.pullStart).trader.locate ≠ 0 ∧
      t.snapshot reply =
        { (Pull.loop reply.recvs t.pullStart).trader with
          seq := ⟨(Pull.loop reply.recvs t.pullStart).nextSeq⟩
          synced := true
          snapshots := (Pull.loop reply.recvs t.pullStart).trader.snapshots + 1 } := by
  have hpulls := Pull.pulls_loop reply.recvs t.pullStart
  unfold Pulls at hpulls
  unfold pullStart at hpulls ⊢
  unfold Trader.snapshot at h ⊢
  by_cases hconn : reply.connected = false ∨ reply.loginSent = false
  · rw [if_pos hconn] at h
    omega
  · rw [if_neg hconn] at h ⊢
    dsimp only at h ⊢
    generalize Pull.loop reply.recvs _ = p at h hpulls ⊢
    by_cases hfail : p.refused = true ∨ p.trader.locate = 0
    · rw [if_pos hfail, hpulls] at h
      dsimp only at h
      omega
    · rw [if_neg hfail]
      exact ⟨eq_false_of_ne_true fun hrefused => hfail (.inl hrefused),
        fun hzero => hfail (.inr hzero), rfl⟩

/-- **The messages of a snapshot**, heard by a trader that lists the symbol. -/
theorem Pull.foldl_snapshot {r₀ : RefEngine} {symbols : List Symbol} {log : List Event}
    {e : MatchingEngine} {k : ℕ} (h : Snapshot r₀ symbols log e k)
    (hfew : symbols.length < 2 ^ 16) (ts : UInt64) {next : ℕ} (hnext : next < 2 ^ 64)
    {start : Pull} (hstart : start.trader.locate = 0)
    (hlocate : ((Exchange.snapshotMessages e ts next).foldl onMessage start).trader.locate ≠ 0) :
    let p := (Exchange.snapshotMessages e ts next).foldl onMessage start
    p.nextSeq = next ∧ p.trader.locate.toNat = lastPlace start.trader.symbol symbols ∧
      e.validLocate p.trader.locate.toNat ∧
      p.trader.book = (OrderBook.replay OrderBook.nobody start.trader.book
        (e.book p.trader.locate.toNat).forEachOrder).1 := by
  have hlist : e.books.length = e.symbols.length := by rw [h.books, h.listed]
  have hdirectory := located_directory hstart ts e.symbols
  have hbook := book_directory ts e.symbols start
  have hadds := hdirectory.adds e ts
  rw [Exchange.snapshotMessages_eq hlist, List.foldl_append, List.foldl_append,
    List.foldl_cons, List.foldl_nil] at hlocate ⊢
  generalize (Exchange.directory ts e.symbols).foldl onMessage start = q
    at hdirectory hbook hadds hlocate ⊢
  have hsame : ((Exchange.snapshotAdds e ts).foldl onMessage q).trader.locate =
      q.trader.locate := hadds.locate.trans hdirectory.locate.symm
  have hle := lastPlace_le start.trader.symbol e.symbols
  rw [h.listed] at hle
  have hplace : q.trader.locate.toNat = lastPlace start.trader.symbol symbols := by
    rw [hdirectory.locate, h.listed, UInt16.toNat_ofNat', Nat.mod_eq_of_lt (by omega)]
  have hne : q.trader.locate ≠ 0 := hsame ▸ hlocate
  have hpos : 0 < q.trader.locate.toNat := by
    rw [Nat.pos_iff_ne_zero]
    intro hzero
    exact hne (UInt16.toNat_inj.mp hzero)
  have hvalid : e.validLocate q.trader.locate.toNat := ⟨hpos, by rw [hplace, h.books]; exact hle⟩
  have hlocs : ∀ loc ∈ (List.range e.books.length).map (· + 1), e.validLocate loc := by
    intro loc hloc
    obtain ⟨i, hi, rfl⟩ := List.mem_map.mp hloc
    exact ⟨Nat.succ_pos i, List.mem_range.mp hi⟩
  have hmem : q.trader.locate.toNat ∈ (List.range e.books.length).map (· + 1) := by
    refine List.mem_map.mpr ⟨q.trader.locate.toNat - 1, ?_, by omega⟩
    rw [List.mem_range]
    have := hvalid.2
    omega
  have hbooks := @onMessage_books e q q.trader.locate hne rfl ts
    ((List.range e.books.length).map (· + 1))
    (List.nodup_range.map (fun _ _ heq => Nat.succ.inj heq))
    (fun loc hloc => (hlocs loc hloc).2.trans_lt (h.books ▸ hfew))
    (fun loc hloc => shows_of_snapshot h (hlocs loc hloc))
  rw [if_pos hmem] at hbooks
  have hend : (Exchange.snapshotAdds e ts).foldl onMessage q =
      { q with trader := { q.trader with
          book := (OrderBook.replay OrderBook.nobody q.trader.book
            (e.book q.trader.locate.toNat).forEachOrder).1 } } := hbooks
  intro p
  have hp : p = ((Exchange.snapshotAdds e ts).foldl onMessage q).onMessage
      (.endOfSnapshot (UInt64.ofNat next)) := rfl
  rw [hend] at hp
  rw [hp]
  refine ⟨?_, hplace, hvalid, ?_⟩
  · exact (UInt64.toNat_ofNat').trans (Nat.mod_eq_of_lt hnext)
  · show (OrderBook.replay OrderBook.nobody q.trader.book _).1 = _
    rw [hbook]
    rfl

/-- **A completed snapshot** is a replica of the market under the last locate of the symbol, with
the number of the first message behind it. -/
theorem mirrors_snapshot {r₀ : RefEngine} {symbols : List Symbol} {log : List Event}
    {e : MatchingEngine} {k : ℕ} (h : Snapshot r₀ symbols log e k)
    (hfew : symbols.length < 2 ^ 16) {now next : ℕ} (hnext : next < 2 ^ 64) {t : Trader}
    (ht : t.Fillable) {reply : SnapshotReply}
    (hread : Pull.received reply.recvs t.pullStart <+:
      Soup.wire (Exchange.snapshotFrames e now next))
    (hcomplete : (t.snapshot reply).snapshots = t.snapshots + 1) :
    (t.snapshot reply).seq.expected = next ∧
      (t.snapshot reply).locate.toNat = lastPlace t.symbol symbols ∧
      ∃ m, e.abs.market? (t.snapshot reply).locate.toNat = some m ∧
        Mirrors (t.snapshot reply).book m := by
  have hlist : e.books.length = e.symbols.length := by rw [h.books, h.listed]
  obtain ⟨hok, hlocate, heq⟩ := completed_eq hcomplete
  have hstart : Pull.After t.pullStart [] t.pullStart := ⟨rfl, rfl, rfl⟩
  have hstream := Exchange.parseFrames_snapshot e now next
  obtain ⟨hdone, front, hfront, hafter⟩ := hstart.loop hstream
    (fun f hf => (Exchange.legal_snapshotFrames e now next f hf).2.1) reply.recvs hread hok
  have hbare : (Pull.loop reply.recvs t.pullStart).bare.done = true := hdone
  rw [hafter.bare] at hbare
  have hwhole := Pull.whole_of_done hlist rfl (Pull.items_prefix hstream hfront).2 hbare
  have hp := hafter.bare.trans hwhole
  rw [heq]
  generalize Pull.loop reply.recvs t.pullStart = p at hlocate hp ⊢
  have hne : p.bare.trader.locate ≠ 0 := hlocate
  rw [hp] at hne
  obtain ⟨hnextSeq, hplace, hvalid, hbook⟩ :=
    Pull.foldl_snapshot h hfew (midNow now) hnext (by rfl) hne
  rw [← hp] at hnextSeq hplace hvalid hbook
  refine ⟨hnextSeq, hplace, (e.book p.trader.locate.toNat).market, ?_, ?_⟩
  · rw [MatchingEngine.market?_abs]
    exact if_pos hvalid
  · obtain ⟨hwf, hcfg, hempty⟩ := OrderBook.orderCount_clear ht.wf
    have hmarket : e.abs.market? p.trader.locate.toNat =
        some (e.book p.trader.locate.toNat).market := by
      rw [MatchingEngine.market?_abs]
      exact if_pos hvalid
    have hplain : (e.book p.trader.locate.toNat).cfg = {} := h.plain _ _ hmarket
    have hmirrors := OrderBook.mirrors_replay (h.wf.book hvalid) hwf
      ((hcfg.trans ht.cfg).trans hplain.symm) hempty
    have hbook' : p.trader.book = (OrderBook.replay OrderBook.nobody t.book.clear
        (e.book p.trader.locate.toNat).forEachOrder).1 := hbook
    show Mirrors p.trader.book _
    rw [hbook']
    exact hmirrors

end Trader

end PulseForge
