import PulseForge.Analysis.ReplicaBook

/-!
# The public event stream determines the book

Every message the exchange publishes of a run of the engine is encoded, decoded and applied
to a replica that starts as an empty book of the same configuration. Each message of the
symbol is applied, and after the run the replica holds the same orders in the same order.
-/

set_option autoImplicit false

namespace PulseForge.MatchingEngine

open Foundation

/-- The public messages of a sequence of callbacks; `clock k` is the reading of the
real-time clock in the `k`-th. -/
def published (clock : ℕ → ℕ) (cbs : List Callback) : List Itch.Message :=
  cbs.zipIdx.filterMap fun (cb, k) => publicMessage cb.engine (clock k) cb.event

/-- Decode a message and apply it; there is no answer to one that does not decode. -/
def receive (locate : UInt16) (b : OrderBook) (bytes : Bytes) : OrderBook × Option ApplyResult :=
  match Itch.decode bytes with
  | none => (b, none)
  | some msg => (applyItch b locate msg).map id some

/-- A new engine with symbols listed. -/
def listed (stp : SelfMatchPolicy) (maxOrderQty : ℕ) (listing : List (Symbol × BookConfig)) :
    MatchingEngine :=
  after stp maxOrderQty (listing.map fun p => .addSymbol p.1 p.2)

/-! ## The messages on the wire -/

/-- The time of day fits the six bytes of its field. -/
theorem midNow_lt (now : ℕ) : (midNow now).toNat < 2 ^ 48 := by
  have hday : nsSinceMidnight now < kNanosPerDay := Nat.mod_lt _ (by norm_num [kNanosPerDay])
  have hbound : kNanosPerDay < 2 ^ 48 := by norm_num [kNanosPerDay]
  rw [midNow, UInt64.toNat_ofNat']
  omega

/-- A message carries the time it was made at. -/
theorem timestamp_of_publicMessage {e : MatchingEngine} {now : ℕ} {ev : Event}
    {msg : Itch.Message} (h : publicMessage e now ev = some msg) : msg.timestamp = midNow now := by
  cases ev <;> simp only [publicMessage, Option.some.injEq, reduceCtorEq] at h
  · rw [← h]
    rfl
  · rw [← h]
    rfl
  · rw [← h, cancelMessage]
    split <;> rfl

/-- Every message fits the largest buffer. -/
theorem len_le_max (msg : Itch.Message) : msg.len ≤ Itch.kMaxMessageLen := by
  cases msg <;> simp [Itch.Message.len, Itch.kMaxMessageLen]

/-- A published message arrives as it was built. -/
theorem receive_encode {e : MatchingEngine} {now : ℕ} {ev : Event} {msg : Itch.Message}
    (h : publicMessage e now ev = some msg) (locate : UInt16) (b : OrderBook) :
    receive locate b (Itch.encode msg Itch.kMaxMessageLen) = (applyItch b locate msg).map id some := by
  have hts : msg.timestamp.toNat < 2 ^ 48 := by
    rw [timestamp_of_publicMessage h]
    exact midNow_lt now
  rw [receive, Itch.encode_eq (len_le_max msg), Itch.decode_layout hts]

/-! ## The replica over a run -/

/-- The messages heard so far leave a replica of the market, and each was answered as
expected. -/
structure Followed (locate : UInt16) (cfg : BookConfig) (b₀ : OrderBook) (x : Flow)
    (feed : List Itch.Message) : Prop where
  fits : x.Fits locate.toNat
  answers : (run (receive locate) b₀ (feed.map (Itch.encode · Itch.kMaxMessageLen))).2 =
    feed.map fun msg => some (expectedAnswer locate msg)
  mirrors : ∃ m, x.engine.market? locate.toNat = some m ∧ m.cfg = cfg ∧
    Mirrors (run (receive locate) b₀ (feed.map (Itch.encode · Itch.kMaxMessageLen))).1 m

/-- **One callback of a run.** -/
theorem Followed.step {locate : UInt16} {cfg : BookConfig} {b₀ : OrderBook} {x y : Flow}
    {feed : List Itch.Message} (h : Followed locate cfg b₀ x feed) (hband : cfg.Fits) {ev : Event}
    (hx : x.engine.WF) (hev : ev.Fits) (hstep : x.Step ev y) (e : MatchingEngine) (now : ℕ) :
    Followed locate cfg b₀ y (feed ++ (publicMessage e now ev).toList) := by
  obtain ⟨m, hm, hcfg, hmir⟩ := h.mirrors
  have hfits := h.fits.step hx hev hstep
  obtain ⟨m', hm', hcfg', hmsg⟩ :=
    Mirrors.step hstep hx h.fits hev hm (by rw [hcfg]; exact hband) hmir e now
  cases hpub : publicMessage e now ev with
  | none =>
    rw [hpub] at hmsg
    obtain rfl : m' = m := hmsg
    simpa using (⟨hfits, h.answers, m', hm', hcfg'.trans hcfg, hmir⟩ : Followed locate cfg b₀ y feed)
  | some msg =>
    rw [hpub] at hmsg
    obtain ⟨b', hb', hmir'⟩ := hmsg
    have hrun := run_append (receive locate) b₀ (feed.map (Itch.encode · Itch.kMaxMessageLen))
      [Itch.encode msg Itch.kMaxMessageLen]
    rw [run_cons, run_nil, receive_encode hpub, hb'] at hrun
    rw [Option.toList_some]
    refine ⟨hfits, ?_, m', hm', hcfg'.trans hcfg, ?_⟩
    · rw [List.map_append, List.map_singleton, hrun, h.answers]
      simp
    · rw [List.map_append, List.map_singleton, hrun]
      exact hmir'

/-- The messages of a run, collected by a listener. -/
theorem foldl_published (clock : ℕ → ℕ) (cbs : List Callback) (k : ℕ) (feed : List Itch.Message) :
    cbs.foldl (fun (s : ℕ × List Itch.Message) cb =>
        (s.1 + 1, s.2 ++ (publicMessage cb.engine (clock s.1) cb.event).toList)) (k, feed) =
      (k + cbs.length, feed ++ (cbs.zipIdx k).filterMap fun (cb, k) =>
        publicMessage cb.engine (clock k) cb.event) := by
  induction cbs generalizing k feed with
  | nil => simp
  | cons cb cbs ih =>
    rw [List.foldl_cons, ih, List.zipIdx_cons]
    cases hpub : publicMessage cb.engine (clock k) cb.event with
    | none => simp [hpub, Nat.add_assoc, Nat.add_comm 1]
    | some msg => simp [hpub, Nat.add_assoc, Nat.add_comm 1]

/-- Listing a symbol leaves the other markets alone. -/
theorem market?_list {r : RefEngine} {locate : ℕ} {m : Market} (hm : r.market? locate = some m)
    (symbol : Symbol) (cfg : BookConfig) : (list r symbol cfg).market? locate = some m := by
  unfold RefEngine.market? at hm ⊢
  split_ifs at hm ⊢ with h0
  exact List.getElem?_append_left (List.getElem?_eq_some_iff.mp hm).1 ▸ hm

/-- Listing symbols leaves every book empty. -/
theorem listed_empty (stp : SelfMatchPolicy) (maxOrderQty : ℕ)
    (listing : List (Symbol × BookConfig)) :
    ∀ b ∈ (listed stp maxOrderQty listing).books, ∀ s, b.orders s = [] := by
  have hrun : ∀ (listing : List (Symbol × BookConfig)) (e : MatchingEngine),
      (∀ b ∈ e.books, ∀ s, b.orders s = []) →
      ∀ b ∈ (run call e (listing.map fun p => .addSymbol p.1 p.2)).1.books, ∀ s, b.orders s = [] := by
    intro listing
    induction listing with
    | nil => exact fun _ h => h
    | cons p listing ih =>
      intro e h
      refine ih _ ?_
      rcases addSymbol_cases e p.1 p.2 with ⟨why, hadd⟩ | ⟨b, hnew, hadd⟩
      · simp only [hadd]
        exact h
      · simp only [hadd]
        intro x hx
        rcases List.mem_append.mp hx with hx | hx
        · exact h x hx
        · rw [List.mem_singleton.mp hx]
          exact OrderBook.new_orders hnew
  exact hrun listing _ (by simp [start])

/-- **The public event stream determines the book.** Symbols are listed, then any calls are
made, whose arguments are values of their machine types. The public messages, encoded,
decoded and applied to an initially empty book of the configuration of one symbol, whose
prices fit in 32 bits, are all applied (those of other symbols are ignored), and the
replica shows the same orders in the same order as the engine's book. -/
theorem feed_determines_book (stp : SelfMatchPolicy) (maxOrderQty : ℕ)
    (listing : List (Symbol × BookConfig)) (ops : List EngineOp) (clock : ℕ → ℕ)
    (locate : UInt16) (b₀ : OrderBook)
    (hlisted : (listed stp maxOrderQty listing).validLocate locate.toNat)
    (hnew : OrderBook.new ((listed stp maxOrderQty listing).book locate.toNat).cfg = .ok b₀)
    (hband : ((listed stp maxOrderQty listing).book locate.toNat).cfg.Fits)
    (hfits : ∀ op ∈ ops, op.Fits) :
    let after := run call (listed stp maxOrderQty listing) ops
    let feed := published clock after.2.flatten
    let replica := run (receive locate) b₀ (feed.map (Itch.encode · Itch.kMaxMessageLen))
    replica.2 = feed.map (fun msg => some (expectedAnswer locate msg)) ∧
      replica.1.forEachOrder.map BookOrder.visible =
        (after.1.book locate.toNat).forEachOrder.map BookOrder.visible := by
  intro after feed replica
  set e := listed stp maxOrderQty listing with he
  have hwf : e.WF := wf_after stp maxOrderQty _
  have hempty : ∀ s, (e.book locate.toNat).orders s = [] :=
    listed_empty stp maxOrderQty listing _ (book_mem hlisted)
  have hmarket : (e.book locate.toNat).market = ⟨(e.book locate.toNat).cfg, [], []⟩ := by
    simp [OrderBook.market, hempty]
  have hfirst : Followed locate (e.book locate.toNat).cfg b₀ ⟨e.abs, none⟩ [] := by
    have hm : e.abs.market? locate.toNat = some ⟨(e.book locate.toNat).cfg, [], []⟩ := by
      rw [market?_abs, if_pos hlisted, hmarket]
    refine ⟨⟨fun m hm' o ho => ?_, by simp⟩, rfl, _, hm, rfl, ?_⟩
    · obtain rfl := Option.some.inj (hm.symm.trans hm')
      exact absurd ho (by simp [Market.orders])
    · obtain ⟨hb, hcfg, -⟩ := OrderBook.new_wf hnew
      refine ⟨hb, ?_⟩
      simp [OrderBook.market, OrderBook.new_orders hnew, hcfg, Market.anonymous]
  have hlast := run_listen (R := fun x s => Followed locate (e.book locate.toNat).cfg b₀ x s.2)
    (f := fun (s : ℕ × List Itch.Message) cb =>
      (s.1 + 1, s.2 ++ (publicMessage cb.engine (clock s.1) cb.event).toList))
    (s := (0, [])) ops hwf hfirst
    (fun r symbol cfg s h => by
      obtain ⟨m, hm, hcfg, hmir⟩ := h.mirrors
      have hm' := market?_list hm symbol cfg
      refine ⟨⟨fun m' hm'' => ?_, h.fits.taker⟩, h.answers, m, hm', hcfg, hmir⟩
      obtain rfl := Option.some.inj (hm'.symm.trans hm'')
      exact h.fits.orders m hm)
    (fun x cb y s hop hx _ _ hstep h => by
      obtain ⟨op, hop, hemit⟩ := hop
      exact h.step hband hx ((hfits op hop).event hemit) hstep cb.engine (clock s.1))
  rw [foldl_published, List.nil_append] at hlast
  refine ⟨hlast.answers, ?_⟩
  obtain ⟨m, hm, -, hmir⟩ := hlast.mirrors
  have hshow := hmir.visible
  rw [market?_abs] at hm
  split at hm
  · obtain rfl := Option.some.inj hm
    exact hshow
  · exact absurd hm (by simp)

/-- A sell order of 5 rests, 3 of it trade, and the owner cancels one more share. -/
theorem feed_determines_book_one_symbol :
    let listing : List (Symbol × BookConfig) := [(fun _ => 32, ⟨0, 2, 1, 4⟩)]
    let ops : List EngineOp := [
      .submit 1 { id := 7, side := .sell, price := 1, qty := 5, owner := 2 },
      .submit 1 { id := 8, side := .buy, price := 2, qty := 3, owner := 3 },
      .cancel 1 7 1 2 .userRequested]
    let after := run call (listed .cancelResting 100 listing) ops
    let feed := published (fun k => 1000 * k) after.2.flatten
    feed.length = 3 ∧ ∃ b₀, OrderBook.new ⟨0, 2, 1, 4⟩ = .ok b₀ ∧
      let replica := run (receive 1) b₀ (feed.map (Itch.encode · Itch.kMaxMessageLen))
      replica.2 = feed.map (fun msg => some (expectedAnswer 1 msg)) ∧
        replica.1.forEachOrder.map BookOrder.visible =
          (after.1.book 1).forEachOrder.map BookOrder.visible := by
  intro listing ops after feed
  have hacc : (⟨0, 2, 1, 4⟩ : BookConfig).Accepted := by
    refine ⟨by decide, by decide, by decide, by decide, by decide, by decide, by decide⟩
  obtain ⟨b₀, hb⟩ := OrderBook.new_isOk hacc
  have hcfg : ((listed .cancelResting 100 listing).book (1 : UInt16).toNat).cfg = ⟨0, 2, 1, 4⟩ := by
    decide
  exact ⟨by decide, b₀, hb, feed_determines_book .cancelResting 100 listing ops
    (fun k => 1000 * k) 1 b₀ (by decide) (by rw [hcfg, hb]) (by rw [hcfg]; decide) (by decide)⟩

end PulseForge.MatchingEngine
