import PulseForge.Analysis.TraderMoves

/-!
# The order-entry stream

Whatever the kernel takes of each `send`, what it has taken and what is pending are together the
login and the frames that were sent, in order; one counter follows what was taken, so the id of a
stamp is the offset of the last byte of its order.
-/

set_option autoImplicit false

namespace PulseForge.Trader

open Foundation

/-! ## Runs of the session -/

/-- Nothing of the stream differs, but the session may have gone down, and a stamp of the ring may
be done. -/
structure SameStream (t t' : Trader) : Prop where
  wire : t'.wire = t.wire
  oePending : t'.oePending = t.oePending
  streamBytes : t'.streamBytes = t.streamBytes
  wantWrite : t'.wantWrite = t.wantWrite
  ring : t'.txRing.length = t.txRing.length
  down : t'.oeUp = true → t.oeUp = true

/-- The frame of the order that a signal becomes. -/
def signalFrame (t : Trader) (sig : Signal) : Bytes := orderFrame (t.enterOrder (t.liveOrder sig))

/-- **A run of the session** from `t₀`, with the frames that were passed to `oe_send`: frames are
sent, what is pending is flushed, orders are sent, and in between the rest of the process does
anything that leaves the stream alone. -/
inductive OeRun (t₀ : Trader) : List Bytes → Trader → Prop
  | start : OeRun t₀ [] t₀
  | send {frames : List Bytes} {t : Trader} (h : OeRun t₀ frames t) (bs : Bytes) :
    OeRun t₀ (frames ++ [bs]) (t.oeSend bs).1
  | flush {frames : List Bytes} {t : Trader} (h : OeRun t₀ frames t) :
    OeRun t₀ frames (flushOePending t.oePending.length t)
  | order {frames : List Bytes} {t : Trader} (h : OeRun t₀ frames t) (sig : Signal)
    (bookDone : ℕ) : OeRun t₀ (frames ++ [t.signalFrame sig]) (t.sendOrder sig bookDone)
  | other {frames : List Bytes} {t t' : Trader} (h : OeRun t₀ frames t) (hsame : SameStream t t') :
    OeRun t₀ frames t'

/-! ## The stream is exact -/

/-- **The stream** of a session that began with `login`. -/
structure Exact (login : Bytes) (frames : List Bytes) (t : Trader) : Prop where
  bytes : t.oeUp = true → t.wire ++ t.oePending = login ++ frames.flatten
  count : t.streamBytes = t.wire.length % 2 ^ 64
  armed : t.oePending ≠ [] → t.wantWrite = true
  ring : t.txRing.length = kTxRing

variable {login : Bytes} {frames : List Bytes} {t : Trader}

/-- Taking bytes counts them. -/
theorem count_took {bs : Bytes} {k : ℕ} (hcount : t.streamBytes = t.wire.length % 2 ^ 64)
    (hk : k ≤ bs.length) : (t.took bs k).streamBytes = (t.took bs k).wire.length % 2 ^ 64 := by
  unfold took
  dsimp only
  rw [hcount, List.length_append, List.length_take_of_le hk, Nat.mod_add_mod]

/-- **Sending** adds the bytes behind the others, taken or pending. -/
theorem Exact.oeSend (h : Exact login frames t) (bs : Bytes) :
    Exact login (frames ++ [bs]) (t.oeSend bs).1 ∧
      ((t.oeSend bs).2 = true → (t.oeSend bs).1.oeUp = true ∧ (t.oeSend bs).1.oePending = []) := by
  have hflatten : login ++ (frames ++ [bs]).flatten = login ++ frames.flatten ++ bs := by
    rw [List.flatten_append, List.flatten_singleton, List.append_assoc]
  unfold Trader.oeSend
  by_cases hup : t.oeUp = false
  · rw [if_pos hup]
    refine ⟨⟨fun hup' => ?_, h.count, h.armed, h.ring⟩, fun hwhole => nomatch hwhole⟩
    rw [hup] at hup'
    exact nomatch hup'
  rw [if_neg hup]
  have hup' : t.oeUp = true := by simpa using hup
  have hbytes := h.bytes hup'
  by_cases hpending : t.oePending ≠ []
  · rw [if_pos hpending]
    refine ⟨⟨fun _ => ?_, h.count, fun _ => h.armed hpending, h.ring⟩, fun hwhole => nomatch hwhole⟩
    rw [hflatten, ← hbytes, List.append_assoc]
  rw [if_neg hpending]
  rw [not_not.mp hpending, List.append_nil] at hbytes
  have hpart : ∀ k ≤ bs.length, Exact login (frames ++ [bs])
      { ({ t with sends := t.sends + 1 } : Trader).took bs k with
        oePending := bs.drop k, wantWrite := true } := by
    intro k hk
    refine ⟨fun _ => ?_, count_took (t := { t with sends := t.sends + 1 }) h.count hk,
      fun _ => rfl, h.ring⟩
    change t.wire ++ bs.take k ++ bs.drop k = _
    rw [List.append_assoc, List.take_append_drop, hbytes, hflatten]
  dsimp only
  cases t.kernel t.sends with
  | accepted n =>
    by_cases hle : bs.length ≤ n
    · dsimp only
      rw [if_pos hle]
      refine ⟨⟨fun _ => ?_,
        count_took (t := { t with sends := t.sends + 1 }) h.count (Nat.le_refl _),
        fun hne => absurd hne hpending, h.ring⟩, fun _ => ⟨hup', not_not.mp hpending⟩⟩
      change t.wire ++ bs.take bs.length ++ t.oePending = _
      rw [List.take_length, not_not.mp hpending, List.append_nil, hbytes, hflatten]
    · dsimp only
      rw [if_neg hle]
      exact ⟨hpart n (Nat.le_of_not_le hle), fun hwhole => nomatch hwhole⟩
  | again => exact ⟨hpart 0 (Nat.zero_le _), fun hwhole => nomatch hwhole⟩
  | interrupted =>
    exact ⟨⟨fun hup' => (nomatch hup'), h.count, h.armed, h.ring⟩, fun hwhole => nomatch hwhole⟩
  | failed =>
    exact ⟨⟨fun hup' => (nomatch hup'), h.count, h.armed, h.ring⟩, fun hwhole => nomatch hwhole⟩

/-- **Flushing** moves pending bytes to the wire. -/
theorem Exact.flush (h : Exact login frames t) (fuel : ℕ) :
    Exact login frames (flushOePending fuel t) := by
  induction fuel generalizing t with
  | zero =>
    rw [flushOePending]
    split_ifs with hnil
    · exact ⟨h.bytes, h.count, fun hne => absurd hnil hne, h.ring⟩
    · exact h
  | succ fuel ih =>
    rw [flushOePending]
    split_ifs with hnil
    · exact ⟨h.bytes, h.count, fun hne => absurd hnil hne, h.ring⟩
    · dsimp only
      cases t.kernel t.sends with
      | accepted n =>
        apply ih
        have hk : min (max n 1) t.oePending.length ≤ t.oePending.length := Nat.min_le_right _ _
        refine ⟨fun hup => ?_, count_took (t := { t with sends := t.sends + 1 }) h.count hk,
          fun _ => h.armed hnil, h.ring⟩
        change t.wire ++ t.oePending.take _ ++ t.oePending.drop _ = _
        rw [List.append_assoc, List.take_append_drop]
        exact h.bytes hup
      | again => exact ⟨h.bytes, h.count, h.armed, h.ring⟩
      | interrupted => exact ⟨fun hup => (by cases hup), h.count, h.armed, h.ring⟩
      | failed => exact ⟨fun hup => (by cases hup), h.count, h.armed, h.ring⟩

theorem signalFrame_ne_nil (sig : Signal) : t.signalFrame sig ≠ [] := by
  unfold signalFrame orderFrame
  simp

/-- **An order** is sent, and a stamp that is recorded has the offset of its last byte. -/
theorem Exact.sendOrder (h : Exact login frames t) (sig : Signal) (bookDone : ℕ) :
    Exact login (frames ++ [t.signalFrame sig]) (t.sendOrder sig bookDone) ∧
      ((t.sendOrder sig bookDone).txHead ≠ t.txHead →
        ((t.sendOrder sig bookDone).txRing.getD (t.txHead % kTxRing) default).txId =
          ((login ++ (frames ++ [t.signalFrame sig]).flatten).length - 1) % 2 ^ 32) := by
  have hsend := Exact.oeSend
    (t := { t with
      nextUserRef := (t.nextUserRef + 1) % 2 ^ 32
      entered := t.entered ++ [t.enterOrder (t.liveOrder sig)] })
    ⟨h.bytes, h.count, h.armed, h.ring⟩ (t.signalFrame sig)
  have hhead := congrArg Trader.txHead (streams_oeSend
    { t with
      nextUserRef := (t.nextUserRef + 1) % 2 ^ 32
      entered := t.entered ++ [t.enterOrder (t.liveOrder sig)] } (t.signalFrame sig)).rest
  unfold Trader.sendOrder
  unfold signalFrame liveOrder at hsend hhead ⊢
  dsimp only at hhead ⊢
  generalize Trader.oeSend _ _ = p at hsend hhead ⊢
  obtain ⟨hexact, hwhole⟩ := hsend
  split
  · rename_i hrecord
    rw [Bool.and_eq_true] at hrecord
    obtain ⟨hup, hpending⟩ := hwhole hrecord.1
    refine ⟨⟨hexact.bytes, hexact.count, hexact.armed, ?_⟩, fun _ => ?_⟩
    · exact List.length_set.trans hexact.ring
    · have hlt : t.txHead % kTxRing < p.1.txRing.length := by
        rw [hexact.ring]
        exact Nat.mod_lt _ (by decide)
      have hbytes := hexact.bytes hup
      rw [hpending, List.append_nil] at hbytes
      have hpos : 0 < p.1.wire.length := by
        rw [hbytes, List.flatten_append, List.flatten_singleton, ← List.append_assoc,
          List.length_append]
        exact Nat.add_pos_right _ (List.length_pos_iff.mpr (signalFrame_ne_nil sig))
      dsimp only
      rw [hhead, List.getD_eq_getElem?_getD, List.getElem?_set_self hlt, Option.getD_some, ← hbytes,
        hexact.count]
      change (p.1.wire.length % 2 ^ 64 + 2 ^ 64 - 1) % 2 ^ 32 = (p.1.wire.length - 1) % 2 ^ 32
      omega
  · refine ⟨⟨hexact.bytes, hexact.count, hexact.armed, hexact.ring⟩, fun hne => ?_⟩
    exact absurd hhead hne

/-- **A run** keeps the stream exact. -/
theorem Exact.run {t₀ t' : Trader} (h : Exact login [] t₀) (hrun : OeRun t₀ frames t') :
    Exact login frames t' := by
  induction hrun with
  | start => exact h
  | send _ bs ih => exact (ih.oeSend bs).1
  | flush _ ih => exact ih.flush _
  | order _ sig bookDone ih => exact (ih.sendOrder sig bookDone).1
  | other _ hsame ih =>
    constructor
    · rw [hsame.wire, hsame.oePending]
      exact fun hup => ih.bytes (hsame.down hup)
    · rw [hsame.wire, hsame.streamBytes]
      exact ih.count
    · rw [hsame.oePending, hsame.wantWrite]
      exact ih.armed
    · rw [hsame.ring]
      exact ih.ring

/-! ## From the login on -/

/-- Before the order-entry session: nothing was sent. -/
structure Unsent (t : Trader) : Prop where
  wire : t.wire = []
  oePending : t.oePending = []
  streamBytes : t.streamBytes = 0
  ring : t.txRing.length = kTxRing

/-- Waiting for the answer changes the reader only. -/
theorem awaitLogin_rest (recvs : List (ArgOrder × RecvAnswer)) {t t' : Trader}
    (h : awaitLogin recvs t = some t') : ∃ reader, t' = { t with oeReader := reader } := by
  induction recvs generalizing t with
  | nil => exact nomatch h
  | cons recv recvs ih =>
    obtain ⟨order, answer⟩ := recv
    unfold awaitLogin at h
    cases answer with
    | data bs =>
      dsimp only at h
      split at h
      · exact nomatch h
      · split at h
        · split_ifs at h
          exact ⟨_, (Option.some.inj h).symm⟩
        · obtain ⟨reader, hreader⟩ := ih h
          exact ⟨reader, hreader⟩
    | closed | again | interrupted | failed => exact nomatch h

/-- **The login** is the beginning of the stream. -/
theorem exact_connect {t₀ : Trader} {recvs : List (ArgOrder × RecvAnswer)} (h : Unsent t)
    (hconnect : t.connectOrderEntry recvs = some t₀) :
    Exact (loginFrame t.cfg.user) [] t₀ ∧ t₀.oePending = [] ∧ t₀.oeUp = true ∧
      t₀.kernel = t.kernel := by
  unfold connectOrderEntry at hconnect
  generalize loginFrame t.cfg.user = login at hconnect ⊢
  obtain ⟨reader, rfl⟩ := awaitLogin_rest recvs hconnect
  have hzero : t.streamBytes = t.wire.length % 2 ^ 64 := by
    rw [h.streamBytes, h.wire]
    rfl
  have hcount := count_took hzero (Nat.le_refl login.length)
  refine ⟨⟨fun _ => ?_, hcount, fun hne => absurd h.oePending hne, h.ring⟩, h.oePending, rfl, rfl⟩
  change t.wire ++ login.take _ ++ t.oePending = _
  rw [h.wire, h.oePending, List.take_length, List.nil_append]
  rfl

/-- The process begins its session on an unsent stream, so the stream of every run behind its start
is exact. -/
theorem start_stream {cfg : TraderConfig} {clock : Clock} {kernel : ℕ → Session.Send}
    {reply : SnapshotReply} {recvs : List (ArgOrder × RecvAnswer)} {p : Process}
    (h : start cfg clock kernel reply recvs = some p) {t' : Trader}
    (hrun : OeRun p.trader frames t') : Exact (loginFrame cfg.user) frames t' := by
  refine Exact.run ?_ hrun
  unfold start at h
  split at h
  · exact nomatch h
  · rename_i t hnew
    dsimp only at h
    split_ifs at h
    obtain ⟨t₀, hconnect, rfl⟩ := Option.map_eq_some_iff.mp h
    obtain ⟨book, orders, -, -, rfl⟩ := new_eq_some hnew
    rw [refreshes_snapshot _ reply] at hconnect
    have hexact := (exact_connect ⟨rfl, rfl, rfl, List.length_replicate⟩ hconnect).1
    exact ⟨hexact.bytes, hexact.count, hexact.armed, hexact.ring⟩

/-- **The order-entry stream**: in every run of the session, while it is up. -/
theorem stream_exact {t₀ t' : Trader} {recvs : List (ArgOrder × RecvAnswer)} (h : Unsent t)
    (hconnect : t.connectOrderEntry recvs = some t₀) (hrun : OeRun t₀ frames t')
    (hup : t'.oeUp = true) :
    t'.wire ++ t'.oePending = loginFrame t.cfg.user ++ frames.flatten ∧
      t'.streamBytes = t'.wire.length % 2 ^ 64 ∧
      (t'.oePending ≠ [] → t'.wantWrite = true) ∧
      ∀ sig bookDone, (t'.sendOrder sig bookDone).txHead ≠ t'.txHead →
        ((t'.sendOrder sig bookDone).txRing.getD (t'.txHead % kTxRing) default).txId =
          ((loginFrame t.cfg.user ++ (frames ++ [t'.signalFrame sig]).flatten).length - 1) %
            2 ^ 32 := by
  have hexact := (exact_connect h hconnect).1.run hrun
  exact ⟨hexact.bytes hup, hexact.count, hexact.armed,
    fun sig bookDone => (hexact.sendOrder sig bookDone).2⟩

/-! ## The counter comes round -/

/-- A frame that the kernel takes at once. -/
theorem oeSend_whole {bs : Bytes} {n : ℕ} (hup : t.oeUp = true) (hpending : t.oePending = [])
    (hkernel : t.kernel = fun _ => .accepted n) (hlen : bs.length ≤ n) :
    (t.oeSend bs).1.oeUp = true ∧ (t.oeSend bs).1.oePending = [] ∧
      (t.oeSend bs).1.kernel = t.kernel := by
  have hanswer : t.kernel t.sends = .accepted n := by rw [hkernel]
  unfold Trader.oeSend
  rw [if_neg (by simp [hup]), if_neg (not_not_intro hpending)]
  dsimp only
  rw [hanswer]
  dsimp only
  rw [if_pos hlen]
  exact ⟨hup, hpending, rfl⟩

/-- A kernel that takes one byte at a time takes any number of them. -/
theorem sends_whole {t₀ : Trader} (hup : t₀.oeUp = true) (hpending : t₀.oePending = [])
    (hkernel : t₀.kernel = fun _ => .accepted 1) (m : ℕ) :
    ∃ t', OeRun t₀ (List.replicate m [0]) t' ∧ t'.oeUp = true ∧ t'.oePending = [] ∧
      t'.kernel = fun _ => .accepted 1 := by
  induction m with
  | zero => exact ⟨t₀, .start, hup, hpending, hkernel⟩
  | succ m ih =>
    obtain ⟨t, hrun, hup, hpending, hkernel⟩ := ih
    obtain ⟨hup', hpending', hkernel'⟩ :=
      oeSend_whole hup hpending hkernel (show ([0] : Bytes).length ≤ 1 from le_rfl)
    refine ⟨(t.oeSend [0]).1, ?_, hup', hpending', hkernel'.trans hkernel⟩
    rw [List.replicate_succ']
    exact hrun.send [0]

/-- The login reply of one `recv`. -/
def accepted : List (ArgOrder × RecvAnswer) := [(.ptrFirst, .data [0, 1, 65])]

/-- A connection whose login the kernel takes whole. -/
theorem connect_accepted (h : t.oeReader = {}) :
    t.connectOrderEntry accepted =
      some ({ t.took (loginFrame t.cfg.user) (loginFrame t.cfg.user).length with
        oeUp := true
        txTs := t.cfg.txTimestamps
        lastOeTx := t.nowNs } : Trader).tick := by
  cases t
  cases h
  rfl

/-- A trader whose login was accepted, on a kernel. -/
theorem exists_connected (kernel : ℕ → Session.Send) : ∃ t t₀ : Trader, Unsent t ∧
    t.connectOrderEntry accepted = some t₀ ∧ t₀.kernel = kernel ∧ t₀.sends = 0 := by
  obtain ⟨t, hnew⟩ := new_isSome { symbol := [], user := [] }
    { realtime := fun _ => 0, monotonic := fun _ => 0 } kernel
  have hfresh : Unsent t ∧ t.oeReader = {} ∧ t.kernel = kernel ∧ t.sends = 0 := by
    obtain ⟨book, orders, -, -, rfl⟩ := new_eq_some hnew
    exact ⟨⟨rfl, rfl, rfl, List.length_replicate⟩, rfl, rfl, rfl⟩
  exact ⟨t, _, hfresh.1, connect_accepted hfresh.2.1, hfresh.2.2.1, hfresh.2.2.2⟩

/-- Behind 2⁶⁴ bytes the counter is not their number. -/
theorem stream_bytes_wrap :
    ∃ t t₀ t' frames, Unsent t ∧ t.connectOrderEntry accepted = some t₀ ∧ OeRun t₀ frames t' ∧
      t'.oeUp = true ∧ t'.streamBytes ≠ t'.wire.length := by
  obtain ⟨t, t₀, hunsent, hconnect, hkernel, -⟩ := exists_connected fun _ => .accepted 1
  obtain ⟨hexact, hpending, hup, -⟩ := exact_connect hunsent hconnect
  obtain ⟨t', hrun, hup', hpending', -⟩ := sends_whole hup hpending hkernel (2 ^ 64)
  refine ⟨t, t₀, t', _, hunsent, hconnect, hrun, hup', ?_⟩
  have hexact' := hexact.run hrun
  have hbytes := congrArg List.length (hexact'.bytes hup')
  rw [hpending', List.append_nil, List.length_append, List.length_flatten, List.map_replicate,
    List.sum_replicate, List.length_singleton, smul_eq_mul, Nat.mul_one] at hbytes
  have hlt : t'.streamBytes < 2 ^ 64 := by
    rw [hexact'.count]
    exact Nat.mod_lt _ (by norm_num)
  omega

/-! ## A partial send -/

/-- A frame that the kernel takes in part. -/
theorem oeSend_part {bs : Bytes} {n : ℕ} (hup : t.oeUp = true) (hpending : t.oePending = [])
    (hkernel : t.kernel t.sends = .accepted n) (hlen : n < bs.length) :
    (t.oeSend bs).1 =
      { ({ t with sends := t.sends + 1 } : Trader).took bs n with
        oePending := bs.drop n, wantWrite := true } := by
  unfold Trader.oeSend
  rw [if_neg (by simp [hup]), if_neg (not_not_intro hpending)]
  dsimp only
  rw [hkernel]
  dsimp only
  rw [if_neg (Nat.not_le.mpr hlen)]

/-- A frame behind pending bytes. -/
theorem oeSend_behind {bs : Bytes} (hup : t.oeUp = true) (hpending : t.oePending ≠ []) :
    (t.oeSend bs).1 = { t with oePending := t.oePending ++ bs } := by
  unfold Trader.oeSend
  rw [if_neg (by simp [hup]), if_pos hpending]

/-- The kernel takes one byte, then three, then none. -/
def partialKernel (n : ℕ) : Session.Send :=
  if n = 0 then .accepted 1 else if n = 1 then .accepted 3 else .again

/-- The flush of four bytes takes three. -/
theorem flush_partial (hkernel : t.kernel = partialKernel) (hsends : t.sends = 1)
    (hpending : t.oePending = [2, 3, 4, 5]) :
    (flushOePending 4 t).oeUp = t.oeUp ∧ (flushOePending 4 t).oePending = [5] := by
  cases t
  cases hkernel
  cases hsends
  cases hpending
  exact ⟨rfl, rfl⟩

/-- **Two frames and a flush**: of the first frame one byte is taken, the second one is pending
behind the rest, and the flush leaves a byte. -/
theorem stream_exact_partial :
    ∃ t t₀ t' : Trader, Unsent t ∧ t.connectOrderEntry accepted = some t₀ ∧
      OeRun t₀ [[1, 2, 3], [4, 5]] t' ∧ t'.oeUp = true ∧ t'.oePending = [5] ∧
      t'.wire ++ t'.oePending = loginFrame t.cfg.user ++ [1, 2, 3, 4, 5] ∧
      t'.wantWrite = true := by
  obtain ⟨t, t₀, hunsent, hconnect, hkernel, hsends⟩ := exists_connected partialKernel
  obtain ⟨-, hpending, hup, -⟩ := exact_connect hunsent hconnect
  have hfirst := @oeSend_part t₀ [1, 2, 3] 1 hup hpending (by rw [hkernel, hsends]; rfl) (by decide)
  have hsecond := @oeSend_behind (t₀.oeSend [1, 2, 3]).1 [4, 5] (by rw [hfirst]; exact hup)
    (by rw [hfirst]; exact List.cons_ne_nil _ _)
  have hrun : OeRun t₀ [[1, 2, 3], [4, 5]] _ :=
    ((OeRun.start.send [1, 2, 3]).send [4, 5]).flush
  rw [hsecond, hfirst] at hrun
  obtain ⟨hup', hleft⟩ := flush_partial
    (t := { ({ t₀ with sends := t₀.sends + 1 } : Trader).took [1, 2, 3] 1 with
      oePending := [2, 3, 4, 5], wantWrite := true })
    hkernel (congrArg (· + 1) hsends) rfl
  have hexact := stream_exact hunsent hconnect hrun (hup'.trans hup)
  exact ⟨t, t₀, _, hunsent, hconnect, hrun, hup'.trans hup, hleft, hexact.1,
    hexact.2.2.1 fun hnil => List.cons_ne_nil _ _ (hleft.symm.trans hnil)⟩

end PulseForge.Trader
