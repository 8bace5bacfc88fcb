import PulseForge.Analysis.FrameReassembly
import PulseForge.Analysis.TraderMoves

/-!
# The room behind `recv`

`recv(fd, r.write_ptr(), r.write_space(), 0)` leaves open which argument is evaluated first.
`write_ptr()` may slide the buffer, so the two do not commute: a `recv` that fills the buffer
to its last byte in the middle of a frame leaves no space to an evaluation that reads
`write_space()` first. The loop of `snapshot()` also goes on behind an illegal length, where
nothing is taken off the buffer any more. These are the only ways to ask for nothing.
-/

set_option autoImplicit false

namespace PulseForge

open Foundation Soup

/-! ## The indices of a reader -/

namespace Soup.FrameReader

variable {r r' : FrameReader}

/-- The write index is in the buffer, and a buffer that is drained starts over. -/
structure Inside (r : FrameReader) : Prop where
  wr_le : r.wr ≤ kBufSize
  start : r.data = [] → r.rd = 0

/-- A new reader has read nothing. -/
theorem inside_new : ({} : FrameReader).Inside := ⟨Nat.zero_le _, fun _ => rfl⟩

/-- `write_ptr` keeps the unparsed bytes. -/
theorem writePtr_data (r : FrameReader) : r.writePtr.data = r.data := by
  unfold writePtr
  split <;> rfl

/-- `write_ptr` keeps the indices inside. -/
theorem Inside.writePtr (h : r.Inside) : r.writePtr.Inside := by
  have hwr := h.wr_le
  unfold FrameReader.writePtr
  split
  · refine ⟨?_, fun _ => rfl⟩
    simp only [wr] at hwr ⊢
    omega
  · exact h

/-- Sliding only makes room. -/
theorem writeSpace_le (r : FrameReader) : r.writeSpace ≤ r.writePtr.writeSpace := by
  unfold FrameReader.writePtr
  split
  · simp only [writeSpace, wr]
    omega
  · exact le_rfl

/-- Either order of the arguments leaves the length inside the buffer. -/
theorem len_le (order : ArgOrder) (r : FrameReader) : order.len r ≤ r.writePtr.writeSpace := by
  cases order with
  | ptrFirst => exact le_rfl
  | spaceFirst => exact writeSpace_le r

/-- A chunk that fits keeps the indices inside. -/
theorem Inside.commit (h : r.Inside) {chunk : Bytes} (hne : chunk ≠ [])
    (hfit : chunk.length ≤ r.writeSpace) : (r.commit chunk).Inside := by
  have hwr := h.wr_le
  refine ⟨?_, fun hnil => absurd (List.append_eq_nil_iff.mp hnil).2 hne⟩
  simp only [FrameReader.commit, wr, writeSpace, List.length_append] at *
  omega

/-- What a `recv` of at most `len` bytes leaves. -/
theorem Inside.receive (h : r.Inside) {order : ArgOrder} {bs : Bytes} {b : UInt8} {chunk : Bytes}
    (hchunk : bs.take (order.len r) = b :: chunk) : (r.writePtr.commit (b :: chunk)).Inside := by
  apply h.writePtr.commit (List.cons_ne_nil b chunk)
  have hlen := len_le order r
  have htake := List.length_take_le (order.len r) bs
  rw [hchunk] at htake
  exact le_trans htake hlen

/-- `next` keeps the indices inside. -/
theorem Inside.next (h : r.Inside) : r.next.2.Inside := by
  have hwr := h.wr_le
  unfold FrameReader.next
  split
  · exact h
  · dsimp only
    split
    · exact h
    · split
      · exact h
      · next hlt _ hmore =>
        refine ⟨?_, fun hnil => if_pos hnil⟩
        simp only [wr] at hwr ⊢
        split
        · next hnil =>
          rw [hnil]
          simp
        · rw [List.length_drop]
          omega

/-- The front of the bytes decides what `next` answers. -/
theorem next_cases (r : FrameReader) :
    (∃ f, r.next.1 = .frame f ∧ frontFrame r.data = .item f r.next.2.data) ∨
      (r.next = (.needMore, r) ∧ frontFrame r.data = .more) ∨
      (r.next = (.error, r) ∧ frontFrame r.data = .bad) := by
  rw [FrameReader.next_eq]
  cases hfront : frontFrame r.data with
  | item f rest => exact .inl ⟨f, rfl, rfl⟩
  | more => exact .inr (.inl ⟨rfl, rfl⟩)
  | bad => exact .inr (.inr ⟨rfl, rfl⟩)

/-- A buffer that is full of unparsed bytes begins with an illegal length. -/
def Drained (r : FrameReader) : Prop := r.data.length = kBufSize → frontFrame r.data = .bad

/-- A reader that waits for more has no frame left. -/
theorem drained_of_more (h : frontFrame r.data = .more) : r.Drained := by
  intro hfull
  have hlt := length_lt_of_more h
  rw [hfull] at hlt
  exact absurd hlt (by decide)

end Soup.FrameReader

/-! ## The calls -/

/-- **No room**: `write_space()` is read first, behind a `recv` that filled the buffer to its
last byte and left part of it unparsed; or the whole buffer is unparsed, behind an illegal
length. -/
def RecvCall.Blocked (c : RecvCall) : Prop :=
  match c.order with
  | .ptrFirst => frontFrame c.reader.data = .bad ∧ c.reader.data.length = FrameReader.kBufSize
  | .spaceFirst => c.reader.data ≠ [] ∧ c.reader.wr = FrameReader.kBufSize

/-- A call asks for nothing exactly when it is blocked; with `write_ptr()` first and a legal
length at the front it never does. -/
structure RecvCall.Exact (c : RecvCall) : Prop where
  iff : c.len = 0 ↔ c.Blocked
  ptrFirst : c.order = .ptrFirst → frontFrame c.reader.data ≠ .bad → 0 < c.len

/-- Behind drained frames, the length is what is free. -/
theorem exact_of_drained {r : FrameReader} (h : r.Inside) (hd : r.Drained) (order : ArgOrder) :
    RecvCall.Exact ⟨order, r, order.len r⟩ := by
  have hwr := h.wr_le
  have hsize : FrameReader.kBufSize = 65536 := rfl
  have hmax : kMaxFrame + kFrameHeaderLen = 1027 := rfl
  have hptr : r.writePtr.writeSpace = 0 ↔ r.data.length = FrameReader.kBufSize := by
    unfold FrameReader.writePtr
    split
    · next hslide =>
      have hrd := hslide.2
      simp only [FrameReader.writeSpace, FrameReader.wr] at hwr ⊢
      omega
    · next hslide =>
      simp only [FrameReader.writeSpace, FrameReader.wr] at hwr hslide ⊢
      omega
  cases order with
  | ptrFirst =>
    have hiff : r.writePtr.writeSpace = 0 ↔
        frontFrame r.data = .bad ∧ r.data.length = FrameReader.kBufSize :=
      hptr.trans ⟨fun hfull => ⟨hd hfull, hfull⟩, And.right⟩
    exact ⟨hiff, fun _ hgood => Nat.pos_of_ne_zero fun h0 => hgood (hiff.mp h0).1⟩
  | spaceFirst =>
    refine ⟨?_, fun horder => nomatch horder⟩
    show FrameReader.kBufSize - r.wr = 0 ↔ r.data ≠ [] ∧ r.wr = FrameReader.kBufSize
    constructor
    · intro h0
      have hfull : r.wr = FrameReader.kBufSize := by omega
      refine ⟨fun hnil => ?_, hfull⟩
      -- a drained buffer has both indices at zero
      have hrd := h.start hnil
      rw [FrameReader.wr, hrd, hnil] at hfull
      exact absurd hfull (by decide)
    · intro hfull
      omega

/-! ## The loop of `snapshot()` -/

namespace Trader

/-- The reader of the loop. -/
structure Pull.Reads (p : Pull) : Prop where
  inside : p.reader.Inside
  drained : p.refused = false → p.reader.Drained

/-- A frame of a snapshot touches neither the reader nor the record. -/
theorem Pull.onFrame_reads (p : Pull) (f : Soup.Frame) :
    (p.onFrame f).reader = p.reader ∧ (p.onFrame f).trader.recvs = p.trader.recvs := by
  unfold Pull.onFrame
  split
  · exact ⟨rfl, rfl⟩
  · split
    · exact ⟨rfl, rfl⟩
    · split
      · exact ⟨rfl, rfl⟩
      · next msg _ =>
        unfold Pull.onMessage
        cases msg with
        | stockDirectory | addOrder =>
          dsimp only
          split <;> exact ⟨rfl, rfl⟩
        | endOfSnapshot | systemEvent | orderExecuted | orderCancel | orderDelete => exact ⟨rfl, rfl⟩

/-- **The inner loop** stops where there is no frame. -/
theorem Pull.reads_drain {fuel : ℕ} {p : Pull} (h : p.reader.Inside)
    (hfuel : p.reader.data.length ≤ fuel) : (Pull.drain fuel p).Reads := by
  induction fuel generalizing p with
  | zero =>
    have hnil : p.reader.data = [] := List.eq_nil_of_length_eq_zero (by omega)
    refine ⟨h, fun _ => FrameReader.drained_of_more ?_⟩
    rw [show (Pull.drain 0 p).reader = p.reader from rfl, hnil]
    rfl
  | succ fuel ih =>
    have hin := h.next
    rw [Pull.drain]
    rcases p.reader.next_cases with ⟨f, hst, hfront⟩ | ⟨hnext, hfront⟩ | ⟨hnext, hfront⟩
    · generalize p.reader.next = q at hst hfront hin ⊢
      obtain ⟨st, reader⟩ := q
      change st = _ at hst
      subst hst
      have hreader := (Pull.onFrame_reads { p with reader := reader } f).1
      dsimp only
      split
      · next hrefused =>
        refine ⟨by rw [hreader]; exact hin, fun hok => ?_⟩
        rw [hrefused] at hok
        exact absurd hok (by decide)
      · apply ih
        · rw [hreader]
          exact hin
        · have hlt := incremental_frontFrame.shrinks hfront
          rw [hreader]
          simp only at hlt ⊢
          omega
    · rw [hnext]
      exact ⟨h, fun _ => FrameReader.drained_of_more hfront⟩
    · rw [hnext]
      exact ⟨h, fun _ _ => hfront⟩

/-- The calls that a step adds are exact. -/
def Calls (t t' : Trader) : Prop :=
  ∃ calls, t'.recvs = t.recvs ++ calls ∧ ∀ c ∈ calls, RecvCall.Exact c

/-- No call was made. -/
theorem Calls.of_eq {t t' : Trader} (h : t'.recvs = t.recvs) : Calls t t' :=
  ⟨[], by rw [h, List.append_nil], fun _ hc => absurd hc List.not_mem_nil⟩

theorem Calls.trans {t t' t'' : Trader} (h : Calls t t') (h' : Calls t' t'') : Calls t t'' := by
  obtain ⟨cs, hcs, hexact⟩ := h
  obtain ⟨ds, hds, hexact'⟩ := h'
  refine ⟨cs ++ ds, by rw [hds, hcs, List.append_assoc], fun c hc => ?_⟩
  rcases List.mem_append.mp hc with hc | hc
  · exact hexact c hc
  · exact hexact' c hc

/-- One call. -/
theorem Calls.one {t t' : Trader} {c : RecvCall} (h : t'.recvs = t.recvs ++ [c]) (hc : c.Exact) :
    Calls t t' :=
  ⟨[c], h, fun d hd => by rwa [List.mem_singleton.mp hd]⟩

/-- Draining the frames calls nothing. -/
theorem Pull.recvs_drain (fuel : ℕ) (p : Pull) :
    (Pull.drain fuel p).trader.recvs = p.trader.recvs := by
  induction fuel generalizing p with
  | zero => rfl
  | succ fuel ih =>
    rw [Pull.drain]
    split
    · next f reader _ =>
      have hframe := (Pull.onFrame_reads { p with reader := reader } f).2
      dsimp only
      split
      · exact hframe
      · rw [ih]
        exact hframe
    · rfl

/-- **The outer loop.** -/
theorem Pull.calls_loop (recvs : List (ArgOrder × RecvAnswer)) {p : Pull} (h : p.Reads) :
    Calls p.trader (Pull.loop recvs p).trader := by
  induction recvs generalizing p with
  | nil =>
    rw [Pull.loop]
    split <;> exact .of_eq rfl
  | cons recv recvs ih =>
    obtain ⟨order, answer⟩ := recv
    rw [Pull.loop]
    split
    · exact .of_eq rfl
    · next hgo =>
      have hrefused : p.refused = false := by
        cases hr : p.refused with
        | false => rfl
        | true => exact absurd (by rw [hr, Bool.or_true]) hgo
      have hexact := exact_of_drained h.inside (h.drained hrefused) order
      dsimp only
      split
      · split
        · exact .one rfl hexact
        · next b chunk hchunk =>
          have hin := h.inside.receive hchunk
          refine Calls.trans ?_ (ih (Pull.reads_drain hin le_rfl))
          refine .one ?_ hexact
          rw [Pull.recvs_drain]
      all_goals exact .one rfl hexact

/-- The calls of `snapshot()` have exact lengths. -/
theorem calls_snapshot (t : Trader) (reply : SnapshotReply) : Calls t (t.snapshot reply) := by
  unfold snapshot
  split
  · exact .of_eq rfl
  · have hreads : Pull.Reads { trader := { t with book := t.book.clear, locate := 0 } } :=
      ⟨FrameReader.inside_new, fun _ => FrameReader.drained_of_more rfl⟩
    have hcalls := Pull.calls_loop reply.recvs hreads
    dsimp only
    split
    · exact hcalls
    · exact hcalls

/-! ## Moves that do not read the order-entry socket -/

variable {t t' t'' : Trader}

/-- **The order-entry reader is left alone.** -/
structure Quiet (t t' : Trader) : Prop where
  reader : t'.oeReader = t.oeReader
  stop : t.stop = true → t'.stop = true
  down : t'.oeUp = true → t.oeUp = true
  calls : Calls t t'

theorem Quiet.refl (t : Trader) : Quiet t t := ⟨rfl, id, id, .of_eq rfl⟩

theorem Quiet.trans (h : Quiet t t') (h' : Quiet t' t'') : Quiet t t'' :=
  ⟨h'.reader.trans h.reader, fun hs => h'.stop (h.stop hs), fun hu => h.down (h'.down hu),
    h.calls.trans h'.calls⟩

theorem Streams.quiet (h : Streams t t') : Quiet t t' :=
  ⟨h.oeReader, fun hs => by rw [h.stop, hs], h.down, .of_eq h.recvs⟩

theorem Fed.quiet (h : Fed t t') : Quiet t t' := by
  have hrest := h.rest
  refine ⟨by rw [hrest], fun hs => by rw [hrest]; exact hs, fun hu => ?_, .of_eq (by rw [hrest])⟩
  rw [hrest] at hu
  exact hu

/-- A snapshot is quiet. -/
theorem quiet_snapshot (t : Trader) (reply : SnapshotReply) : Quiet t (t.snapshot reply) := by
  have h := refreshes_snapshot t reply
  unfold Refreshes at h
  refine ⟨by rw [h], fun hs => by rw [h]; exact hs, fun hu => ?_, calls_snapshot t reply⟩
  rw [h] at hu
  exact hu

theorem quiet_sendOrder (t : Trader) (sig : Signal) (bookDone : ℕ) :
    Quiet t (t.sendOrder sig bookDone) := by
  obtain ⟨t₁, txRing, txHead, hstream, heq⟩ := t.sendOrder_eq sig bookDone
  obtain ⟨hreader, hstop, hdown, hcalls⟩ := hstream.quiet
  rw [heq]
  exact ⟨hreader, hstop, hdown, hcalls⟩

/-- Every move that reads nothing is quiet. -/
theorem Move.quiet (h : Move t t') : Quiet t t' := by
  cases h with
  | streams h => exact h.quiet
  | fed h => exact h.quiet
  | snapshot reply => exact quiet_snapshot t reply
  | stopped => exact ⟨rfl, fun _ => rfl, id, .of_eq rfl⟩
  | traded _ _ _ =>
    refine Quiet.trans ?_ (quiet_sendOrder _ _ _)
    exact ⟨rfl, id, id, .of_eq rfl⟩

/-- So are several. -/
theorem Moves.quiet (h : Moves t t') : Quiet t t' := by
  induction h with
  | refl => exact .refl t
  | tail _ hmove ih => exact ih.trans hmove.quiet

/-! ## The loop of `read_oe` -/

/-- The reader between two calls of `read_oe`: there is room once `write_ptr()` was called. -/
structure OeFine (t : Trader) : Prop where
  inside : t.oeReader.Inside
  room : t.oeReader.data.length < FrameReader.kBufSize

/-- A quiet step keeps the session fine. -/
theorem OeFine.quiet (h : OeFine t) (hq : Quiet t t') : OeFine t' :=
  ⟨by rw [hq.reader]; exact h.inside, by rw [hq.reader]; exact h.room⟩

/-- A session that is fine has drained its frames. -/
theorem OeFine.drained (h : OeFine t) : t.oeReader.Drained := by
  intro hfull
  have hroom := h.room
  omega

/-- Handling a frame reads nothing. -/
theorem handleOeFrame_reads (t : Trader) (f : Soup.Frame) :
    (t.handleOeFrame f).oeReader = t.oeReader ∧ (t.handleOeFrame f).recvs = t.recvs := by
  unfold handleOeFrame
  split
  · split
    · exact ⟨rfl, rfl⟩
    · next m _ =>
      have hrest := t.onReport_rest m
      exact ⟨by rw [hrest], by rw [hrest]⟩
  · split
    · exact ⟨rfl, rfl⟩
    · exact ⟨rfl, rfl⟩

/-- **The inner loop** ends in the middle of a frame, or with an error. -/
theorem drainOe_reads {fuel : ℕ} {t : Trader} (h : t.oeReader.Inside)
    (hfuel : t.oeReader.data.length ≤ fuel) :
    (drainOe fuel t).1.recvs = t.recvs ∧
      ((drainOe fuel t).2 = .error ∨ OeFine (drainOe fuel t).1) := by
  have hmore : ∀ {t : Trader}, t.oeReader.Inside → frontFrame t.oeReader.data = .more → OeFine t := by
    intro t h hfront
    refine ⟨h, lt_trans (length_lt_of_more hfront) ?_⟩
    decide
  induction fuel generalizing t with
  | zero =>
    have hnil : t.oeReader.data = [] := List.eq_nil_of_length_eq_zero (by omega)
    exact ⟨rfl, .inr (hmore h (by rw [show (drainOe 0 t).1 = t from rfl, hnil]; rfl))⟩
  | succ fuel ih =>
    have hin := h.next
    rw [drainOe]
    rcases t.oeReader.next_cases with ⟨f, hst, hfront⟩ | ⟨hnext, hfront⟩ | ⟨hnext, hfront⟩
    · generalize t.oeReader.next = q at hst hfront hin ⊢
      obtain ⟨st, reader⟩ := q
      change st = _ at hst
      subst hst
      obtain ⟨hreader, hrecvs⟩ := handleOeFrame_reads { t with oeReader := reader } f
      have hlt := incremental_frontFrame.shrinks hfront
      dsimp only at hlt ⊢
      obtain ⟨hcalls, hend⟩ := @ih ({ t with oeReader := reader }.handleOeFrame f)
        (by rw [hreader]; exact hin) (by rw [hreader]; simp only; omega)
      exact ⟨hcalls.trans hrecvs, hend⟩
    · rw [hnext]
      exact ⟨rfl, .inr (hmore h hfront)⟩
    · rw [hnext]
      exact ⟨rfl, .inl rfl⟩

/-- The connection is given up: neither loop of `run` pumps again. -/
def Lost (t : Trader) : Prop := t.stop = true ∧ t.oeUp = false

/-- A session that is down stays down. -/
theorem Quiet.down_eq (h : Quiet t t') (hdown : t.oeUp = false) : t'.oeUp = false := by
  cases hup : t'.oeUp with
  | false => rfl
  | true => exact absurd (h.down hup) (by rw [hdown]; decide)

/-- **`read_oe`.** -/
theorem readOe_reads (recvs : List (ArgOrder × RecvAnswer)) {t : Trader} (h : OeFine t) :
    Calls t (readOe recvs t) ∧ (OeFine (readOe recvs t) ∨ Lost (readOe recvs t)) := by
  induction recvs generalizing t with
  | nil => exact ⟨.of_eq rfl, .inl h⟩
  | cons recv recvs ih =>
    obtain ⟨order, answer⟩ := recv
    have hexact := exact_of_drained h.inside h.drained order
    have hptr : OeFine
        { t with
          recvs := t.recvs ++ [⟨order, t.oeReader, order.len t.oeReader⟩]
          oeReader := t.oeReader.writePtr } :=
      ⟨h.inside.writePtr, by rw [FrameReader.writePtr_data]; exact h.room⟩
    have hcall : Calls t
        { t with
          recvs := t.recvs ++ [⟨order, t.oeReader, order.len t.oeReader⟩]
          oeReader := t.oeReader.writePtr } := .one rfl hexact
    have hlost : ∀ {t' : Trader}, Calls t t' → Calls t t'.oeLost ∧ (OeFine t'.oeLost ∨ Lost t'.oeLost) :=
      fun hc => ⟨hc, .inr ⟨rfl, rfl⟩⟩
    cases answer with
    | data bs =>
      unfold readOe
      dsimp only
      split
      · exact hlost hcall
      · next b chunk hchunk =>
        have hin := h.inside.receive hchunk
        have hdrain := @drainOe_reads (t.oeReader.writePtr.commit (b :: chunk)).data.length
          { t with
            recvs := t.recvs ++ [⟨order, t.oeReader, order.len t.oeReader⟩]
            oeReader := t.oeReader.writePtr.commit (b :: chunk) } hin le_rfl
        obtain ⟨hsame, hend⟩ := hdrain
        split
        · next t₁ heq =>
          rw [heq] at hsame
          exact hlost (.one hsame hexact)
        · next t₁ st hne heq =>
          rw [heq] at hsame hend
          have hfine : OeFine t₁ := hend.resolve_left fun herr => hne herr
          obtain ⟨hcalls, hdone⟩ := ih hfine
          exact ⟨Calls.trans (.one hsame hexact) hcalls, hdone⟩
    | interrupted =>
      obtain ⟨hcalls, hend⟩ := ih hptr
      exact ⟨hcall.trans hcalls, hend⟩
    | again => exact ⟨hcall, .inl hptr⟩
    | closed => exact hlost hcall
    | failed => exact hlost hcall

/-! ## Batches -/

/-- An event of the session calls with exact lengths. -/
theorem onOeEvent_reads (h : OeFine t) (stamps : List ℕ) (error out : Bool)
    (recvs : Option (List (ArgOrder × RecvAnswer))) :
    Calls t (t.onOeEvent stamps error out recvs) ∧
      (OeFine (t.onOeEvent stamps error out recvs) ∨ Lost (t.onOeEvent stamps error out recvs)) := by
  unfold onOeEvent
  dsimp only
  have hstamps : Quiet t (stamps.foldl onTxStamp t) := (Streams.foldl streams_onTxStamp stamps t).quiet
  split
  · exact ⟨hstamps.calls, .inr ⟨rfl, rfl⟩⟩
  · have hflush : Quiet t (if out = true then
        flushOePending (stamps.foldl onTxStamp t).oePending.length (stamps.foldl onTxStamp t)
        else stamps.foldl onTxStamp t) := by
      split
      · exact hstamps.trans (streams_flushOePending _ _).quiet
      · exact hstamps
    generalize (if out = true then _ else _) = t₁ at hflush ⊢
    cases recvs with
    | none => exact ⟨hflush.calls, .inl (h.quiet hflush)⟩
    | some recvs =>
      obtain ⟨hcalls, hend⟩ := readOe_reads recvs (h.quiet hflush)
      exact ⟨hflush.calls.trans hcalls, hend⟩

/-- Every other event leaves the reader alone. -/
theorem handle_quiet {e : Ready} (h : e.tag ≠ 2) (t : Trader) : Quiet t (t.handle e) := by
  cases e with
  | md packets =>
    refine Moves.quiet (moves_foldl ?_ packets t)
    rintro t ⟨pkt, reply⟩
    exact handlePacket_moves t pkt reply
  | oe stamps error out recvs => exact absurd rfl h
  | timer reply => exact (onTimer_moves t reply).quiet
  | signal => exact ⟨rfl, fun _ => rfl, id, .of_eq rfl⟩

/-- The other events are quiet. -/
theorem handles_quiet {events : List Ready} (h : 2 ∉ events.map Ready.tag) (t : Trader) :
    Quiet t (events.foldl handle t) := by
  induction events generalizing t with
  | nil => exact .refl t
  | cons e events ih =>
    rw [List.map_cons, List.mem_cons, not_or] at h
    exact (handle_quiet (fun htag => h.1 htag.symm) t).trans (ih h.2 _)

/-- **One batch**: the order-entry socket is read at most once. -/
theorem pump_reads (h : OeFine t) (batch : Batch) :
    Calls t (t.pump batch) ∧ (OeFine (t.pump batch) ∨ Lost (t.pump batch)) := by
  obtain ⟨events, hnodup⟩ := batch
  unfold pump
  dsimp only
  induction events generalizing t with
  | nil => exact ⟨.of_eq rfl, .inl h⟩
  | cons e events ih =>
    obtain ⟨hfresh, hrest⟩ := List.nodup_cons.mp hnodup
    rw [List.foldl_cons]
    by_cases htag : e.tag = 2
    · cases e with
      | oe stamps error out recvs =>
        obtain ⟨hcalls, hend⟩ := onOeEvent_reads h stamps error out recvs
        have hquiet := handles_quiet hfresh (t.onOeEvent stamps error out recvs)
        refine ⟨hcalls.trans hquiet.calls, ?_⟩
        rcases hend with hfine | hlost
        · exact .inl (hfine.quiet hquiet)
        · exact .inr ⟨hquiet.stop hlost.1, hquiet.down_eq hlost.2⟩
      | md | timer | signal => exact nomatch htag
    · have hquiet := handle_quiet htag t
      obtain ⟨hcalls, hend⟩ := ih (h.quiet hquiet) hrest
      exact ⟨hquiet.calls.trans hcalls, hend⟩

/-! ## The process -/

/-- **What holds between rounds**: every call so far is exact, and a loop that reads the socket
again has a reader with room. -/
structure Process.Reads (p : Process) : Prop where
  calls : ∀ c ∈ p.trader.recvs, RecvCall.Exact c
  running : p.phase = .running → OeFine p.trader ∨ Lost p.trader
  winding : p.phase = .winding → OeFine p.trader ∨ p.trader.oeUp = false

/-- Calls with exact lengths, behind others. -/
theorem Calls.all (h : Calls t t') (hall : ∀ c ∈ t.recvs, RecvCall.Exact c) :
    ∀ c ∈ t'.recvs, RecvCall.Exact c := by
  obtain ⟨calls, hrecvs, hexact⟩ := h
  intro c hc
  rw [hrecvs] at hc
  rcases List.mem_append.mp hc with hc | hc
  · exact hall c hc
  · exact hexact c hc

/-- **One round.** -/
theorem Process.Reads.step {p : Process} (h : p.Reads) (batch : Batch) : (p.step batch).Reads := by
  unfold Process.step
  cases hphase : p.phase with
  | running =>
    dsimp only
    by_cases hstop : p.trader.stop = true
    · rw [if_pos hstop]
      have hcancel := (streams_cancelAll p.trader).quiet
      refine ⟨hcancel.calls.all h.calls, fun hp => (nomatch hp), fun _ => ?_⟩
      rcases h.running hphase with hfine | hlost
      · have hfine' := hfine.quiet hcancel
        exact .inl ⟨hfine'.inside, hfine'.room⟩
      · exact .inr (hcancel.down_eq hlost.2)
    · rw [if_neg hstop]
      have hfine := (h.running hphase).resolve_right fun hlost => hstop hlost.1
      obtain ⟨hcalls, hend⟩ := pump_reads hfine batch
      exact ⟨hcalls.all h.calls, fun _ => hend, fun hp => (nomatch hp)⟩
  | winding =>
    dsimp only
    split
    · next hgo =>
      have hfine := (h.winding hphase).resolve_right fun hdown => by
        rw [hgo.1] at hdown
        exact absurd hdown (by decide)
      have htick : OeFine p.trader.tick := ⟨hfine.inside, hfine.room⟩
      obtain ⟨hcalls, hend⟩ := pump_reads htick batch
      exact ⟨hcalls.all h.calls, fun hp => (nomatch hp), fun _ => hend.imp_right And.right⟩
    · refine ⟨?_, fun hp => (nomatch hp), fun hp => (nomatch hp)⟩
      unfold Process.finish
      dsimp only
      split
      · exact (streams_oeSend p.trader _).quiet.calls.all h.calls
      · exact h.calls
  | finished => exact h

/-- Every batch calls with exact lengths. -/
theorem Process.Reads.after {p : Process} (h : p.Reads) (batches : List Batch) :
    (p.after batches).Reads := by
  unfold Process.after
  induction batches generalizing p with
  | nil => exact h
  | cons batch batches ih => exact ih (h.step batch)

/-- The wait for the login reply takes one frame off the buffer. -/
theorem awaitLogin_reads {recvs : List (ArgOrder × RecvAnswer)} (h : t.oeReader.Inside)
    (hok : awaitLogin recvs t = some t') : t'.recvs = t.recvs ∧ OeFine t' := by
  induction recvs generalizing t with
  | nil => exact nomatch hok
  | cons recv recvs ih =>
    obtain ⟨order, answer⟩ := recv
    cases answer with
    | data bs =>
      unfold awaitLogin at hok
      dsimp only at hok
      split at hok
      · exact nomatch hok
      · next b chunk hchunk =>
        have hin := h.receive hchunk
        have hnext := hin.next
        rcases (t.oeReader.writePtr.commit (b :: chunk)).next_cases with
          ⟨f, hst, hfront⟩ | ⟨heq, hfront⟩ | ⟨heq, hfront⟩
        · have hlt := incremental_frontFrame.shrinks hfront
          have hle := hin.wr_le
          generalize (t.oeReader.writePtr.commit (b :: chunk)).next = q at hok hst hlt hnext
          obtain ⟨st, reader⟩ := q
          change st = _ at hst
          subst hst
          dsimp only at hok
          split at hok
          · rw [← Option.some.inj hok]
            refine ⟨rfl, hnext, ?_⟩
            simp only [FrameReader.wr] at hle hlt ⊢
            omega
          · exact nomatch hok
        · rw [heq] at hok
          exact @ih { t with oeReader := t.oeReader.writePtr.commit (b :: chunk) } hin hok
        · rw [heq] at hok
          exact @ih { t with oeReader := t.oeReader.writePtr.commit (b :: chunk) } hin hok
    | closed | again | interrupted | failed => exact nomatch hok

/-- A new trader has called nothing. -/
theorem new_recvs {cfg : TraderConfig} {clock : Clock} {kernel : ℕ → Session.Send}
    (h : Trader.new cfg clock kernel = some t) : t.recvs = [] ∧ t.oeReader = {} := by
  obtain ⟨book, orders, -, -, rfl⟩ := new_eq_some h
  exact ⟨rfl, rfl⟩

/-- The login leaves the session fine. -/
theorem connectOrderEntry_reads {login : List (ArgOrder × RecvAnswer)} (h : t.oeReader.Inside)
    (hok : t.connectOrderEntry login = some t') : t'.recvs = t.recvs ∧ OeFine t' := by
  unfold connectOrderEntry at hok
  generalize loginFrame t.cfg.user = frame at hok
  have hreads := fun hinside => awaitLogin_reads hinside hok
  exact hreads h

/-- **The process starts** with a reader that has room. -/
theorem start_reads {cfg : TraderConfig} {clock : Clock} {kernel : ℕ → Session.Send}
    {reply : SnapshotReply} {login : List (ArgOrder × RecvAnswer)} {p : Process}
    (h : Trader.start cfg clock kernel reply login = some p) : p.Reads := by
  unfold Trader.start at h
  cases hnew : Trader.new cfg clock kernel with
  | none =>
    rw [hnew] at h
    exact nomatch h
  | some t =>
    obtain ⟨hrecvs, hreader⟩ := new_recvs hnew
    have hsnap := quiet_snapshot t reply
    rw [hnew] at h
    dsimp only at h
    generalize t.snapshot reply = t₁ at hsnap h
    split at h
    · exact nomatch h
    · obtain ⟨t', hlogin, hp⟩ := Option.map_eq_some_iff.mp h
      have hin : t₁.oeReader.Inside := by
        rw [hsnap.reader, hreader]
        exact FrameReader.inside_new
      obtain ⟨hsame, hfine⟩ := connectOrderEntry_reads hin hlogin
      have hcalls : ∀ c ∈ t'.recvs, RecvCall.Exact c := by
        rw [hsame]
        refine hsnap.calls.all ?_
        rw [hrecvs]
        exact fun _ hc => absurd hc List.not_mem_nil
      have hphase : p.phase = .running := by rw [← hp]
      have hlast : p.trader.recvs = t'.recvs := by
        rw [← hp]
        rfl
      have hbuf : p.trader.oeReader = t'.oeReader := by
        rw [← hp]
        rfl
      refine ⟨by rw [hlast]; exact hcalls, fun _ => .inl ⟨?_, ?_⟩, fun hwind => ?_⟩
      · rw [hbuf]
        exact hfine.inside
      · rw [hbuf]
        exact hfine.room
      · rw [hphase] at hwind
        exact nomatch hwind

/-- **When a `recv` has room.** In every `snapshot()` and in every run of the process, all calls
of `recv` ask for at least one byte exactly when none of them is blocked; where every call
evaluates `write_ptr()` first and no illegal length is in front of it, none is. -/
theorem recv_room_iff (t : Trader) (reply : SnapshotReply) (cfg : TraderConfig) (clock : Clock)
    (kernel : ℕ → Session.Send) (opening : SnapshotReply) (login : List (ArgOrder × RecvAnswer))
    (batches : List Batch) :
    (∃ calls, (t.snapshot reply).recvs = t.recvs ++ calls ∧
      ((∀ c ∈ calls, 0 < c.len) ↔ ∀ c ∈ calls, ¬ c.Blocked) ∧
      ((∀ c ∈ calls, c.order = .ptrFirst ∧ frontFrame c.reader.data ≠ .bad) →
        ∀ c ∈ calls, 0 < c.len)) ∧
    ∀ p, Trader.start cfg clock kernel opening login = some p →
      ((∀ c ∈ (p.after batches).trader.recvs, 0 < c.len) ↔
        ∀ c ∈ (p.after batches).trader.recvs, ¬ c.Blocked) ∧
      ((∀ c ∈ (p.after batches).trader.recvs, c.order = .ptrFirst ∧
          frontFrame c.reader.data ≠ .bad) →
        ∀ c ∈ (p.after batches).trader.recvs, 0 < c.len) := by
  have hiff : ∀ calls : List RecvCall, (∀ c ∈ calls, RecvCall.Exact c) →
      ((∀ c ∈ calls, 0 < c.len) ↔ ∀ c ∈ calls, ¬ c.Blocked) ∧
      ((∀ c ∈ calls, c.order = .ptrFirst ∧ frontFrame c.reader.data ≠ .bad) →
        ∀ c ∈ calls, 0 < c.len) := by
    intro calls hexact
    refine ⟨⟨fun hpos c hc hblocked => ?_, fun hfree c hc => ?_⟩, fun hgood c hc => ?_⟩
    · have hzero := (hexact c hc).iff.mpr hblocked
      have hlen := hpos c hc
      omega
    · exact Nat.pos_of_ne_zero fun hzero => hfree c hc ((hexact c hc).iff.mp hzero)
    · exact (hexact c hc).ptrFirst (hgood c hc).1 (hgood c hc).2
  refine ⟨?_, fun p hstart => ?_⟩
  · obtain ⟨calls, hcalls, hexact⟩ := calls_snapshot t reply
    exact ⟨calls, hcalls, hiff calls hexact⟩
  · exact hiff _ ((start_reads hstart).after batches).calls

/-! ## A buffer filled to its last byte -/

/-- Server heartbeats, and the first byte of another frame. -/
def heartbeats (n : ℕ) : Bytes := (List.replicate n [0, 1, Soup.kServerHeartbeat]).flatten ++ [0]

theorem length_heartbeats (n : ℕ) : (heartbeats n).length = 3 * n + 1 := by
  rw [heartbeats, List.length_append, List.length_flatten, List.map_replicate, List.sum_replicate]
  simp only [List.length_cons, List.length_nil, smul_eq_mul]
  omega

/-- One heartbeat in front. -/
theorem heartbeats_succ (n : ℕ) :
    heartbeats (n + 1) = 0 :: 1 :: Soup.kServerHeartbeat :: heartbeats n := rfl

/-- Draining heartbeats leaves the last byte. -/
theorem Pull.drain_heartbeats (n : ℕ) {fuel rd : ℕ} (hfuel : n < fuel) (p : Pull)
    (hok : p.refused = false) (hdata : p.reader.data = heartbeats n)
    (hrd : p.reader.rd + 3 * n = rd) :
    Pull.drain fuel p = { p with reader := ⟨rd, [0]⟩ } := by
  induction n generalizing fuel p with
  | zero =>
    obtain ⟨fuel, rfl⟩ : ∃ k, fuel = k + 1 := ⟨fuel - 1, by omega⟩
    have hreader : p.reader = ⟨rd, [0]⟩ := by
      have h0 : p.reader.data = [0] := hdata
      rw [← h0, ← hrd, Nat.mul_zero, Nat.add_zero]
    have hmore : frontFrame p.reader.data = .more := by
      rw [hdata]
      rfl
    rw [Pull.drain, FrameReader.next_eq, hmore]
    dsimp only
    rw [← hreader]
  | succ n ih =>
    obtain ⟨fuel, rfl⟩ : ∃ k, fuel = k + 1 := ⟨fuel - 1, by omega⟩
    have hcons : heartbeats (n + 1) = Frame.bytes ⟨Soup.kServerHeartbeat, []⟩ ++ heartbeats n :=
      heartbeats_succ n
    have hfront : frontFrame p.reader.data = .item ⟨Soup.kServerHeartbeat, []⟩ (heartbeats n) := by
      rw [hdata, hcons]
      exact frontFrame_bytes (Nat.zero_le _) _
    have hne : heartbeats n ≠ [] := List.append_ne_nil_of_right_ne_nil _ (by decide)
    have htaken : p.reader.data.length - (heartbeats n).length = 3 := by
      rw [hdata, length_heartbeats, length_heartbeats]
      omega
    have hframe : ∀ q : Pull, q.onFrame ⟨Soup.kServerHeartbeat, []⟩ = q := fun q => rfl
    have hrest := ih (show n < fuel by omega)
      { p with reader := ⟨p.reader.rd + 3, heartbeats n⟩ } hok rfl (by simp only; omega)
    rw [Pull.drain, FrameReader.next_eq, hfront]
    dsimp only
    rw [if_neg hne, htaken, hframe, if_neg (by rw [hok]; decide), hrest]

/-- One turn of the loop with data. -/
theorem Pull.loop_data {order : ArgOrder} {bs chunk : Bytes} {b : UInt8}
    (recvs : List (ArgOrder × RecvAnswer)) {p : Pull} (hdone : p.done = false)
    (hok : p.refused = false) (hchunk : bs.take (order.len p.reader) = b :: chunk) :
    Pull.loop ((order, .data bs) :: recvs) p =
      Pull.loop recvs (Pull.drain (p.reader.writePtr.commit (b :: chunk)).data.length
        { p with
          trader := { p.trader with
            recvs := p.trader.recvs ++ [⟨order, p.reader, order.len p.reader⟩] }
          reader := p.reader.writePtr.commit (b :: chunk) }) := by
  rw [Pull.loop, if_neg (by rw [hdone, hok]; decide)]
  dsimp only
  rw [hchunk]

/-- A call without room is recorded, and ends the loop. -/
theorem Pull.loop_blocked {order : ArgOrder} {bs : Bytes} {p : Pull} (hdone : p.done = false)
    (hok : p.refused = false) (hlen : order.len p.reader = 0) :
    (Pull.loop [(order, .data bs)] p).refused = true ∧
      ⟨order, p.reader, 0⟩ ∈ (Pull.loop [(order, .data bs)] p).trader.recvs := by
  rw [Pull.loop, if_neg (by rw [hdone, hok]; decide)]
  dsimp only
  rw [hlen, List.take_zero]
  exact ⟨rfl, List.mem_append_right _ List.mem_cons_self⟩

/-- The calls of `snapshot()` are those of its loop. -/
theorem snapshot_recvs (t : Trader) (recvs : List (ArgOrder × RecvAnswer)) :
    (t.snapshot { recvs := recvs }).recvs = (Pull.loop recvs
      { trader := { t with book := t.book.clear, locate := 0 } }).trader.recvs := by
  unfold snapshot
  rw [if_neg (by simp)]
  dsimp only
  split <;> rfl

/-- The answers of the kernel: 64 KiB of heartbeats that end in the middle of one; then the call
reads `write_space()` first. -/
def fullBuffer : List (ArgOrder × RecvAnswer) :=
  [(.ptrFirst, .data (heartbeats 21845)), (.spaceFirst, .data [1, Soup.kServerHeartbeat])]

/-- A buffer filled to its last byte leaves a call of length 0. -/
theorem Pull.loop_fullBuffer (t : Trader) :
    ⟨.spaceFirst, ⟨65535, [0]⟩, 0⟩ ∈ (Pull.loop fullBuffer { trader := t }).trader.recvs := by
  obtain ⟨bs, hbs⟩ : ∃ bs, heartbeats 21845 = 0 :: bs := ⟨_, heartbeats_succ 21844⟩
  have hlen : (0 :: bs : Bytes).length = 65536 := by rw [← hbs, length_heartbeats]
  have hptr : ({} : FrameReader).writePtr = {} := by
    rw [FrameReader.writePtr, if_neg (by decide)]
  have hroom : ArgOrder.ptrFirst.len {} = 65536 := by
    show ({} : FrameReader).writePtr.writeSpace = 65536
    rw [hptr]
    decide
  have htake : (heartbeats 21845).take (ArgOrder.ptrFirst.len {}) = 0 :: bs := by
    rw [hroom, hbs, List.take_of_length_le hlen.le]
  have hreader : ({} : FrameReader).commit (0 :: bs) = ⟨0, 0 :: bs⟩ := rfl
  have hfirst := Pull.loop_data (p := { trader := t })
    [(.spaceFirst, .data [1, Soup.kServerHeartbeat])] rfl rfl htake
  dsimp only at hfirst
  have hend : ({} : FrameReader).rd + 3 * 21845 = 65535 := by decide
  have hdrain := Pull.drain_heartbeats 21845 (show 21845 < (0 :: bs : Bytes).length by omega)
    { trader := { t with recvs := t.recvs ++ [⟨.ptrFirst, {}, ArgOrder.ptrFirst.len {}⟩] }
      reader := ⟨0, 0 :: bs⟩ } rfl hbs.symm hend
  rw [fullBuffer, hfirst, hptr, hreader, hdrain]
  apply (Pull.loop_blocked rfl rfl ?_).2
  show ArgOrder.spaceFirst.len ⟨65535, [0]⟩ = 0
  decide

/-- **A `recv` of nothing**: a buffer filled to its last byte by the first snapshot of a
process. -/
theorem recv_room_zero :
    ∃ (cfg : TraderConfig) (clock : Clock) (kernel : ℕ → Session.Send) (t : Trader),
      Trader.new cfg clock kernel = some t ∧
      ∃ c ∈ (t.snapshot { recvs := fullBuffer }).recvs, c.len = 0 := by
  obtain ⟨t, ht⟩ := new_isSome { symbol := [], user := [] } ⟨fun _ => 0, fun _ => 0, 0⟩ fun _ => .again
  refine ⟨_, _, _, t, ht, ⟨.spaceFirst, ⟨65535, [0]⟩, 0⟩, ?_, rfl⟩
  rw [snapshot_recvs]
  exact Pull.loop_fullBuffer _

end Trader

end PulseForge
