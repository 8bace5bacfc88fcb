import PulseForge.Analysis.RecvRoom
import PulseForge.Analysis.SessionLife
import PulseForge.Analysis.ItchCodec
import PulseForge.Analysis.FeedDeterminesBook

/-!
# A snapshot through a byte stream

What `send_snapshot` queues, and what the loop of `snapshot()` makes of a stream that begins so:
after every call of `recv` the loop stands where handling the complete frames one by one, each
once and in order, would stand.
-/

set_option autoImplicit false

namespace PulseForge

open Foundation Soup

/-! ## What the exchange sends -/

namespace Exchange

/-- The frames of `send_snapshot`. -/
def snapshotFrames (e : MatchingEngine) (now next : ℕ) : List Soup.Frame :=
  (snapshotMessages e (PulseForge.midNow now) next).map (fun m =>
    ⟨kSequencedData, Itch.encode m Itch.kMaxMessageLen⟩) ++ [⟨kEndOfSession, []⟩]

end Exchange

/-! ## The loop of `snapshot()` on frames -/

namespace Trader.Pull

/-- The loop without its reader and the record of its calls. -/
def bare (p : Pull) : Pull := { p with reader := {}, trader := { p.trader with recvs := [] } }

/-- The reader does not matter to the locate. -/
theorem locate_bare (p : Pull) : p.bare.trader.locate = p.trader.locate := rfl

/-- The reader does not matter to a message. -/
theorem bare_onMessage (p : Pull) (m : Itch.Message) :
    (p.onMessage m).bare = p.bare.onMessage m := by
  cases m with
  | stockDirectory locate ts stock lot =>
    by_cases hstock : stock = p.trader.symbol
    · have hbare : stock = p.bare.trader.symbol := hstock
      exact (congrArg bare (if_pos hstock)).trans (if_pos hbare).symm
    · have hbare : ¬ stock = p.bare.trader.symbol := hstock
      exact (congrArg bare (if_neg hstock)).trans (if_neg hbare).symm
  | addOrder locate ts orderRef side shares stock price =>
    unfold onMessage bare
    dsimp only
    split_ifs
    · rfl
    · rfl
  | endOfSnapshot | systemEvent | orderExecuted | orderCancel | orderDelete => rfl

/-- The reader does not matter to a frame. -/
theorem bare_onFrame (p : Pull) (f : Soup.Frame) : (p.onFrame f).bare = p.bare.onFrame f := by
  unfold onFrame
  split_ifs
  · rfl
  · rfl
  · cases Itch.decode f.payload with
    | none => rfl
    | some m => exact bare_onMessage p m

/-- Only a Login Rejected refuses. -/
theorem refused_onFrame {p : Pull} {f : Soup.Frame} (h : f.type ≠ kLoginRejected) :
    (p.onFrame f).refused = p.refused := by
  unfold onFrame
  rw [if_neg h]
  split_ifs
  · rfl
  · cases Itch.decode f.payload with
    | none => rfl
    | some m =>
      unfold onMessage
      cases m with
      | stockDirectory | addOrder =>
        dsimp only
        split_ifs
        · rfl
        · rfl
      | endOfSnapshot | systemEvent | orderExecuted | orderCancel | orderDelete => rfl

/-- **The inner loop** handles the complete frames and leaves the rest. -/
theorem drain_eq {fuel : ℕ} {p : Pull} (hfuel : p.reader.data.length ≤ fuel)
    (hok : p.refused = false)
    (hlogin : ∀ f ∈ (parseFrames p.reader.data).items, f.type ≠ kLoginRejected) :
    (drain fuel p).bare = (parseFrames p.reader.data).items.foldl onFrame p.bare ∧
      (drain fuel p).reader.data = (parseFrames p.reader.data).rest ∧
      (drain fuel p).refused = false := by
  induction fuel generalizing p with
  | zero =>
    have hnil : p.reader.data = [] := List.eq_nil_of_length_eq_zero (by omega)
    have hparse : parseFrames p.reader.data = ⟨[], [], false⟩ := by
      rw [hnil]
      rfl
    rw [hparse]
    exact ⟨rfl, hnil, hok⟩
  | succ fuel ih =>
    rw [drain]
    rcases p.reader.next_cases with ⟨f, hst, hfront⟩ | ⟨hnext, hfront⟩ | ⟨hnext, hfront⟩
    · generalize p.reader.next = q at hst hfront ⊢
      obtain ⟨st, reader⟩ := q
      change st = _ at hst
      subst hst
      have hparse : parseFrames p.reader.data =
          { parseFrames reader.data with items := f :: (parseFrames reader.data).items } :=
        incremental_frontFrame.parse_item hfront
      rw [hparse] at hlogin ⊢
      have hread := (onFrame_reads { p with reader := reader } f).1
      have hrefused : (({ p with reader := reader } : Pull).onFrame f).refused = false :=
        (refused_onFrame (hlogin f List.mem_cons_self)).trans hok
      have hshrinks := incremental_frontFrame.shrinks hfront
      dsimp only
      rw [if_neg (by rw [hrefused]; decide)]
      have hrest := @ih (({ p with reader := reader } : Pull).onFrame f)
        (by rw [hread]; dsimp only at hshrinks ⊢; omega) hrefused
        (by rw [hread]; exact fun g hg => hlogin g (List.mem_cons_of_mem _ hg))
      rw [hread] at hrest
      refine ⟨hrest.1.trans ?_, hrest.2⟩
      rw [List.foldl_cons, bare_onFrame]
      rfl
    · have hparse : parseFrames p.reader.data = ⟨[], p.reader.data, false⟩ := parse_more hfront
      rw [hnext, hparse]
      exact ⟨rfl, rfl, hok⟩
    · have hparse : parseFrames p.reader.data = ⟨[], p.reader.data, true⟩ := parse_bad hfront
      rw [hnext, hparse]
      exact ⟨rfl, rfl, hok⟩

/-! ## The loop of `snapshot()` on a stream -/

/-- The bytes that the calls of the loop bring in. -/
def received : List (ArgOrder × RecvAnswer) → Pull → Bytes
  | recvs, p =>
    if p.done || p.refused then []
    else match recvs with
      | [] => []
      | (order, answer) :: recvs =>
        match answer with
        | .data bs =>
          match bs.take (order.len p.reader) with
          | [] => []
          | b :: chunk =>
            let p :=
              { p with
                trader := { p.trader with
                  recvs := p.trader.recvs ++ [⟨order, p.reader, order.len p.reader⟩] }
                reader := p.reader.writePtr.commit (b :: chunk) }
            b :: chunk ++ received recvs (drain p.reader.data.length p)
        | .closed | .again | .interrupted | .failed => []

theorem received_nil (p : Pull) : received [] p = [] := by
  unfold received
  exact ite_self _

/-- One call with data. -/
theorem received_data {order : ArgOrder} {bs chunk : Bytes} {b : UInt8}
    (recvs : List (ArgOrder × RecvAnswer)) {p : Pull} (hdone : p.done = false)
    (hok : p.refused = false) (hchunk : bs.take (order.len p.reader) = b :: chunk) :
    received ((order, .data bs) :: recvs) p =
      b :: chunk ++ received recvs (drain (p.reader.writePtr.commit (b :: chunk)).data.length
        { p with
          trader := { p.trader with
            recvs := p.trader.recvs ++ [⟨order, p.reader, order.len p.reader⟩] }
          reader := p.reader.writePtr.commit (b :: chunk) }) := by
  have hgo : ¬ (p.done || p.refused) = true := by
    rw [hdone, hok]
    decide
  refine (received.eq_def _ _).trans ((if_neg hgo).trans ?_)
  dsimp only
  rw [hchunk]

/-- Where the loop stands after the bytes `front` of a stream. -/
structure After (start : Pull) (front : Bytes) (p : Pull) : Prop where
  bare : p.bare = (parseFrames front).items.foldl onFrame start.bare
  rest : p.reader.data = (parseFrames front).rest
  ok : p.refused = false

variable {start p : Pull} {front stream : Bytes} {fs : List Soup.Frame}

/-- The frames of the front of a stream come first in the stream. -/
theorem items_prefix (hstream : parseFrames stream = ⟨fs, [], false⟩) (hfront : front <+: stream) :
    (parseFrames front).bad = false ∧ (parseFrames front).items <+: fs := by
  obtain ⟨more, rfl⟩ := hfront
  have happend := incremental_frontFrame.parse_append front more
  change parseFrames (front ++ more) = _ at happend
  rw [hstream] at happend
  split_ifs at happend with hbad
  · exact absurd (congrArg Parsed.bad happend) Bool.false_ne_true
  · constructor
    · exact eq_false_of_ne_true hbad
    · exact ⟨_, (congrArg Parsed.items happend).symm⟩

/-- **One chunk** more. -/
theorem After.step (h : After start front p) (hstream : parseFrames stream = ⟨fs, [], false⟩)
    (hlogin : ∀ f ∈ fs, f.type ≠ kLoginRejected) {chunk : Bytes}
    (hfront : front ++ chunk <+: stream) (calls : List RecvCall) :
    After start (front ++ chunk) (drain (p.reader.writePtr.commit chunk).data.length
      { p with
        trader := { p.trader with recvs := calls }, reader := p.reader.writePtr.commit chunk }) := by
  have hdata : (p.reader.writePtr.commit chunk).data = (parseFrames front).rest ++ chunk := by
    unfold FrameReader.commit
    dsimp only
    rw [FrameReader.writePtr_data, h.rest]
  obtain ⟨hgood, -⟩ := items_prefix hstream ((List.prefix_append _ _).trans hfront)
  obtain ⟨-, hitems⟩ := items_prefix hstream hfront
  have happend : parseFrames (front ++ chunk) =
      { parseFrames ((parseFrames front).rest ++ chunk) with
        items := (parseFrames front).items ++
          (parseFrames ((parseFrames front).rest ++ chunk)).items } := by
    have happend := incremental_frontFrame.parse_append front chunk
    change parseFrames (front ++ chunk) = if (parseFrames front).bad then _ else _ at happend
    rw [if_neg (by rw [hgood]; decide)] at happend
    exact happend
  have hdrain := @drain_eq (p.reader.writePtr.commit chunk).data.length
    { p with
      trader := { p.trader with recvs := calls }, reader := p.reader.writePtr.commit chunk }
    le_rfl h.ok (by
      intro f hf
      apply hlogin f (hitems.subset _)
      rw [happend]
      apply List.mem_append_right
      rw [← hdata]
      exact hf)
  obtain ⟨hbare, hrest, hok⟩ := hdrain
  refine ⟨?_, ?_, hok⟩
  · rw [hbare, happend, List.foldl_append, ← h.bare, ← hdata]
    rfl
  · rw [hrest, happend, ← hdata]

/-- **The whole loop**, when it does not fail. -/
theorem After.loop (h : After start front p) (hstream : parseFrames stream = ⟨fs, [], false⟩)
    (hlogin : ∀ f ∈ fs, f.type ≠ kLoginRejected) (recvs : List (ArgOrder × RecvAnswer))
    (hread : front ++ received recvs p <+: stream) (hok : (Pull.loop recvs p).refused = false) :
    (Pull.loop recvs p).done = true ∧
      ∃ front', front' <+: stream ∧ After start front' (Pull.loop recvs p) := by
  have hfront : front <+: stream := (List.prefix_append _ _).trans hread
  induction recvs generalizing front p with
  | nil =>
    rw [Pull.loop] at hok ⊢
    split_ifs at hok ⊢ with hend
    rw [h.ok, Bool.or_false] at hend
    exact ⟨hend, front, hfront, h⟩
  | cons recv recvs ih =>
    obtain ⟨order, answer⟩ := recv
    unfold received at hread
    rw [Pull.loop] at hok ⊢
    split_ifs at hok hread ⊢ with hend
    · rw [h.ok, Bool.or_false] at hend
      exact ⟨hend, front, hfront, h⟩
    · cases answer with
      | closed => cases hok
      | again => cases hok
      | interrupted => cases hok
      | failed => cases hok
      | data bs =>
        dsimp only at hok hread ⊢
        cases hchunk : bs.take (order.len p.reader) with
        | nil =>
          rw [hchunk] at hok
          cases hok
        | cons b chunk =>
          rw [hchunk] at hok hread
          dsimp only at hok hread ⊢
          rw [← List.append_assoc] at hread
          have hfront' := (List.prefix_append _ _).trans hread
          exact ih (h.step hstream hlogin hfront' _) hread hok hfront'

/-- **A stream in one piece**, with the end of the snapshot in it. -/
theorem loop_chunk (hreader : start.reader = {}) (hgo : start.done = false)
    (hok : start.refused = false) (hstream : parseFrames stream = ⟨fs, [], false⟩)
    (hlogin : ∀ f ∈ fs, f.type ≠ kLoginRejected) (hroom : stream.length ≤ FrameReader.kBufSize)
    (hne : stream ≠ []) (hdone : (fs.foldl onFrame start.bare).done = true) :
    (loop [(.ptrFirst, .data stream)] start).bare = fs.foldl onFrame start.bare ∧
      (loop [(.ptrFirst, .data stream)] start).refused = false ∧
      received [(.ptrFirst, .data stream)] start = stream := by
  obtain ⟨b, chunk, hcons⟩ := List.exists_cons_of_ne_nil hne
  have hstart : After start [] start := ⟨rfl, by rw [hreader]; rfl, hok⟩
  have hlen : ArgOrder.ptrFirst.len start.reader = FrameReader.kBufSize := by
    rw [hreader]
    decide
  have htake : stream.take (ArgOrder.ptrFirst.len start.reader) = b :: chunk := by
    rw [hlen, List.take_of_length_le hroom, hcons]
  have hfront : [] ++ stream <+: stream := List.prefix_refl _
  have hstep := hstart.step hstream hlogin hfront (start.trader.recvs ++
    [⟨.ptrFirst, start.reader, ArgOrder.ptrFirst.len start.reader⟩])
  have hloop := loop_data [] hgo hok htake
  have hread := received_data [] hgo hok htake
  rw [← hcons] at hloop hread
  rw [List.nil_append] at hstep
  generalize drain (start.reader.writePtr.commit stream).data.length _ = p at hstep hloop hread
  have hbare := hstep.bare
  rw [hstream] at hbare
  have hend : p.done = true := by
    change p.bare.done = true
    rw [hbare]
    exact hdone
  have hover : loop [] p = p := by
    rw [loop, hend]
    rfl
  rw [hloop, hover]
  refine ⟨hbare, hstep.ok, ?_⟩
  rw [hread, received_nil, List.append_nil]

end Trader.Pull

end PulseForge
