import PulseForge.Foundation.Machine
import PulseForge.Interface.FrameStream
import PulseForge.Model.FrameBuffer

/-!
# Reassembly does not depend on the chunking

`FrameBuffer.abs` forgets the bytes outside the two indices; every method commutes with it.
After each chunk the reader holds what is left of the stream behind the frames that are
complete, so that the frames it delivered are those of the stream as a whole.
-/

set_option autoImplicit false

namespace PulseForge.Soup

open Foundation

/-! ## The frame at the front -/

/-- More bytes behind do not change those in front. -/
theorem getD_append_left {bs more : Bytes} {n : ℕ} (h : n < bs.length) :
    (bs ++ more).getD n 0 = bs.getD n 0 := by
  rw [List.getD_eq_getElem?_getD, List.getD_eq_getElem?_getD, List.getElem?_append_left h]

/-- **A frame stays the frame it is** as more bytes arrive. -/
theorem incremental_frontFrame : Incremental frontFrame := by
  have htake : ∀ {bs : Bytes} (more : Bytes), ¬ bs.length < 2 → (bs ++ more).take 2 = bs.take 2 :=
    fun more h => List.take_append_of_le_length (by omega)
  refine ⟨fun {bs f rest} h => ?_, fun {bs f rest} more h => ?_, fun {bs} more h => ?_⟩
  · unfold frontFrame at h
    split_ifs at h with h2
    dsimp only at h
    split_ifs at h with hbad hmore
    injection h with _ hrest
    rw [← hrest, List.length_drop]
    omega
  · unfold frontFrame at h ⊢
    split_ifs at h with h2
    dsimp only at h
    split_ifs at h with hbad hmore
    injection h with hframe hrest
    have hlen : (bs ++ more).length = bs.length + more.length := List.length_append
    rw [if_neg (by omega)]
    dsimp only
    rw [htake more h2, if_neg hbad, if_neg (by omega), ← hframe, ← hrest,
      List.drop_append_of_le_length (by omega), List.drop_append_of_le_length (by omega),
      List.take_append_of_le_length (by rw [List.length_drop]; omega),
      getD_append_left (by omega)]
  · unfold frontFrame at h ⊢
    split_ifs at h with h2
    dsimp only at h
    split_ifs at h with hbad
    have hlen : (bs ++ more).length = bs.length + more.length := List.length_append
    rw [if_neg (by omega)]
    dsimp only
    rw [htake more h2, if_pos hbad]

/-- What is not yet a frame is shorter than the largest one. -/
theorem length_lt_of_more {bs : Bytes} (h : frontFrame bs = .more) :
    bs.length < kMaxFrame + kFrameHeaderLen := by
  unfold frontFrame at h
  split_ifs at h with h2
  · simp only [kMaxFrame, kFrameHeaderLen]
    omega
  · dsimp only at h
    split_ifs at h with hbad hmore
    push Not at hbad
    simp only [kFrameHeaderLen]
    omega

/-- A frame has a header and its payload. -/
theorem Frame.length_bytes (f : Frame) : f.bytes.length = f.payload.length + kFrameHeaderLen := by
  rw [Frame.bytes, List.length_append, length_beBytes, List.length_cons, kFrameHeaderLen]
  omega

/-- A frame, and what follows it. -/
theorem frontFrame_bytes {f : Frame} (h : f.Legal) (rest : Bytes) :
    frontFrame (f.bytes ++ rest) = .item f rest := by
  have hlegal : f.payload.length + 1 ≤ 1024 := by
    simp only [Frame.Legal, kMaxFrame] at h
    omega
  have hlen : f.bytes.length = f.payload.length + 3 := f.length_bytes
  have htake : (f.bytes ++ rest).take 2 = beBytes 2 (f.payload.length + 1) := by
    rw [Frame.bytes, List.append_assoc, List.take_left' (length_beBytes 2 _)]
  have hdrop2 : (f.bytes ++ rest).drop 2 = f.type :: (f.payload ++ rest) := by
    rw [Frame.bytes, List.append_assoc, List.drop_left' (length_beBytes 2 _)]
    rfl
  have hdrop3 : (f.bytes ++ rest).drop 3 = f.payload ++ rest := by
    rw [show 3 = 2 + 1 from rfl, ← List.drop_drop, hdrop2]
    rfl
  have hget : (f.bytes ++ rest).getD 2 0 = f.type := by
    have h0 := congrArg (fun l : Bytes => l.getD 0 0) hdrop2
    simpa [List.getD_eq_getElem?_getD, List.getElem?_drop] using h0
  have hval : beVal (beBytes 2 (f.payload.length + 1)) = f.payload.length + 1 :=
    beVal_beBytes_of_lt (by omega)
  have hrest : (f.bytes ++ rest).drop (2 + (f.payload.length + 1)) = rest := by
    rw [List.drop_left' (by rw [hlen]; omega)]
  have hsum : (f.bytes ++ rest).length = f.payload.length + 3 + rest.length := by
    rw [List.length_append, hlen]
  unfold frontFrame
  rw [if_neg (by omega)]
  dsimp only
  rw [htake, hval, if_neg (by simp only [kMaxFrame]; omega), if_neg (by omega), hget, hdrop3, hrest,
    Nat.add_sub_cancel, List.take_left]

/-- **The frames of what was written** are the frames. -/
theorem parseFrames_bytes (fs : List Frame) (h : ∀ f ∈ fs, f.Legal) :
    parseFrames (fs.flatMap Frame.bytes) = ⟨fs, [], false⟩ := by
  induction fs with
  | nil => rfl
  | cons f fs ih =>
    have hfront := frontFrame_bytes (h f List.mem_cons_self) (fs.flatMap Frame.bytes)
    rw [parseFrames, List.flatMap_cons, incremental_frontFrame.parse_item hfront, ← parseFrames,
      ih fun g hg => h g (List.mem_cons_of_mem _ hg)]

/-- `write_frame` writes the bytes of a frame that fits. -/
theorem writeFrame_eq {f : Frame} (h : f.Legal) {cap : ℕ}
    (hcap : f.payload.length + kFrameHeaderLen ≤ cap) : writeFrame cap f = f.bytes := by
  simp only [Frame.Legal, kMaxFrame] at h
  rw [writeFrame, if_neg (by simp only [kMaxFrame]; omega), Frame.bytes]

/-- `append_frame` appends the bytes of the frame. -/
theorem appendFrame_eq {f : Frame} (h : f.Legal) (out : Bytes) : appendFrame out f = out ++ f.bytes := by
  rw [appendFrame, writeFrame_eq h le_rfl, f.length_bytes, Nat.sub_self, List.replicate_zero, List.append_nil]

/-! ## The reader on its unparsed bytes -/

/-- `next` takes the frame at the front of the unparsed bytes. -/
theorem FrameReader.next_eq (r : FrameReader) :
    r.next = match frontFrame r.data with
      | .item f rest => (.frame f, ⟨if rest = [] then 0 else r.rd + (r.data.length - rest.length), rest⟩)
      | .more => (.needMore, r)
      | .bad => (.error, r) := by
  unfold FrameReader.next frontFrame
  split
  · rfl
  · dsimp only
    split
    · rfl
    · split
      · rfl
      · dsimp only
        have hlen : r.data.length - (r.data.drop (2 + beVal (r.data.take 2))).length =
            2 + beVal (r.data.take 2) := by
          rw [List.length_drop]
          omega
        rw [hlen]

namespace FrameBuffer

variable {b : FrameBuffer}

/-- The indices are in order, inside the buffer. -/
structure WF (b : FrameBuffer) : Prop where
  length : b.buf.length = FrameReader.kBufSize
  rd_le : b.rd ≤ b.wr
  wr_le : b.wr ≤ FrameReader.kBufSize

/-- The unparsed bytes. -/
def unparsed (b : FrameBuffer) : Bytes := (b.buf.drop b.rd).take b.buffered

/-- The reader that shows only the unparsed bytes. -/
def abs (b : FrameBuffer) : FrameReader := ⟨b.rd, b.unparsed⟩

/-- The unparsed bytes are those buffered. -/
theorem WF.length_unparsed (h : b.WF) : b.unparsed.length = b.buffered := by
  rw [unparsed, List.length_take, List.length_drop, h.length, buffered]
  have h1 := h.rd_le
  have h2 := h.wr_le
  omega

/-- Both readers have the same room. -/
theorem WF.abs_wr (h : b.WF) : b.abs.wr = b.wr := by
  show b.rd + b.unparsed.length = b.wr
  rw [h.length_unparsed, buffered]
  have := h.rd_le
  omega

/-- **`write_ptr`** slides the unparsed bytes to the front, or does nothing. -/
theorem WF.writePtr (h : b.WF) : b.writePtr.WF ∧ b.writePtr.abs = b.abs.writePtr := by
  have h1 := h.rd_le
  have h2 := h.wr_le
  unfold FrameBuffer.writePtr FrameReader.writePtr
  rw [h.abs_wr]
  by_cases hfull : FrameReader.kBufSize - b.wr < kMaxFrame + kFrameHeaderLen ∧ 0 < b.rd
  · rw [if_pos hfull, if_pos (show _ ∧ 0 < b.abs.rd from hfull)]
    have hlen : ((b.buf.drop b.rd).take (b.wr - b.rd)).length = b.wr - b.rd := by
      rw [List.length_take, List.length_drop, h.length]
      omega
    refine ⟨⟨?_, Nat.zero_le _, by simp only; omega⟩, ?_⟩
    · simp only [slide, List.length_append, hlen, List.length_drop, h.length]
      omega
    · simp only [abs, unparsed, buffered, slide, List.drop_zero, Nat.sub_zero]
      rw [List.take_left' hlen]
  · rw [if_neg hfull, if_neg (show ¬ (_ ∧ 0 < b.abs.rd) from hfull)]
    exact ⟨h, rfl⟩

/-- **A `recv` that fits** appends its bytes. -/
theorem WF.receive (h : b.WF) {chunk : Bytes} (hfit : chunk.length ≤ b.writeSpace) :
    ((b.received chunk).commit chunk.length).WF ∧
      ((b.received chunk).commit chunk.length).abs = b.abs.commit chunk := by
  have h1 := h.rd_le
  have h2 := h.wr_le
  have hfit' : b.wr + chunk.length ≤ FrameReader.kBufSize := by
    simp only [writeSpace] at hfit
    omega
  have htake : (b.buf.take b.wr).length = b.wr := by
    rw [List.length_take, h.length]
    omega
  refine ⟨⟨?_, ?_, hfit'⟩, ?_⟩
  · simp only [received, commit, List.length_append, htake, List.length_drop, h.length]
    omega
  · simp only [received, commit]
    omega
  · simp only [abs, unparsed, buffered, received, commit, FrameReader.commit]
    congr 1
    rw [List.append_assoc, List.drop_append_of_le_length (by omega),
      show b.wr + chunk.length - b.rd = (b.wr - b.rd) + chunk.length by omega]
    have hold : ((b.buf.take b.wr).drop b.rd) = (b.buf.drop b.rd).take (b.wr - b.rd) := by
      rw [List.drop_take]
    have hlen : ((b.buf.take b.wr).drop b.rd).length = b.wr - b.rd := by
      rw [List.length_drop, htake]
    rw [List.take_append, hlen, List.take_of_length_le (by omega), ← hold]
    congr 1
    rw [show b.wr - b.rd + chunk.length - (b.wr - b.rd) = chunk.length by omega, List.take_left]

/-- The bytes that `next` reads are unparsed bytes. -/
theorem unparsed_slices {n : ℕ} (hn : n ≤ b.buffered) (off : ℕ) (hoff : off ≤ n) :
    (b.unparsed.drop off).take (n - off) = (b.buf.drop (b.rd + off)).take (n - off) := by
  rw [unparsed, List.drop_take, List.drop_drop, List.take_take]
  congr 1
  omega

/-- **`next`** commutes with forgetting the rest of the buffer. -/
theorem WF.next (h : b.WF) :
    b.next.2.WF ∧ b.abs.next = (b.next.1, b.next.2.abs) := by
  have h1 := h.rd_le
  have h2 := h.wr_le
  have hlen := h.length_unparsed
  have hlen' : b.abs.data.length = b.wr - b.rd := hlen
  unfold FrameBuffer.next FrameReader.next
  dsimp only
  rw [hlen']
  split
  · exact ⟨h, rfl⟩
  · next havail =>
    have hhead : b.abs.data.take 2 = (b.buf.drop b.rd).take 2 := by
      exact unparsed_slices (n := 2) (by rw [buffered]; omega) 0 (by omega)
    rw [hhead]
    set flen := beVal ((b.buf.drop b.rd).take 2) with hflen
    split
    · exact ⟨h, rfl⟩
    · split
      · exact ⟨h, rfl⟩
      · next hbad hmore =>
        push Not at hbad
        have hpayload : (b.abs.data.drop 3).take (flen - 1) =
            (b.buf.drop (b.rd + 3)).take (flen - 1) := by
          have := unparsed_slices (b := b) (n := 2 + flen) (by rw [buffered]; omega) 3 (by omega)
          rwa [show 2 + flen - 3 = flen - 1 by omega] at this
        have htype : b.abs.data.getD 2 0 = b.buf.getD (b.rd + 2) 0 := by
          have hget : b.abs.data[2]? = b.buf[b.rd + 2]? := by
            show ((b.buf.drop b.rd).take (b.wr - b.rd))[2]? = _
            rw [List.getElem?_take_of_lt (by omega), List.getElem?_drop]
          rw [List.getD_eq_getElem?_getD, List.getD_eq_getElem?_getD, hget]
        have hdrop : b.abs.data.drop (2 + flen) =
            (b.buf.drop (b.rd + (2 + flen))).take (b.wr - (b.rd + (2 + flen))) := by
          show ((b.buf.drop b.rd).take (b.wr - b.rd)).drop (2 + flen) = _
          rw [List.drop_take, List.drop_drop]
          congr 1
          omega
        have hempty : b.abs.data.drop (2 + flen) = [] ↔ b.rd + (2 + flen) = b.wr := by
          rw [List.drop_eq_nil_iff, hlen']
          omega
        rw [hpayload, htype]
        by_cases hdone : b.rd + (2 + flen) = b.wr
        · rw [if_pos hdone, if_pos (hempty.mpr hdone), hempty.mpr hdone]
          refine ⟨⟨h.length, le_rfl, Nat.zero_le _⟩, ?_⟩
          simp [abs, unparsed, buffered]
        · rw [if_neg hdone, if_neg (fun hc => hdone (hempty.mp hc)), hdrop]
          refine ⟨⟨h.length, by simp only; omega, h.wr_le⟩, rfl⟩

/-- `next` takes the frame at the front of what is unparsed, or leaves it. -/
theorem WF.next_spec (h : b.WF) :
    match frontFrame b.unparsed with
    | .item f rest => b.next.1 = .frame f ∧ b.next.2.unparsed = rest
    | .more => b.next.1 = .needMore ∧ b.next.2.unparsed = b.unparsed
    | .bad => b.next.1 = .error ∧ b.next.2.unparsed = b.unparsed := by
  have habs := h.next.2
  rw [FrameReader.next_eq] at habs
  change (match frontFrame b.unparsed with
    | .item f rest => _
    | .more => _
    | .bad => _) = _ at habs
  cases hfront : frontFrame b.unparsed with
  | item f rest | more | bad =>
    rw [hfront] at habs
    have hst := congrArg Prod.fst habs
    have hdata := congrArg (fun p : Status × FrameReader => p.2.data) habs
    exact ⟨hst.symm, hdata.symm⟩

/-- The status that ends the loop over `next`. -/
def endStatus (p : Parsed UInt8 Frame) : Status := if p.bad then .error else .needMore

/-- **The loop over `next`** delivers the frames of the unparsed bytes and leaves the rest. -/
theorem WF.drainLoop (h : b.WF) {fuel : ℕ} (hfuel : b.unparsed.length < fuel) :
    ∃ b', FrameBuffer.drainLoop fuel b =
        ((parseFrames b.unparsed).items, endStatus (parseFrames b.unparsed), b') ∧
      b'.WF ∧ b'.unparsed = (parseFrames b.unparsed).rest := by
  induction fuel generalizing b with
  | zero => omega
  | succ fuel ih =>
    have hnext := h.next_spec
    have hwf := h.next.1
    rw [FrameBuffer.drainLoop]
    generalize b.next = p at hnext hwf ⊢
    obtain ⟨st, b₁⟩ := p
    cases hfront : frontFrame b.unparsed with
    | item f rest =>
      rw [hfront] at hnext
      obtain ⟨hst, hrest⟩ := hnext
      have hlt := incremental_frontFrame.shrinks hfront
      obtain ⟨b', hloop, hwf', hdata⟩ := ih hwf (by rw [hrest]; omega)
      rw [hrest] at hloop hdata
      refine ⟨b', ?_, hwf', ?_⟩
      · change st = _ at hst
        subst hst
        rw [parseFrames, incremental_frontFrame.parse_item hfront]
        dsimp only
        rw [hloop]
        rfl
      · rw [parseFrames, incremental_frontFrame.parse_item hfront]
        exact hdata
    | more =>
      rw [hfront] at hnext
      obtain ⟨hst, hrest⟩ := hnext
      change st = _ at hst
      subst hst
      rw [parseFrames, parse_more hfront]
      exact ⟨b₁, rfl, hwf, hrest⟩
    | bad =>
      rw [hfront] at hnext
      obtain ⟨hst, hrest⟩ := hnext
      change st = _ at hst
      subst hst
      rw [parseFrames, parse_bad hfront]
      exact ⟨b₁, rfl, hwf, hrest⟩

/-- **One chunk** is parsed behind what was left. -/
theorem WF.feed (h : b.WF) {chunk : Bytes} (hfit : chunk.length ≤ b.writePtr.writeSpace) :
    ∃ b', b.feed chunk = ((parseFrames (b.unparsed ++ chunk)).items,
        endStatus (parseFrames (b.unparsed ++ chunk)), b') ∧
      b'.WF ∧ b'.unparsed = (parseFrames (b.unparsed ++ chunk)).rest := by
  obtain ⟨hwf₁, habs₁⟩ := h.writePtr
  obtain ⟨hwf₂, habs₂⟩ := hwf₁.receive hfit
  have hdata : ((b.writePtr.received chunk).commit chunk.length).unparsed = b.unparsed ++ chunk := by
    have hdata₂ := congrArg FrameReader.data habs₂
    have hdata₁ := congrArg FrameReader.data habs₁
    have hsame : b.abs.writePtr.data = b.unparsed := by
      unfold FrameReader.writePtr
      split <;> rfl
    rw [hsame] at hdata₁
    change _ = b.writePtr.unparsed ++ chunk at hdata₂
    change b.writePtr.unparsed = _ at hdata₁
    rw [← hdata₁]
    exact hdata₂
  have hloop := hwf₂.drainLoop (Nat.lt_succ_self _)
  rw [hwf₂.length_unparsed, hdata] at hloop
  exact hloop

/-! ## A stream, chunk by chunk -/

/-- Each chunk is at most `write_space()` bytes, read after `write_ptr()`. -/
def Fits (b : FrameBuffer) : List Bytes → Prop
  | [] => True
  | chunk :: chunks => chunk.length ≤ b.writePtr.writeSpace ∧ Fits (b.feed chunk).2.2 chunks

/-- One more chunk: the frames delivered so far, the last status, the reader. -/
def feedStep (acc : List Frame × Status × FrameBuffer) (chunk : Bytes) :
    List Frame × Status × FrameBuffer :=
  let (fs, st, b) := acc.2.2.feed chunk
  (acc.1 ++ fs, st, b)

/-- A new reader behind the chunks of a stream. A reader that was given nothing needs more. -/
def feedAll (chunks : List Bytes) : List Frame × Status × FrameBuffer :=
  chunks.foldl feedStep ([], .needMore, {})

/-- **The reader agrees with a stream**: it delivered the frames of the stream as a whole, its
last answer was an error if the stream has one, and it holds what follows the frames, where
that error is. Its indices stay in the buffer, also between the calls of `next` after one
more `recv`. -/
structure Reassembled (stream : Bytes) (fs : List Frame) (st : Status) (b : FrameBuffer) :
    Prop where
  frames : fs = (parseFrames stream).items
  status : st = endStatus (parseFrames stream)
  unparsed : b.unparsed = (parseFrames stream).rest
  buffered : b.buffered = (parseFrames stream).rest.length
  inside : b.WF ∧ b.writePtr.WF
  inside_next : ∀ chunk : Bytes, chunk.length ≤ b.writePtr.writeSpace → ∀ k : ℕ,
    ((fun r : FrameBuffer => r.next.2)^[k] ((b.writePtr.received chunk).commit chunk.length)).WF
  room : (parseFrames stream).bad = false → 0 < b.writePtr.writeSpace

/-- A new buffer is well-formed. -/
theorem wf_new : ({} : FrameBuffer).WF :=
  ⟨List.length_replicate, Nat.zero_le _, Nat.zero_le _⟩

/-- Any number of calls of `next` keep the buffer well-formed. -/
theorem WF.next_iterate (h : b.WF) (k : ℕ) : ((fun r : FrameBuffer => r.next.2)^[k] b).WF := by
  induction k generalizing b with
  | zero => exact h
  | succ k ih => exact ih h.next.1

/-- A beginning of a frame leaves room for the rest of it. -/
theorem WF.room (h : b.WF) (hmore : frontFrame b.unparsed = .more) : 0 < b.writePtr.writeSpace := by
  have hlt := length_lt_of_more hmore
  rw [h.length_unparsed, FrameBuffer.buffered] at hlt
  have hsize : FrameReader.kBufSize = 65536 := rfl
  have hmax : kMaxFrame + kFrameHeaderLen = 1027 := rfl
  have hwr := h.wr_le
  unfold FrameBuffer.writePtr
  split
  · simp only [writeSpace]
    omega
  · next hroom =>
    simp only [writeSpace]
    -- with `rd_ = 0` the whole of `[0, wr_)` is unparsed
    rcases not_and_or.mp hroom with hspace | hrd
    · omega
    · omega

/-- What the unparsed bytes say about the stream is enough for all of it. -/
theorem WF.reassembled (h : b.WF) {stream : Bytes} {fs : List Frame} {st : Status}
    (hfs : fs = (parseFrames stream).items) (hst : st = endStatus (parseFrames stream))
    (hrest : b.unparsed = (parseFrames stream).rest) : Reassembled stream fs st b := by
  refine ⟨hfs, hst, hrest, ?_, ⟨h, h.writePtr.1⟩, fun chunk hfit => ?_, fun hgood => ?_⟩
  · rw [← hrest, h.length_unparsed]
  · exact (h.writePtr.1.receive hfit).1.next_iterate
  · have hfront := incremental_frontFrame.front_rest stream
    rw [← parseFrames, hgood, ← hrest] at hfront
    exact h.room hfront

/-- **One more chunk.** -/
theorem Reassembled.step {stream chunk : Bytes} {fs : List Frame} {st : Status}
    (h : Reassembled stream fs st b) (hfit : chunk.length ≤ b.writePtr.writeSpace) :
    Reassembled (stream ++ chunk) (fs ++ (b.feed chunk).1) (b.feed chunk).2.1
      (b.feed chunk).2.2 := by
  obtain ⟨b', hfeed, hwf, hrest⟩ := h.inside.1.feed hfit
  rw [hfeed]
  dsimp only
  have happend := incremental_frontFrame.parse_append stream chunk
  rw [← parseFrames, ← parseFrames, ← parseFrames, ← h.unparsed] at happend
  cases hbad : (parseFrames stream).bad with
  | false =>
    rw [hbad, if_neg Bool.false_ne_true] at happend
    apply hwf.reassembled
    · rw [happend, h.frames]
    · rw [happend]
      rfl
    · rw [happend]
      exact hrest
  | true =>
    -- the length that is an error stays at the front, and `next` answers it again
    rw [hbad, if_pos rfl] at happend
    have hfront := incremental_frontFrame.front_rest stream
    rw [← parseFrames, hbad, if_pos rfl, ← h.unparsed] at hfront
    have hstuck : parseFrames (b.unparsed ++ chunk) = ⟨[], b.unparsed ++ chunk, true⟩ :=
      parse_bad (incremental_frontFrame.bad_append chunk hfront)
    rw [hstuck] at hrest ⊢
    apply hwf.reassembled
    · rw [happend, h.frames, List.append_nil]
    · rw [happend]
      rfl
    · rw [happend]
      exact hrest

/-- **Every chunk.** -/
theorem Reassembled.run {stream : Bytes} {fs : List Frame} {st : Status}
    (h : Reassembled stream fs st b) {chunks : List Bytes} (hfits : b.Fits chunks) :
    Reassembled (stream ++ chunks.flatten) (chunks.foldl feedStep (fs, st, b)).1
      (chunks.foldl feedStep (fs, st, b)).2.1 (chunks.foldl feedStep (fs, st, b)).2.2 := by
  induction chunks generalizing stream fs st b with
  | nil => simpa using h
  | cons chunk chunks ih =>
    obtain ⟨hfit, hfits⟩ := hfits
    have hstep := ih (h.step hfit) hfits
    rw [List.append_assoc] at hstep
    exact hstep

/-- Nothing read is nothing reassembled. -/
theorem reassembled_new : Reassembled [] [] .needMore ({} : FrameBuffer) :=
  wf_new.reassembled rfl rfl rfl

/-- What a peer wrote, frame after frame, each with `write_frame` into a buffer that is large
enough or with `append_frame`. -/
inductive Written : List Frame → Bytes → Prop
  | nil : Written [] []
  | write {fs out f cap} : Written fs out → f.Legal → f.payload.length + kFrameHeaderLen ≤ cap →
      Written (fs ++ [f]) (out ++ writeFrame cap f)
  | append {fs out f} : Written fs out → f.Legal → Written (fs ++ [f]) (appendFrame out f)

/-- What was written are the bytes of legal frames. -/
theorem Written.eq {fs : List Frame} {out : Bytes} (h : Written fs out) :
    out = fs.flatMap Frame.bytes ∧ ∀ f ∈ fs, f.Legal := by
  induction h with
  | nil => exact ⟨rfl, fun f hf => absurd hf List.not_mem_nil⟩
  | write _ hlegal hcap ih =>
    obtain ⟨hout, hall⟩ := ih
    refine ⟨by rw [hout, writeFrame_eq hlegal hcap]; simp, fun g hg => ?_⟩
    rcases List.mem_append.mp hg with hg | hg
    · exact hall g hg
    · rwa [List.mem_singleton.mp hg]
  | append _ hlegal ih =>
    obtain ⟨hout, hall⟩ := ih
    refine ⟨by rw [hout, appendFrame_eq hlegal]; simp, fun g hg => ?_⟩
    rcases List.mem_append.mp hg with hg | hg
    · exact hall g hg
    · rwa [List.mem_singleton.mp hg]

/-- **Reassembly does not depend on the chunking.** A new reader that was given a stream in any
chunks that fit, `next` called after each until it stops returning frames, delivered the frames
of the stream parsed at once, answers the error of the stream, holds its remainder in the
buffer, and has room for more until there is an error. Frames that were written come back as
they are. -/
theorem reassembly_chunking_free :
    (∀ chunks : List Bytes, Fits {} chunks →
      Reassembled chunks.flatten (feedAll chunks).1 (feedAll chunks).2.1 (feedAll chunks).2.2) ∧
    (∀ (fs : List Frame) (chunks : List Bytes), Written fs chunks.flatten → Fits {} chunks →
      (feedAll chunks).1 = fs ∧ (feedAll chunks).2.1 = .needMore ∧
        (feedAll chunks).2.2.buffered = 0) := by
  have hall : ∀ chunks : List Bytes, Fits {} chunks →
      Reassembled chunks.flatten (feedAll chunks).1 (feedAll chunks).2.1 (feedAll chunks).2.2 := by
    intro chunks hfits
    exact reassembled_new.run hfits
  refine ⟨hall, fun fs chunks hwritten hfits => ?_⟩
  obtain ⟨hstream, hlegal⟩ := hwritten.eq
  have h := hall chunks hfits
  have hparsed := parseFrames_bytes fs hlegal
  rw [← hstream] at hparsed
  refine ⟨?_, ?_, ?_⟩
  · rw [h.frames, hparsed]
  · rw [h.status, hparsed]
    rfl
  · rw [h.buffered, hparsed]
    rfl

end FrameBuffer

end PulseForge.Soup
