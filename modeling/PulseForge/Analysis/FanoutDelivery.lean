import PulseForge.Foundation.Machine
import PulseForge.Foundation.RingWindow
import PulseForge.Analysis.RingCapacity
import PulseForge.Model.MpmcFanout

/-!
# The ring delivers to every reader

Every reader has a window of its own on the one buffer. The scan of the writer reads cursors
that go on moving; a cursor only grows, so the least value that the scan has seen is at most
where any reader is now.
-/

set_option autoImplicit false

namespace PulseForge.MpmcFanout

open Foundation

variable {α : Type}

/-! ## The invariant -/

/-- **The least cursor** `m` among those the scan has read, the first `cursor` of them; either no
reader is behind the writer or one of them was when it was read. -/
structure Least (s : System α) (m cursor : ℕ) : Prop where
  le : m ≤ s.pushed.length
  below : ∀ k < cursor, m ≤ (s.popped k).length
  seen : m = s.pushed.length ∨ s.pushed.length - m ∈ s.seen
  room : s.pushed.length ≤ m + s.ring.buf.length
  length : s.seen.length = cursor

/-- Every reader has left the slot that is written next. -/
def Free (s : System α) : Prop :=
  ∀ i < s.ring.readSeq.length, s.pushed.length < (s.popped i).length + s.ring.buf.length

/-- What the writer knows where it is. -/
def Writer.Knows (s : System α) : Writer α → Prop
  | .idle | .loadClosed _ | .storeClosed => True
  | .loadWrite _ => s.ring.closed = false
  | .startScan _ write => s.ring.closed = false ∧ write = s.ring.writeSeq
  | .scan _ write m cursor =>
    s.ring.closed = false ∧ write = s.ring.writeSeq ∧ cursor < s.ring.readSeq.length ∧
      ∃ k, m = UInt64.ofNat k ∧ Least s k cursor
  | .writeSlot _ write => s.ring.closed = false ∧ write = s.ring.writeSeq ∧ Free s
  | .storeWrite msg write =>
    s.ring.closed = false ∧ write = s.ring.writeSeq ∧ Free s ∧
      s.ring.buf[s.pushed.length % s.ring.buf.length]? = some msg

/-- What a reader knows where it is. -/
def Reader.Knows (closed : Bool) (pushed popped : List α) : Reader α → Prop
  | .idle | .loadRead | .loadClosed => True
  | .loadWrite read => read = UInt64.ofNat popped.length
  | .readSlot read => read = UInt64.ofNat popped.length ∧ popped.length < pushed.length
  | .storeRead read msg => read = UInt64.ofNat popped.length ∧ pushed[popped.length]? = some msg
  | .loadReadAgain => closed = true
  | .loadWriteAgain read => closed = true ∧ read = UInt64.ofNat popped.length

/-- **One reader**: its cursor, and its window on the buffer. -/
structure System.ReaderInv (s : System α) (i : ℕ) : Prop where
  read : s.ring.readSeq[i]? = some (UInt64.ofNat (s.popped i).length)
  fifo : s.popped i <+: s.pushed
  room : s.pushed.length ≤ (s.popped i).length + s.ring.buf.length
  window : Window s.ring.buf s.pushed (s.popped i).length s.pushed.length
  knows : (s.reader i).Knows s.ring.closed s.pushed (s.popped i)

/-- **The invariant** of a ring of `2^j` slots. -/
structure System.Inv (j : ℕ) (s : System α) : Prop where
  bits : j ≤ 63
  size : s.ring.buf.length = 2 ^ j
  mask : s.ring.mask = UInt64.ofNat (2 ^ j - 1)
  few : s.pushed.length < 2 ^ 64
  write : s.ring.writeSeq = UInt64.ofNat s.pushed.length
  writer : s.writer.Knows s
  reader : ∀ i < s.ring.readSeq.length, s.ReaderInv i
  absent : ∀ i, s.ring.readSeq.length ≤ i → s.reader i = .idle

namespace System.Inv

variable {j : ℕ} {s : System α}

/-- The capacity is the size of the buffer. -/
theorem capacity_eq (h : s.Inv j) : s.ring.capacity = s.ring.buf.length := by
  have hpow : 2 ^ j ≤ 2 ^ 63 := Nat.pow_le_pow_right (by decide) h.bits
  have hpos : 0 < 2 ^ j := Nat.two_pow_pos j
  rw [capacity, h.mask, cursor_succ, h.size, UInt64.toNat_ofNat']
  omega

/-- The buffer has slots. -/
theorem size_pos (h : s.Inv j) : 0 < s.ring.buf.length := by
  rw [h.size]
  exact Nat.two_pow_pos j

/-- The slot that is written next. -/
theorem write_slot (h : s.Inv j) :
    (s.ring.writeSeq &&& s.ring.mask).toNat = s.pushed.length % s.ring.buf.length := by
  rw [h.write, h.mask, h.size]
  exact toNat_cursor_and h.bits _

/-- A cursor meets the writer exactly when the reader has popped everything. -/
theorem meet_iff {k : ℕ} (h : s.Inv j) (hle : k ≤ s.pushed.length) :
    UInt64.ofNat k = s.ring.writeSeq ↔ k = s.pushed.length := by
  have hfew := h.few
  rw [h.write]
  exact cursor_eq_iff hle (by omega)

/-- Cursors compare as the counts they stand for, since none has come round. -/
theorem cursor_lt_iff {k m : ℕ} (h : s.Inv j) (hk : k ≤ s.pushed.length) (hm : m ≤ s.pushed.length) :
    UInt64.ofNat k < UInt64.ofNat m ↔ k < m := by
  have hfew := h.few
  rw [UInt64.lt_iff_toNat_lt, UInt64.toNat_ofNat', UInt64.toNat_ofNat',
    Nat.mod_eq_of_lt (by omega), Nat.mod_eq_of_lt (by omega)]

/-! ## The writer -/

/-- The writer goes on to a place and knows what it must there. -/
theorem writerAt {pc : Writer α} {seen : List ℕ} (h : s.Inv j)
    (hk : pc.Knows { s with writer := pc, seen := seen }) :
    ({ s with writer := pc, seen := seen } : System α).Inv j :=
  ⟨h.bits, h.size, h.mask, h.few, h.write, hk,
    fun i hi => ⟨(h.reader i hi).read, (h.reader i hi).fifo, (h.reader i hi).room,
      (h.reader i hi).window, (h.reader i hi).knows⟩, h.absent⟩

/-- **The loop of the scan**, and the test behind it. -/
theorem scanned {msg : α} {seen : List ℕ} {m cursor : ℕ} (h : s.Inv j) (hopen : s.ring.closed = false)
    (hle : cursor ≤ s.ring.readSeq.length) (hleast : Least { s with seen := seen } m cursor) :
    (({ s with seen := seen } : System α).scanned msg s.ring.writeSeq (UInt64.ofNat m) cursor).1.Inv
      j := by
  have hm := hleast.le
  have hfew := h.few
  have hdist : (s.ring.writeSeq - UInt64.ofNat m).toNat = s.pushed.length - m := by
    rw [h.write]
    exact toNat_cursor_sub hm (by omega)
  unfold System.scanned
  split
  · next hlt =>
    exact h.writerAt ⟨hopen, rfl, hlt, m, rfl, hleast.le, hleast.below, hleast.seen, hleast.room,
      hleast.length⟩
  · next hlast =>
    split
    · exact h.writerAt trivial
    · next hfree =>
      refine h.writerAt ⟨hopen, rfl, fun i hi => ?_⟩
      have hbelow := hleast.below i (by simp only at hlast hi; omega)
      simp only [hdist] at hfree hbelow ⊢
      omega

/-- The scan begins with the writer's own cursor. -/
theorem startScan {msg : α} {write : UInt64} (h : s.Inv j) (hpc : s.writer = .startScan msg write) :
    s.stepWriter.1.Inv j := by
  have hk := h.writer
  rw [hpc] at hk
  obtain ⟨hopen, rfl⟩ := hk
  unfold stepWriter
  rw [hpc]
  dsimp only
  have hstart := @scanned _ _ s msg [] s.pushed.length 0 h hopen (Nat.zero_le _)
    ⟨le_rfl, fun k hk => absurd hk (Nat.not_lt_zero k), .inl rfl, Nat.le_add_right _ _, rfl⟩
  rwa [← h.write] at hstart

/-- **One cursor of the scan.** -/
theorem scan_least {cursor k : ℕ} (h : s.Inv j) (hlt : cursor < s.ring.readSeq.length)
    (hleast : Least s k cursor) :
    ∃ m, (if s.ring.readSeq.getD cursor 0 < UInt64.ofNat k then s.ring.readSeq.getD cursor 0
        else UInt64.ofNat k) = UInt64.ofNat m ∧
      Least { s with seen := s.seen ++ [s.pushed.length - (s.popped cursor).length] } m
        (cursor + 1) := by
  have hr := h.reader cursor hlt
  have hle := hr.fifo.length_le
  have hread : s.ring.readSeq.getD cursor 0 = UInt64.ofNat (s.popped cursor).length := by
    rw [List.getD_eq_getElem?_getD, hr.read]
    rfl
  have hlen : (s.seen ++ [s.pushed.length - (s.popped cursor).length]).length = cursor + 1 := by
    rw [List.length_append, hleast.length]
    rfl
  rw [hread]
  by_cases hless : (s.popped cursor).length < k
  · rw [if_pos ((h.cursor_lt_iff hle hleast.le).mpr hless)]
    refine ⟨_, rfl, hle, fun i hi => ?_, .inr ?_, hr.room, hlen⟩
    · rcases Nat.lt_succ_iff_lt_or_eq.mp hi with hi | rfl
      · exact hless.le.trans (hleast.below i hi)
      · exact le_rfl
    · exact List.mem_append_right _ (List.mem_singleton.mpr rfl)
  · rw [if_neg (fun hc => hless ((h.cursor_lt_iff hle hleast.le).mp hc))]
    refine ⟨_, rfl, hleast.le, fun i hi => ?_, ?_, hleast.room, hlen⟩
    · rcases Nat.lt_succ_iff_lt_or_eq.mp hi with hi | rfl
      · exact hleast.below i hi
      · exact not_lt.mp hless
    · exact hleast.seen.imp_right (List.mem_append_left _)

/-- One cursor of a scan keeps the invariant. -/
theorem scan {msg : α} {write m : UInt64} {cursor : ℕ} (h : s.Inv j)
    (hpc : s.writer = .scan msg write m cursor) : s.stepWriter.1.Inv j := by
  have hk := h.writer
  rw [hpc] at hk
  obtain ⟨hopen, rfl, hlt, k, rfl, hleast⟩ := hk
  obtain ⟨m, hm, hnext⟩ := h.scan_least hlt hleast
  unfold stepWriter
  rw [hpc]
  dsimp only
  rw [hm]
  exact h.scanned hopen hlt hnext

/-- **A slot is written**: one that every reader has left. -/
theorem writeSlot {msg : α} {write : UInt64} (h : s.Inv j) (hpc : s.writer = .writeSlot msg write) :
    s.stepWriter.1.Inv j := by
  have hk := h.writer
  rw [hpc] at hk
  obtain ⟨hopen, rfl, hfree⟩ := hk
  unfold stepWriter
  rw [hpc]
  dsimp only
  rw [h.write_slot]
  have hlen : (s.ring.buf.set (s.pushed.length % s.ring.buf.length) msg).length = s.ring.buf.length :=
    List.length_set
  refine ⟨h.bits, hlen.trans h.size, h.mask, h.few, h.write, ⟨hopen, rfl, fun i hi => ?_, ?_⟩,
    fun i hi => ?_, h.absent⟩
  · simp only [hlen]
    exact hfree i hi
  · simp only [hlen]
    exact List.getElem?_set_self (Nat.mod_lt _ h.size_pos)
  · have hr := h.reader i hi
    refine ⟨hr.read, hr.fifo, ?_, hr.window.set (hfree i hi) msg, hr.knows⟩
    simp only [hlen]
    exact hr.room

/-- A reader knows as much when there are more messages. -/
theorem knows_append {closed : Bool} {pushed popped : List α} {pc : Reader α} (msg : α)
    (hk : pc.Knows closed pushed popped) : pc.Knows closed (pushed ++ [msg]) popped := by
  cases pc with
  | idle | loadRead | loadClosed => trivial
  | loadWrite read | loadReadAgain | loadWriteAgain read => exact hk
  | readSlot read =>
    refine ⟨hk.1, ?_⟩
    rw [List.length_append]
    exact Nat.lt_add_right _ hk.2
  | storeRead read m =>
    refine ⟨hk.1, ?_⟩
    rw [List.getElem?_append_left (List.getElem?_eq_some_iff.mp hk.2).1]
    exact hk.2

/-- **A message is published.** -/
theorem storeWrite {msg : α} {write : UInt64} (h : s.Inv j) (hpc : s.writer = .storeWrite msg write)
    (hfew : s.pushed.length + 1 < 2 ^ 64) : s.stepWriter.1.Inv j := by
  have hk := h.writer
  rw [hpc] at hk
  obtain ⟨hopen, rfl, hfree, hslot⟩ := hk
  have hlen : (s.pushed ++ [msg]).length = s.pushed.length + 1 := List.length_append
  unfold stepWriter
  rw [hpc]
  refine ⟨h.bits, h.size, h.mask, ?_, ?_, trivial, fun i hi => ?_, h.absent⟩
  · simp only [hlen]
    exact hfew
  · simp only [hlen, h.write]
    exact cursor_succ _
  · have hr := h.reader i hi
    refine ⟨hr.read, hr.fifo.trans (List.prefix_append _ _), ?_, ?_, knows_append msg hr.knows⟩
    · simp only [hlen]
      exact hfree i hi
    · simp only [hlen]
      exact hr.window.push rfl hslot

/-- **The ring is closed.** -/
theorem storeClosed (h : s.Inv j) (hpc : s.writer = .storeClosed) : s.stepWriter.1.Inv j := by
  unfold stepWriter
  rw [hpc]
  refine ⟨h.bits, h.size, h.mask, h.few, h.write, trivial, fun i hi => ?_, h.absent⟩
  have hr := h.reader i hi
  refine ⟨hr.read, hr.fifo, hr.room, hr.window, ?_⟩
  have hk := hr.knows
  show (s.reader i).Knows true s.pushed (s.popped i)
  cases hrd : s.reader i with
  | idle | loadRead | loadClosed => trivial
  | loadWrite read | readSlot read | storeRead read m =>
    rw [hrd] at hk
    exact hk
  | loadReadAgain => rfl
  | loadWriteAgain read =>
    rw [hrd] at hk
    exact ⟨rfl, hk.2⟩

/-- A step of the writer keeps the invariant. -/
theorem stepWriter (h : s.Inv j) (hfew : s.stepWriter.1.pushed.length < 2 ^ 64) :
    s.stepWriter.1.Inv j := by
  cases hpc : s.writer with
  | startScan msg write => exact h.startScan hpc
  | scan msg write m cursor => exact h.scan hpc
  | writeSlot msg write => exact h.writeSlot hpc
  | storeClosed => exact h.storeClosed hpc
  | storeWrite msg write =>
    refine h.storeWrite hpc ?_
    unfold System.stepWriter at hfew
    rw [hpc] at hfew
    simpa using hfew
  | idle =>
    unfold System.stepWriter
    rw [hpc]
    exact h
  | loadClosed msg =>
    unfold System.stepWriter
    rw [hpc]
    dsimp only
    split
    · exact h.writerAt trivial
    · next hopen => exact h.writerAt (eq_false_of_ne_true hopen)
  | loadWrite msg =>
    have hk := h.writer
    rw [hpc] at hk
    unfold System.stepWriter
    rw [hpc]
    exact h.writerAt ⟨hk, rfl⟩

/-! ## The readers -/

/-- **Readers that go on** leave the writer what it knows. -/
theorem writer_mono {s' : System α} {pc : Writer α} (hk : pc.Knows s)
    (hclosed : s'.ring.closed = s.ring.closed) (hwrite : s'.ring.writeSeq = s.ring.writeSeq)
    (hreaders : s'.ring.readSeq.length = s.ring.readSeq.length) (hbuf : s'.ring.buf = s.ring.buf)
    (hpushed : s'.pushed = s.pushed) (hseen : s'.seen = s.seen)
    (hpopped : ∀ i, (s.popped i).length ≤ (s'.popped i).length) : pc.Knows s' := by
  have hfree : Free s → Free s' := by
    intro hfree i hi
    rw [hreaders] at hi
    rw [hpushed, hbuf]
    exact (hfree i hi).trans_le (Nat.add_le_add_right (hpopped i) _)
  cases pc with
  | idle | loadClosed msg | storeClosed => trivial
  | loadWrite msg => exact hclosed.trans hk
  | startScan msg write => exact ⟨hclosed.trans hk.1, hk.2.trans hwrite.symm⟩
  | scan msg write m cursor =>
    obtain ⟨hopen, hw, hlt, k, hm, hleast⟩ := hk
    refine ⟨hclosed.trans hopen, hw.trans hwrite.symm, hreaders ▸ hlt, k, hm, ?_, fun i hi => ?_, ?_, ?_,
      ?_⟩
    · rw [hpushed]
      exact hleast.le
    · exact (hleast.below i hi).trans (hpopped i)
    · rw [hpushed, hseen]
      exact hleast.seen
    · rw [hpushed, hbuf]
      exact hleast.room
    · rw [hseen]
      exact hleast.length
  | writeSlot msg write => exact ⟨hclosed.trans hk.1, hk.2.1.trans hwrite.symm, hfree hk.2.2⟩
  | storeWrite msg write =>
    refine ⟨hclosed.trans hk.1, hk.2.1.trans hwrite.symm, hfree hk.2.2.1, ?_⟩
    rw [hpushed, hbuf]
    exact hk.2.2.2

/-- The reader goes on to a place and knows what it must there. -/
theorem readerAt {i : ℕ} {pc : Reader α} (h : s.Inv j) (hi : i < s.ring.readSeq.length)
    (hk : pc.Knows s.ring.closed s.pushed (s.popped i)) : (s.readerAt i pc).Inv j := by
  refine ⟨h.bits, h.size, h.mask, h.few, h.write, ?_, fun k hlt => ?_, fun k hge => ?_⟩
  · exact writer_mono h.writer rfl rfl rfl rfl rfl rfl fun _ => le_rfl
  · have hr := h.reader k hlt
    refine ⟨hr.read, hr.fifo, hr.room, hr.window, ?_⟩
    show (Function.update s.reader i pc k).Knows s.ring.closed s.pushed (s.popped k)
    rcases eq_or_ne k i with rfl | hne
    · rw [Function.update_self]
      exact hk
    · rw [Function.update_of_ne hne]
      exact hr.knows
  · show Function.update s.reader i pc k = .idle
    rw [Function.update_of_ne (fun hc => by subst hc; exact absurd hi (not_lt.mpr hge))]
    exact h.absent k hge

/-- **A message is popped** by one reader. -/
theorem storeRead [Inhabited α] {i : ℕ} {read : UInt64} {msg : α} (h : s.Inv j)
    (hi : i < s.ring.readSeq.length) (hpc : s.reader i = .storeRead read msg) :
    (s.stepReader i).1.Inv j := by
  have hr := h.reader i hi
  have hk := hr.knows
  rw [hpc] at hk
  obtain ⟨rfl, hmsg⟩ := hk
  have hlt : (s.popped i).length < s.pushed.length := (List.getElem?_eq_some_iff.mp hmsg).1
  have hlen : (s.popped i ++ [msg]).length = (s.popped i).length + 1 := List.length_append
  have hself : Function.update s.popped i (s.popped i ++ [msg]) i = s.popped i ++ [msg] :=
    Function.update_self _ _ _
  unfold stepReader
  rw [hpc]
  refine ⟨h.bits, h.size, h.mask, h.few, h.write, ?_, fun k hlt' => ?_, fun k hge => ?_⟩
  · refine writer_mono h.writer rfl rfl List.length_set rfl rfl rfl fun k => ?_
    show (s.popped k).length ≤ (Function.update s.popped i (s.popped i ++ [msg]) k).length
    rcases eq_or_ne k i with rfl | hne
    · rw [hself, hlen]
      exact Nat.le_succ _
    · rw [Function.update_of_ne hne]
  · simp only [System.readerAt, List.length_set] at hlt'
    rcases eq_or_ne k i with rfl | hne
    · refine ⟨?_, ?_, ?_, ?_, ?_⟩
      all_goals simp only [System.readerAt, hself, Function.update_self]
      · rw [List.getElem?_set_self hi, cursor_succ, hlen]
      · rw [List.prefix_iff_eq_take, hlen, List.take_add_one, ← List.prefix_iff_eq_take.mp hr.fifo,
          hmsg]
        rfl
      · have hroom := hr.room
        omega
      · rw [hlen]
        exact hr.window.mono (Nat.le_succ _)
      · trivial
    · have hother := h.reader k hlt'
      refine ⟨?_, ?_, ?_, ?_, ?_⟩
      all_goals simp only [System.readerAt, Function.update_of_ne hne]
      · rw [List.getElem?_set_ne (Ne.symm hne)]
        exact hother.read
      · exact hother.fifo
      · exact hother.room
      · exact hother.window
      · exact hother.knows
  · simp only [System.readerAt, List.length_set] at hge ⊢
    rw [Function.update_of_ne (fun hc => by subst hc; exact absurd hi (not_lt.mpr hge))]
    exact h.absent k hge

/-- A step of a reader keeps the invariant. -/
theorem stepReader [Inhabited α] (h : s.Inv j) (i : ℕ) : (s.stepReader i).1.Inv j := by
  rcases Nat.lt_or_ge i s.ring.readSeq.length with hi | hge
  · have hr := h.reader i hi
    have hk := hr.knows
    have hread : s.ring.readSeq.getD i 0 = UInt64.ofNat (s.popped i).length := by
      rw [List.getD_eq_getElem?_getD, hr.read]
      rfl
    cases hpc : s.reader i with
    | storeRead read msg => exact h.storeRead hi hpc
    | idle =>
      unfold System.stepReader
      rw [hpc]
      exact h
    | loadRead =>
      unfold System.stepReader
      rw [hpc]
      exact h.readerAt hi hread
    | loadWrite read =>
      rw [hpc] at hk
      obtain rfl : read = UInt64.ofNat (s.popped i).length := hk
      unfold System.stepReader
      rw [hpc]
      dsimp only
      split
      · exact h.readerAt hi trivial
      · next hne =>
        have hle := hr.fifo.length_le
        rw [h.meet_iff hle] at hne
        exact h.readerAt hi ⟨rfl, by omega⟩
    | readSlot read =>
      rw [hpc] at hk
      obtain ⟨rfl, hlt⟩ := hk
      unfold System.stepReader
      rw [hpc]
      dsimp only
      refine h.readerAt hi ⟨rfl, ?_⟩
      rw [h.mask, toNat_cursor_and h.bits, ← h.size, List.getD_eq_getElem?_getD,
        hr.window _ le_rfl hlt, List.getElem?_eq_getElem hlt]
      rfl
    | loadClosed =>
      unfold System.stepReader
      rw [hpc]
      dsimp only
      split
      · next hclosed => exact h.readerAt hi hclosed
      · exact h.readerAt hi trivial
    | loadReadAgain =>
      rw [hpc] at hk
      unfold System.stepReader
      rw [hpc]
      exact h.readerAt hi ⟨hk, hread⟩
    | loadWriteAgain read =>
      unfold System.stepReader
      rw [hpc]
      dsimp only
      split
      · exact h.readerAt hi trivial
      · exact h.readerAt hi trivial
  · unfold System.stepReader
    rw [h.absent i hge]
    exact h

/-! ## Schedules -/

/-- Every act keeps the invariant. -/
theorem step [Inhabited α] {act : Act α} (h : s.Inv j)
    (hfew : (s.step act).1.pushed.length < 2 ^ 64) : (s.step act).1.Inv j := by
  cases act with
  | push msg =>
    unfold System.step
    dsimp only
    split
    · exact h.writerAt trivial
    · exact h
  | close =>
    unfold System.step
    dsimp only
    split
    · exact h.writerAt trivial
    · exact h
  | writer => exact h.stepWriter hfew
  | pop i =>
    unfold System.step
    dsimp only
    split
    · split
      · next hi => exact h.readerAt hi trivial
      · exact h
    · exact h
  | reader i => exact h.stepReader i

end System.Inv

/-- Messages are only added. -/
theorem System.pushed_step [Inhabited α] (s : System α) (act : Act α) :
    s.pushed <+: (s.step act).1.pushed := by
  have hscanned : ∀ (s : System α) (msg : α) (write m : UInt64) (cursor : ℕ),
      (s.scanned msg write m cursor).1.pushed = s.pushed := by
    intro s msg write m cursor
    unfold System.scanned
    split
    · rfl
    · split <;> rfl
  cases act with
  | push msg | close =>
    unfold System.step
    dsimp only
    split <;> exact List.prefix_rfl
  | pop i =>
    unfold System.step
    dsimp only
    split
    · split <;> exact List.prefix_rfl
    · exact List.prefix_rfl
  | writer =>
    show s.pushed <+: s.stepWriter.1.pushed
    unfold System.stepWriter
    split
    · exact List.prefix_rfl
    · split <;> exact List.prefix_rfl
    · exact List.prefix_rfl
    · rw [hscanned]
    · rw [hscanned]
    · exact List.prefix_rfl
    · exact List.prefix_append _ _
    · exact List.prefix_rfl
  | reader i =>
    show s.pushed <+: (s.stepReader i).1.pushed
    unfold System.stepReader
    split
    all_goals try split
    all_goals exact List.prefix_rfl

/-- What was pushed stays pushed. -/
theorem System.pushed_after [Inhabited α] (s : System α) (acts : List (Act α)) :
    s.pushed <+: (s.after acts).pushed := by
  unfold System.after
  induction acts generalizing s with
  | nil => exact List.prefix_rfl
  | cons act acts ih => exact (s.pushed_step act).trans (ih _)

/-- Every schedule keeps the invariant. -/
theorem System.Inv.after [Inhabited α] {j : ℕ} {s : System α} (h : s.Inv j) (acts : List (Act α))
    (hfew : (s.after acts).pushed.length < 2 ^ 64) : (s.after acts).Inv j := by
  induction acts generalizing s with
  | nil => exact h
  | cons act acts ih =>
    have hle := ((s.step act).1.pushed_after acts).length_le
    exact ih (h.step (hle.trans_lt hfew)) hfew

/-! ## The answers -/

namespace System

variable {s : System α}

/-- A scan answers `Full` at its end only. -/
theorem scanned_event {msg : α} {write m : UInt64} {cursor : ℕ} {ev : Event α}
    (hev : (s.scanned msg write m cursor).2 = some ev) :
    ev = .pushFull ∧ s.ring.readSeq.length ≤ cursor ∧ s.ring.buf.length ≤ (write - m).toNat ∧
      (s.scanned msg write m cursor).1.seen = s.seen := by
  unfold scanned at hev ⊢
  split at hev
  · exact nomatch hev
  · next hlast =>
    rw [if_neg hlast]
    split at hev
    · next hfull =>
      rw [if_pos hfull]
      exact ⟨(Option.some.inj hev).symm, not_lt.mp hlast, hfull, rfl⟩
    · exact nomatch hev

/-- Where the writer is when its step says something. -/
def WriterSays (s : System α) : Event α → Prop
  | .wrote slot =>
    ∃ msg write, s.writer = .writeSlot msg write ∧ slot = (write &&& s.ring.mask).toNat
  | .pushFull =>
    (∃ msg write, s.writer = .startScan msg write) ∨
      ∃ msg write m cursor, s.writer = .scan msg write m cursor
  | .pushOk | .pushClosed | .closed => True
  | .popOk _ _ | .popClosed _ => False

/-- What the answers of the writer say. -/
theorem stepWriter_event {ev : Event α} (hev : s.stepWriter.2 = some ev) : s.WriterSays ev := by
  unfold stepWriter at hev
  cases hpc : s.writer with
  | idle | loadWrite msg =>
    rw [hpc] at hev
    exact nomatch hev
  | loadClosed msg =>
    rw [hpc] at hev
    dsimp only at hev
    split at hev
    · rw [← Option.some.inj hev]
      trivial
    · exact nomatch hev
  | startScan msg write =>
    rw [hpc] at hev
    rw [(scanned_event hev).1]
    exact .inl ⟨msg, write, hpc⟩
  | scan msg write m cursor =>
    rw [hpc] at hev
    rw [(scanned_event hev).1]
    exact .inr ⟨msg, write, m, cursor, hpc⟩
  | writeSlot msg write =>
    rw [hpc] at hev
    rw [← Option.some.inj hev]
    exact ⟨msg, write, hpc, rfl⟩
  | storeWrite msg write | storeClosed =>
    rw [hpc] at hev
    rw [← Option.some.inj hev]
    trivial

/-- Where a reader is when its step says something. -/
def ReaderSays (s : System α) (i : ℕ) : Event α → Prop
  | .popClosed k => k = i ∧ ∃ read, s.reader i = .loadWriteAgain read ∧ read = s.ring.writeSeq
  | .popOk k _ => k = i
  | .wrote _ | .pushOk | .pushFull | .pushClosed | .closed => False

/-- What the answers of a reader say. -/
theorem stepReader_event [Inhabited α] {i : ℕ} {ev : Event α} (hev : (s.stepReader i).2 = some ev) :
    s.ReaderSays i ev := by
  unfold stepReader at hev
  cases hpc : s.reader i with
  | idle | loadRead | readSlot read | loadReadAgain =>
    rw [hpc] at hev
    exact nomatch hev
  | loadWrite read | loadClosed =>
    rw [hpc] at hev
    dsimp only at hev
    split at hev <;> exact nomatch hev
  | storeRead read msg =>
    rw [hpc] at hev
    rw [← Option.some.inj hev]
    rfl
  | loadWriteAgain read =>
    rw [hpc] at hev
    dsimp only at hev
    split at hev
    · next heq =>
      rw [← Option.some.inj hev]
      exact ⟨rfl, read, hpc, heq⟩
    · exact nomatch hev

/-- A call says nothing. -/
theorem step_event [Inhabited α] {act : Act α} {ev : Event α} (hev : (s.step act).2 = some ev) :
    (act = .writer ∧ s.WriterSays ev) ∨ ∃ i, act = .reader i ∧ s.ReaderSays i ev := by
  cases act with
  | push msg | close =>
    unfold step at hev
    dsimp only at hev
    split at hev <;> exact nomatch hev
  | pop i =>
    unfold step at hev
    dsimp only at hev
    split at hev
    · split at hev <;> exact nomatch hev
    · exact nomatch hev
  | writer => exact .inl ⟨rfl, stepWriter_event hev⟩
  | reader i => exact .inr ⟨i, rfl, stepReader_event hev⟩

end System

/-- The test behind the scan fails for the sake of a reader that was a whole ring behind. -/
theorem System.Inv.scanned_full {j : ℕ} {s : System α} {msg : α} {seen : List ℕ} {m cursor : ℕ}
    (h : s.Inv j) (hle : cursor ≤ s.ring.readSeq.length) (hleast : Least { s with seen := seen } m cursor)
    (hev : (({ s with seen := seen } : System α).scanned msg s.ring.writeSeq (UInt64.ofNat m)
      cursor).2 = some .pushFull) :
    ∃ k < s.ring.readSeq.length,
      (({ s with seen := seen } : System α).scanned msg s.ring.writeSeq (UInt64.ofNat m)
        cursor).1.seen[k]? = some s.ring.buf.length := by
  obtain ⟨-, -, hfull, hsame⟩ := System.scanned_event hev
  have hfew := h.few
  have hpos := h.size_pos
  have hm : m ≤ s.pushed.length := hleast.le
  have hroom : s.pushed.length ≤ m + s.ring.buf.length := hleast.room
  have hlen : seen.length = cursor := hleast.length
  rw [h.write, toNat_cursor_sub hm (by omega)] at hfull
  have hbehind : s.pushed.length - m = s.ring.buf.length := by
    simp only at hfull
    omega
  have hmem : s.pushed.length - m ∈ seen := by
    rcases hleast.seen with heq | hmem
    · simp only at heq
      omega
    · exact hmem
  rw [hbehind] at hmem
  obtain ⟨k, hk⟩ := List.mem_iff_getElem?.mp hmem
  have hklt := (List.getElem?_eq_some_iff.mp hk).1
  exact ⟨k, by omega, by rw [hsame]; exact hk⟩

namespace System.Inv

variable [Inhabited α] {j : ℕ} {s : System α} {act : Act α}

/-- **A slot that is written** holds no message that a reader still has to pop. -/
theorem wrote {slot r i : ℕ} (h : s.Inv j) (hev : (s.step act).2 = some (.wrote slot))
    (hr : r < s.ring.readSeq.length) (hle : (s.popped r).length ≤ i) (hlt : i < s.pushed.length) :
    slot ≠ i % s.ring.buf.length := by
  rcases step_event hev with ⟨-, hheard⟩ | ⟨k, -, hheard⟩
  · obtain ⟨msg, write, hpc, rfl⟩ := hheard
    have hk := h.writer
    rw [hpc] at hk
    obtain ⟨-, rfl, hfree⟩ := hk
    have hroom := hfree r hr
    rw [h.write_slot]
    exact slot_ne hlt (by omega)
  · exact hheard.elim

/-- **`Full`** is answered when a reader was a whole ring behind as its cursor was read. -/
theorem pushFull (h : s.Inv j) (hev : (s.step act).2 = some .pushFull) :
    ∃ k < s.ring.readSeq.length, (s.step act).1.seen[k]? = some s.ring.buf.length := by
  rcases step_event hev with ⟨rfl, hheard⟩ | ⟨k, -, hheard⟩
  · change s.stepWriter.2 = _ at hev
    show ∃ k < _, s.stepWriter.1.seen[k]? = _
    unfold System.stepWriter at hev ⊢
    have hk := h.writer
    rcases hheard with ⟨msg, write, hpc⟩ | ⟨msg, write, m, cursor, hpc⟩
    · rw [hpc] at hk hev ⊢
      obtain ⟨-, rfl⟩ := hk
      dsimp only at hev ⊢
      have hleast : Least { s with seen := [] } s.pushed.length 0 :=
        ⟨le_rfl, fun k hk => absurd hk (Nat.not_lt_zero k), .inl rfl, Nat.le_add_right _ _, rfl⟩
      have hfull := @scanned_full _ _ s msg _ _ _ h (Nat.zero_le _) hleast
      rw [← h.write] at hfull
      exact hfull hev
    · rw [hpc] at hk hev ⊢
      obtain ⟨-, rfl, hlt, k, rfl, hleast⟩ := hk
      obtain ⟨m, hm, hnext⟩ := h.scan_least hlt hleast
      dsimp only at hev ⊢
      rw [hm] at hev ⊢
      exact h.scanned_full hlt hnext hev
  · exact hheard.elim

/-- **`Closed`** is answered when the ring is closed and the reader has popped everything. -/
theorem popClosed {i : ℕ} (h : s.Inv j) (hev : (s.step act).2 = some (.popClosed i)) :
    s.ring.closed = true ∧ s.popped i = s.pushed := by
  rcases step_event hev with ⟨-, hheard⟩ | ⟨k, -, hheard⟩
  · exact hheard.elim
  · obtain ⟨rfl, read, hpc, heq⟩ := hheard
    rcases Nat.lt_or_ge i s.ring.readSeq.length with hi | hge
    · have hr := h.reader i hi
      have hk := hr.knows
      rw [hpc] at hk
      obtain ⟨hclosed, rfl⟩ := hk
      exact ⟨hclosed, hr.fifo.eq_of_length ((h.meet_iff hr.fifo.length_le).mp heq)⟩
    · rw [h.absent i hge] at hpc
      exact nomatch hpc

/-- Nothing is pushed into a ring that is closed. -/
theorem step_of_closed (h : s.Inv j) (hclosed : s.ring.closed = true) (act : Act α) :
    (s.step act).1.ring.closed = true ∧ (s.step act).1.pushed = s.pushed := by
  cases act with
  | push msg | close =>
    unfold System.step
    dsimp only
    split <;> exact ⟨hclosed, rfl⟩
  | pop i =>
    unfold System.step
    dsimp only
    split
    · split <;> exact ⟨hclosed, rfl⟩
    · exact ⟨hclosed, rfl⟩
  | writer =>
    have hk := h.writer
    show s.stepWriter.1.ring.closed = true ∧ s.stepWriter.1.pushed = s.pushed
    unfold System.stepWriter
    cases hpc : s.writer with
    | idle => exact ⟨hclosed, rfl⟩
    | storeClosed => exact ⟨rfl, rfl⟩
    | loadClosed msg =>
      dsimp only
      rw [if_pos hclosed]
      exact ⟨hclosed, rfl⟩
    | loadWrite msg =>
      rw [hpc] at hk
      exact absurd (hclosed.symm.trans hk) (by decide)
    | startScan msg write | scan msg write m cursor | writeSlot msg write | storeWrite msg write =>
      rw [hpc] at hk
      exact absurd (hclosed.symm.trans hk.1) (by decide)
  | reader i =>
    show (s.stepReader i).1.ring.closed = true ∧ (s.stepReader i).1.pushed = s.pushed
    unfold System.stepReader
    split
    all_goals try split
    all_goals exact ⟨hclosed, rfl⟩

/-- Nothing is pushed behind `close`. -/
theorem after_of_closed (h : s.Inv j) (hclosed : s.ring.closed = true) (acts : List (Act α)) :
    (s.after acts).pushed = s.pushed := by
  unfold System.after
  induction acts generalizing s with
  | nil => rfl
  | cons act acts ih =>
    obtain ⟨hstill, hsame⟩ := h.step_of_closed hclosed act
    have hnext : (s.step act).1.Inv j := by
      refine h.step ?_
      rw [hsame]
      exact h.few
    rw [List.foldl_cons, ih hnext hstill, hsame]

end System.Inv

/-! ## Delivery -/

/-- **A new ring** has a power of two of slots, at least as many as were asked for. -/
theorem inv_new [Inhabited α] {capacity : UInt64} {numReaders : ℕ} {f : MpmcFanout α}
    (hnew : MpmcFanout.new capacity numReaders = some f) :
    ∃ j, System.Inv j { ring := f } ∧ capacity.toNat ≤ f.buf.length ∧
      f.readSeq.length = numReaders := by
  obtain ⟨hfits, hloops⟩ := nextPow2_spec capacity
  unfold MpmcFanout.new at hnew
  by_cases hle : capacity.toNat ≤ 2 ^ 63
  · obtain ⟨b, hb, hpow, hcap⟩ := hfits hle
    rw [hpow, Option.map_some] at hnew
    rw [← Option.some.inj hnew, toNat_ofNat_pow hb]
    have hlen : (List.replicate (2 ^ b) (default : α)).length = 2 ^ b := List.length_replicate
    refine ⟨b, ⟨hb, hlen, ofNat_pow_sub_one b, Nat.two_pow_pos 64, rfl, trivial, fun i hi => ?_, ?_⟩,
      ?_, List.length_replicate⟩
    · have hi' : i < numReaders := by simpa using hi
      refine ⟨?_, List.nil_prefix, Nat.zero_le _, window_empty _ _ _, trivial⟩
      rw [List.getElem?_replicate, if_pos hi']
      rfl
    · exact fun _ _ => rfl
    · rw [hlen]
      exact hcap
  · rw [hloops (by omega)] at hnew
    exact nomatch hnew

/-- The constructor returns for every capacity up to `2 ^ 63`. -/
theorem new_isSome_iff [Inhabited α] (capacity : UInt64) (numReaders : ℕ) :
    (∃ f : MpmcFanout α, MpmcFanout.new capacity numReaders = some f) ↔ capacity.toNat ≤ 2 ^ 63 := by
  obtain ⟨hfits, hloops⟩ := nextPow2_spec capacity
  unfold MpmcFanout.new
  constructor
  · rintro ⟨f, hnew⟩
    by_contra hgt
    rw [hloops (by omega)] at hnew
    exact nomatch hnew
  · intro hle
    obtain ⟨b, -, hpow, -⟩ := hfits hle
    rw [hpow]
    exact ⟨_, rfl⟩

/-- The number of readers does not change. -/
theorem System.readers_step [Inhabited α] (s : System α) (act : Act α) :
    (s.step act).1.ring.readSeq.length = s.ring.readSeq.length := by
  have hscanned : ∀ (s : System α) (msg : α) (write m : UInt64) (cursor : ℕ),
      (s.scanned msg write m cursor).1.ring = s.ring := by
    intro s msg write m cursor
    unfold System.scanned
    split
    · rfl
    · split <;> rfl
  cases act with
  | push msg | close =>
    unfold System.step
    dsimp only
    split <;> rfl
  | pop i =>
    unfold System.step
    dsimp only
    split
    · split <;> rfl
    · rfl
  | writer =>
    show s.stepWriter.1.ring.readSeq.length = _
    unfold System.stepWriter
    split
    · rfl
    · split <;> rfl
    · rfl
    · rw [hscanned]
    · rw [hscanned]
    · rfl
    · rfl
    · rfl
  | reader i =>
    show (s.stepReader i).1.ring.readSeq.length = _
    unfold System.stepReader
    split
    · rfl
    · rfl
    · split <;> rfl
    · rfl
    · exact List.length_set
    · split <;> rfl
    · rfl
    · split <;> rfl

/-- No step adds a reader. -/
theorem System.readers_after [Inhabited α] (s : System α) (acts : List (Act α)) :
    (s.after acts).ring.readSeq.length = s.ring.readSeq.length := by
  unfold System.after
  induction acts generalizing s with
  | nil => rfl
  | cons act acts ih => exact (ih _).trans (s.readers_step act)

end PulseForge.MpmcFanout
