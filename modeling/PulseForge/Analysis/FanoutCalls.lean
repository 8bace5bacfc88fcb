import PulseForge.Analysis.FanoutDelivery

/-!
# What the callers of the fan-out ring are answered

The log of a run has the calls of the writer and of the readers with their answers. The messages
of the calls of `try_push` that answered `Ok` and those that the calls of `pop` answered are the
messages behind the cursors, so what holds of the ring holds of the answers. `Full` is the answer
of a call that has read the cursor of a reader when that reader was a whole ring behind.
-/

set_option autoImplicit false

namespace PulseForge.MpmcFanout

open Foundation

variable {α : Type}

/-! ## The calls -/

/-- The call that the writer is in. -/
def Writer.call : Writer α → Option (QueueCall α)
  | .idle => none
  | .loadClosed msg | .loadWrite msg | .startScan msg _ | .scan msg _ _ _ | .writeSlot msg _
  | .storeWrite msg _ => some (.tryPush msg)
  | .storeClosed => some .close

/-- The call that a reader is in. -/
def Reader.call : Reader α → Option (QueueCall α)
  | .idle => none
  | .loadRead | .loadWrite _ | .readSlot _ | .storeRead _ _ | .loadClosed | .loadReadAgain
  | .loadWriteAgain _ => some .pop

/-- **What a step of the writer answers**: nothing, or the answer to its call. -/
inductive WriterServes (s s' : System α) : Option (QueueAnswer α) → Prop
  | goes (hcall : s'.writer.call = s.writer.call) (hpushed : s'.pushed = s.pushed)
    (hclosed : s'.ring.closed = s.ring.closed) : WriterServes s s' none
  | returns {call : QueueCall α} {a : QueueAnswer α} (hcall : s.writer.call = some call)
    (hidle : s'.writer.call = none)
    (hpushed : s'.pushed = s.pushed ++ (QueueHistory.put (call, a)).toList)
    (hclosed : s'.ring.closed = true ↔ s.ring.closed = true ∨ (call, a) = (.close, .done)) :
    WriterServes s s' (some a)

/-- **What a step of reader `i` answers.** -/
inductive ReaderServes (i : ℕ) (s s' : System α) : Option (QueueAnswer α) → Prop
  | goes (hcall : (s'.reader i).call = (s.reader i).call) (hpopped : s'.popped i = s.popped i) :
    ReaderServes i s s' none
  | returns {call : QueueCall α} {a : QueueAnswer α} (hcall : (s.reader i).call = some call)
    (hidle : (s'.reader i).call = none)
    (hpopped : s'.popped i = s.popped i ++ (QueueHistory.taken (call, a)).toList) :
    ReaderServes i s s' (some a)

namespace System

variable {s : System α}

/-- The answer at the end of a scan is that of the call. -/
theorem scanned_serves {msg : α} {seen : List ℕ} {write m : UInt64} {cursor : ℕ}
    (hcall : s.writer.call = some (.tryPush msg)) :
    WriterServes s (({ s with seen := seen } : System α).scanned msg write m cursor).1
      ((({ s with seen := seen } : System α).scanned msg write m cursor).2.bind Event.answer) := by
  unfold scanned
  dsimp only
  split
  · exact .goes hcall.symm rfl rfl
  · split
    · exact .returns hcall rfl (List.append_nil _).symm (by simp)
    · exact .goes hcall.symm rfl rfl

/-- Every answer of the writer is that of its call. -/
theorem writer_serves (s : System α) :
    WriterServes s s.stepWriter.1 (s.stepWriter.2.bind Event.answer) := by
  unfold stepWriter
  cases hpc : s.writer with
  | idle =>
    exact .goes rfl rfl rfl
  | loadClosed msg =>
    dsimp only
    split
    · refine .returns (by rw [hpc]; rfl) rfl (List.append_nil _).symm (by simp)
    · exact .goes (by rw [hpc]; rfl) rfl rfl
  | loadWrite msg => exact .goes (by rw [hpc]; rfl) rfl rfl
  | startScan msg write => exact scanned_serves (by rw [hpc]; rfl)
  | scan msg write m cursor => exact scanned_serves (by rw [hpc]; rfl)
  | writeSlot msg write => exact .goes (by rw [hpc]; rfl) rfl rfl
  | storeWrite msg write =>
    refine .returns (by rw [hpc]; rfl) rfl rfl (by simp)
  | storeClosed =>
    refine .returns (by rw [hpc]; rfl) rfl (List.append_nil _).symm (by simp)

/-- The reader that stepped. -/
theorem readerAt_reader (s : System α) (i : ℕ) (pc : Reader α) : (s.readerAt i pc).reader i = pc :=
  Function.update_self _ _ _

/-- Every answer of a reader is that of its call. -/
theorem reader_serves [Inhabited α] (s : System α) (i : ℕ) :
    ReaderServes i s (s.stepReader i).1 ((s.stepReader i).2.bind Event.answer) := by
  unfold stepReader
  cases hpc : s.reader i with
  | idle => exact .goes rfl rfl
  | loadRead | readSlot read | loadReadAgain =>
    exact .goes (by rw [readerAt_reader, hpc]; rfl) rfl
  | loadWrite read | loadClosed =>
    dsimp only
    split <;> exact .goes (by rw [readerAt_reader, hpc]; rfl) rfl
  | storeRead read msg =>
    refine .returns (by rw [hpc]; rfl) (by rw [readerAt_reader]; rfl) ?_
    exact Function.update_self _ _ _
  | loadWriteAgain read =>
    dsimp only
    split
    · exact .returns (by rw [hpc]; rfl) (by rw [readerAt_reader]; rfl) (List.append_nil _).symm
    · exact .goes (by rw [readerAt_reader, hpc]; rfl) rfl

end System

/-- The writer changes nothing of the readers. -/
theorem System.stepWriter_readers (s : System α) :
    s.stepWriter.1.reader = s.reader ∧ s.stepWriter.1.popped = s.popped := by
  have hscanned : ∀ (s : System α) (msg : α) (write m : UInt64) (cursor : ℕ),
      (s.scanned msg write m cursor).1.reader = s.reader ∧
        (s.scanned msg write m cursor).1.popped = s.popped := by
    intro s msg write m cursor
    unfold System.scanned
    split
    · exact ⟨rfl, rfl⟩
    · split <;> exact ⟨rfl, rfl⟩
  unfold System.stepWriter
  split
  · exact ⟨rfl, rfl⟩
  · split <;> exact ⟨rfl, rfl⟩
  · exact ⟨rfl, rfl⟩
  · exact hscanned _ _ _ _ _
  · exact hscanned _ _ _ _ _
  · exact ⟨rfl, rfl⟩
  · exact ⟨rfl, rfl⟩
  · exact ⟨rfl, rfl⟩

/-- A reader changes nothing of the writer. -/
theorem System.stepReader_writer [Inhabited α] (s : System α) (i : ℕ) :
    (s.stepReader i).1.writer = s.writer ∧ (s.stepReader i).1.pushed = s.pushed ∧
      (s.stepReader i).1.seen = s.seen ∧ (s.stepReader i).1.ring.closed = s.ring.closed := by
  unfold stepReader
  split
  all_goals try split
  all_goals exact ⟨rfl, rfl, rfl, rfl⟩

/-- A reader changes nothing of another one. -/
theorem System.stepReader_other [Inhabited α] (s : System α) {i k : ℕ} (hne : k ≠ i) :
    (s.stepReader i).1.reader k = s.reader k ∧ (s.stepReader i).1.popped k = s.popped k := by
  have hat : ∀ (s : System α) (pc : Reader α), (s.readerAt i pc).reader k = s.reader k :=
    fun s pc => Function.update_of_ne hne _ _
  unfold stepReader
  split
  · exact ⟨rfl, rfl⟩
  · exact ⟨hat _ _, rfl⟩
  · split <;> exact ⟨hat _ _, rfl⟩
  · exact ⟨hat _ _, rfl⟩
  · exact ⟨hat _ _, Function.update_of_ne hne _ _⟩
  · split <;> exact ⟨hat _ _, rfl⟩
  · exact ⟨hat _ _, rfl⟩
  · split <;> exact ⟨hat _ _, rfl⟩

/-- A reader is not the writer. -/
theorem reader_ne_writer (i : ℕ) : Thread.reader i ≠ .writer := by simp

/-- Different readers are different threads. -/
theorem reader_ne {i k : ℕ} (hne : k ≠ i) : Thread.reader k ≠ .reader i := by simpa using hne

/-- **The log of a run** has the messages behind the cursors. -/
structure Run.Logged (r : Run α) : Prop where
  writer : r.calls.calling .writer = r.system.writer.call
  reader : ∀ i, r.calls.calling (.reader i) = (r.system.reader i).call
  sent : r.sent = r.system.pushed
  got : ∀ i, r.got i = r.system.popped i
  closed : r.WasClosed ↔ r.system.ring.closed = true

namespace Run.Logged

variable {r : Run α}

/-- The writer makes a call. -/
theorem writerCalls {pc : Writer α} {c : QueueCall α} (h : r.Logged)
    (hidle : r.system.writer = .idle) (hpc : pc.call = some c) :
    Run.Logged { system := { r.system with writer := pc }, calls := r.calls.call .writer c } := by
  have hnone : r.calls.calling .writer = none := by
    rw [h.writer, hidle]
    rfl
  refine ⟨?_, fun i => ?_, h.sent, h.got, h.closed⟩
  · exact (CallLog.calling_call_self hnone).trans hpc.symm
  · exact (CallLog.calling_call_of_ne (reader_ne_writer i)).trans (h.reader i)

/-- A writer that is in a call makes no other. -/
theorem writerBusy (h : r.Logged) (hbusy : r.system.writer ≠ .idle) (c : QueueCall α) :
    r.calls.call .writer c = r.calls := by
  have hcalling := h.writer
  cases hpc : r.system.writer with
  | idle => exact absurd hpc hbusy
  | loadClosed msg | loadWrite msg | startScan msg write | scan msg write m cursor
  | writeSlot msg write | storeWrite msg write | storeClosed =>
    rw [hpc] at hcalling
    exact CallLog.call_of_calling hcalling

/-- A reader makes a call. -/
theorem readerCalls {i : ℕ} (h : r.Logged) (hidle : r.system.reader i = .idle) :
    Run.Logged
      { system := r.system.readerAt i .loadRead, calls := r.calls.call (.reader i) .pop } := by
  have hnone : r.calls.calling (.reader i) = none := by
    rw [h.reader, hidle]
    rfl
  refine ⟨?_, fun k => ?_, h.sent, h.got, h.closed⟩
  · exact (CallLog.calling_call_of_ne (reader_ne_writer i).symm).trans h.writer
  · rcases eq_or_ne k i with rfl | hne
    · refine (CallLog.calling_call_self hnone).trans ?_
      rw [System.readerAt_reader]
      rfl
    · refine (CallLog.calling_call_of_ne (reader_ne hne)).trans ((h.reader k).trans ?_)
      exact congrArg Reader.call (Function.update_of_ne hne _ _).symm

/-- A reader that is in a call makes no other. -/
theorem readerBusy {i : ℕ} (h : r.Logged) (hbusy : r.system.reader i ≠ .idle) :
    r.calls.call (.reader i) .pop = r.calls := by
  have hcalling := h.reader i
  cases hpc : r.system.reader i with
  | idle => exact absurd hpc hbusy
  | loadRead | loadWrite read | readSlot read | storeRead read msg | loadClosed | loadReadAgain
  | loadWriteAgain read =>
    rw [hpc] at hcalling
    exact CallLog.call_of_calling hcalling

/-- **A step of the writer.** -/
theorem stepWriter (h : r.Logged) :
    Run.Logged
      { system := r.system.stepWriter.1
        calls := r.calls.answer .writer (r.system.stepWriter.2.bind Event.answer) } := by
  have hserves := r.system.writer_serves
  obtain ⟨hreader, hpopped⟩ := r.system.stepWriter_readers
  generalize r.system.stepWriter.2.bind Event.answer = o at hserves ⊢
  have hgot : ∀ i, QueueHistory.popped ((r.calls.answer .writer o).history (.reader i)) =
      r.system.stepWriter.1.popped i := by
    intro i
    rw [CallLog.history_answer_of_ne (reader_ne_writer i), hpopped]
    exact h.got i
  cases hserves with
  | goes hcall hpushed hclosed =>
    refine ⟨h.writer.trans hcall.symm, fun i => ?_, h.sent.trans hpushed.symm, hgot, ?_⟩
    · rw [hreader]
      exact h.reader i
    · rw [hclosed]
      exact h.closed
  | @returns call a hcall hidle hpushed hclosed =>
    have hhistory := CallLog.history_answer (a := a) (h.writer.trans hcall)
    refine ⟨?_, fun i => ?_, ?_, hgot, ?_⟩
    · exact CallLog.calling_answer_self.trans hidle.symm
    · rw [hreader]
      exact (CallLog.calling_answer_of_ne (reader_ne_writer i) (some a)).trans (h.reader i)
    · unfold Run.sent
      rw [hhistory, QueueHistory.pushed_concat, hpushed, ← h.sent]
      rfl
    · unfold Run.WasClosed QueueHistory.WasClosed
      rw [hhistory, List.mem_append, hclosed, ← h.closed, List.mem_singleton, eq_comm]
      rfl

/-- **A step of a reader.** -/
theorem stepReader [Inhabited α] (h : r.Logged) (i : ℕ) :
    Run.Logged
      { system := (r.system.stepReader i).1
        calls := r.calls.answer (.reader i) ((r.system.stepReader i).2.bind Event.answer) } := by
  have hserves := r.system.reader_serves i
  obtain ⟨hwriter, hpushed, -, hclosed⟩ := r.system.stepReader_writer i
  have hother := fun k (hne : k ≠ i) => r.system.stepReader_other hne
  generalize (r.system.stepReader i).2.bind Event.answer = o at hserves ⊢
  have hsent : (r.calls.answer (.reader i) o).history .writer = r.calls.history .writer :=
    CallLog.history_answer_of_ne (reader_ne_writer i).symm o
  have hgot : ∀ k, k ≠ i → QueueHistory.popped
      ((r.calls.answer (.reader i) o).history (.reader k)) = (r.system.stepReader i).1.popped k := by
    intro k hne
    rw [CallLog.history_answer_of_ne (reader_ne hne), (hother k hne).2]
    exact h.got k
  have hlog : QueueHistory.pushed ((r.calls.answer (.reader i) o).history .writer) =
      (r.system.stepReader i).1.pushed := by
    rw [hsent, hpushed]
    exact h.sent
  have hshut : QueueHistory.WasClosed ((r.calls.answer (.reader i) o).history .writer) ↔
      (r.system.stepReader i).1.ring.closed = true := by
    rw [hsent, hclosed]
    exact h.closed
  cases hserves with
  | goes hcall hpopped =>
    refine ⟨?_, fun k => ?_, hlog, fun k => ?_, hshut⟩
    · rw [hwriter]
      exact h.writer
    · rcases eq_or_ne k i with rfl | hne
      · rw [hcall]
        exact h.reader k
      · rw [(hother k hne).1]
        exact h.reader k
    · rcases eq_or_ne k i with rfl | hne
      · rw [hpopped]
        exact h.got k
      · exact hgot k hne
  | @returns call a hcall hidle hpopped =>
    have hhistory := CallLog.history_answer (a := a) ((h.reader i).trans hcall)
    refine ⟨?_, fun k => ?_, hlog, fun k => ?_, hshut⟩
    · rw [hwriter]
      exact (CallLog.calling_answer_of_ne (reader_ne_writer i).symm (some a)).trans h.writer
    · rcases eq_or_ne k i with rfl | hne
      · exact CallLog.calling_answer_self.trans hidle.symm
      · rw [(hother k hne).1]
        exact (CallLog.calling_answer_of_ne (reader_ne hne) (some a)).trans (h.reader k)
    · rcases eq_or_ne k i with rfl | hne
      · unfold Run.got
        rw [hhistory, QueueHistory.popped_concat, hpopped, ← h.got]
        rfl
      · exact hgot k hne

/-- A step keeps the calls logged. -/
theorem step [Inhabited α] (h : r.Logged) (act : Act α) : (r.step act).Logged := by
  unfold Run.step
  cases act with
  | push msg | close =>
    unfold System.step
    dsimp only
    split
    · next hidle => exact h.writerCalls hidle rfl
    · next hbusy =>
      rw [h.writerBusy hbusy]
      exact h
  | writer => exact h.stepWriter
  | pop i =>
    unfold System.step
    dsimp only
    split
    · split
      · next hidle => exact h.readerCalls hidle
      · next hbusy =>
        rw [h.readerBusy hbusy]
        exact h
    · split
      · exact h
      · exact h
  | reader i => exact h.stepReader i

/-- A schedule keeps the calls logged. -/
theorem after [Inhabited α] (h : r.Logged) (acts : List (Act α)) : (r.after acts).Logged :=
  foldl_inv (fun _ act hr => hr.step act) acts h

end Run.Logged

/-! ## When a cursor is read -/

namespace System

variable {s : System α} {msg : α} {write m : UInt64} {cursor : ℕ}

/-- What the loop of the scan leaves: the next cursor is read, or the scan is over. -/
theorem scanned_cases (s : System α) (msg : α) (write m : UInt64) (cursor : ℕ) :
    (s.scanned msg write m cursor).1.seen = s.seen ∧
      ((s.scanned msg write m cursor = ({ s with writer := .scan msg write m cursor }, none)) ∨
        ∀ msg' write' m' c, (s.scanned msg write m cursor).1.writer ≠ .scan msg' write' m' c) := by
  unfold scanned
  split
  · exact ⟨rfl, .inl rfl⟩
  · split
    · exact ⟨rfl, .inr fun _ _ _ _ h => (by cases h)⟩
    · exact ⟨rfl, .inr fun _ _ _ _ h => (by cases h)⟩

/-- A scan begins with the first cursor. -/
theorem stepWriter_startScan (hpc : s.writer = .startScan msg write) :
    s.stepWriter = ({ s with seen := [] } : System α).scanned msg write s.ring.writeSeq 0 := by
  unfold stepWriter
  rw [hpc]

/-- A scan reads the next cursor. -/
theorem stepWriter_scan (hpc : s.writer = .scan msg write m cursor) :
    s.stepWriter =
      ({ s with seen := s.seen ++ [s.pushed.length - (s.popped cursor).length] } : System α).scanned
        msg write (if s.ring.readSeq.getD cursor 0 < m then s.ring.readSeq.getD cursor 0 else m)
        (cursor + 1) := by
  unfold stepWriter
  rw [hpc]

/-- **What the writer does of a scan**: it begins one, or reads one more cursor. -/
theorem stepWriter_reads (h : s.stepWriter.1.writer = .scan msg write m cursor) :
    s.stepWriter.2 = none ∧ ((cursor = 0 ∧ s.stepWriter.1.seen = []) ∨
      ∃ write' m' c, s.writer = .scan msg write' m' c ∧ cursor = c + 1 ∧
        s.stepWriter.1.seen = s.seen ++ [s.pushed.length - (s.popped c).length]) := by
  cases hpc : s.writer with
  | idle =>
    unfold stepWriter at h
    rw [hpc] at h
    cases hpc.symm.trans h
  | loadClosed msg' =>
    unfold stepWriter at h
    rw [hpc] at h
    dsimp only at h
    split at h <;> cases h
  | loadWrite msg' | writeSlot msg' w | storeWrite msg' w | storeClosed =>
    unfold stepWriter at h
    rw [hpc] at h
    cases h
  | startScan msg' w =>
    rw [stepWriter_startScan hpc] at h ⊢
    obtain ⟨-, heq | hover⟩ :=
      scanned_cases ({ s with seen := [] } : System α) msg' w s.ring.writeSeq 0
    · rw [heq] at h ⊢
      cases h
      exact ⟨rfl, .inl ⟨rfl, rfl⟩⟩
    · exact absurd h (hover _ _ _ _)
  | scan msg' w v c =>
    rw [stepWriter_scan hpc] at h ⊢
    obtain ⟨-, heq | hover⟩ := scanned_cases
      ({ s with seen := s.seen ++ [s.pushed.length - (s.popped c).length] } : System α) msg' w
      (if s.ring.readSeq.getD c 0 < v then s.ring.readSeq.getD c 0 else v) (c + 1)
    · rw [heq] at h ⊢
      cases h
      exact ⟨rfl, .inr ⟨_, _, c, rfl, rfl, rfl⟩⟩
    · exact absurd h (hover _ _ _ _)

/-- **How a scan goes on**: it was there before, it begins, or it has read one more cursor. -/
theorem step_scan [Inhabited α] {act : Act α}
    (h : (s.step act).1.writer = .scan msg write m cursor) :
    (act ≠ .writer ∧ s.writer = .scan msg write m cursor ∧ (s.step act).1.seen = s.seen) ∨
    (act = .writer ∧ (s.step act).2 = none ∧ cursor = 0 ∧ (s.step act).1.seen = []) ∨
    (act = .writer ∧ (s.step act).2 = none ∧ ∃ write' m' c, s.writer = .scan msg write' m' c ∧
      cursor = c + 1 ∧
      (s.step act).1.seen = s.seen ++ [s.pushed.length - (s.popped c).length]) := by
  cases act with
  | push msg' | close =>
    refine .inl ⟨by simp, ?_⟩
    unfold step at h ⊢
    dsimp only at h ⊢
    split at h
    · cases h
    · exact ⟨h, rfl⟩
  | pop i =>
    refine .inl ⟨by simp, ?_⟩
    have hsame : (s.step (.pop i)).1.writer = s.writer ∧ (s.step (.pop i)).1.seen = s.seen := by
      unfold step
      dsimp only
      split
      · split <;> exact ⟨rfl, rfl⟩
      · exact ⟨rfl, rfl⟩
    exact ⟨hsame.1.symm.trans h, hsame.2⟩
  | reader i =>
    obtain ⟨hwriter, -, hseen, -⟩ := s.stepReader_writer i
    exact .inl ⟨by simp, hwriter.symm.trans h, hseen⟩
  | writer =>
    obtain ⟨hquiet, hbegins | hgoes⟩ := stepWriter_reads h
    · exact .inr (.inl ⟨rfl, hquiet, hbegins⟩)
    · exact .inr (.inr ⟨rfl, hquiet, hgoes⟩)

/-- **How a scan ends** with `Full`. -/
theorem step_full [Inhabited α] {act : Act α} (h : (s.step act).2 = some .pushFull) :
    act = .writer ∧ ((s.step act).1.seen = [] ∨ ∃ msg write m c, s.writer = .scan msg write m c ∧
      (s.step act).1.seen = s.seen ++ [s.pushed.length - (s.popped c).length]) := by
  rcases step_event h with ⟨rfl, ⟨msg, write, hpc⟩ | ⟨msg, write, m, cursor, hpc⟩⟩ | ⟨i, -, hheard⟩
  · refine ⟨rfl, .inl ?_⟩
    show s.stepWriter.1.seen = []
    rw [stepWriter_startScan hpc]
    exact (scanned_cases _ _ _ _ _).1
  · refine ⟨rfl, .inr ⟨msg, write, m, cursor, hpc, ?_⟩⟩
    show s.stepWriter.1.seen = _
    rw [stepWriter_scan hpc]
    exact (scanned_cases _ _ _ _ _).1
  · exact hheard.elim

end System

namespace Run

variable [Inhabited α]

/-- In the schedule `acts`, the `try_push` of `msg` that follows the `calls` of the writer reads the
cursor of reader `i` when the reader has `k` messages still to pop. -/
def ReadsCursor (start : Run α) (acts : List (Act α)) (msg : α) (calls : QueueHistory α)
    (i k : ℕ) : Prop :=
  ∃ before after write m, acts = before ++ .writer :: after ∧
    (start.after before).system.writer = .scan msg write m i ∧
    (start.after before).calls.history .writer = calls ∧
    (start.after before).sent.length = ((start.after before).got i).length + k

variable {start : Run α} {acts : List (Act α)} {msg : α} {calls : QueueHistory α} {i k : ℕ}

/-- What was read stays read. -/
theorem ReadsCursor.concat (h : ReadsCursor start acts msg calls i k) (act : Act α) :
    ReadsCursor start (acts ++ [act]) msg calls i k := by
  obtain ⟨before, after, write, m, rfl, hrest⟩ := h
  exact ⟨before, after ++ [act], write, m, by simp, hrest⟩

theorem after_concat (start : Run α) (acts : List (Act α)) (act : Act α) :
    start.after (acts ++ [act]) = (start.after acts).step act :=
  List.foldl_concat _ _ _ _

/-- Only an answer of the writer adds to its calls. -/
theorem history_step {r : Run α} {act : Act α}
    (h : act ≠ .writer ∨ (r.system.step act).2 = none) :
    (r.step act).calls.history .writer = r.calls.history .writer := by
  cases act with
  | push msg | close => rfl
  | pop i =>
    unfold step
    dsimp only
    split <;> rfl
  | writer =>
    have hnone := h.resolve_left (fun hne => hne rfl)
    show (r.calls.answer .writer ((r.system.step .writer).2.bind Event.answer)).history .writer = _
    rw [hnone]
    rfl
  | reader i => exact CallLog.history_answer_of_ne (reader_ne_writer i).symm _

/-- The log does not touch the system. -/
theorem step_system (r : Run α) (act : Act α) :
    (r.step act).system = (r.system.step act).1 := by
  cases act with
  | push msg | close | writer | reader i => rfl
  | pop i =>
    unfold step
    dsimp only
    split <;> rfl

/-- **One more cursor** is read in a scan that has read the others. -/
theorem reads_next {write m : UInt64} {c v : ℕ} (hlogged : start.Logged)
    (hscan : (start.after acts).system.writer = .scan msg write m c)
    (hlen : (start.after acts).system.seen.length = c)
    (hreads : ∀ i v, (start.after acts).system.seen[i]? = some v → 0 < v →
      ReadsCursor start acts msg ((start.after acts).calls.history .writer) i v)
    (hv : ((start.after acts).system.seen ++ [(start.after acts).system.pushed.length -
      ((start.after acts).system.popped c).length])[i]? = some v) (hpos : 0 < v) :
    ReadsCursor start (acts ++ [.writer]) msg ((start.after acts).calls.history .writer) i v := by
  rcases lt_or_ge i c with hlt | hge
  · rw [List.getElem?_append_left (hlen.symm ▸ hlt)] at hv
    exact (hreads i v hv hpos).concat .writer
  · -- the cursor that this step reads
    rw [List.getElem?_append_right (hlen.symm ▸ hge), hlen] at hv
    have hlast := (List.getElem?_eq_some_iff.mp hv).1
    rw [List.length_singleton] at hlast
    obtain rfl : i = c := by omega
    rw [Nat.sub_self] at hv
    obtain rfl := Option.some.inj hv
    refine ⟨acts, [], write, m, rfl, hscan, rfl, ?_⟩
    have hlog := hlogged.after acts
    rw [hlog.sent, hlog.got]
    omega

/-- **What the scan has seen** it has read from the cursors, in the call that is under way. -/
theorem seen_reads (hlogged : start.Logged) (hidle : start.system.writer = .idle)
    (acts : List (Act α)) {write m : UInt64} {cursor : ℕ}
    (hscan : (start.after acts).system.writer = .scan msg write m cursor) :
    (start.after acts).system.seen.length = cursor ∧
      ∀ i v, (start.after acts).system.seen[i]? = some v → 0 < v →
        ReadsCursor start acts msg ((start.after acts).calls.history .writer) i v := by
  induction acts using List.reverseRecOn generalizing msg write m cursor with
  | nil =>
    rw [show start.after [] = start from rfl, hidle] at hscan
    cases hscan
  | append_singleton acts act ih =>
    rw [after_concat] at hscan ⊢
    rw [step_system] at hscan ⊢
    rcases System.step_scan hscan with ⟨hne, hsame, hseen⟩ | ⟨rfl, hnone, rfl, hseen⟩ |
      ⟨rfl, hnone, write', m', c, hprev, rfl, hseen⟩
    · obtain ⟨hlen, hreads⟩ := ih hsame
      rw [hseen, history_step (.inl hne)]
      exact ⟨hlen, fun i v hv hpos => (hreads i v hv hpos).concat act⟩
    · rw [hseen]
      exact ⟨rfl, fun i v hv => absurd hv (by simp)⟩
    · obtain ⟨hlen, hreads⟩ := ih hprev
      rw [hseen, history_step (.inr hnone)]
      refine ⟨?_, fun i v hv hpos => reads_next hlogged hprev hlen hreads hv hpos⟩
      rw [List.length_append, hlen, List.length_singleton]

/-! ## Delivery -/

/-- An entry of the log is an answer to the call that its thread is in. -/
theorem answer_of_returned {r : Run α} {act : Act α} {thread : Thread} {c : QueueCall α}
    {a : QueueAnswer α}
    (h : (r.step act).calls.returned = r.calls.returned ++ [(thread, c, a)]) :
    (r.system.step act).2.bind Event.answer = some a ∧ r.calls.calling thread = some c ∧
      ∀ i, thread = .reader i → act = .reader i := by
  have hanswer : ∀ t, (r.calls.answer t ((r.system.step act).2.bind Event.answer)).returned =
      r.calls.returned ++ [(thread, c, a)] →
      (r.system.step act).2.bind Event.answer = some a ∧ r.calls.calling thread = some c ∧
        thread = t := by
    intro t h
    generalize (r.system.step act).2.bind Event.answer = o at h ⊢
    cases o with
    | none => exact absurd (congrArg List.length h) (by simp [CallLog.answer])
    | some a' =>
      unfold CallLog.answer at h
      rw [List.append_cancel_left_eq] at h
      cases hcalling : r.calls.calling t with
      | none =>
        rw [hcalling] at h
        exact absurd (congrArg List.length h) (by simp)
      | some c' =>
        rw [hcalling] at h
        cases h
        exact ⟨rfl, hcalling, rfl⟩
  have hnone : ∀ calls : CallLog Thread (QueueCall α) (QueueAnswer α),
      calls.returned = r.calls.returned →
      calls.returned ≠ r.calls.returned ++ [(thread, c, a)] := by
    intro calls hsame h
    rw [hsame] at h
    exact absurd (congrArg List.length h) (by simp)
  cases act with
  | push msg | close => exact absurd h (hnone _ rfl)
  | pop i =>
    refine absurd h (hnone _ ?_)
    unfold step
    dsimp only
    split <;> rfl
  | writer =>
    obtain ⟨ha, hc, rfl⟩ := hanswer .writer h
    exact ⟨ha, hc, fun i hi => (by cases hi)⟩
  | reader k =>
    obtain ⟨ha, hc, rfl⟩ := hanswer (.reader k) h
    refine ⟨ha, hc, fun i hi => ?_⟩
    cases hi
    rfl

/-- **What the threads see** of a ring of `n` readers behind a schedule, by the calls that returned,
and of the step `act` behind it. -/
structure Delivers (r : Run α) (n : ℕ) (start : Run α) (acts : List (Act α)) (act : Act α) :
    Prop where
  fifo : ∀ i < n, r.got i <+: r.sent
  stored : ∀ i < n, ∀ k, (r.got i).length ≤ k → k < r.sent.length →
    r.system.ring.buf[k % r.system.ring.capacity]? = r.sent[k]?
  untouched : ∀ slot, (r.system.step act).2 = some (.wrote slot) → ∀ i < n,
    ∀ k, (r.got i).length ≤ k → k < r.sent.length → slot ≠ k % r.system.ring.capacity
  full : ∀ msg, (r.step act).calls.returned = r.calls.returned ++ [(.writer, .tryPush msg, .full)] →
    ∃ i < n, ReadsCursor start (acts ++ [act]) msg (r.calls.history .writer) i
      r.system.ring.capacity
  drained : ∀ i, (r.step act).calls.returned = r.calls.returned ++ [(.reader i, .pop, .closed)] →
    r.WasClosed ∧ r.got i = r.sent ∧ ∀ acts, ((r.step act).after acts).sent = r.sent

/-- **`Closed`** comes of a ring that is closed and drained by its reader. -/
theorem drained_of_closed {j : ℕ} {r : Run α} (hlog : r.Logged) (hinv : r.system.Inv j)
    {act : Act α}
    (h : (r.step act).calls.returned = r.calls.returned ++ [(.reader i, .pop, .closed)]) :
    r.WasClosed ∧ r.got i = r.sent ∧ r.system.ring.closed = true := by
  obtain ⟨hanswer, -, hact⟩ := answer_of_returned h
  obtain rfl := hact i rfl
  have hevent : (r.system.step (.reader i)).2 = some (.popClosed i) := by
    obtain ⟨ev, hev, hclosed⟩ := Option.bind_eq_some_iff.mp hanswer
    have hheard := System.stepReader_event hev
    rw [hev]
    cases ev with
    | popClosed k =>
      rw [hheard.1]
    | pushClosed => exact hheard.elim
    | wrote slot | pushOk | pushFull | closed | popOk k m => cases hclosed
  obtain ⟨hclosed, hall⟩ := hinv.popClosed hevent
  refine ⟨hlog.closed.mpr hclosed, ?_, hclosed⟩
  rw [hlog.got, hlog.sent]
  exact hall

/-- The log is on the side. -/
theorem after_system (r : Run α) (acts : List (Act α)) :
    (r.after acts).system = r.system.after acts := by
  induction acts generalizing r with
  | nil => rfl
  | cons act acts ih =>
    refine (ih (r.step act)).trans ?_
    rw [step_system]
    rfl

/-- **`Full`** comes of a cursor that was a whole ring behind as the call read it. -/
theorem reads_of_full {j : ℕ} (hlogged : start.Logged) (hidle : start.system.writer = .idle)
    (hinv : (start.after acts).system.Inv j) {act : Act α}
    (h : ((start.after acts).step act).calls.returned =
      (start.after acts).calls.returned ++ [(.writer, .tryPush msg, .full)]) :
    ∃ i < (start.after acts).system.ring.readSeq.length,
      ReadsCursor start (acts ++ [act]) msg ((start.after acts).calls.history .writer) i
        (start.after acts).system.ring.capacity := by
  obtain ⟨hanswer, hcalling, -⟩ := answer_of_returned h
  have hlog := hlogged.after acts
  have hfull : ((start.after acts).system.step act).2 = some .pushFull := by
    obtain ⟨ev, hev, hfull⟩ := Option.bind_eq_some_iff.mp hanswer
    rw [hev]
    cases ev with
    | pushFull => rfl
    | wrote slot | pushOk | pushClosed | closed | popOk k m | popClosed k => cases hfull
  obtain ⟨i, hi, hseen⟩ := hinv.pushFull hfull
  refine ⟨i, hi, ?_⟩
  rw [hinv.capacity_eq]
  obtain ⟨rfl, hnil | ⟨msg', write, m, c, hpc, happend⟩⟩ := System.step_full hfull
  · rw [hnil] at hseen
    exact absurd hseen (by simp)
  · rw [hlog.writer, hpc] at hcalling
    cases hcalling
    obtain ⟨hlen, hreads⟩ := seen_reads hlogged hidle acts hpc
    rw [happend] at hseen
    exact reads_next hlogged hpc hlen hreads hseen hinv.size_pos

end Run

/-- A new ring has a log of no calls. -/
theorem logged_new [Inhabited α] {capacity : UInt64} {numReaders : ℕ} {ring : MpmcFanout α}
    (hnew : MpmcFanout.new capacity numReaders = some ring) :
    Run.Logged { system := { ring } } := by
  have hopen : ring.closed = false := by
    obtain ⟨p, -, rfl⟩ := Option.map_eq_some_iff.mp hnew
    rfl
  refine ⟨rfl, fun _ => rfl, rfl, fun _ => rfl, ?_⟩
  dsimp only
  rw [hopen]
  exact iff_of_false List.not_mem_nil (by decide)

/-- **Exactly once for each reader, in order.** Up to a capacity of `2^63` there is a ring, and it
delivers in every state of every schedule of fewer than `2^64` pushes; above, the constructor
does not return. -/
theorem fanout_delivers [Inhabited α] (capacity : UInt64) (numReaders : ℕ) :
    ((∃ f : MpmcFanout α, MpmcFanout.new capacity numReaders = some f) ↔
      capacity.toNat ≤ 2 ^ 63) ∧
    ∀ ring : MpmcFanout α, MpmcFanout.new capacity numReaders = some ring →
      ∀ (acts : List (Act α)) (act : Act α),
      let start : Run α := { system := { ring } }
      let r := start.after acts
      r.sent.length < 2 ^ 64 →
      capacity.toNat ≤ r.system.ring.capacity ∧ r.Delivers numReaders start acts act := by
  refine ⟨new_isSome_iff capacity numReaders, fun ring hnew acts act => ?_⟩
  intro start r hfew
  obtain ⟨j, hinv, hcap, hreaders⟩ := inv_new hnew
  have hlogged : start.Logged := logged_new hnew
  have hlog : r.Logged := hlogged.after acts
  rw [hlog.sent] at hfew
  have hsystem : r.system = ({ ring } : System α).after acts := start.after_system acts
  have hafter : r.system.Inv j := by
    rw [hsystem] at hfew ⊢
    exact hinv.after acts hfew
  have hn : r.system.ring.readSeq.length = numReaders := by
    rw [hsystem, System.readers_after]
    exact hreaders
  refine ⟨?_, ?_, ?_, ?_, ?_, ?_⟩
  · rw [hafter.capacity_eq, hafter.size, ← hinv.size]
    exact hcap
  · intro i hi
    rw [hlog.got, hlog.sent]
    exact (hafter.reader i (hn ▸ hi)).fifo
  · intro i hi k
    rw [hlog.got, hlog.sent, hafter.capacity_eq]
    exact (hafter.reader i (hn ▸ hi)).window k
  · intro slot hev i hi k
    rw [hlog.got, hlog.sent, hafter.capacity_eq]
    exact hafter.wrote hev (hn ▸ hi)
  · intro msg hfull
    have hreads := Run.reads_of_full hlogged rfl hafter hfull
    rw [hn] at hreads
    exact hreads
  · intro i hclosed
    obtain ⟨hwas, hall, hshut⟩ := Run.drained_of_closed hlog hafter hclosed
    refine ⟨hwas, hall, fun acts' => ?_⟩
    have hsent := (hlog.after (act :: acts')).sent
    rw [r.after_system, hafter.after_of_closed hshut, ← hlog.sent] at hsent
    exact hsent

/-- The ring of one slot and two readers that the constructor makes. -/
def twoReaders : MpmcFanout ℕ := { readSeq := [0, 0], buf := [0], mask := 0 }

/-- A message that reader `0` pops and reader `1` does not, and a second one up to the last access of
its scan. -/
def twoReadersActs : List (Act ℕ) :=
  [.push 7, .writer, .writer, .writer, .writer, .writer, .writer, .writer,
    .pop 0, .reader 0, .reader 0, .reader 0, .reader 0,
    .push 8, .writer, .writer, .writer, .writer]

/-- The last access is about to answer `Full`. -/
theorem fanout_delivers_two :
    MpmcFanout.new 1 2 = some twoReaders ∧
    (({ system := { ring := twoReaders } } : Run ℕ).after
      (twoReadersActs ++ [.writer])).calls.returned =
        [(.writer, .tryPush 7, .ok), (.reader 0, .pop, .got 7), (.writer, .tryPush 8, .full)] ∧
    (({ system := { ring := twoReaders } } : Run ℕ).after twoReadersActs).Delivers 2
      { system := { ring := twoReaders } } twoReadersActs .writer := by
  have hnew : MpmcFanout.new 1 2 = some twoReaders := by decide +kernel
  refine ⟨hnew, by decide +kernel, ?_⟩
  exact ((fanout_delivers 1 2).2 twoReaders hnew twoReadersActs .writer (by decide +kernel)).2

end PulseForge.MpmcFanout
