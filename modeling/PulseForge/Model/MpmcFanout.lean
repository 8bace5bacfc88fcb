import PulseForge.Model.SpscRing

/-!
# The ring of one writer and many readers (`mpmc_fanout.hpp`, `mpmc_fanout.cpp`)

Every reader pops every message. The writer and the readers are threads that make one access to
shared memory a step, as in `SpscRing`, and a `Run` logs their calls and answers in the same way;
the writer looks at the readers' cursors one after the other. `pushed` and `popped` are the
messages behind the cursors, and `seen` is how many messages each reader had still to pop when the
scan of the last `try_push` read its cursor; the program does not read them.
-/

set_option autoImplicit false

namespace PulseForge

open Foundation

variable {α : Type}

/-- mpmc_fanout.hpp:84-88. -/
structure MpmcFanout (α : Type) where
  writeSeq : UInt64 := 0
  closed : Bool := false
  readSeq : List UInt64
  buf : List α
  mask : UInt64
deriving Repr, DecidableEq

namespace MpmcFanout

/-- The constructor (mpmc_fanout.cpp:13-23); `none` when it does not return. -/
def new [Inhabited α] (capacity : UInt64) (numReaders : ℕ) : Option (MpmcFanout α) :=
  (nextPow2 capacity).map fun p =>
    { readSeq := List.replicate numReaders 0
      buf := List.replicate p.toNat default
      mask := p - 1 }

/-- mpmc_fanout.hpp:67. -/
def capacity (f : MpmcFanout α) : ℕ := (f.mask + 1).toNat

/-- mpmc_fanout.hpp:68. -/
def numReaders (f : MpmcFanout α) : ℕ := f.readSeq.length

/-- Where the writer is: in no function, in `try_push` (mpmc_fanout.cpp:38-49) with the scan of
`min_read_seq` (mpmc_fanout.cpp:25-34), or in `close` (mpmc_fanout.cpp:36). -/
inductive Writer (α : Type) where
  | idle
  | loadClosed (msg : α)
  | loadWrite (msg : α)
  | startScan (msg : α) (write : UInt64)
  | scan (msg : α) (write m : UInt64) (cursor : ℕ)
  | writeSlot (msg : α) (write : UInt64)
  | storeWrite (msg : α) (write : UInt64)
  | storeClosed
deriving Repr, DecidableEq

/-- Where a reader is: in no function, or in `pop` (queue_backend.cpp:135-147), with `try_pop`
(mpmc_fanout.cpp:51-61) and behind it `closed_and_empty` (mpmc_fanout.cpp:63-70). -/
inductive Reader (α : Type) where
  | idle
  | loadRead
  | loadWrite (read : UInt64)
  | readSlot (read : UInt64)
  | storeRead (read : UInt64) (msg : α)
  | loadClosed
  | loadReadAgain
  | loadWriteAgain (read : UInt64)
deriving Repr, DecidableEq

/-- The ring with its threads. -/
structure System (α : Type) where
  ring : MpmcFanout α
  writer : Writer α := .idle
  reader : ℕ → Reader α := fun _ => .idle
  pushed : List α := []
  popped : ℕ → List α := fun _ => []
  seen : List ℕ := []

/-- What a step is about: the slot it writes, or the answer that the function of the thread
returns with it. -/
inductive Event (α : Type) where
  | wrote (slot : ℕ)
  | pushOk
  | pushFull
  | pushClosed
  | closed
  | popOk (readerId : ℕ) (msg : α)
  | popClosed (readerId : ℕ)
deriving Repr, DecidableEq

/-- The answer to the caller. -/
def Event.answer : Event α → Option (QueueAnswer α)
  | .wrote _ => none
  | .pushOk => some .ok
  | .pushFull => some .full
  | .pushClosed | .popClosed _ => some .closed
  | .closed => some .done
  | .popOk _ msg => some (.got msg)

/-- What the schedule lets happen: a call, or the next access of a thread. -/
inductive Act (α : Type) where
  | push (msg : α)
  | close
  | writer
  | pop (readerId : ℕ)
  | reader (readerId : ℕ)
deriving Repr, DecidableEq

namespace System

/-- The reader goes on to a place. -/
def readerAt (s : System α) (i : ℕ) (pc : Reader α) : System α :=
  { s with reader := Function.update s.reader i pc }

/-- The loop of `min_read_seq` in front of the cursor of number `cursor`, and behind the last
one the test of `try_push`. -/
def scanned (s : System α) (msg : α) (write m : UInt64) (cursor : ℕ) : System α × Option (Event α) :=
  if cursor < s.ring.readSeq.length then ({ s with writer := .scan msg write m cursor }, none)
  else if s.ring.buf.length ≤ (write - m).toNat then ({ s with writer := .idle }, some .pushFull)
  else ({ s with writer := .writeSlot msg write }, none)

/-- The next access of the writer. -/
def stepWriter (s : System α) : System α × Option (Event α) :=
  match s.writer with
  | .idle => (s, none)
  | .loadClosed msg =>
    if s.ring.closed then ({ s with writer := .idle }, some .pushClosed)
    else ({ s with writer := .loadWrite msg }, none)
  | .loadWrite msg => ({ s with writer := .startScan msg s.ring.writeSeq }, none)
  | .startScan msg write => ({ s with seen := [] } : System α).scanned msg write s.ring.writeSeq 0
  | .scan msg write m cursor =>
    let v := s.ring.readSeq.getD cursor 0
    let behind := s.pushed.length - (s.popped cursor).length
    ({ s with seen := s.seen ++ [behind] } : System α).scanned msg write (if v < m then v else m)
      (cursor + 1)
  | .writeSlot msg write =>
    let slot := (write &&& s.ring.mask).toNat
    ({ s with ring := { s.ring with buf := s.ring.buf.set slot msg }, writer := .storeWrite msg write },
      some (.wrote slot))
  | .storeWrite msg write =>
    ({ s with
        ring := { s.ring with writeSeq := write + 1 }, writer := .idle, pushed := s.pushed ++ [msg] },
      some .pushOk)
  | .storeClosed =>
    ({ s with ring := { s.ring with closed := true }, writer := .idle }, some .closed)

/-- The next access of reader `i`. -/
def stepReader [Inhabited α] (s : System α) (i : ℕ) : System α × Option (Event α) :=
  match s.reader i with
  | .idle => (s, none)
  | .loadRead => (s.readerAt i (.loadWrite (s.ring.readSeq.getD i 0)), none)
  | .loadWrite read =>
    if read = s.ring.writeSeq then (s.readerAt i .loadClosed, none)
    else (s.readerAt i (.readSlot read), none)
  | .readSlot read =>
    (s.readerAt i (.storeRead read (s.ring.buf.getD (read &&& s.ring.mask).toNat default)), none)
  | .storeRead read msg =>
    (({ s with
        ring := { s.ring with readSeq := s.ring.readSeq.set i (read + 1) }
        popped := Function.update s.popped i (s.popped i ++ [msg]) } : System α).readerAt i .idle,
      some (.popOk i msg))
  | .loadClosed =>
    if s.ring.closed then (s.readerAt i .loadReadAgain, none) else (s.readerAt i .loadRead, none)
  | .loadReadAgain => (s.readerAt i (.loadWriteAgain (s.ring.readSeq.getD i 0)), none)
  | .loadWriteAgain read =>
    if read = s.ring.writeSeq then (s.readerAt i .idle, some (.popClosed i))
    else (s.readerAt i .loadRead, none)

/-- One step; a thread that is in a function calls no other, and there is a thread for every
reader of the ring. -/
def step [Inhabited α] (s : System α) : Act α → System α × Option (Event α)
  | .push msg =>
    match s.writer with
    | .idle => ({ s with writer := .loadClosed msg }, none)
    | _ => (s, none)
  | .close =>
    match s.writer with
    | .idle => ({ s with writer := .storeClosed }, none)
    | _ => (s, none)
  | .writer => s.stepWriter
  | .pop i =>
    match s.reader i with
    | .idle => if i < s.ring.numReaders then (s.readerAt i .loadRead, none) else (s, none)
    | _ => (s, none)
  | .reader i => s.stepReader i

/-- The system behind a schedule. -/
def after [Inhabited α] (s : System α) (acts : List (Act α)) : System α :=
  acts.foldl (fun s act => (s.step act).1) s

end System

/-! ## The calls -/

inductive Thread where
  | writer
  | reader (readerId : ℕ)
deriving Repr, DecidableEq

/-- The system with the calls of its threads. -/
structure Run (α : Type) where
  system : System α
  calls : CallLog Thread (QueueCall α) (QueueAnswer α) := {}

namespace Run

/-- One step: a call goes into the log with the answer that the thread gets. -/
def step [Inhabited α] (r : Run α) (act : Act α) : Run α :=
  let (system, ev) := r.system.step act
  let answer := ev.bind Event.answer
  match act with
  | .push msg => { system, calls := r.calls.call .writer (.tryPush msg) }
  | .close => { system, calls := r.calls.call .writer .close }
  | .writer => { system, calls := r.calls.answer .writer answer }
  | .pop i =>
    if i < r.system.ring.numReaders then { system, calls := r.calls.call (.reader i) .pop }
    else { r with system }
  | .reader i => { system, calls := r.calls.answer (.reader i) answer }

/-- A schedule. -/
def after [Inhabited α] (r : Run α) (acts : List (Act α)) : Run α := acts.foldl step r

/-- The messages of the calls of `try_push` that answered `Ok`. -/
def sent (r : Run α) : List α := QueueHistory.pushed (r.calls.history .writer)

/-- The messages that the calls of `pop` of a reader answered. -/
def got (r : Run α) (i : ℕ) : List α := QueueHistory.popped (r.calls.history (.reader i))

/-- `close` has returned. -/
def WasClosed (r : Run α) : Prop := QueueHistory.WasClosed (r.calls.history .writer)

end Run

end MpmcFanout

end PulseForge
