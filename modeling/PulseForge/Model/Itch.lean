import PulseForge.Foundation.Decimal
import PulseForge.Model.Wire

/-!
# ITCH messages (`itch.hpp`)

Encoders and decoder of the public feed, byte for byte. Fields have the widths of the
source.
-/

set_option autoImplicit false

namespace PulseForge.Itch

open Foundation

/-- The alternatives of `itch::Message` (itch.hpp:78-132). -/
inductive Message where
  | systemEvent (locate : UInt16) (timestamp : UInt64) (eventCode : UInt8)
  | stockDirectory (locate : UInt16) (timestamp : UInt64) (stock : Symbol) (roundLotSize : UInt32)
  | addOrder (locate : UInt16) (timestamp : UInt64) (orderRef : UInt64) (side : Side)
      (shares : UInt32) (stock : Symbol) (price : UInt32)
  | orderExecuted (locate : UInt16) (timestamp : UInt64) (orderRef : UInt64)
      (executedShares : UInt32) (matchNumber : UInt64)
  | orderCancel (locate : UInt16) (timestamp : UInt64) (orderRef : UInt64)
      (cancelledShares : UInt32)
  | orderDelete (locate : UInt16) (timestamp : UInt64) (orderRef : UInt64)
  | endOfSnapshot (nextSequence : UInt64)
deriving DecidableEq

/-- `len::…`, the length of each type of message. -/
def Message.len : Message → ℕ
  | .systemEvent .. => 12
  | .stockDirectory .. => 39
  | .addOrder .. => 36
  | .orderExecuted .. => 31
  | .orderCancel .. => 23
  | .orderDelete .. => 19
  | .endOfSnapshot .. => 21

def kMaxMessageLen : ℕ := 39

/-- `detail::header`: the type, the locate, a tracking number of zero and the timestamp. -/
def header (w : Writer) (type : UInt8) (locate : UInt16) (ts : UInt64) : Writer :=
  (((w.u8 type).u16 locate).u16 0).u48 ts

/-- The sequence number of an end of snapshot: decimal, right-justified in 20 bytes. -/
def sequenceField (n : UInt64) : Bytes :=
  List.replicate (20 - (toChars n.toNat).length) 32 ++ toChars n.toNat

/-- The calls an encoder makes on its writer (itch.hpp:146-221). -/
def write (w : Writer) : Message → Writer
  | .systemEvent locate ts eventCode => (header w 83 locate ts).u8 eventCode
  | .stockDirectory locate ts stock roundLotSize =>
    let w := (((header w 82 locate ts).bytes stock.bytes).u8 81).u8 78
    let w := ((w.u32 roundLotSize).u8 78).u8 67
    let w := (((w.alpha [90] 2).u8 80).u8 32).u8 32
    (((w.u8 49).u8 78).u32 0).u8 78
  | .addOrder locate ts orderRef side shares stock price =>
    let w := ((header w 65 locate ts).u64 orderRef).u8 side.code
    ((w.u32 shares).bytes stock.bytes).u32 price
  | .orderExecuted locate ts orderRef executedShares matchNumber =>
    (((header w 69 locate ts).u64 orderRef).u32 executedShares).u64 matchNumber
  | .orderCancel locate ts orderRef cancelledShares =>
    ((header w 88 locate ts).u64 orderRef).u32 cancelledShares
  | .orderDelete locate ts orderRef => (header w 68 locate ts).u64 orderRef
  | .endOfSnapshot nextSequence => w.bytes (71 :: sequenceField nextSequence)

/-- The encoded message, or nothing when the buffer of `cap` bytes is too small. -/
def encode (m : Message) (cap : ℕ) : Bytes := (write { cap := cap } m).done

/-- `common` of the decoder: locate, tracking number, timestamp. -/
def common (r : Reader) : UInt16 × UInt64 × Reader :=
  let (locate, r) := r.u16
  let (ts, r) := (r.skip 2).u48
  (locate, ts, r)

/-- `r.ok() ? m : nullopt`. -/
def checked (r : Reader) (m : Message) : Option Message := if r.ok then some m else none

/-- The decoder of each type, entered behind the type byte with `n` the length of the whole
message (itch.hpp:240-306). -/
def decodeBody (type : UInt8) (n : ℕ) (r : Reader) : Option Message :=
  if type = 83 then
    if n ≠ 12 then none else
    let (locate, ts, r) := common r
    let (eventCode, r) := r.u8
    checked r (.systemEvent locate ts eventCode)
  else if type = 82 then
    if n ≠ 39 then none else
    let (locate, ts, r) := common r
    let (stock, r) := r.field 8
    let (roundLotSize, r) := (r.skip 2).u32
    checked r (.stockDirectory locate ts stock roundLotSize)
  else if type = 65 then
    if n ≠ 36 then none else
    let (locate, ts, r) := common r
    let (orderRef, r) := r.u64
    let (code, r) := r.u8
    match Side.ofCode code with
    | none => none
    | some side =>
      let (shares, r) := r.u32
      let (stock, r) := r.field 8
      let (price, r) := r.u32
      checked r (.addOrder locate ts orderRef side shares stock price)
  else if type = 69 then
    if n ≠ 31 then none else
    let (locate, ts, r) := common r
    let (orderRef, r) := r.u64
    let (executedShares, r) := r.u32
    let (matchNumber, r) := r.u64
    checked r (.orderExecuted locate ts orderRef executedShares matchNumber)
  else if type = 88 then
    if n ≠ 23 then none else
    let (locate, ts, r) := common r
    let (orderRef, r) := r.u64
    let (cancelledShares, r) := r.u32
    checked r (.orderCancel locate ts orderRef cancelledShares)
  else if type = 68 then
    if n ≠ 19 then none else
    let (locate, ts, r) := common r
    let (orderRef, r) := r.u64
    checked r (.orderDelete locate ts orderRef)
  else if type = 71 then
    if n ≠ 21 then none else
    match fromChars (2 ^ 64) (r.rest.dropWhile fun c => c = 32) with
    | some (next, []) => some (.endOfSnapshot (UInt64.ofNat next))
    | _ => none
  else none

/-- `itch::decode`: the type and the exact length are checked before anything is read. -/
def decode (bs : Bytes) : Option Message :=
  if bs.length = 0 then none
  else
    let (type, r) := ({ rest := bs } : Reader).u8
    decodeBody type bs.length r

end PulseForge.Itch
