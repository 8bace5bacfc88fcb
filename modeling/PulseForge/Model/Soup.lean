import PulseForge.Foundation.Decimal
import PulseForge.Model.Wire

/-!
# SoupBinTCP framing (`soupbin.hpp`)

Frames, the login packets and the reassembly of frames from a byte stream.
-/

set_option autoImplicit false

namespace PulseForge.Soup

open Foundation

/-- Packet types: `'L'`, `'A'`, `'J'`, `'S'`, `'U'`, `'H'`, `'R'`, `'Z'` and `'O'`. -/
def kLoginRequest : UInt8 := 76

def kLoginAccepted : UInt8 := 65

def kLoginRejected : UInt8 := 74

def kSequencedData : UInt8 := 83

def kUnsequencedData : UInt8 := 85

def kServerHeartbeat : UInt8 := 72

def kClientHeartbeat : UInt8 := 82

def kEndOfSession : UInt8 := 90

def kLogoutRequest : UInt8 := 79

/-- The largest legal packet length. -/
def kMaxFrame : ℕ := 1024

def kFrameHeaderLen : ℕ := 3

structure Frame where
  type : UInt8
  payload : Bytes
deriving Repr, DecidableEq

/-- `write_frame`: nothing when the frame is too large or does not fit (soupbin.hpp:71-82). -/
def writeFrame (cap : ℕ) (f : Frame) : Bytes :=
  if kMaxFrame < f.payload.length + 1 ∨ cap < f.payload.length + kFrameHeaderLen then []
  else beBytes 2 (f.payload.length + 1) ++ f.type :: f.payload

/-- `append_frame`: the buffer grows by the frame's length, filled with zeros, and the frame
is written over them (soupbin.hpp:85-90). -/
def appendFrame (out : Bytes) (f : Frame) : Bytes :=
  let n := f.payload.length + kFrameHeaderLen
  let written := writeFrame n f
  out ++ written ++ List.replicate (n - written.length) 0

/-- A number right-justified in 20 bytes. -/
def putNumeric20 (v : ℕ) : Bytes := List.replicate (20 - (toChars v).length) 32 ++ toChars v

/-- All spaces is zero. -/
def getNumeric20 (bs : Bytes) : Option ℕ :=
  let digits := bs.dropWhile fun c => c = 32
  if digits = [] then some 0
  else match fromChars (2 ^ 64) digits with
    | some (v, []) => some v
    | _ => none

structure LoginRequest where
  username : Bytes
  password : Bytes
  requestedSession : Bytes := []
  requestedSequence : ℕ := 1
deriving Repr, DecidableEq

def encodeLoginRequest (m : LoginRequest) : Bytes :=
  putAlpha 6 m.username ++ putAlpha 10 m.password ++ putAlpha 10 m.requestedSession ++
    putNumeric20 m.requestedSequence

def decodeLoginRequest (bs : Bytes) : Option LoginRequest :=
  if bs.length ≠ 46 then none
  else (getNumeric20 (bs.drop 26)).map fun sequence =>
    ⟨getAlpha (bs.take 6), getAlpha ((bs.drop 6).take 10), getAlpha ((bs.drop 16).take 10), sequence⟩

structure LoginAccepted where
  session : Bytes
  sequence : ℕ := 1
deriving Repr, DecidableEq

def encodeLoginAccepted (m : LoginAccepted) : Bytes := putAlpha 10 m.session ++ putNumeric20 m.sequence

def decodeLoginAccepted (bs : Bytes) : Option LoginAccepted :=
  if bs.length ≠ 30 then none
  else (getNumeric20 (bs.drop 10)).map fun sequence => ⟨getAlpha (bs.take 10), sequence⟩

/-! ## Reassembly -/

/-- The reader's buffer: the unparsed bytes `data` start at index `rd` (soupbin.hpp:175-223). -/
structure FrameReader where
  rd : ℕ := 0
  data : Bytes := []
deriving Repr, DecidableEq

/-- What `next` finds. -/
inductive Status where
  | frame (f : Frame)
  | needMore
  | error
deriving Repr, DecidableEq

namespace FrameReader

def kBufSize : ℕ := 64 * 1024

/-- The index behind the last byte received. -/
def wr (r : FrameReader) : ℕ := r.rd + r.data.length

/-- `write_ptr` slides the unparsed bytes to the front when room gets short. -/
def writePtr (r : FrameReader) : FrameReader :=
  if kBufSize - r.wr < kMaxFrame + kFrameHeaderLen ∧ 0 < r.rd then { r with rd := 0 } else r

def writeSpace (r : FrameReader) : ℕ := kBufSize - r.wr

/-- `commit`, with the bytes that were received. -/
def commit (r : FrameReader) (bs : Bytes) : FrameReader := { r with data := r.data ++ bs }

/-- `next` (soupbin.hpp:194-214). -/
def next (r : FrameReader) : Status × FrameReader :=
  if r.data.length < 2 then (.needMore, r)
  else
    let flen := beVal (r.data.take 2)
    if flen = 0 ∨ kMaxFrame < flen then (.error, r)
    else if r.data.length < 2 + flen then (.needMore, r)
    else
      let data := r.data.drop (2 + flen)
      (.frame ⟨r.data.getD 2 0, (r.data.drop 3).take (flen - 1)⟩,
        { rd := if data = [] then 0 else r.rd + (2 + flen), data := data })

def buffered (r : FrameReader) : ℕ := r.data.length

end FrameReader

end PulseForge.Soup
