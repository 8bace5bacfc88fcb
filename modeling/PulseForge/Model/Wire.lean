import PulseForge.Foundation.BigEndian
import PulseForge.Model.TradingTypes

/-!
# Big-endian serialization (`wire.hpp`)

A `Writer` and a `Reader` are bounds-checked cursors: a call that does not fit does nothing
but latch `ok` to false, and so does every later call.
-/

set_option autoImplicit false

namespace PulseForge

open Foundation

/-- A string of bytes. -/
abbrev Bytes := List UInt8

/-- The bytes of a character field. -/
def Alpha.bytes {width : ℕ} (a : Alpha width) : Bytes := List.ofFn a

/-- A character field filled from bytes; a byte that is not there is zero. -/
def Alpha.ofBytes {width : ℕ} (bs : Bytes) : Alpha width := fun i => bs.getD i 0

/-- `put_alpha`: left-justified, padded with spaces, cut to the width (wire.hpp:103-107). -/
def putAlpha (width : ℕ) (s : Bytes) : Bytes :=
  s.take width ++ List.replicate (width - s.length) 32

/-- `get_alpha`: the field without its trailing spaces (wire.hpp:111-117). -/
def getAlpha (bs : Bytes) : Bytes := (bs.reverse.dropWhile fun c => c = 32).reverse

/-- A cursor over a buffer of `cap` bytes; `out` is what it has written. -/
structure Writer where
  cap : ℕ
  out : Bytes := []
  ok : Bool := true
deriving Repr, DecidableEq

namespace Writer

/-- `take` and the copy after it (wire.hpp:143-151). -/
def bytes (w : Writer) (bs : Bytes) : Writer :=
  if w.ok = false ∨ w.cap - w.out.length < bs.length then { w with ok := false }
  else { w with out := w.out ++ bs }

def u8 (w : Writer) (v : UInt8) : Writer := w.bytes [v]

def u16 (w : Writer) (v : UInt16) : Writer := w.bytes (beBytes 2 v.toNat)

def u32 (w : Writer) (v : UInt32) : Writer := w.bytes (beBytes 4 v.toNat)

/-- The low six bytes. -/
def u48 (w : Writer) (v : UInt64) : Writer := w.bytes (beBytes 6 v.toNat)

def u64 (w : Writer) (v : UInt64) : Writer := w.bytes (beBytes 8 v.toNat)

/-- Two's complement. -/
def i64 (w : Writer) (v : Int64) : Writer := w.u64 v.toUInt64

def alpha (w : Writer) (s : Bytes) (width : ℕ) : Writer := w.bytes (putAlpha width s)

/-- What an encoder leaves: the bytes, or none when they did not fit. -/
def done (w : Writer) : Bytes := if w.ok then w.out else []

end Writer

/-- A cursor over the bytes not read yet. -/
structure Reader where
  rest : Bytes
  ok : Bool := true
deriving Repr, DecidableEq

namespace Reader

/-- `take` (wire.hpp:183-191). -/
def take (r : Reader) (n : ℕ) : Option Bytes × Reader :=
  if r.ok = false ∨ r.rest.length < n then (none, { r with ok := false })
  else (some (r.rest.take n), { r with rest := r.rest.drop n })

/-- A number of `n` bytes; zero when it is not there. -/
def number (r : Reader) (n : ℕ) : ℕ × Reader :=
  match r.take n with
  | (some bs, r) => (beVal bs, r)
  | (none, r) => (0, r)

def u8 (r : Reader) : UInt8 × Reader := (r.number 1).map UInt8.ofNat id

def u16 (r : Reader) : UInt16 × Reader := (r.number 2).map UInt16.ofNat id

def u32 (r : Reader) : UInt32 × Reader := (r.number 4).map UInt32.ofNat id

def u48 (r : Reader) : UInt64 × Reader := (r.number 6).map UInt64.ofNat id

def u64 (r : Reader) : UInt64 × Reader := (r.number 8).map UInt64.ofNat id

def i64 (r : Reader) : Int64 × Reader := r.u64.map UInt64.toInt64 id

/-- The text of a padded field of `width` bytes. -/
def alpha (r : Reader) (width : ℕ) : Bytes × Reader :=
  match r.take width with
  | (some bs, r) => (getAlpha bs, r)
  | (none, r) => ([], r)

/-- A field of `width` bytes as it stands; zeros when it is not there. -/
def field (r : Reader) (width : ℕ) : Alpha width × Reader :=
  match r.take width with
  | (some bs, r) => (Alpha.ofBytes bs, r)
  | (none, r) => (fun _ => 0, r)

def skip (r : Reader) (n : ℕ) : Reader := (r.take n).2

end Reader

end PulseForge
