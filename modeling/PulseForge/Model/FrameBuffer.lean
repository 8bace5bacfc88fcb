import PulseForge.Model.Soup

/-!
# The buffer of the frame reader (`soupbin.hpp`)

`Soup.FrameReader` shows the unparsed bytes; `FrameBuffer` is the object of the source: 64 KiB
of bytes and two indices into them. `received` is the copy that `recv` makes to `write_ptr()`.
-/

set_option autoImplicit false

namespace PulseForge.Soup

open Foundation

/-- soupbin.hpp:219-222. -/
structure FrameBuffer where
  buf : Bytes := List.replicate FrameReader.kBufSize 0
  rd : ℕ := 0
  wr : ℕ := 0
deriving Repr, DecidableEq

namespace FrameBuffer

/-- `memmove(buf, buf + from, n)`. -/
def slide (buf : Bytes) (src n : ℕ) : Bytes := (buf.drop src).take n ++ buf.drop n

/-- soupbin.hpp:179-188. -/
def writePtr (b : FrameBuffer) : FrameBuffer :=
  if FrameReader.kBufSize - b.wr < kMaxFrame + kFrameHeaderLen ∧ 0 < b.rd then
    { buf := slide b.buf b.rd (b.wr - b.rd), rd := 0, wr := b.wr - b.rd }
  else b

def writeSpace (b : FrameBuffer) : ℕ := FrameReader.kBufSize - b.wr

/-- The kernel writes at `write_ptr()`. -/
def received (b : FrameBuffer) (bs : Bytes) : FrameBuffer :=
  { b with buf := b.buf.take b.wr ++ bs ++ b.buf.drop (b.wr + bs.length) }

def commit (b : FrameBuffer) (n : ℕ) : FrameBuffer := { b with wr := b.wr + n }

/-- soupbin.hpp:194-214. -/
def next (b : FrameBuffer) : Status × FrameBuffer :=
  let avail := b.wr - b.rd
  if avail < 2 then (.needMore, b)
  else
    let flen := beVal ((b.buf.drop b.rd).take 2)
    if flen = 0 ∨ kMaxFrame < flen then (.error, b)
    else if avail < 2 + flen then (.needMore, b)
    else
      let f : Frame := ⟨b.buf.getD (b.rd + 2) 0, (b.buf.drop (b.rd + 3)).take (flen - 1)⟩
      let rd := b.rd + (2 + flen)
      (.frame f, if rd = b.wr then { b with rd := 0, wr := 0 } else { b with rd := rd })

def buffered (b : FrameBuffer) : ℕ := b.wr - b.rd

/-- `while (r.next(...) == Status::Frame)`: the frames, and the status that ends the loop. A
frame takes three bytes and more, so `buffered()` rounds and one are enough. -/
def drainLoop : ℕ → FrameBuffer → List Frame × Status × FrameBuffer
  | 0, b => ([], .needMore, b)
  | fuel + 1, b =>
    match b.next with
    | (.frame f, b) =>
      let (fs, st, b) := drainLoop fuel b
      (f :: fs, st, b)
    | (st, b) => ([], st, b)

def drain (b : FrameBuffer) : List Frame × Status × FrameBuffer := drainLoop (b.buffered + 1) b

/-- One `recv` that returns `chunk`, and the frames it completes. -/
def feed (b : FrameBuffer) (chunk : Bytes) : List Frame × Status × FrameBuffer :=
  ((b.writePtr.received chunk).commit chunk.length).drain

end FrameBuffer

end PulseForge.Soup
