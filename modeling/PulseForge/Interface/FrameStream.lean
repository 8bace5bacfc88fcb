import PulseForge.Foundation.StreamParser
import PulseForge.Model.Soup

/-!
# What a byte stream says

A stream is frame after frame: a `uint16` length `L` between 1 and `kMaxFrame`, a type byte
and `L - 1` bytes of payload. Any other length is an error, where it stands.
-/

set_option autoImplicit false

namespace PulseForge.Soup

open Foundation

/-- The frame at the front of a stream. -/
def frontFrame (bs : Bytes) : Front UInt8 Frame :=
  if bs.length < 2 then .more
  else
    let flen := beVal (bs.take 2)
    if flen = 0 ∨ kMaxFrame < flen then .bad
    else if bs.length < 2 + flen then .more
    else .item ⟨bs.getD 2 0, (bs.drop 3).take (flen - 1)⟩ (bs.drop (2 + flen))

/-- The frames of a whole stream. -/
def parseFrames (stream : Bytes) : Parsed UInt8 Frame := parse frontFrame stream

/-- The bytes of a frame. -/
def Frame.bytes (f : Frame) : Bytes := beBytes 2 (f.payload.length + 1) ++ f.type :: f.payload

/-- A frame that can be sent. -/
def Frame.Legal (f : Frame) : Prop := f.payload.length ≤ kMaxFrame - 1

end PulseForge.Soup
