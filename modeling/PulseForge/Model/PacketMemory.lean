import PulseForge.Model.TraderLoop

/-!
# A datagram in memory (`itch.hpp`, `wire.hpp`, `trader.cpp`)

The parser of a packet on addresses. A pointer is an offset into the datagram; a load of bytes
that are not all inside the datagram fails, and so does a loop that is not done when its fuel is
used up. `size_t` arithmetic wraps. What the parser computes is stated in `Model.Mold`,
`Model.Itch` and `Model.TraderLoop` without addresses.
-/

set_option autoImplicit false

namespace PulseForge

open Foundation

/-- A datagram. Its length is a `size_t`. -/
structure Datagram where
  bytes : Bytes
  fits : bytes.length < 2 ^ 64

/-- `a - b` on `size_t`. -/
def subSize (a b : ℕ) : ℕ := (a + 2 ^ 64 - b) % 2 ^ 64

/-- A message as the callback gets it: its number, pointer and length. -/
structure MessageView where
  seq : ℕ
  ptr : ℕ
  len : ℕ
deriving Repr, DecidableEq

/-- `wire::Reader` over `len` bytes at `buf` (wire.hpp:159-197). -/
structure Cursor where
  buf : ℕ
  len : ℕ
  pos : ℕ := 0
  ok : Bool := true
deriving Repr, DecidableEq

/-- `take`: a pointer to `n` bytes, or null. Nothing is loaded (wire.hpp:183-191). -/
def Cursor.take (c : Cursor) (n : ℕ) : Option ℕ × Cursor :=
  if c.ok = false ∨ subSize c.len c.pos < n then (none, { c with ok := false })
  else (some (c.buf + c.pos), { c with pos := (c.pos + n) % 2 ^ 64 })

/-- A run of a reader that loads. -/
abbrev Load := StateT Cursor Option

namespace Datagram

/-- The `n` bytes at `p`. -/
def slice (d : Datagram) (p n : ℕ) : Bytes := (d.bytes.drop p).take n

/-- A load of `n` bytes at `p`. -/
def load (d : Datagram) (p n : ℕ) : Option Bytes :=
  if p + n ≤ d.bytes.length then some (d.slice p n) else none

/-! ## `parse_header` and `for_each_message` -/

/-- itch.hpp:327-335; the inner option is what it answers. -/
def parseHeader (d : Datagram) : Option (Option Mold.Header) :=
  if d.bytes.length < Mold.kHeaderLen then some none
  else do
    let session ← d.load 0 Mold.kSessionLen
    let sequence ← d.load 10 8
    let count ← d.load 18 2
    pure (some ⟨session, beVal sequence, beVal count⟩)

variable {σ : Type}

/-- The loop, at block `i` and offset `pos`, with the callback `f` on its captures. -/
def messageLoop (d : Datagram) (h : Mold.Header) (f : σ → MessageView → Option σ) :
    ℕ → ℕ → ℕ → σ → Option (σ × Bool)
  | 0, _, _, _ => none
  | fuel + 1, i, pos, s =>
    if i < h.count then
      if subSize d.bytes.length pos < 2 then some (s, false)
      else (d.load pos 2).bind fun bs =>
        let mlen := beVal bs
        let pos := (pos + 2) % 2 ^ 64
        if subSize d.bytes.length pos < mlen then some (s, false)
        else (f s ⟨(h.sequence + i) % 2 ^ 64, pos, mlen⟩).bind fun s =>
          d.messageLoop h f fuel ((i + 1) % 2 ^ 16) ((pos + mlen) % 2 ^ 64) s
    else some (s, true)

/-- itch.hpp:342-361. -/
def forEachMessage (d : Datagram) (h : Mold.Header) (f : σ → MessageView → Option σ) (fuel : ℕ)
    (s : σ) : Option (σ × Bool) :=
  if h.count = Mold.kEndOfSession then some (s, true)
  else d.messageLoop h f fuel 0 Mold.kHeaderLen s

/-! ## `itch::decode` -/

/-- `take` and the load behind it. -/
def fetch (d : Datagram) (n : ℕ) : Load (Option Bytes) := fun c =>
  match c.take n with
  | (none, c) => some (none, c)
  | (some p, c) => (d.load p n).map fun bs => (some bs, c)

/-- A number of `n` bytes; zero when it is not there. -/
def number (d : Datagram) (n : ℕ) : Load ℕ := (fun bs => (bs.map beVal).getD 0) <$> d.fetch n

def u8 (d : Datagram) : Load UInt8 := UInt8.ofNat <$> d.number 1

def u16 (d : Datagram) : Load UInt16 := UInt16.ofNat <$> d.number 2

def u32 (d : Datagram) : Load UInt32 := UInt32.ofNat <$> d.number 4

def u48 (d : Datagram) : Load UInt64 := UInt64.ofNat <$> d.number 6

def u64 (d : Datagram) : Load UInt64 := UInt64.ofNat <$> d.number 8

/-- `bytes` into a field; zeros when they are not there. -/
def field (d : Datagram) (width : ℕ) : Load (Alpha width) :=
  (fun bs => (bs.map Alpha.ofBytes).getD fun _ => 0) <$> d.fetch width

/-- A skip loads nothing. -/
def skip (n : ℕ) : Load Unit := fun c => some ((), (c.take n).2)

/-- `common` of the decoder. -/
def common (d : Datagram) : Load (UInt16 × UInt64) := do
  let locate ← d.u16
  skip 2
  let ts ← d.u48
  pure (locate, ts)

/-- `r.ok() ? m : nullopt`. -/
def checked (m : Itch.Message) : Load (Option Itch.Message) := fun c =>
  some (if c.ok then some m else none, c)

/-- `while (s < e && *s == ' ') ++s;` -/
def skipSpaces (d : Datagram) : ℕ → ℕ → ℕ → Option ℕ
  | 0, _, _ => none
  | fuel + 1, s, e =>
    if s < e then (d.load s 1).bind fun bs =>
      if bs = [32] then d.skipSpaces fuel (s + 1) e else some s
    else some s

/-- The case `'G'` for a message at `p`: `from_chars` reads the text from `s` to `e`. -/
def endOfSnapshot (d : Datagram) (p : ℕ) : Option (Option Itch.Message) := do
  let e := p + 21
  let s ← d.skipSpaces 21 (p + 1) e
  let text ← d.load s (e - s)
  pure (match fromChars (2 ^ 64) text with
    | some (next, []) => some (.endOfSnapshot (UInt64.ofNat next))
    | _ => none)

/-- The decoder of each type for a message of `n` bytes at `p`, behind the type byte
(itch.hpp:240-306). -/
def decodeBody (d : Datagram) (type : UInt8) (p n : ℕ) : Load (Option Itch.Message) :=
  if type = 83 then
    if n ≠ 12 then pure none else do
    let (locate, ts) ← d.common
    let eventCode ← d.u8
    checked (.systemEvent locate ts eventCode)
  else if type = 82 then
    if n ≠ 39 then pure none else do
    let (locate, ts) ← d.common
    let stock ← d.field 8
    skip 2
    let roundLotSize ← d.u32
    checked (.stockDirectory locate ts stock roundLotSize)
  else if type = 65 then
    if n ≠ 36 then pure none else do
    let (locate, ts) ← d.common
    let orderRef ← d.u64
    let code ← d.u8
    match Side.ofCode code with
    | none => pure none
    | some side =>
      let shares ← d.u32
      let stock ← d.field 8
      let price ← d.u32
      checked (.addOrder locate ts orderRef side shares stock price)
  else if type = 69 then
    if n ≠ 31 then pure none else do
    let (locate, ts) ← d.common
    let orderRef ← d.u64
    let executedShares ← d.u32
    let matchNumber ← d.u64
    checked (.orderExecuted locate ts orderRef executedShares matchNumber)
  else if type = 88 then
    if n ≠ 23 then pure none else do
    let (locate, ts) ← d.common
    let orderRef ← d.u64
    let cancelledShares ← d.u32
    checked (.orderCancel locate ts orderRef cancelledShares)
  else if type = 68 then
    if n ≠ 19 then pure none else do
    let (locate, ts) ← d.common
    let orderRef ← d.u64
    checked (.orderDelete locate ts orderRef)
  else if type = 71 then
    if n ≠ 21 then pure none
    else fun c => (d.endOfSnapshot p).map fun m => (m, c)
  else pure none

/-- `itch::decode` of the `n` bytes at `p` (itch.hpp:227-307). -/
def decode (d : Datagram) (p n : ℕ) : Option (Option Itch.Message) :=
  if n = 0 then some none
  else ((do
    let type ← d.u8
    d.decodeBody type p n : Load (Option Itch.Message)) { buf := p, len := n }).map Prod.fst

/-! ## `handle_packet` -/

/-- What the callback does with what `decode` answered (trader.cpp:440-461). -/
def applied (p : Trader.Pass) : Option Itch.Message → Trader.Pass
  | none => p
  | some msg =>
    let (book, answer) := applyItch p.trader.book p.trader.locate msg
    let p := { p with trader := { p.trader with book := book } }
    match answer with
    | .applied => { p with touched := true }
    | .inconsistent => { p with inconsistent := true }
    | .ignored =>
      match msg with
      | .systemEvent _ _ code =>
        if code = Trader.kEndOfMessages then
          { p with trader := { p.trader with exchangeClosed := true } }
        else p
      | _ => p

/-- The callback (trader.cpp:426-462). -/
def onMessage (d : Datagram) (p : Trader.Pass) (v : MessageView) : Option Trader.Pass :=
  if p.gap || p.inconsistent then some p
  else match p.trader.seq.onMessage v.seq with
    | (.duplicate, _) => some p
    | (.gap, _) => some { p with gap := true }
    | (.apply, seq) =>
      (d.decode v.ptr v.len).map (applied { p with trader := { p.trader with seq := seq } })

/-- `handle_packet` (trader.cpp:400-493). -/
def handlePacket (d : Datagram) (fuel : ℕ) (t : Trader) (reply : SnapshotReply) :
    Option Trader :=
  d.parseHeader.bind fun header =>
    match header with
    | none => some t
    | some h =>
      if h.count = Mold.kEndOfSession then some t
      else if t.synced = false then some t
      else if h.count = 0 then
        match t.seq.onHeartbeat h.sequence with
        | .gap => some (t.resync reply)
        | _ => some t
      else
        (d.forEachMessage h d.onMessage fuel { trader := t }).map fun (p, _) => p.finish reply

end Datagram

end PulseForge
