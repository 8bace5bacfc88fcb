import PulseForge.Model.Wire

/-!
# OUCH order entry messages (`ouch.hpp`)

Encoders and decoders of both directions, byte for byte. Fields have the widths of the
source.
-/

set_option autoImplicit false

namespace PulseForge.Ouch

/-- A free-form client label. -/
abbrev ClOrdId := Alpha 14

def kMaxMessageLen : ℕ := 58

/-- Liquidity flags: `'A'` and `'R'`. -/
def kAddedLiquidity : UInt8 := 65

def kRemovedLiquidity : UInt8 := 82

/-- Cancel reasons: `'U'`, `'I'`, `'Q'` and `'S'`. -/
def kCancelUserRequested : UInt8 := 85

def kCancelImmediate : UInt8 := 73

def kCancelSelfMatch : UInt8 := 81

def kCancelSupervisory : UInt8 := 83

/-- Reject reasons: `'X'`, `'Z'`, `'S'`, `'N'` and `'O'`. -/
def kRejectInvalidPrice : UInt8 := 88

def kRejectInvalidQty : UInt8 := 90

def kRejectInvalidSymbol : UInt8 := 83

def kRejectInvalidUserRef : UInt8 := 78

def kRejectOther : UInt8 := 79

/-- ouch.hpp:94-102. -/
structure EnterOrder where
  userRef : UInt32
  side : Side
  qty : UInt32
  symbol : Symbol
  price : Int64
  tif : TimeInForce
  clordid : ClOrdId
deriving DecidableEq

/-- The quantity of a cancel is the new size of the order. -/
structure CancelOrder where
  userRef : UInt32
  qty : UInt32
deriving Repr, DecidableEq

inductive Inbound where
  | enterOrder (m : EnterOrder)
  | cancelOrder (m : CancelOrder)
deriving DecidableEq

/-- The reports to a client (ouch.hpp:109-146). -/
inductive Outbound where
  | accepted (timestamp : UInt64) (userRef : UInt32) (side : Side) (qty : UInt32) (symbol : Symbol)
      (price : Int64) (tif : TimeInForce) (orderRef : UInt64) (clordid : ClOrdId) (state : UInt8)
  | executed (timestamp : UInt64) (userRef : UInt32) (qty : UInt32) (price : Int64)
      (liquidity : UInt8) (matchNumber : UInt64)
  | canceled (timestamp : UInt64) (userRef : UInt32) (qty : UInt32) (reason : UInt8)
  | rejected (timestamp : UInt64) (userRef : UInt32) (reason : UInt8) (clordid : ClOrdId)
deriving DecidableEq

/-- The calls the encoders of a client make on their writer (ouch.hpp:150-169). -/
def writeInbound (w : Writer) : Inbound → Writer
  | .enterOrder m =>
    let w := (((w.u8 79).u32 m.userRef).u8 m.side.code).u32 m.qty
    (((w.bytes m.symbol.bytes).i64 m.price).u8 m.tif.code).bytes m.clordid.bytes
  | .cancelOrder m => ((w.u8 88).u32 m.userRef).u32 m.qty

/-- The calls the encoders of the exchange make on their writer (ouch.hpp:171-217). -/
def writeOutbound (w : Writer) : Outbound → Writer
  | .accepted ts userRef side qty symbol price tif orderRef clordid state =>
    let w := ((((w.u8 65).u64 ts).u32 userRef).u8 side.code).u32 qty
    let w := ((w.bytes symbol.bytes).i64 price).u8 tif.code
    ((w.u64 orderRef).bytes clordid.bytes).u8 state
  | .executed ts userRef qty price liquidity matchNumber =>
    let w := (((w.u8 69).u64 ts).u32 userRef).u32 qty
    ((w.i64 price).u8 liquidity).u64 matchNumber
  | .canceled ts userRef qty reason => ((((w.u8 67).u64 ts).u32 userRef).u32 qty).u8 reason
  | .rejected ts userRef reason clordid =>
    ((((w.u8 74).u64 ts).u32 userRef).u8 reason).bytes clordid.bytes

def encodeInbound (m : Inbound) (cap : ℕ) : Bytes := (writeInbound { cap := cap } m).done

def encodeOutbound (m : Outbound) (cap : ℕ) : Bytes := (writeOutbound { cap := cap } m).done

/-- `r.ok() ? m : nullopt`. -/
def checked {M : Type} (r : Reader) (m : M) : Option M := if r.ok then some m else none

/-- `decode_inbound` behind the type byte, with `n` the length of the whole message
(ouch.hpp:226-251). -/
def decodeInboundBody (type : UInt8) (n : ℕ) (r : Reader) : Option Inbound :=
  if type = 79 then
    if n ≠ 41 then none else
    let (userRef, r) := r.u32
    let (side, r) := r.u8
    let (qty, r) := r.u32
    let (symbol, r) := r.field 8
    let (price, r) := r.i64
    let (tif, r) := r.u8
    let (clordid, r) := r.field 14
    match Side.ofCode side, TimeInForce.ofCode tif with
    | some side, some tif => checked r (.enterOrder ⟨userRef, side, qty, symbol, price, tif, clordid⟩)
    | _, _ => none
  else if type = 88 then
    if n ≠ 9 then none else
    let (userRef, r) := r.u32
    let (qty, r) := r.u32
    checked r (.cancelOrder ⟨userRef, qty⟩)
  else none

def decodeInbound (bs : Bytes) : Option Inbound :=
  if bs.length = 0 then none
  else
    let (type, r) := ({ rest := bs } : Reader).u8
    decodeInboundBody type bs.length r

/-- `decode_outbound` behind the type byte (ouch.hpp:259-309). -/
def decodeOutboundBody (type : UInt8) (n : ℕ) (r : Reader) : Option Outbound :=
  if type = 65 then
    if n ≠ 58 then none else
    let (ts, r) := r.u64
    let (userRef, r) := r.u32
    let (side, r) := r.u8
    let (qty, r) := r.u32
    let (symbol, r) := r.field 8
    let (price, r) := r.i64
    let (tif, r) := r.u8
    let (orderRef, r) := r.u64
    let (clordid, r) := r.field 14
    let (state, r) := r.u8
    match Side.ofCode side, TimeInForce.ofCode tif with
    | some side, some tif =>
      checked r (.accepted ts userRef side qty symbol price tif orderRef clordid state)
    | _, _ => none
  else if type = 69 then
    if n ≠ 34 then none else
    let (ts, r) := r.u64
    let (userRef, r) := r.u32
    let (qty, r) := r.u32
    let (price, r) := r.i64
    let (liquidity, r) := r.u8
    let (matchNumber, r) := r.u64
    checked r (.executed ts userRef qty price liquidity matchNumber)
  else if type = 67 then
    if n ≠ 18 then none else
    let (ts, r) := r.u64
    let (userRef, r) := r.u32
    let (qty, r) := r.u32
    let (reason, r) := r.u8
    checked r (.canceled ts userRef qty reason)
  else if type = 74 then
    if n ≠ 28 then none else
    let (ts, r) := r.u64
    let (userRef, r) := r.u32
    let (reason, r) := r.u8
    let (clordid, r) := r.field 14
    checked r (.rejected ts userRef reason clordid)
  else none

def decodeOutbound (bs : Bytes) : Option Outbound :=
  if bs.length = 0 then none
  else
    let (type, r) := ({ rest := bs } : Reader).u8
    decodeOutboundBody type bs.length r

end PulseForge.Ouch
