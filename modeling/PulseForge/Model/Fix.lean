import PulseForge.Foundation.Decimal
import PulseForge.Foundation.MachineInt
import PulseForge.Model.Wire

/-!
# FIX messages (`fix.hpp`)

The encoder of a NewOrderSingle and the parser, byte for byte. A view into a buffer is the
offset at which it starts and its bytes; the empty view is `none`.
-/

set_option autoImplicit false

namespace PulseForge.Fix

open Foundation

/-- The end of a field. -/
def kSOH : UInt8 := 1

/-- `'='`. -/
def kEquals : UInt8 := 61

/-! ## Tags (fix.hpp:58-74) -/

namespace Tag

def beginString : ℕ := 8

def bodyLength : ℕ := 9

def checkSum : ℕ := 10

def clOrdID : ℕ := 11

def msgSeqNum : ℕ := 34

def msgType : ℕ := 35

def orderQty : ℕ := 38

def ordType : ℕ := 40

def price : ℕ := 44

def senderCompID : ℕ := 49

def sendingTime : ℕ := 52

def side : ℕ := 54

def symbol : ℕ := 55

def targetCompID : ℕ := 56

def timeInForce : ℕ := 59

end Tag

/-- fix.hpp:76-87. -/
structure NewOrderSingle where
  senderCompId : Bytes := []
  targetCompId : Bytes := []
  msgSeqNum : UInt64 := 0
  sendingTime : Bytes := []
  clordid : Bytes := []
  symbol : Bytes := []
  side : Side := .buy
  qty : UInt32 := 0
  price : Int64 := 0
  tif : TimeInForce := .day
deriving DecidableEq

/-! ## Encoding -/

/-- A cursor over `cap` bytes; `out` is what it has written. A call that does not fit does
nothing but latch `ok` to false; a later one that fits still writes (fix.hpp:93-154). -/
structure Out where
  cap : ℕ
  out : Bytes := []
  ok : Bool := true
deriving Repr, DecidableEq

namespace Out

def puts (o : Out) (s : Bytes) : Out :=
  if s.length ≤ o.cap - o.out.length then { o with out := o.out ++ s } else { o with ok := false }

def put (o : Out) (c : UInt8) : Out := o.puts [c]

def putUint (o : Out) (v : ℕ) : Out := o.puts (toChars v)

end Out

/-- The four digits of the fraction of a price (fix.hpp:131-135). -/
def fracDigits (frac : ℕ) : Bytes :=
  [UInt8.ofNat (48 + frac / 1000 % 10), UInt8.ofNat (48 + frac / 100 % 10),
    UInt8.ofNat (48 + frac / 10 % 10), UInt8.ofNat (48 + frac % 10)]

/-- The digits without the zeros at the end (fix.hpp:136-137). -/
def trimZeros (digits : Bytes) : Bytes := (digits.reverse.dropWhile fun c => c = 48).reverse

namespace Out

/-- The whole part and the fraction of a price that is not negative (fix.hpp:128-140); the least
price has no negative in `int64_t`, and the source is undefined on it. -/
def putMagnitude (o : Out) (v : ℤ) : Out :=
  let o := o.putUint (v.tdiv kPriceScale % 2 ^ 64).toNat
  let frac := (v.tmod kPriceScale).toNat
  if frac ≠ 0 then (o.put 46).puts (trimZeros (fracDigits frac)) else o

/-- `put_price` (fix.hpp:121-141). -/
def putPrice (o : Out) (v : ℤ) : Out :=
  if v < 0 then (o.put 45).putMagnitude (i64 (-v)) else o.putMagnitude v

def field (o : Out) (t : ℕ) (v : Bytes) : Out :=
  (((o.putUint t).put kEquals).puts v).put kSOH

def fieldUint (o : Out) (t v : ℕ) : Out :=
  (((o.putUint t).put kEquals).putUint v).put kSOH

end Out

/-- `detail::checksum`: an `unsigned` sum (fix.hpp:156-162). -/
def checksum (bs : Bytes) : ℕ := (bs.foldl (fun sum b => (sum + b.toNat) % 2 ^ 32) 0) % 256

/-- Room in front of the body for the header. -/
def kHeaderReserve : ℕ := 24

/-- `8=FIX.4.4`, the end of the field, and `9=`. -/
def kBegin : Bytes := [56, 61, 70, 73, 88, 46, 52, 46, 52, 1, 57, 61]

/-- The body of a NewOrderSingle (fix.hpp:179-195). -/
def putBody (o : Out) (m : NewOrderSingle) : Out :=
  let o := o.field Tag.msgType [68]
  let o := o.field Tag.senderCompID m.senderCompId
  let o := o.field Tag.targetCompID m.targetCompId
  let o := o.fieldUint Tag.msgSeqNum m.msgSeqNum.toNat
  let o := o.field Tag.sendingTime m.sendingTime
  let o := o.field Tag.clOrdID m.clordid
  let o := o.field Tag.symbol m.symbol
  let o := o.field Tag.side (if m.side = .buy then [49] else [50])
  let o := o.fieldUint Tag.orderQty m.qty.toNat
  let o := o.field Tag.ordType [50]
  let o := (((o.putUint Tag.price).put kEquals).putPrice m.price.toInt).put kSOH
  o.field Tag.timeInForce (if m.tif = .ioc then [51] else [48])

/-- The trailer (fix.hpp:218-224). -/
def putTrailer (o : Out) (cs : ℕ) : Out :=
  let o := o.puts [49, 48, 61]
  let o := o.put (UInt8.ofNat (48 + cs / 100))
  let o := o.put (UInt8.ofNat (48 + cs / 10 % 10))
  (o.put (UInt8.ofNat (48 + cs % 10))).put kSOH

/-- A part of a buffer. -/
structure View where
  start : ℕ
  bytes : Bytes
deriving Repr, DecidableEq

/-- fix.hpp:174-229. The header stands in the reserve, directly in front of the body. -/
def encodeNewOrderSingle (m : NewOrderSingle) (cap : ℕ) : Option View :=
  if cap ≤ kHeaderReserve + 8 then none
  else
    let o := putBody { cap := cap - kHeaderReserve } m
    if o.ok = false then none
    else
      let lenDigits := toChars o.out.length
      if 8 < lenDigits.length then none
      else
        let header := kBegin ++ lenDigits ++ [kSOH]
        let o' := putTrailer o (checksum (header ++ o.out))
        if o'.ok = false then none
        else some ⟨kHeaderReserve - header.length, header ++ o'.out⟩

/-! ## Prices -/

/-- The value of a price from its parts (fix.hpp:267-269). -/
def scaled (neg : Bool) (whole frac : ℕ) : ℤ :=
  let v := i64 (i64 (i64 whole * kPriceScale) + frac)
  if neg then i64 (-v) else v

/-- The fraction behind the point, as a multiple of 0.0001 (fix.hpp:252-265). -/
def parseFrac (f : Bytes) : Option ℕ :=
  if f.length = 0 ∨ 4 < f.length then none
  else if ∀ c ∈ f, isDigit c then some (digitsVal f * 10 ^ (4 - f.length))
  else none

/-- `parse_price` behind the sign (fix.hpp:239-269). -/
def parseMagnitude (neg : Bool) (s : Bytes) : Option ℤ :=
  match fromChars (2 ^ 64) s with
  | none => none
  | some (whole, []) => some (scaled neg whole 0)
  | some (whole, c :: f) =>
    if c ≠ 46 then none else (parseFrac f).map fun frac => scaled neg whole frac

/-- `parse_price` (fix.hpp:233-270). -/
def parsePrice (s : Bytes) : Option ℤ :=
  match s with
  | 45 :: s => parseMagnitude true s
  | s => parseMagnitude false s

/-! ## Parsing -/

/-- fix.hpp:280-287, without `None`. -/
inductive Error where
  | malformed
  | badBeginString
  | badBodyLength
  | badChecksum
  | tooManyFields
deriving Repr, DecidableEq

structure Field where
  tag : ℕ
  value : Bytes
deriving Repr, DecidableEq

def kMaxFields : ℕ := 64

/-- `std::from_chars` into an `int`: a minus sign is read. -/
def fromCharsInt (text : Bytes) : Option (ℤ × Bytes) :=
  match text with
  | 45 :: text => (fromChars (2 ^ 31 + 1) text).map fun (n, rest) => (-(n : ℤ), rest)
  | text => (fromChars (2 ^ 31) text).map fun (n, rest) => ((n : ℤ), rest)

/-- One field at the front of `rest`: its tag, its value and the bytes behind it. The first `'='`
is looked up before the end of the field (fix.hpp:299-318). -/
def scanField (rest : Bytes) : Option (Field × Bytes) :=
  match rest.dropWhile fun c => c ≠ kEquals with
  | [] => none
  | _ :: afterEq =>
    match fromCharsInt (rest.takeWhile fun c => c ≠ kEquals) with
    | some (t, []) =>
      if t ≤ 0 then none
      else match afterEq.dropWhile fun c => c ≠ kSOH with
        | [] => none
        | _ :: rest' => some (⟨t.toNat, afterEq.takeWhile fun c => c ≠ kSOH⟩, rest')
    | _ => none

/-- The variables of the loop of `parse`. -/
structure Scan where
  fields : List Field := []
  pos : ℕ := 0
  bodyStart : ℕ := 0
  checksumAt : ℕ := 0
  declaredLen : ℕ := 0
  haveLen : Bool := false
  haveChecksum : Bool := false
deriving Repr, DecidableEq

/-- The field `f` is recorded; `next` is the position behind it (fix.hpp:315-342). -/
def Scan.record (st : Scan) (f : Field) (next : ℕ) : Except Error Scan :=
  if st.fields.length = kMaxFields then .error .tooManyFields
  else if st.fields.length = 0 ∧ f.tag ≠ Tag.beginString then .error .badBeginString
  else
    let st' : Scan :=
      { st with
        fields := st.fields ++ [f]
        pos := next
        checksumAt := if f.tag = Tag.checkSum then st.pos else st.checksumAt
        haveChecksum := st.haveChecksum || decide (f.tag = Tag.checkSum) }
    if st.fields.length = 1 then
      if f.tag ≠ Tag.bodyLength then .error .badBodyLength
      else match fromChars (2 ^ 64) f.value with
        | some (len, []) => .ok { st' with declaredLen := len, haveLen := true, bodyStart := next }
        | _ => .error .badBodyLength
    else .ok st'

/-- The loop of `parse` on the bytes that are left (fix.hpp:298-343). Each round takes a field
off, so that the number of bytes is fuel enough. -/
def scanLoop : ℕ → Bytes → Scan → Except Error Scan
  | 0, _, st => .ok st
  | fuel + 1, rest, st =>
    if rest = [] then .ok st
    else match scanField rest with
      | none => .error .malformed
      | some (f, rest') =>
        match st.record f (st.pos + (rest.length - rest'.length)) with
        | .error e => .error e
        | .ok st => if st.haveChecksum then .ok st else scanLoop fuel rest' st

/-- The tests behind the loop (fix.hpp:345-361); `checksum_at - body_start` is a `size_t`. -/
def Scan.verify (st : Scan) (buf : Bytes) : Except Error (List Field) :=
  if st.haveLen = false then .error .badBodyLength
  else if st.haveChecksum = false then .error .badChecksum
  else if (st.checksumAt + 2 ^ 64 - st.bodyStart) % 2 ^ 64 ≠ st.declaredLen then
    .error .badBodyLength
  else
    let cs := (st.fields.getLastD ⟨0, []⟩).value
    if cs.length ≠ 3 then .error .badChecksum
    else match fromChars (2 ^ 32) cs with
      | none => .error .badChecksum
      | some (declared, _) =>
        if declared ≠ checksum (buf.take st.checksumAt) then .error .badChecksum else .ok st.fields

/-- `Message::parse`: the fields, when it returns `None` (fix.hpp:291-362). -/
def parse (buf : Bytes) : Except Error (List Field) :=
  match scanLoop buf.length buf {} with
  | .error e => .error e
  | .ok st => st.verify buf

/-! ## The fields of a message -/

/-- `find`: the value of the first field of a tag (fix.hpp:364-373). -/
def find (fields : List Field) (t : ℕ) : Option Bytes :=
  (fields.find? fun f => f.tag = t).map Field.value

/-- fix.hpp:375-382. -/
def getUint (fields : List Field) (t : ℕ) : Option ℕ :=
  match find fields t with
  | none => none
  | some v =>
    match fromChars (2 ^ 64) v with
    | some (n, []) => some n
    | _ => none

/-- fix.hpp:384-387. -/
def getPrice (fields : List Field) (t : ℕ) : Option ℤ := (find fields t).bind parsePrice

/-- fix.hpp:413-420. -/
structure ParsedOrder where
  clordid : Bytes
  symbol : Bytes
  side : Side
  qty : UInt32
  price : ℤ
  tif : TimeInForce
deriving DecidableEq

/-- `to_order` (fix.hpp:422-446): `none` when it returns false. The quantity is cut to 32 bits. -/
def toOrder (fields : List Field) : Option ParsedOrder :=
  match find fields Tag.msgType, find fields Tag.clOrdID, find fields Tag.symbol,
    find fields Tag.side, getUint fields Tag.orderQty, getPrice fields Tag.price with
  | some type, some cl, some sym, some side, some qty, some price =>
    if type ≠ [68] then none
    else
      let order (side : Side) : ParsedOrder :=
        { clordid := cl
          symbol := sym
          side := side
          qty := UInt32.ofNat qty
          price := price
          tif := if find fields Tag.timeInForce = some [51] then .ioc else .day }
      if side = [49] then some (order .buy)
      else if side = [50] then some (order .sell)
      else none
  | _, _, _, _, _, _ => none

end PulseForge.Fix
