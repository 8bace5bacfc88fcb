import PulseForge.Foundation.Decimal
import PulseForge.Model.ExchangeLoop

/-!
# The command line of the exchange (`exchange.cpp`)

`split_csv` and `parse_args` on the bytes of the arguments. Of the values only those the model of
the process reads are kept; `inet_pton` is a parameter, in host order.
-/

set_option autoImplicit false

namespace PulseForge

open Foundation

/-- The bytes of an ASCII text. -/
def ascii (text : String) : Bytes := text.toList.map fun c => UInt8.ofNat c.toNat

/-- trading_types.hpp:85-92. -/
def makeSymbol (s : Bytes) : Symbol := fun i => s.getD i 32

/-- `strtoull` in base ten: spaces, a sign, digits. What is too large is `ULLONG_MAX`. -/
def strtoull (s : Bytes) : UInt64 :=
  let s := s.dropWhile fun c => (9 ≤ c && c ≤ 13) || c = 32
  let digits := fun (s : Bytes) => digitsVal (s.takeWhile fun c => isDigit c)
  let read := fun (negative : Bool) (n : ℕ) =>
    if 2 ^ 64 ≤ n then 0 - 1 else if negative then 0 - UInt64.ofNat n else UInt64.ofNat n
  match s with
  | [] => 0
  | c :: rest =>
    if c = 45 then read true (digits rest)
    else if c = 43 then read false (digits rest)
    else read false (digits (c :: rest))

/-- The loop of `split_csv` on what begins at `start`; every turn but the last takes a comma. -/
def splitCsvLoop : ℕ → Bytes → List Bytes
  | 0, _ => []
  | fuel + 1, s =>
    let item := s.takeWhile fun c => c ≠ 44
    let out := if item.length = s.length then [] else splitCsvLoop fuel (s.drop (item.length + 1))
    if item = [] then out else item :: out

/-- `split_csv` (exchange.cpp:124-138). -/
def splitCsv (s : Bytes) : List Bytes := splitCsvLoop (s.length + 1) s

/-- exchange.cpp:86-102. -/
structure ExchangeConfig where
  mdGroup : Bytes := ascii "239.255.0.2"
  symbols : List Bytes := [ascii "PFRG", ascii "ACME"]
  dropEvery : UInt64 := 0
  seed : UInt64 := 42
  stp : SelfMatchPolicy := .cancelResting

namespace ExchangeConfig

/-- The options that take a value. -/
def valued : List Bytes :=
  [ascii "--bind", ascii "--order-port", ascii "--snapshot-port", ascii "--md-group",
    ascii "--md-port", ascii "--symbols", ascii "--flow-rate", ascii "--drop-every",
    ascii "--duration", ascii "--seed", ascii "--cpu", ascii "--stp"]

/-- One option with its value; `--stp` is the only one that refuses any. -/
def set (cfg : ExchangeConfig) (option value : Bytes) : Option ExchangeConfig :=
  if option = ascii "--md-group" then some { cfg with mdGroup := value }
  else if option = ascii "--symbols" then some { cfg with symbols := splitCsv value }
  else if option = ascii "--drop-every" then some { cfg with dropEvery := strtoull value }
  else if option = ascii "--seed" then some { cfg with seed := strtoull value }
  else if option = ascii "--stp" then
    if value = ascii "resting" then some { cfg with stp := .cancelResting }
    else if value = ascii "incoming" then some { cfg with stp := .cancelIncoming }
    else none
  else some cfg

/-- How `parse_args` ends when it does not return zero. -/
inductive Stop where
  /-- `exit(EXIT_USAGE)`: a value is missing. -/
  | needsValue
  /-- `exit(EXIT_OK)` after `--help`. -/
  | help
  /-- `return -1`. -/
  | refused
deriving Repr, DecidableEq

/-- The loop over the arguments (exchange.cpp:141-176). -/
def parseOptions : List Bytes → ExchangeConfig → Except Stop ExchangeConfig
  | [], cfg => .ok cfg
  | option :: rest, cfg =>
    if option ∈ valued then
      match rest with
      | [] => .error .needsValue
      | value :: rest =>
        match cfg.set option value with
        | none => .error .refused
        | some cfg => parseOptions rest cfg
    else if option = ascii "--quiet" ∨ option = ascii "--spin" then parseOptions rest cfg
    else if option = ascii "--help" ∨ option = ascii "-h" then .error .help
    else .error .refused

/-- `is_multicast_address` (multicast.hpp:44-51). -/
def isMulticastAddress (inetPton : Bytes → Option UInt32) (ip : Bytes) : Bool :=
  match inetPton ip with
  | none => false
  | some addr => addr >>> 28 = 0xE

/-- `parse_args` (exchange.cpp:140-192) on the arguments behind the program's name. -/
def parseArgs (inetPton : Bytes → Option UInt32) (argv : List Bytes) :
    Except Stop ExchangeConfig :=
  match parseOptions argv {} with
  | .error stop => .error stop
  | .ok cfg =>
    if cfg.symbols = [] ∨ 64 < cfg.symbols.length then .error .refused
    else if cfg.symbols.any fun s => 8 < s.length then .error .refused
    else if ¬ isMulticastAddress inetPton cfg.mdGroup then .error .refused
    else .ok cfg

/-- What the constructor of the process makes of it (exchange.cpp:392-409). -/
def process (cfg : ExchangeConfig) : Exchange.Config where
  symbols := cfg.symbols.map makeSymbol
  stp := cfg.stp
  dropEvery := cfg.dropEvery.toNat
  seed := cfg.seed

end ExchangeConfig

end PulseForge
