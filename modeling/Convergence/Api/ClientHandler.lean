import Convergence.Crdt.CrdtOrderBook
import Convergence.Library.Binary64
import Convergence.Library.DecimalText

/-!
# The text protocol

`ClientHandler::handle` of `client_handler.cpp`: a request is a line of text, taken apart by
formatted extraction from an `std::istringstream`, and the answer is a text. The handler never looks
at the state of the stream, so a local that nothing has been stored to is used as it is: `price` and
`qty` have no initialiser, and their contents are parameters, as are the generated ids.

A price is the exact value of its numeral, up to the range of `double`.

## Main definitions

* `Environment`: what a call finds in memory, and the ids that it generates.
* `extractString`, `extractDouble`, `extractInt64`, `extractInt`: the extractions.
* `ClientHandler.parseSide`, `ClientHandler.handle`.
-/

namespace Convergence

open TextStream DecimalText

/-- What a call finds in its uninitialised locals and orders, and the values of `generate_uuid`. -/
structure Environment where
  price : ℚ
  qty : ℤ
  memory : ℕ → Uninit ℚ
  uuid : ℕ → Str

namespace ClientHandler

/-! ### Extraction -/

/-- `std::numeric_limits<double>::max()`. -/
def doubleMax : ℚ := (2 ^ 53 - 1) * 2 ^ 971

/-- What is stored for an integer: the nearest limit for one out of range, and zero for what is not
a numeral. Only an integer in range is read without failure. -/
def storeInteger (low high : ℤ) (q : IntegerState) : ℤ × Bool :=
  match q.value with
  | none => (0, false)
  | some i => if i < low then (low, false) else if high < i then (high, false) else (i, true)

/-- What is stored for a decimal fraction. -/
def storeDecimal (q : DecimalState) : ℚ × Bool :=
  match q.value with
  | none => (0, false)
  | some v =>
    if v < -doubleMax then (-doubleMax, false)
    else if doubleMax < v then (doubleMax, false)
    else (v, true)

/-- `ss >> s` of a `std::string`. -/
def extractString (s : TextStream UInt8) (old : Str) : TextStream UInt8 × Str :=
  s.extract isSpace (word isSpace) old

/-- `ss >> v` of a `double`. -/
def extractDouble (s : TextStream UInt8) (old : ℚ) : TextStream UInt8 × ℚ :=
  s.extract isSpace (reader decimalStep .start storeDecimal) old

/-- `ss >> i` of an `int64_t`. -/
def extractInt64 (s : TextStream UInt8) (old : ℤ) : TextStream UInt8 × ℤ :=
  s.extract isSpace (reader integerStep .start (storeInteger (-2 ^ 63) (2 ^ 63 - 1))) old

/-- `ss >> i` of an `int`. -/
def extractInt (s : TextStream UInt8) (old : ℤ) : TextStream UInt8 × ℤ :=
  s.extract isSpace (reader integerStep .start (storeInteger (-2 ^ 31) (2 ^ 31 - 1))) old

/-- `to_upper`. -/
def toUpper (s : Str) : Str := s.map DecimalText.toUpper

/-- The choice of the `Side` by its name. -/
def parseSide (sideStr : Str) : Option Side :=
  if sideStr = ascii "BUY" then some .buy else if sideStr = ascii "SELL" then some .sell else none

/-! ### Insertion -/

/-- `out << n` of an unsigned integer. -/
def printNat (n : ℕ) : Str := (Nat.toDigits 10 n).map Char.toUInt8

/-- `out << i` of a signed integer. -/
def printInt (i : ℤ) : Str := (if i < 0 then ascii "-" else []) ++ printNat i.natAbs

/-- `out << std::fixed << std::setprecision(4) << v`. -/
def printFixed (v : ℚ) : Str :=
  let n := (Binary64.roundEven (|v| * 10000)).natAbs
  let places := printNat (n % 10000)
  (if v < 0 then ascii "-" else []) ++ printNat (n / 10000) ++ ascii "." ++
    List.replicate (4 - places.length) 48 ++ places

/-- A line of a list of levels. -/
def printLevel (level : PriceLevel ℚ) : Str :=
  ascii "\n" ++ printFixed level.price ++ ascii " " ++ printInt level.totalQuantity

/-- A line of a list of fills. -/
def printFill (f : Fill ℚ) : Str :=
  ascii "\n" ++ printFixed f.price ++ ascii " " ++ printInt f.quantity

/-! ### Requests -/

variable (env : Environment) (book : CRDTOrderBook ℚ)

/-- `ADD`. -/
def handleAdd (ss : TextStream UInt8) : CRDTOrderBook ℚ × Str :=
  let (ss, sideStr) := extractString ss []
  let (ss, price) := extractDouble ss env.price
  let (_, qty) := extractInt64 ss env.qty
  match parseSide (toUpper sideStr) with
  | none => (book, ascii "ERROR invalid_side")
  | some side =>
    if price ≤ 0 ∨ qty ≤ 0 then (book, ascii "ERROR invalid_params")
    else
      let (book, oid) := book.localAddOrder side price qty (env.uuid 0) (env.uuid 1)
      (book, ascii "OK " ++ oid)

/-- `CANCEL`. -/
def handleCancel (ss : TextStream UInt8) : CRDTOrderBook ℚ × Str :=
  let (_, orderId) := extractString ss []
  if orderId = [] then (book, ascii "ERROR missing_order_id")
  else
    let (book, ok) := book.localCancelOrder orderId (env.uuid 0) (env.memory 0)
    (book, if ok then ascii "OK" else ascii "ERROR order_not_found")

/-- `MARKET`. -/
def handleMarket (ss : TextStream UInt8) : CRDTOrderBook ℚ × Str :=
  let (ss, sideStr) := extractString ss []
  let (_, qty) := extractInt64 ss env.qty
  match parseSide (toUpper sideStr) with
  | none => (book, ascii "ERROR invalid_side")
  | some side =>
    if qty ≤ 0 then (book, ascii "ERROR invalid_quantity")
    else
      let (book, fills) := book.localMarketOrder side qty fun n => (env.uuid n, env.memory n)
      (book, ascii "FILLED " ++ printNat fills.length ++ fills.flatMap printFill)

/-- `BOOK`. -/
def handleBook (ss : TextStream UInt8) : Str :=
  let (_, depth) := extractInt ss 10
  let snap := book.getSnapshot (if depth ≤ 0 then 10 else depth)
  ascii "BIDS" ++ snap.bids.flatMap printLevel ++ ascii "\nASKS" ++ snap.asks.flatMap printLevel

/-- `STATUS`. -/
def handleStatus : Str :=
  ascii "NODE " ++ book.nodeId ++ ascii "\nORDERS " ++ printNat book.getOrderCount ++
    ascii "\nOP_LOG " ++ printNat book.opLog.length ++ ascii "\nCLOCK" ++
    book.clock.clock.entries.flatMap fun e => ascii " " ++ e.1 ++ ascii "=" ++ printNat e.2

/-- A metric with its description, and its samples by label. -/
def metric (name help : String) (samples : List (Str × ℕ)) : Str :=
  ascii "# HELP " ++ ascii name ++ ascii " " ++ ascii help ++ ascii "\n# TYPE " ++ ascii name ++
    ascii " gauge\n" ++
    samples.flatMap fun s =>
      ascii name ++ ascii "\x7bnode=\"" ++ s.1 ++ ascii "\x7d " ++ printNat s.2 ++ ascii "\n"

/-- `METRICS`. -/
def handleMetrics : Str :=
  let snap := book.getSnapshot 1000
  metric "convergence_orders_total" "Total active orders"
      [(book.nodeId ++ ascii "\"", book.getOrderCount)] ++
    metric "convergence_op_log_size" "Operation log size"
      [(book.nodeId ++ ascii "\"", book.opLog.length)] ++
    metric "convergence_book_depth" "Number of price levels"
      [(book.nodeId ++ ascii "\",side=\"bid\"", snap.bids.length),
        (book.nodeId ++ ascii "\",side=\"ask\"", snap.asks.length)]

/-- `ClientHandler::handle`. -/
def handle (request : Str) : CRDTOrderBook ℚ × Str :=
  let (ss, cmd) := extractString (.ofText request) []
  let cmd := toUpper cmd
  if cmd = ascii "ADD" then handleAdd env book ss
  else if cmd = ascii "CANCEL" then handleCancel env book ss
  else if cmd = ascii "MARKET" then handleMarket env book ss
  else if cmd = ascii "BOOK" then (book, handleBook book ss)
  else if cmd = ascii "STATUS" then (book, handleStatus book)
  else if cmd = ascii "PEERS" then (book, ascii "ERROR peers_not_available_here")
  else if cmd = ascii "METRICS" then (book, handleMetrics book)
  else (book, ascii "ERROR unknown_command")

end ClientHandler

end Convergence
