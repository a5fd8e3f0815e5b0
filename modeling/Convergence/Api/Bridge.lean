import Convergence.Api.ClientHandler
import Convergence.Api.TcpServer
import Convergence.Library.JsNumber

/-!
# The bridge

`parseBook` and `parseStatus` of `frontend/server/index.js`, the readers of the answers that
`ClientHandler::handle` gives to `BOOK` and `STATUS`. An answer is bytes and its reader works on
text, so a name is read back when it is UTF-8. A number is read as the exact value of its numeral,
and the clock object is a function of the key.

An answer is the UTF-8 of its lines, a line is a list of words, and each word is a name or a
numeral; the readers split in the same places.

## Main definitions

* `Bridge.parseBook`, `Bridge.parseStatus`, `Bridge.receive`.
* `Bridge.printBook`: the answer to `BOOK` for a snapshot.
* `Bridge.PrintableBook`, `Bridge.PrintableReplica`: the answers that are read back.

## Main results

* `Bridge.parse_print`: both readers return what was printed.
* `Bridge.receive_printBook`, `Bridge.receive_handleStatus`: what arrives is what was printed.
-/

namespace Convergence

open DecimalText JsText ClientHandler

namespace Bridge

/-! ### Response parsers -/

/-- A level of `parseBook`. -/
structure BookLevel where
  price : JsNumber
  quantity : JsNumber
  deriving DecidableEq

/-- The result of `parseBook`. -/
structure Book where
  bids : List BookLevel
  asks : List BookLevel
  deriving DecidableEq

/-- A value of `section` other than `null`. -/
inductive Section
  | bids
  | asks
  deriving DecidableEq

/-- The variables of the loop of `parseBook`. -/
structure BookReader extends Book where
  current : Option Section

/-- `(section === 'bids' ? bids : asks).push(level)`. -/
def BookReader.push (s : BookReader) (level : BookLevel) : BookReader :=
  if s.current = some .bids then { s with bids := s.bids ++ [level] }
  else { s with asks := s.asks ++ [level] }

/-- The loop body of `parseBook`. -/
def BookReader.readLine (s : BookReader) (line : Text) : BookReader :=
  let t := trim line
  if t = "BIDS".toList then { s with current := some .bids }
  else if t = "ASKS".toList then { s with current := some .asks }
  else if t = [] then s
  else
    match splitWhite t with
    | part₀ :: part₁ :: _ =>
      let price := JsNumber.parseFloat part₀
      let quantity := JsNumber.parseInt part₁
      if price ≠ .nan ∧ quantity ≠ .nan then s.push ⟨price, quantity⟩ else s
    | _ => s

/-- `parseBook`. -/
def parseBook (raw : Text) : Book :=
  ((raw.splitOn '\n').foldl BookReader.readLine ⟨⟨[], []⟩, none⟩).toBook

/-- The result of `parseStatus`. -/
structure Status where
  nodeId : Text
  orders : JsNumber
  opLog : JsNumber
  clock : Text → Option JsNumber

/-- The loop body over the pairs of `CLOCK`. A pair without `=` has no value. -/
def readPair (clock : Text → Option JsNumber) (pair : Text) : Text → Option JsNumber :=
  match pair.splitOn '=' with
  | k :: v :: _ =>
    if k ≠ [] ∧ v ≠ [] then Function.update clock k (some (JsNumber.parseInt v)) else clock
  | _ => clock

/-- The loop body of `parseStatus`. -/
def Status.readLine (status : Status) (line : Text) : Status :=
  let t := trim line
  if "NODE ".toList.isPrefixOf t then { status with nodeId := t.drop 5 }
  else if "ORDERS ".toList.isPrefixOf t then
    { status with orders := JsNumber.parseInt (t.drop 7) }
  else if "OP_LOG ".toList.isPrefixOf t then
    { status with opLog := JsNumber.parseInt (t.drop 7) }
  else if "CLOCK".toList.isPrefixOf t then
    { status with clock := (splitWhite (trim (t.drop 5))).foldl readPair status.clock }
  else status

/-- `parseStatus`. -/
def parseStatus (raw : Text) : Status :=
  (raw.splitOn '\n').foldl Status.readLine ⟨[], .finite 0, .finite 0, fun _ => none⟩

/-- `sendTcp`: the text of what the connection has brought, decoded as a whole. -/
def receive (data : Str) : Option Text := (decodeUtf8 data).map trim

/-! ### The text of an answer -/

/-- The answer to `BOOK`. -/
def printBook (snap : BookSnapshot ℚ) : Str :=
  ascii "BIDS" ++ snap.bids.flatMap printLevel ++ ascii "\nASKS" ++ snap.asks.flatMap printLevel

theorem handleBook_eq (book : CRDTOrderBook ℚ) (ss : TextStream UInt8) :
    ∃ depth, handleBook book ss = printBook (book.getSnapshot depth) := ⟨_, rfl⟩

/-- The two requests that the bridge polls a node with. -/
theorem handle_poll (env : Environment) (book : CRDTOrderBook ℚ) :
    handle env book (ascii "BOOK 15") = (book, printBook (book.getSnapshot 15)) ∧
      handle env book (ascii "STATUS") = (book, handleStatus book) := ⟨rfl, rfl⟩

/-- The text of the bytes of a name. -/
def textOf (bytes : Str) : Text := (decodeUtf8 bytes).getD []

/-- The ten-thousandths of a price that are printed. -/
def tenThousandths (price : ℚ) : ℕ := (Binary64.roundEven (|price| * 10000)).natAbs

/-- The places behind the point. -/
def placesText (n : ℕ) : Text :=
  List.replicate (4 - (Nat.toDigits 10 n).length) '0' ++ Nat.toDigits 10 n

/-- A number of ten-thousandths. -/
def priceText (n : ℕ) : Text := Nat.toDigits 10 (n / 10000) ++ '.' :: placesText (n % 10000)

/-- The line of a level. -/
def levelText (level : PriceLevel ℚ) : Text :=
  priceText (tenThousandths level.price) ++ ' ' :: Nat.toDigits 10 level.totalQuantity.natAbs

/-- The lines of the answer to `BOOK`. -/
def bookLines (snap : BookSnapshot ℚ) : List Text :=
  "BIDS".toList :: (snap.bids.map levelText ++ "ASKS".toList :: snap.asks.map levelText)

/-- A pair of `CLOCK`. -/
def pairText (e : (_ : Str) × ℕ) : Text := textOf e.1 ++ '=' :: Nat.toDigits 10 e.2

/-- The line of the clock. -/
def clockLine (clock : ClockMap) : Text :=
  [' '].intercalate ("CLOCK".toList :: clock.entries.map pairText)

/-- The lines of the answer to `STATUS`. -/
def statusLines (book : CRDTOrderBook ℚ) : List Text :=
  ["NODE ".toList ++ textOf book.nodeId,
    "ORDERS ".toList ++ Nat.toDigits 10 book.getOrderCount,
    "OP_LOG ".toList ++ Nat.toDigits 10 book.opLog.length,
    clockLine book.clock.clock]

/-! ### What is read back -/

/-- A level whose price is a multiple of a ten-thousandth. -/
structure PrintableLevel (level : PriceLevel ℚ) : Prop where
  price : ∃ n : ℕ, 0 < n ∧ level.price = n / 10000
  quantity_pos : 1 ≤ level.totalQuantity
  quantity_le : level.totalQuantity ≤ 2 ^ 53 - 1

/-- A snapshot of printable levels. -/
structure PrintableBook (snap : BookSnapshot ℚ) : Prop where
  bids : ∀ level ∈ snap.bids, PrintableLevel level
  asks : ∀ level ∈ snap.asks, PrintableLevel level

/-- The bytes of a text that is not empty and has neither white space nor `=`. -/
def IsName (bytes : Str) : Prop :=
  ∃ text, utf8 text = bytes ∧ IsWord text ∧ '=' ∉ text

/-- A replica whose counts are numbers without rounding. -/
structure PrintableReplica (book : CRDTOrderBook ℚ) : Prop where
  nodeId : IsName book.nodeId
  clockKey : ∀ e ∈ book.clock.clock.entries, IsName e.1
  orders_lt : book.getOrderCount < 2 ^ 53
  opLog_lt : book.opLog.length < 2 ^ 53
  counter_lt : ∀ e ∈ book.clock.clock.entries, e.2 < 2 ^ 53

/-- A level as it is read back. -/
def shownLevel (level : PriceLevel ℚ) : BookLevel where
  price := .finite level.price
  quantity := .finite level.totalQuantity

section Name

variable {bytes : Str} (h : IsName bytes)

include h

theorem IsName.utf8_textOf : utf8 (textOf bytes) = bytes := by
  obtain ⟨text, rfl, -⟩ := h
  rw [textOf, decodeUtf8_utf8]
  rfl

theorem IsName.isWord : IsWord (textOf bytes) := by
  obtain ⟨text, rfl, hword, -⟩ := h
  rwa [textOf, decodeUtf8_utf8]

theorem IsName.equals_notMem : '=' ∉ textOf bytes := by
  obtain ⟨text, rfl, -, hequals⟩ := h
  rwa [textOf, decodeUtf8_utf8]

end Name

/-! ### Numerals -/

theorem isDigit_of_mem_toDigits {n : ℕ} : ∀ c ∈ Nat.toDigits 10 n, c.isDigit := fun _ hc =>
  Nat.isDigit_of_mem_toDigits (by omega) le_rfl hc

theorem isWord_toDigits (n : ℕ) : IsWord (Nat.toDigits 10 n) :=
  ⟨Nat.toDigits_ne_nil, fun c hc => isWhite_eq_false_of_isDigit (isDigit_of_mem_toDigits c hc)⟩

theorem isDigit_of_mem_placesText {n : ℕ} : ∀ c ∈ placesText n, c.isDigit := by
  intro c hc
  rcases List.mem_append.mp hc with hc | hc
  · rw [List.eq_of_mem_replicate hc]
    rfl
  · exact isDigit_of_mem_toDigits c hc

/-- A price is written in digits and a point. -/
theorem mem_priceText {n : ℕ} : ∀ c ∈ priceText n, c.isDigit ∨ c = '.' := by
  intro c hc
  rw [priceText, List.mem_append, List.mem_cons] at hc
  rcases hc with hc | hc | hc
  · exact Or.inl (isDigit_of_mem_toDigits c hc)
  · exact Or.inr hc
  · exact Or.inl (isDigit_of_mem_placesText c hc)

theorem isWord_priceText (n : ℕ) : IsWord (priceText n) := by
  refine ⟨List.append_ne_nil_of_left_ne_nil Nat.toDigits_ne_nil _, fun c hc => ?_⟩
  rcases mem_priceText c hc with h | rfl
  · exact isWhite_eq_false_of_isDigit h
  · rfl

theorem length_placesText {n : ℕ} (h : n < 10000) : (placesText n).length = 4 := by
  have hlen : (Nat.toDigits 10 n).length ≤ 4 :=
    (Nat.length_toDigits_le_iff (by omega) (by omega)).mpr h
  rw [placesText, List.length_append, List.length_replicate]
  omega

theorem ofDigitChars_placesText (n : ℕ) : Nat.ofDigitChars 10 (placesText n) 0 = n := by
  rw [placesText, Nat.ofDigitChars_append, Nat.ofDigitChars_replicate_zero, Nat.mul_zero,
    Nat.ofDigitChars_ten_toDigits]

/-- A price that is printed with four places is read exactly. -/
theorem parseFloat_priceText (n : ℕ) : JsNumber.parseFloat (priceText n) = .finite (n / 10000) := by
  have hlen := length_placesText (Nat.mod_lt n (by omega : 0 < 10000))
  have hdigits : Nat.ofDigitChars 10 (Nat.toDigits 10 (n / 10000) ++ placesText (n % 10000)) 0 =
      n := by
    rw [Nat.ofDigitChars_append, Nat.ofDigitChars_eq_ofDigitChars_zero, hlen,
      Nat.ofDigitChars_ten_toDigits, ofDigitChars_placesText]
    omega
  rw [priceText, JsNumber.parseFloat_point Nat.toDigits_ne_nil isDigit_of_mem_toDigits
    isDigit_of_mem_placesText, hdigits, hlen]
  norm_num

/-- The number of ten-thousandths that is printed is that of the price. -/
theorem PrintableLevel.tenThousandths_eq {level : PriceLevel ℚ} (h : PrintableLevel level) :
    (tenThousandths level.price : ℚ) / 10000 = level.price := by
  obtain ⟨n, -, hn⟩ := h.price
  have habs : |level.price| * 10000 = (n : ℚ) := by
    rw [hn, abs_of_nonneg (by positivity)]
    ring
  have hround : Binary64.roundEven (n : ℚ) = n := by
    rw [Binary64.roundEven, Int.fract_natCast, if_pos (by norm_num), Int.floor_natCast]
  rw [tenThousandths, habs, hround, Int.natAbs_natCast, hn]

/-! ### The bytes are those of the lines -/

theorem ascii_eq_utf8 {s : String} (h : ∀ c ∈ s.toList, c.toNat < 0x80) :
    ascii s = utf8 s.toList :=
  (utf8_of_forall_lt h).symm

theorem lt_of_mem_toDigits {n : ℕ} : ∀ c ∈ Nat.toDigits 10 n, c.toNat < 0x80 := fun c hc => by
  have h := JsNumber.isDigit_iff.mp (isDigit_of_mem_toDigits c hc)
  omega

theorem printNat_eq_utf8 (n : ℕ) : printNat n = utf8 (Nat.toDigits 10 n) :=
  (utf8_of_forall_lt lt_of_mem_toDigits).symm

/-- A level is printed in ASCII. -/
theorem levelText_lt (level : PriceLevel ℚ) : ∀ c ∈ levelText level, c.toNat < 0x80 := by
  intro c hc
  rw [levelText, List.mem_append, List.mem_cons] at hc
  rcases hc with hc | rfl | hc
  · rcases mem_priceText c hc with hc | rfl
    · have h := JsNumber.isDigit_iff.mp hc
      omega
    · simp
  · simp
  · exact lt_of_mem_toDigits c hc

theorem printFixed_eq_map {price : ℚ} (h : 0 ≤ price) :
    printFixed price = (priceText (tenThousandths price)).map Char.toUInt8 := by
  simp [printFixed, printNat, priceText, placesText, tenThousandths, ascii, h.not_gt]
  exact Or.inr rfl

theorem printInt_eq_map {i : ℤ} (h : 0 ≤ i) :
    printInt i = (Nat.toDigits 10 i.natAbs).map Char.toUInt8 := by
  simp [printInt, printNat, h.not_gt]

/-- A level is printed as its line. -/
theorem printLevel_eq_utf8 {level : PriceLevel ℚ} (h : PrintableLevel level) :
    printLevel level = utf8 ('\n' :: levelText level) := by
  have hlt : ∀ c ∈ '\n' :: levelText level, c.toNat < 0x80 :=
    List.forall_mem_cons.mpr ⟨by simp, levelText_lt level⟩
  have hprice : 0 ≤ level.price := by
    rw [← h.tenThousandths_eq]
    positivity
  have hquantity : 0 ≤ level.totalQuantity := by
    have hpos := h.quantity_pos
    omega
  rw [utf8_of_forall_lt hlt, printLevel, printFixed_eq_map hprice, printInt_eq_map hquantity]
  simp [levelText, ascii]

theorem flatMap_printLevel {levels : List (PriceLevel ℚ)}
    (h : ∀ level ∈ levels, PrintableLevel level) :
    levels.flatMap printLevel = utf8 ((levels.map levelText).flatMap ('\n' :: ·)) := by
  rw [List.flatMap_map, utf8_flatMap]
  exact List.flatMap_congr fun level hlevel => printLevel_eq_utf8 (h level hlevel)

/-- The answer to `BOOK` is the UTF-8 of its lines. -/
theorem printBook_eq_utf8 {snap : BookSnapshot ℚ} (h : PrintableBook snap) :
    printBook snap = utf8 (['\n'].intercalate (bookLines snap)) := by
  have hbids : ascii "BIDS" = utf8 "BIDS".toList := ascii_eq_utf8 (by simp)
  have hasks : ascii "\nASKS" = utf8 ('\n' :: "ASKS".toList) := ascii_eq_utf8 (by simp)
  rw [printBook, flatMap_printLevel h.bids, flatMap_printLevel h.asks, hbids, hasks, bookLines,
    intercalate_cons, List.flatMap_append, List.flatMap_cons, utf8_append, utf8_append, utf8_append,
    List.append_assoc, List.append_assoc]

/-- A pair of the clock is printed as its text. -/
theorem printPair_eq_utf8 {e : (_ : Str) × ℕ} (h : IsName e.1) :
    ascii " " ++ e.1 ++ ascii "=" ++ printNat e.2 = utf8 (' ' :: pairText e) := by
  have hspace : ascii " " = utf8 [' '] := ascii_eq_utf8 (by simp)
  have hequals : ascii "=" = utf8 ['='] := ascii_eq_utf8 (by simp)
  have hpair : ' ' :: pairText e = [' '] ++ textOf e.1 ++ ['='] ++ Nat.toDigits 10 e.2 := by
    simp [pairText]
  rw [hpair, utf8_append, utf8_append, utf8_append, h.utf8_textOf, hspace, hequals,
    printNat_eq_utf8]

/-- The answer to `STATUS` is the UTF-8 of its lines. -/
theorem handleStatus_eq_utf8 {book : CRDTOrderBook ℚ} (h : PrintableReplica book) :
    handleStatus book = utf8 (['\n'].intercalate (statusLines book)) := by
  have hnode : ascii "NODE " = utf8 "NODE ".toList := ascii_eq_utf8 (by simp)
  have horders : ascii "\nORDERS " = utf8 ('\n' :: "ORDERS ".toList) := ascii_eq_utf8 (by simp)
  have hopLog : ascii "\nOP_LOG " = utf8 ('\n' :: "OP_LOG ".toList) := ascii_eq_utf8 (by simp)
  have hclock : ascii "\nCLOCK" = utf8 ('\n' :: "CLOCK".toList) := ascii_eq_utf8 (by simp)
  have hpairs : (book.clock.clock.entries.flatMap fun e =>
      ascii " " ++ e.1 ++ ascii "=" ++ printNat e.2) =
      utf8 ((book.clock.clock.entries.map pairText).flatMap (' ' :: ·)) := by
    rw [List.flatMap_map, utf8_flatMap]
    exact List.flatMap_congr fun e he => printPair_eq_utf8 (h.clockKey e he)
  rw [handleStatus, hpairs, hnode, horders, hopLog, hclock, printNat_eq_utf8, printNat_eq_utf8,
    statusLines, clockLine, intercalate_cons, intercalate_cons]
  nth_rewrite 1 [← h.nodeId.utf8_textOf]
  simp only [← utf8_append, List.flatMap_cons, List.flatMap_nil, List.append_assoc,
    List.cons_append, List.append_nil]

/-! ### Reading the lines of a book -/

section Level

variable (level : PriceLevel ℚ)

/-- The price of a level and its quantity are the words of its line. -/
theorem levelText_eq_intercalate :
    levelText level = [' '].intercalate
      [priceText (tenThousandths level.price), Nat.toDigits 10 level.totalQuantity.natAbs] := by
  simp [levelText]

theorem isWord_of_mem_level :
    ∀ word ∈ [priceText (tenThousandths level.price), Nat.toDigits 10 level.totalQuantity.natAbs],
      IsWord word :=
  List.forall_mem_cons.mpr ⟨isWord_priceText _, List.forall_mem_singleton.mpr (isWord_toDigits _)⟩

theorem splitWhite_levelText :
    splitWhite (levelText level) =
      [priceText (tenThousandths level.price), Nat.toDigits 10 level.totalQuantity.natAbs] := by
  rw [levelText_eq_intercalate,
    splitWhite_intercalate (List.cons_ne_nil _ _) (isWord_of_mem_level level)]

theorem trimmed_levelText : Trimmed (levelText level) := by
  rw [levelText_eq_intercalate]
  exact trimmed_words (isWord_of_mem_level level)

theorem newline_notMem_levelText : '\n' ∉ levelText level := by
  rw [levelText, List.mem_append, List.mem_cons, not_or, not_or]
  exact ⟨(isWord_priceText _).newline_notMem, by simp, (isWord_toDigits _).newline_notMem⟩

variable {level}

/-- The line of a level is not a single word. -/
theorem levelText_ne {word : Text} (h : (splitWhite word).length = 1) : levelText level ≠ word := by
  rintro rfl
  rw [splitWhite_levelText] at h
  simp at h

/-- The line of a level is read as that level. -/
theorem readLine_levelText (h : PrintableLevel level) (s : BookReader) :
    s.readLine (levelText level) = s.push (shownLevel level) := by
  have hquantity : ((level.totalQuantity.natAbs : ℕ) : ℚ) = level.totalQuantity := by
    have hpos := h.quantity_pos
    rw [Nat.cast_natAbs, abs_of_nonneg (by omega)]
  rw [BookReader.readLine, trim_eq_self (trimmed_levelText level), if_neg (levelText_ne rfl),
    if_neg (levelText_ne rfl), if_neg (levelText_ne rfl), splitWhite_levelText]
  simp only [parseFloat_priceText, JsNumber.parseInt_toDigits, h.tenThousandths_eq, hquantity]
  rfl

end Level

/-- Levels are appended to the side of the section. -/
theorem foldl_push (s : BookReader) (levels : List BookLevel) :
    levels.foldl BookReader.push s =
      if s.current = some .bids then { s with bids := s.bids ++ levels }
      else { s with asks := s.asks ++ levels } := by
  induction levels generalizing s with
  | nil => simp
  | cons level levels ih =>
    have hpush : (s.push level).current = s.current := by
      rw [BookReader.push]
      split_ifs <;> rfl
    rw [List.foldl_cons, ih, hpush]
    split_ifs with hbids
    · simp [BookReader.push, hbids]
    · simp [BookReader.push, hbids]

theorem foldl_readLine_levels {levels : List (PriceLevel ℚ)}
    (h : ∀ level ∈ levels, PrintableLevel level) (s : BookReader) :
    (levels.map levelText).foldl BookReader.readLine s =
      (levels.map shownLevel).foldl BookReader.push s := by
  rw [List.foldl_map, List.foldl_map]
  exact List.foldl_ext _ _ s fun s level hlevel => readLine_levelText (h level hlevel) s

/-- Every line of a book is a section or a level. -/
theorem forall_mem_bookLines {p : Text → Prop} (hbids : p "BIDS".toList) (hasks : p "ASKS".toList)
    (hlevel : ∀ level, p (levelText level)) (snap : BookSnapshot ℚ) :
    ∀ line ∈ bookLines snap, p line := by
  intro line hline
  simp only [bookLines, List.mem_cons, List.mem_append, List.mem_map] at hline
  obtain rfl | ⟨level, -, rfl⟩ | rfl | ⟨level, -, rfl⟩ := hline
  · exact hbids
  · exact hlevel level
  · exact hasks
  · exact hlevel level

/-- The bids are read into one side and the asks into the other. -/
theorem parseBook_lines {snap : BookSnapshot ℚ} (h : PrintableBook snap) :
    parseBook (['\n'].intercalate (bookLines snap)) =
      ⟨snap.bids.map shownLevel, snap.asks.map shownLevel⟩ := by
  have hlines : ∀ line ∈ bookLines snap, '\n' ∉ line :=
    forall_mem_bookLines (by simp) (by simp) newline_notMem_levelText snap
  have hbidsLine (s : BookReader) :
      s.readLine "BIDS".toList = { s with current := some .bids } := rfl
  have hasksLine (s : BookReader) :
      s.readLine "ASKS".toList = { s with current := some .asks } := rfl
  rw [parseBook, List.splitOn_intercalate _ hlines (List.cons_ne_nil _ _), bookLines,
    List.foldl_cons, List.foldl_append, List.foldl_cons, hbidsLine,
    foldl_readLine_levels h.bids, foldl_push, if_pos rfl, hasksLine,
    foldl_readLine_levels h.asks, foldl_push, if_neg (by simp)]
  simp

/-! ### Reading the lines of a status -/

theorem trimmed_nodeLine {id : Str} (h : IsName id) : Trimmed ("NODE ".toList ++ textOf id) :=
  Trimmed.append rfl rfl h.isWord.ne_nil h.isWord.trimmed.last

/-- A line with a count behind its name. -/
theorem trimmed_countLine {front : Text} {a : Char} (hfront : front.head? = some a)
    (ha : isWhite a = false) (n : ℕ) : Trimmed (front ++ Nat.toDigits 10 n) :=
  Trimmed.append hfront ha Nat.toDigits_ne_nil (isWord_toDigits n).trimmed.last

section Line

variable (status : Status)

theorem readLine_node {id : Str} (h : IsName id) :
    status.readLine ("NODE ".toList ++ textOf id) = { status with nodeId := textOf id } := by
  rw [Status.readLine, trim_eq_self (trimmed_nodeLine h)]
  rfl

theorem readLine_orders (n : ℕ) :
    status.readLine ("ORDERS ".toList ++ Nat.toDigits 10 n) =
      { status with orders := .finite n } := by
  rw [Status.readLine, trim_eq_self (trimmed_countLine rfl rfl n), ← JsNumber.parseInt_toDigits]
  rfl

theorem readLine_opLog (n : ℕ) :
    status.readLine ("OP_LOG ".toList ++ Nat.toDigits 10 n) =
      { status with opLog := .finite n } := by
  rw [Status.readLine, trim_eq_self (trimmed_countLine rfl rfl n), ← JsNumber.parseInt_toDigits]
  rfl

end Line

/-! ### The clock -/

section Pair

variable {e : (_ : Str) × ℕ} (h : IsName e.1)

include h

/-- A pair is a word. -/
theorem isWord_pairText : IsWord (pairText e) := by
  refine ⟨List.append_ne_nil_of_left_ne_nil h.isWord.ne_nil _, fun c hc => ?_⟩
  rw [pairText, List.mem_append, List.mem_cons] at hc
  rcases hc with hc | rfl | hc
  · exact h.isWord.isWhite_eq_false c hc
  · rfl
  · exact (isWord_toDigits e.2).isWhite_eq_false c hc

/-- A pair is taken apart at its `=`. -/
theorem readPair_pairText (clock : Text → Option JsNumber) :
    readPair clock (pairText e) = Function.update clock (textOf e.1) (some (.finite e.2)) := by
  have hequals : '=' ∉ Nat.toDigits 10 e.2 := fun hc => by
    have hdigit := isDigit_of_mem_toDigits _ hc
    simp at hdigit
  have hsplit : (pairText e).splitOn '=' = [textOf e.1, Nat.toDigits 10 e.2] := by
    rw [pairText, List.splitOn_append_cons_self_of_not_mem h.equals_notMem,
      List.splitOn_eq_singleton hequals]
  simp only [readPair, hsplit]
  rw [if_pos ⟨h.isWord.ne_nil, Nat.toDigits_ne_nil⟩, JsNumber.parseInt_toDigits]

end Pair

/-- The loop over the pairs: each key gets its counter, since no key comes twice. -/
theorem foldl_readPair {entries : List ((_ : Str) × ℕ)} (hnodup : entries.NodupKeys)
    (h : ∀ e ∈ entries, IsName e.1) (clock : Text → Option JsNumber) :
    (entries.map pairText).foldl readPair clock = fun k =>
      ((entries.dlookup (utf8 k)).map fun n => JsNumber.finite n).or (clock k) := by
  induction entries generalizing clock with
  | nil => simp
  | cons e entries ih =>
    obtain ⟨he, hentries⟩ := List.forall_mem_cons.mp h
    obtain ⟨hfresh, hnodup⟩ := List.nodupKeys_cons.mp hnodup
    rw [List.map_cons, List.foldl_cons, readPair_pairText he, ih hnodup hentries]
    funext k
    rw [SortedMap.dlookup_cons, Function.update_apply]
    by_cases hk : utf8 k = e.1
    · have hkey : k = textOf e.1 := utf8_injective (hk.trans he.utf8_textOf.symm)
      rw [if_pos hk, if_pos hkey, hk, List.dlookup_eq_none.mpr hfresh]
      rfl
    · have hkey : k ≠ textOf e.1 := fun hkey => hk (hkey ▸ he.utf8_textOf)
      rw [if_neg hk, if_neg hkey]

/-- The words of the clock's line. -/
theorem isWord_of_mem_clock {clock : ClockMap} (h : ∀ e ∈ clock.entries, IsName e.1) :
    ∀ word ∈ clock.entries.map pairText, IsWord word := by
  intro word hword
  obtain ⟨e, he, rfl⟩ := List.mem_map.mp hword
  exact isWord_pairText (h e he)

theorem trimmed_clockLine {clock : ClockMap} (h : ∀ e ∈ clock.entries, IsName e.1) :
    Trimmed (clockLine clock) :=
  trimmed_words (List.forall_mem_cons.mpr
    ⟨⟨by simp, by simp [isWhite]⟩, isWord_of_mem_clock h⟩)

/-- The pairs of a clock are the words behind its name. -/
theorem splitWhite_clock {clock : ClockMap} (h : ∀ e ∈ clock.entries, IsName e.1)
    (hne : clock.entries ≠ []) :
    splitWhite (trim ((clockLine clock).drop 5)) = clock.entries.map pairText := by
  have hwords := isWord_of_mem_clock h
  obtain ⟨e, rest, hentries⟩ := List.exists_cons_of_ne_nil hne
  have hdrop :
      (clockLine clock).drop 5 = ' ' :: [' '].intercalate (clock.entries.map pairText) := by
    rw [clockLine, intercalate_cons, hentries, List.map_cons, intercalate_cons]
    rfl
  rw [hdrop, trim_cons_white (trimmed_words hwords) isWhite_space,
    splitWhite_intercalate (by simpa) hwords]

theorem readLine_clock {clock : ClockMap} (h : ∀ e ∈ clock.entries, IsName e.1)
    (hne : clock.entries ≠ []) (status : Status) :
    status.readLine (clockLine clock) = { status with clock := fun k =>
      ((clock.lookup (utf8 k)).map fun n => JsNumber.finite n).or (status.clock k) } := by
  have hname : clockLine clock =
      "CLOCK".toList ++ (clock.entries.map pairText).flatMap (' ' :: ·) := intercalate_cons ..
  rw [Status.readLine, trim_eq_self (trimmed_clockLine h), splitWhite_clock h hne,
    foldl_readPair clock.nodupKeys h, hname]
  rfl

section Status

variable {book : CRDTOrderBook ℚ} (h : PrintableReplica book)

include h

/-- The lines of a status are trimmed, and the response is not cut inside one of them. -/
theorem forall_mem_statusLines :
    ∀ line ∈ statusLines book, (line ≠ [] ∧ Trimmed line) ∧ '\n' ∉ line := by
  have hdigits (n : ℕ) : '\n' ∉ Nat.toDigits 10 n := (isWord_toDigits n).newline_notMem
  have hpairs : '\n' ∉ (book.clock.clock.entries.map pairText).flatMap (' ' :: ·) := by
    intro hmem
    obtain ⟨pair, hpair, hmem⟩ := List.mem_flatMap.mp hmem
    rw [List.mem_cons] at hmem
    rcases hmem with hmem | hmem
    · simp at hmem
    · exact (isWord_of_mem_clock h.clockKey pair hpair).newline_notMem hmem
  have hid := h.nodeId.isWord.newline_notMem
  refine List.forall_mem_cons.mpr ⟨⟨⟨by simp, trimmed_nodeLine h.nodeId⟩, by simp [hid]⟩, ?_⟩
  refine List.forall_mem_cons.mpr ⟨⟨⟨by simp, trimmed_countLine rfl rfl _⟩, by simp [hdigits]⟩, ?_⟩
  refine List.forall_mem_cons.mpr ⟨⟨⟨by simp, trimmed_countLine rfl rfl _⟩, by simp [hdigits]⟩, ?_⟩
  refine List.forall_mem_singleton.mpr ⟨⟨?_, trimmed_clockLine h.clockKey⟩, ?_⟩
  · rw [clockLine, intercalate_cons]
    simp
  · rw [clockLine, intercalate_cons, List.mem_append, not_or]
    exact ⟨by simp, hpairs⟩

/-- Each line sets its own field. -/
theorem parseStatus_lines :
    parseStatus (['\n'].intercalate (statusLines book)) =
      { nodeId := textOf book.nodeId
        orders := .finite book.getOrderCount
        opLog := .finite book.opLog.length
        clock := fun k => (book.clock.clock.lookup (utf8 k)).map fun n => .finite n } := by
  have hne : book.clock.clock.entries ≠ [] := by
    intro hnil
    have howned : book.clock.nodeId ∈ book.clock.clock.entries.keys := book.clock.owned
    rw [hnil] at howned
    exact absurd howned List.not_mem_nil
  rw [parseStatus, List.splitOn_intercalate _ (fun line hline =>
    (forall_mem_statusLines h line hline).2) (List.cons_ne_nil _ _), statusLines, List.foldl_cons,
    List.foldl_cons, List.foldl_cons, List.foldl_cons, List.foldl_nil, readLine_node _ h.nodeId,
    readLine_orders, readLine_opLog, readLine_clock h.clockKey hne]
  simp

end Status

/-! ### The bridge reads back what a node prints -/

/-- The newline that the server sends behind an answer does not reach the reader. -/
theorem receive_answer {lines : List Text} (hne : ['\n'].intercalate lines ≠ [])
    (h : ∀ line ∈ lines, line ≠ [] ∧ Trimmed line) :
    receive (utf8 (['\n'].intercalate lines) ++ [TCPServer.newline]) =
      decodeUtf8 (utf8 (['\n'].intercalate lines)) := by
  have hnewline : [TCPServer.newline] = utf8 ['\n'] := rfl
  rw [hnewline, ← utf8_append, receive, decodeUtf8_utf8, decodeUtf8_utf8, Option.map_some,
    trim_append_white (trimmed_intercalate '\n' h) hne rfl]

theorem receive_printBook {snap : BookSnapshot ℚ} (h : PrintableBook snap) :
    receive (printBook snap ++ [TCPServer.newline]) = decodeUtf8 (printBook snap) := by
  rw [printBook_eq_utf8 h]
  refine receive_answer (by simp [bookLines, intercalate_cons]) ?_
  refine forall_mem_bookLines ⟨by simp, ?_⟩ ⟨by simp, ?_⟩ (fun level => ⟨?_, ?_⟩) snap
  · exact IsWord.trimmed ⟨by simp, by simp [isWhite]⟩
  · exact IsWord.trimmed ⟨by simp, by simp [isWhite]⟩
  · simp [levelText]
  · exact trimmed_levelText level

theorem receive_handleStatus {book : CRDTOrderBook ℚ} (h : PrintableReplica book) :
    receive (handleStatus book ++ [TCPServer.newline]) = decodeUtf8 (handleStatus book) := by
  rw [handleStatus_eq_utf8 h]
  exact receive_answer (by simp [statusLines]) fun line hline =>
    (forall_mem_statusLines h line hline).1

/-- Both readers return what was printed: the bids and asks in their order, and the node id, the
counts and the clock. -/
theorem parse_print :
    (∀ (book : CRDTOrderBook ℚ) (ss : TextStream UInt8),
        ∃ depth, handleBook book ss = printBook (book.getSnapshot depth)) ∧
      (∀ snap : BookSnapshot ℚ, PrintableBook snap →
        (decodeUtf8 (printBook snap)).map parseBook =
          some ⟨snap.bids.map shownLevel, snap.asks.map shownLevel⟩) ∧
      ∀ book : CRDTOrderBook ℚ, PrintableReplica book →
        ∃ id, utf8 id = book.nodeId ∧
          (decodeUtf8 (handleStatus book)).map parseStatus =
            some {
              nodeId := id
              orders := .finite book.getOrderCount
              opLog := .finite book.opLog.length
              clock := fun k => (book.clock.clock.lookup (utf8 k)).map fun n => .finite n } := by
  refine ⟨handleBook_eq, fun snap h => ?_, fun book h => ?_⟩
  · rw [printBook_eq_utf8 h, decodeUtf8_utf8, Option.map_some, parseBook_lines h]
  · refine ⟨textOf book.nodeId, h.nodeId.utf8_textOf, ?_⟩
    rw [handleStatus_eq_utf8 h, decodeUtf8_utf8, Option.map_some, parseStatus_lines h]

/-- The node `node-a` with a bid of its own and an ask of `node-b`. -/
def ordersOfTwo : CRDTOrderBook ℚ :=
  ((CRDTOrderBook.new (ascii "node-a")).localAddOrder Side.buy 1 5 [120] [49]).1.replay
    ((CRDTOrderBook.new (ascii "node-b")).localAddOrder Side.sell 2 3 [121] [50]).1.opLog

/-- A snapshot without asks, and a replica with two orders and two clock entries. -/
theorem parse_print_node_a :
    (decodeUtf8 (printBook ⟨[⟨201 / 2, 7, []⟩, ⟨100, 2 ^ 53 - 1, []⟩], []⟩)).map parseBook =
        some ⟨[⟨.finite (201 / 2), .finite 7⟩, ⟨.finite 100, .finite (2 ^ 53 - 1)⟩], []⟩ ∧
      ∃ id, utf8 id = ascii "node-a" ∧
        (decodeUtf8 (handleStatus ordersOfTwo)).map parseStatus =
          some {
            nodeId := id
            orders := .finite 2
            opLog := .finite 2
            clock := fun k =>
              if k = "node-a".toList ∨ k = "node-b".toList then some (.finite 1) else none } := by
  have hname : utf8 "node-a".toList = ascii "node-a" := (ascii_eq_utf8 (by simp)).symm
  have hother : utf8 "node-b".toList = ascii "node-b" := (ascii_eq_utf8 (by simp)).symm
  have hentries : ordersOfTwo.clock.clock.entries =
      [⟨ascii "node-b", 1⟩, ⟨ascii "node-a", 1⟩] := rfl
  constructor
  · refine (parse_print.2.1 _ ⟨?_, by simp⟩).trans ?_
    · refine List.forall_mem_cons.mpr ⟨⟨⟨1005000, by norm_num, by norm_num⟩, ?_, ?_⟩,
        List.forall_mem_singleton.mpr ⟨⟨1000000, by norm_num, by norm_num⟩, ?_, ?_⟩⟩
      all_goals norm_num
    · simp only [shownLevel, List.map_cons, List.map_nil]
      norm_num
  · have hnode : IsName (ascii "node-a") := ⟨_, hname, ⟨by simp, by simp [isWhite]⟩, by simp⟩
    have hnode' : IsName (ascii "node-b") := ⟨_, hother, ⟨by simp, by simp [isWhite]⟩, by simp⟩
    have hcount : ordersOfTwo.getOrderCount = 2 := rfl
    have hlog : ordersOfTwo.opLog.length = 2 := rfl
    obtain ⟨id, hid, hstatus⟩ := parse_print.2.2 ordersOfTwo
      ⟨hnode, by simp [hentries, hnode, hnode'], by omega, by omega, by simp [hentries]⟩
    refine ⟨id, hid, hstatus.trans ?_⟩
    have hlookup (k : Text) : ordersOfTwo.clock.clock.lookup (utf8 k) =
        if k = "node-a".toList ∨ k = "node-b".toList then some 1 else none := by
      rw [AList.lookup, hentries, SortedMap.dlookup_cons, SortedMap.dlookup_cons,
        List.dlookup_nil, ← hname, ← hother]
      simp only [utf8_injective.eq_iff]
      split_ifs <;> simp_all
    simp only [hlookup, hcount, hlog]
    congr 2
    funext k
    split_ifs <;> simp

end Bridge

end Convergence
