import Convergence.Api.ClientHandler

/-!
# Which requests are accepted

What a request asks for, read off its tokens, and what `handle` makes of it. The handler takes the
values as the stream leaves them: it accepts a request whenever they are positive, whether the
numerals were whole tokens, whether they were in range, and whether they were there at all.

## Main definitions

* `Request`, `wellFormed`: the requests `ADD` and `MARKET`, and the texts that spell them.
* `ClientHandler.Outcome`: what is to become of a replica.
* `Environment.Safe`: the texts on which the handler's reading agrees with the request.

## Main results

* `handle_outcome`: what the handler decides on, from the tokens of the request.
* `outcome_wellFormed_iff`.
-/

namespace Convergence

open TextStream DecimalText ClientHandler

/-- A request that changes a replica. -/
inductive Request
  | add (side : Side) (price : ℚ) (qty : ℤ)
  | market (side : Side) (qty : ℤ)
  deriving DecidableEq

/-- What a token spells that is, whole, a numeral. -/
def spelled {β : Type*} (scan : Option β × List UInt8) : Option β :=
  if scan.2 = [] then scan.1 else none

/-- The positive price that a token spells. -/
def priceOf (t : Str) : Option ℚ := (spelled (scanDecimal t)).filter fun v => 0 < v

/-- The positive quantity that a token spells. -/
def quantityOf (t : Str) : Option ℤ :=
  (spelled (scanInteger t)).filter fun i => 0 < i ∧ i ≤ 2 ^ 63 - 1

/-- The quantity that a list of tokens spells. -/
def spelledQuantity : List Str → Option ℤ
  | [t] => quantityOf t
  | _ => none

/-- The request that a list of tokens spells. -/
def wellFormed : List Str → Option Request
  | [cmd, side, price, qty] =>
    if toUpper cmd = ascii "ADD" then do
      return .add (← parseSide (toUpper side)) (← priceOf price) (← quantityOf qty)
    else none
  | [cmd, side, qty] =>
    if toUpper cmd = ascii "MARKET" then do
      return .market (← parseSide (toUpper side)) (← quantityOf qty)
    else none
  | _ => none

/-- What is to become of a replica, and the answer: a request is carried out, and anything else
leaves the replica alone with an error. -/
def ClientHandler.Outcome (env : Environment) (book : CRDTOrderBook ℚ)
    (result : CRDTOrderBook ℚ × Str) : Option Request → Prop
  | none => result.1 = book ∧ ascii "ERROR" <+: result.2
  | some (.add side price qty) =>
    result.1 = (book.localAddOrder side price qty (env.uuid 0) (env.uuid 1)).1 ∧
      result.2 = ascii "OK " ++ env.uuid 0
  | some (.market side qty) =>
    let done := book.localMarketOrder side qty fun n => (env.uuid n, env.memory n)
    result.1 = done.1 ∧
      result.2 = ascii "FILLED " ++ printNat done.2.length ++ done.2.flatMap printFill

/-! ### The decision of the handler -/

/-- The reader of a `double`. -/
def readDecimal : List UInt8 → Reading UInt8 ℚ := reader decimalStep .start storeDecimal

/-- The reader of an `int64_t`. -/
def readInteger : List UInt8 → Reading UInt8 ℤ :=
  reader integerStep .start (storeInteger (-2 ^ 63) (2 ^ 63 - 1))

/-- The decision on an `ADD`, from the tokens behind it. -/
def decideAdd (env : Environment) (ts : List Str) : Option Request :=
  let side := takeToken (word isSpace) [] ts
  let price := takeToken readDecimal env.price side.1
  let qty := takeToken readInteger env.qty price.1
  if price.2 ≤ 0 ∨ qty.2 ≤ 0 then none
  else (parseSide (toUpper side.2)).map fun side => .add side price.2 qty.2

/-- The decision on a `MARKET`, from the tokens behind it. -/
def decideMarket (env : Environment) (ts : List Str) : Option Request :=
  let side := takeToken (word isSpace) [] ts
  let qty := takeToken readInteger env.qty side.1
  if qty.2 ≤ 0 then none else (parseSide (toUpper side.2)).map fun side => .market side qty.2

section Decision

variable {env : Environment} {book : CRDTOrderBook ℚ} {ss : TextStream UInt8}

theorem extractString_eq (ss : TextStream UInt8) (old : Str) :
    ((extractString ss old).1.left isSpace, (extractString ss old).2) =
      takeToken (word isSpace) old (ss.left isSpace) :=
  extract_eq (local_word isSpace) ss old

theorem extractDouble_eq (ss : TextStream UInt8) (old : ℚ) :
    ((extractDouble ss old).1.left isSpace, (extractDouble ss old).2) =
      takeToken readDecimal old (ss.left isSpace) :=
  extract_eq (local_reader decimalStep_space .start storeDecimal) ss old

theorem extractInt64_eq (ss : TextStream UInt8) (old : ℤ) :
    ((extractInt64 ss old).1.left isSpace, (extractInt64 ss old).2) =
      takeToken readInteger old (ss.left isSpace) :=
  extract_eq (local_reader integerStep_space .start _) ss old

theorem handleAdd_outcome (env : Environment) (book : CRDTOrderBook ℚ) (ss : TextStream UInt8) :
    Outcome env book (handleAdd env book ss) (decideAdd env (ss.left isSpace)) := by
  have hside := extractString_eq ss []
  have hprice := extractDouble_eq (extractString ss []).1 env.price
  have hqty := extractInt64_eq (extractDouble (extractString ss []).1 env.price).1 env.qty
  rw [handleAdd, decideAdd, ← hside]
  dsimp only
  rw [← hprice]
  dsimp only
  rw [← hqty]
  dsimp only
  cases parseSide (toUpper (extractString ss []).2) with
  | none => split_ifs <;> exact ⟨rfl, ascii " invalid_side", rfl⟩
  | some side =>
    split_ifs with h
    · exact ⟨rfl, ascii " invalid_params", rfl⟩
    · exact ⟨rfl, rfl⟩

theorem handleMarket_outcome (env : Environment) (book : CRDTOrderBook ℚ) (ss : TextStream UInt8) :
    Outcome env book (handleMarket env book ss) (decideMarket env (ss.left isSpace)) := by
  have hside := extractString_eq ss []
  have hqty := extractInt64_eq (extractString ss []).1 env.qty
  rw [handleMarket, decideMarket, ← hside]
  dsimp only
  rw [← hqty]
  dsimp only
  cases parseSide (toUpper (extractString ss []).2) with
  | none => split_ifs <;> exact ⟨rfl, ascii " invalid_side", rfl⟩
  | some side =>
    split_ifs with h
    · exact ⟨rfl, ascii " invalid_quantity", rfl⟩
    · exact ⟨rfl, rfl⟩

/-- The decision of the handler, from all tokens of a request. -/
def decision (env : Environment) : List Str → Option Request
  | [] => none
  | cmd :: ts => if toUpper cmd = ascii "ADD" then decideAdd env ts else decideMarket env ts

/-- What the handler makes of an `ADD` or a `MARKET`. -/
theorem handle_outcome (env : Environment) (book : CRDTOrderBook ℚ) {request cmd : Str}
    {ts : List Str} (htokens : tokens isSpace request = cmd :: ts)
    (hcmd : toUpper cmd = ascii "ADD" ∨ toUpper cmd = ascii "MARKET") :
    Outcome env book (handle env book request) (decision env (tokens isSpace request)) := by
  have htoken : IsToken isSpace cmd := isToken_of_mem (htokens ▸ List.mem_cons_self)
  have hword := extractString_eq (.ofText request) []
  have hleft : (ofText request).left isSpace = cmd :: ts := htokens
  rw [hleft, takeToken_word htoken] at hword
  obtain ⟨hrest, hvalue⟩ := Prod.ext_iff.mp hword
  dsimp only at hrest hvalue
  rw [htokens, decision, handle]
  dsimp only
  rw [hvalue]
  by_cases hadd : toUpper cmd = ascii "ADD"
  · rw [if_pos hadd, if_pos hadd, ← hrest]
    exact handleAdd_outcome env book _
  · have hmarket := hcmd.resolve_left hadd
    have hcancel : toUpper cmd ≠ ascii "CANCEL" := by
      rw [hmarket]
      nofun
    rw [if_neg hadd, if_neg hcancel, if_pos hmarket, if_neg hadd, ← hrest]
    exact handleMarket_outcome env book _

end Decision

/-! ### Requests that are read as they are spelled -/

/-- What is read as a positive integer in a token is the whole token, in range, and the last one;
and no positive value is in memory where there is none. -/
def Environment.SafeQuantity (env : Environment) : List Str → Prop
  | [] => env.qty ≤ 0
  | t :: ts => ∀ i, (scanInteger t).1 = some i → 0 < i →
    i ≤ 2 ^ 63 - 1 ∧ (scanInteger t).2 = [] ∧ ts = []

/-- The same with a price in front: the price or the quantity in memory is not positive where
nothing is read; and behind what is read as a positive price comes a quantity that is read safely,
unless the token goes on, and then with nothing that is read as a positive integer. Behind a price
out of range nothing is read, so there must not be a positive quantity in memory, nor one in the
request. Prices, also the one in memory, are exact numbers: none is a NaN, and none is rounded. -/
def Environment.SafePrice (env : Environment) : List Str → Prop
  | [] => env.price ≤ 0 ∨ env.qty ≤ 0
  | t :: ts => ∀ v, (scanDecimal t).1 = some v → 0 < v →
    if doubleMax < v then
      env.qty ≤ 0 ∧ ((scanDecimal t).2 = [] → spelledQuantity ts = none)
    else if (scanDecimal t).2 = [] then env.SafeQuantity ts
    else ∀ i, (scanInteger (scanDecimal t).2).1 = some i → i ≤ 0

/-- The request is read as it is spelled. -/
def Environment.Safe (env : Environment) : List Str → Prop
  | cmd :: side :: ts => (parseSide (toUpper side)).isSome →
    if toUpper cmd = ascii "ADD" then env.SafePrice ts else env.SafeQuantity ts
  | _ => True

section Safe

variable {env : Environment} {t : Str} {ts : List Str}

/-- What is stored is positive only for a positive integer, and it is this one up to the limit. -/
theorem readInteger_cases (t : Str) :
    (readInteger t).value ≤ 0 ∧ (∀ i, (scanInteger t).1 = some i → i ≤ 0) ∨
      ∃ i, (scanInteger t).1 = some i ∧ 0 < i ∧ (readInteger t).value = min i (2 ^ 63 - 1) := by
  have hvalue : (readInteger t).value =
      (storeInteger (-2 ^ 63) (2 ^ 63 - 1) (munch integerStep .start t).1).1 := rfl
  have hscan : (scanInteger t).1 = (munch integerStep .start t).1.value := rfl
  rw [hvalue, hscan, storeInteger]
  cases (munch integerStep .start t).1.value with
  | none => exact Or.inl ⟨le_rfl, nofun⟩
  | some i =>
    by_cases hpos : 0 < i
    · refine Or.inr ⟨i, rfl, hpos, ?_⟩
      dsimp only
      split_ifs <;> dsimp only <;> omega
    · refine Or.inl ⟨?_, fun j hj => Option.some.inj hj ▸ not_lt.mp hpos⟩
      dsimp only
      split_ifs <;> dsimp only <;> omega

/-- What is stored for a price: something that is not positive, the price, or the limit after a
failure. -/
theorem readDecimal_cases (t : Str) :
    (readDecimal t).value ≤ 0 ∧ (∀ v, (scanDecimal t).1 = some v → v ≤ 0) ∨
      ∃ v, (scanDecimal t).1 = some v ∧ 0 < v ∧
        (v ≤ doubleMax ∧ readDecimal t = ⟨v, true, (scanDecimal t).2⟩ ∨
          doubleMax < v ∧ (readDecimal t).value = doubleMax ∧ (readDecimal t).ok = false) := by
  have hread : readDecimal t = ⟨(storeDecimal (munch decimalStep .start t).1).1,
      (storeDecimal (munch decimalStep .start t).1).2, (scanDecimal t).2⟩ := rfl
  have hscan : (scanDecimal t).1 = (munch decimalStep .start t).1.value := rfl
  have hmax : (0 : ℚ) < doubleMax := by rw [doubleMax]; positivity
  rw [hread, hscan, storeDecimal]
  cases (munch decimalStep .start t).1.value with
  | none => exact Or.inl ⟨le_rfl, nofun⟩
  | some v =>
    by_cases hpos : 0 < v
    · refine Or.inr ⟨v, rfl, hpos, ?_⟩
      have hlow : ¬ v < -doubleMax := by linarith
      dsimp only
      rw [if_neg hlow]
      split_ifs with hhigh
      · exact Or.inr ⟨hhigh, rfl, rfl⟩
      · exact Or.inl ⟨not_lt.mp hhigh, rfl⟩
    · have hnonpos := not_lt.mp hpos
      refine Or.inl ⟨?_, fun w hw => Option.some.inj hw ▸ hnonpos⟩
      dsimp only
      split_ifs with hlow hhigh
      · dsimp only
        linarith
      · exact absurd (hmax.trans hhigh) hpos
      · exact hnonpos

theorem quantityOf_eq_some {i : ℤ} : quantityOf t = some i ↔
    (scanInteger t).1 = some i ∧ (scanInteger t).2 = [] ∧ 0 < i ∧ i ≤ 2 ^ 63 - 1 := by
  rw [quantityOf, spelled]
  split_ifs with h <;> simp [h, Option.filter_eq_some_iff]

theorem spelledQuantity_eq_some {i : ℤ} : spelledQuantity (t :: ts) = some i ↔
    ts = [] ∧ quantityOf t = some i := by
  cases ts with
  | nil => simp [spelledQuantity]
  | cons u ts => simp [spelledQuantity]

/-- A positive integer is spelled if and only if it is the whole last token, and in range. -/
theorem spelledQuantity_of_scan {i : ℤ} (hscan : (scanInteger t).1 = some i) (hpos : 0 < i) :
    spelledQuantity (t :: ts) =
      if i ≤ 2 ^ 63 - 1 ∧ (scanInteger t).2 = [] ∧ ts = [] then some i else none := by
  split_ifs with h
  · obtain ⟨hrange, hleft, hlast⟩ := h
    exact spelledQuantity_eq_some.mpr ⟨hlast, quantityOf_eq_some.mpr ⟨hscan, hleft, hpos, hrange⟩⟩
  · refine Option.eq_none_iff_forall_ne_some.mpr fun j hj => h ?_
    obtain ⟨hlast, hj⟩ := spelledQuantity_eq_some.mp hj
    obtain ⟨hj, hleft, -, hrange⟩ := quantityOf_eq_some.mp hj
    obtain rfl := Option.some.inj (hscan.symm.trans hj)
    exact ⟨hrange, hleft, hlast⟩

/-- Nothing is spelled where no positive integer is read. -/
theorem spelledQuantity_of_forall (hall : ∀ i, (scanInteger t).1 = some i → i ≤ 0) :
    spelledQuantity (t :: ts) = none := by
  refine Option.eq_none_iff_forall_ne_some.mpr fun j hj => ?_
  obtain ⟨hscan, -, hpos, -⟩ := quantityOf_eq_some.mp (spelledQuantity_eq_some.mp hj).2
  exact absurd (hall j hscan) (not_le.mpr hpos)

/-- The quantity that is read is the one that is spelled if and only if it is read safely. -/
theorem quantity_eq_iff (f : ℤ → Request) (ts : List Str) :
    (if (takeToken readInteger env.qty ts).2 ≤ 0 then none
      else some (f (takeToken readInteger env.qty ts).2)) = (spelledQuantity ts).map f ↔
      env.SafeQuantity ts := by
  cases ts with
  | nil =>
    rw [Environment.SafeQuantity]
    change (if env.qty ≤ 0 then none else some (f env.qty)) = none ↔ _
    by_cases hqty : env.qty ≤ 0 <;> simp [hqty]
  | cons t ts =>
    rw [Environment.SafeQuantity]
    change (if (readInteger t).value ≤ 0 then none else some (f (readInteger t).value)) = _ ↔ _
    obtain ⟨hvalue, hall⟩ | ⟨i, hscan, hpos, hvalue⟩ := readInteger_cases t
    · rw [if_pos hvalue, spelledQuantity_of_forall hall]
      exact iff_of_true rfl fun i hi hpos => absurd (hall i hi) (not_le.mpr hpos)
    · have hne : ¬ (readInteger t).value ≤ 0 := by omega
      rw [if_neg hne, spelledQuantity_of_scan hscan hpos]
      by_cases h : i ≤ 2 ^ 63 - 1 ∧ (scanInteger t).2 = [] ∧ ts = []
      · rw [if_pos h, hvalue, min_eq_left h.1]
        refine iff_of_true rfl fun j hj _ => ?_
        obtain rfl := Option.some.inj (hscan.symm.trans hj)
        exact h
      · rw [if_neg h]
        exact iff_of_false (Option.some_ne_none _) fun hall => h (hall i hscan hpos)

theorem priceOf_eq {v : ℚ} (hscan : (scanDecimal t).1 = some v) (hpos : 0 < v) :
    priceOf t = if (scanDecimal t).2 = [] then some v else none := by
  rw [priceOf, spelled]
  split_ifs
  · rw [hscan, Option.filter_some, if_pos (by simpa using hpos)]
  · rfl

theorem priceOf_eq_none (hall : ∀ v, (scanDecimal t).1 = some v → v ≤ 0) : priceOf t = none := by
  refine Option.eq_none_iff_forall_ne_some.mpr fun v hv => ?_
  rw [priceOf, spelled, Option.filter_eq_some_iff] at hv
  obtain ⟨hv, hpos⟩ := hv
  split_ifs at hv
  exact absurd (hall v hv) (not_le.mpr (by simpa using hpos))

/-- The decision on an `ADD` with a side. -/
def decidePrice (env : Environment) (side : Side) (ts : List Str) : Option Request :=
  let price := takeToken readDecimal env.price ts
  let qty := takeToken readInteger env.qty price.1
  if price.2 ≤ 0 ∨ qty.2 ≤ 0 then none else some (.add side price.2 qty.2)

/-- The price and the quantity that a list of tokens spells. -/
def spelledPrice (side : Side) : List Str → Option Request
  | t :: ts => (priceOf t).bind fun v => (spelledQuantity ts).map (.add side v)
  | [] => none

/-- The price and the quantity that are read are those that are spelled if and only if they are read
safely. -/
theorem price_eq_iff (side : Side) (ts : List Str) :
    decidePrice env side ts = spelledPrice side ts ↔ env.SafePrice ts := by
  cases ts with
  | nil =>
    rw [Environment.SafePrice]
    change (if env.price ≤ 0 ∨ env.qty ≤ 0 then none
      else some (Request.add side env.price env.qty)) = none ↔ _
    by_cases h : env.price ≤ 0 ∨ env.qty ≤ 0 <;> simp [h]
  | cons t ts =>
    rw [Environment.SafePrice, decidePrice, takeToken]
    obtain ⟨hvalue, hall⟩ | ⟨v, hscan, hpos, hread⟩ := readDecimal_cases t
    · dsimp only
      rw [if_pos (Or.inl hvalue), spelledPrice, priceOf_eq_none hall]
      exact iff_of_true rfl fun v hv hpos => absurd (hall v hv) (not_le.mpr hpos)
    · have hsafe {p : ℚ → Prop} :
          (∀ w, (scanDecimal t).1 = some w → 0 < w → p w) ↔ p v := by
        refine ⟨fun h => h v hscan hpos, fun h w hw _ => ?_⟩
        obtain rfl := Option.some.inj (hscan.symm.trans hw)
        exact h
      rw [hsafe, spelledPrice, priceOf_eq hscan hpos]
      obtain ⟨hrange, hread⟩ | ⟨hrange, hvalue, hok⟩ := hread
      · rw [if_neg (not_lt.mpr hrange), hread]
        simp only [if_true, not_le.mpr hpos, false_or]
        by_cases hleft : (scanDecimal t).2 = []
        · simp only [if_pos hleft, Option.bind_some]
          exact quantity_eq_iff (Request.add side v) ts
        · simp only [if_neg hleft, Option.bind_none]
          change (if (readInteger (scanDecimal t).2).value ≤ 0 then none else some _) = none ↔ _
          obtain ⟨hvalue, hall⟩ | ⟨i, hi, hipos, hvalue⟩ := readInteger_cases (scanDecimal t).2
          · rw [if_pos hvalue]
            exact iff_of_true rfl hall
          · have hne : ¬ (readInteger (scanDecimal t).2).value ≤ 0 := by omega
            rw [if_neg hne]
            exact iff_of_false (Option.some_ne_none _) fun hall =>
              absurd (hall i hi) (not_le.mpr hipos)
      · have hmax : ¬ doubleMax ≤ 0 := by
          rw [doubleMax]
          norm_num
        rw [if_pos hrange, hvalue, hok]
        simp only [Bool.false_eq_true, if_false, hmax, false_or]
        change (if env.qty ≤ 0 then none else some (Request.add side doubleMax env.qty)) = _ ↔ _
        by_cases hleft : (scanDecimal t).2 = []
        · rw [if_pos hleft, Option.bind_some]
          by_cases hqty : env.qty ≤ 0
          · cases spelledQuantity ts <;> simp [hqty, hleft]
          · cases spelledQuantity ts <;> simp [hqty, hrange.ne]
        · by_cases hqty : env.qty ≤ 0 <;> simp [hqty, hleft]

theorem not_market_of_add {cmd : Str} (hadd : toUpper cmd = ascii "ADD") :
    toUpper cmd ≠ ascii "MARKET" := by
  rw [hadd]
  nofun

theorem wellFormed_add {cmd : Str} (hadd : toUpper cmd = ascii "ADD") (side : Str)
    (ts : List Str) : wellFormed (cmd :: side :: ts) =
      (parseSide (toUpper side)).bind fun side => spelledPrice side ts := by
  have hmarket := not_market_of_add hadd
  match ts with
  | [] => cases parseSide (toUpper side) <;> rfl
  | [price] =>
    rw [wellFormed, if_neg hmarket]
    cases parseSide (toUpper side) with
    | none => rfl
    | some side => cases h : priceOf price <;> simp [spelledPrice, spelledQuantity, h]
  | [price, qty] =>
    rw [wellFormed, if_pos hadd]
    cases parseSide (toUpper side) with
    | none => rfl
    | some side =>
      cases h : priceOf price <;> cases h' : quantityOf qty <;>
        simp [spelledPrice, spelledQuantity, h, h']
  | price :: qty :: t :: ts =>
    cases parseSide (toUpper side) with
    | none => rfl
    | some side =>
      cases h : priceOf price <;> simp [wellFormed, spelledPrice, spelledQuantity, h]

theorem wellFormed_market {cmd : Str} (hmarket : toUpper cmd = ascii "MARKET") (side : Str)
    (ts : List Str) : wellFormed (cmd :: side :: ts) =
      (parseSide (toUpper side)).bind fun side => (spelledQuantity ts).map (.market side) := by
  have hadd : toUpper cmd ≠ ascii "ADD" := fun h => not_market_of_add h hmarket
  match ts with
  | [] => cases parseSide (toUpper side) <;> rfl
  | [qty] =>
    rw [wellFormed, if_pos hmarket]
    cases parseSide (toUpper side) with
    | none => rfl
    | some side => cases h : quantityOf qty <;> simp [spelledQuantity, h]
  | [price, qty] =>
    rw [wellFormed, if_neg hadd]
    cases parseSide (toUpper side) <;> simp [spelledQuantity]
  | price :: qty :: t :: ts =>
    cases parseSide (toUpper side) <;> simp [wellFormed, spelledQuantity]

/-- The handler decides as the request is spelled if and only if the request is safe. -/
theorem decision_eq_iff {cmd : Str} (hsolid : ∀ t ∈ ts, IsToken isSpace t)
    (hcmd : toUpper cmd = ascii "ADD" ∨ toUpper cmd = ascii "MARKET") :
    decision env (cmd :: ts) = wellFormed (cmd :: ts) ↔ env.Safe (cmd :: ts) := by
  cases ts with
  | nil =>
    have hadd : decideAdd env [] = none := ite_self none
    have hmarket : decideMarket env [] = none := ite_self none
    refine iff_of_true ?_ trivial
    rw [decision, hadd, hmarket, ite_self]
    rfl
  | cons side ts =>
    have hside := hsolid side List.mem_cons_self
    rw [Environment.Safe, decision]
    by_cases hadd : toUpper cmd = ascii "ADD"
    · rw [if_pos hadd, if_pos hadd, wellFormed_add hadd, decideAdd, takeToken_word hside]
      cases parseSide (toUpper side) with
      | none => exact iff_of_true (ite_self none) nofun
      | some side => exact (price_eq_iff side ts).trans ⟨fun h _ => h, fun h => h rfl⟩
    · have hmarket := hcmd.resolve_left hadd
      rw [if_neg hadd, if_neg hadd, wellFormed_market hmarket, decideMarket, takeToken_word hside]
      cases parseSide (toUpper side) with
      | none => exact iff_of_true (ite_self none) nofun
      | some side =>
        exact (quantity_eq_iff (.market side) ts).trans ⟨fun h _ => h, fun h => h rfl⟩

/-- A spelled quantity is safe. -/
theorem safeQuantity_of_spelled {i : ℤ} (h : spelledQuantity ts = some i) :
    env.SafeQuantity ts := by
  cases ts with
  | nil => cases h
  | cons t ts =>
    obtain ⟨hlast, hi⟩ := spelledQuantity_eq_some.mp h
    obtain ⟨hscan, hleft, hpos, hrange⟩ := quantityOf_eq_some.mp hi
    intro j hj _
    obtain rfl := Option.some.inj (hscan.symm.trans hj)
    exact ⟨hrange, hleft, hlast⟩

/-- A spelled `MARKET` is safe. -/
theorem safe_of_market {cmd : Str} (hcmd : toUpper cmd = ascii "ADD" ∨ toUpper cmd = ascii "MARKET")
    {side : Side} {qty : ℤ} (h : wellFormed (cmd :: ts) = some (.market side qty)) :
    env.Safe (cmd :: ts) := by
  cases ts with
  | nil => trivial
  | cons name ts =>
    intro hname
    obtain ⟨named, hnamed⟩ := Option.isSome_iff_exists.mp hname
    by_cases hadd : toUpper cmd = ascii "ADD"
    · rw [wellFormed_add hadd, hnamed, Option.bind_some] at h
      cases ts with
      | nil => cases h
      | cons t ts =>
        rw [spelledPrice, Option.bind_eq_some_iff] at h
        obtain ⟨v, -, h⟩ := h
        obtain ⟨i, -, heq⟩ := Option.map_eq_some_iff.mp h
        cases heq
    · rw [wellFormed_market (hcmd.resolve_left hadd), hnamed, Option.bind_some] at h
      obtain ⟨i, hi, -⟩ := Option.map_eq_some_iff.mp h
      rw [if_neg hadd]
      exact safeQuantity_of_spelled hi

end Safe

/-! ### Outcomes -/

section Outcome

variable {env : Environment} {book : CRDTOrderBook ℚ}

/-- The first character of an answer. -/
def Request.initial : Option Request → UInt8
  | none => 69
  | some (.add ..) => 79
  | some (.market ..) => 70

theorem ClientHandler.Outcome.head {result : CRDTOrderBook ℚ × Str} {o : Option Request}
    (h : Outcome env book result o) : result.2.head? = some (Request.initial o) := by
  match o with
  | none =>
    obtain ⟨rest, hrest⟩ := h.2
    rw [← hrest]
    rfl
  | some (.add ..) =>
    rw [h.2]
    rfl
  | some (.market ..) =>
    rw [h.2]
    rfl

/-- What an `ADD` leaves shows what it was. -/
theorem localAddOrder_inj {side side' : Side} {price price' : ℚ} {qty qty' : ℤ} {oid opId : Str}
    (h : (book.localAddOrder side price qty oid opId).1 =
      (book.localAddOrder side' price' qty' oid opId).1) :
    side = side' ∧ price = price' ∧ qty = qty' := by
  have hlog := congrArg CRDTOrderBook.opLog h
  have horder := congrArg Operation.order (List.singleton_inj.mp (List.append_cancel_left hlog))
  exact ⟨congrArg Order.side horder, congrArg Order.price horder, congrArg Order.quantity horder⟩

/-- Up to market orders, an outcome shows the request. -/
theorem eq_of_outcome {result : CRDTOrderBook ℚ × Str} {o o' : Option Request}
    (h : Outcome env book result o) (h' : Outcome env book result o')
    (hmarket : ∀ side qty, o = some (.market side qty) → o' = o) : o' = o := by
  have hhead := Option.some.inj (h'.head.symm.trans h.head)
  match o, o', h, h' with
  | none, none, _, _ => rfl
  | some (.add ..), some (.add ..), h, h' =>
    obtain ⟨rfl, rfl, rfl⟩ := localAddOrder_inj (h'.1.symm.trans h.1)
    rfl
  | some (.market side qty), _, _, _ => exact hmarket side qty rfl
  | none, some (.add ..), _, _ => cases hhead
  | none, some (.market ..), _, _ => cases hhead
  | some (.add ..), none, _, _ => cases hhead
  | some (.add ..), some (.market ..), _, _ => cases hhead

/-- **Requests.** What the handler makes of an `ADD` or a `MARKET` is what the request spells if and
only if the request is read safely. -/
theorem outcome_wellFormed_iff (env : Environment) (book : CRDTOrderBook ℚ) {request cmd : Str}
    (hfirst : (tokens isSpace request).head? = some cmd)
    (hcmd : toUpper cmd = ascii "ADD" ∨ toUpper cmd = ascii "MARKET") :
    Outcome env book (handle env book request) (wellFormed (tokens isSpace request)) ↔
      env.Safe (tokens isSpace request) := by
  obtain ⟨ts, htokens⟩ := List.head?_eq_some_iff.mp hfirst
  have houtcome := handle_outcome env book htokens hcmd
  have hsolid : ∀ t ∈ ts, IsToken isSpace t := fun t ht =>
    isToken_of_mem (htokens ▸ List.mem_cons_of_mem cmd ht)
  rw [htokens] at houtcome ⊢
  rw [← decision_eq_iff hsolid hcmd]
  refine ⟨fun h => eq_of_outcome h houtcome fun side qty hmarket => ?_, fun h => h ▸ houtcome⟩
  exact (decision_eq_iff hsolid hcmd).mpr (safe_of_market hcmd hmarket)

/-- A positive price and a positive quantity in memory. -/
def oneSeven : Environment := ⟨1, 7, fun _ => ⟨.buy, 0, 0, 0, 0⟩, fun n => [n.toUInt8]⟩

theorem not_doubleMax_lt : ¬ doubleMax < 10 :=
  not_lt.mpr <| calc
    (10 : ℚ) ≤ 2 ^ 53 - 1 := by norm_num
    _ ≤ (2 ^ 53 - 1) * 2 ^ 971 := le_mul_of_one_le_right (by norm_num) (one_le_pow₀ one_le_two)

/-- `ADD BUY 10 5` is carried out. -/
theorem outcome_wellFormed_iff_whole :
    Outcome oneSeven (.new [1]) (handle oneSeven (.new [1]) (ascii "ADD BUY 10 5"))
      (wellFormed (tokens isSpace (ascii "ADD BUY 10 5"))) := by
  have htokens : tokens isSpace (ascii "ADD BUY 10 5") =
      [ascii "ADD", ascii "BUY", ascii "10", ascii "5"] := rfl
  have hadd : toUpper (ascii "ADD") = ascii "ADD" := rfl
  have hprice : scanDecimal (ascii "10") = (some 10, []) := rfl
  have hqty : scanInteger (ascii "5") = (some 5, []) := rfl
  have hiff :=
    outcome_wellFormed_iff oneSeven (.new [1]) (congrArg List.head? htokens) (Or.inl hadd)
  refine hiff.mpr ?_
  rw [htokens]
  intro _
  rw [if_pos hadd, Environment.SafePrice, hprice]
  rintro v ⟨rfl⟩ -
  rw [if_neg not_doubleMax_lt, if_pos rfl, Environment.SafeQuantity, hqty]
  rintro i ⟨rfl⟩ -
  exact ⟨by norm_num, rfl, rfl⟩

/-- `ADD BUY 10 5abc` is accepted. -/
theorem not_outcome_wellFormed_trailing :
    ¬ Outcome oneSeven (.new [1]) (handle oneSeven (.new [1]) (ascii "ADD BUY 10 5abc"))
      (wellFormed (tokens isSpace (ascii "ADD BUY 10 5abc"))) := by
  have htokens : tokens isSpace (ascii "ADD BUY 10 5abc") =
      [ascii "ADD", ascii "BUY", ascii "10", ascii "5abc"] := rfl
  have hadd : toUpper (ascii "ADD") = ascii "ADD" := rfl
  have hprice : scanDecimal (ascii "10") = (some 10, []) := rfl
  have hqty : scanInteger (ascii "5abc") = (some 5, ascii "abc") := rfl
  have hspelled : wellFormed [ascii "ADD", ascii "BUY", ascii "10", ascii "5abc"] = none := rfl
  have hsolid : ∀ t ∈ [ascii "BUY", ascii "10", ascii "5abc"], IsToken isSpace t := fun t ht =>
    isToken_of_mem (htokens ▸ List.mem_cons_of_mem _ ht)
  have houtcome := handle_outcome oneSeven (.new [1]) htokens (Or.inl hadd)
  intro h
  rw [htokens] at h houtcome
  have hdecision := eq_of_outcome h houtcome (by rw [hspelled]; nofun)
  have hsafe := (decision_eq_iff hsolid (Or.inl hadd)).mp hdecision rfl
  rw [if_pos hadd, Environment.SafePrice, hprice] at hsafe
  have hsafe := hsafe 10 rfl (by norm_num)
  rw [if_neg not_doubleMax_lt, if_pos rfl, Environment.SafeQuantity, hqty] at hsafe
  exact absurd (hsafe 5 rfl (by norm_num)).2.1 (List.cons_ne_nil _ _)

end Outcome

end Convergence
