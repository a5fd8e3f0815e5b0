import Convergence.Library.Binary64
import Convergence.Library.JsText
import Convergence.Library.TransitionSystem

/-!
# The market replay

The replay engine of `index.js`: messages of clients start and stop it and change its position and
its speed, and a timer shows the next bars. Positions and speeds are doubles that a client may
choose freely within bounds; that a position is the index of a bar is checked nowhere.

## Main definitions

* `Bridge.ReplayData`, `Bridge.Replay`, `Bridge.ReplayEvent`.
* `Bridge.replayTick`, `Bridge.startReplay`, `Bridge.stopReplay`, `Bridge.seekReplay`,
  `Bridge.setReplaySpeed`, `Bridge.onEvent`.
* `Bridge.marketReplay`: runs of messages and turns of the timer.

## Main results

* `Bridge.barAt_natCast`, `Bridge.showBar_eq_nil`: what an index shows, and what it does not.
* `Bridge.flatMap_barsFor_onEvent`: the bars that an event sends for a node.
* `Bridge.oneInterval`, `Bridge.enabled_tick_iff`: one timer runs, while the replay is running.
-/

namespace Convergence

namespace Bridge

open JsText

/-! ### Numbers of messages -/

/-- A number of a JSON text: the value of a double, or infinite when the numeral is beyond them. -/
inductive JsonNumber
  | finite (value : ℚ)
  | infinity (negative : Bool)
  deriving DecidableEq

/-- `argument || fallback`, for an argument that may be missing. -/
def orElse (fallback : ℚ) : Option JsonNumber → JsonNumber
  | none => .finite fallback
  | some x => if x = .finite 0 then .finite fallback else x

/-- `Math.max(low, Math.min(x, high))`. -/
def clamp (low high : ℚ) : JsonNumber → ℚ
  | .finite x => max low (min x high)
  | .infinity negative => if negative then low else max low high

/-! ### The bars -/

/-- `NODE_TICKERS`. -/
def nodeTickers : List (Text × Text) :=
  [("node-a".toList, "AAPL".toList), ("node-b".toList, "MSFT".toList),
    ("node-c".toList, "NVDA".toList), ("node-d".toList, "AMZN".toList),
    ("node-e".toList, "GOOG".toList)]

/-- What has been loaded when the server starts. -/
structure ReplayData (Bar : Type*) where
  /-- The ids of `NODES`. -/
  nodes : List Text
  tickerBars : List (Text × List Bar)
  /-- An array has less than `2 ^ 32` elements. -/
  length_lt : ∀ entry ∈ tickerBars, entry.2.length < 2 ^ 32

variable {Bar : Type*}

namespace ReplayData

/-- The number of bars of the longest dataset. -/
def maxBars (d : ReplayData Bar) : ℕ := (d.tickerBars.map fun entry => entry.2.length).foldr max 0

/-- `NODE_TICKERS[node.id] || 'AAPL'`. -/
def ticker (node : Text) : Text := (nodeTickers.lookup node).getD "AAPL".toList

/-- `tickerBars[ticker] || []`. -/
def bars (d : ReplayData Bar) (ticker : Text) : List Bar := (d.tickerBars.lookup ticker).getD []

theorem maxBars_lt (d : ReplayData Bar) : d.maxBars < 2 ^ 32 := by
  have hle : ∀ entries : List (Text × List Bar), (∀ entry ∈ entries, entry.2.length < 2 ^ 32) →
      (entries.map fun entry => entry.2.length).foldr max 0 < 2 ^ 32 := by
    intro entries
    induction entries with
    | nil => simp
    | cons entry entries ih =>
      intro h
      have hrest := ih fun e he => h e (List.mem_cons_of_mem entry he)
      have hentry := h entry List.mem_cons_self
      exact max_lt hentry hrest
  exact hle d.tickerBars d.length_lt

end ReplayData

/-- `x % n`: the remainder of the division that truncates. -/
def remainder (x : ℚ) (n : ℕ) : ℚ := x - n * if 0 ≤ x then ⌊x / n⌋ else ⌈x / n⌉

/-- `bars.length > 0 ? bars[idx % bars.length] : null`. An index that is no element's gives
nothing. -/
def barAt (bars : List Bar) (idx : ℚ) : Option Bar :=
  if 0 < bars.length then
    let i := remainder idx bars.length
    if i = ⌊i⌋₊ then bars[⌊i⌋₊]? else none
  else none

/-! ### The state -/

/-- The object `replay`, and the live intervals of the event loop. -/
structure Replay where
  running : Bool
  speed : ℚ
  cursor : ℚ
  timer : Option ℕ
  totalBars : ℕ
  intervals : List ℕ
  nextHandle : ℕ

/-- The state when the server starts. -/
def Replay.init (d : ReplayData Bar) : Replay where
  running := false
  speed := 1
  cursor := 0
  timer := none
  totalBars := d.maxBars
  intervals := []
  nextHandle := 0

/-- `replay.timer = setInterval(replayTick, replay.intervalMs)`. -/
def Replay.setInterval (s : Replay) : Replay :=
  { s with
    timer := some s.nextHandle
    intervals := s.nextHandle :: s.intervals
    nextHandle := s.nextHandle + 1 }

/-- `clearInterval(replay.timer)`. -/
def Replay.clearInterval (s : Replay) : Replay :=
  { s with intervals := s.intervals.filter fun handle => some handle ≠ s.timer }

/-- A message to the clients. The random numbers of books and states are left out. -/
inductive Broadcast (Bar : Type*)
  /-- The book is made up from the bar. -/
  | bookUpdate (node : Text) (bar : Bar)
  | statusUpdate (node : Text) (opLog : ℚ) (clock : List (Text × ℚ))
  | barUpdate (node ticker : Text) (bar : Bar) (cursor : ℚ) (total : ℕ)
  /-- The bar may be missing, or null. -/
  | replayStatus (running : Bool) (cursor : ℚ) (total : ℕ) (speed : ℚ) (bar : Option (Option Bar))
  | replayError (error : Text)

/-- The state of the replay, as the clients are told. -/
def Replay.status (s : Replay) (bar : Option (Option Bar)) : Broadcast Bar :=
  .replayStatus s.running s.cursor s.totalBars s.speed bar

/-! ### The functions -/

/-- `stopReplay`. -/
def stopReplay (s : Replay) : Replay × List (Broadcast Bar) :=
  let s := { s with running := false }
  let s := if s.timer.isSome then { s.clearInterval with timer := none } else s
  (s, [s.status none])

/-- `startReplay`. -/
def startReplay (d : ReplayData Bar) (s : Replay) : Replay × List (Broadcast Bar) :=
  if s.running then (s, [])
  else if d.maxBars = 0 then (s, [.replayError "No data loaded".toList])
  else
    let s := if d.maxBars ≤ s.cursor then { s with cursor := 0 } else s
    let s := { s with running := true }.setInterval
    (s, [s.status none])

/-- `seekReplay`. -/
def seekReplay (d : ReplayData Bar) (cursor : JsonNumber) (s : Replay) :
    Replay × List (Broadcast Bar) :=
  let s := { s with cursor := clamp 0 (d.maxBars - 1) cursor }
  (s, [s.status none])

/-- `setReplaySpeed`. -/
def setReplaySpeed (speed : JsonNumber) (s : Replay) : Replay × List (Broadcast Bar) :=
  let s := { s with speed := clamp 1 100 speed }
  let s := if s.running then s.clearInterval.setInterval else s
  (s, [s.status none])

/-- What `replayTick` sends about a node for the index `idx`. -/
def showNode (d : ReplayData Bar) (total : ℕ) (idx : ℚ) (node : Text) : List (Broadcast Bar) :=
  let ticker := ReplayData.ticker node
  match barAt (d.bars ticker) idx with
  | none => []
  | some bar =>
    [.bookUpdate node bar,
      .statusUpdate node (Binary64.round (idx * 20)) (d.nodes.zipIdx.map fun (id, j) =>
        (id, Binary64.round (Binary64.round (idx * 4) + j))),
      .barUpdate node ticker bar idx total]

/-- What it sends for the index. -/
def showBar (d : ReplayData Bar) (total : ℕ) (idx : ℚ) : List (Broadcast Bar) :=
  d.nodes.flatMap (showNode d total idx)

/-- `barsThisTick`. -/
def barsThisTick (d : ReplayData Bar) (s : Replay) : ℚ :=
  min s.speed (Binary64.round (d.maxBars - s.cursor))

/-- The indices `idx` in the turns of the loop of `replayTick`. -/
def tickIndices (d : ReplayData Bar) (s : Replay) : List ℚ :=
  (List.range ⌈barsThisTick d s⌉₊).map fun b : ℕ => Binary64.round (s.cursor + b)

/-- `replayTick`, but for the orders it sends to a node. -/
def replayTick (d : ReplayData Bar) (s : Replay) : Replay × List (Broadcast Bar) :=
  if ¬ s.running ∨ d.maxBars ≤ s.cursor then stopReplay s
  else
    let shown := (tickIndices d s).flatMap (showBar d s.totalBars)
    let s := { s with cursor := Binary64.round (s.cursor + barsThisTick d s) }
    let lastAaplBar := barAt (d.bars "AAPL".toList) (Binary64.round (s.cursor - 1))
    (s, shown ++ [s.status (some lastAaplBar)])

/-! ### Runs -/

/-- A message of a client, or a turn of the timer. -/
inductive ReplayEvent
  | start
  | stop
  | seek (cursor : Option JsonNumber)
  | speed (speed : Option JsonNumber)
  | tick
  deriving DecidableEq

/-- What `ws.on('message')` and the timer call. -/
def onEvent (d : ReplayData Bar) (s : Replay) : ReplayEvent → Replay × List (Broadcast Bar)
  | .start => startReplay d s
  | .stop => stopReplay s
  | .seek cursor => seekReplay d (orElse 0 cursor) s
  | .speed speed => setReplaySpeed (orElse 1 speed) s
  | .tick => replayTick d s

/-- The replay, with its messages in any order. The timer takes a turn while an interval is live. -/
def marketReplay (d : ReplayData Bar) : TransitionSystem Replay ReplayEvent where
  init := Replay.init d
  enabled s event := event = .tick → s.intervals ≠ []
  step s event := (onEvent d s event).1

/-- The indices that an event processes. -/
def processed (d : ReplayData Bar) (s : Replay) : ReplayEvent → List ℚ
  | .tick => if ¬ s.running ∨ d.maxBars ≤ s.cursor then [] else tickIndices d s
  | _ => []

/-! ### What an index shows -/

theorem remainder_natCast (k n : ℕ) : remainder k n = (k % n : ℕ) := by
  have hfloor : ⌊(k : ℚ) / n⌋ = (k / n : ℕ) := by
    rw [Rat.floor_natCast_div_natCast, Int.natCast_ediv]
  rw [remainder, if_pos (Nat.cast_nonneg k), hfloor, Int.cast_natCast, sub_eq_iff_eq_add,
    ← Nat.cast_mul, ← Nat.cast_add, Nat.mod_add_div]

/-- A natural index is that of a bar, around the end when the dataset is a shorter one. -/
theorem barAt_natCast (bars : List Bar) (k : ℕ) : barAt bars k = bars[k % bars.length]? := by
  rw [barAt, remainder_natCast]
  split_ifs with hlen
  · simp
  · simp [Nat.eq_zero_of_not_pos hlen]

/-- An index between two bars is that of none. -/
theorem barAt_eq_none (bars : List Bar) {idx : ℚ} (h : ∀ k : ℤ, idx ≠ k) :
    barAt bars idx = none := by
  rw [barAt]
  split_ifs with hlen
  · refine if_neg fun hwhole => ?_
    obtain ⟨q, hq⟩ : ∃ q : ℤ, remainder idx bars.length = idx - bars.length * q := by
      rw [remainder]
      split_ifs
      · exact ⟨_, rfl⟩
      · exact ⟨_, rfl⟩
    refine h (⌊remainder idx bars.length⌋₊ + bars.length * q) ?_
    push_cast
    rw [← hwhole, hq, sub_add_cancel]
  · rfl

/-- The bars that a message brings for a node, each with its index. -/
def barsFor (node : Text) : Broadcast Bar → List (ℚ × Bar)
  | .barUpdate node' _ bar cursor _ => if node' = node then [(cursor, bar)] else []
  | _ => []

theorem flatMap_barsFor_showNode (d : ReplayData Bar) (total : ℕ) (idx : ℚ) (node id : Text) :
    (showNode d total idx id).flatMap (barsFor node) = if id = node then
      ((barAt (d.bars (ReplayData.ticker node)) idx).map fun bar => (idx, bar)).toList else [] := by
  by_cases hid : id = node
  · subst hid
    cases hbar : barAt (d.bars (ReplayData.ticker id)) idx <;> simp [showNode, barsFor, hbar]
  · cases hbar : barAt (d.bars (ReplayData.ticker id)) idx <;> simp [showNode, barsFor, hbar, hid]

/-- An index shows a node the bar of its dataset, if there is one. -/
theorem flatMap_barsFor_showBar (d : ReplayData Bar) (total : ℕ) (idx : ℚ)
    (hnodup : d.nodes.Nodup) {node : Text} (hnode : node ∈ d.nodes) :
    (showBar d total idx).flatMap (barsFor node) =
      ((barAt (d.bars (ReplayData.ticker node)) idx).map fun bar => (idx, bar)).toList := by
  obtain ⟨front, rest, hnodes⟩ := List.append_of_mem hnode
  have hother {ids : List Text} (hids : node ∉ ids) :
      ids.flatMap (fun id => (showNode d total idx id).flatMap (barsFor node)) = [] := by
    refine List.flatMap_eq_nil_iff.mpr fun id hid => ?_
    have hne : id ≠ node := fun heq => hids (heq ▸ hid)
    rw [flatMap_barsFor_showNode, if_neg hne]
  rw [hnodes, List.nodup_append, List.nodup_cons] at hnodup
  obtain ⟨-, ⟨hrest, -⟩, hfront⟩ := hnodup
  rw [showBar, List.flatMap_assoc, hnodes, List.flatMap_append, List.flatMap_cons,
    hother fun hmem => hfront node hmem node List.mem_cons_self rfl, hother hrest,
    flatMap_barsFor_showNode, if_pos rfl, List.nil_append, List.append_nil]

/-- Nothing is shown between two bars. -/
theorem showBar_eq_nil (d : ReplayData Bar) (total : ℕ) {idx : ℚ} (h : ∀ k : ℤ, idx ≠ k) :
    showBar d total idx = [] := by
  refine List.flatMap_eq_nil_iff.mpr fun node _ => ?_
  simp only [showNode, barAt_eq_none _ h]

/-- What an event sends for a node: the bars of the indices that it processes. -/
theorem flatMap_barsFor_onEvent (d : ReplayData Bar) (s : Replay) (event : ReplayEvent)
    (hnodup : d.nodes.Nodup) {node : Text} (hnode : node ∈ d.nodes) :
    (onEvent d s event).2.flatMap (barsFor node) = (processed d s event).flatMap fun idx =>
      ((barAt (d.bars (ReplayData.ticker node)) idx).map fun bar => (idx, bar)).toList := by
  cases event with
  | start =>
    simp only [onEvent, startReplay, processed]
    split_ifs <;> rfl
  | stop => rfl
  | seek cursor => rfl
  | speed speed => rfl
  | tick =>
    simp only [onEvent, replayTick, processed]
    split_ifs
    · rfl
    · rw [List.flatMap_append, List.flatMap_assoc]
      simp only [flatMap_barsFor_showBar d _ _ hnodup hnode]
      exact List.append_nil _

/-! ### What the functions change -/

section Fields

variable (d : ReplayData Bar) (s : Replay)

@[simp] theorem stopReplay_running :
    (stopReplay s : Replay × List (Broadcast Bar)).1.running = false := by
  cases htimer : s.timer <;> simp [stopReplay, htimer, Replay.clearInterval]

@[simp] theorem stopReplay_cursor :
    (stopReplay s : Replay × List (Broadcast Bar)).1.cursor = s.cursor := by
  cases htimer : s.timer <;> simp [stopReplay, htimer, Replay.clearInterval]

@[simp] theorem stopReplay_speed :
    (stopReplay s : Replay × List (Broadcast Bar)).1.speed = s.speed := by
  cases htimer : s.timer <;> simp [stopReplay, htimer, Replay.clearInterval]

@[simp] theorem setReplaySpeed_running (speed : JsonNumber) :
    (setReplaySpeed speed s : Replay × List (Broadcast Bar)).1.running = s.running := by
  cases hrun : s.running <;>
    simp [setReplaySpeed, hrun, Replay.clearInterval, Replay.setInterval]

@[simp] theorem setReplaySpeed_cursor (speed : JsonNumber) :
    (setReplaySpeed speed s : Replay × List (Broadcast Bar)).1.cursor = s.cursor := by
  cases hrun : s.running <;>
    simp [setReplaySpeed, hrun, Replay.clearInterval, Replay.setInterval]

@[simp] theorem setReplaySpeed_speed (speed : JsonNumber) :
    (setReplaySpeed speed s : Replay × List (Broadcast Bar)).1.speed = clamp 1 100 speed := by
  cases hrun : s.running <;>
    simp [setReplaySpeed, hrun, Replay.clearInterval, Replay.setInterval]

/-- Where the replay goes on from when it is started. -/
theorem startReplay_cursor (hbars : 0 < d.maxBars) : (startReplay d s).1.cursor =
    if ¬ s.running ∧ d.maxBars ≤ s.cursor then 0 else s.cursor := by
  rw [startReplay]
  cases hrun : s.running with
  | true => simp
  | false =>
    simp only [Bool.false_eq_true, if_false, if_neg hbars.ne', not_false_eq_true, true_and]
    split_ifs <;> rfl

theorem startReplay_running (hbars : 0 < d.maxBars) : (startReplay d s).1.running = true := by
  cases hrun : s.running <;> simp [startReplay, hrun, hbars.ne', Replay.setInterval]

@[simp] theorem startReplay_speed : (startReplay d s).1.speed = s.speed := by
  rw [startReplay]
  split_ifs <;> rfl

end Fields

/-! ### The timer -/

/-- An interval is live exactly while the replay is running, and it is the one of `replay.timer`. -/
structure OneInterval (s : Replay) : Prop where
  intervals_eq : s.intervals = s.timer.toList
  isSome_eq : s.timer.isSome = s.running

namespace OneInterval

variable {d : ReplayData Bar} {s : Replay}

theorem setInterval (h : s.intervals = []) (hrun : s.running) : OneInterval s.setInterval where
  intervals_eq := by simp [Replay.setInterval, h]
  isSome_eq := by simp [Replay.setInterval, hrun]

theorem clearInterval (h : s.intervals = s.timer.toList) : s.clearInterval.intervals = [] := by
  cases htimer : s.timer <;> simp [Replay.clearInterval, h, htimer]

variable (Bar) in
theorem stopReplay (h : OneInterval s) :
    OneInterval (stopReplay s : Replay × List (Broadcast Bar)).1 := by
  have hclear := clearInterval (s := { s with running := false }) h.intervals_eq
  rw [Bridge.stopReplay]
  dsimp only
  split_ifs with htimer
  · exact ⟨hclear, rfl⟩
  · exact ⟨h.intervals_eq, Bool.eq_false_iff.mpr htimer⟩

theorem startReplay (h : OneInterval s) : OneInterval (startReplay d s).1 := by
  rw [Bridge.startReplay]
  split_ifs with hrun hbars hend
  · exact h
  · exact h
  all_goals
    have htimer : s.timer = none := by simpa [hrun] using h.isSome_eq
    have hnone : s.intervals = [] := by rw [h.intervals_eq, htimer, Option.toList_none]
    exact setInterval hnone rfl

variable (Bar) in
theorem setReplaySpeed (h : OneInterval s) (speed : JsonNumber) :
    OneInterval (setReplaySpeed speed s : Replay × List (Broadcast Bar)).1 := by
  have hclear := clearInterval (s := { s with speed := clamp 1 100 speed }) h.intervals_eq
  rw [Bridge.setReplaySpeed]
  dsimp only
  split_ifs with hrun
  · exact setInterval hclear hrun
  · exact ⟨h.intervals_eq, h.isSome_eq⟩

theorem replayTick (h : OneInterval s) : OneInterval (replayTick d s).1 := by
  rw [Bridge.replayTick]
  split_ifs
  · exact h.stopReplay Bar
  · exact ⟨h.intervals_eq, h.isSome_eq⟩

end OneInterval

/-- However often the replay is started and its speed is changed, one timer runs. -/
theorem oneInterval {d : ReplayData Bar} {s : Replay} (h : (marketReplay d).Reachable s) :
    OneInterval s := by
  refine h.invariant ⟨rfl, rfl⟩ fun s event _ hs _ => ?_
  cases event with
  | start => exact hs.startReplay
  | stop => exact hs.stopReplay Bar
  | seek cursor => exact ⟨hs.intervals_eq, hs.isSome_eq⟩
  | speed speed => exact hs.setReplaySpeed Bar _
  | tick => exact hs.replayTick

/-- The timer takes turns exactly while the replay is running. -/
theorem enabled_tick_iff {d : ReplayData Bar} {s : Replay} (h : (marketReplay d).Reachable s) :
    (marketReplay d).enabled s .tick ↔ s.running := by
  have hone := oneInterval h
  have hrun := hone.isSome_eq
  cases htimer : s.timer <;> simp_all [marketReplay, hone.intervals_eq]

end Bridge

end Convergence
