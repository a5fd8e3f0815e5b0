import Convergence.Api.Bridge
import Convergence.Api.ReplayedBars
import Mathlib.Data.List.DropRight

/-!
# The bridge and the dashboard

The part of `index.js` that polls the nodes and passes commands on, and the reducer of
`useSocket.js` that makes what is shown of what the bridge sends. The bridge notes of a node whether
the last poll of it has succeeded. The dashboard shows a node alive from a book or a status to an
error; it is told of errors only while no replay is running, and a replay sends books of all nodes.
So the dashboard shows what the bridge has noted exactly as long as no step of some kinds happens.

## Main definitions

* `Bridge.Server`, `Bridge.ServerEvent`, `Bridge.onServerEvent`: the bridge.
* `Bridge.Dashboard`, `Bridge.Dashboard.handleMessage`: the dashboard.
* `Bridge.dashboardSystem`: the bridge with a dashboard that stays connected.
* `Bridge.KeepsLiveness`: the steps after which the dashboard shows what has been noted.

## Main results

* `Bridge.liveness_along_iff`.
* `Bridge.priceHistories_eq`: the chart shows the last bars of the replay.
-/

namespace Convergence

namespace Bridge

open JsText TransitionSystem

variable {Bar : Type*}

/-! ### Messages to the dashboard -/

/-- The book of a `book_update`: read from an answer, or made up from a bar. -/
inductive BookData (Bar : Type*)
  | read (book : Book)
  | madeUp (bar : Bar)

/-- The status of a `status_update`: read from an answer, or made up. -/
inductive StatusData
  | read (status : Status)
  | madeUp (opLog : ℚ) (clock : List (Text × ℚ))

/-- A message of the bridge. -/
inductive ServerMessage (Bar : Type*)
  | bookUpdate (node : Text) (data : BookData Bar)
  | statusUpdate (node : Text) (data : StatusData)
  | nodeError (node error : Text)
  | commandResponse (node : Text) (command data : Option Text)
  | barUpdate (node ticker : Text) (bar : Bar) (cursor : ℚ) (total : ℕ)
  | replayStatus (running : Bool) (cursor : ℚ) (total : ℕ) (speed : ℚ) (bar : Option (Option Bar))
  | replayError (error : Text)

/-- What the replay sends. -/
def Broadcast.message : Broadcast Bar → ServerMessage Bar
  | .bookUpdate node bar => .bookUpdate node (.madeUp bar)
  | .statusUpdate node opLog clock => .statusUpdate node (.madeUp opLog clock)
  | .barUpdate node ticker bar cursor total => .barUpdate node ticker bar cursor total
  | .replayStatus running cursor total speed bar => .replayStatus running cursor total speed bar
  | .replayError error => .replayError error

/-! ### The bridge -/

/-- The state of the bridge. -/
structure Server where
  replay : Replay
  /-- `nodeAlive[id]`, which is `undefined` at first. -/
  nodeAlive : Text → Option Bool

/-- The state when the server starts. -/
def Server.init (d : ReplayData Bar) : Server where
  replay := .init d
  nodeAlive _ := none

/-- What happens at the bridge. A response is the text that `sendTcp` resolves to, `null` when
nothing has come in time. -/
inductive ServerEvent
  | replay (event : ReplayEvent)
  /-- Both requests of a poll have been answered. -/
  | polled (node : Text) (bookRaw statusRaw : Option Text)
  | pollFailed (node : Text)
  | answered (node command : Text) (response : Option Text)
  | commandFailed (node error : Text)
  /-- A command of the dashboard for a node that is not configured. -/
  | refused (node : Text)

/-- `if (raw)`. -/
def truthy (raw : Option Text) : Option Text := raw.filter fun text => text ≠ []

/-- `pollNode`, and `ws.on('message')` for commands: the state and what is sent. -/
def onServerEvent (d : ReplayData Bar) (s : Server) :
    ServerEvent → Server × List (ServerMessage Bar)
  | .replay event =>
    let r := onEvent d s.replay event
    ({ s with replay := r.1 }, r.2.map Broadcast.message)
  | .polled node bookRaw statusRaw =>
    ({ s with nodeAlive := Function.update s.nodeAlive node (some true) },
      if s.replay.running then []
      else
        ((truthy bookRaw).map fun raw => .bookUpdate node (.read (parseBook raw))).toList ++
          ((truthy statusRaw).map fun raw => .statusUpdate node (.read (parseStatus raw))).toList)
  | .pollFailed node =>
    if s.nodeAlive node = some false then (s, [])
    else
      ({ s with nodeAlive := Function.update s.nodeAlive node (some false) },
        if s.replay.running then [] else [.nodeError node "Connection refused".toList])
  | .answered node command response => (s, [.commandResponse node (some command) response])
  | .commandFailed node error => (s, [.nodeError node error])
  | .refused node => (s, [.commandResponse node none (some "ERROR unknown_node".toList)])

/-! ### The dashboard -/

/-- What is shown of a node. -/
structure NodeState (Bar : Type*) where
  book : BookData Bar
  status : StatusData
  alive : Bool

/-- `emptyNodeState`. -/
def emptyNodeState : NodeState Bar where
  book := .read ⟨[], []⟩
  status := .read ⟨[], .finite 0, .finite 0, fun _ => none⟩
  alive := false

/-- An entry of the activity log. -/
inductive Activity
  | command (node : Text) (command data : Option Text)
  | system (text : Text)

/-- The state of the replay, as it is shown. -/
structure ReplayShown (Bar : Type*) where
  running : Bool
  cursor : ℚ
  total : ℕ
  speed : ℚ
  bar : Option Bar

/-- The state of `useSocket`. -/
structure Dashboard (Bar : Type*) where
  nodes : Text → NodeState Bar
  activity : List Activity
  replay : ReplayShown Bar
  priceHistories : Text → List Bar

namespace Dashboard

/-- The state before any message. -/
def init : Dashboard Bar where
  nodes _ := emptyNodeState
  activity := []
  replay := ⟨false, 0, 0, 1, none⟩
  priceHistories _ := []

/-- `addActivity`. -/
def addActivity (D : Dashboard Bar) (entry : Activity) : Dashboard Bar :=
  { D with activity := (entry :: D.activity).take 200 }

/-- `handleMessage` of `useSocket.js`. -/
def handleMessage (D : Dashboard Bar) : ServerMessage Bar → Dashboard Bar
  | .bookUpdate node data =>
    { D with
      nodes := Function.update D.nodes node { D.nodes node with book := data, alive := true } }
  | .statusUpdate node data =>
    { D with
      nodes := Function.update D.nodes node { D.nodes node with status := data, alive := true } }
  | .nodeError node _ =>
    { D with nodes := Function.update D.nodes node { D.nodes node with alive := false } }
  | .commandResponse node command data => D.addActivity (.command node command data)
  | .replayStatus running cursor total speed bar =>
    { D with replay := ⟨running, cursor, total, speed, bar.join⟩ }
  | .replayError error => D.addActivity (.system ("Replay error: ".toList ++ error))
  | .barUpdate node _ bar _ _ =>
    let nodeId := if node = [] then "node-a".toList else node
    let next := D.priceHistories nodeId ++ [bar]
    { D with
      priceHistories := Function.update D.priceHistories nodeId
        (if 300 < next.length then next.drop (next.length - 300) else next) }

end Dashboard

/-- The bridge and a dashboard that is connected all the time. Polls and commands are for configured
nodes, and what the bridge sends arrives in order. -/
def dashboardSystem (d : ReplayData Bar) :
    TransitionSystem (Server × Dashboard Bar) ServerEvent where
  init := (.init d, .init)
  enabled s
    | .replay event => (marketReplay d).enabled s.1.replay event
    | .polled node _ _ => node ∈ d.nodes
    | .pollFailed node => node ∈ d.nodes
    | .answered node _ _ => node ∈ d.nodes
    | .commandFailed node _ => node ∈ d.nodes
    | .refused node => node ∉ d.nodes
  step s event :=
    let r := onServerEvent d s.1 event
    (r.1, r.2.foldl Dashboard.handleMessage s.2)

/-! ### What messages say about the nodes -/

/-- Whether a message shows the node alive, if it is about its liveness. -/
def ServerMessage.tells (node : Text) : ServerMessage Bar → Option Bool
  | .bookUpdate node' _ => if node' = node then some true else none
  | .statusUpdate node' _ => if node' = node then some true else none
  | .nodeError node' _ => if node' = node then some false else none
  | _ => none

section Tells

variable {D : Dashboard Bar} {node : Text} {messages : List (ServerMessage Bar)}

theorem alive_handleMessage (D : Dashboard Bar) (m : ServerMessage Bar) (node : Text) :
    ((D.handleMessage m).nodes node).alive = (m.tells node).getD (D.nodes node).alive := by
  have hupdate (node' : Text) (state : NodeState Bar) :
      (Function.update D.nodes node' state node).alive =
        (if node' = node then some state.alive else none).getD (D.nodes node).alive := by
    by_cases hnode : node' = node
    · subst hnode
      rw [Function.update_self, if_pos rfl, Option.getD_some]
    · rw [Function.update_of_ne (Ne.symm hnode), if_neg hnode, Option.getD_none]
  cases m with
  | bookUpdate node' data => exact hupdate node' _
  | statusUpdate node' data => exact hupdate node' _
  | nodeError node' error => exact hupdate node' _
  | _ => rfl

/-- Without an error, a node is shown alive if it was or if a message shows it alive. -/
theorem alive_foldl_iff (h : ∀ m ∈ messages, m.tells node ≠ some false) :
    ((messages.foldl Dashboard.handleMessage D).nodes node).alive ↔
      (D.nodes node).alive ∨ ∃ m ∈ messages, m.tells node = some true := by
  induction messages generalizing D with
  | nil => simp
  | cons m messages ih =>
    obtain ⟨hm, hrest⟩ := List.forall_mem_cons.mp h
    rw [List.foldl_cons, ih hrest, alive_handleMessage, List.exists_mem_cons_iff, ← or_assoc]
    refine or_congr_left ?_
    cases htells : m.tells node with
    | none => simp
    | some alive =>
      cases alive with
      | false => exact absurd htells hm
      | true => simp

/-- The replay tells of no errors. -/
theorem tells_message_ne (b : Broadcast Bar) : b.message.tells node ≠ some false := by
  cases b with
  | bookUpdate node' bar =>
    simp only [Broadcast.message, ServerMessage.tells]
    split_ifs <;> exact nofun
  | statusUpdate node' opLog clock =>
    simp only [Broadcast.message, ServerMessage.tells]
    split_ifs <;> exact nofun
  | _ => exact nofun

theorem alive_foldl_message_iff (broadcasts : List (Broadcast Bar)) :
    (((broadcasts.map Broadcast.message).foldl Dashboard.handleMessage D).nodes node).alive ↔
      (D.nodes node).alive ∨ ∃ b ∈ broadcasts, b.message.tells node = some true := by
  rw [alive_foldl_iff]
  · simp only [List.mem_map, exists_exists_and_eq_and]
  · intro m hm
    obtain ⟨b, -, rfl⟩ := List.mem_map.mp hm
    exact tells_message_ne b

/-- For an index, the replay shows the nodes alive whose datasets have a bar there. -/
theorem exists_tells_showBar (d : ReplayData Bar) (total : ℕ) (idx : ℚ) :
    (∃ b ∈ showBar d total idx, b.message.tells node = some true) ↔
      node ∈ d.nodes ∧ barAt (d.bars (ReplayData.ticker node)) idx ≠ none := by
  have hshown (node' : Text) :
      (∃ b ∈ showNode d total idx node', b.message.tells node = some true) ↔
        node' = node ∧ barAt (d.bars (ReplayData.ticker node)) idx ≠ none := by
    by_cases hnode : node' = node
    · subst hnode
      cases hbar : barAt (d.bars (ReplayData.ticker node')) idx <;>
        simp [showNode, hbar, Broadcast.message, ServerMessage.tells]
    · cases hbar : barAt (d.bars (ReplayData.ticker node')) idx <;>
        simp [showNode, hbar, Broadcast.message, ServerMessage.tells, hnode]
  simp only [showBar, List.mem_flatMap]
  constructor
  · rintro ⟨b, ⟨node', hnode', hb⟩, htells⟩
    obtain ⟨rfl, hbar⟩ := (hshown node').mp ⟨b, hb, htells⟩
    exact ⟨hnode', hbar⟩
  · rintro ⟨hnode, hbar⟩
    obtain ⟨b, hb, htells⟩ := (hshown node).mpr ⟨rfl, hbar⟩
    exact ⟨b, ⟨node, hnode, hb⟩, htells⟩

/-- An event of the replay shows the nodes alive that it shows a bar of. -/
theorem exists_tells_onEvent (d : ReplayData Bar) (s : Replay) (event : ReplayEvent) :
    (∃ b ∈ (onEvent d s event).2, b.message.tells node = some true) ↔ node ∈ d.nodes ∧
      ∃ idx ∈ processed d s event, barAt (d.bars (ReplayData.ticker node)) idx ≠ none := by
  cases event with
  | start =>
    simp only [onEvent, startReplay, processed]
    split_ifs <;> simp [Replay.status, Broadcast.message, ServerMessage.tells]
  | tick =>
    simp only [onEvent, replayTick, processed]
    split_ifs
    · simp [stopReplay, Replay.status, Broadcast.message, ServerMessage.tells]
    · have hstatus (s : Replay) (bar : Option (Option Bar)) :
          (s.status bar).message.tells node ≠ some true := fun h => by cases h
      simp only [List.mem_append, List.mem_flatMap, List.mem_singleton]
      constructor
      · rintro ⟨b, ⟨idx, hidx, hb⟩ | rfl, htells⟩
        · obtain ⟨hnode, hbar⟩ := (exists_tells_showBar d s.totalBars idx).mp ⟨b, hb, htells⟩
          exact ⟨hnode, idx, hidx, hbar⟩
        · exact absurd htells (hstatus _ _)
      · rintro ⟨hnode, idx, hidx, hbar⟩
        obtain ⟨b, hb, htells⟩ := (exists_tells_showBar d s.totalBars idx).mpr ⟨hnode, hbar⟩
        exact ⟨b, Or.inl ⟨idx, hidx, hb⟩, htells⟩
  | stop =>
    simp [onEvent, stopReplay, processed, Replay.status, Broadcast.message, ServerMessage.tells]
  | seek cursor =>
    simp [onEvent, seekReplay, processed, Replay.status, Broadcast.message, ServerMessage.tells]
  | speed speed =>
    simp [onEvent, setReplaySpeed, processed, Replay.status, Broadcast.message,
      ServerMessage.tells]

end Tells

/-! ### Whether the dashboard shows what has been noted -/

/-- The dashboard shows the nodes alive of which the last poll has succeeded. -/
def ShowsLiveness (s : Server × Dashboard Bar) : Prop :=
  ∀ node, (s.2.nodes node).alive ↔ s.1.nodeAlive node = some true

/-- The steps after which it still does: a replay shows bars of nodes that are noted alive, a poll
that succeeds brings something while no replay is running, or the node is noted alive already, and
a poll or a command does not fail for a node that is noted alive, but for a poll while no replay is
running. -/
def KeepsLiveness (d : ReplayData Bar) (s : Server) : ServerEvent → Prop
  | .replay event => ∀ node ∈ d.nodes, ∀ idx ∈ processed d s.replay event,
      barAt (d.bars (ReplayData.ticker node)) idx ≠ none → s.nodeAlive node = some true
  | .polled node bookRaw statusRaw => s.nodeAlive node = some true ∨
      ¬ s.replay.running ∧ (truthy bookRaw ≠ none ∨ truthy statusRaw ≠ none)
  | .pollFailed node => s.replay.running → s.nodeAlive node ≠ some true
  | .commandFailed node _ => s.nodeAlive node ≠ some true
  | _ => True

section Liveness

variable {d : ReplayData Bar} {s s' : Server × Dashboard Bar} {node : Text}

/-- A poll that succeeds tells of no error. -/
theorem tells_polled_ne (d : ReplayData Bar) (s : Server) (node' : Text)
    (bookRaw statusRaw : Option Text) :
    ∀ m ∈ (onServerEvent d s (.polled node' bookRaw statusRaw)).2, m.tells node ≠ some false := by
  intro m hm
  simp only [onServerEvent] at hm
  split_ifs at hm
  · exact absurd hm List.not_mem_nil
  · rcases List.mem_append.mp hm with hm | hm <;>
      obtain ⟨raw, -, rfl⟩ := Option.map_eq_some_iff.mp (Option.mem_toList.mp hm) <;>
      simp only [ServerMessage.tells] <;> split_ifs <;> exact nofun

/-- It shows the node alive if it brings something while no replay is running. -/
theorem exists_tells_polled (d : ReplayData Bar) (s : Server) (node' : Text)
    (bookRaw statusRaw : Option Text) :
    (∃ m ∈ (onServerEvent d s (.polled node' bookRaw statusRaw)).2, m.tells node = some true) ↔
      node' = node ∧ ¬ s.replay.running ∧ (truthy bookRaw ≠ none ∨ truthy statusRaw ≠ none) := by
  simp only [onServerEvent]
  cases s.replay.running <;> cases truthy bookRaw <;> cases truthy statusRaw <;>
    simp [ServerMessage.tells]

/-- A step that is about one node. -/
theorem showsLiveness_iff_of_others (node : Text) (h : ShowsLiveness s)
    (hothers : ∀ n, n ≠ node → ((s'.2.nodes n).alive ↔ (s.2.nodes n).alive) ∧
      s'.1.nodeAlive n = s.1.nodeAlive n) :
    ShowsLiveness s' ↔ ((s'.2.nodes node).alive ↔ s'.1.nodeAlive node = some true) := by
  refine ⟨fun hnext => hnext node, fun hnode n => ?_⟩
  by_cases hn : n = node
  · exact hn ▸ hnode
  · obtain ⟨halive, hnoted⟩ := hothers n hn
    rw [halive, hnoted]
    exact h n

/-- An error is shown for its node. -/
theorem alive_nodeError (D : Dashboard Bar) (node error n : Text) :
    ((D.handleMessage (.nodeError node error)).nodes n).alive =
      if node = n then false else (D.nodes n).alive := by
  rw [alive_handleMessage, ServerMessage.tells]
  split_ifs <;> rfl

/-- A step keeps the liveness that is shown exactly if it is one of those. -/
theorem showsLiveness_step_iff (h : ShowsLiveness s) (event : ServerEvent) :
    ShowsLiveness ((dashboardSystem d).step s event) ↔ KeepsLiveness d s.1 event := by
  cases event with
  | replay event =>
    have hshown (node : Text) : ((((dashboardSystem d).step s (.replay event)).2.nodes node).alive ↔
        (s.2.nodes node).alive ∨ node ∈ d.nodes ∧ ∃ idx ∈ processed d s.1.replay event,
          barAt (d.bars (ReplayData.ticker node)) idx ≠ none) := by
      rw [← exists_tells_onEvent]
      exact alive_foldl_message_iff _
    constructor
    · intro hnext node hnode idx hidx hbar
      exact (hnext node).mp ((hshown node).mpr (Or.inr ⟨hnode, idx, hidx, hbar⟩))
    · intro hkeep node
      rw [hshown]
      refine ⟨?_, fun hnoted => Or.inl ((h node).mpr hnoted)⟩
      rintro (halive | ⟨hnode, idx, hidx, hbar⟩)
      · exact (h node).mp halive
      · exact hkeep node hnode idx hidx hbar
  | polled node bookRaw statusRaw =>
    have hshown (n : Text) :
        ((((dashboardSystem d).step s (.polled node bookRaw statusRaw)).2.nodes n).alive ↔
          (s.2.nodes n).alive ∨ node = n ∧ ¬ s.1.replay.running ∧
            (truthy bookRaw ≠ none ∨ truthy statusRaw ≠ none)) :=
      (alive_foldl_iff (tells_polled_ne d s.1 node bookRaw statusRaw)).trans
        (or_congr_right (exists_tells_polled d s.1 node bookRaw statusRaw))
    rw [showsLiveness_iff_of_others node h fun n hn => ?_]
    · rw [hshown, h node]
      have hnoted : ((dashboardSystem d).step s (.polled node bookRaw statusRaw)).1.nodeAlive node =
          some true := Function.update_self ..
      rw [hnoted]
      simp [KeepsLiveness]
    · refine ⟨?_, Function.update_of_ne hn ..⟩
      rw [hshown]
      exact or_iff_left fun heq => hn heq.1.symm
  | pollFailed node =>
    by_cases hnoted : s.1.nodeAlive node = some false
    · have hsame : (dashboardSystem d).step s (.pollFailed node) = s := by
        simp only [dashboardSystem, onServerEvent, if_pos hnoted, List.foldl_nil]
      rw [hsame]
      exact iff_of_true h fun _ => by rw [hnoted]; exact nofun
    have hstep : (dashboardSystem d).step s (.pollFailed node) =
        ({ s.1 with nodeAlive := Function.update s.1.nodeAlive node (some false) },
          if s.1.replay.running then s.2
          else s.2.handleMessage (.nodeError node "Connection refused".toList)) := by
      simp only [dashboardSystem, onServerEvent, if_neg hnoted]
      split_ifs <;> rfl
    rw [hstep, showsLiveness_iff_of_others node h fun n hn => ?_]
    · simp only [KeepsLiveness, Function.update_self]
      split_ifs with hrun
      · simp [h node, hrun]
      · simp [alive_nodeError, hrun]
    · refine ⟨?_, Function.update_of_ne hn ..⟩
      dsimp only
      split_ifs
      · exact Iff.rfl
      · rw [alive_nodeError, if_neg (Ne.symm hn)]
  | answered node command response => exact iff_of_true h trivial
  | commandFailed node error =>
    have hstep : (dashboardSystem d).step s (.commandFailed node error) =
        (s.1, s.2.handleMessage (.nodeError node error)) := rfl
    rw [hstep, showsLiveness_iff_of_others node h fun n hn => ?_]
    · rw [alive_nodeError, if_pos rfl]
      simp [KeepsLiveness]
    · rw [alive_nodeError, if_neg (Ne.symm hn)]
      exact ⟨Iff.rfl, rfl⟩
  | refused node => exact iff_of_true h trivial

/-- **What the dashboard shows of the nodes.** In every state of a run the dashboard shows the nodes
alive of which the last poll has succeeded, if and only if the steps of the run keep it so. -/
theorem liveness_along_iff {events : List ServerEvent}
    (h : (dashboardSystem d).Enables (dashboardSystem d).init events) :
    (dashboardSystem d).Along ShowsLiveness (dashboardSystem d).init events ↔
      (dashboardSystem d).Guarded (fun s => KeepsLiveness d s.1) (dashboardSystem d).init events :=
  along_iff_guarded (fun _ hs => hs) (fun _ event hs _ => (showsLiveness_step_iff hs event).mpr)
    (fun _ event hs _ hno hnext => hno ((showsLiveness_step_iff hs event).mp hnext))
    (fun _ => iff_of_false Bool.false_ne_true nofun) h

/-- The data of one node with one bar. -/
def oneNode : ReplayData ℕ where
  nodes := ["node-a".toList]
  tickerBars := [("AAPL".toList, [7])]
  length_lt := by simp

/-- A command fails for a node that has been polled. -/
def pollAndFail : List ServerEvent :=
  [.polled "node-a".toList (some "BIDS".toList) none,
    .commandFailed "node-a".toList "read ECONNRESET".toList]

theorem liveness_along_iff_pollAndFail : ¬ (dashboardSystem oneNode).Along ShowsLiveness
    (dashboardSystem oneNode).init pollAndFail := by
  have hmem : "node-a".toList ∈ oneNode.nodes := List.mem_singleton_self _
  have hls : (dashboardSystem oneNode).Enables (dashboardSystem oneNode).init pollAndFail :=
    ⟨hmem, hmem, trivial⟩
  rw [liveness_along_iff hls]
  rintro ⟨-, hkeep, -⟩
  exact hkeep (show Function.update (fun _ => none) "node-a".toList (some true) "node-a".toList =
    some true from Function.update_self ..)

end Liveness

/-! ### The chart -/

/-- The last elements of what is behind the last elements. -/
theorem rtake_rtake_append {α : Type*} (n : ℕ) (l l' : List α) :
    (l.rtake n ++ l').rtake n = (l ++ l').rtake n := by
  rw [List.rtake_eq_reverse_take_reverse, List.rtake_eq_reverse_take_reverse,
    List.rtake_eq_reverse_take_reverse, List.reverse_append, List.reverse_reverse,
    List.reverse_append, List.take_append, List.take_append, List.take_take]
  congr 3
  omega

section Charts

variable {d : ReplayData Bar} {node : Text}

/-- The bars that a message brings for the chart of a node. -/
def ServerMessage.charts (node : Text) : ServerMessage Bar → List Bar
  | .barUpdate node' _ bar _ _ =>
    if (if node' = [] then "node-a".toList else node') = node then [bar] else []
  | _ => []

/-- The chart has the last 300 of the bars. -/
def Charts (node : Text) (D : Dashboard Bar) (bars : List Bar) : Prop :=
  D.priceHistories node = bars.rtake 300

theorem Charts.handleMessage {D : Dashboard Bar} {bars : List Bar} (h : Charts node D bars)
    (m : ServerMessage Bar) : Charts node (D.handleMessage m) (bars ++ m.charts node) := by
  cases m with
  | barUpdate node' ticker bar cursor total =>
    simp only [Charts, Dashboard.handleMessage, ServerMessage.charts]
    generalize (if node' = [] then "node-a".toList else node') = nodeId
    have hkept (next : List Bar) :
        (if 300 < next.length then next.drop (next.length - 300) else next) = next.rtake 300 := by
      split_ifs with hlong
      · rfl
      · rw [List.rtake, Nat.sub_eq_zero_of_le (Nat.le_of_not_lt hlong), List.drop_zero]
    by_cases hnode : nodeId = node
    · subst hnode
      rw [Function.update_self, hkept, h, rtake_rtake_append, if_pos rfl]
    · rw [Function.update_of_ne (Ne.symm hnode), if_neg hnode, List.append_nil]
      exact h
  | _ =>
    change Charts node (D.handleMessage _) (bars ++ [])
    rw [List.append_nil]
    exact h

theorem Charts.foldl {D : Dashboard Bar} {bars : List Bar} (h : Charts node D bars)
    (messages : List (ServerMessage Bar)) :
    Charts node (messages.foldl Dashboard.handleMessage D)
      (bars ++ messages.flatMap (ServerMessage.charts node)) := by
  induction messages generalizing D bars with
  | nil =>
    rw [List.flatMap_nil, List.append_nil]
    exact h
  | cons m messages ih =>
    rw [List.flatMap_cons, ← List.append_assoc]
    exact ih (h.handleMessage m)

/-- The bars of a node that an event shows. -/
def barsShown (d : ReplayData Bar) (node : Text) (s : Server × Dashboard Bar) :
    ServerEvent → List Bar
  | .replay event => (processed d s.1.replay event).filterMap fun idx =>
      barAt (d.bars (ReplayData.ticker node)) idx
  | _ => []

/-- The replay sends bars of configured nodes only. -/
theorem mem_nodes_of_barUpdate {s : Replay} {event : ReplayEvent} {ticker : Text} {bar : Bar}
    {cursor : ℚ} {total : ℕ} (h : .barUpdate node ticker bar cursor total ∈ (onEvent d s event).2) :
    node ∈ d.nodes := by
  cases event with
  | tick =>
    simp only [onEvent, replayTick] at h
    split_ifs at h
    · cases List.mem_singleton.mp h
    · rcases List.mem_append.mp h with h | h
      · obtain ⟨idx, -, h⟩ := List.mem_flatMap.mp h
        obtain ⟨node', hnode', h⟩ := List.mem_flatMap.mp h
        rw [showNode] at h
        cases hbar : barAt (d.bars (ReplayData.ticker node')) idx <;> simp [hbar] at h
        exact h.1 ▸ hnode'
      · cases List.mem_singleton.mp h
  | start =>
    simp only [onEvent, startReplay] at h
    split_ifs at h
    · exact absurd h List.not_mem_nil
    all_goals cases List.mem_singleton.mp h
  | stop => cases List.mem_singleton.mp h
  | seek => cases List.mem_singleton.mp h
  | speed => cases List.mem_singleton.mp h

/-- What an event of the replay sends for the chart of a node. -/
theorem flatMap_charts_onEvent (hnodup : d.nodes.Nodup) (hnames : [] ∉ d.nodes)
    (hnode : node ∈ d.nodes) (s : Replay) (event : ReplayEvent) :
    ((onEvent d s event).2.map Broadcast.message).flatMap (ServerMessage.charts node) =
      (processed d s event).filterMap fun idx => barAt (d.bars (ReplayData.ticker node)) idx := by
  have hbars (b : Broadcast Bar) (hb : b ∈ (onEvent d s event).2) :
      b.message.charts node = (barsFor node b).map Prod.snd := by
    cases b with
    | barUpdate node' ticker bar cursor total =>
      have hne : node' ≠ [] := fun heq => hnames (heq ▸ mem_nodes_of_barUpdate hb)
      simp only [Broadcast.message, ServerMessage.charts, barsFor, if_neg hne]
      split_ifs <;> rfl
    | _ => rfl
  calc ((onEvent d s event).2.map Broadcast.message).flatMap (ServerMessage.charts node)
      = ((onEvent d s event).2.flatMap (barsFor node)).map Prod.snd := by
        rw [List.flatMap_map, List.map_flatMap]
        exact List.flatMap_congr hbars
    _ = (processed d s event).filterMap fun idx => barAt (d.bars (ReplayData.ticker node)) idx := by
        rw [flatMap_barsFor_onEvent d s event hnodup hnode, List.map_flatMap,
          List.filterMap_eq_flatMap_toList]
        refine List.flatMap_congr fun idx _ => ?_
        cases barAt (d.bars (ReplayData.ticker node)) idx <;> rfl

/-- What an event sends for the chart of a node. -/
theorem flatMap_charts_onServerEvent (hnodup : d.nodes.Nodup) (hnames : [] ∉ d.nodes)
    (hnode : node ∈ d.nodes) (s : Server × Dashboard Bar) (event : ServerEvent) :
    (onServerEvent d s.1 event).2.flatMap (ServerMessage.charts node) =
      barsShown d node s event := by
  cases event with
  | replay event => exact flatMap_charts_onEvent hnodup hnames hnode s.1.replay event
  | polled node' bookRaw statusRaw =>
    simp only [onServerEvent, barsShown]
    cases s.1.replay.running <;> cases truthy bookRaw <;> cases truthy statusRaw <;> rfl
  | pollFailed node' =>
    simp only [onServerEvent, barsShown]
    split_ifs <;> rfl
  | _ => rfl

/-- **The charts of the dashboard.** Whatever happens in between, the chart of a node shows the last
300 of the bars of its dataset that the replay has shown. -/
theorem priceHistories_eq (hnodup : d.nodes.Nodup) (hnames : [] ∉ d.nodes) (hnode : node ∈ d.nodes)
    (events : List ServerEvent) :
    ((dashboardSystem d).run (dashboardSystem d).init events).2.priceHistories node =
      ((dashboardSystem d).emitted (barsShown d node)
        (dashboardSystem d).init events).rtake 300 := by
  have hrun (s : Server × Dashboard Bar) (bars : List Bar) (h : Charts node s.2 bars) :
      Charts node ((dashboardSystem d).run s events).2
        (bars ++ (dashboardSystem d).emitted (barsShown d node) s events) := by
    induction events generalizing s bars with
    | nil =>
      rw [emitted, List.append_nil]
      exact h
    | cons event events ih =>
      rw [run_cons, emitted, ← List.append_assoc]
      refine ih _ _ ?_
      rw [← flatMap_charts_onServerEvent hnodup hnames hnode]
      exact h.foldl _
  exact hrun _ [] (List.rtake_nil 300).symm

/-- The replay is at a bar and goes on by a hundred bars a tick. -/
structure Playing (d : ReplayData Bar) (c : ℕ) (s : Replay) : Prop where
  atBar : AtBar d c s
  running : s.running = true
  speed : s.speed = (100 : ℕ)

/-- A tick shows the next hundred bars. -/
theorem Playing.tick {c : ℕ} {s : Replay} (h : Playing d c s) (hle : c + 100 ≤ d.maxBars) :
    Playing d (c + 100) ((marketReplay d).step s .tick) ∧
      processed d s .tick = (List.range' c 100).map Nat.cast := by
  have hlt : c < d.maxBars := by omega
  have hturns : turns d s = 100 := by
    have hmin : min ((100 : ℕ) : ℚ) (d.maxBars - c : ℕ) = (100 : ℕ) :=
      min_eq_left (by exact_mod_cast (by omega : 100 ≤ d.maxBars - c))
    rw [turns, h.atBar.barsThisTick_eq, h.speed, hmin, Nat.ceil_natCast]
  have hnext := h.atBar.tick h.running hlt (onBars_tick_of_whole h.speed)
  obtain ⟨hstep, hshown⟩ := tick_run h.running (h.atBar.cursor_lt_iff.mpr hlt)
  rw [hturns] at hnext
  refine ⟨⟨hnext, ?_, ?_⟩, by rw [hshown, h.atBar.tickIndices_eq, hturns]⟩
  · rw [hstep]
    exact h.running
  · rw [hstep]
    exact h.speed

/-- Four ticks at the highest speed, and a poll that fails. -/
def fourTicks : List ServerEvent :=
  [.replay (.speed (some (.finite 100))), .replay .start, .replay .tick,
    .pollFailed "node-b".toList, .replay .tick, .replay .tick, .replay .tick]

/-- What the four ticks show of a node. -/
theorem emitted_fourTicks (hmax : 400 ≤ d.maxBars) (node : Text) :
    (dashboardSystem d).emitted (barsShown d node) (dashboardSystem d).init fourTicks =
      (List.range 400).filterMap fun k => (d.bars (ReplayData.ticker node))[
        k % (d.bars (ReplayData.ticker node)).length]? := by
  have hbars : 0 < d.maxBars := by omega
  set s₁ := (marketReplay d).step ((marketReplay d).step (.init d)
    (.speed (some (.finite 100)))) .start with hs₁
  have hspeed : s₁.speed = (100 : ℕ) := by
    norm_num [hs₁, marketReplay, onEvent, orElse, clamp]
  have hfirst : Playing d 0 s₁ := by
    refine ⟨⟨?_, Nat.zero_le _, ?_⟩, startReplay_running _ _ hbars, hspeed⟩
    · simp [hs₁, marketReplay, onEvent, startReplay_cursor _ _ hbars, Replay.init]
    · rw [hspeed]
      norm_num
  obtain ⟨hsecond, hshown₁⟩ := hfirst.tick (by omega)
  obtain ⟨hthird, hshown₂⟩ := hsecond.tick (by omega)
  obtain ⟨hfourth, hshown₃⟩ := hthird.tick (by omega)
  obtain ⟨-, hshown₄⟩ := hfourth.tick (by omega)
  have hindices : List.range 400 = List.range' 0 100 ++ (List.range' 100 100 ++
      (List.range' 200 100 ++ List.range' 300 100)) := by
    rw [List.range_eq_range', List.range'_append_1, List.range'_append_1, List.range'_append_1]
  have hemitted :
      (dashboardSystem d).emitted (barsShown d node) (dashboardSystem d).init fourTicks =
        ((List.range 400).map Nat.cast).filterMap
          fun idx => barAt (d.bars (ReplayData.ticker node)) idx := by
    rw [hindices, List.map_append, List.map_append, List.map_append, List.filterMap_append,
      List.filterMap_append, List.filterMap_append, ← hshown₁, ← hshown₂, ← hshown₃, ← hshown₄]
    simp only [emitted, fourTicks, barsShown, List.append_nil]
    rfl
  rw [hemitted, List.filterMap_map]
  simp only [Function.comp_def, barAt_natCast]

/-- Two nodes, with datasets of 400 and of two bars. -/
def twoCharts : ReplayData ℕ where
  nodes := ["node-a".toList, "node-b".toList]
  tickerBars := [("AAPL".toList, List.range 400), ("MSFT".toList, [7, 8])]
  length_lt := by simp

/-- The chart of `node-a` has lost its first hundred bars, and that of `node-b` shows its two bars
over and over. -/
theorem priceHistories_eq_fourTicks :
    ((dashboardSystem twoCharts).run (dashboardSystem twoCharts).init
        fourTicks).2.priceHistories "node-a".toList = List.range' 100 300 ∧
      ((dashboardSystem twoCharts).run (dashboardSystem twoCharts).init
        fourTicks).2.priceHistories "node-b".toList = (List.replicate 150 [7, 8]).flatten := by
  have hmax : 400 ≤ twoCharts.maxBars := by simp [twoCharts, ReplayData.maxBars]
  have hnames : [] ∉ twoCharts.nodes := by decide
  have hnodup : twoCharts.nodes.Nodup := by decide
  have hmema : "node-a".toList ∈ twoCharts.nodes := by decide
  have hmemb : "node-b".toList ∈ twoCharts.nodes := by decide
  have ha := priceHistories_eq hnodup hnames hmema fourTicks
  have hb := priceHistories_eq hnodup hnames hmemb fourTicks
  rw [emitted_fourTicks hmax] at ha hb
  exact ⟨ha.trans (by decide +kernel), hb.trans (by decide +kernel)⟩

end Charts

end Bridge

end Convergence
