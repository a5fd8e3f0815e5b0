import Convergence.Gossip.Node
import Convergence.Gossip.PeerChoice
import Mathlib.Data.List.Forall2

/-!
# Runs over different contents of memory

Two runs of a node with the same inputs, whose memories held different values where the constructor
of an `Order` leaves its fields uninitialised. The runs stay in step: they differ at most in the
orders of the cancellations that clients of the node have created, and these orders influence
nothing but the bytes that are sent.

## Main definitions

* `SendTurn`, `Sender`, `senderSystem`: the runs of a node with all that it sends.
* `Common`, `SendTurn.Alike`, `SameHistory`: the same inputs, over other contents of memory.
* `LogEntry.IsUnassigned`, `SendTurn.Clean`: no operation with unassigned fields is selected.
* `Parallel`: two calls that append alike operations and do the same otherwise.
* `Sends`: datagrams that differ at most in what memory held.

## Main results

* `SendTurn.Alike.sends`: what related runs send in a turn.
* `Sender.Alike.step`: related runs stay related.
-/

namespace Convergence

open TransitionSystem

/-! ### Runs -/

/-- A turn of a node, or a heartbeat. -/
inductive SendTurn
  | turn (l : NodeTurn)
  | heartbeat (choice : ℕ)

/-- The engine after a turn, and what it sends. -/
def SendTurn.run (φ : GoldenRatio) (e : GossipEngine) : SendTurn → GossipEngine × List Datagram
  | turn l => l.run φ e
  | heartbeat choice => (e, e.heartbeat choice)

/-- Clients do not make the calls of the receiving thread. -/
def SendTurn.IsOwn : SendTurn → Prop
  | turn l => l.IsOwn
  | heartbeat _ => True

/-- The turn is the call of a client. -/
def SendTurn.isClient : SendTurn → Bool
  | turn (.client _) => true
  | _ => false

/-- An operation of a log, and whether a client of the node has created it. -/
structure LogEntry where
  op : Operation ℚ
  created : Bool

/-- The order of the operation is as memory was. -/
def LogEntry.IsUnassigned (x : LogEntry) : Prop := x.created = true ∧ x.op.IsCancel

/-- A node, with its log as entries and all that it has sent. -/
structure Sender where
  engine : GossipEngine
  log : List LogEntry
  sent : List Datagram

/-- The entries of the log after a turn from those before. -/
def Sender.step (φ : GoldenRatio) (s : Sender) (l : SendTurn) : Sender where
  engine := (l.run φ s.engine).1
  log := s.log ++ ((l.run φ s.engine).1.crdtBook.opLog.drop s.log.length).map (⟨·, l.isClient⟩)
  sent := s.sent ++ (l.run φ s.engine).2

/-- The runs of a node from the engine `e`. -/
def senderSystem (φ : GoldenRatio) (e : GossipEngine) : TransitionSystem Sender SendTurn where
  init := ⟨e, e.crdtBook.opLog.map (⟨·, false⟩), []⟩
  enabled _ l := l.IsOwn
  step := Sender.step φ

/-! ### Turns over different contents of memory -/

/-- What two runs have in common: how the contents of their memories are related, and prices among
which are all that the program assigns. -/
structure Common where
  memory : Uninit ℚ → Uninit ℚ → Prop
  assigned : Set ℚ

/-- Any contents, and all prices. -/
def Common.all : Common := ⟨fun _ _ => True, Set.univ⟩

/-- The same call, over related contents of memory. -/
inductive Call.Alike (C : Common) : Call ℚ → Call ℚ → Prop
  | addOrder (side : Side) {price : ℚ} (hprice : price ∈ C.assigned) (quantity : ℤ)
    (oid opId : Str) :
    Alike C (.addOrder side price quantity oid opId)
      (.addOrder side price quantity oid opId)
  | cancelOrder (orderId opId : Str) {u u' : Uninit ℚ} (hu : C.memory u u') :
    Alike C (.cancelOrder orderId opId u) (.cancelOrder orderId opId u')
  | marketOrder (side : Side) (quantity : ℤ) {gen gen' : ℕ → Str × Uninit ℚ}
    (hgen : ∀ n, (gen n).1 = (gen' n).1 ∧ C.memory (gen n).2 (gen' n).2) :
    Alike C (.marketOrder side quantity gen) (.marketOrder side quantity gen')
  | applyRemote (op : Operation ℚ) : Alike C (.applyRemote op) (.applyRemote op)

/-- The prices that a turn assigns: that of a new order, or those of the orders in a message. -/
def SendTurn.assigns : SendTurn → List ℚ
  | turn (.client (.addOrder _ price _ _ _)) => [price]
  | turn (.receive r) => r.msg.operations.map fun op => op.order.price
  | _ => []

/-- The same turn, over related contents of memory. -/
inductive SendTurn.Alike (C : Common) : SendTurn → SendTurn → Prop
  | client {call call' : Call ℚ} (h : call.Alike C call') :
    Alike C (.turn (.client call)) (.turn (.client call'))
  | same {l : SendTurn} (h : l.isClient = false) (hprice : ∀ v ∈ l.assigns, v ∈ C.assigned) :
    Alike C l l

/-- The same inputs in the same order, over any contents of memory. -/
def SameHistory (turns turns' : List SendTurn) : Prop :=
  List.Forall₂ (SendTurn.Alike .all) turns turns'

/-! ### What is selected for sending -/

/-- The entries that a clock does not cover, as `get_operations_since` selects them. -/
def uncovered (peerClock : VectorClock) (log : List LogEntry) : List LogEntry :=
  log.filter fun x => !x.op.clock.happensBefore peerClock && !x.op.clock.sameClock peerClock

/-- No operation with unassigned fields is selected: among the last twenty in a round that pushes,
among those that the clock of a pull or a request does not cover, and among the first twenty of
those for a push-pull. -/
def SendTurn.Clean (φ : GoldenRatio) (s : Sender) : SendTurn → Prop
  | turn (.gossipRound choice) => (s.engine.selectPeer φ choice).2.1.isSome →
    ¬ (s.engine.strategy = .wythoff ∧ (s.engine.selectPeer φ choice).2.2 = .pull) →
    ∀ x ∈ s.log.drop (s.log.length - 20), ¬ x.IsUnassigned
  | turn (.receive r) =>
    (r.msg.type = .gossipPull ∨ r.msg.type = .antiEntropyReq →
      ∀ x ∈ uncovered r.msg.senderClock s.log, ¬ x.IsUnassigned) ∧
    (r.msg.type = .gossipPushPull →
      ∀ x ∈ (uncovered r.msg.senderClock s.log).take 20, ¬ x.IsUnassigned)
  | _ => True

/-! ### Logs over different contents of memory -/

/-- Entries that differ at most in what memory held. -/
inductive LogEntry.Alike (C : Common) : LogEntry → LogEntry → Prop
  | same {x : LogEntry} (h : ¬ x.IsUnassigned) (hprice : x.op.order.price ∈ C.assigned) :
    Alike C x x
  | cancelled (r : CRDTOrderBook ℚ) (orderId opId : Str) {u u' : Uninit ℚ} (hu : C.memory u u') :
    Alike C ⟨r.cancelOperation orderId opId u, true⟩ ⟨r.cancelOperation orderId opId u', true⟩

/-- The replica with another log. -/
def CRDTOrderBook.withLog (r : CRDTOrderBook ℚ) (log : List (Operation ℚ)) : CRDTOrderBook ℚ :=
  { r with opLog := log }

/-- The engine with another log. -/
def GossipEngine.withLog (e : GossipEngine) (log : List (Operation ℚ)) : GossipEngine :=
  { e with crdtBook := e.crdtBook.withLog log }

section Logs

variable {C : Common} {x y : LogEntry}

theorem LogEntry.Alike.clock_eq (h : x.Alike C y) : y.op.clock = x.op.clock := by
  cases h <;> rfl

theorem LogEntry.Alike.isUnassigned_iff (h : x.Alike C y) : y.IsUnassigned ↔ x.IsUnassigned := by
  cases h with
  | same => exact Iff.rfl
  | cancelled r orderId opId hu => exact Iff.rfl

/-- `f` and `f'` do the same to the replica `r`, up to alike entries that they append to its log. -/
def Parallel (C : Common) (created : Bool)
    (f f' : CRDTOrderBook ℚ → CRDTOrderBook ℚ) (r : CRDTOrderBook ℚ) : Prop :=
  ∃ new new' : List LogEntry, (f r).opLog = r.opLog ++ new.map LogEntry.op ∧
    (∀ log, f' (r.withLog log) = (f r).withLog (log ++ new'.map LogEntry.op)) ∧
    List.Forall₂ (LogEntry.Alike C) new new' ∧ ∀ x ∈ new, x.created = created

variable {created : Bool} {f f' g g' : CRDTOrderBook ℚ → CRDTOrderBook ℚ} {r : CRDTOrderBook ℚ}

theorem Parallel.comp (hf : Parallel C created f f' r) (hg : Parallel C created g g' (f r)) :
    Parallel C created (fun r => g (f r)) (fun r => g' (f' r)) r := by
  obtain ⟨new, new', hlog, hother, halike, hcreated⟩ := hf
  obtain ⟨more, more', hlog₂, hother₂, halike₂, hcreated₂⟩ := hg
  refine ⟨new ++ more, new' ++ more', ?_, fun log => ?_, List.rel_append halike halike₂, ?_⟩
  · rw [hlog₂, hlog, List.map_append, List.append_assoc]
  · dsimp only
    rw [hother, hother₂, List.map_append, List.append_assoc]
  · intro x hx
    rcases List.mem_append.mp hx with hx | hx
    exacts [hcreated x hx, hcreated₂ x hx]

/-- Nothing is appended. -/
theorem Parallel.keep (hlog : (f r).opLog = r.opLog)
    (hother : ∀ log, f' (r.withLog log) = (f r).withLog log) : Parallel C created f f' r := by
  refine ⟨[], [], ?_, fun log => ?_, .nil, fun x hx => absurd hx List.not_mem_nil⟩
  · rw [hlog, List.map_nil, List.append_nil]
  · rw [hother, List.map_nil, List.append_nil]

/-- One entry is appended. -/
theorem Parallel.log {op op' : Operation ℚ} (hlog : (f r).opLog = r.opLog ++ [op])
    (hother : ∀ log, f' (r.withLog log) = (f r).withLog (log ++ [op']))
    (halike : LogEntry.Alike C ⟨op, created⟩ ⟨op', created⟩) : Parallel C created f f' r :=
  ⟨[⟨op, created⟩], [⟨op', created⟩], hlog, hother, .cons halike .nil,
    fun x hx => by rw [List.mem_singleton.mp hx]⟩

/-- A branch on what does not depend on the log. -/
theorem Parallel.ite {c : CRDTOrderBook ℚ → Bool} (hc : ∀ log, c (r.withLog log) = c r)
    (hf : c r = true → Parallel C created f f' r) (hg : c r = false → Parallel C created g g' r) :
    Parallel C created (fun r => if c r then f r else g r) (fun r => if c r then f' r else g' r)
      r := by
  cases hr : c r with
  | true =>
    obtain ⟨new, new', hlog, hother, halike⟩ := hf hr
    refine ⟨new, new', ?_, fun log => ?_, halike⟩
    · dsimp only
      rw [hr, if_pos rfl, hlog]
    · dsimp only
      rw [hc, hr, if_pos rfl, if_pos rfl, hother]
  | false =>
    obtain ⟨new, new', hlog, hother, halike⟩ := hg hr
    refine ⟨new, new', ?_, fun log => ?_, halike⟩
    · dsimp only
      rw [hr, if_neg Bool.false_ne_true, hlog]
    · dsimp only
      rw [hc, hr, if_neg Bool.false_ne_true, if_neg Bool.false_ne_true, hother]

theorem parallel_logFills {gen gen' : ℕ → Str × Uninit ℚ}
    (hgen : ∀ n, (gen n).1 = (gen' n).1 ∧ C.memory (gen n).2 (gen' n).2) (fills : List (Fill ℚ)) :
    Parallel C true (fun r => r.logFills gen fills) (fun r => r.logFills gen' fills) r := by
  induction fills generalizing r gen gen' with
  | nil => exact .keep rfl fun log => rfl
  | cons fill fills ih =>
    have hfirst : Parallel C true
        (fun r => r.log (r.cancelOperation fill.orderId (gen 0).1 (gen 0).2))
        (fun r => r.log (r.cancelOperation fill.orderId (gen' 0).1 (gen' 0).2)) r := by
      rw [← (hgen 0).1]
      exact .log rfl (fun log => rfl) (.cancelled r _ _ (hgen 0).2)
    exact .ite (c := fun r => r.book.hasOrder fill.orderId) (fun log => rfl) (fun _ => ih hgen)
      fun _ => hfirst.comp (ih fun n => hgen (n + 1))

theorem parallel_localCancelOrder (orderId opId : Str) {u u' : Uninit ℚ} (hu : C.memory u u') :
    Parallel C true (fun r => (r.localCancelOrder orderId opId u).1)
      (fun r => (r.localCancelOrder orderId opId u').1) r := by
  have heq (u : Uninit ℚ) : (fun r : CRDTOrderBook ℚ => (r.localCancelOrder orderId opId u).1) =
      fun r => if r.book.hasOrder orderId then
        if (r.book.cancelOrder orderId).2 then
          (r.ticked (r.book.cancelOrder orderId).1).log
            ((r.ticked (r.book.cancelOrder orderId).1).cancelOperation orderId opId u)
        else r.ticked (r.book.cancelOrder orderId).1
      else r := by
    funext r
    by_cases hmem : r.book.hasOrder orderId = true
    · rw [CRDTOrderBook.localCancelOrder, if_pos hmem, if_pos hmem]
      dsimp only
      split_ifs <;> rfl
    · rw [CRDTOrderBook.localCancelOrder, if_neg hmem, if_neg hmem]
  rw [heq u, heq u']
  refine .ite (c := fun r => r.book.hasOrder orderId) (fun log => rfl) (fun _ => ?_)
    fun _ => .keep rfl fun log => rfl
  refine .ite (c := fun r => (r.book.cancelOrder orderId).2) (fun log => rfl) (fun _ => ?_)
    fun _ => .keep rfl fun log => rfl
  exact .log rfl (fun log => rfl)
    (.cancelled (r.ticked (r.book.cancelOrder orderId).1) orderId opId hu)

/-- The same call of a client, over other contents of memory. -/
theorem Call.Alike.parallel {call call' : Call ℚ} (h : call.Alike C call') (hlocal : call.IsLocal) :
    Parallel C true (fun r => call.run r) (fun r => call'.run r) r := by
  cases h with
  | addOrder side hprice quantity oid opId =>
    exact .log rfl (fun log => rfl) (.same (fun h => h.2.not_isAdd rfl) hprice)
  | cancelOrder orderId opId hu => exact parallel_localCancelOrder orderId opId hu
  | marketOrder side quantity hgen =>
    have hmatch : Parallel C true (fun r => r.ticked (r.book.matchMarketOrder side quantity).1)
        (fun r => r.ticked (r.book.matchMarketOrder side quantity).1) r :=
      .keep rfl fun log => rfl
    exact hmatch.comp (parallel_logFills hgen _)
  | applyRemote op => exact hlocal.elim

theorem parallel_applyRemoteOperation {op : Operation ℚ} (hprice : op.order.price ∈ C.assigned) :
    Parallel C false (fun r => (r.applyRemoteOperation op).1)
      (fun r => (r.applyRemoteOperation op).1) r := by
  have heq : (fun r : CRDTOrderBook ℚ => (r.applyRemoteOperation op).1) =
      fun r => if decide (op.opId ∈ r.seenOps) then r else
        ({ r with
          book := r.book.applyOperation op
          clock := r.clock.merge op.clock
          clock_owner := r.clock_owner } : CRDTOrderBook ℚ).log op := by
    funext r
    rw [CRDTOrderBook.applyRemoteOperation]
    split_ifs with hseen hdec hdec
    · rfl
    · exact absurd (decide_eq_true hseen) hdec
    · exact absurd (of_decide_eq_true hdec) hseen
    · rfl
  rw [heq]
  refine .ite (c := fun r => decide (op.opId ∈ r.seenOps)) (fun log => rfl)
    (fun _ => .keep rfl fun log => rfl) fun _ => .log rfl (fun log => rfl) (.same ?_ hprice)
  exact fun h => Bool.false_ne_true h.1

theorem parallel_replay {ops : List (Operation ℚ)}
    (hprice : ∀ op ∈ ops, op.order.price ∈ C.assigned) :
    Parallel C false (fun r => r.replay ops) (fun r => r.replay ops) r := by
  induction ops generalizing r with
  | nil => exact .keep rfl fun log => rfl
  | cons op ops ih =>
    obtain ⟨hop, hops⟩ := List.forall_mem_cons.mp hprice
    exact (parallel_applyRemoteOperation hop).comp (ih hops)

end Logs

/-! ### What related runs send -/

/-- The datagram with the operations of some entries. -/
def Datagram.carrying (d : Datagram) (log : List LogEntry) : Datagram :=
  { d with msg := { d.msg with operations := log.map LogEntry.op } }

/-- Two datagrams that differ at most in what memory held. -/
structure Twin (C : Common) where
  frame : Datagram
  left : List LogEntry
  right : List LogEntry
  alike : List.Forall₂ (LogEntry.Alike C) left right

/-- The datagrams differ at most in what memory held, and not at all if and only if `clean`. -/
def Sends (C : Common) (ds ds' : List Datagram) (clean : Prop) : Prop :=
  ∃ twins : List (Twin C), ds = twins.map (fun t => t.frame.carrying t.left) ∧
    ds' = twins.map (fun t => t.frame.carrying t.right) ∧
    (clean ↔ ∀ t ∈ twins, ∀ x ∈ t.left, ¬ x.IsUnassigned)

section Sends

variable {C : Common} {ds₁ ds₁' ds₂ ds₂' : List Datagram}
  {clean clean₁ clean₂ : Prop} {xs ys : List LogEntry}

theorem Sends.nil (h : clean) : Sends C [] [] clean :=
  ⟨[], rfl, rfl, iff_of_true h fun _ ht => absurd ht List.not_mem_nil⟩

theorem Sends.single (d : Datagram) (halike : List.Forall₂ (LogEntry.Alike C) xs ys)
    (h : clean ↔ ∀ x ∈ xs, ¬ x.IsUnassigned) :
    Sends C [d.carrying xs] [d.carrying ys] clean :=
  ⟨[⟨d, xs, ys, halike⟩], rfl, rfl, by rw [h, List.forall_mem_singleton]⟩

/-- A message without operations. -/
theorem Sends.bare {d : Datagram} (h : d.msg.operations = []) (hclean : clean) :
    Sends C [d] [d] clean := by
  have hd : d = d.carrying [] := by rw [Datagram.carrying, List.map_nil, ← h]
  rw [hd]
  exact .single d .nil (iff_of_true hclean fun x hx => absurd hx List.not_mem_nil)

theorem Sends.append (h₁ : Sends C ds₁ ds₁' clean₁) (h₂ : Sends C ds₂ ds₂' clean₂) :
    Sends C (ds₁ ++ ds₂) (ds₁' ++ ds₂') (clean₁ ∧ clean₂) := by
  obtain ⟨twins₁, rfl, rfl, hclean₁⟩ := h₁
  obtain ⟨twins₂, rfl, rfl, hclean₂⟩ := h₂
  refine ⟨twins₁ ++ twins₂, List.map_append.symm, List.map_append.symm, ?_⟩
  rw [hclean₁, hclean₂, List.forall_mem_append]

theorem Sends.congr (h : Sends C ds₁ ds₁' clean₁) (hclean : clean₁ ↔ clean) :
    Sends C ds₁ ds₁' clean := by
  obtain ⟨twins, hds, hds', heq⟩ := h
  exact ⟨twins, hds, hds', hclean.symm.trans heq⟩

/-- An answer, or none where there are no operations. -/
theorem Sends.answer (d : Datagram) {xs' ys' : List LogEntry}
    (halike : List.Forall₂ (LogEntry.Alike C) xs ys)
    (hsent : List.Forall₂ (LogEntry.Alike C) xs' ys') (hnil : xs = [] → xs' = []) :
    Sends C (if xs.map LogEntry.op = [] then [] else [d.carrying xs'])
      (if ys.map LogEntry.op = [] then [] else [d.carrying ys'])
      (∀ x ∈ xs', ¬ x.IsUnassigned) := by
  cases halike with
  | nil =>
    refine .nil fun x hx => ?_
    rw [hnil rfl] at hx
    exact absurd hx List.not_mem_nil
  | cons hx hrest =>
    rw [List.map_cons, List.map_cons, if_neg (List.cons_ne_nil _ _), if_neg (List.cons_ne_nil _ _)]
    exact .single d hsent Iff.rfl

theorem alike_uncovered (c : VectorClock) (halike : List.Forall₂ (LogEntry.Alike C) xs ys) :
    List.Forall₂ (LogEntry.Alike C) (uncovered c xs) (uncovered c ys) := by
  refine List.rel_filter (fun x y h => ?_) halike
  dsimp only
  rw [h.clock_eq]

theorem getOperationsSince_eq {r : CRDTOrderBook ℚ} (h : xs.map LogEntry.op = r.opLog)
    (c : VectorClock) : r.getOperationsSince c = (uncovered c xs).map LogEntry.op := by
  rw [CRDTOrderBook.getOperationsSince, ← h, List.filter_map]
  rfl

end Sends

section Turns

variable {C : Common} {φ : GoldenRatio} {e : GossipEngine} {s s' : Sender}
  {xs ys : List LogEntry}

/-- A state, and one over other contents of memory. -/
structure Sender.Alike (C : Common) (s s' : Sender) : Prop where
  log : s.log.map LogEntry.op = s.engine.crdtBook.opLog
  engine : s'.engine = s.engine.withLog (s'.log.map LogEntry.op)
  alike : List.Forall₂ (LogEntry.Alike C) s.log s'.log

theorem parallel_applyOperations (e : GossipEngine) {ops : List (Operation ℚ)}
    (hprice : ∀ op ∈ ops, op.order.price ∈ C.assigned) :
    ∃ new new' : List LogEntry,
      (e.applyOperations ops).crdtBook.opLog = e.crdtBook.opLog ++ new.map LogEntry.op ∧
      (∀ log, (e.withLog log).applyOperations ops =
        (e.applyOperations ops).withLog (log ++ new'.map LogEntry.op)) ∧
      List.Forall₂ (LogEntry.Alike C) new new' ∧ ∀ x ∈ new, x.created = false := by
  obtain ⟨new, new', hnew, hother, hrest⟩ := parallel_replay hprice (r := e.crdtBook)
  exact ⟨new, new', hnew, fun log => congrArg (fun r => { e with crdtBook := r }) (hother log),
    hrest⟩

/-- Entries that have just come in are assigned. -/
theorem take_uncovered_append (c : VectorClock) {new : List LogEntry}
    (h : ∀ x ∈ new, x.created = false) :
    (∀ x ∈ (uncovered c (xs ++ new)).take 20, ¬ x.IsUnassigned) ↔
      ∀ x ∈ (uncovered c xs).take 20, ¬ x.IsUnassigned := by
  rw [uncovered, List.filter_append, List.take_append, List.forall_mem_append]
  refine and_iff_left fun x hx hun => ?_
  exact Bool.false_ne_true
    ((h x (List.mem_of_mem_filter (List.mem_of_mem_take hx))).symm.trans hun.1)

/-- The answer to a push-pull, over other contents of memory. -/
theorem sends_reply_pushPull (hlog : xs.map LogEntry.op = e.crdtBook.opLog)
    (halike : List.Forall₂ (LogEntry.Alike C) xs ys) {msg : Message}
    (hpushPull : msg.type = .gossipPushPull)
    (hprice : ∀ op ∈ msg.operations, op.order.price ∈ C.assigned) (host : Str) (port : ℕ) :
    Sends C ((e.reply msg).2.map (⟨·, host, port⟩))
      (((e.withLog (ys.map LogEntry.op)).reply msg).2.map (⟨·, host, port⟩))
      (∀ x ∈ (uncovered msg.senderClock xs).take 20, ¬ x.IsUnassigned) := by
  have hpush : msg.type ≠ .gossipPush := by
    simp [hpushPull, MessageType.gossipPush, MessageType.gossipPushPull]
  obtain ⟨new, new', hnew, hother, hnewAlike, hcreated⟩ := parallel_applyOperations e hprice
  have hops := @getOperationsSince_eq (xs ++ new) (e.applyOperations msg.operations).crdtBook
    (by rw [List.map_append, hlog, hnew]) msg.senderClock
  have hops' := @getOperationsSince_eq (ys ++ new')
    ((e.applyOperations msg.operations).withLog ((ys ++ new').map LogEntry.op)).crdtBook rfl
    msg.senderClock
  have hsent := alike_uncovered msg.senderClock (List.rel_append halike hnewAlike)
  rw [GossipEngine.reply, GossipEngine.reply, if_neg hpush, if_pos hpushPull, if_neg hpush,
    if_pos hpushPull, hother, ← List.map_append]
  simp only [hops, hops', apply_ite (List.map _), List.map_nil, List.map_singleton,
    ← List.map_take]
  refine (Sends.answer
    ⟨(e.applyOperations msg.operations).message .gossipPush [], host, port⟩ hsent
    (List.forall₂_take 20 hsent) fun hnil => by rw [hnil, List.take_nil]).congr ?_
  exact take_uncovered_append msg.senderClock hcreated

/-- The messages of the `switch`, over other contents of memory. -/
theorem sends_reply (hlog : xs.map LogEntry.op = e.crdtBook.opLog)
    (halike : List.Forall₂ (LogEntry.Alike C) xs ys) {msg : Message}
    (hprice : ∀ op ∈ msg.operations, op.order.price ∈ C.assigned) (host : Str) (port : ℕ) :
    Sends C ((e.reply msg).2.map (⟨·, host, port⟩))
      (((e.withLog (ys.map LogEntry.op)).reply msg).2.map (⟨·, host, port⟩))
      ((msg.type = .gossipPull ∨ msg.type = .antiEntropyReq →
          ∀ x ∈ uncovered msg.senderClock xs, ¬ x.IsUnassigned) ∧
        (msg.type = .gossipPushPull →
          ∀ x ∈ (uncovered msg.senderClock xs).take 20, ¬ x.IsUnassigned)) := by
  have hops := getOperationsSince_eq hlog msg.senderClock
  have hops' := @getOperationsSince_eq ys (e.withLog (ys.map LogEntry.op)).crdtBook rfl
    msg.senderClock
  have hsent := alike_uncovered msg.senderClock halike
  by_cases hpush : msg.type = .gossipPush
  · rw [GossipEngine.reply, GossipEngine.reply, if_pos hpush, if_pos hpush]
    exact .nil (by simp [hpush, MessageType.gossipPush, MessageType.gossipPull,
      MessageType.gossipPushPull, MessageType.antiEntropyReq])
  by_cases hpushPull : msg.type = .gossipPushPull
  · refine (sends_reply_pushPull hlog halike hpushPull hprice host port).congr ?_
    simp [hpushPull, MessageType.gossipPull, MessageType.gossipPushPull,
      MessageType.antiEntropyReq]
  by_cases hpull : msg.type = .gossipPull
  · rw [GossipEngine.reply, GossipEngine.reply, if_neg hpush, if_neg hpushPull, if_pos hpull,
      if_neg hpush, if_neg hpushPull, if_pos hpull]
    simp only [hops, hops', apply_ite (List.map _), List.map_nil, List.map_singleton]
    refine (Sends.answer ⟨e.message .gossipPush [], host, port⟩ hsent hsent id).congr ?_
    simp [hpull, MessageType.gossipPull, MessageType.gossipPushPull, MessageType.antiEntropyReq]
  by_cases hreq : msg.type = .antiEntropyReq
  · rw [GossipEngine.reply, GossipEngine.reply, if_neg hpush, if_neg hpushPull, if_neg hpull,
      if_pos hreq, if_neg hpush, if_neg hpushPull, if_neg hpull, if_pos hreq]
    simp only [hops, hops', List.map_singleton]
    refine (Sends.single ⟨e.message .antiEntropyRes [], host, port⟩ hsent Iff.rfl).congr ?_
    simp [hreq, MessageType.gossipPull, MessageType.gossipPushPull, MessageType.antiEntropyReq]
  · rw [GossipEngine.reply, GossipEngine.reply, if_neg hpush, if_neg hpushPull, if_neg hpull,
      if_neg hreq, if_neg hpush, if_neg hpushPull, if_neg hpull, if_neg hreq]
    have hclean : ∀ p q : Prop, (msg.type = .gossipPull ∨ msg.type = .antiEntropyReq → p) ∧
        (msg.type = .gossipPushPull → q) := by
      simp [hpushPull, hpull, hreq]
    split_ifs
    · exact .nil (hclean _ _)
    · exact .nil (hclean _ _)

theorem selectPeer_withLog (e : GossipEngine) (log : List (Operation ℚ)) (choice : ℕ) :
    (e.withLog log).selectPeer φ choice =
      ((e.selectPeer φ choice).1.withLog log, (e.selectPeer φ choice).2) := by
  have hstrategy : (e.withLog log).strategy = e.strategy := rfl
  rw [GossipEngine.selectPeer, GossipEngine.selectPeer, hstrategy]
  by_cases hpeers : e.peers = []
  · cases e.strategy <;> simp [GossipEngine.selectRoundRobinPeer, GossipEngine.selectWythoffPeer,
      GossipEngine.withLog, hpeers]
  · cases e.strategy <;> simp [GossipEngine.selectRoundRobinPeer, GossipEngine.selectWythoffPeer,
      GossipEngine.withLog, hpeers]
    rfl

theorem sends_roundMessage (hlog : xs.map LogEntry.op = e.crdtBook.opLog)
    (halike : List.Forall₂ (LogEntry.Alike C) xs ys) (mode : SyncMode) (host : Str) (port : ℕ) :
    Sends C [⟨e.roundMessage mode, host, port⟩]
      [⟨(e.withLog (ys.map LogEntry.op)).roundMessage mode, host, port⟩]
      (¬ (e.strategy = .wythoff ∧ mode = .pull) →
        ∀ x ∈ xs.drop (xs.length - 20), ¬ x.IsUnassigned) := by
  have hstrategy : (e.withLog (ys.map LogEntry.op)).strategy = e.strategy := rfl
  have hlog' : (e.withLog (ys.map LogEntry.op)).crdtBook.opLog = ys.map LogEntry.op := rfl
  rw [GossipEngine.roundMessage, GossipEngine.roundMessage, hstrategy, hlog', ← hlog]
  by_cases hpull : e.strategy = .wythoff ∧ mode = .pull
  · rw [if_pos hpull, if_pos hpull]
    exact .bare rfl fun h => absurd hpull h
  · rw [if_neg hpull, if_neg hpull]
    simp only [List.length_map, ← List.map_drop, ← halike.length_eq]
    exact .single ⟨e.message (if e.strategy = .wythoff then .gossipPush else .gossipPushPull) [],
      host, port⟩ (List.forall₂_drop _ halike) (forall_prop_of_true hpull)

/-- A gossip round, over other contents of memory. -/
theorem sends_doGossipRound (h : s.Alike C s') (choice : ℕ) :
    Sends C (s.engine.doGossipRound φ choice).2 (s'.engine.doGossipRound φ choice).2
      ((SendTurn.turn (.gossipRound choice)).Clean φ s) := by
  rw [GossipEngine.doGossipRound, GossipEngine.doGossipRound, h.engine, selectPeer_withLog,
    SendTurn.Clean]
  cases hpeer : (s.engine.selectPeer φ choice).2.1 with
  | none => exact .nil nofun
  | some p =>
    have hlog : s.log.map LogEntry.op = (s.engine.selectPeer φ choice).1.crdtBook.opLog := by
      rw [GossipEngine.selectPeer_fst, h.log]
    have hstrategy : (s.engine.selectPeer φ choice).1.strategy = s.engine.strategy := by
      rw [GossipEngine.selectPeer_fst]
    refine (sends_roundMessage hlog h.alike _ p.host p.port).congr ?_
    rw [hstrategy, Option.isSome_some, forall_prop_of_true rfl]

/-- A message without operations, to a peer if there is one. -/
theorem sends_message (e : GossipEngine) (log : List (Operation ℚ)) (type : MessageType)
    (peer : Option PeerInfo) :
    Sends C (peer.map fun p => ⟨e.message type [], p.host, p.port⟩).toList
      (peer.map fun p => ⟨(e.withLog log).message type [], p.host, p.port⟩).toList True := by
  cases peer with
  | none => exact .nil trivial
  | some p => exact .bare rfl trivial

/-- **One turn.** What related runs send in the same turn. -/
theorem SendTurn.Alike.sends {l l' : SendTurn} (hl : l.Alike C l') (h : s.Alike C s') :
    Sends C (l.run φ s.engine).2 (l'.run φ s'.engine).2 (l.Clean φ s) := by
  cases hl with
  | client => exact .nil trivial
  | same hclient hprice =>
    cases l with
    | heartbeat choice =>
      rw [h.engine]
      exact sends_message s.engine _ .heartbeat _
    | turn l =>
      cases l with
      | client call => exact absurd hclient Bool.true_eq_false_eq_False.elim
      | gossipRound choice => exact sends_doGossipRound h choice
      | checkLiveness now => exact .nil trivial
      | receive r =>
        have hreply := @sends_reply C { s.engine with
          peers := (touchPeers r.msg.senderId r.senderHost r.now s.engine.peers).1 } _ _ h.log
          h.alike r.msg (List.forall_mem_map.mp hprice) r.senderHost r.senderPort
        have hrequest := sends_message (C := C) { s.engine with
          peers := (touchPeers r.msg.senderId r.senderHost r.now s.engine.peers).1 }
          (s'.log.map LogEntry.op) .antiEntropyReq
          (touchPeers r.msg.senderId r.senderHost r.now s.engine.peers).2
        rw [h.engine]
        exact (hrequest.append hreply).congr (and_iff_right trivial)

/-- By its type, a message is applied or not. -/
theorem reply_fst_cases (msg : Message) :
    (∀ e : GossipEngine, (e.reply msg).1 = e.applyOperations msg.operations) ∨
      ∀ e : GossipEngine, (e.reply msg).1 = e := by
  by_cases happly : msg.type = .gossipPush ∨ msg.type = .gossipPushPull ∨
      msg.type = .antiEntropyRes
  · refine Or.inl fun e => ?_
    rw [GossipEngine.reply]
    rcases happly with h | h | h <;> simp [h, MessageType.gossipPush, MessageType.gossipPushPull,
      MessageType.gossipPull, MessageType.antiEntropyReq, MessageType.antiEntropyRes]
  · refine Or.inr fun e => ?_
    obtain ⟨hpush, hpushPull, hres⟩ := not_or.mp happly |>.imp_right not_or.mp
    rw [GossipEngine.reply, if_neg hpush, if_neg hpushPull]
    split_ifs
    all_goals rfl

/-- What a turn does to the log, over other contents of memory. -/
theorem SendTurn.Alike.exists_new {l l' : SendTurn} (hl : l.Alike C l') (hown : l.IsOwn)
    (e : GossipEngine) : ∃ new new' : List LogEntry,
      (l.run φ e).1.crdtBook.opLog = e.crdtBook.opLog ++ new.map LogEntry.op ∧
      (∀ log, (l'.run φ (e.withLog log)).1 = (l.run φ e).1.withLog (log ++ new'.map LogEntry.op)) ∧
      List.Forall₂ (LogEntry.Alike C) new new' ∧ ∀ x ∈ new, x.created = l.isClient := by
  cases hl with
  | client hcall =>
    obtain ⟨new, new', hlog, hother, hrest⟩ := hcall.parallel hown (r := e.crdtBook)
    exact ⟨new, new', hlog, fun log => congrArg (fun r => { e with crdtBook := r }) (hother log),
      hrest⟩
  | same hclient hprice =>
    have hkeep (hlog : (l.run φ e).1.crdtBook.opLog = e.crdtBook.opLog)
        (hother : ∀ log, (l.run φ (e.withLog log)).1 = (l.run φ e).1.withLog log) :
        ∃ new new' : List LogEntry,
          (l.run φ e).1.crdtBook.opLog = e.crdtBook.opLog ++ new.map LogEntry.op ∧
          (∀ log, (l.run φ (e.withLog log)).1 =
            (l.run φ e).1.withLog (log ++ new'.map LogEntry.op)) ∧
          List.Forall₂ (LogEntry.Alike C) new new' ∧ ∀ x ∈ new, x.created = l.isClient := by
      refine ⟨[], [], ?_, fun log => ?_, .nil, fun x hx => absurd hx List.not_mem_nil⟩
      · rw [hlog, List.map_nil, List.append_nil]
      · rw [hother, List.map_nil, List.append_nil]
    cases l with
    | heartbeat choice => exact hkeep rfl fun log => rfl
    | turn l =>
      cases l with
      | client call => exact absurd hclient Bool.true_eq_false_eq_False.elim
      | gossipRound choice =>
        refine hkeep ?_ fun log => ?_
        · exact congrArg (fun e => e.crdtBook.opLog) (GossipEngine.selectPeer_fst φ e choice)
        · exact congrArg Prod.fst (selectPeer_withLog e log choice)
      | checkLiveness now => exact hkeep rfl fun log => rfl
      | receive r =>
        obtain happly | hsame := reply_fst_cases r.msg
        · rw [hclient]
          obtain ⟨new, new', hlog, hother, hrest⟩ := parallel_applyOperations
            { e with peers := (touchPeers r.msg.senderId r.senderHost r.now e.peers).1 }
            (List.forall_mem_map.mp hprice)
          refine ⟨new, new', ?_, fun log => ?_, hrest⟩
          · exact (congrArg (fun e => e.crdtBook.opLog) (happly _)).trans hlog
          · exact (happly _).trans ((hother log).trans
              (congrArg (fun e => e.withLog (log ++ new'.map LogEntry.op)) (happly _).symm))
        · refine hkeep (congrArg (fun e => e.crdtBook.opLog) (hsame _)) fun log =>
            (hsame _).trans ?_
          exact congrArg (fun e => e.withLog log) (hsame { e with
            peers := (touchPeers r.msg.senderId r.senderHost r.now e.peers).1 }).symm

theorem created_of_alike {created : Bool} (halike : List.Forall₂ (LogEntry.Alike C) xs ys)
    (h : ∀ x ∈ xs, x.created = created) : ∀ y ∈ ys, y.created = created := by
  induction halike with
  | nil => exact fun y hy => absurd hy List.not_mem_nil
  | cons hxy _ ih =>
    obtain ⟨hx, hxs⟩ := List.forall_mem_cons.mp h
    refine List.forall_mem_cons.mpr ⟨?_, ih hxs⟩
    cases hxy with
    | same => exact hx
    | cancelled => exact hx

/-- What is behind a log, with a mark. -/
theorem map_drop_append {log new : List LogEntry} {created : Bool}
    (h : ∀ x ∈ new, x.created = created) :
    ((log.map LogEntry.op ++ new.map LogEntry.op).drop log.length).map (⟨·, created⟩) = new := by
  rw [List.drop_left' (List.length_map _), List.map_map]
  refine (List.map_congr_left fun x hx => ?_).trans (List.map_id new)
  rw [Function.comp_apply, ← h x hx]
  rfl

/-- Related states stay related. -/
theorem Sender.Alike.step {l l' : SendTurn} (h : s.Alike C s') (hl : l.Alike C l')
    (hown : l.IsOwn) : (s.step φ l).Alike C (s'.step φ l') := by
  obtain ⟨new, new', hlog, hother, halike, hcreated⟩ := hl.exists_new (φ := φ) hown s.engine
  have hclient : l'.isClient = l.isClient := by cases hl <;> rfl
  have hcreated' := created_of_alike halike hcreated
  have hleft : (s.step φ l).log = s.log ++ new := by
    rw [Sender.step, hlog, ← h.log, map_drop_append hcreated]
  have hright : (s'.step φ l').log = s'.log ++ new' := by
    rw [Sender.step, h.engine, hother, hclient]
    exact congrArg (List.append s'.log) (map_drop_append hcreated')
  constructor
  · rw [hleft, List.map_append, h.log]
    exact hlog.symm
  · rw [hright, Sender.step, h.engine, List.map_append]
    exact hother _
  · rw [hleft, hright]
    exact List.rel_append h.alike halike

end Turns

end Convergence
