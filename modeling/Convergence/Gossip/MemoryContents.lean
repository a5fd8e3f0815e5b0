import Convergence.Gossip.DatagramSize
import Convergence.Gossip.ParallelRuns

/-!
# What the contents of memory reach

A `CANCEL_ORDER` that `local_cancel_order` logs has an `Order` whose side, price, quantities and
timestamp nobody has assigned, and `write_operation` serializes it like any other. All other
operations, those of `local_add_order` and those that arrive in messages, have assigned fields. So
what a node sends depends on what its memory held before exactly when it sends a cancellation of its
own.

Two memories tell: one that holds `BUY` in every unassigned side, and one that holds `SELL`. The
bytes sent over the second one have the greater sum.

## Main definitions

* `weight`: the sum of all bytes sent.
* `DependsOnHistory`: the bytes sent are the same over all contents of memory, and all prices sent
  have been assigned.

## Main results

* `Sender.Alike.run_of_clean`, `weight_run`: clean runs and others.
* `dependsOnHistory_iff`.
-/

namespace Convergence

open TransitionSystem

/-! ### Clean runs -/

section Clean

variable {C : Common} {φ : GoldenRatio} {e : GossipEngine} {s s' : Sender}
  {ds ds' : List Datagram} {clean : Prop} {turns turns' : List SendTurn}

theorem eq_of_alike {xs ys : List LogEntry} (halike : List.Forall₂ (LogEntry.Alike C) xs ys)
    (h : ∀ x ∈ xs, ¬ x.IsUnassigned) : xs = ys ∧ ∀ x ∈ xs, x.op.order.price ∈ C.assigned := by
  induction halike with
  | nil => exact ⟨rfl, fun x hx => absurd hx List.not_mem_nil⟩
  | cons hxy _ ih =>
    obtain ⟨hx, hxs⟩ := List.forall_mem_cons.mp h
    obtain ⟨rfl, hprices⟩ := ih hxs
    cases hxy with
    | same _ hprice => exact ⟨rfl, List.forall_mem_cons.mpr ⟨hprice, hprices⟩⟩
    | cancelled => exact absurd ⟨rfl, rfl⟩ hx

/-- What is clean is the same, with assigned prices. -/
theorem Sends.eq_of_clean (h : Sends C ds ds' clean) (hclean : clean) :
    ds = ds' ∧ ∀ d ∈ ds, ∀ op ∈ d.msg.operations, op.order.price ∈ C.assigned := by
  obtain ⟨twins, rfl, rfl, heq⟩ := h
  have hall := heq.mp hclean
  refine ⟨List.map_congr_left fun t ht => ?_, fun d hd op hop => ?_⟩
  · rw [(eq_of_alike t.alike (hall t ht)).1]
  · obtain ⟨t, ht, rfl⟩ := List.mem_map.mp hd
    obtain ⟨x, hx, rfl⟩ := List.mem_map.mp hop
    exact (eq_of_alike t.alike (hall t ht)).2 x hx

/-- Related runs whose turns are clean send the same. -/
theorem Sender.Alike.run_of_clean (h : s.Alike C s')
    (hturns : List.Forall₂ (SendTurn.Alike C) turns turns')
    (hls : (senderSystem φ e).Enables s turns)
    (hclean : (senderSystem φ e).Guarded (fun s l => l.Clean φ s) s turns) :
    ∃ ds, ((senderSystem φ e).run s turns).sent = s.sent ++ ds ∧
      ((senderSystem φ e).run s' turns').sent = s'.sent ++ ds ∧
      ∀ d ∈ ds, ∀ op ∈ d.msg.operations, op.order.price ∈ C.assigned := by
  induction hturns generalizing s s' with
  | nil =>
    exact ⟨[], (List.append_nil _).symm, (List.append_nil _).symm,
      fun d hd => absurd hd List.not_mem_nil⟩
  | @cons l l' turns turns' hl _ ih =>
    obtain ⟨heq, hprices⟩ := (hl.sends h).eq_of_clean hclean.1
    obtain ⟨ds, hsent, hsent', hrest⟩ := ih (h.step hl hls.1) hls.2 hclean.2
    refine ⟨(l.run φ s.engine).2 ++ ds, ?_, ?_, List.forall_mem_append.mpr ⟨hprices, hrest⟩⟩
    · rw [run_cons, ← List.append_assoc]
      exact hsent
    · rw [run_cons, ← List.append_assoc, heq]
      exact hsent'

theorem forall_assigned_iff {xs ys : List LogEntry}
    (halike : List.Forall₂ (LogEntry.Alike C) xs ys) :
    (∀ y ∈ ys, ¬ y.IsUnassigned) ↔ ∀ x ∈ xs, ¬ x.IsUnassigned := by
  induction halike with
  | nil => exact Iff.rfl
  | cons hxy _ ih => rw [List.forall_mem_cons, List.forall_mem_cons, ih, hxy.isUnassigned_iff]

/-- Whether a turn is clean does not depend on the contents of memory. -/
theorem SendTurn.Alike.clean_iff {l l' : SendTurn} (hl : l.Alike C l') (h : s.Alike C s') :
    l'.Clean φ s' ↔ l.Clean φ s := by
  cases hl with
  | client => exact Iff.rfl
  | same hclient hprice =>
    cases l with
    | heartbeat choice => exact Iff.rfl
    | turn l =>
      cases l with
      | client call => exact Iff.rfl
      | gossipRound choice =>
        have hstrategy : s'.engine.strategy = s.engine.strategy := by rw [h.engine]; rfl
        rw [SendTurn.Clean, SendTurn.Clean, hstrategy, h.engine, selectPeer_withLog,
          ← h.alike.length_eq, forall_assigned_iff (List.forall₂_drop _ h.alike)]
      | checkLiveness now => exact Iff.rfl
      | receive r =>
        have hsent := alike_uncovered r.msg.senderClock h.alike
        rw [SendTurn.Clean, SendTurn.Clean, forall_assigned_iff hsent,
          forall_assigned_iff (List.forall₂_take 20 hsent)]

theorem Sender.Alike.guarded_iff (h : s.Alike C s')
    (hturns : List.Forall₂ (SendTurn.Alike C) turns turns')
    (hls : (senderSystem φ e).Enables s turns) :
    (senderSystem φ e).Guarded (fun s l => l.Clean φ s) s' turns' ↔
      (senderSystem φ e).Guarded (fun s l => l.Clean φ s) s turns := by
  induction hturns generalizing s s' with
  | nil => exact Iff.rfl
  | cons hl _ ih => exact and_congr (hl.clean_iff h) (ih (h.step hl hls.1) hls.2)

end Clean

/-! ### Unclean runs -/

/-- The sum of some bytes. -/
def byteSum (bytes : List UInt8) : ℕ := (bytes.map UInt8.toNat).sum

/-- The sum of all bytes of some datagrams. -/
def weight (rnd : ℚ → ℚ) (ds : List Datagram) : ℕ :=
  (ds.map fun d => byteSum (d.msg.serialize rnd)).sum

/-- Memory that holds zeros up to a side. -/
def cleared (side : Side) : Uninit ℚ := ⟨side, 0, 0, 0, 0⟩

/-- Memory that holds `BUY` everywhere, and memory that holds `SELL`. -/
def Common.buySell : Common := ⟨fun u u' => u = cleared .buy ∧ u' = cleared .sell, Set.univ⟩

section Unclean

variable (rnd : ℚ → ℚ) {φ : GoldenRatio} {e : GossipEngine} {s s' : Sender}
  {turns turns' : List SendTurn} {x y : LogEntry}

@[simp] theorem byteSum_append (bytes bytes' : List UInt8) :
    byteSum (bytes ++ bytes') = byteSum bytes + byteSum bytes' := by
  rw [byteSum, List.map_append, List.sum_append]
  rfl

theorem weight_append (ds ds' : List Datagram) :
    weight rnd (ds ++ ds') = weight rnd ds + weight rnd ds' := by
  rw [weight, List.map_append, List.sum_append]
  rfl

theorem length_of_alike (h : x.Alike .buySell y) :
    (operationBytes rnd x.op).length = (operationBytes rnd y.op).length := by
  rw [length_operationBytes, length_operationBytes]
  cases h <;> rfl

/-- The side is part of the bytes. -/
theorem byteSum_of_alike (h : x.Alike .buySell y) :
    byteSum (operationBytes rnd x.op) ≤ byteSum (operationBytes rnd y.op) ∧
      (x.IsUnassigned → byteSum (operationBytes rnd x.op) < byteSum (operationBytes rnd y.op)) := by
  cases h with
  | same hx => exact ⟨le_rfl, fun h => absurd h hx⟩
  | cancelled r orderId opId hu =>
    obtain ⟨rfl, rfl⟩ := hu
    have hless : byteSum (operationBytes rnd (r.cancelOperation orderId opId (cleared .buy))) <
        byteSum (operationBytes rnd (r.cancelOperation orderId opId (cleared .sell))) := by
      simp only [operationBytes, orderBytes, byteSum_append, CRDTOrderBook.cancelOperation,
        Order.uninit, cleared, Bool.false_eq_true, if_false]
      have hside : byteSum [Side.buy.code] < byteSum [Side.sell.code] := Nat.zero_lt_one
      omega
    exact ⟨hless.le, fun _ => hless⟩

theorem byteSum_flatMap_of_alike {xs ys : List LogEntry}
    (halike : List.Forall₂ (LogEntry.Alike .buySell) xs ys) :
    ((xs.map LogEntry.op).flatMap (operationBytes rnd)).length =
        ((ys.map LogEntry.op).flatMap (operationBytes rnd)).length ∧
      byteSum ((xs.map LogEntry.op).flatMap (operationBytes rnd)) ≤
        byteSum ((ys.map LogEntry.op).flatMap (operationBytes rnd)) ∧
      ((¬ ∀ x ∈ xs, ¬ x.IsUnassigned) →
        byteSum ((xs.map LogEntry.op).flatMap (operationBytes rnd)) <
          byteSum ((ys.map LogEntry.op).flatMap (operationBytes rnd))) := by
  induction halike with
  | nil => exact ⟨rfl, le_rfl, fun h => absurd (fun x hx => absurd hx List.not_mem_nil) h⟩
  | @cons x y xs ys hxy _ ih =>
    obtain ⟨hlen, hle, hlt⟩ := ih
    obtain ⟨hle₁, hlt₁⟩ := byteSum_of_alike rnd hxy
    have hlen₁ := length_of_alike rnd hxy
    simp only [List.map_cons, List.flatMap_cons, List.length_append, byteSum_append]
    refine ⟨by omega, by omega, fun h => ?_⟩
    by_cases hx : x.IsUnassigned
    · have := hlt₁ hx
      omega
    · have := hlt fun hxs => h (List.forall_mem_cons.mpr ⟨hx, hxs⟩)
      omega

theorem byteSum_twin (t : Twin .buySell) :
    byteSum ((t.frame.carrying t.left).msg.serialize rnd) ≤
        byteSum ((t.frame.carrying t.right).msg.serialize rnd) ∧
      ((¬ ∀ x ∈ t.left, ¬ x.IsUnassigned) →
        byteSum ((t.frame.carrying t.left).msg.serialize rnd) <
          byteSum ((t.frame.carrying t.right).msg.serialize rnd)) := by
  obtain ⟨hlen, hle, hlt⟩ := byteSum_flatMap_of_alike rnd t.alike
  have hcount : (t.left.map LogEntry.op).length = (t.right.map LogEntry.op).length := by
    rw [List.length_map, List.length_map, t.alike.length_eq]
  have hbody : ((t.frame.carrying t.left).msg.bodyBytes rnd).length =
      ((t.frame.carrying t.right).msg.bodyBytes rnd).length := by
    simp only [Message.bodyBytes, Datagram.carrying, List.length_append, hlen,
      BigEndian.length_encode]
  rw [Message.serialize_eq, Message.serialize_eq, hbody]
  simp only [Message.bodyBytes, Datagram.carrying, byteSum_append, hcount]
  refine ⟨by omega, fun h => ?_⟩
  have := hlt h
  omega

theorem weight_twins (twins : List (Twin .buySell)) :
    weight rnd (twins.map fun t => t.frame.carrying t.left) ≤
        weight rnd (twins.map fun t => t.frame.carrying t.right) ∧
      ((¬ ∀ t ∈ twins, ∀ x ∈ t.left, ¬ x.IsUnassigned) →
        weight rnd (twins.map fun t => t.frame.carrying t.left) <
          weight rnd (twins.map fun t => t.frame.carrying t.right)) := by
  induction twins with
  | nil => exact ⟨le_rfl, fun h => absurd (fun t ht => absurd ht List.not_mem_nil) h⟩
  | cons t twins ih =>
    obtain ⟨hle, hlt⟩ := ih
    obtain ⟨hle₁, hlt₁⟩ := byteSum_twin rnd t
    simp only [weight, List.map_cons, List.sum_cons, List.map_map] at *
    refine ⟨by omega, fun h => ?_⟩
    by_cases ht : ∀ x ∈ t.left, ¬ x.IsUnassigned
    · have := hlt fun htwins => h (List.forall_mem_cons.mpr ⟨ht, htwins⟩)
      omega
    · have := hlt₁ ht
      omega

/-- Over `SELL` a run sends at least the bytes of the run over `BUY`, more if it is not clean. -/
theorem weight_run (h : s.Alike .buySell s')
    (hturns : List.Forall₂ (SendTurn.Alike .buySell) turns turns')
    (hls : (senderSystem φ e).Enables s turns) (hle : weight rnd s.sent ≤ weight rnd s'.sent) :
    weight rnd ((senderSystem φ e).run s turns).sent ≤
        weight rnd ((senderSystem φ e).run s' turns').sent ∧
      (weight rnd s.sent < weight rnd s'.sent ∨
          ¬ (senderSystem φ e).Guarded (fun s l => l.Clean φ s) s turns →
        weight rnd ((senderSystem φ e).run s turns).sent <
          weight rnd ((senderSystem φ e).run s' turns').sent) := by
  induction hturns generalizing s s' with
  | nil => exact ⟨hle, fun hor => hor.resolve_right fun hn => hn trivial⟩
  | @cons l l' turns turns' hl _ ih =>
    obtain ⟨twins, hds, hds', hclean⟩ := hl.sends (φ := φ) h
    obtain ⟨hle₁, hlt₁⟩ := weight_twins rnd twins
    rw [← hds, ← hds', ← hclean] at *
    have hsum := weight_append rnd s.sent (l.run φ s.engine).2
    have hsum' := weight_append rnd s'.sent (l'.run φ s'.engine).2
    have hstep : weight rnd (s.step φ l).sent ≤ weight rnd (s'.step φ l').sent := by
      rw [Sender.step, Sender.step, hsum, hsum']
      omega
    obtain ⟨hrest, hless⟩ := ih (h.step hl hls.1) hls.2 hstep
    refine ⟨hrest, fun hor => hless ?_⟩
    by_cases hc : l.Clean φ s
    · refine hor.imp (fun hlt => ?_) fun hn hg => hn ⟨hc, hg⟩
      change weight rnd (s.sent ++ _) < weight rnd (s'.sent ++ _)
      omega
    · have hlt := hlt₁ hc
      refine Or.inl ?_
      change weight rnd (s.sent ++ _) < weight rnd (s'.sent ++ _)
      omega

end Unclean

/-! ### Dependence on the history -/

/-- What leaves the node. -/
def Sender.sentBytes (rnd : ℚ → ℚ) (s : Sender) : List (List UInt8 × Str × ℕ) :=
  s.sent.map fun d => (d.msg.serialize rnd, d.host, d.port)

/-- Over all contents of memory, the turns send the same bytes to the same addresses, and all prices
sent have been assigned. -/
structure DependsOnHistory (rnd : ℚ → ℚ) (φ : GoldenRatio) (e : GossipEngine)
    (turns : List SendTurn) : Prop where
  bytes : ∀ turns', SameHistory turns turns' →
    ((senderSystem φ e).run (senderSystem φ e).init turns').sentBytes rnd =
      ((senderSystem φ e).run (senderSystem φ e).init turns).sentBytes rnd
  prices : ∀ turns', SameHistory turns turns' →
    ∀ d ∈ ((senderSystem φ e).run (senderSystem φ e).init turns').sent,
      ∀ op ∈ d.msg.operations, op.order.price ∈ turns.flatMap SendTurn.assigns

/-- The call over other contents of memory. -/
def Call.mapMemory (m : Uninit ℚ → Uninit ℚ) : Call ℚ → Call ℚ
  | cancelOrder orderId opId u => cancelOrder orderId opId (m u)
  | marketOrder side quantity gen => marketOrder side quantity fun n => ((gen n).1, m (gen n).2)
  | call => call

/-- The turn over other contents of memory. -/
def SendTurn.mapMemory (m : Uninit ℚ → Uninit ℚ) : SendTurn → SendTurn
  | turn (.client call) => turn (.client (call.mapMemory m))
  | l => l

section History

variable {rnd : ℚ → ℚ} {φ : GoldenRatio} {e : GossipEngine} {turns turns' : List SendTurn}
  {C : Common}

theorem SendTurn.Alike.isOwn {l l' : SendTurn} (h : l.Alike C l') (hown : l.IsOwn) : l'.IsOwn := by
  cases h with
  | client hcall => cases hcall <;> exact hown
  | same => exact hown

theorem enables_of_alike (h : List.Forall₂ (SendTurn.Alike C) turns turns') {s s' : Sender}
    (hls : (senderSystem φ e).Enables s turns) : (senderSystem φ e).Enables s' turns' := by
  induction h generalizing s s' with
  | nil => trivial
  | cons hl _ ih => exact ⟨hl.isOwn hls.1, ih hls.2⟩

/-- All prices that a turn assigns are among those assigned. -/
theorem SendTurn.Alike.among {l l' : SendTurn} {A : Set ℚ} (h : l.Alike .all l')
    (hprice : ∀ v ∈ l.assigns, v ∈ A) : l.Alike ⟨fun _ _ => True, A⟩ l' := by
  cases h with
  | client hcall =>
    refine .client ?_
    cases hcall with
    | addOrder side _ quantity oid opId =>
      exact .addOrder side (hprice _ (List.mem_singleton_self _)) quantity oid opId
    | cancelOrder orderId opId hu => exact .cancelOrder orderId opId trivial
    | marketOrder side quantity hgen => exact .marketOrder side quantity hgen
    | applyRemote op => exact .applyRemote op
  | same hclient _ => exact .same hclient hprice

theorem SameHistory.among {A : Set ℚ} (h : SameHistory turns turns')
    (hprice : ∀ v ∈ turns.flatMap SendTurn.assigns, v ∈ A) :
    List.Forall₂ (SendTurn.Alike ⟨fun _ _ => True, A⟩) turns turns' := by
  induction h with
  | nil => exact .nil
  | cons hl _ ih =>
    rw [List.flatMap_cons, List.forall_mem_append] at hprice
    exact .cons (hl.among hprice.1) (ih hprice.2)

theorem SendTurn.alike_mapMemory {m m' : Uninit ℚ → Uninit ℚ}
    (hm : ∀ u, C.memory (m u) (m' u)) (hprice : ∀ v, v ∈ C.assigned) (l : SendTurn) :
    (l.mapMemory m).Alike C (l.mapMemory m') := by
  cases l with
  | heartbeat choice => exact .same rfl fun v _ => hprice v
  | turn l =>
    cases l with
    | client call =>
      refine .client ?_
      cases call with
      | addOrder side price quantity oid opId =>
        exact .addOrder side (hprice price) quantity oid opId
      | cancelOrder orderId opId u => exact .cancelOrder orderId opId (hm u)
      | marketOrder side quantity gen => exact .marketOrder side quantity fun n => ⟨rfl, hm _⟩
      | applyRemote op => exact .applyRemote op
    | gossipRound choice => exact .same rfl fun v _ => hprice v
    | checkLiveness now => exact .same rfl fun v _ => hprice v
    | receive r => exact .same rfl fun v _ => hprice v

theorem SendTurn.mapMemory_id (l : SendTurn) : l.mapMemory id = l := by
  cases l with
  | heartbeat choice => rfl
  | turn l =>
    cases l with
    | client call => cases call <;> rfl
    | gossipRound choice => rfl
    | checkLiveness now => rfl
    | receive r => rfl

theorem alike_map_mapMemory {m m' : Uninit ℚ → Uninit ℚ} (hm : ∀ u, C.memory (m u) (m' u))
    (hprice : ∀ v, v ∈ C.assigned) (turns : List SendTurn) :
    List.Forall₂ (SendTurn.Alike C) (turns.map (SendTurn.mapMemory m))
      (turns.map (SendTurn.mapMemory m')) := by
  rw [List.forall₂_map_left_iff, List.forall₂_map_right_iff, List.forall₂_same]
  exact fun l _ => l.alike_mapMemory hm hprice

/-- Changing the contents of memory keeps the history. -/
theorem sameHistory_mapMemory (m : Uninit ℚ → Uninit ℚ) (turns : List SendTurn) :
    SameHistory turns (turns.map (SendTurn.mapMemory m)) := by
  rw [SameHistory, List.forall₂_map_right_iff, List.forall₂_same]
  intro l _
  have h : (l.mapMemory id).Alike .all (l.mapMemory m) :=
    l.alike_mapMemory (fun _ => trivial) Set.mem_univ
  rwa [l.mapMemory_id] at h

/-- Runs from an empty log are related from the start. -/
theorem alike_init (C : Common) (h : e.crdtBook.opLog = []) :
    (senderSystem φ e).init.Alike C (senderSystem φ e).init := by
  have hlog : (senderSystem φ e).init.log = [] := by rw [senderSystem, h, List.map_nil]
  constructor
  · rw [hlog]
    exact h.symm
  · rw [hlog, List.map_nil, ← h]
    rfl
  · rw [hlog]
    exact .nil

theorem weight_eq_of_sentBytes {s s' : Sender} (h : s.sentBytes rnd = s'.sentBytes rnd) :
    weight rnd s.sent = weight rnd s'.sent := by
  have hsum := congrArg (fun l => (l.map fun b => byteSum b.1).sum) h
  simp only [Sender.sentBytes, List.map_map] at hsum
  exact hsum

/-- If a turn of the run is not clean, then what is sent depends on the contents of memory. -/
theorem not_dependsOnHistory_of_not_clean (rnd : ℚ → ℚ) (h : e.crdtBook.opLog = [])
    (hls : (senderSystem φ e).Enables (senderSystem φ e).init turns)
    (hclean : ¬ (senderSystem φ e).Guarded (fun s l => l.Clean φ s) (senderSystem φ e).init turns) :
    ¬ DependsOnHistory rnd φ e turns := by
  intro hdep
  have hbuy := sameHistory_mapMemory (fun _ => cleared .buy) turns
  have hsell := sameHistory_mapMemory (fun _ => cleared .sell) turns
  have hpair : List.Forall₂ (SendTurn.Alike .buySell)
      (turns.map (SendTurn.mapMemory fun _ => cleared .buy))
      (turns.map (SendTurn.mapMemory fun _ => cleared .sell)) :=
    alike_map_mapMemory (C := .buySell) (fun _ => ⟨rfl, rfl⟩) Set.mem_univ turns
  have hclean' := mt ((alike_init .all h).guarded_iff hbuy hls).mp hclean
  have hless :=
    (weight_run rnd (alike_init .buySell h) hpair (enables_of_alike hbuy hls) le_rfl).2
      (Or.inr hclean')
  exact hless.ne (weight_eq_of_sentBytes ((hdep.bytes _ hbuy).trans (hdep.bytes _ hsell).symm))

theorem dependsOnHistory_of_clean (rnd : ℚ → ℚ) (h : e.crdtBook.opLog = [])
    (hls : (senderSystem φ e).Enables (senderSystem φ e).init turns)
    (hclean : (senderSystem φ e).Guarded (fun s l => l.Clean φ s) (senderSystem φ e).init turns) :
    DependsOnHistory rnd φ e turns := by
  have hrun (turns' : List SendTurn) (hsame : SameHistory turns turns') :
      ((senderSystem φ e).run (senderSystem φ e).init turns').sent =
          ((senderSystem φ e).run (senderSystem φ e).init turns).sent ∧
        ∀ d ∈ ((senderSystem φ e).run (senderSystem φ e).init turns').sent,
          ∀ op ∈ d.msg.operations, op.order.price ∈ turns.flatMap SendTurn.assigns := by
    have halike : List.Forall₂
        (SendTurn.Alike ⟨fun _ _ => True, {v | v ∈ turns.flatMap SendTurn.assigns}⟩) turns turns' :=
      hsame.among fun v hv => hv
    obtain ⟨ds, hsent, hsent', hprices⟩ := (alike_init _ h).run_of_clean halike hls hclean
    rw [hsent, hsent']
    exact ⟨rfl, fun d hd => hprices d ((List.mem_append.mp hd).resolve_left List.not_mem_nil)⟩
  refine ⟨fun turns' hsame => ?_, fun turns' hsame => (hrun turns' hsame).2⟩
  rw [Sender.sentBytes, (hrun turns' hsame).1]
  rfl

/-- **Uninitialised memory.** What a node sends in a run from the start depends only on its history,
with assigned prices, if and only if no cancellation of its own is ever selected for sending. -/
theorem dependsOnHistory_iff (rnd : ℚ → ℚ) (φ : GoldenRatio) (nodeId : Str)
    (seedPeers : List PeerInfo) (peerTimeoutMs : ℤ) (strategy : GossipStrategy)
    {e : GossipEngine} (he : e = .new nodeId (.new nodeId) seedPeers peerTimeoutMs strategy)
    (hls : (senderSystem φ e).Enables (senderSystem φ e).init turns) :
    DependsOnHistory rnd φ e turns ↔
      (senderSystem φ e).Guarded (fun s l => l.Clean φ s) (senderSystem φ e).init turns := by
  have hlog : e.crdtBook.opLog = [] := by rw [he]; rfl
  refine ⟨fun hdep => ?_, dependsOnHistory_of_clean rnd hlog hls⟩
  by_contra hclean
  exact not_dependsOnHistory_of_not_clean rnd hlog hls hclean hdep

/-! ### A cancelled order -/

/-- A node with one peer. -/
def startedNode : GossipEngine :=
  .new [97] (.new [97]) [⟨[98], [98], 7000, true, 0⟩] 2000 .random

/-- An order is added and sent. -/
theorem dependsOnHistory_iff_add :
    DependsOnHistory (fun v => v) .exact startedNode
        [.turn (.client (.addOrder .buy 1 5 [1] [2])), .turn (.gossipRound 0)] ↔
      (senderSystem .exact startedNode).Guarded (fun s l => l.Clean .exact s)
        (senderSystem .exact startedNode).init
        [.turn (.client (.addOrder .buy 1 5 [1] [2])), .turn (.gossipRound 0)] :=
  dependsOnHistory_iff (fun v => v) .exact [97] [⟨[98], [98], 7000, true, 0⟩] 2000 .random rfl
    ⟨trivial, trivial, trivial⟩

/-- An order is added and cancelled, and both operations are sent. -/
theorem not_dependsOnHistory_cancel :
    ¬ DependsOnHistory (fun v => v) .exact startedNode
      [.turn (.client (.addOrder .buy 1 5 [1] [2])),
        .turn (.client (.cancelOrder [1] [3] (cleared .buy))), .turn (.gossipRound 0)] := by
  refine not_dependsOnHistory_of_not_clean _ rfl ⟨trivial, trivial, trivial, trivial⟩ fun h => ?_
  exact h.2.2.1 rfl (fun hpull => nomatch hpull.1) _
    (List.mem_cons_of_mem _ (List.mem_singleton_self _)) ⟨rfl, rfl⟩

end History

end Convergence
