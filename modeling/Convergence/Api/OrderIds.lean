import Convergence.Api.RequestCheck
import Convergence.Api.SameAnswers
import Convergence.Crdt.ClientRuns
import Convergence.Gossip.DatagramSize

/-!
# Order ids in requests

The id with which `ADD` is answered comes back to some node in a `CANCEL`. On the way it is text, so
it has to be one token of the request; what `generate_uuid` returns is one. As all ids of orders in
a cluster are generated, a `CANCEL` reaches the order that it names at every node that shows the
order, and no other one.

## Main definitions

* `uuidClientSystem`: the runs of a cluster in which the ids of orders are generated.

## Main results

* `isUuid_of_reachable`: the ids of all orders that are added.
* `ClientHandler.cancel_of_reachable`, `ClientHandler.cancel_added`.
-/

namespace Convergence

open TransitionSystem VectorTime TextStream DecimalText

/-! ### Generated ids are tokens -/

theorem isSpace_hexDigit : ∀ v < 16, isSpace (hexDigit v) = false := by decide

theorem isSpace_of_mem_hex {width v : ℕ} {b : UInt8} (hb : b ∈ hex width v) :
    isSpace b = false := by
  induction width generalizing v with
  | zero => cases hb
  | succ width ih =>
    rw [hex, List.mem_append, List.mem_singleton] at hb
    rcases hb with hb | rfl
    · exact ih hb
    · exact isSpace_hexDigit _ (Nat.mod_lt v (by omega))

theorem IsUuid.isToken {s : Str} (h : IsUuid s) : IsToken isSpace s where
  ne_nil := List.ne_nil_of_length_pos (by rw [h.length_eq]; omega)
  solid b hb := by
    have hdash : isSpace 45 = false := by decide
    obtain ⟨_, _, _, _, _, _, -, -, -, -, -, -, rfl⟩ := h
    simp only [generateUuid, List.mem_append, List.mem_singleton] at hb
    rcases hb with (((((((((hb | rfl) | hb) | rfl) | hb) | rfl) | hb) | rfl) | hb) | hb) <;>
      first | exact hdash | exact isSpace_of_mem_hex hb

/-! ### Runs with generated ids -/

section Runs

variable {P : Type*} [LinearOrder P] {c : Cluster P}

/-- The id of an order that the call adds is generated. -/
def Call.AddsUuid : Call P → Prop
  | addOrder _ _ _ oid _ => IsUuid oid
  | _ => True

/-- The runs of a cluster that serves clients, with generated ids of orders. -/
def uuidClientSystem (P : Type*) [LinearOrder P] :
    TransitionSystem (Cluster P) (Str × Call P) :=
  (clientSystem P).restrict fun _ l => l.2.AddsUuid

/-- The orders that have been added have generated ids. -/
def Cluster.AddedUuids (c : Cluster P) : Prop :=
  ∀ a, Created c.history a → a.IsAdd → IsUuid a.order.orderId

theorem Cluster.AddedUuids.step (h : c.AddedUuids) (hc : c.ClientInv) {l : Str × Call P}
    (hl : l.2.AddsUuid) : (c.step l).AddedUuids := by
  obtain ⟨n, call⟩ := l
  intro a ha hadd
  rcases hc.causal.history_step n call with heq | ⟨op, hop, heq⟩ | ⟨op, -, heq⟩
  · exact h a (heq ▸ ha) hadd
  · rcases created_append_created.mp (heq ▸ ha) with hold | rfl
    · exact h a hold hadd
    · obtain ⟨_, _, _, _, _, rfl, rfl⟩ | ⟨_, _, _, -, rfl⟩ := hop.cases
      · exact hl
      · exact absurd hadd (Operation.IsCancel.not_isAdd rfl)
  · exact h a (created_append_observed.mp (heq ▸ ha)) hadd

theorem isUuid_of_reachable (h : (uuidClientSystem P).Reachable c) :
    c.ClientInv ∧ c.AddedUuids :=
  h.invariant (I := fun c => c.ClientInv ∧ c.AddedUuids)
    ⟨.init, fun a (ha : Created [] a) => by simp [Created] at ha⟩
    fun _ l _ hc hl => ⟨hc.1.step l hl.1.1 hl.1.2, hc.2.step hc.1 hl.2⟩

/-- The ids of active orders are generated. -/
theorem Cluster.AddedUuids.active (h : c.AddedUuids) (hc : c.ClientInv) {n : Str} {o : Order P}
    (ho : o ∈ (c.replicas n).book.activeOrders) : IsUuid o.orderId := by
  have hmem : o.orderId ∈ (c.replicas n).book.orders := by
    rw [← AList.lookup_isSome, ((hc.book n).mem_activeOrders.mp ho).1, Option.isSome_some]
  obtain ⟨a, ha, hadd, hid⟩ := (hc.wellFormed n).added _ hmem
  exact hid ▸ h a (hc.created_of_mem ha) hadd

end Runs

/-! ### What cancelling and adding does to the active orders -/

section Books

variable {P : Type*} [LinearOrder P] {b : OrderBook P}

/-- A cancellation takes the order with the id off. -/
theorem OrderBook.Inv.activeOrders_cancelOrder (h : b.Inv) (id : Str) :
    (b.cancelOrder id).1.activeOrders = {o ∈ b.activeOrders | o.orderId ≠ id} := by
  ext o
  rw [Finset.mem_filter, (h.cancelOrder id).mem_activeOrders]
  obtain hcancel | ⟨x, hx, hc, hcancel⟩ := cancelOrder_cases b id
  · have hnone : ¬ ∃ o ∈ b.activeOrders, o.orderId = id := by
      rw [← h.cancelOrder_snd_iff, hcancel]
      exact Bool.false_ne_true
    rw [hcancel, ← h.mem_activeOrders]
    exact ⟨fun ho => ⟨ho, fun hid => hnone ⟨o, ho, hid⟩⟩, fun ho => ho.1⟩
  · rw [hcancel, orders_markCancelled, lookup_insert_eq, h.mem_activeOrders]
    split_ifs with hid
    · constructor
      · rintro ⟨heq, hflag⟩
        rw [← Option.some.inj heq] at hflag
        cases hflag
      · exact fun ho => absurd hid ho.2
    · exact ⟨fun ho => ⟨ho, hid⟩, fun ho => ho.1⟩

/-- An order with a new id joins the active orders. -/
theorem OrderBook.Inv.activeOrders_place (h : b.Inv) {o : Order P} (hid : o.orderId ∉ b.orders)
    (hc : o.isCancelled = false) (hr : 0 < o.remaining) :
    (b.place o).activeOrders = insert o b.activeOrders := by
  ext x
  rw [(h.place hid hc hr).mem_activeOrders, orders_place, lookup_insert_eq, Finset.mem_insert,
    h.mem_activeOrders]
  split_ifs with hx
  · have hnone : b.orders.lookup x.orderId = none := AList.lookup_eq_none.mpr (hx ▸ hid)
    rw [hnone]
    constructor
    · exact fun hsome => Or.inl (Option.some.inj hsome.1).symm
    · rintro (rfl | ⟨hsome, -⟩)
      · exact ⟨rfl, hc⟩
      · cases hsome
  · rw [or_iff_right fun heq => hx (congrArg Order.orderId heq)]

end Books

/-! ### Requests -/

namespace ClientHandler

variable {c : Cluster ℚ} {n request : Str}

/-- A `CANCEL` with a token behind it. -/
theorem handle_cancel (env : Environment) (r : CRDTOrderBook ℚ) {id : Str}
    (hid : IsToken isSpace id) : handle env r (ascii "CANCEL " ++ id) =
      ((r.localCancelOrder id (env.uuid 0) (env.memory 0)).1,
        if (r.localCancelOrder id (env.uuid 0) (env.memory 0)).2 then ascii "OK"
        else ascii "ERROR order_not_found") := by
  have hself : tokens isSpace (ascii "CANCEL") = [ascii "CANCEL"] := rfl
  have hcancel : IsToken isSpace (ascii "CANCEL") := isToken_of_mem (hself ▸ List.mem_cons_self)
  have htokens : tokens isSpace (ascii "CANCEL " ++ id) = [ascii "CANCEL", id] := by
    have hspace : ascii "CANCEL " ++ id = ascii "CANCEL" ++ (32 :: id) := rfl
    have hlast := tokens_append hid (r := []) fun _ h => absurd h (by simp)
    rw [List.append_nil, tokens_nil] at hlast
    rw [hspace, tokens_append hcancel fun b hb => by rw [← Option.some.inj hb]; rfl,
      tokens_cons_of_sep rfl, hlast]
  have hcommand := extractString_eq (.ofText (ascii "CANCEL " ++ id)) []
  have hleft : (ofText (ascii "CANCEL " ++ id)).left isSpace = [ascii "CANCEL", id] := htokens
  rw [hleft, takeToken_word hcancel] at hcommand
  obtain ⟨hrest, hvalue⟩ := Prod.ext_iff.mp hcommand
  dsimp only at hrest hvalue
  have hargument := extractString_eq (extractString (.ofText (ascii "CANCEL " ++ id)) []).1 []
  rw [hrest, takeToken_word hid] at hargument
  have hupper : toUpper (ascii "CANCEL") = ascii "CANCEL" := by decide
  rw [handle]
  dsimp only
  rw [hvalue, hupper, if_neg (by decide), if_pos rfl, handleCancel]
  dsimp only
  rw [(Prod.ext_iff.mp hargument).2, if_neg hid.ne_nil]

/-- What a `CANCEL` of a token answers, and what it leaves of the active orders. -/
theorem answer_cancel (env : Environment) {r : CRDTOrderBook ℚ} (h : r.book.Inv) {id : Str}
    (hid : IsToken isSpace id) :
    (handle env r (ascii "CANCEL " ++ id)).2 =
        (if ∃ o ∈ r.book.activeOrders, o.orderId = id then ascii "OK"
          else ascii "ERROR order_not_found") ∧
      (handle env r (ascii "CANCEL " ++ id)).1.book.activeOrders =
        {o ∈ r.book.activeOrders | o.orderId ≠ id} := by
  rw [handle_cancel env r hid, ← h.activeOrders_cancelOrder,
    ← r.book_localCancelOrder id (env.uuid 0) (env.memory 0)]
  refine ⟨if_congr ?_ rfl rfl, rfl⟩
  rw [r.localCancelOrder_snd, h.cancelOrder_snd_iff]

/-- An `ADD` that is answered `OK` adds an order with the id in the answer. -/
theorem exists_added {env : Environment} {r : CRDTOrderBook ℚ}
    (hadd : command request = ascii "ADD")
    (hok : ascii "OK" <+: (handle env r request).2) : ∃ side price qty, 0 < qty ∧
      handle env r request = ((r.localAddOrder side price qty (env.uuid 0) (env.uuid 1)).1,
        ascii "OK " ++ env.uuid 0) := by
  have hside : ¬ ascii "OK" <+: ascii "ERROR invalid_side" := by decide
  have hparams : ¬ ascii "OK" <+: ascii "ERROR invalid_params" := by decide
  rw [command] at hadd
  rw [handle] at hok ⊢
  dsimp only at hok ⊢
  rw [if_pos hadd, handleAdd] at hok ⊢
  dsimp only at hok ⊢
  cases hname : parseSide (toUpper (extractString (extractString (.ofText request) []).1 []).2) with
  | none =>
    rw [hname] at hok
    exact absurd hok hside
  | some side =>
    rw [hname] at hok
    dsimp only at hok ⊢
    split_ifs at hok ⊢ with hbad
    · exact absurd hok hparams
    · rw [not_or, not_le, not_le] at hbad
      exact ⟨side, _, _, hbad.2, rfl⟩

/-- **A request cancels the order that it names.** In every state of a run with generated ids, a
`CANCEL` of a generated id at a node is answered `OK` if the node shows an order with this id, and
takes this order off. Otherwise the answer is an error, and the orders stay. -/
theorem cancel_of_reachable (h : (uuidClientSystem ℚ).Reachable c) (n : Str) (env : Environment)
    {id : Str} (hid : IsUuid id) :
    let r := c.replicas n
    let result := handle env r (ascii "CANCEL " ++ id)
    (∀ o ∈ r.book.activeOrders, IsUuid o.orderId) ∧
      result.2 = (if ∃ o ∈ r.book.activeOrders, o.orderId = id then ascii "OK"
        else ascii "ERROR order_not_found") ∧
      result.1.book.activeOrders = {o ∈ r.book.activeOrders | o.orderId ≠ id} := by
  obtain ⟨hinv, hids⟩ := isUuid_of_reachable h
  exact ⟨fun o ho => hids.active hinv ho, answer_cancel env (hinv.book n) hid.isToken⟩

/-- A call with generated ids. -/
def firstCall : Environment := ⟨0, 0, fun _ => ⟨.buy, 0, 0, 0, 0⟩, fun k => (sampleUuids k).1⟩

/-- A client has added an order at `a`. -/
def bidWithUuid : Cluster ℚ :=
  Cluster.init.step ([97], .addOrder Side.buy 100 5 (sampleUuids 0).1 (sampleUuids 0).2)

theorem cancel_of_reachable_bid :
    let r := bidWithUuid.replicas [97]
    let result := handle firstCall r (ascii "CANCEL " ++ (sampleUuids 0).1)
    (∀ o ∈ r.book.activeOrders, IsUuid o.orderId) ∧
      result.2 = (if ∃ o ∈ r.book.activeOrders, o.orderId = (sampleUuids 0).1 then ascii "OK"
        else ascii "ERROR order_not_found") ∧
      result.1.book.activeOrders = {o ∈ r.book.activeOrders | o.orderId ≠ (sampleUuids 0).1} := by
  have hreach : (uuidClientSystem ℚ).Reachable bidWithUuid :=
    (Reachable.init (T := uuidClientSystem ℚ)).step
      ([97], .addOrder Side.buy 100 5 (sampleUuids 0).1 (sampleUuids 0).2)
      ⟨⟨⟨Cluster.init_freshOrderId _, Cluster.init_freshOpId _⟩, show (0 : ℤ) < 5 by decide⟩,
        (isUuid_sampleUuids 0).1⟩
  exact cancel_of_reachable hreach [97] firstCall (isUuid_sampleUuids 0).1

/-- **The answer to an addition names the order.** When an `ADD` with a new generated id has been
answered `OK`, one order has been added, and a `CANCEL` of what the answer names takes it off. -/
theorem cancel_added (h : (uuidClientSystem ℚ).Reachable c) {env env' : Environment}
    (hadd : command request = ascii "ADD")
    (hok : ascii "OK" <+: (handle env (c.replicas n) request).2) (hid : IsUuid (env.uuid 0))
    (hfresh : c.FreshOrderId (env.uuid 0)) :
    let added := handle env (c.replicas n) request
    let cancelled := handle env' added.1 (ascii "CANCEL " ++ added.2.drop 3)
    (∃ o, o ∉ (c.replicas n).book.activeOrders ∧
      added.1.book.activeOrders = insert o (c.replicas n).book.activeOrders) ∧
      cancelled.2 = ascii "OK" ∧
      cancelled.1.book.activeOrders = (c.replicas n).book.activeOrders := by
  have hinv := (isUuid_of_reachable h).1
  have hnew := Cluster.ClientInv.notMem_of_fresh hinv.toInv hfresh n
  have hbook := hinv.book n
  obtain ⟨side, price, qty, hqty, hadded⟩ := exists_added hadd hok
  set r := c.replicas n with hr
  set o := r.newOrder side price qty (env.uuid 0) with ho
  have hname : (ascii "OK " ++ env.uuid 0).drop 3 = env.uuid 0 := rfl
  have hplaced : (r.localAddOrder side price qty (env.uuid 0) (env.uuid 1)).1.book =
      r.book.place o := rfl
  have hactive := hbook.activeOrders_place (o := o) hnew rfl hqty
  have habsent : ∀ x ∈ r.book.activeOrders, x.orderId ≠ env.uuid 0 := by
    intro x hx heq
    refine hnew ?_
    rw [← heq, ← AList.lookup_isSome, (hbook.mem_activeOrders.mp hx).1, Option.isSome_some]
  dsimp only
  rw [hadded, hname]
  obtain ⟨hanswer, hleft⟩ := answer_cancel env'
    (r := (r.localAddOrder side price qty (env.uuid 0) (env.uuid 1)).1)
    (hplaced ▸ hbook.place hnew rfl hqty) hid.isToken
  rw [hplaced, hactive] at hanswer hleft
  refine ⟨⟨o, fun hmem => habsent o hmem rfl, ?_⟩, ?_, ?_⟩
  · rw [hplaced, hactive]
  · exact hanswer.trans (if_pos ⟨o, Finset.mem_insert_self .., rfl⟩)
  · rw [hleft, Finset.filter_insert, if_neg fun hne => hne rfl,
      Finset.filter_true_of_mem habsent]

theorem cancel_added_bid :
    let r : CRDTOrderBook ℚ := Cluster.init.replicas [97]
    let added := handle firstCall r (ascii "ADD BUY 10 5")
    let cancelled := handle firstCall added.1 (ascii "CANCEL " ++ added.2.drop 3)
    (∃ o, o ∉ r.book.activeOrders ∧ added.1.book.activeOrders = insert o r.book.activeOrders) ∧
      cancelled.2 = ascii "OK" ∧ cancelled.1.book.activeOrders = r.book.activeOrders := by
  have htokens : tokens isSpace (ascii "ADD BUY 10 5") =
      [ascii "ADD", ascii "BUY", ascii "10", ascii "5"] := rfl
  have hadd : toUpper (ascii "ADD") = ascii "ADD" := rfl
  have hsafe : firstCall.SafePrice [ascii "10", ascii "5"] := by
    have hprice : scanDecimal (ascii "10") = (some 10, []) := rfl
    have hqty : scanInteger (ascii "5") = (some 5, []) := rfl
    rw [Environment.SafePrice, hprice]
    rintro v ⟨rfl⟩ -
    rw [if_neg not_doubleMax_lt, if_pos rfl, Environment.SafeQuantity, hqty]
    rintro i ⟨rfl⟩ -
    exact ⟨by norm_num, rfl, rfl⟩
  have hdecision : decision firstCall [ascii "ADD", ascii "BUY", ascii "10", ascii "5"] =
      some (.add .buy 10 5) :=
    (decision_eq_iff (fun t ht => isToken_of_mem (htokens ▸ List.mem_cons_of_mem _ ht))
      (Or.inl hadd)).mpr fun _ => by rwa [if_pos hadd]
  have houtcome := handle_outcome firstCall (Cluster.init.replicas [97]) htokens (Or.inl hadd)
  rw [htokens, hdecision] at houtcome
  exact cancel_added .init (by decide) (houtcome.2 ▸ List.prefix_append (ascii "OK") _)
    (isUuid_sampleUuids 0).1 (Cluster.init_freshOrderId _)

end ClientHandler

end Convergence
