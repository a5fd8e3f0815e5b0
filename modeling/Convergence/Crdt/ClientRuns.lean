import Convergence.Crdt.Cluster
import Convergence.OrderBook.Depth

/-!
# Clusters that serve clients

The only caller of `local_add_order`, `ClientHandler::handle`, turns down quantities that are not
positive. In the runs of a cluster under this check every added order is new in the sense of the
order book, so every replica's book keeps its invariant, and the operations in the logs are
coherent: their ids are distinct, and so are the ids of the orders they add.

## Main definitions

* `clientSystem`: cluster runs with positive quantities.
* `Coherent`: sets of operations with distinct ids that add distinct new orders.

## Main results

* `Cluster.clientInv_of_reachable`, `Cluster.coherent_of_reachable`.
-/

namespace Convergence

open TransitionSystem VectorTime

variable {P : Type*} [LinearOrder P]

/-- `ClientHandler::handle` only adds orders of a positive quantity. -/
def Cluster.ClientChecked (_ : Cluster P) (l : Str × Call P) : Prop :=
  match l.2 with
  | .addOrder _ _ quantity _ _ => 0 < quantity
  | _ => True

/-- The runs of a cluster whose local additions come from clients. -/
def clientSystem (P : Type*) [LinearOrder P] : TransitionSystem (Cluster P) (Str × Call P) :=
  (clusterSystem P).restrict Cluster.ClientChecked

/-- Operations that a cluster can have in its logs: an id belongs to one operation, the id of an
added order to one addition, and an operation adds a new order or cancels. -/
structure Coherent (ops : Set (Operation P)) : Prop where
  opId_inj : ∀ a ∈ ops, ∀ b ∈ ops, a.opId = b.opId → a = b
  orderId_inj : ∀ a ∈ ops, ∀ b ∈ ops, a.IsAdd → b.IsAdd → a.order.orderId = b.order.orderId → a = b
  valid : ∀ a ∈ ops, a.IsAdd ∧ a.order.IsNew ∨ a.IsCancel

omit [LinearOrder P] in
theorem Coherent.subset {ops ops' : Set (Operation P)} (h : Coherent ops) (hsub : ops' ⊆ ops) :
    Coherent ops' where
  opId_inj a ha b hb := h.opId_inj a (hsub ha) b (hsub hb)
  orderId_inj a ha b hb := h.orderId_inj a (hsub ha) b (hsub hb)
  valid a ha := h.valid a (hsub ha)

omit [LinearOrder P] in
theorem Coherent.isNew {ops : Set (Operation P)} (h : Coherent ops) {a : Operation P} (ha : a ∈ ops)
    (hadd : a.IsAdd) : a.order.IsNew :=
  ((h.valid a ha).resolve_right fun hc => hc.not_isAdd hadd).2

/-! ### Books of replicas -/

/-- A remote operation keeps a book consistent when the order it may add is new. -/
theorem OrderBook.Inv.applyOperation {b : OrderBook P} (h : b.Inv) {op : Operation P}
    (hop : op.IsAdd → op.order.IsNew) : (b.applyOperation op).Inv := by
  by_cases ha : op.IsAdd
  · obtain ⟨hr, hq, hc⟩ := hop ha
    rw [OrderBook.applyOperation_add b ha]
    exact h.insertReplicatedOrder hc (hr ▸ hq)
  · by_cases hc : op.IsCancel
    · rw [OrderBook.applyOperation_cancel b hc]
      exact h.applyReplicatedCancel _
    · rwa [OrderBook.applyOperation_other b ha hc]

/-- The calls that keep the book of a replica consistent. -/
def Call.KeepsBook (r : CRDTOrderBook P) : Call P → Prop
  | addOrder _ _ quantity oid _ => oid ∉ r.book.orders ∧ 0 < quantity
  | applyRemote op => op.IsAdd → op.order.IsNew
  | _ => True

theorem Call.KeepsBook.inv {r : CRDTOrderBook P} {call : Call P} (h : call.KeepsBook r)
    (hr : r.WellFormed) (hb : r.book.Inv) : (call.run r).book.Inv := by
  cases call with
  | addOrder side price q oid opId => exact hb.place h.1 rfl h.2
  | cancelOrder orderId opId u =>
    rw [Call.run]
    by_cases hid : orderId ∈ r.book.orders
    · rw [CRDTOrderBook.localCancelOrder_of_mem hid]
      split_ifs
      · exact hb.cancelOrder orderId
      · exact hb.cancelOrder orderId
    · rwa [CRDTOrderBook.localCancelOrder_of_notMem hid]
  | marketOrder side q gen =>
    rw [Call.run, CRDTOrderBook.localMarketOrder_eq hr.keyed]
    exact hb.matchMarketOrder side q
  | applyRemote op =>
    rw [Call.run, CRDTOrderBook.applyRemoteOperation]
    split_ifs
    · exact hb
    · exact hb.applyOperation h

namespace Cluster

variable {c : Cluster P}

/-- What the check of the clients adds to the invariant of a cluster. -/
structure ClientInv (c : Cluster P) : Prop extends c.Inv where
  isNew : ∀ a, Created c.history a → a.IsAdd → a.order.IsNew
  book : ∀ n, (c.replicas n).book.Inv

namespace ClientInv

theorem init : (Cluster.init : Cluster P).ClientInv where
  toInv := .init
  isNew a ha := by simp [Cluster.init, Created] at ha
  book _ := .new

/-- An order id that no log has is in no book. -/
theorem notMem_of_fresh (h : c.Inv) {id : Str} (hid : c.FreshOrderId id) (n : Str) :
    id ∉ (c.replicas n).book.orders := fun hmem => by
  obtain ⟨a, ha, hadd, heq⟩ := (h.wellFormed n).added id hmem
  exact hid n a ha hadd heq

theorem keepsBook (h : c.ClientInv) {n : Str} {call : Call P} (hl : c.Enabled (n, call))
    (hq : c.ClientChecked (n, call)) : call.KeepsBook (c.replicas n) := by
  cases call with
  | addOrder => exact ⟨notMem_of_fresh h.toInv hl.1 n, hq⟩
  | cancelOrder => trivial
  | marketOrder => trivial
  | applyRemote op =>
    obtain ⟨m, hm⟩ := hl
    exact h.isNew op (h.created_of_mem hm)

theorem step (h : c.ClientInv) (l : Str × Call P) (hl : c.Enabled l) (hq : c.ClientChecked l) :
    (c.step l).ClientInv := by
  obtain ⟨n, call⟩ := l
  refine ⟨h.toInv.step _ hl, fun a ha hadd => ?_, fun m => ?_⟩
  · rcases h.causal.history_step n call with heq | ⟨op, hop, heq⟩ | ⟨op, -, heq⟩
    · exact h.isNew a (heq ▸ ha) hadd
    · rcases created_append_created.mp (heq ▸ ha) with hold | rfl
      · exact h.isNew a hold hadd
      · obtain ⟨_, _, _, _, _, rfl, rfl⟩ | ⟨_, _, _, -, rfl⟩ := hop.cases
        · exact ⟨rfl, hq, rfl⟩
        · exact absurd hadd (Operation.IsCancel.not_isAdd rfl)
    · exact h.isNew a (created_append_observed.mp (heq ▸ ha)) hadd
  · exact (Function.forall_update_iff _ fun _ r => (CRDTOrderBook.book r).Inv).mpr
      ⟨(h.keepsBook hl hq).inv (h.wellFormed n) (h.book n), fun m _ => h.book m⟩ m

theorem coherent (h : c.ClientInv) : Coherent {op | ∃ n, op ∈ (c.replicas n).opLog} where
  opId_inj := fun a ⟨_, ha⟩ b ⟨_, hb⟩ =>
    h.opId_inj a b (h.created_of_mem ha) (h.created_of_mem hb)
  orderId_inj := fun a ⟨_, ha⟩ b ⟨_, hb⟩ =>
    h.orderId_inj a b (h.created_of_mem ha) (h.created_of_mem hb)
  valid := fun a ⟨_, ha⟩ => by
    have hc := h.created_of_mem ha
    rcases h.generated a hc with ⟨hadd, -⟩ | hcancel
    · exact Or.inl ⟨hadd, h.isNew a hc hadd⟩
    · exact Or.inr hcancel

end ClientInv

theorem clientInv_of_reachable (h : (clientSystem P).Reachable c) : c.ClientInv :=
  h.invariant .init fun _ l _ hc hl => hc.step l hl.1 hl.2

theorem coherent_of_reachable (h : (clientSystem P).Reachable c) :
    Coherent {op | ∃ n, op ∈ (c.replicas n).opLog} :=
  (clientInv_of_reachable h).coherent

end Cluster

end Convergence
