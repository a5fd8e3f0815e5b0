import Convergence.OrderBook.Removal
import Convergence.Crdt.AntiEntropy
import Convergence.Crdt.BookChange
import Convergence.Crdt.Delivery
import Convergence.Crdt.Replay
import Convergence.Library.Refinement

/-!
# Cancelled orders

A replica keeps a cancelled order cancelled as long as it learns of the addition first. An addition
that arrives when the cancellation is already logged shows an order that every replica has been told
to drop, and no later operation takes it back. In a run of a cluster this is the one thing that can
go wrong with the orders of a replica: without market orders, the book of every replica is the set
of the orders that its log adds and does not cancel, exactly as long as no addition comes late.

## Main definitions

* `Cluster.CancellationsHold`: no replica shows an order that its log cancels.
* `Cluster.AdditionFirst`: an addition finds no cancellation of its order.
* `limitOrderSystem`: cluster runs without market orders.
* `Cluster.BooksFollowLogs`: the books as functions of the sets of logged operations.

## Main results

* `Cluster.cancellationsHold_along_iff`, `Cluster.booksFollowLogs_along_iff`.
* `Cluster.additionFirst_of_gapFree`: delivery without gaps is enough.
* `Cluster.sameView_of_log`: replicas that have logged the same operations agree.
-/

namespace Convergence

open TransitionSystem VectorTime

variable {P : Type*} [LinearOrder P]

/-! ### Orders that can still be filled -/

namespace OrderBook

variable {b b' : OrderBook P} {fills : List (Fill P)} {E : Order P → Prop}

/-- An order that is not flagged after a change was not flagged before, or has just entered. -/
theorem Change.unflagged (h : b.Change E b' fills) {id : Str} {o' : Order P}
    (ho' : b'.orders.lookup id = some o') (hc' : o'.isCancelled = false) :
    (∃ o, b.orders.lookup id = some o ∧ o.isCancelled = false) ∨ E o' ∧ o'.orderId = id := by
  cases h with
  | same => exact Or.inl ⟨o', ho', hc'⟩
  | entered o hid ho =>
    rw [orders_place, lookup_insert_eq] at ho'
    split_ifs at ho' with heq
    · obtain rfl := Option.some.inj ho'
      exact Or.inr ⟨ho, heq.symm⟩
    · exact Or.inl ⟨o', ho', hc'⟩
  | cancelled a o ho hc =>
    rw [orders_markCancelled, lookup_insert_eq] at ho'
    split_ifs at ho'
    · obtain rfl := Option.some.inj ho'
      cases hc'
    · exact Or.inl ⟨o', ho', hc'⟩
  | matched side q =>
    left
    have hearlier {t : OrderTable P} (hst : Stays b.orders t) (ht : t.lookup id = some o') :
        ∃ o, b.orders.lookup id = some o ∧ o.isCancelled = false := by
      obtain ⟨o, ho, hs⟩ := hst.earlier ht
      refine ⟨o, ho, Bool.eq_false_iff.mpr fun hc => ?_⟩
      rw [hs.settled hc, hc] at hc'
      cases hc'
    rw [matchMarketOrder] at ho'
    split_ifs at ho'
    · exact hearlier (matchLevels_stays b.asks.entries ⟨b.orders, q, []⟩) ho'
    · exact hearlier (matchLevels_stays b.bids.entries ⟨b.orders, q, []⟩) ho'

/-- After a cancellation, successful or not, the order is flagged or unknown. -/
theorem isCancelled_of_cancelOrder {id : Str} {o : Order P}
    (ho : (b.cancelOrder id).1.orders.lookup id = some o) : o.isCancelled = true := by
  cases hx : b.orders.lookup id with
  | none =>
    rw [cancelOrder_of_notMem hx, hx] at ho
    cases ho
  | some x =>
    cases hc : x.isCancelled with
    | true =>
      rw [cancelOrder_of_cancelled hx hc, hx] at ho
      exact Option.some.inj ho ▸ hc
    | false =>
      rw [cancelOrder_of_active hx hc, orders_markCancelled, AList.lookup_insert] at ho
      exact Option.some.inj ho ▸ rfl

end OrderBook

/-! ### One replica -/

namespace CRDTOrderBook

/-- No order that can still be filled is cancelled by an operation in the log. -/
def CancellationsHold (r : CRDTOrderBook P) : Prop :=
  ∀ op ∈ r.opLog, op.IsCancel → ∀ o, r.book.orders.lookup op.cancelOrderId = some o →
    o.isCancelled = true

/-- The log cancels no order with the id of `o`. -/
def NotYetCancelled (r : CRDTOrderBook P) (o : Order P) : Prop :=
  ∀ op ∈ r.opLog, op.IsCancel → op.cancelOrderId ≠ o.orderId

variable {r : CRDTOrderBook P} {call : Call P}

/-- What is in the log after a call: what was in it, or an operation whose effect is in the book. -/
theorem WellFormed.mem_opLog_run (h : r.WellFormed) {op : Operation P}
    (hop : op ∈ (call.run r).opLog) (hc : op.IsCancel) :
    op ∈ r.opLog ∨ (call.run r).book = (r.book.cancelOrder op.cancelOrderId).1 := by
  cases call with
  | addOrder side price q oid opId =>
    rcases List.mem_append.mp hop with hop | hop
    · exact Or.inl hop
    · obtain rfl := List.mem_singleton.mp hop
      exact absurd rfl hc.not_isAdd
  | cancelOrder orderId opId u =>
    rw [Call.run] at hop ⊢
    by_cases hid : orderId ∈ r.book.orders
    · rw [localCancelOrder_of_mem hid] at hop ⊢
      split_ifs at hop ⊢
      · rcases List.mem_append.mp hop with hop | hop
        · exact Or.inl hop
        · obtain rfl := List.mem_singleton.mp hop
          exact Or.inr rfl
      · exact Or.inl hop
    · rw [localCancelOrder_of_notMem hid] at hop
      exact Or.inl hop
  | marketOrder side q gen =>
    rw [Call.run, localMarketOrder_eq h.keyed] at hop
    exact Or.inl hop
  | applyRemote a =>
    by_cases hseen : a.opId ∈ r.seenOps
    · rw [Call.run, applyRemoteOperation_of_seen hseen] at hop
      exact Or.inl hop
    · rw [Call.run, opLog_applyRemoteOperation hseen] at hop
      rcases List.mem_append.mp hop with hop | hop
      · exact Or.inl hop
      · obtain rfl := List.mem_singleton.mp hop
        right
        rw [Call.run, book_applyRemoteOperation hseen, OrderBook.applyOperation_cancel _ hc,
          OrderBook.applyReplicatedCancel_eq]

/-- Calls keep cancelled orders cancelled when what enters is not yet cancelled. -/
theorem CancellationsHold.run (h : r.CancellationsHold) (hr : r.WellFormed)
    (hcall : call.Enters r.NotYetCancelled r) : (call.run r).CancellationsHold := by
  intro op hop hc o ho
  rcases hr.mem_opLog_run hop hc with hlog | hbook
  · obtain ⟨fills, hchange⟩ := hr.change_run hcall
    by_contra hflag
    rcases hchange.unflagged ho (Bool.eq_false_iff.mpr hflag) with ⟨x, hx, hxc⟩ | ⟨hnot, hid⟩
    · rw [h op hlog hc x hx] at hxc
      cases hxc
    · exact hnot op hlog hc hid.symm
  · rw [hbook] at ho
    exact OrderBook.isCancelled_of_cancelOrder ho

end CRDTOrderBook

/-! ### Clusters -/

namespace Cluster

variable {c : Cluster P}

/-- No replica shows an order that its log cancels. -/
def CancellationsHold (c : Cluster P) : Prop :=
  ∀ n, ∀ op ∈ (c.replicas n).opLog, op.IsCancel →
    ∀ o ∈ (c.replicas n).book.activeOrders, o.orderId ≠ op.cancelOrderId

/-- A new addition finds no cancellation of its order in the log. The other calls are not
restricted. -/
def AdditionFirst (c : Cluster P) (l : Str × Call P) : Prop :=
  match l.2 with
  | .applyRemote op => op.opId ∉ (c.replicas l.1).seenOps → op.IsAdd →
    (c.replicas l.1).NotYetCancelled op.order
  | _ => True

/-- An operation that cancels comes after an operation that adds the order. -/
def CancelsKnown (c : Cluster P) : Prop :=
  ∀ a, Created c.history a → a.IsCancel →
    ∃ b, Created c.history b ∧ b.IsAdd ∧ b.order.orderId = a.cancelOrderId ∧ b.stamp < a.stamp

theorem cancellationsHold_iff (h : c.ClientInv) :
    c.CancellationsHold ↔ ∀ n, (c.replicas n).CancellationsHold := by
  refine forall_congr' fun n => ⟨fun hn op hop hc o ho => ?_, fun hn op hop hc o ho hid => ?_⟩
  · by_contra hflag
    have hid := (h.wellFormed n).keyed _ o ho
    refine hn op hop hc o ((h.book n).mem_activeOrders.mpr ⟨?_, Bool.eq_false_iff.mpr hflag⟩) hid
    rwa [hid]
  · obtain ⟨hlookup, hflag⟩ := (h.book n).mem_activeOrders.mp ho
    rw [hn op hop hc o (hid ▸ hlookup)] at hflag
    cases hflag

theorem CancelsKnown.init : (Cluster.init : Cluster P).CancelsKnown := fun a ha => by
  simp [Cluster.init, Created] at ha

/-- A node cancels orders that it knows. -/
theorem CancelsKnown.step (hk : c.CancelsKnown) (h : c.Inv) (l : Str × Call P) :
    (c.step l).CancelsKnown := by
  obtain ⟨n, call⟩ := l
  -- An operation added to the history leaves the earlier ones their additions.
  have hold {e : Event Str (Operation P)} {a : Operation P} (ha : Created c.history a)
      (hc : a.IsCancel) : ∃ b, Created (c.history ++ [e]) b ∧ b.IsAdd ∧
        b.order.orderId = a.cancelOrderId ∧ b.stamp < a.stamp := by
    obtain ⟨b, hb, hadd⟩ := hk a ha hc
    exact ⟨b, hb.append, hadd⟩
  intro a ha hc
  rcases h.causal.history_step n call with heq | ⟨op, hop, heq⟩ | ⟨op, -, heq⟩
  · rw [heq] at ha ⊢
    exact hk a ha hc
  · rw [heq] at ha ⊢
    rcases created_append_created.mp ha with ha | rfl
    · exact hold ha hc
    · have hlt {x : Operation P} (hx : x ∈ (c.replicas n).opLog) : x.stamp < a.stamp := by
        rw [h.causal.stamp_eq hop]
        refine (h.run.stamp_le_of_known ((h.log_iff n x).mp hx)).trans_lt ?_
        refine Pi.lt_def.mpr ⟨le_tick n _, n, ?_⟩
        rw [tick_self]
        exact Nat.lt_succ_self _
      obtain ⟨_, _, _, _, _, -, rfl⟩ | ⟨orderId, opId, u, rfl, rfl⟩ := hop.cases
      · exact absurd rfl hc.not_isAdd
      · by_cases hid : orderId ∈ (c.replicas n).book.orders
        · obtain ⟨b, hb, hadd, hbid⟩ := (h.wellFormed n).added orderId hid
          exact ⟨b, (h.created_of_mem hb).append, hadd, hbid, hlt hb⟩
        · -- Nothing is logged for an order that the node does not know.
          have hsame : c.step (n, .cancelOrder orderId opId u) = ⟨Function.update c.replicas n
              (c.replicas n), c.history ++ ([] : List (Operation P)).map fun op =>
                (Call.cancelOrder orderId opId u).event n op⟩ := by
            refine step_eq [] ?_ (List.append_nil _).symm
            rw [Call.run, CRDTOrderBook.localCancelOrder_of_notMem hid]
          rw [hsame] at heq
          simp at heq
  · rw [heq] at ha ⊢
    exact hold (created_append_observed.mp ha) hc

/-- What a call brings into a book is not yet cancelled there. -/
theorem enters_of_additionFirst (h : c.ClientInv) (hk : c.CancelsKnown) {n : Str} {call : Call P}
    (hl : c.Enabled (n, call)) (hfirst : c.AdditionFirst (n, call)) :
    call.Enters (c.replicas n).NotYetCancelled (c.replicas n) := by
  cases call with
  | addOrder side price q oid opId =>
    refine ⟨ClientInv.notMem_of_fresh h.toInv hl.1 n, fun op hop hc hid => ?_⟩
    obtain ⟨b, hb, hadd, hbid, -⟩ := hk op (h.created_of_mem hop) hc
    obtain ⟨m, hm⟩ := h.causal.mem_of_created hb
    exact hl.1 m b hm hadd (hbid.trans hid)
  | cancelOrder => trivial
  | marketOrder => trivial
  | applyRemote op => exact fun hseen hadd _ => hfirst hseen hadd

theorem cancellationsHold_step (h : c.ClientInv) (hk : c.CancelsKnown)
    (hh : ∀ n, (c.replicas n).CancellationsHold) {l : Str × Call P} (hl : c.Enabled l)
    (hfirst : c.AdditionFirst l) (m : Str) : ((c.step l).replicas m).CancellationsHold := by
  obtain ⟨n, call⟩ := l
  refine (Function.forall_update_iff c.replicas
    fun _ (r : CRDTOrderBook P) => r.CancellationsHold).mpr ⟨?_, fun m _ => hh m⟩ m
  exact (hh n).run (h.wellFormed n) (enters_of_additionFirst h hk hl hfirst)

/-- An addition that comes late shows its order. -/
theorem not_cancellationsHold_step (h : c.ClientInv) {l : Str × Call P} (hl : c.Enabled l)
    (hlate : ¬ c.AdditionFirst l) : ¬ ∀ m, ((c.step l).replicas m).CancellationsHold := by
  obtain ⟨n, call⟩ := l
  cases call with
  | addOrder => exact absurd trivial hlate
  | cancelOrder => exact absurd trivial hlate
  | marketOrder => exact absurd trivial hlate
  | applyRemote op =>
    simp only [AdditionFirst, CRDTOrderBook.NotYetCancelled, not_forall, not_not] at hlate
    obtain ⟨hseen, hadd, a, ha, hc, hid⟩ := hlate
    obtain ⟨k, hk⟩ := hl
    have hop := h.created_of_mem hk
    have hnot : op.order.orderId ∉ (c.replicas n).book.orders := fun hmem => by
      obtain ⟨b, hb, hbadd, hbid⟩ := (h.wellFormed n).added _ hmem
      obtain rfl := h.orderId_inj b op (h.created_of_mem hb) hop hbadd hadd hbid
      exact hseen (((h.wellFormed n).seen_iff _).mpr ⟨b, hb, rfl⟩)
    have hreplica : (c.step (n, .applyRemote op)).replicas n =
        ((c.replicas n).applyRemoteOperation op).1 := Function.update_self ..
    intro hhold
    have hhold := hhold n
    rw [hreplica] at hhold
    have hlog : a ∈ ((c.replicas n).applyRemoteOperation op).1.opLog := by
      rw [CRDTOrderBook.opLog_applyRemoteOperation hseen]
      exact List.mem_append_left _ ha
    have hlookup : ((c.replicas n).applyRemoteOperation op).1.book.orders.lookup a.cancelOrderId =
        some op.order := by
      rw [CRDTOrderBook.book_applyRemoteOperation hseen, OrderBook.applyOperation_add _ hadd,
        OrderBook.insertReplicatedOrder, if_neg hnot, OrderBook.orders_place, hid,
        AList.lookup_insert]
    have hflag := hhold a hlog hc _ hlookup
    rw [(h.isNew op hop hadd).2.2] at hflag
    cases hflag

/-- **Cancelled orders stay cancelled.** Along any run of a cluster that serves clients, market
orders included, no replica ever shows an order that its log cancels if and only if every addition
reaches a replica before the cancellations of its order. -/
theorem cancellationsHold_along_iff {calls : List (Str × Call P)}
    (h : (clientSystem P).Enables Cluster.init calls) :
    (clientSystem P).Along CancellationsHold Cluster.init calls ↔
      (clientSystem P).Guarded AdditionFirst Cluster.init calls :=
  along_iff_guarded (T := clientSystem P) (I := fun c =>
      c.ClientInv ∧ c.CancelsKnown ∧ ∀ n, (c.replicas n).CancellationsHold)
    (fun _ hc => (cancellationsHold_iff hc.1).mpr hc.2.2)
    (fun _ l hc hl hfirst => ⟨hc.1.step l hl.1 hl.2, hc.2.1.step hc.1.toInv l,
      cancellationsHold_step hc.1 hc.2.1 hc.2.2 hl.1 hfirst⟩)
    (fun _ l hc hl hlate hhold => not_cancellationsHold_step hc.1 hl.1 hlate
      ((cancellationsHold_iff (hc.1.step l hl.1 hl.2)).mp hhold))
    ⟨.init, .init, fun _ _ hop => absurd hop List.not_mem_nil⟩ h

/-! ### Runs without market orders -/

/-- Local additions and cancellations, and remote operations. -/
def WithoutMatching (_ : Cluster P) (l : Str × Call P) : Prop :=
  match l.2 with
  | .marketOrder .. => False
  | _ => True

end Cluster

/-- The runs of a cluster that serves clients who send no market orders. -/
def limitOrderSystem (P : Type*) [LinearOrder P] : TransitionSystem (Cluster P) (Str × Call P) :=
  (clientSystem P).restrict Cluster.WithoutMatching

namespace Cluster

variable {c : Cluster P}

/-- The book of every replica shows the orders that its log adds and does not cancel. -/
def BooksFollowLogs (c : Cluster P) : Prop :=
  ∀ n, (c.replicas n).book.activeOrders = referenceOrders (c.replicas n).opLog.toFinset

/-- A book is the replay of its log. -/
structure LimitInv (c : Cluster P) : Prop extends c.ClientInv where
  known : c.CancelsKnown
  replays : ∀ n, (c.replicas n).Replays

namespace LimitInv

theorem init : (Cluster.init : Cluster P).LimitInv where
  toClientInv := .init
  known := .init
  replays := .new

/-- Generated ids are new to the replica. -/
theorem limitEnabled (h : c.Inv) {n : Str} {call : Call P} (hl : c.Enabled (n, call))
    (hlimit : c.WithoutMatching (n, call)) : call.LimitEnabled (c.replicas n) := by
  have hseen {id : Str} (hid : c.FreshOpId id) : id ∉ (c.replicas n).seenOps := fun hmem => by
    obtain ⟨op, hop, heq⟩ := ((h.wellFormed n).seen_iff id).mp hmem
    exact hid n op hop heq
  cases call with
  | addOrder => exact ⟨ClientInv.notMem_of_fresh h hl.1 n, hseen hl.2⟩
  | cancelOrder => exact hseen hl
  | marketOrder => exact hlimit
  | applyRemote => trivial

theorem step (h : c.LimitInv) (l : Str × Call P) (hl : (limitOrderSystem P).enabled c l) :
    (c.step l).LimitInv where
  toClientInv := h.toClientInv.step l hl.1.1 hl.1.2
  known := h.known.step h.toInv l
  replays m := by
    obtain ⟨n, call⟩ := l
    refine (Function.forall_update_iff c.replicas
      fun _ (r : CRDTOrderBook P) => r.Replays).mpr ⟨?_, fun m _ => h.replays m⟩ m
    exact (h.replays n).run (h.wellFormed n) call (limitEnabled h.toInv hl.1.1 hl.2)

/-- The book of a replica against its log. -/
theorem delivered (h : c.LimitInv) (n : Str) :
    Coherent {op | op ∈ (c.replicas n).opLog} ∧
      Delivered (c.replicas n).book (c.replicas n).opLog := by
  have hco : Coherent {op | op ∈ (c.replicas n).opLog} := h.coherent.subset fun op hop => ⟨n, hop⟩
  exact ⟨hco, (h.replays n).book n ▸ delivered_replay hco n⟩

/-- Without market orders nothing but a late addition comes between a book and its log. -/
theorem booksFollowLogs_iff (h : c.LimitInv) : c.BooksFollowLogs ↔ c.CancellationsHold := by
  constructor
  · intro hfollow n op hop hc o ho hid
    rw [hfollow n] at ho
    exact (mem_referenceOrders.mp ho).2 op (List.mem_toFinset.mpr hop) hc hid.symm
  · intro hhold n
    obtain ⟨hco, hd⟩ := h.delivered n
    ext o
    have hactive := hd.mem_activeOrders (o := o) fun a ha had => (hco.isNew ha had).2.2
    rw [mem_referenceOrders]
    simp only [List.mem_toFinset]
    constructor
    · intro ho
      exact ⟨(hactive.mp ho).1, fun op hop hc hid => hhold n op hop hc o ho hid.symm⟩
    · rintro ⟨hadded, hnone⟩
      refine hactive.mpr ⟨hadded, ?_⟩
      rintro ⟨before, op, after, heq, -, hc, hid, -⟩
      exact hnone op (heq ▸ List.mem_append_right _ List.mem_cons_self) hc hid

end LimitInv

/-- **Books follow logs.** Along any run of a cluster without market orders, every replica shows
exactly the orders that its log adds and does not cancel, if and only if every addition reaches a
replica before the cancellations of its order. -/
theorem booksFollowLogs_along_iff {calls : List (Str × Call P)}
    (h : (limitOrderSystem P).Enables Cluster.init calls) :
    (limitOrderSystem P).Along BooksFollowLogs Cluster.init calls ↔
      (limitOrderSystem P).Guarded AdditionFirst Cluster.init calls :=
  along_iff_guarded (T := limitOrderSystem P) (I := fun c =>
      c.LimitInv ∧ ∀ n, (c.replicas n).CancellationsHold)
    (fun _ hc => hc.1.booksFollowLogs_iff.mpr ((cancellationsHold_iff hc.1.toClientInv).mpr hc.2))
    (fun _ l hc hl hfirst => ⟨hc.1.step l hl,
      cancellationsHold_step hc.1.toClientInv hc.1.known hc.2 hl.1.1 hfirst⟩)
    (fun _ l hc hl hlate hfollow => not_cancellationsHold_step hc.1.toClientInv hl.1.1 hlate
      ((cancellationsHold_iff (hc.1.step l hl).toClientInv).mp
        ((hc.1.step l hl).booksFollowLogs_iff.mp hfollow)))
    ⟨.init, fun _ _ hop => absurd hop List.not_mem_nil⟩ h

/-- An order is added and cancelled at one node, and the cancellation overtakes the addition. -/
def overtaken : List (Str × Call ℤ) :=
  [([49], .addOrder Side.buy 100 5 [97] [1]),
    ([49], .cancelOrder [97] [2] ⟨Side.buy, 0, 0, 0, 0⟩),
    ([50], .applyRemote sampleCancel), ([50], .applyRemote sampleAdd)]

theorem enables_overtaken : (limitOrderSystem ℤ).Enables Cluster.init overtaken := by
  have hadd : (limitOrderSystem ℤ).enabled Cluster.init
      ([49], .addOrder Side.buy 100 5 [97] [1]) :=
    ⟨⟨⟨init_freshOrderId _, init_freshOpId _⟩, show (0 : ℤ) < 5 by decide⟩, trivial⟩
  have hinv := (LimitInv.init (P := ℤ)).step _ hadd
  exact ⟨hadd, ⟨⟨freshOpId_of_history hinv.toInv (by decide), trivial⟩, trivial⟩,
    ⟨⟨⟨[49], List.mem_cons_of_mem _ List.mem_cons_self⟩, trivial⟩, trivial⟩,
    ⟨⟨⟨[49], List.mem_cons_self⟩, trivial⟩, trivial⟩, trivial⟩

theorem cancellationsHold_along_iff_overtaken :
    (clientSystem ℤ).Along CancellationsHold Cluster.init overtaken ↔
      (clientSystem ℤ).Guarded AdditionFirst Cluster.init overtaken :=
  cancellationsHold_along_iff (enables_restrict.mp enables_overtaken).1

theorem booksFollowLogs_along_iff_overtaken :
    (limitOrderSystem ℤ).Along BooksFollowLogs Cluster.init overtaken ↔
      (limitOrderSystem ℤ).Guarded AdditionFirst Cluster.init overtaken :=
  booksFollowLogs_along_iff enables_overtaken

/-! ### What follows for delivery without gaps, and for replicas that agree -/

/-- A delivery without gaps brings the addition of an order before its cancellations. -/
theorem additionFirst_of_gapFree (h : c.ClientInv) (hk : c.CancelsKnown)
    (hg : GapFree Operation.stamp c.history) {l : Str × Call P} (hl : c.Enabled l) :
    c.AdditionFirst l := by
  obtain ⟨n, call⟩ := l
  cases call with
  | addOrder => trivial
  | cancelOrder => trivial
  | marketOrder => trivial
  | applyRemote op =>
    intro hseen hadd a ha hc hid
    obtain ⟨k, hmem⟩ := hl
    have hop := h.created_of_mem hmem
    obtain ⟨b, hb, hbadd, hbid, hlt⟩ := hk a (h.created_of_mem ha) hc
    obtain rfl := h.orderId_inj b op hb hop hbadd hadd (hbid.trans hid)
    exact hseen ((h.seen_iff_known hop).mpr
      (hg n b a hop ((h.log_iff n a).mp ha) hlt))

/-- Replicas that have logged the same operations show the same orders and the same levels. -/
theorem sameView_of_log (h : c.LimitInv) (hfollow : c.BooksFollowLogs) {n m : Str}
    (hlog : ∀ op, op ∈ (c.replicas n).opLog ↔ op ∈ (c.replicas m).opLog) :
    (c.replicas n).SameView (c.replicas m) := by
  refine (CRDTOrderBook.sameView_iff (h.book n) (h.book m)).mpr ?_
  have hset : (c.replicas n).opLog.toFinset = (c.replicas m).opLog.toFinset := by
    ext op
    rw [List.mem_toFinset, List.mem_toFinset, hlog]
  rw [hfollow n, hfollow m, hset]

end Cluster

end Convergence
