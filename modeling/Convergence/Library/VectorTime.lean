import Mathlib.Logic.Relation
import Mathlib.Order.Lattice.Nat
import Mathlib.Order.Lattice

/-!
# Vector time and causality

Nodes create and observe operations; a history lists these events in the order in which they
happen. An operation carries a stamp, a vector of counters indexed by the nodes. Every node keeps
such a vector too: it advances its own counter before it creates an operation and stamps the
operation with the result, it takes the join with the stamp of every operation it observes, and it
may advance its own counter at any other time. This is all that `Run` requires; observations may be
lost, repeated and reordered.

Causality is defined on histories only: an operation directly precedes another when the creator of
the second has created or observed the first before. The stamps decide it
(`Run.precedes_iff_stamp_lt`).

What a node has missed cannot in general be read off its vector. It can when every observation is
gap-free, that is, when it comes after all the operations with smaller stamps
(`GapFree.known_of_stamp_le`).

## Main definitions

* `VectorTime.Event`, `VectorTime.Known`, `VectorTime.Direct`, `VectorTime.Precedes`.
* `VectorTime.Run`, `VectorTime.GapFree`.

## Main results

* `VectorTime.Run.precedes_of_stamp_le`, `VectorTime.Run.precedes_iff_stamp_lt`.
* `VectorTime.GapFree.known_of_stamp_le`.
-/

namespace VectorTime

variable {N O : Type*}

/-- What happens at a node. -/
inductive Event (N O : Type*)
  | created (n : N) (o : O)
  | observed (n : N) (o : O)

/-- The operation an event is about. -/
def Event.op : Event N O → O
  | created _ o => o
  | observed _ o => o

/-- The node `n` has created or observed `o`. -/
def Known (h : List (Event N O)) (n : N) (o : O) : Prop :=
  Event.created n o ∈ h ∨ Event.observed n o ∈ h

/-- The operation `o` has been created, at some node. -/
def Created (h : List (Event N O)) (o : O) : Prop := ∃ n, Event.created n o ∈ h

/-- The creator of `b` knew `a` when it created `b`. -/
def Direct (h : List (Event N O)) (a b : O) : Prop :=
  ∃ n h₁ h₂, h = h₁ ++ Event.created n b :: h₂ ∧ Known h₁ n a

/-- Causal precedence: the transitive closure of `Direct`. -/
def Precedes (h : List (Event N O)) : O → O → Prop := Relation.TransGen (Direct h)

/-! ### Histories -/

section History

variable {h : List (Event N O)} {e : Event N O} {a b : O} {n : N}

theorem Known.append (hk : Known h n a) : Known (h ++ [e]) n a :=
  hk.imp (List.mem_append_left _) (List.mem_append_left _)

theorem Created.append (hc : Created h a) : Created (h ++ [e]) a :=
  hc.imp fun _ => List.mem_append_left _

theorem mem_op_of_created (hc : Created h a) : a ∈ h.map Event.op :=
  let ⟨_, hn⟩ := hc
  List.mem_map.mpr ⟨_, hn, rfl⟩

theorem known_append_created {m : N} :
    Known (h ++ [Event.created m b]) n a ↔ Known h n a ∨ n = m ∧ a = b := by
  simp only [Known, List.mem_append, List.mem_singleton, Event.created.injEq, reduceCtorEq,
    or_false]
  tauto

theorem known_append_observed {m : N} :
    Known (h ++ [Event.observed m b]) n a ↔ Known h n a ∨ n = m ∧ a = b := by
  simp only [Known, List.mem_append, List.mem_singleton, Event.observed.injEq, reduceCtorEq,
    or_false]
  tauto

theorem created_append_created {m : N} :
    Created (h ++ [Event.created m b]) a ↔ Created h a ∨ a = b := by
  simp only [Created, List.mem_append, List.mem_singleton, Event.created.injEq, exists_or,
    exists_eq_left]

theorem created_append_observed {m : N} :
    Created (h ++ [Event.observed m b]) a ↔ Created h a := by
  simp [Created]

theorem direct_append :
    Direct (h ++ [e]) a b ↔ Direct h a b ∨ ∃ n, e = Event.created n b ∧ Known h n a := by
  constructor
  · rintro ⟨n, h₁, h₂, heq, hk⟩
    rcases List.eq_nil_or_concat h₂ with rfl | ⟨h₂, e', rfl⟩
    · obtain ⟨rfl, he⟩ := List.append_inj' heq rfl
      exact Or.inr ⟨n, (List.singleton_inj.mp he), hk⟩
    · rw [List.concat_eq_append, ← List.cons_append, ← List.append_assoc] at heq
      exact Or.inl ⟨n, h₁, h₂, (List.append_inj' heq rfl).1, hk⟩
  · rintro (⟨n, h₁, h₂, rfl, hk⟩ | ⟨n, rfl, hk⟩)
    · exact ⟨n, h₁, h₂ ++ [e], by simp, hk⟩
    · exact ⟨n, h, [], rfl, hk⟩

theorem Precedes.append (hp : Precedes h a b) : Precedes (h ++ [e]) a b := by
  induction hp with
  | single hd => exact .single (direct_append.mpr (Or.inl hd))
  | tail _ hd ih => exact ih.tail (direct_append.mpr (Or.inl hd))

end History

/-! ### Stamps -/

variable [DecidableEq N]

/-- The vector with the counter of `n` advanced. -/
def tick (n : N) (v : N → ℕ) : N → ℕ := Function.update v n (v n + 1)

theorem le_tick (n : N) (v : N → ℕ) : v ≤ tick n v := fun m => by
  by_cases hm : m = n
  · subst hm
    simp [tick]
  · simp [tick, Function.update_of_ne hm]

theorem tick_self (n : N) (v : N → ℕ) : tick n v n = v n + 1 := Function.update_self ..

theorem tick_of_ne {m n : N} (h : m ≠ n) (v : N → ℕ) : tick n v m = v m :=
  Function.update_of_ne h ..

theorem le_update {K : N → N → ℕ} {a : N} {v : N → ℕ} (hle : K a ≤ v) (n : N) :
    K n ≤ Function.update K a v n :=
  le_update_self_iff.mpr hle n

/-- The histories of the rule for stamps, with the vectors the nodes keep. -/
inductive Run (stamp : O → N → ℕ) : List (Event N O) → (N → N → ℕ) → Prop
  | nil : Run stamp [] fun _ _ => 0
  | idle {h K} (n : N) (hr : Run stamp h K) : Run stamp h (Function.update K n (tick n (K n)))
  | create {h K} (n : N) (o : O) (hr : Run stamp h K) (hnew : ¬ Created h o)
      (hstamp : stamp o = tick n (K n)) :
      Run stamp (h ++ [Event.created n o]) (Function.update K n (stamp o))
  | observe {h K} (n : N) (o : O) (hr : Run stamp h K) (ho : Created h o) :
      Run stamp (h ++ [Event.observed n o]) (Function.update K n (K n ⊔ stamp o))

namespace Run

variable {stamp : O → N → ℕ} {h : List (Event N O)} {K : N → N → ℕ}

theorem created_of_known (hr : Run stamp h K) {n : N} {o : O} (hk : Known h n o) : Created h o := by
  induction hr with
  | nil => simp [Known] at hk
  | idle _ _ ih => exact ih hk
  | create m b _ _ _ ih =>
    rcases known_append_created.mp hk with hk | ⟨-, rfl⟩
    · exact (ih hk).append
    · exact created_append_created.mpr (Or.inr rfl)
  | observe m b _ hb ih =>
    rcases known_append_observed.mp hk with hk | ⟨-, rfl⟩
    · exact (ih hk).append
    · exact hb.append

/-- A node's vector dominates the stamps of the operations it knows. -/
theorem stamp_le_of_known (hr : Run stamp h K) {n : N} {o : O} (hk : Known h n o) :
    stamp o ≤ K n := by
  induction hr with
  | nil => simp [Known] at hk
  | @idle h K m _ ih =>
    exact (ih hk).trans (le_update (le_tick m (K m)) n)
  | @create h K m b _ _ hstamp ih =>
    rcases known_append_created.mp hk with hk | ⟨rfl, rfl⟩
    · exact (ih hk).trans (le_update (hstamp ▸ le_tick m (K m)) n)
    · rw [Function.update_self]
  | @observe h K m b _ _ ih =>
    rcases known_append_observed.mp hk with hk | ⟨rfl, rfl⟩
    · exact (ih hk).trans (le_update le_sup_left n)
    · rw [Function.update_self]
      exact le_sup_right

/-- Raising one node's vector keeps every node ahead in its own counter. -/
private theorem counter_update {a : N} {v : N → ℕ} (hK : ∀ n m, K n m ≤ K m m) (hle : K a ≤ v)
    (hv : ∀ m, m ≠ a → v m ≤ K m m) (n m : N) :
    Function.update K a v n m ≤ Function.update K a v m m := by
  have hup : K m m ≤ Function.update K a v m m := le_update hle m m
  by_cases hn : n = a
  · subst hn
    rw [Function.update_self]
    by_cases hm : m = n
    · subst hm
      rw [Function.update_self]
    · exact (hv m hm).trans hup
  · rw [Function.update_of_ne hn]
    exact (hK n m).trans hup

/-- Nobody is ahead of a node in the node's own counter, and no stamp is. -/
theorem counter_le_own (hr : Run stamp h K) :
    (∀ n m, K n m ≤ K m m) ∧ ∀ o, Created h o → ∀ m, stamp o m ≤ K m m := by
  induction hr with
  | nil => exact ⟨fun _ _ => le_rfl, fun o ⟨n, hn⟩ => by simp at hn⟩
  | @idle h K a hr ih =>
    have hK := counter_update ih.1 (le_tick a (K a)) fun m hm =>
      (tick_of_ne hm (K a)).trans_le (ih.1 a m)
    refine ⟨hK, fun o ho m => (ih.2 o ho m).trans ?_⟩
    exact le_update (le_tick a (K a)) m m
  | @create h K a b hr hnew hstamp ih =>
    have hle : K a ≤ stamp b := hstamp ▸ le_tick a (K a)
    have hK := counter_update ih.1 hle fun m hm => by
      rw [hstamp, tick_of_ne hm]
      exact ih.1 a m
    refine ⟨hK, fun o ho m => ?_⟩
    rcases created_append_created.mp ho with ho | rfl
    · exact (ih.2 o ho m).trans (le_update hle m m)
    · simpa only [Function.update_self] using hK a m
  | @observe h K a b hr hb ih =>
    have hK := counter_update (v := K a ⊔ stamp b) ih.1 le_sup_left fun m _ =>
      sup_le (ih.1 a m) (ih.2 b hb m)
    refine ⟨hK, fun o ho m => (ih.2 o (created_append_observed.mp ho) m).trans ?_⟩
    exact le_update le_sup_left m m

/-- A stamp is positive at its creator. -/
theorem stamp_pos (hr : Run stamp h K) {n : N} {o : O} (hc : Event.created n o ∈ h) :
    0 < stamp o n := by
  induction hr with
  | nil => simp at hc
  | idle _ _ ih => exact ih hc
  | create m b _ _ hstamp ih =>
    rcases List.mem_append.mp hc with hc | hc
    · exact ih hc
    · obtain ⟨rfl, rfl⟩ : n = m ∧ o = b := by simpa using hc
      rw [hstamp, tick_self]
      exact Nat.succ_pos _
  | observe m b _ _ ih => exact ih (by simpa using hc)

/-- What a node's vector says about another node, it has learned from an operation. -/
theorem exists_known_of_pos (hr : Run stamp h K) {n m : N} (hne : m ≠ n) (hpos : 0 < K n m) :
    ∃ o, Known h n o ∧ K n m ≤ stamp o m := by
  induction hr with
  | nil => simp at hpos
  | @idle h K a _ ih =>
    by_cases hn : n = a
    · subst hn
      rw [Function.update_self, tick_of_ne hne] at hpos ⊢
      exact ih hpos
    · rw [Function.update_of_ne hn] at hpos ⊢
      exact ih hpos
  | @create h K a b _ _ hstamp ih =>
    by_cases hn : n = a
    · subst hn
      rw [Function.update_self]
      exact ⟨b, known_append_created.mpr (Or.inr ⟨rfl, rfl⟩), le_rfl⟩
    · rw [Function.update_of_ne hn] at hpos ⊢
      exact (ih hpos).imp fun o ho => ⟨ho.1.append, ho.2⟩
  | @observe h K a b _ _ ih =>
    by_cases hn : n = a
    · subst hn
      rw [Function.update_self, Pi.sup_apply] at hpos ⊢
      rcases le_total (K n m) (stamp b m) with hle | hle
      · exact ⟨b, known_append_observed.mpr (Or.inr ⟨rfl, rfl⟩), sup_le hle le_rfl⟩
      · rw [sup_eq_left.mpr hle] at hpos ⊢
        exact (ih hpos).imp fun o ho => ⟨ho.1.append, ho.2⟩
    · rw [Function.update_of_ne hn] at hpos ⊢
      exact (ih hpos).imp fun o ho => ⟨ho.1.append, ho.2⟩

/-! ### Stamps decide causality -/

/-- A direct predecessor has a smaller stamp. -/
theorem stamp_lt_of_direct (hr : Run stamp h K) {a b : O} (hd : Direct h a b) :
    stamp a < stamp b := by
  induction hr with
  | nil => obtain ⟨_, _, _, heq, _⟩ := hd; simp at heq
  | idle _ _ ih => exact ih hd
  | @create h K m c hr hnew hstamp ih =>
    rcases direct_append.mp hd with hd | ⟨n, he, hk⟩
    · exact ih hd
    · obtain ⟨rfl, rfl⟩ : m = n ∧ c = b := by simpa using he
      have hle := hr.stamp_le_of_known hk
      rw [hstamp]
      refine Pi.lt_def.mpr ⟨hle.trans (le_tick m (K m)), m, ?_⟩
      rw [tick_self]
      exact Nat.lt_succ_of_le (hle m)
  | observe m c _ _ ih =>
    rcases direct_append.mp hd with hd | ⟨n, he, -⟩
    · exact ih hd
    · simp at he

theorem stamp_lt_of_precedes (hr : Run stamp h K) {a b : O} (hp : Precedes h a b) :
    stamp a < stamp b := by
  induction hp with
  | single hd => exact hr.stamp_lt_of_direct hd
  | tail _ hd ih => exact ih.trans (hr.stamp_lt_of_direct hd)

/-- A stamp that reaches another operation's counter at the creator of that operation comes from the
operation itself or from one it precedes. -/
theorem precedes_of_stamp_le (hr : Run stamp h K) {n : N} {a b : O}
    (ha : Event.created n a ∈ h) (hb : Created h b) (hle : stamp a n ≤ stamp b n) :
    a = b ∨ Precedes h a b := by
  induction hr generalizing a b with
  | nil => simp at ha
  | idle _ _ ih => exact ih ha hb hle
  | @observe h K m c _ _ ih =>
    have ha' : Event.created n a ∈ h := by simpa using ha
    exact (ih ha' (created_append_observed.mp hb) hle).imp_right Precedes.append
  | @create h K m c hr hnew hstamp ih =>
    rcases created_append_created.mp hb with hb₀ | hbc
    · rcases List.mem_append.mp ha with ha₀ | ha₀
      · exact (ih ha₀ hb₀ hle).imp_right Precedes.append
      · -- `a` is the new operation: its counter is ahead of every stamp before it.
        obtain ⟨rfl, rfl⟩ : n = m ∧ a = c := by simpa using ha₀
        have hown := hr.counter_le_own.2 b hb₀ n
        rw [hstamp, tick_self] at hle
        omega
    · subst hbc
      rcases List.mem_append.mp ha with ha₀ | ha₀
      · -- `b` is the new operation: its creator knew `a`, or an operation that `a` precedes.
        have hdirect {x : O} (hx : Known h m x) : Direct (h ++ [Event.created m b]) x b :=
          direct_append.mpr (Or.inr ⟨m, rfl, hx⟩)
        by_cases hn : n = m
        · subst hn
          exact Or.inr (.single (hdirect (Or.inl ha₀)))
        · rw [hstamp, tick_of_ne hn] at hle
          obtain ⟨x, hx, hKx⟩ := hr.exists_known_of_pos hn ((hr.stamp_pos ha₀).trans_le hle)
          rcases ih ha₀ (hr.created_of_known hx) (hle.trans hKx) with rfl | hp
          · exact Or.inr (.single (hdirect hx))
          · exact Or.inr (hp.append.tail (hdirect hx))
      · obtain ⟨-, rfl⟩ : n = m ∧ a = b := by simpa using ha₀
        exact Or.inl rfl

/-- **Stamps decide causality.** For distinct operations, the first causally precedes the second if
and only if its stamp is smaller. -/
theorem precedes_iff_stamp_lt (hr : Run stamp h K) {a b : O} (ha : Created h a) (hb : Created h b)
    (hne : a ≠ b) : Precedes h a b ↔ stamp a < stamp b := by
  refine ⟨hr.stamp_lt_of_precedes, fun hlt => ?_⟩
  obtain ⟨n, hn⟩ := ha
  exact (hr.precedes_of_stamp_le hn hb (hlt.le n)).resolve_left hne

end Run

/-! ### Gap-free observation -/

/-- Every node that knows an operation knows all the operations with smaller stamps. -/
def GapFree (stamp : O → N → ℕ) (h : List (Event N O)) : Prop :=
  ∀ n a b, Created h a → Known h n b → stamp a < stamp b → Known h n a

namespace GapFree

variable {stamp : O → N → ℕ} {h : List (Event N O)} {K : N → N → ℕ}

/-- In a gap-free history a node knows every operation whose stamp its vector dominates. -/
theorem known_of_stamp_le (hg : GapFree stamp h) (hr : Run stamp h K) {n : N} {a : O}
    (ha : Created h a) (hle : stamp a ≤ K n) : Known h n a := by
  obtain ⟨m, hm⟩ := ha
  by_cases hn : m = n
  · subst hn
    exact Or.inl hm
  · obtain ⟨x, hx, hKx⟩ := hr.exists_known_of_pos hn ((hr.stamp_pos hm).trans_le (hle m))
    rcases hr.precedes_of_stamp_le hm (hr.created_of_known hx) ((hle m).trans hKx) with rfl | hp
    · exact hx
    · exact hg n a x ⟨m, hm⟩ hx (hr.stamp_lt_of_precedes hp)

omit [DecidableEq N] in
theorem nil : GapFree stamp ([] : List (Event N O)) := fun _ _ _ ⟨_, hm⟩ => by simp at hm

/-- Creating an operation leaves no gap. -/
theorem create (hg : GapFree stamp h) (hr : Run stamp h K) {m : N} {c : O}
    (hstamp : stamp c = tick m (K m)) : GapFree stamp (h ++ [Event.created m c]) := by
  intro n a b ha hb hlt
  rcases created_append_created.mp ha with ha₀ | hac
  · rcases known_append_created.mp hb with hb₀ | ⟨hnm, hbc⟩
    · exact (hg n a b ha₀ hb₀ hlt).append
    · -- `a` is below the creator's vector, so the creator knew it.
      subst hnm hbc
      refine Known.append (hg.known_of_stamp_le hr ha₀ fun j => ?_)
      by_cases hj : j = n
      · subst hj
        exact hr.counter_le_own.2 a ha₀ j
      · have hle := hlt.le j
        rwa [hstamp, tick_of_ne hj] at hle
  · -- `a` is the new operation, ahead of every stamp before it.
    subst hac
    rcases known_append_created.mp hb with hb₀ | ⟨-, hba⟩
    · have hown := hr.counter_le_own.2 b (hr.created_of_known hb₀) m
      have hle := hlt.le m
      simp only [hstamp, tick_self] at hle
      omega
    · exact absurd (hba ▸ hlt) (lt_irrefl _)

omit [DecidableEq N] in
/-- Observing an operation after all the operations with smaller stamps leaves no gap. -/
theorem observe (hg : GapFree stamp h) {m : N} {c : O}
    (hc : ∀ a, Created h a → stamp a < stamp c → Known h m a) :
    GapFree stamp (h ++ [Event.observed m c]) := by
  intro n a b ha hb hlt
  have ha' := created_append_observed.mp ha
  rcases known_append_observed.mp hb with hb | ⟨rfl, rfl⟩
  · exact (hg n a b ha' hb hlt).append
  · exact (hc a ha' hlt).append

end GapFree

end VectorTime
