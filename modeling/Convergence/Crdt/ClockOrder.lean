import Convergence.Crdt.VectorClock
import Mathlib.Order.Bounds.Basic

/-!
# The order of vector clocks

A `VectorClock` object of the program holds a node id and a map of `uint64_t` counters, with any
keys: one that was default-constructed has none. Read as vectors, with `0` for an absent key, such
clocks are ordered pointwise; `happens_before` is the strict order, and `merge` takes the least
upper bound. `tick` adds one modulo `2 ^ 64`, so it makes a clock later unless the counter of its
owner is the largest `uint64_t`.

## Main definitions

* `Clock64`: a clock of 64-bit counters, with `tick`, `merge` and `happensBefore`.
* `Clock64.ofVectorClock`: the clocks of natural numbers that fit into one.

## Main results

* `Clock64.isLUB_foldl_merge`: what any sequence of merges gives.
* `Clock64.ofVectorClock_tick`: the two ways to tick agree as long as the counter fits.
* `Clock64.clockOrder`.
-/

namespace Convergence

/-- A `VectorClock` object. -/
structure Clock64 where
  nodeId : Str
  clock : ClockMap
  /-- Counters are `uint64_t`. -/
  fits : ∀ k, clock.counter k < 2 ^ 64

namespace Clock64

/-- The vector a clock stands for. -/
def get (c : Clock64) : Str → ℕ := c.clock.counter

/-- A clock with one counter. -/
def single (nodeId : Str) (value : ℕ) (h : value < 2 ^ 64) : Clock64 where
  nodeId := nodeId
  clock := ClockMap.set ∅ nodeId value
  fits k := by
    rw [ClockMap.counter_set, Function.update_apply]
    split_ifs
    · exact h
    · exact Nat.two_pow_pos 64

/-- `VectorClock::VectorClock`. -/
def new (nodeId : Str) : Clock64 := single nodeId 0 (Nat.two_pow_pos 64)

/-- `VectorClock::tick`: `++clock_[node_id_]`, on a `uint64_t`. -/
def tick (c : Clock64) : Clock64 × ℕ :=
  let value := (c.clock.counter c.nodeId + 1) % 2 ^ 64
  ({ nodeId := c.nodeId
     clock := c.clock.set c.nodeId value
     fits := fun k => by
      rw [ClockMap.counter_set, Function.update_apply]
      split_ifs
      · exact Nat.mod_lt _ (Nat.two_pow_pos 64)
      · exact c.fits k }, value)

/-- `VectorClock::merge`. -/
def merge (c other : Clock64) : Clock64 where
  nodeId := c.nodeId
  clock := other.clock.entries.foldl ClockMap.raise c.clock
  fits k := by
    rw [ClockMap.counter_merge]
    exact max_lt (c.fits k) (other.fits k)

/-- `VectorClock::happens_before`. -/
def happensBefore (c other : Clock64) : Bool := c.clock.before other.clock

variable {a b c : Clock64}

@[simp] theorem get_single (nodeId : Str) (value : ℕ) (h : value < 2 ^ 64) :
    (single nodeId value h).get = Function.update (fun _ => 0) nodeId value :=
  ClockMap.counter_set ..

@[simp] theorem get_new (nodeId : Str) : (new nodeId).get = fun _ => 0 := by
  rw [new, get_single, Function.update_eq_self]

theorem get_tick (c : Clock64) :
    c.tick.1.get = Function.update c.get c.nodeId ((c.get c.nodeId + 1) % 2 ^ 64) :=
  ClockMap.counter_set ..

theorem get_merge (c other : Clock64) : (c.merge other).get = c.get ⊔ other.get :=
  ClockMap.counter_merge c.clock other.clock

theorem happensBefore_iff_lt : a.happensBefore b = true ↔ a.get < b.get := ClockMap.before_iff

/-- Every node is at zero in a new clock, whatever keys it has. -/
theorem new_happensBefore_iff (nodeId : Str) :
    (new nodeId).happensBefore c = true ↔ ∃ k, 0 < c.get k := by
  rw [happensBefore_iff_lt, get_new, Pi.lt_def]
  exact and_iff_right fun k => Nat.zero_le _

/-! ### Clocks of natural numbers -/

/-- A clock of natural numbers whose counters fit. -/
def ofVectorClock (c : VectorClock) (h : ∀ k, c.get k < 2 ^ 64) : Clock64 := ⟨c.nodeId, c.clock, h⟩

@[simp] theorem get_ofVectorClock (c : VectorClock) (h : ∀ k, c.get k < 2 ^ 64) :
    (ofVectorClock c h).get = c.get := rfl

theorem ofVectorClock_happensBefore {c d : VectorClock} (hc : ∀ k, c.get k < 2 ^ 64)
    (hd : ∀ k, d.get k < 2 ^ 64) :
    (ofVectorClock c hc).happensBefore (ofVectorClock d hd) = c.happensBefore d := rfl

theorem ofVectorClock_merge {c d : VectorClock} (hc : ∀ k, c.get k < 2 ^ 64)
    (hd : ∀ k, d.get k < 2 ^ 64) (h : ∀ k, (c.merge d).get k < 2 ^ 64) :
    (ofVectorClock c hc).merge (ofVectorClock d hd) = ofVectorClock (c.merge d) h := rfl

/-- Ticking is the same as long as the new counter fits. -/
theorem ofVectorClock_tick {c : VectorClock} (hc : ∀ k, c.get k < 2 ^ 64)
    (h : ∀ k, c.tick.1.get k < 2 ^ 64) :
    (ofVectorClock c hc).tick = (ofVectorClock c.tick.1 h, c.tick.2) := by
  have hown := h c.nodeId
  rw [VectorClock.get_tick, VectorTime.tick, Function.update_self] at hown
  have hvalue : (c.clock.counter c.nodeId + 1) % 2 ^ 64 = c.clock.counter c.nodeId + 1 :=
    Nat.mod_eq_of_lt hown
  simp only [tick, ofVectorClock, VectorClock.tick, hvalue]

/-! ### Least upper bounds -/

theorem isLUB_merge (a b : Clock64) : IsLUB {a.get, b.get} (a.merge b).get := by
  rw [get_merge]
  exact isLUB_pair

/-- What a sequence of merges gives: the least upper bound of the clocks that went in. -/
theorem isLUB_foldl_merge (a : Clock64) (l : List Clock64) :
    IsLUB {v | ∃ c ∈ a :: l, c.get = v} (l.foldl merge a).get := by
  induction l generalizing a with
  | nil =>
    have hset : {v | ∃ c ∈ [a], c.get = v} = {a.get} := by
      ext v
      simp [eq_comm]
    rw [hset]
    exact isLUB_singleton
  | cons b l ih =>
    rw [List.foldl_cons]
    constructor
    · rintro v ⟨c, hc, rfl⟩
      have hmerged : (a.merge b).get ≤ (l.foldl merge (a.merge b)).get :=
        (ih (a.merge b)).1 ⟨_, List.mem_cons_self, rfl⟩
      rw [get_merge] at hmerged
      rcases List.mem_cons.mp hc with rfl | hc
      · exact le_sup_left.trans hmerged
      · rcases List.mem_cons.mp hc with rfl | hc
        · exact le_sup_right.trans hmerged
        · exact (ih (a.merge b)).1 ⟨c, List.mem_cons_of_mem _ hc, rfl⟩
    · intro u hu
      refine (ih (a.merge b)).2 ?_
      rintro v ⟨c, hc, rfl⟩
      rcases List.mem_cons.mp hc with rfl | hc
      · rw [get_merge]
        exact sup_le (hu ⟨a, List.mem_cons_self, rfl⟩)
          (hu ⟨b, List.mem_cons_of_mem _ List.mem_cons_self, rfl⟩)
      · exact hu ⟨c, List.mem_cons_of_mem _ (List.mem_cons_of_mem _ hc), rfl⟩

/-! ### Ticking -/

/-- A tick makes the clock later as long as the counter does not wrap. -/
theorem happensBefore_tick_iff (c : Clock64) :
    c.happensBefore c.tick.1 = true ↔ c.get c.nodeId < 2 ^ 64 - 1 := by
  have hfits : c.get c.nodeId < 2 ^ 64 := c.fits c.nodeId
  rw [happensBefore_iff_lt, get_tick]
  constructor
  · intro hlt
    by_contra hmax
    have hlast : (c.get c.nodeId + 1) % 2 ^ 64 = 0 := by omega
    have hle : c.get c.nodeId ≤ 0 := by
      have hpoint := hlt.le c.nodeId
      rwa [Function.update_self, hlast] at hpoint
    omega
  · intro hroom
    have hvalue : (c.get c.nodeId + 1) % 2 ^ 64 = c.get c.nodeId + 1 :=
      Nat.mod_eq_of_lt (by omega)
    rw [hvalue]
    refine lt_of_le_of_ne (fun k => ?_) fun heq => ?_
    · rw [Function.update_apply]
      split_ifs with hk
      · rw [hk]
        exact Nat.le_succ _
      · exact le_rfl
    · have hself := congrFun heq c.nodeId
      rw [Function.update_self] at hself
      exact absurd hself (Nat.lt_succ_self _).ne

/-! ### The order -/

/-- What `happens_before`, `merge` and `tick` are on vectors. -/
structure ClockOrder : Prop where
  happensBefore_iff : ∀ a b : Clock64, a.happensBefore b = true ↔
    (∀ k, a.get k ≤ b.get k) ∧ ∃ k, a.get k ≠ b.get k
  irrefl : ∀ a : Clock64, a.happensBefore a = false
  trans : ∀ a b c : Clock64, a.happensBefore b = true → b.happensBefore c = true →
    a.happensBefore c = true
  /-- Entries that are zero do not matter. -/
  congr : ∀ a a' b b' : Clock64, a.get = a'.get → b.get = b'.get →
    a.happensBefore b = a'.happensBefore b'
  merge_isLUB : ∀ a b : Clock64, IsLUB {a.get, b.get} (a.merge b).get
  merge_comm : ∀ a b : Clock64, (a.merge b).get = (b.merge a).get
  merge_assoc : ∀ a b c : Clock64, ((a.merge b).merge c).get = (a.merge (b.merge c)).get
  merge_idem : ∀ a : Clock64, (a.merge a).get = a.get
  /-- Any sequence of merges of the same clocks, in any order and with repetitions. -/
  merges : ∀ (a a' : Clock64) (l l' : List Clock64), (∀ c, c ∈ a :: l ↔ c ∈ a' :: l') →
    (l.foldl merge a).get = (l'.foldl merge a').get
  tick_later : ∀ a : Clock64, a.happensBefore a.tick.1 = true ↔ a.get a.nodeId < 2 ^ 64 - 1

/-- **Vector clocks are a join-semilattice under their own order.** -/
theorem clockOrder : ClockOrder where
  happensBefore_iff a b := by
    rw [happensBefore_iff_lt, lt_iff_le_and_ne, Pi.le_def, Function.ne_iff]
  irrefl a := by
    rw [Bool.eq_false_iff, ne_eq, happensBefore_iff_lt]
    exact lt_irrefl _
  trans a b c := by
    simp only [happensBefore_iff_lt]
    exact lt_trans
  congr a a' b b' ha hb := by
    rw [Bool.eq_iff_iff, happensBefore_iff_lt, happensBefore_iff_lt, ha, hb]
  merge_isLUB := isLUB_merge
  merge_comm a b := by rw [get_merge, get_merge, sup_comm]
  merge_assoc a b c := by simp only [get_merge, sup_assoc]
  merge_idem a := by rw [get_merge, sup_idem]
  merges a a' l l' h := by
    have hlub := isLUB_foldl_merge a l
    simp only [h] at hlub
    exact hlub.unique (isLUB_foldl_merge a' l')
  tick_later := happensBefore_tick_iff

/-- The counter of the owner is the largest there is: the tick wraps to zero. -/
theorem not_happensBefore_tick_largest :
    ¬ (single [65] (2 ^ 64 - 1) (by omega)).happensBefore
      (single [65] (2 ^ 64 - 1) (by omega)).tick.1 = true := by
  have hown : (single [65] (2 ^ 64 - 1) (by omega)).get [65] = 2 ^ 64 - 1 := by
    rw [get_single, Function.update_self]
  rw [happensBefore_tick_iff]
  exact fun hlt => absurd hown hlt.ne

end Clock64

end Convergence
