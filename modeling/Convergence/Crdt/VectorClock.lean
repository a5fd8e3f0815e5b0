import Convergence.OrderBook.Order
import Convergence.Library.SortedMap
import Convergence.Library.VectorTime
import Mathlib.Data.Bool.Basic

/-!
# Vector clocks

The class of `vector_clock.cpp`. A clock is a hash map from node ids to counters, an absent node
standing for counter `0`; `VectorClock.get` reads it as a vector. Merging is the join of vectors and
`happens_before` is their strict order. Counters are natural numbers.

The constructor `VectorClock(node_id)` stores an entry for its node and no operation removes one, so
a clock carries the fact that it has its owner's entry. The default constructor does not, but the
code only uses it for values that it overwrites.

## Main definitions

* `VectorClock`, `VectorClock.new`, `VectorClock.tick`, `VectorClock.merge`,
  `VectorClock.happensBefore`, `VectorClock.sameClock`, `VectorClock.get`.

## Main results

* `VectorClock.get_tick`, `VectorClock.get_merge`, `VectorClock.happensBefore_iff`.
-/

namespace Convergence

/-- `std::unordered_map<std::string, uint64_t>`, with the order in which it is iterated. -/
abbrev ClockMap : Type := AList fun _ : Str => ℕ

/-- The counter of a node, `0` when the map has none. -/
def ClockMap.counter (m : ClockMap) (k : Str) : ℕ := (m.lookup k).getD 0

/-- A vector clock of the node `nodeId`. -/
structure VectorClock where
  nodeId : Str
  clock : ClockMap
  /-- The owner has an entry. -/
  owned : nodeId ∈ clock
  deriving DecidableEq

namespace ClockMap

/-- `clock_[key] = value`. -/
def set (m : ClockMap) (k : Str) (v : ℕ) : ClockMap := m.insert k v

/-- The loop body of `merge`: `clock_[key] = std::max(clock_[key], val)`. -/
def raise (m : ClockMap) (e : (_ : Str) × ℕ) : ClockMap := m.set e.1 (max (m.counter e.1) e.2)

theorem lookup_set (m : ClockMap) (k a : Str) (v : ℕ) :
    (m.set k v).lookup a = if a = k then some v else m.lookup a := by
  split_ifs with h
  · subst h
    exact AList.lookup_insert _
  · exact AList.lookup_insert_ne h

theorem counter_set (m : ClockMap) (k : Str) (v : ℕ) :
    (m.set k v).counter = Function.update m.counter k v := by
  funext a
  simp only [counter, lookup_set, Function.update_apply]
  split_ifs <;> rfl

theorem mem_set {m : ClockMap} {k a : Str} {v : ℕ} : a ∈ m.set k v ↔ a = k ∨ a ∈ m :=
  AList.mem_insert m

theorem counter_raise (m : ClockMap) (e : (_ : Str) × ℕ) :
    (m.raise e).counter = Function.update m.counter e.1 (max (m.counter e.1) e.2) :=
  counter_set ..

theorem mem_foldl_raise {a : Str} (l : List ((_ : Str) × ℕ)) {m : ClockMap} (h : a ∈ m) :
    a ∈ l.foldl raise m := by
  induction l generalizing m with
  | nil => exact h
  | cons e l ih => exact ih (mem_set.mpr (Or.inr h))

/-- The loop of `merge` takes the larger counter of every node. -/
theorem counter_foldl_raise {l : List ((_ : Str) × ℕ)} (hl : l.NodupKeys) (m : ClockMap) (a : Str) :
    (l.foldl raise m).counter a = max (m.counter a) ((l.dlookup a).getD 0) := by
  induction l generalizing m with
  | nil => simp
  | cons e l ih =>
    obtain ⟨he, hl⟩ := List.nodupKeys_cons.mp hl
    rw [List.foldl_cons, ih hl, counter_raise, SortedMap.dlookup_cons, Function.update_apply]
    split_ifs with ha
    · -- The key of `e` does not occur again.
      subst ha
      rw [List.dlookup_eq_none.mpr he, Option.getD_none, Option.getD_some, Nat.max_zero]
    · rfl

end ClockMap

namespace VectorClock

/-- The vector a clock stands for. -/
def get (c : VectorClock) : Str → ℕ := c.clock.counter

/-- `VectorClock::VectorClock`: counter `0` for the owner. -/
def new (nodeId : Str) : VectorClock where
  nodeId := nodeId
  clock := ClockMap.set ∅ nodeId 0
  owned := ClockMap.mem_set.mpr (Or.inl rfl)

/-- `VectorClock::tick`: the clock with its owner's counter advanced, and the new value. -/
def tick (c : VectorClock) : VectorClock × ℕ :=
  let value := c.clock.counter c.nodeId + 1
  ({ c with
      clock := c.clock.set c.nodeId value
      owned := ClockMap.mem_set.mpr (Or.inl rfl) }, value)

/-- `VectorClock::merge`. -/
def merge (c other : VectorClock) : VectorClock :=
  { c with
    clock := other.clock.entries.foldl ClockMap.raise c.clock
    owned := ClockMap.mem_foldl_raise _ c.owned }

/-- The first loop of `happens_before`: `none` for the early `return false`, otherwise the value of
`at_least_one_less`. -/
def compareEntries (other : ClockMap) : List ((_ : Str) × ℕ) → Bool → Option Bool
  | [], atLeastOneLess => some atLeastOneLess
  | e :: entries, atLeastOneLess =>
    let otherVal := other.counter e.1
    if otherVal < e.2 then none
    else compareEntries other entries (if e.2 < otherVal then true else atLeastOneLess)

/-- The second loop of `happens_before`. -/
def checkMissing (clock : ClockMap) : List ((_ : Str) × ℕ) → Bool → Bool
  | [], atLeastOneLess => atLeastOneLess
  | e :: entries, atLeastOneLess =>
    checkMissing clock entries (if e.1 ∉ clock ∧ 0 < e.2 then true else atLeastOneLess)

/-- `VectorClock::happens_before`. -/
def happensBefore (c other : VectorClock) : Bool :=
  match compareEntries other.clock c.clock.entries false with
  | none => false
  | some atLeastOneLess => checkMissing c.clock other.clock.entries atLeastOneLess

/-- `get_clock() == other.get_clock()`: equality of hash maps, whatever their iteration order. -/
def sameClock (c other : VectorClock) : Bool :=
  decide (c.clock.entries.Perm other.clock.entries)

/-! ### Clocks as vectors -/

@[simp] theorem get_new (nodeId : Str) : (new nodeId).get = fun _ => 0 := by
  funext a
  rw [get, new, ClockMap.counter_set, Function.update_apply]
  split_ifs <;> rfl

@[simp] theorem nodeId_tick (c : VectorClock) : c.tick.1.nodeId = c.nodeId := rfl

@[simp] theorem nodeId_merge (c other : VectorClock) : (c.merge other).nodeId = c.nodeId := rfl

/-- The new value is the owner's own counter, whatever the other entries are. -/
theorem snd_tick (c : VectorClock) : c.tick.2 = c.get c.nodeId + 1 := rfl

theorem get_tick (c : VectorClock) : c.tick.1.get = VectorTime.tick c.nodeId c.get :=
  ClockMap.counter_set ..

theorem compareEntries_eq_none {other : ClockMap} {l : List ((_ : Str) × ℕ)} {less : Bool} :
    compareEntries other l less = none ↔ ∃ e ∈ l, other.counter e.1 < e.2 := by
  induction l generalizing less with
  | nil => simp [compareEntries]
  | cons e l ih =>
    rw [compareEntries]
    by_cases h : other.counter e.1 < e.2
    · simp [h]
    · rw [if_neg h, ih]
      simp [h]

theorem compareEntries_eq_some {other : ClockMap} {l : List ((_ : Str) × ℕ)} {less less' : Bool}
    (h : compareEntries other l less = some less') :
    less' = true ↔ less = true ∨ ∃ e ∈ l, e.2 < other.counter e.1 := by
  induction l generalizing less with
  | nil =>
    obtain rfl := Option.some.inj h
    simp
  | cons e l ih =>
    rw [compareEntries] at h
    split_ifs at h with hgt hlt
    · rw [ih h]
      simp [hlt]
    · rw [ih h]
      simp [hlt]

theorem checkMissing_iff {clock : ClockMap} {l : List ((_ : Str) × ℕ)} {less : Bool} :
    checkMissing clock l less = true ↔ less = true ∨ ∃ e ∈ l, e.1 ∉ clock ∧ 0 < e.2 := by
  induction l generalizing less with
  | nil => simp [checkMissing]
  | cons e l ih =>
    rw [checkMissing, ih]
    split_ifs with h
    · simp [h]
    · simp [h]

theorem mem_entries_iff {m : ClockMap} {e : (_ : Str) × ℕ} :
    e ∈ m.entries ↔ m.lookup e.1 = some e.2 :=
  AList.mem_lookup_iff.symm

end VectorClock

namespace ClockMap

open VectorClock

/-- The two loops of `happens_before`, on the maps of the two clocks. -/
def before (m other : ClockMap) : Bool :=
  match compareEntries other m.entries false with
  | none => false
  | some atLeastOneLess => checkMissing m other.entries atLeastOneLess

/-- No entry of `m` exceeds the counter in `other`. -/
theorem counter_le_iff {m other : ClockMap} :
    m.counter ≤ other.counter ↔ ∀ e ∈ m.entries, e.2 ≤ other.counter e.1 := by
  constructor
  · intro h e he
    have hcounter : m.counter e.1 = e.2 := by
      rw [counter, mem_entries_iff.mp he, Option.getD_some]
    exact hcounter ▸ h e.1
  · intro h a
    cases ha : m.lookup a with
    | none => simp [counter, ha]
    | some v =>
      have hcounter : m.counter a = v := by rw [counter, ha, Option.getD_some]
      rw [hcounter]
      exact h ⟨a, v⟩ (mem_entries_iff.mpr ha)

/-- The two loops together look for a node whose counter is larger in `other`. -/
theorem exists_less_iff {m other : ClockMap} :
    ((∃ e ∈ m.entries, e.2 < other.counter e.1) ∨
      ∃ e ∈ other.entries, e.1 ∉ m ∧ 0 < e.2) ↔ ∃ a, m.counter a < other.counter a := by
  constructor
  · rintro (⟨e, he, hlt⟩ | ⟨e, he, hmem, hpos⟩)
    · refine ⟨e.1, ?_⟩
      rwa [counter, mem_entries_iff.mp he, Option.getD_some]
    · refine ⟨e.1, ?_⟩
      rwa [counter, counter, mem_entries_iff.mp he, AList.lookup_eq_none.mpr hmem,
        Option.getD_some, Option.getD_none]
  · rintro ⟨a, hlt⟩
    cases ha : m.lookup a with
    | some v =>
      refine Or.inl ⟨⟨a, v⟩, mem_entries_iff.mpr ha, ?_⟩
      rwa [counter, ha, Option.getD_some] at hlt
    | none =>
      rw [counter, ha, Option.getD_none] at hlt
      cases hb : other.lookup a with
      | none => simp [counter, hb] at hlt
      | some w =>
        rw [counter, hb, Option.getD_some] at hlt
        exact Or.inr ⟨⟨a, w⟩, mem_entries_iff.mpr hb, AList.lookup_eq_none.mp ha, hlt⟩

/-- The loops compare maps as vectors. -/
theorem before_iff {m other : ClockMap} :
    m.before other = true ↔ m.counter < other.counter := by
  rw [Pi.lt_def, counter_le_iff, ← exists_less_iff, before]
  cases h : compareEntries other m.entries false with
  | none =>
    obtain ⟨e, he, hlt⟩ := compareEntries_eq_none.mp h
    refine ⟨fun hf => absurd hf (by simp), fun hle => ?_⟩
    exact absurd (hle.1 e he) hlt.not_ge
  | some less =>
    have hle : ∀ e ∈ m.entries, e.2 ≤ other.counter e.1 := fun e he => by
      by_contra hlt
      rw [compareEntries_eq_none.mpr ⟨e, he, not_le.mp hlt⟩] at h
      cases h
    rw [checkMissing_iff, compareEntries_eq_some h, and_iff_right hle]
    simp only [Bool.false_eq_true, false_or]

/-- The loop of `merge` takes the join. -/
theorem counter_merge (m other : ClockMap) :
    (other.entries.foldl raise m).counter = m.counter ⊔ other.counter :=
  funext fun a => counter_foldl_raise other.nodupKeys m a

end ClockMap

namespace VectorClock

theorem get_le_iff {c other : VectorClock} :
    c.get ≤ other.get ↔ ∀ e ∈ c.clock.entries, e.2 ≤ other.clock.counter e.1 :=
  ClockMap.counter_le_iff

/-- Merging is the join. -/
theorem get_merge (c other : VectorClock) : (c.merge other).get = c.get ⊔ other.get :=
  ClockMap.counter_merge c.clock other.clock

/-- **`happens_before` is the strict order of vectors.** -/
theorem happensBefore_iff {c other : VectorClock} :
    c.happensBefore other = true ↔ c.get < other.get :=
  ClockMap.before_iff

theorem get_eq_of_sameClock {c other : VectorClock} (h : c.sameClock other = true) :
    c.get = other.get := by
  have hperm := of_decide_eq_true h
  funext a
  simp only [get, ClockMap.counter, AList.lookup, List.perm_dlookup a c.clock.nodupKeys hperm]

end VectorClock

end Convergence
