import Mathlib.Data.List.Sigma
import Mathlib.Order.RelClasses

/-!
# Ordered maps as sorted association lists

A finite map whose keys are kept strictly increasing along a relation `r`, the comparator of an
ordered container. The entries are a list of pairs, so a traversal from the first key to the last
is a list recursion, and every operation returns a map that is sorted again. For a strict total
order `r` such a map is determined by its lookup function (`SortedMap.ext_find?`).

## Main definitions

* `SortedMap`, `SortedMap.find?`.
* `SortedMap.upsert` rewrites the value at a key, starting from `none` when the key is absent.
* `SortedMap.erase`.
* `SortedMap.rebuild` replaces the entries by a list whose keys are a sublist of the old keys; this
  is what a traversal that rewrites and erases entries leaves behind.

## Main results

* `SortedMap.find?_upsert`, `SortedMap.find?_erase`: the operations as functions of the key.
* `SortedMap.ext_find?`: two maps with the same lookups are equal.
-/

/-- A finite map from `K` to `V`, kept as the list of its entries with keys strictly increasing
along `r`. -/
structure SortedMap {K : Type*} (r : K → K → Prop) (V : Type*) where
  /-- The entries in key order. -/
  entries : List ((_ : K) × V)
  /-- The keys increase strictly along `r`. -/
  sorted : entries.keys.Pairwise r

namespace SortedMap

variable {K V W : Type*} {r : K → K → Prop}

/-- The map without entries. -/
def empty : SortedMap r V := ⟨[], .nil⟩

theorem nodupKeys [Std.Irrefl r] (m : SortedMap r V) : m.entries.NodupKeys :=
  List.Pairwise.imp (S := (· ≠ ·)) (fun h hab => irrefl (r := r) _ (hab ▸ h)) m.sorted

/-- Lookup in a non-empty list of entries with one value type. -/
theorem dlookup_cons [DecidableEq K] (e : (_ : K) × V) (l : List ((_ : K) × V)) (a : K) :
    (e :: l).dlookup a = if a = e.1 then some e.2 else l.dlookup a := by
  split_ifs with h
  · subst h
    exact List.dlookup_cons_eq l e.1 e.2
  · exact List.dlookup_cons_ne l e h

/-- The value stored under a key. -/
def find? [DecidableEq K] (m : SortedMap r V) (k : K) : Option V := m.entries.dlookup k

theorem find?_eq_some_iff [DecidableEq K] [Std.Irrefl r] {m : SortedMap r V} {k : K} {v : V} :
    m.find? k = some v ↔ (⟨k, v⟩ : (_ : K) × V) ∈ m.entries :=
  List.mem_dlookup_iff m.nodupKeys

/-- A map along a strict total order is determined by its lookups. -/
theorem ext_find? [DecidableEq K] [IsStrictTotalOrder K r] {m m' : SortedMap r V}
    (h : ∀ k, m.find? k = m'.find? k) : m = m' := by
  have hperm : m.entries.Perm m'.entries :=
    List.lookup_ext m.nodupKeys m'.nodupKeys fun k v => by
      change v ∈ m.find? k ↔ v ∈ m'.find? k
      rw [h]
  have hs : m.entries.Pairwise fun a b => r a.1 b.1 := List.pairwise_map.mp m.sorted
  have hs' : m'.entries.Pairwise fun a b => r a.1 b.1 := List.pairwise_map.mp m'.sorted
  have heq : m.entries = m'.entries :=
    hperm.eq_of_pairwise (fun _ _ _ _ hab hba => absurd hba (asymm hab)) hs hs'
  cases m
  cases m'
  cases heq
  rfl

/-! ### Rewriting the value at a key -/

section Upsert

variable [DecidableEq K] [DecidableRel r]

/-- The entries after the value at `k` is rewritten by `f`. -/
def upsertEntries (r : K → K → Prop) [DecidableRel r] (k : K) (f : Option V → V) :
    List ((_ : K) × V) → List ((_ : K) × V)
  | [] => [⟨k, f none⟩]
  | e :: l =>
    if k = e.1 then ⟨k, f (some e.2)⟩ :: l
    else if r k e.1 then ⟨k, f none⟩ :: e :: l
    else e :: upsertEntries r k f l

theorem mem_keys_upsertEntries {k a : K} {f : Option V → V} {l : List ((_ : K) × V)}
    (h : a ∈ (upsertEntries r k f l).keys) : a = k ∨ a ∈ l.keys := by
  induction l with
  | nil => simpa [upsertEntries] using h
  | cons e l ih =>
    rw [upsertEntries] at h
    split_ifs at h with hk hr
    · rcases List.mem_cons.mp h with rfl | h
      · exact Or.inl rfl
      · exact Or.inr (List.mem_cons_of_mem _ h)
    · rcases List.mem_cons.mp h with rfl | h
      · exact Or.inl rfl
      · exact Or.inr h
    · rcases List.mem_cons.mp h with rfl | h
      · exact Or.inr List.mem_cons_self
      · exact (ih h).imp_right (List.mem_cons_of_mem _)

theorem dlookup_upsertEntries_of_ne {k a : K} (h : a ≠ k) (f : Option V → V)
    (l : List ((_ : K) × V)) : (upsertEntries r k f l).dlookup a = l.dlookup a := by
  induction l with
  | nil => simp [upsertEntries, h]
  | cons e l ih =>
    rw [upsertEntries]
    split_ifs with hk hr
    · rw [dlookup_cons, dlookup_cons, if_neg h, if_neg (hk ▸ h)]
    · rw [dlookup_cons, if_neg h]
    · rw [dlookup_cons, dlookup_cons, ih]

variable [IsStrictTotalOrder K r]

theorem sorted_upsertEntries (k : K) (f : Option V → V) {l : List ((_ : K) × V)}
    (h : l.keys.Pairwise r) : (upsertEntries r k f l).keys.Pairwise r := by
  induction l with
  | nil => simp [upsertEntries]
  | cons e l ih =>
    obtain ⟨he, hl⟩ := List.pairwise_cons.mp h
    rw [upsertEntries]
    split_ifs with hk hr
    · subst hk
      exact h
    · refine List.pairwise_cons.mpr ⟨fun a ha => ?_, h⟩
      rcases List.mem_cons.mp ha with rfl | ha
      · exact hr
      · exact IsTrans.trans _ _ _ hr (he a ha)
    · refine List.pairwise_cons.mpr ⟨fun a ha => ?_, ih hl⟩
      rcases mem_keys_upsertEntries ha with rfl | ha
      · exact ((trichotomous (r := r) a e.1).resolve_left hr).resolve_left hk
      · exact he a ha

theorem dlookup_upsertEntries_self (k : K) (f : Option V → V) {l : List ((_ : K) × V)}
    (h : l.keys.Pairwise r) :
    (upsertEntries r k f l).dlookup k = some (f (l.dlookup k)) := by
  induction l with
  | nil => simp [upsertEntries]
  | cons e l ih =>
    obtain ⟨he, hl⟩ := List.pairwise_cons.mp h
    rw [upsertEntries]
    split_ifs with hk hr
    · rw [dlookup_cons, dlookup_cons, if_pos rfl, if_pos hk]
    · have hnone : (e :: l).dlookup k = none := by
        rw [List.dlookup_eq_none, List.keys_cons, List.mem_cons, not_or]
        exact ⟨hk, fun hmem => asymm hr (he k hmem)⟩
      rw [dlookup_cons, if_pos rfl, hnone]
    · rw [dlookup_cons, dlookup_cons, if_neg hk, if_neg hk, ih hl]

/-- Rewrite the value at `k` by `f`, inserting the key when it is absent. -/
def upsert (m : SortedMap r V) (k : K) (f : Option V → V) : SortedMap r V :=
  ⟨upsertEntries r k f m.entries, sorted_upsertEntries k f m.sorted⟩

theorem find?_upsert (m : SortedMap r V) (k a : K) (f : Option V → V) :
    (m.upsert k f).find? a = if a = k then some (f (m.find? k)) else m.find? a := by
  split_ifs with h
  · subst h
    exact dlookup_upsertEntries_self a f m.sorted
  · exact dlookup_upsertEntries_of_ne h f m.entries

end Upsert

/-! ### Erasing and mapping -/

/-- Remove the entry at `k`. -/
def erase [DecidableEq K] (m : SortedMap r V) (k : K) : SortedMap r V :=
  ⟨m.entries.kerase k, by
    rw [List.keys_kerase]
    exact m.sorted.sublist List.erase_sublist⟩

theorem find?_erase [DecidableEq K] [Std.Irrefl r] (m : SortedMap r V) (k a : K) :
    (m.erase k).find? a = if a = k then none else m.find? a := by
  split_ifs with h
  · subst h
    exact List.dlookup_kerase a m.nodupKeys
  · exact List.dlookup_kerase_ne h

/-- Lookup after a rewriting traversal that maps or drops each value. -/
theorem dlookup_filterMap [DecidableEq K] (g : (e : (_ : K) × V) → Option W)
    {l : List ((_ : K) × V)} (h : l.NodupKeys) (k : K) :
    (l.filterMap fun e => (g e).map fun w => (⟨e.1, w⟩ : (_ : K) × W)).dlookup k =
      (l.dlookup k).bind fun v => g ⟨k, v⟩ := by
  induction l with
  | nil => rfl
  | cons e l ih =>
    obtain ⟨k', v⟩ := e
    obtain ⟨hk', hl⟩ := List.nodupKeys_cons.mp h
    rw [List.filterMap_cons, dlookup_cons]
    cases hg : g ⟨k', v⟩ with
    | none =>
      rw [Option.map_none, ih hl]
      split_ifs with hk
      · subst hk
        rw [List.dlookup_eq_none.mpr hk', Option.bind_none, Option.bind_some, hg]
      · rfl
    | some w =>
      rw [Option.map_some, dlookup_cons, ih hl]
      split_ifs with hk
      · subst hk
        rw [Option.bind_some, hg]
      · rfl

/-- The map with entries `l`, whose keys are a sublist of the keys of `m`. -/
def rebuild (m : SortedMap r V) (l : List ((_ : K) × V)) (h : l.keys.Sublist m.entries.keys) :
    SortedMap r V :=
  ⟨l, m.sorted.sublist h⟩

end SortedMap
