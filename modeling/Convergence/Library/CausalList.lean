import Convergence.Library.VectorTime

/-!
# Lists in causal order

A list of operations is causally closed over a set of known operations when every operation of the
list finds the ones with smaller stamps before it or in the set. A node that knows the set can
observe the list from front to back without a gap. Closed lists arise from the log of a node in a
gap-free history, and stay closed when what is known is taken out and when the end is cut off.

## Main definitions

* `VectorTime.CausallyClosed`.

## Main results

* `VectorTime.CausallyClosed.append_singleton_iff`, `VectorTime.CausallyClosed.tail`.
* `VectorTime.CausallyClosed.filter`, `VectorTime.CausallyClosed.drop`,
  `VectorTime.CausallyClosed.front`.
-/

namespace VectorTime

variable {N O : Type*}

/-- Every operation of the list finds the operations with smaller stamps before it or in `known`. -/
def CausallyClosed (stamp : O → N → ℕ) (h : List (Event N O)) (known : O → Prop) (ops : List O) :
    Prop :=
  ∀ before op after, ops = before ++ op :: after → ∀ a, Created h a → stamp a < stamp op →
    a ∈ before ∨ known a

namespace CausallyClosed

variable {stamp : O → N → ℕ} {h : List (Event N O)} {known known' : O → Prop} {ops ops' : List O}
  {op : O}

theorem nil : CausallyClosed stamp h known [] := fun before op after heq => by simp at heq

theorem append_singleton_iff : CausallyClosed stamp h known (ops ++ [op]) ↔
    CausallyClosed stamp h known ops ∧
      ∀ a, Created h a → stamp a < stamp op → a ∈ ops ∨ known a := by
  constructor
  · intro hc
    refine ⟨fun before x after heq => ?_, hc ops op [] rfl⟩
    exact hc before x (after ++ [op]) (by rw [heq, List.append_assoc, List.cons_append])
  · rintro ⟨hc, hop⟩ before x after heq
    rcases List.eq_nil_or_concat after with rfl | ⟨after, y, rfl⟩
    · obtain ⟨rfl, hx⟩ := List.append_inj' heq rfl
      obtain rfl := List.singleton_inj.mp hx
      exact hop
    · rw [List.concat_eq_append, ← List.cons_append, ← List.append_assoc] at heq
      exact hc before x after (List.append_inj' heq rfl).1

theorem mono (hc : CausallyClosed stamp h known ops) (hle : ∀ a, known a → known' a) :
    CausallyClosed stamp h known' ops := fun before x after heq a ha hlt =>
  (hc before x after heq a ha hlt).imp_right (hle a)

/-- The end may be cut off. -/
theorem front (hc : CausallyClosed stamp h known ops) (hle : ops' <+: ops) :
    CausallyClosed stamp h known ops' := by
  obtain ⟨rest, rfl⟩ := hle
  intro before x after heq
  exact hc before x (after ++ rest) (by rw [heq, List.append_assoc, List.cons_append])

theorem head (hc : CausallyClosed stamp h known (op :: ops)) (a : O) (ha : Created h a)
    (hlt : stamp a < stamp op) : known a :=
  (hc [] op ops rfl a ha hlt).resolve_left List.not_mem_nil

/-- When the first operation is observed, the others are next. -/
theorem tail (hc : CausallyClosed stamp h known (op :: ops)) :
    CausallyClosed stamp h (fun a => known a ∨ a = op) ops := by
  intro before x after heq a ha hlt
  rcases hc (op :: before) x after (by rw [heq, List.cons_append]) a ha hlt with hmem | hk
  · rcases List.mem_cons.mp hmem with rfl | hmem
    · exact Or.inr (Or.inr rfl)
    · exact Or.inl hmem
  · exact Or.inr (Or.inl hk)

/-- What is known may be taken out, wherever it stands. -/
theorem filter (hc : CausallyClosed stamp h known ops) (p : O → Bool)
    (hp : ∀ a ∈ ops, p a = false → known a) : CausallyClosed stamp h known (ops.filter p) := by
  induction ops using List.reverseRecOn with
  | nil => exact nil
  | append_singleton ops x ih =>
    obtain ⟨hops, hx⟩ := append_singleton_iff.mp hc
    have ih := ih hops fun a ha => hp a (List.mem_append_left _ ha)
    rw [List.filter_append]
    cases hpx : p x with
    | false => simpa [hpx] using ih
    | true =>
      rw [List.filter_cons_of_pos hpx, List.filter_nil]
      refine append_singleton_iff.mpr ⟨ih, fun a ha hlt => ?_⟩
      rcases hx a ha hlt with hmem | hk
      · cases hpa : p a with
        | true => exact Or.inl (List.mem_filter.mpr ⟨hmem, hpa⟩)
        | false => exact Or.inr (hp a (List.mem_append_left _ hmem) hpa)
      · exact Or.inr hk

/-- What is known may be cut off the front. -/
theorem drop (hc : CausallyClosed stamp h known ops) {k : ℕ} (hk : ∀ a ∈ ops.take k, known a) :
    CausallyClosed stamp h known (ops.drop k) := by
  intro before x after heq a ha hlt
  have hops : ops = ops.take k ++ before ++ x :: after := by
    rw [List.append_assoc, ← heq, List.take_append_drop]
  rcases hc _ x after hops a ha hlt with hmem | hknown
  · exact (List.mem_append.mp hmem).symm.imp_right (hk a)
  · exact Or.inr hknown

/-- An operation that is created later is below none of the list. -/
theorem create (hc : CausallyClosed stamp h known ops) {n : N} {b : O}
    (hb : ∀ x ∈ ops, ¬ stamp b < stamp x) :
    CausallyClosed stamp (h ++ [Event.created n b]) known ops := by
  intro before x after heq a ha hlt
  rcases created_append_created.mp ha with ha | rfl
  · exact hc before x after heq a ha hlt
  · exact absurd hlt (hb x (heq ▸ List.mem_append_right _ List.mem_cons_self))

theorem observe_iff {n : N} {b : O} :
    CausallyClosed stamp (h ++ [Event.observed n b]) known ops ↔
      CausallyClosed stamp h known ops := by
  simp only [CausallyClosed, created_append_observed]

end CausallyClosed

end VectorTime
