import Convergence.Library.BigEndian
import Convergence.Library.ByteReader
import Mathlib.Order.Iterate

/-!
# Where a reader stops

An `Extent` says where a format ends when it starts at a position, by following the length fields
that it finds in memory. It only depends on the bytes it spans. Two calculi relate a reader to an
extent. `Walks` is for a reader without checks: it always comes to the end, and it is safe when the
end is in bounds. `Spans` is for a reader that checks before it reads: it succeeds exactly when the
end lies within the bytes given. A reader of this kind can call one of the former, so `Spans`
carries the condition under which all reads are in bounds.

## Main definitions

* `ByteReader.Extent`, with `fixed`, `andThen`, `counted` and `iterate`.
* `ByteReader.Extent.Covers`: the format spans a byte string exactly.
* `ByteReader.Walks`, `ByteReader.Spans`, `ByteReader.EveryTurn`.

## Main results

* `ByteReader.Extent.stop_eq_of_agree`: what lies behind the bytes given does not matter.
* `ByteReader.Extent.Covers.lt_stop`: a format does not end within a strict prefix of what it spans.
* `ByteReader.Walks.bind`, `ByteReader.Spans.bind`, `ByteReader.Spans.peek`,
  `ByteReader.Spans.times`.
-/

namespace ByteReader

/-- The `w` bytes at a position as a number. -/
def number (mem : ℕ → UInt8) (pos w : ℕ) : ℕ := BigEndian.decode (bytesAt mem pos w)

theorem number_congr {mem mem' : ℕ → UInt8} {pos w : ℕ} (h : ∀ i < pos + w, mem i = mem' i) :
    number mem pos w = number mem' pos w :=
  congrArg BigEndian.decode (bytesAt_congr h)

/-- Where a format ends that starts at a position. -/
structure Extent where
  stop : (ℕ → UInt8) → ℕ → ℕ
  le : ∀ mem pos, pos ≤ stop mem pos
  /-- Memory behind the end does not matter. -/
  congr : ∀ mem mem' pos, (∀ i < stop mem pos, mem i = mem' i) → stop mem' pos = stop mem pos

namespace Extent

/-- A field of `k` bytes. -/
def fixed (k : ℕ) : Extent where
  stop _ pos := pos + k
  le _ pos := Nat.le_add_right pos k
  congr _ _ _ _ := rfl

/-- One format behind another. -/
def andThen (e e' : Extent) : Extent where
  stop mem pos := e'.stop mem (e.stop mem pos)
  le mem pos := (e.le mem pos).trans (e'.le mem _)
  congr mem mem' pos h := by
    rw [e.congr mem mem' pos fun i hi => h i (hi.trans_le (e'.le mem _))]
    exact e'.congr mem mem' _ h

/-- A number of `w` bytes, and a format that depends on it. -/
def counted (w : ℕ) (e : ℕ → Extent) : Extent where
  stop mem pos := (e (number mem pos w)).stop mem (pos + w)
  le mem pos := (Nat.le_add_right pos w).trans ((e _).le mem _)
  congr mem mem' pos h := by
    rw [← number_congr fun i hi => h i (hi.trans_le ((e _).le mem _))]
    exact (e _).congr mem mem' _ h

/-- A format `k` times. -/
def iterate (e : Extent) : ℕ → Extent
  | 0 => fixed 0
  | k + 1 => e.andThen (e.iterate k)

variable {mem mem' : ℕ → UInt8} {pos size : ℕ}

/-- Two memories that agree below `size` give the same end, if it lies there. -/
theorem stop_eq_of_agree (e : Extent) (h : ∀ i < size, mem i = mem' i)
    (hle : e.stop mem pos ≤ size) : e.stop mem' pos = e.stop mem pos :=
  e.congr mem mem' pos fun i hi => h i (hi.trans_le hle)

/-- Where the byte string stands, the format ends at its end. -/
def Covers (e : Extent) (bytes : List UInt8) : Prop :=
  ∀ mem pos, bytesAt mem pos bytes.length = bytes → e.stop mem pos = pos + bytes.length

namespace Covers

variable {e e' : Extent} {xs ys bytes : List UInt8}

theorem fixed {k : ℕ} (hk : bytes.length = k) : (fixed k).Covers bytes := fun _ _ _ => by
  rw [hk]
  rfl

theorem andThen (h : e.Covers xs) (h' : e'.Covers ys) : (e.andThen e').Covers (xs ++ ys) := by
  intro mem pos hmem
  obtain ⟨hx, hy⟩ := bytesAt_append hmem
  have hmid := h mem pos hx
  have hstop := h' mem (pos + xs.length) hy
  change e'.stop mem (e.stop mem pos) = _
  rw [hmid, hstop, List.length_append, Nat.add_assoc]

theorem counted {w n : ℕ} {e : ℕ → Extent} (hn : n < 256 ^ w) (h : (e n).Covers bytes) :
    (counted w e).Covers (BigEndian.encode w n ++ bytes) := by
  intro mem pos hmem
  obtain ⟨hx, hy⟩ := bytesAt_append hmem
  rw [BigEndian.length_encode] at hx hy
  have hnumber : number mem pos w = n := by
    rw [number, hx, BigEndian.decode_encode_of_lt hn]
  have hstop := h mem (pos + w) hy
  change (e (number mem pos w)).stop mem (pos + w) = _
  rw [hnumber, hstop, List.length_append, BigEndian.length_encode, Nat.add_assoc]

theorem iterate {ι : Type} {enc : ι → List UInt8} (items : List ι)
    (h : ∀ i ∈ items, e.Covers (enc i)) : (e.iterate items.length).Covers (items.flatMap enc) := by
  induction items with
  | nil => exact fixed rfl
  | cons i items ih =>
    obtain ⟨hi, hitems⟩ := List.forall_mem_cons.mp h
    exact hi.andThen (ih hitems)

/-- A format does not end within a strict prefix of a string that it spans, whatever lies behind the
prefix. -/
theorem lt_stop (h : e.Covers bytes) {k : ℕ} (hk : k < bytes.length) (beyond : ℕ → UInt8) :
    k < e.stop (memory (bytes.take k) beyond) 0 := by
  by_contra hle
  have hagree : ∀ i < k, memory (bytes.take k) beyond i = memory bytes beyond i := by
    intro i hi
    have hlt : i < bytes.length := hi.trans hk
    simp [memory, hi, hlt]
  have hwhole := h (memory bytes beyond) 0 (bytesAt_memory bytes beyond)
  rw [e.stop_eq_of_agree hagree (not_lt.mp hle)] at hwhole
  omega

end Covers

end Extent

variable {α β : Type} {mem : ℕ → UInt8} {pos mid stop size window : ℕ} {r : Reader α}
  {f : α → Reader β} {Q : α → Prop} {R : β → Prop} {S S' : Prop}

/-! ### Readers without checks -/

/-- From `pos` on `r` comes to `stop` with a value with `Q`, and unless it reads nothing its reads
are in bounds if and only if `stop` is. -/
structure Walks (size window : ℕ) (mem : ℕ → UInt8) (pos : ℕ) (r : Reader α) (stop : ℕ)
    (Q : α → Prop) : Prop where
  le : pos ≤ stop
  safe : (r mem pos).Safe size ↔ stop = pos ∨ stop ≤ size ∧ stop ≤ window
  ok : ∃ a, Q a ∧ (r mem pos).result = .ok a ∧ (r mem pos).pos = stop

namespace Walks

theorem pure {a : α} (h : Q a) : Walks size window mem pos (pure a) pos Q where
  le := le_rfl
  safe := iff_of_true (safe_pure a) (Or.inl rfl)
  ok := ⟨a, h, rfl, rfl⟩

theorem take (k : ℕ) :
    Walks size window mem pos (take window k) (pos + k) (· = bytesAt mem pos k) where
  le := Nat.le_add_right pos k
  safe := by rw [safe_take, Nat.add_eq_left]
  ok := ⟨_, rfl, rfl, rfl⟩

theorem bind (hr : Walks size window mem pos r mid Q)
    (hf : ∀ a, Q a → Walks size window mem mid (f a) stop R) :
    Walks size window mem pos (r >>= f) stop R := by
  obtain ⟨a, ha, hok, hpos⟩ := hr.ok
  obtain ⟨b, hb, hok', hpos'⟩ := (hf a ha).ok
  have hle := hr.le
  have hle' := (hf a ha).le
  refine ⟨hle.trans hle', ?_, b, hb, ?_, ?_⟩
  · rw [safe_bind_of_ok hok, hpos, hr.safe, (hf a ha).safe]
    omega
  · rw [result_bind hok, hpos, hok']
  · rw [pos_bind hok, hpos, hpos']

theorem bind_pure {g : α → β} (hr : Walks size window mem pos r stop Q)
    (hg : ∀ a, Q a → R (g a)) :
    Walks size window mem pos (r >>= fun a => Pure.pure (g a)) stop R :=
  hr.bind fun a ha => .pure (hg a ha)

end Walks

/-! ### Readers that check before they read -/

/-- From `pos` on `r` succeeds with a value with `Q` if and only if `stop` is not past `size`, and
its reads are in bounds if and only if `S`. -/
structure Spans (size : ℕ) (mem : ℕ → UInt8) (pos : ℕ) (r : Reader α) (stop : ℕ) (S : Prop)
    (Q : α → Prop) : Prop where
  le : pos ≤ stop
  safe : pos ≤ size → ((r mem pos).Safe size ↔ S)
  ok : stop ≤ size → ∃ a, Q a ∧ (r mem pos).result = .ok a ∧ (r mem pos).pos = stop
  error : pos ≤ size → size < stop → ∃ e, (r mem pos).result = .error e

namespace Spans

theorem pure {a : α} (h : Q a) : Spans size mem pos (pure a) pos True Q where
  le := le_rfl
  safe _ := iff_of_true (safe_pure a) trivial
  ok _ := ⟨a, h, rfl, rfl⟩
  error hpos hlt := absurd hpos hlt.not_ge

theorem imp {Q' : α → Prop} (hr : Spans size mem pos r stop S Q) (h : ∀ a, Q a → Q' a) :
    Spans size mem pos r stop S Q' where
  le := hr.le
  safe := hr.safe
  ok hstop := (hr.ok hstop).imp fun a ha => ⟨h a ha.1, ha.2⟩
  error := hr.error

theorem congr_safe (hr : Spans size mem pos r stop S Q) (h : S ↔ S') :
    Spans size mem pos r stop S' Q where
  le := hr.le
  safe hpos := (hr.safe hpos).trans h
  ok := hr.ok
  error := hr.error

/-- The second reader only runs when the first one has come to its end. -/
theorem bind (hr : Spans size mem pos r mid S Q) (hle : mid ≤ stop)
    (hf : ∀ a, Q a → Spans size mem mid (f a) stop S' R) :
    Spans size mem pos (r >>= f) stop (S ∧ (mid ≤ size → S')) R where
  le := hr.le.trans hle
  safe hpos := by
    rw [← hr.safe hpos]
    rcases le_or_gt mid size with hmid | hmid
    · obtain ⟨a, ha, hok, hstop⟩ := hr.ok hmid
      rw [safe_bind_of_ok hok, hstop, (hf a ha).safe hmid]
      simp only [hmid, true_imp_iff]
    · obtain ⟨e, he⟩ := hr.error hpos hmid
      rw [safe_bind_of_error he]
      simp only [hmid.not_ge, false_imp_iff, and_true]
  ok hstop := by
    obtain ⟨a, ha, hok, hmid⟩ := hr.ok (hle.trans hstop)
    obtain ⟨b, hb, hok', hstop'⟩ := (hf a ha).ok hstop
    exact ⟨b, hb, by rw [result_bind hok, hmid, hok'], by rw [pos_bind hok, hmid, hstop']⟩
  error hpos hlt := by
    rcases le_or_gt mid size with hmid | hmid
    · obtain ⟨a, ha, hok, hstop⟩ := hr.ok hmid
      obtain ⟨e, he⟩ := (hf a ha).error hmid hlt
      exact ⟨e, by rw [result_bind hok, hstop, he]⟩
    · obtain ⟨e, he⟩ := hr.error hpos hmid
      exact ⟨e, by rw [bind_error he]⟩

theorem bind_pure {g : α → β} (hr : Spans size mem pos r stop S Q) (hg : ∀ a, Q a → R (g a)) :
    Spans size mem pos (r >>= fun a => Pure.pure (g a)) stop S R :=
  (hr.bind le_rfl fun a ha => .pure (hg a ha)).congr_safe (by simp)

/-- The second condition can drop its guard when it holds without it. -/
theorem bind_and (hr : Spans size mem pos r mid S Q) (hle : mid ≤ stop) (hS : size < mid → S')
    (hf : ∀ a, Q a → Spans size mem mid (f a) stop S' R) :
    Spans size mem pos (r >>= f) stop (S ∧ S') R :=
  (hr.bind hle hf).congr_safe <| and_congr_right fun _ =>
    ⟨fun h => (le_or_gt mid size).elim h hS, fun h _ => h⟩

/-- Behind a reader that is safe everywhere. -/
theorem bind_guard (hr : Spans size mem pos r mid True Q) (hle : mid ≤ stop)
    (hf : ∀ a, Q a → Spans size mem mid (f a) stop S R) :
    Spans size mem pos (r >>= f) stop (mid ≤ size → S) R :=
  (hr.bind hle hf).congr_safe (by simp)

/-- Behind a reader that is safe everywhere, with a condition that needs no guard. -/
theorem bind_right (hr : Spans size mem pos r mid True Q) (hle : mid ≤ stop) (hS : size < mid → S)
    (hf : ∀ a, Q a → Spans size mem mid (f a) stop S R) :
    Spans size mem pos (r >>= f) stop S R :=
  (hr.bind_and hle hS hf).congr_safe (by simp)

/-- Before a reader that is safe everywhere. -/
theorem bind_left (hr : Spans size mem pos r mid S Q) (hle : mid ≤ stop)
    (hf : ∀ a, Q a → Spans size mem mid (f a) stop True R) :
    Spans size mem pos (r >>= f) stop S R :=
  (hr.bind hle hf).congr_safe (by simp)

/-- Two readers that are safe everywhere. -/
theorem bind_safe (hr : Spans size mem pos r mid True Q) (hle : mid ≤ stop)
    (hf : ∀ a, Q a → Spans size mem mid (f a) stop True R) :
    Spans size mem pos (r >>= f) stop True R :=
  hr.bind_left hle hf

/-- What follows a check can rely on it. -/
theorem check_bind {message : String} {k : ℕ} {f : Unit → Reader β} (hle : pos + k ≤ stop)
    (hf : pos + k ≤ size → Spans size mem pos (f ()) stop S R) :
    Spans size mem pos (check message size k >>= f) stop (pos + k ≤ size → S) R := by
  rcases le_or_gt (pos + k) size with hk | hk
  · have hcheck : check message size k mem pos = ⟨.ok (), pos, []⟩ := if_neg hk.not_gt
    have hok : (check message size k mem pos).result = .ok () := by rw [hcheck]
    have hrest := hf hk
    refine ⟨hrest.le, fun hpos => ?_, fun hstop => ?_, fun hpos hlt => ?_⟩
    · rw [safe_bind_of_ok hok, hcheck, hrest.safe hpos]
      simp only [hk, true_imp_iff]
      exact and_iff_right fun _ h => absurd h List.not_mem_nil
    · rw [result_bind hok, pos_bind hok, hcheck]
      exact hrest.ok hstop
    · rw [result_bind hok, hcheck]
      exact hrest.error hpos hlt
  · have hcheck : check message size k mem pos = ⟨.error message, pos, []⟩ := if_pos hk
    have herror : (check message size k mem pos).result = .error message := by rw [hcheck]
    refine ⟨by omega, fun _ => ?_, fun hstop => absurd (hle.trans hstop) hk.not_ge, fun _ _ => ?_⟩
    · rw [safe_bind_of_error herror, hcheck]
      exact iff_of_true (fun _ h => absurd h List.not_mem_nil) fun h => absurd h hk.not_ge
    · exact ⟨message, by rw [bind_error herror]⟩

theorem take {k : ℕ} (h : pos + k ≤ size) :
    Spans size mem pos (take size k) (pos + k) True (· = bytesAt mem pos k) where
  le := Nat.le_add_right pos k
  safe _ := iff_of_true (safe_take.mpr (Or.inr ⟨h, h⟩)) trivial
  ok _ := ⟨_, rfl, rfl, rfl⟩
  error _ hlt := absurd h hlt.not_ge

theorem skip {k : ℕ} (h : pos + k ≤ size) :
    Spans size mem pos (skip k) (pos + k) True fun _ => True where
  le := Nat.le_add_right pos k
  safe _ := iff_of_true (fun _ hmem => absurd hmem List.not_mem_nil) trivial
  ok _ := ⟨(), trivial, rfl, rfl⟩
  error _ hlt := absurd h hlt.not_ge

/-- A look by a reader without checks. -/
theorem peek (hr : Walks size window mem pos r stop Q) (hlt : pos < stop) :
    Spans size mem pos (peek r) pos (stop ≤ size ∧ stop ≤ window) Q where
  le := le_rfl
  safe _ := by
    rw [safe_peek, hr.safe]
    exact or_iff_right hlt.ne'
  ok _ := by
    obtain ⟨a, ha, hok, -⟩ := hr.ok
    exact ⟨a, ha, hok, rfl⟩
  error hpos hlt := absurd hpos hlt.not_ge

end Spans

/-- `S` holds of the positions where the turns of a loop start, as far as the loop gets. -/
def EveryTurn (size : ℕ) (next : ℕ → ℕ) (S : ℕ → Prop) : ℕ → ℕ → Prop
  | 0, _ => True
  | k + 1, pos => S pos ∧ (next pos ≤ size → EveryTurn size next S k (next pos))

instance EveryTurn.decidable {next : ℕ → ℕ} {S : ℕ → Prop} [DecidablePred S] :
    ∀ k pos, Decidable (EveryTurn size next S k pos)
  | 0, _ => .isTrue trivial
  | k + 1, pos =>
    have : Decidable (EveryTurn size next S k (next pos)) := EveryTurn.decidable k (next pos)
    inferInstanceAs (Decidable (_ ∧ _))

/-- A step that is the same wherever it stays within `size` gives the same turns. -/
theorem EveryTurn.imp {next next' : ℕ → ℕ} {S S' : ℕ → Prop}
    (hnext : ∀ pos, next' pos ≤ size → next' pos = next pos) (hS : ∀ pos, S pos → S' pos) {k : ℕ}
    (h : EveryTurn size next S k pos) : EveryTurn size next' S' k pos := by
  induction k generalizing pos with
  | zero => trivial
  | succ k ih =>
    refine ⟨hS pos h.1, fun hle => ?_⟩
    have heq := hnext pos hle
    rw [heq] at hle ⊢
    exact ih (h.2 hle)

theorem Spans.times {e : Extent} {S : ℕ → Prop} (k : ℕ)
    (hr : ∀ pos, Spans size mem pos r (e.stop mem pos) (S pos) fun _ => True) :
    Spans size mem pos (times k r) ((e.iterate k).stop mem pos)
      (EveryTurn size (e.stop mem) S k pos) fun _ => True := by
  induction k generalizing pos with
  | zero => exact .pure trivial
  | succ k ih =>
    refine (hr pos).bind ((e.iterate k).le mem _) fun a _ => ?_
    exact ih.bind_pure fun _ _ => trivial

end ByteReader
