import Mathlib.Data.List.DropRight
import Mathlib.Data.List.TakeWhile

/-!
# Streams in segments

A stream arrives in segments of bounded size, cut anywhere. A reader appends segments until it sees
a delimiter. What it has then is the stream up to the delimiter and what came in the same segment
behind it; how much that is depends on the cuts, and every amount below the size bound is possible.

## Main definitions

* `IsCut`: the segments of a stream.
* `readUntil`: appending segments until there is a delimiter.

## Main results

* `readUntil_of_notMem`, `exists_readUntil_eq`, `exists_isCut_readUntil_eq`: what is read.
* `rdropWhile_append_eq_iff`: dropping a suffix as a whole.
-/

variable {α : Type*} {stream line rest : List α} {chunks : List (List α)} {n : ℕ}

/-- The chunks are segments of the stream, in order, each with at least one and at most `n`
elements. -/
structure IsCut (n : ℕ) (stream : List α) (chunks : List (List α)) : Prop where
  flatten_eq : chunks.flatten = stream
  ne_nil : ∀ chunk ∈ chunks, chunk ≠ []
  length_le : ∀ chunk ∈ chunks, chunk.length ≤ n

theorem IsCut.nil : IsCut n ([] : List α) [] := ⟨rfl, nofun, nofun⟩

theorem IsCut.cons {chunk : List α} (hne : chunk ≠ []) (hlen : chunk.length ≤ n)
    (h : IsCut n stream chunks) : IsCut n (chunk ++ stream) (chunk :: chunks) where
  flatten_eq := by rw [List.flatten_cons, h.flatten_eq]
  ne_nil := List.forall_mem_cons.mpr ⟨hne, h.ne_nil⟩
  length_le := List.forall_mem_cons.mpr ⟨hlen, h.length_le⟩

/-- Segments of one element in front. -/
theorem IsCut.singles (hn : 0 < n) (h : IsCut n stream chunks) (l : List α) :
    IsCut n (l ++ stream) (l.map (fun a => [a]) ++ chunks) := by
  induction l with
  | nil => exact h
  | cons a l ih => exact ih.cons (List.cons_ne_nil a []) hn

section Read

variable [DecidableEq α] {d : α}

/-- Segments are appended until there is a delimiter, or no more of them. -/
def readUntil (d : α) : List (List α) → List α → List α
  | [], request => request
  | chunk :: chunks, request =>
    if d ∈ request ++ chunk then request ++ chunk else readUntil d chunks (request ++ chunk)

/-- Without a delimiter the whole stream is read. -/
theorem readUntil_of_notMem {request : List α} (h : d ∉ request ++ chunks.flatten) :
    readUntil d chunks request = request ++ chunks.flatten := by
  induction chunks generalizing request with
  | nil => simp [readUntil]
  | cons chunk chunks ih =>
    rw [List.flatten_cons, ← List.append_assoc] at h ⊢
    rw [readUntil, if_neg fun hd => h (List.mem_append_left _ hd)]
    exact ih h

omit [DecidableEq α] in
/-- The start of a stream has the delimiter when it is longer than the line. -/
theorem mem_delimiter_iff {front : List α} (hline : d ∉ line) (h : front <+: line ++ d :: rest) :
    d ∈ front ↔ line.length < front.length := by
  constructor
  · intro hd
    by_contra hshort
    have hle : front <+: line :=
      List.prefix_of_prefix_length_le h (List.prefix_append _ _) (not_lt.mp hshort)
    exact hline (hle.subset hd)
  · intro hlong
    have hle : line ++ [d] <+: front := by
      refine List.prefix_of_prefix_length_le ⟨rest, by simp⟩ h ?_
      rw [List.length_append]
      exact hlong
    exact hle.subset (by simp)

/-- What is read is the stream up to the delimiter, and what came with it. -/
theorem exists_readUntil_eq {request : List α} (hline : d ∉ line)
    (hne : ∀ chunk ∈ chunks, chunk.length ≤ n) (hlen : request.length ≤ line.length)
    (h : request ++ chunks.flatten = line ++ d :: rest) :
    ∃ tail, tail <+: rest ∧ tail.length < n ∧ readUntil d chunks request = line ++ d :: tail := by
  induction chunks generalizing request with
  | nil =>
    rw [List.flatten_nil, List.append_nil] at h
    rw [h, List.length_append, List.length_cons] at hlen
    omega
  | cons chunk chunks ih =>
    rw [List.flatten_cons, ← List.append_assoc] at h
    have hmem := mem_delimiter_iff hline ⟨chunks.flatten, h⟩
    rw [readUntil]
    split_ifs with hd
    · -- The delimiter is in this segment: what has been read is longer than the line.
      have hlong := hmem.mp hd
      obtain ⟨t, ht⟩ := List.prefix_of_prefix_length_le (⟨d :: rest, rfl⟩ : line <+: _)
        ⟨chunks.flatten, h⟩ hlong.le
      have hcons : t ++ chunks.flatten = d :: rest := by
        rw [← ht, List.append_assoc] at h
        exact List.append_cancel_left h
      cases t with
      | nil =>
        rw [List.append_nil] at ht
        rw [ht] at hlong
        exact absurd hlong (lt_irrefl _)
      | cons a tail =>
        obtain ⟨rfl, htail⟩ := List.cons.inj hcons
        refine ⟨tail, ⟨chunks.flatten, htail⟩, ?_, ht.symm⟩
        have hsum := congrArg List.length ht
        have hchunk := hne chunk List.mem_cons_self
        rw [List.length_append, List.length_append, List.length_cons] at hsum
        omega
    · -- Nothing but the line has been read.
      exact ih (fun c hc => hne c (List.mem_cons_of_mem _ hc)) (not_lt.mp (mt hmem.mpr hd)) h

/-- Segments without a delimiter are read and appended. -/
theorem readUntil_singles {request l : List α} (h : d ∉ request ++ l) :
    readUntil d (l.map (fun a => [a]) ++ chunks) request = readUntil d chunks (request ++ l) := by
  induction l generalizing request with
  | nil => rw [List.map_nil, List.nil_append, List.append_nil]
  | cons a l ih =>
    rw [List.append_cons] at h ⊢
    rw [List.map_cons, List.cons_append, readUntil,
      if_neg fun hd => h (List.mem_append_left _ hd)]
    exact ih h

/-- Every amount below the bound may come with the delimiter. -/
theorem exists_isCut_readUntil_eq (hline : d ∉ line) {tail : List α} (htail : tail <+: rest)
    (hlen : tail.length < n) :
    ∃ chunks, IsCut n (line ++ d :: rest) chunks ∧
      readUntil d chunks [] = line ++ d :: tail := by
  obtain ⟨behind, rfl⟩ := htail
  have hn : 0 < n := Nat.zero_lt_of_lt hlen
  refine ⟨line.map (fun a => [a]) ++ (d :: tail) :: behind.map fun a => [a], ?_, ?_⟩
  · have hbehind := (IsCut.nil (n := n)).singles hn behind
    rw [List.append_nil, List.append_nil] at hbehind
    exact (hbehind.cons (List.cons_ne_nil d tail) hlen).singles hn line
  · rw [readUntil_singles (by simpa using hline), List.nil_append, readUntil, if_pos (by simp)]

end Read

/-! ### Dropping a suffix -/

section Drop

variable {p q : α → Bool} {l tail : List α}

/-- What is dropped may as well not be there. -/
theorem rdropWhile_append_of_forall (h : ∀ a ∈ tail, p a) :
    (l ++ tail).rdropWhile p = l.rdropWhile p := by
  induction tail using List.reverseRecOn with
  | nil => rw [List.append_nil]
  | append_singleton tail a ih =>
    rw [← List.append_assoc, List.rdropWhile_concat_pos _ _ _ (h a (by simp))]
    exact ih fun b hb => h b (List.mem_append_left _ hb)

/-- Nothing of the part in front is dropped when something behind it is not. -/
theorem length_lt_rdropWhile_append (h : ∃ a ∈ tail, ¬ p a) :
    l.length < ((l ++ tail).rdropWhile p).length := by
  induction tail using List.reverseRecOn with
  | nil =>
    obtain ⟨a, ha, -⟩ := h
    exact absurd ha List.not_mem_nil
  | append_singleton tail b ih =>
    rw [← List.append_assoc, List.rdropWhile_concat]
    split_ifs with hb
    · obtain ⟨a, ha, hpa⟩ := h
      rcases List.mem_append.mp ha with ha | ha
      · exact ih ⟨a, ha, hpa⟩
      · rw [List.mem_singleton.mp ha] at hpa
        exact absurd hb hpa
    · simp only [List.length_append, List.length_singleton]
      omega

/-- A suffix changes what is left exactly when it is not dropped as a whole. -/
theorem rdropWhile_append_eq_iff :
    (l ++ tail).rdropWhile p = l.rdropWhile p ↔ ∀ a ∈ tail, p a := by
  refine ⟨fun heq => ?_, rdropWhile_append_of_forall⟩
  by_contra! hkept
  have hlen := length_lt_rdropWhile_append (l := l) hkept
  rw [heq] at hlen
  exact absurd (List.rdropWhile_prefix p l).length_le hlen.not_ge

/-- Predicates that agree on a list drop the same. -/
theorem rdropWhile_congr (h : ∀ a ∈ l, p a = q a) : l.rdropWhile p = l.rdropWhile q := by
  induction l using List.reverseRecOn with
  | nil => rfl
  | append_singleton l a ih =>
    rw [List.rdropWhile_concat, List.rdropWhile_concat, h a (by simp)]
    split_ifs
    · exact ih fun b hb => h b (List.mem_append_left _ hb)
    · rfl

end Drop
