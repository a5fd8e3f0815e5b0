import Mathlib.Data.List.TakeWhile

/-!
# Extraction from a text stream

An input stream over a text, after the formatted input of C++: it stands at a position, and has a
flag for the end of the text and one for a failed extraction. An extraction skips separators and
reads as many characters as can belong to the value; from a stream at its end, or after a failure,
it stores nothing.

A text is a list of tokens, the maximal runs without separators. As long as a reader does not read
across a separator, a stream extracts from the list of tokens: a reader that stops within a token
leaves the remainder as the first of the tokens that follow.

## Main definitions

* `TextStream`, `TextStream.extract`, `TextStream.word`.
* `TextStream.tokens`, `TextStream.Local`: the tokens of a text, and readers that keep to a token.
* `TextStream.munch`: the longest prefix that an automaton accepts.
* `TextStream.takeToken`: extraction from a list of tokens.

## Main results

* `TextStream.extract_eq`: a stream extracts from its list of tokens.
* `TextStream.local_reader`: an automaton that stops at separators keeps to a token.
-/

/-- An input stream: what is left of the text, and the flags of the end and of failure. -/
structure TextStream (α : Type*) where
  rest : List α
  eof : Bool
  fail : Bool
  /-- The end is flagged only where it is. -/
  rest_of_eof : eof = true → rest = []

namespace TextStream

variable {α β σ : Type*}

/-- A stream at the start of a text. -/
def ofText (text : List α) : TextStream α := ⟨text, false, false, nofun⟩

/-- What a reader makes of a text: a value, whether it has been read without failure, and the text
behind it. -/
structure Reading (α β : Type*) where
  value : β
  ok : Bool
  left : List α

/-- The stream and the value after a reading. -/
def after (r : Reading α β) : TextStream α × β :=
  (⟨r.left, r.left.isEmpty, !r.ok, List.isEmpty_iff.mp⟩, r.value)

/-- Formatted extraction: nothing is stored unless there is something to read behind the
separators. -/
def extract (sep : α → Bool) (read : List α → Reading α β) (s : TextStream α) (old : β) :
    TextStream α × β :=
  if s.eof || s.fail then (⟨s.rest, s.eof, true, s.rest_of_eof⟩, old)
  else
    match s.rest.dropWhile sep with
    | [] => (⟨[], true, true, fun _ => rfl⟩, old)
    | a :: l => after (read (a :: l))

/-- The reader of a word. -/
def word (sep : α → Bool) (l : List α) : Reading α (List α) where
  value := l.takeWhile fun a => !sep a
  ok := true
  left := l.dropWhile fun a => !sep a

/-! ### Tokens -/

/-- The maximal runs without separators. -/
def tokens (sep : α → Bool) (l : List α) : List (List α) :=
  (l.splitOnP sep).filter fun t => !t.isEmpty

/-- A text that does not go on with a token. -/
def Ends (sep : α → Bool) (r : List α) : Prop := ∀ a ∈ r.head?, sep a = true

/-- A run without separators that is not empty. -/
structure IsToken (sep : α → Bool) (t : List α) : Prop where
  ne_nil : t ≠ []
  solid : ∀ a ∈ t, sep a = false

section Tokens

variable {sep : α → Bool} {t r : List α}

@[simp] theorem tokens_nil : tokens sep [] = [] := rfl

theorem tokens_cons_of_sep {a : α} (ha : sep a = true) (l : List α) :
    tokens sep (a :: l) = tokens sep l := by
  have hsplit : (a :: l).splitOnP sep = [] :: l.splitOnP sep :=
    List.splitOnP_append_cons_of_forall_mem (fun _ h => absurd h List.not_mem_nil) a ha l
  rw [tokens, hsplit, List.filter_cons_of_neg (by simp)]
  rfl

theorem tokens_append (h : IsToken sep t) (hr : Ends sep r) :
    tokens sep (t ++ r) = t :: tokens sep r := by
  have hne : (!t.isEmpty) = true := by simp [h.ne_nil]
  cases r with
  | nil =>
    rw [List.append_nil, tokens, List.splitOnP_eq_singleton h.solid, tokens_nil,
      List.filter_cons_of_pos (by exact hne), List.filter_nil]
  | cons a r =>
    have ha : sep a = true := hr a rfl
    rw [tokens_cons_of_sep ha, tokens, List.splitOnP_append_cons_of_forall_mem h.solid a ha,
      List.filter_cons_of_pos (by exact hne)]
    rfl

theorem tokens_dropWhile (l : List α) : tokens sep (l.dropWhile sep) = tokens sep l := by
  induction l with
  | nil => rfl
  | cons a l ih =>
    rw [List.dropWhile_cons]
    split_ifs with ha
    · rw [ih, tokens_cons_of_sep ha]
    · rfl

/-- A text behind its separators is empty or starts with a token. -/
theorem dropWhile_cases (sep : α → Bool) (l : List α) : l.dropWhile sep = [] ∨
    ∃ t r, IsToken sep t ∧ Ends sep r ∧ l.dropWhile sep = t ++ r := by
  induction l with
  | nil => exact Or.inl rfl
  | cons a l ih =>
    rw [List.dropWhile_cons]
    split_ifs with ha
    · exact ih
    · have hsolid : ∀ b ∈ (a :: l).takeWhile fun b => !sep b, sep b = false := fun b hb => by
        simpa using List.mem_takeWhile_imp hb
      refine Or.inr ⟨_, _, ⟨?_, hsolid⟩, fun b hb => ?_, List.takeWhile_append_dropWhile.symm⟩
      · rw [List.takeWhile_cons_of_pos (by simpa using ha)]
        exact List.cons_ne_nil _ _
      · have hhead := List.head?_dropWhile_not (fun b => !sep b) (a :: l)
        rw [Option.mem_def.mp hb] at hhead
        simpa using hhead

theorem isToken_of_mem {l t : List α} (h : t ∈ tokens sep l) : IsToken sep t := by
  induction hn : l.length using Nat.strong_induction_on generalizing l with
  | _ n ih =>
    obtain hnil | ⟨u, r, hu, hr, heq⟩ := dropWhile_cases sep l
    · rw [← tokens_dropWhile, hnil, tokens_nil] at h
      exact absurd h List.not_mem_nil
    · rw [← tokens_dropWhile, heq, tokens_append hu hr] at h
      rcases List.mem_cons.mp h with rfl | h
      · exact hu
      · refine ih r.length ?_ h rfl
        have hlen := (List.dropWhile_suffix sep (l := l)).length_le
        have hpos := List.length_pos_iff.mpr hu.ne_nil
        rw [heq, List.length_append] at hlen
        omega

end Tokens

/-! ### Readers that keep to a token -/

/-- A reader that reads a token in the same way whatever comes behind it. -/
structure Local (sep : α → Bool) (read : List α → Reading α β) : Prop where
  append : ∀ {t r}, IsToken sep t → Ends sep r →
    read (t ++ r) = ⟨(read t).value, (read t).ok, (read t).left ++ r⟩
  solid : ∀ {t}, IsToken sep t → ∀ a ∈ (read t).left, sep a = false

theorem word_token {sep : α → Bool} {t r : List α} (h : IsToken sep t) (hr : Ends sep r) :
    word sep (t ++ r) = ⟨t, true, r⟩ := by
  have hsolid : ∀ a ∈ t, (!sep a) = true := fun a ha => by rw [h.solid a ha]; rfl
  have hend : r.takeWhile (fun a => !sep a) = [] ∧ r.dropWhile (fun a => !sep a) = r := by
    cases r with
    | nil => exact ⟨rfl, rfl⟩
    | cons a r =>
      have ha : (!sep a) = false := by rw [hr a rfl]; rfl
      exact ⟨List.takeWhile_cons_of_neg (ne_true_of_eq_false ha),
        List.dropWhile_cons_of_neg (ne_true_of_eq_false ha)⟩
  rw [word, List.takeWhile_append_of_pos hsolid, List.dropWhile_append_of_pos hsolid, hend.1,
    hend.2, List.append_nil]

theorem word_self {sep : α → Bool} {t : List α} (h : IsToken sep t) :
    word sep t = ⟨t, true, []⟩ := by
  have hword := word_token h (r := []) fun a ha => nomatch ha
  rwa [List.append_nil] at hword

theorem local_word (sep : α → Bool) : Local sep (word sep) := by
  constructor
  · intro t r h hr
    rw [word_token h hr, word_self h, List.nil_append]
  · intro t h a ha
    rw [word_self h] at ha
    exact absurd ha List.not_mem_nil

/-- The longest prefix that an automaton accepts, and what is left. -/
def munch (step : σ → α → Option σ) : σ → List α → σ × List α
  | q, [] => (q, [])
  | q, a :: l =>
    match step q a with
    | some q' => munch step q' l
    | none => (q, a :: l)

section Munch

variable {sep : α → Bool} {step : σ → α → Option σ}

theorem munch_append (hsep : ∀ q a, sep a = true → step q a = none) (q : σ) (t : List α)
    {r : List α} (hr : Ends sep r) :
    munch step q (t ++ r) = ((munch step q t).1, (munch step q t).2 ++ r) := by
  induction t generalizing q with
  | nil =>
    cases r with
    | nil => rfl
    | cons a r =>
      change munch step q (a :: r) = (q, a :: r)
      rw [munch, hsep q a (hr a rfl)]
  | cons a t ih =>
    rw [List.cons_append, munch, munch]
    cases step q a with
    | none => rfl
    | some q' => exact ih q'

/-- What is left is a suffix. -/
theorem mem_of_mem_munch {q : σ} {t : List α} {a : α} (h : a ∈ (munch step q t).2) : a ∈ t := by
  induction t generalizing q with
  | nil => exact h
  | cons b t ih =>
    rw [munch] at h
    cases hstep : step q b with
    | none =>
      rw [hstep] at h
      exact h
    | some q' =>
      rw [hstep] at h
      exact List.mem_cons_of_mem b (ih h)

end Munch

/-- The reader of what an automaton accepts. -/
def reader (step : σ → α → Option σ) (q : σ) (store : σ → β × Bool) (l : List α) : Reading α β :=
  let m := munch step q l
  ⟨(store m.1).1, (store m.1).2, m.2⟩

/-- An automaton that stops at separators keeps to a token. -/
theorem local_reader {sep : α → Bool} {step : σ → α → Option σ}
    (hsep : ∀ q a, sep a = true → step q a = none) (q : σ) (store : σ → β × Bool) :
    Local sep (reader step q store) where
  append _ hr := by rw [reader, munch_append hsep q _ hr]; rfl
  solid ht a ha := ht.solid a (mem_of_mem_munch ha)

/-! ### Extraction from tokens -/

/-- Extraction from a list of tokens. Nothing can be extracted after a failure, and what a reader
leaves of a token is the next one. -/
def takeToken (read : List α → Reading α β) (old : β) : List (List α) → List (List α) × β
  | [] => ([], old)
  | t :: ts =>
    let r := read t
    (if r.ok then if r.left = [] then ts else r.left :: ts else [], r.value)

theorem takeToken_word {sep : α → Bool} {t : List α} (h : IsToken sep t) (old : List α)
    (ts : List (List α)) : takeToken (word sep) old (t :: ts) = (ts, t) := by
  rw [takeToken, word_self h]
  rfl

/-- The tokens that can still be extracted. -/
def left (sep : α → Bool) (s : TextStream α) : List (List α) :=
  if s.fail then [] else tokens sep s.rest

/-- What is left of a token comes before the tokens behind it. -/
theorem left_after {sep : α → Bool} {read : List α → Reading α β} (h : Local sep read)
    {t r : List α} (ht : IsToken sep t) (hr : Ends sep r) (old : β) :
    ((after (read (t ++ r))).1.left sep, (after (read (t ++ r))).2) =
      takeToken read old (t :: tokens sep r) := by
  have hleft := h.solid ht
  rw [h.append ht hr, after, left, takeToken]
  cases hok : (read t).ok with
  | false => rfl
  | true =>
    simp only [Bool.not_true, Bool.false_eq_true, if_false, if_true]
    split_ifs with hnil
    · rw [hnil, List.nil_append]
    · rw [tokens_append ⟨hnil, hleft⟩ hr]

/-- A stream extracts from its list of tokens. -/
theorem extract_eq {sep : α → Bool} {read : List α → Reading α β} (h : Local sep read)
    (s : TextStream α) (old : β) :
    ((s.extract sep read old).1.left sep, (s.extract sep read old).2) =
      takeToken read old (s.left sep) := by
  by_cases hgood : (s.eof || s.fail) = true
  · have hleft : s.left sep = [] := by
      rw [left]
      split_ifs with hfail
      · rfl
      · have heof : s.eof = true := by simpa [hfail] using hgood
        rw [s.rest_of_eof heof, tokens_nil]
    rw [hleft, extract, if_pos hgood]
    rfl
  · have hfail : s.fail = false := by
      cases hfail : s.fail with
      | false => rfl
      | true => exact absurd (by rw [hfail, Bool.or_true]) hgood
    have hleft : s.left sep = tokens sep (s.rest.dropWhile sep) := by
      rw [left, hfail, if_neg Bool.false_ne_true, tokens_dropWhile]
    rw [hleft, extract, if_neg hgood]
    obtain hnil | ⟨t, r, ht, hr, heq⟩ := dropWhile_cases sep s.rest
    · rw [hnil]
      rfl
    · obtain ⟨a, t', rfl⟩ := List.exists_cons_of_ne_nil ht.ne_nil
      rw [heq, tokens_append ht hr]
      exact left_after h ht hr old

end TextStream
