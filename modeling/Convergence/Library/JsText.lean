import Mathlib.Data.List.DropRight
import Mathlib.Data.List.TakeWhile

/-!
# Strings of JavaScript

The methods of a string that take it apart: `trim`, and `split` at white space; `split` at a
character, `startsWith` and `slice` are `List.splitOn`, `List.isPrefixOf` and `List.drop`. A string
is a list of characters. All of these cut it at characters of the basic plane, so nothing depends on
the surrogates of the others. A string arrives as UTF-8.

## Main definitions

* `JsText.isWhite`, `JsText.trim`, `JsText.splitWhite`.
* `JsText.IsWord`, `JsText.Trimmed`: texts that `trim` leaves as they are.
* `JsText.utf8`, `JsText.decodeUtf8`.

## Main results

* `JsText.trimmed_intercalate`: trimmed pieces are trimmed together.
* `JsText.splitWhite_intercalate`: words are split where they were put together.
* `JsText.decodeUtf8_utf8`.
-/

namespace JsText

/-- A string. -/
abbrev Text := List Char

/-! ### White space -/

/-- White space and line terminators: what `trim` removes and `\s` matches. -/
def isWhite (c : Char) : Bool :=
  9 ≤ c.toNat && c.toNat ≤ 13 || 0x2000 ≤ c.toNat && c.toNat ≤ 0x200A ||
    [0x20, 0xA0, 0x1680, 0x2028, 0x2029, 0x202F, 0x205F, 0x3000, 0xFEFF].contains c.toNat

theorem isWhite_space : isWhite ' ' = true := rfl

theorem isWhite_eq_false_of_graph {c : Char} (hlo : 0x20 < c.toNat) (hhi : c.toNat < 0x7F) :
    isWhite c = false := by
  simp [isWhite]
  omega

theorem isWhite_eq_false_of_isDigit {c : Char} (h : c.isDigit) : isWhite c = false := by
  rw [Char.isDigit, Bool.and_eq_true, decide_eq_true_eq, decide_eq_true_eq] at h
  obtain ⟨hlo, hhi⟩ : 48 ≤ c.toNat ∧ c.toNat ≤ 57 := h
  exact isWhite_eq_false_of_graph (by omega) (by omega)

/-- A text without white space, and not empty. -/
structure IsWord (word : Text) : Prop where
  ne_nil : word ≠ []
  isWhite_eq_false : ∀ c ∈ word, isWhite c = false

theorem IsWord.newline_notMem {word : Text} (h : IsWord word) : '\n' ∉ word := fun hc =>
  Bool.eq_false_iff.mp (h.isWhite_eq_false _ hc) rfl

/-- `text.trimStart()`. -/
def trimStart (text : Text) : Text := text.dropWhile isWhite

/-- `text.trim()`. -/
def trim (text : Text) : Text := (trimStart text).rdropWhile isWhite

/-- The first and the last character of a text are not white. -/
structure Trimmed (text : Text) : Prop where
  head : ∀ c ∈ text.head?, isWhite c = false
  last : ∀ c ∈ text.getLast?, isWhite c = false

variable {text : Text}

/-- Pieces with a separator in front of all but the first. -/
theorem intercalate_cons (sep : Char) (piece : Text) (pieces : List Text) :
    [sep].intercalate (piece :: pieces) = piece ++ pieces.flatMap (sep :: ·) := by
  induction pieces generalizing piece with
  | nil => simp
  | cons next pieces ih =>
    rw [List.intercalate_cons_cons, ih, List.flatMap_cons, List.append_assoc]
    rfl

theorem trimStart_eq_self (h : ∀ c ∈ text.head?, isWhite c = false) : trimStart text = text := by
  cases text with
  | nil => rfl
  | cons c text =>
    have hc := h c rfl
    rw [trimStart, List.dropWhile_cons_of_neg (by simp [hc])]

/-- Nothing is removed between two characters that are not white. -/
theorem trim_eq_self (h : Trimmed text) : trim text = text := by
  rw [trim, trimStart_eq_self h.head]
  refine List.rdropWhile_eq_self_iff.mpr fun hne => ?_
  have hlast := h.last _ (List.getLast?_eq_getLast_of_ne_nil hne)
  simp [hlast]

/-- White space behind the last character is removed. -/
theorem trim_append_white (h : Trimmed text) (hne : text ≠ []) {c : Char} (hc : isWhite c) :
    trim (text ++ [c]) = text := by
  have hhead : ∀ a ∈ (text ++ [c]).head?, isWhite a = false := by
    intro a ha
    rw [List.head?_append_of_ne_nil _ hne] at ha
    exact h.head a ha
  rw [trim, trimStart_eq_self hhead, List.rdropWhile_concat_pos _ _ _ hc]
  have htrim := trim_eq_self h
  rwa [trim, trimStart_eq_self h.head] at htrim

theorem IsWord.trimmed (h : IsWord text) : Trimmed text where
  head c hc := h.isWhite_eq_false c (List.mem_of_mem_head? hc)
  last c hc := h.isWhite_eq_false c (List.mem_of_mem_getLast? hc)

/-- A text is trimmed when the head of its front and the last character of its rest are not
white. -/
theorem Trimmed.append {front rest : Text} {a : Char} (hfront : front.head? = some a)
    (ha : isWhite a = false) (hne : rest ≠ [])
    (hrest : ∀ c ∈ rest.getLast?, isWhite c = false) : Trimmed (front ++ rest) where
  head c hc := by
    rw [List.head?_append, hfront, Option.some_or] at hc
    rwa [← Option.some.inj hc]
  last c hc := by
    rw [List.getLast?_append_of_ne_nil _ hne] at hc
    exact hrest c hc

/-- Trimmed pieces with a separator between them. -/
theorem trimmed_intercalate (sep : Char) {pieces : List Text}
    (h : ∀ piece ∈ pieces, piece ≠ [] ∧ Trimmed piece) : Trimmed ([sep].intercalate pieces) := by
  induction pieces with
  | nil => exact ⟨by simp, by simp⟩
  | cons piece pieces ih =>
    obtain ⟨⟨hne, hpiece⟩, hpieces⟩ := List.forall_mem_cons.mp h
    cases pieces with
    | nil => rwa [List.intercalate_singleton]
    | cons next pieces =>
      have hnext : [sep].intercalate (next :: pieces) ≠ [] := by
        rw [intercalate_cons]
        exact List.append_ne_nil_of_left_ne_nil (hpieces next List.mem_cons_self).1 _
      obtain ⟨c, tail, rfl⟩ := List.exists_cons_of_ne_nil hne
      rw [List.intercalate_cons_cons]
      exact Trimmed.append rfl (hpiece.head c rfl) hnext (ih hpieces).last

/-- Words with spaces between them. -/
theorem trimmed_words {words : List Text} (h : ∀ word ∈ words, IsWord word) :
    Trimmed ([' '].intercalate words) :=
  trimmed_intercalate ' ' fun word hword => ⟨(h word hword).ne_nil, (h word hword).trimmed⟩

/-- White space in front of the first character is removed. -/
theorem trim_cons_white (h : Trimmed text) {c : Char} (hc : isWhite c) :
    trim (c :: text) = text := by
  rw [trim, trimStart, List.dropWhile_cons_of_pos hc]
  exact trim_eq_self h

/-! ### Splitting at white space -/

/-- `text.split(/\s+/)`, the last character having been white or not. A match in front leaves an
empty piece, and so does one at the end. -/
def splitWhiteFrom : Bool → Text → List Text
  | _, [] => [[]]
  | afterWhite, c :: text =>
    if isWhite c then
      if afterWhite then splitWhiteFrom true text else [] :: splitWhiteFrom true text
    else (splitWhiteFrom false text).modifyHead (c :: ·)

/-- `text.split(/\s+/)`. -/
def splitWhite (text : Text) : List Text := splitWhiteFrom false text

/-- A text without white space is one piece. -/
theorem splitWhiteFrom_append {word : Text} (h : ∀ c ∈ word, isWhite c = false) (rest : Text) :
    splitWhiteFrom false (word ++ rest) = (splitWhiteFrom false rest).modifyHead (word ++ ·) := by
  induction word with
  | nil => exact (congrFun List.modifyHead_id _).symm
  | cons c word ih =>
    obtain ⟨hc, hword⟩ := List.forall_mem_cons.mp h
    rw [List.cons_append, splitWhiteFrom, hc, if_neg Bool.false_ne_true, ih hword,
      List.modifyHead_modifyHead]
    rfl

/-- The white space in front of a character that is not white ends there. -/
theorem splitWhiteFrom_true {c : Char} (hc : isWhite c = false) :
    splitWhiteFrom true (c :: text) = splitWhiteFrom false (c :: text) := by
  simp only [splitWhiteFrom, hc]
  rfl

/-- The pieces of words that single spaces separate. -/
theorem splitWhite_intercalate {words : List Text} (hne : words ≠ [])
    (h : ∀ word ∈ words, IsWord word) : splitWhite ([' '].intercalate words) = words := by
  induction words with
  | nil => exact absurd rfl hne
  | cons word words ih =>
    obtain ⟨hword, hwords⟩ := List.forall_mem_cons.mp h
    have hblack := hword.isWhite_eq_false
    cases words with
    | nil =>
      have hsplit := splitWhiteFrom_append hblack []
      rw [List.append_nil] at hsplit
      rw [List.intercalate_singleton, splitWhite, hsplit]
      simp [splitWhiteFrom]
    | cons next words =>
      -- The space is a match, and the next word starts the text behind it.
      have hnext := hwords next List.mem_cons_self
      obtain ⟨c, tail, rfl⟩ := List.exists_cons_of_ne_nil hnext.ne_nil
      have hrest := ih (List.cons_ne_nil _ _) hwords
      rw [List.intercalate_cons_cons_left, splitWhite] at hrest
      rw [List.intercalate_cons_cons, List.intercalate_cons_cons_left, List.append_assoc,
        splitWhite, splitWhiteFrom_append hblack, List.singleton_append, splitWhiteFrom,
        if_pos isWhite_space, if_neg Bool.false_ne_true,
        splitWhiteFrom_true (hnext.isWhite_eq_false c List.mem_cons_self), hrest]
      simp

/-! ### UTF-8 -/

/-- The bytes of a text. -/
def utf8 (text : Text) : List UInt8 := text.flatMap String.utf8EncodeChar

/-- `chunk.toString()` of well-formed bytes. -/
def decodeUtf8 (bytes : List UInt8) : Option Text :=
  (ByteArray.utf8Decode? bytes.toByteArray).map Array.toList

theorem utf8_append (front rest : Text) : utf8 (front ++ rest) = utf8 front ++ utf8 rest :=
  List.flatMap_append

theorem utf8_flatMap {α : Type*} (f : α → Text) (l : List α) :
    utf8 (l.flatMap f) = l.flatMap fun a => utf8 (f a) := List.flatMap_assoc

theorem decodeUtf8_utf8 (text : Text) : decodeUtf8 (utf8 text) = some text := by
  have h := List.utf8Decode?_utf8Encode (l := text)
  rw [List.utf8Encode] at h
  rw [decodeUtf8, utf8, h]
  rfl

theorem utf8_injective : Function.Injective utf8 := by
  intro t t' h
  have heq := congrArg decodeUtf8 h
  rw [decodeUtf8_utf8, decodeUtf8_utf8] at heq
  exact Option.some.inj heq

/-- An ASCII character is one byte. -/
theorem utf8EncodeChar_of_lt {c : Char} (h : c.toNat < 0x80) :
    String.utf8EncodeChar c = [c.toUInt8] := by
  have hsize : c.utf8Size = 1 := by
    rw [Char.utf8Size_eq_one_iff, UInt32.le_iff_toNat_le]
    change c.toNat ≤ 127
    omega
  exact String.utf8EncodeChar_eq_singleton hsize

/-- The bytes of an ASCII text. -/
theorem utf8_of_forall_lt (h : ∀ c ∈ text, c.toNat < 0x80) : utf8 text = text.map Char.toUInt8 := by
  induction text with
  | nil => rfl
  | cons c text ih =>
    obtain ⟨hc, htext⟩ := List.forall_mem_cons.mp h
    rw [utf8, List.flatMap_cons, utf8EncodeChar_of_lt hc]
    exact congrArg (c.toUInt8 :: ·) (ih htext)

end JsText
