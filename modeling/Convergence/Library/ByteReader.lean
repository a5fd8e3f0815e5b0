import Mathlib.Data.List.Basic
import Mathlib.Data.List.Forall2
import Mathlib.Order.Basic
import Mathlib.Order.Nat

/-!
# Programs that read bytes

A reader runs over a memory, an unbounded function from addresses to bytes, from a position on. It
returns a value or an error, moves the position, and leaves the list of its reads, each with the
window that the reading code was given. The memory goes on behind the bytes a caller means to hand
over, so reading too far is an event that can be seen, not an error by construction.

`Decodes` is a calculus for round trips: what a reader does on bytes that it is meant to understand.

## Main definitions

* `ByteReader.Access`, `ByteReader.Outcome`, `ByteReader.Reader` and its monad.
* `ByteReader.take`, `ByteReader.check`, `ByteReader.skip`, `ByteReader.peek`, `ByteReader.times`.
* `ByteReader.Decodes`.

## Main results

* `ByteReader.Decodes.bind`, `ByteReader.Decodes.times`.
-/

namespace ByteReader

/-- A read of `length` bytes at `offset`, by code that was given the bytes below `window`. -/
structure Access where
  offset : ℕ
  length : ℕ
  window : ℕ

/-- The bytes read lie below `size` and in the window; a read of no bytes is harmless. -/
def Access.InBounds (size : ℕ) (a : Access) : Prop :=
  a.length = 0 ∨ a.offset + a.length ≤ size ∧ a.offset + a.length ≤ a.window

instance (size : ℕ) (a : Access) : Decidable (a.InBounds size) :=
  inferInstanceAs (Decidable (_ ∨ _))

/-- What a reader leaves behind. -/
structure Outcome (α : Type) where
  result : Except String α
  pos : ℕ
  reads : List Access

/-- All reads are in bounds. -/
def Outcome.Safe {α : Type} (size : ℕ) (o : Outcome α) : Prop := ∀ a ∈ o.reads, a.InBounds size

instance {α : Type} (size : ℕ) (o : Outcome α) : Decidable (o.Safe size) :=
  inferInstanceAs (Decidable (∀ a ∈ o.reads, _))

/-- A program that reads a memory from a position on. -/
def Reader (α : Type) : Type := (ℕ → UInt8) → ℕ → Outcome α

/-- Run `f` on the value of `r`, from the position where `r` stopped, unless `r` failed. -/
def Reader.bind {α β : Type} (r : Reader α) (f : α → Reader β) : Reader β := fun mem pos =>
  match (r mem pos).result with
  | .error e => ⟨.error e, (r mem pos).pos, (r mem pos).reads⟩
  | .ok a =>
    { f a mem (r mem pos).pos with
      reads := (r mem pos).reads ++ (f a mem (r mem pos).pos).reads }

instance : Monad Reader where
  pure a := fun _ pos => ⟨.ok a, pos, []⟩
  bind := Reader.bind

/-- The bytes of a memory from a position on. -/
def bytesAt (mem : ℕ → UInt8) (pos k : ℕ) : List UInt8 := (List.range k).map fun i => mem (pos + i)

/-- The position. -/
def position : Reader ℕ := fun _ pos => ⟨.ok pos, pos, []⟩

/-- Read `k` bytes, unchecked. -/
def take (window k : ℕ) : Reader (List UInt8) := fun mem pos =>
  ⟨.ok (bytesAt mem pos k), pos + k, [⟨pos, k, window⟩]⟩

/-- Fail when fewer than `need` bytes are left below `limit`. -/
def check (message : String) (limit need : ℕ) : Reader Unit := fun _ pos =>
  if limit < pos + need then ⟨.error message, pos, []⟩ else ⟨.ok (), pos, []⟩

/-- Move the position without reading. -/
def skip (k : ℕ) : Reader Unit := fun _ pos => ⟨.ok (), pos + k, []⟩

/-- Run `r` and come back. -/
def peek {α : Type} (r : Reader α) : Reader α := fun mem pos => { r mem pos with pos := pos }

/-- Run `r` as often as `n` says. -/
def times {α : Type} : ℕ → Reader α → Reader (List α)
  | 0, _ => pure []
  | n + 1, r => do
    let a ← r
    let as ← times n r
    return a :: as

/-- The memory that holds `data` and goes on with `beyond`. -/
def memory (data : List UInt8) (beyond : ℕ → UInt8) : ℕ → UInt8 := fun i => data.getD i (beyond i)

variable {α β : Type} {mem : ℕ → UInt8} {pos size limit : ℕ}

/-! ### Bytes in memory -/

@[simp] theorem length_bytesAt (mem : ℕ → UInt8) (pos k : ℕ) : (bytesAt mem pos k).length = k := by
  simp [bytesAt]

theorem bytesAt_add (mem : ℕ → UInt8) (pos m n : ℕ) :
    bytesAt mem pos (m + n) = bytesAt mem pos m ++ bytesAt mem (pos + m) n := by
  simp only [bytesAt, List.range_add, List.map_append, List.map_map, Function.comp_def,
    Nat.add_assoc]

theorem bytesAt_congr {mem' : ℕ → UInt8} {k : ℕ} (h : ∀ i, i < pos + k → mem i = mem' i) :
    bytesAt mem pos k = bytesAt mem' pos k :=
  List.map_congr_left fun i hi => h (pos + i) (by have := List.mem_range.mp hi; omega)

theorem bytesAt_memory (data : List UInt8) (beyond : ℕ → UInt8) :
    bytesAt (memory data beyond) 0 data.length = data := by
  refine List.ext_getElem (length_bytesAt ..) fun i _ hi => ?_
  simp [bytesAt, memory, hi]

theorem bytesAt_append {xs ys : List UInt8} (h : bytesAt mem pos (xs ++ ys).length = xs ++ ys) :
    bytesAt mem pos xs.length = xs ∧ bytesAt mem (pos + xs.length) ys.length = ys := by
  rw [List.length_append, bytesAt_add] at h
  exact List.append_inj h (length_bytesAt ..)

/-! ### Safety of sequences -/

theorem result_bind {r : Reader α} {f : α → Reader β} {a : α} (h : (r mem pos).result = .ok a) :
    ((r >>= f) mem pos).result = (f a mem (r mem pos).pos).result := by
  change (Reader.bind r f mem pos).result = _
  rw [Reader.bind, h]

theorem pos_bind {r : Reader α} {f : α → Reader β} {a : α} (h : (r mem pos).result = .ok a) :
    ((r >>= f) mem pos).pos = (f a mem (r mem pos).pos).pos := by
  change (Reader.bind r f mem pos).pos = _
  rw [Reader.bind, h]

theorem reads_bind {r : Reader α} {f : α → Reader β} {a : α} (h : (r mem pos).result = .ok a) :
    ((r >>= f) mem pos).reads = (r mem pos).reads ++ (f a mem (r mem pos).pos).reads := by
  change (Reader.bind r f mem pos).reads = _
  rw [Reader.bind, h]

theorem bind_error {r : Reader α} {f : α → Reader β} {e : String}
    (h : (r mem pos).result = .error e) :
    (r >>= f) mem pos = ⟨.error e, (r mem pos).pos, (r mem pos).reads⟩ := by
  change Reader.bind r f mem pos = _
  rw [Reader.bind, h]

theorem safe_bind_of_ok {r : Reader α} {f : α → Reader β} {a : α}
    (h : (r mem pos).result = .ok a) :
    ((r >>= f) mem pos).Safe size ↔
      (r mem pos).Safe size ∧ (f a mem (r mem pos).pos).Safe size := by
  rw [Outcome.Safe, reads_bind h]
  exact List.forall_mem_append

theorem safe_bind_of_error {r : Reader α} {f : α → Reader β} {e : String}
    (h : (r mem pos).result = .error e) :
    ((r >>= f) mem pos).Safe size ↔ (r mem pos).Safe size := by
  rw [bind_error h]
  exact Iff.rfl

theorem safe_pure (a : α) : ((pure a : Reader α) mem pos).Safe size :=
  fun _ h => absurd h List.not_mem_nil

theorem safe_peek {r : Reader α} : ((peek r) mem pos).Safe size ↔ (r mem pos).Safe size := Iff.rfl

theorem safe_take {window k : ℕ} :
    ((take window k) mem pos).Safe size ↔ k = 0 ∨ pos + k ≤ size ∧ pos + k ≤ window := by
  rw [Outcome.Safe, take, List.forall_mem_singleton]
  exact Iff.rfl

/-! ### Decoding -/

/-- On a memory that holds `bytes` from the position on, and in a window that they do not exceed,
`r` reads exactly these bytes, safely, and returns a value with `Q`. -/
def Decodes (size limit : ℕ) (r : Reader α) (bytes : List UInt8) (Q : α → Prop) : Prop :=
  ∀ mem pos, bytesAt mem pos bytes.length = bytes → pos + bytes.length ≤ limit →
    ∃ a, Q a ∧ (r mem pos).result = .ok a ∧ (r mem pos).pos = pos + bytes.length ∧
      (r mem pos).Safe size

namespace Decodes

variable {r : Reader α} {f : α → Reader β} {xs ys bytes : List UInt8} {Q : α → Prop} {R : β → Prop}

theorem pure {a : α} (h : Q a) : Decodes size limit (pure a) [] Q :=
  fun _ _ _ _ => ⟨a, h, rfl, rfl, safe_pure a⟩

/-- After a reader that succeeds in bounds, what the next one does is what both do. -/
private theorem exists_ok_bind {mem : ℕ → UInt8} {pos stop : ℕ} {a : α}
    (hok : (r mem pos).result = .ok a) (hsafe : (r mem pos).Safe size)
    (hf : ∃ b, R b ∧ (f a mem (r mem pos).pos).result = .ok b ∧
      (f a mem (r mem pos).pos).pos = stop ∧ (f a mem (r mem pos).pos).Safe size) :
    ∃ b, R b ∧ ((r >>= f) mem pos).result = .ok b ∧ ((r >>= f) mem pos).pos = stop ∧
      ((r >>= f) mem pos).Safe size := by
  rw [result_bind hok, pos_bind hok, safe_bind_of_ok hok]
  exact hf.imp fun b hb => ⟨hb.1, hb.2.1, hb.2.2.1, hsafe, hb.2.2.2⟩

theorem bind (hr : Decodes size limit r xs Q)
    (hf : ∀ a, Q a → Decodes size limit (f a) ys R) :
    Decodes size limit (r >>= f) (xs ++ ys) R := by
  intro mem pos hmem hlimit
  obtain ⟨hx, hy⟩ := bytesAt_append hmem
  rw [List.length_append] at hlimit ⊢
  obtain ⟨a, ha, hok, hpos, hsafe⟩ := hr mem pos hx (by omega)
  refine exists_ok_bind hok hsafe ?_
  rw [hpos, ← Nat.add_assoc]
  exact hf a ha mem (pos + xs.length) hy (by omega)

theorem bind_pure {g : α → β} (hr : Decodes size limit r bytes Q) (hg : ∀ a, Q a → R (g a)) :
    Decodes size limit (r >>= fun a => Pure.pure (g a)) bytes R := by
  rw [← List.append_nil bytes]
  exact hr.bind fun a ha => .pure (hg a ha)

theorem imp {Q' : α → Prop} (hr : Decodes size limit r bytes Q) (h : ∀ a, Q a → Q' a) :
    Decodes size limit r bytes Q' := fun mem pos hmem hlimit =>
  (hr mem pos hmem hlimit).imp fun a ha => ⟨h a ha.1, ha.2⟩

theorem take {window k : ℕ} (hk : bytes.length = k) (hw : limit ≤ window) (hs : limit ≤ size) :
    Decodes size limit (take window k) bytes (· = bytes) := by
  subst hk
  intro mem pos hmem hlimit
  exact ⟨bytes, rfl, congrArg Except.ok hmem, rfl, safe_take.mpr (Or.inr ⟨by omega, by omega⟩)⟩

/-- A check passes when what follows needs at least as much. -/
theorem check_bind {message : String} {need : ℕ} {f : Unit → Reader β}
    (hneed : need ≤ bytes.length) (hf : Decodes size limit (f ()) bytes R) :
    Decodes size limit (check message limit need >>= f) bytes R := by
  intro mem pos hmem hlimit
  have hcheck : check message limit need mem pos = ⟨.ok (), pos, []⟩ := if_neg (by omega)
  refine exists_ok_bind (a := ()) (by rw [hcheck]) ?_ ?_
  · rw [hcheck]
    exact fun _ h => absurd h List.not_mem_nil
  · rw [hcheck]
    exact hf mem pos hmem hlimit

/-- Ask for the position first. What follows may stop at the end of its own bytes. -/
theorem position_bind {f : ℕ → Reader β}
    (hf : ∀ start, start + bytes.length ≤ limit →
      Decodes size (start + bytes.length) (f start) bytes R) :
    Decodes size limit (position >>= f) bytes R := by
  intro mem pos hmem hlimit
  exact exists_ok_bind rfl (fun _ h => absurd h List.not_mem_nil)
    (hf pos hlimit mem pos hmem le_rfl)

/-- Look at bytes that are read again, or passed over, afterwards. -/
theorem peek_bind (hr : Decodes size limit r xs Q)
    (hf : ∀ a, Q a → Decodes size limit (f a) (xs ++ ys) R) :
    Decodes size limit (peek r >>= f) (xs ++ ys) R := by
  intro mem pos hmem hlimit
  have hlen : pos + xs.length ≤ limit := by
    rw [List.length_append] at hlimit
    omega
  obtain ⟨a, ha, hok, -, hsafe⟩ := hr mem pos (bytesAt_append hmem).1 hlen
  exact exists_ok_bind hok (safe_peek.mpr hsafe) (hf a ha mem pos hmem hlimit)

theorem skip {k : ℕ} (hk : bytes.length = k) :
    Decodes size limit (skip k) bytes fun _ => True :=
  fun _ _ _ _ => ⟨(), trivial, rfl, by rw [hk]; rfl, fun _ h => absurd h List.not_mem_nil⟩

/-- Reading a list of items one after the other. -/
theorem times {ι : Type} {enc : ι → List UInt8} {rel : ι → α → Prop} (items : List ι)
    (hr : ∀ i ∈ items, Decodes size limit r (enc i) (rel i)) :
    Decodes size limit (times items.length r) (items.flatMap enc) (List.Forall₂ rel items) := by
  induction items with
  | nil => exact .pure .nil
  | cons i items ih =>
    refine (hr i List.mem_cons_self).bind fun a ha => ?_
    refine (ih fun j hj => hr j (List.mem_cons_of_mem _ hj)).bind_pure fun as has => ?_
    exact .cons ha has

end Decodes

end ByteReader
