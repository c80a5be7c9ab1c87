import Mathlib.Data.List.Basic
import Mathlib.Data.List.Infix
import Mathlib.Tactic

/-!
# Cursors over byte sequences

A buffer is a cursor over bytes that need not lie in one piece. `Buf` has the four operations that
writers use and `LawfulBuf` is their contract, stated against the bytes still ahead of the cursor.
Contiguous bytes, `Chain` and `Take` keep it.
-/

namespace Hwire.Lib

abbrev Bytes := List UInt8

/-- `chunksVectored b n` are the slices written into a destination of `n` slots. -/
class Buf (B : Type) where
  remaining : B → Nat
  chunk : B → Bytes
  advance : B → Nat → B
  chunksVectored : B → Nat → List Bytes

/-- The contract of `Buf`. The slices of a vectored read are a prefix of the bytes ahead, and all of
them unless they fill the destination. -/
class LawfulBuf (B : Type) [Buf B] where
  bytes : B → Bytes
  remaining_eq : ∀ b : B, Buf.remaining b = (bytes b).length
  chunk_isPrefix : ∀ b : B, Buf.chunk b <+: bytes b
  chunk_ne_nil : ∀ b : B, 0 < Buf.remaining b → Buf.chunk b ≠ []
  bytes_advance : ∀ (b : B) (n : Nat), n ≤ Buf.remaining b → bytes (Buf.advance b n) = (bytes b).drop n
  vectored_isPrefix : ∀ (b : B) (n : Nat), (Buf.chunksVectored b n).flatten <+: bytes b
  vectored_length_le : ∀ (b : B) (n : Nat), (Buf.chunksVectored b n).length ≤ n
  vectored_all : ∀ (b : B) (n : Nat), (Buf.chunksVectored b n).length < n → (Buf.chunksVectored b n).flatten = bytes b

/-- The default `chunks_vectored`: the current chunk in the first slot. -/
def Buf.oneSlice (remaining : Nat) (chunk : Bytes) (n : Nat) : List Bytes :=
  if n = 0 ∨ remaining = 0 then [] else [chunk]

theorem oneSlice_length_le (r : Nat) (c : Bytes) (n : Nat) : (Buf.oneSlice r c n).length ≤ n := by
  unfold Buf.oneSlice
  split
  · simp
  · simp; omega

/-- For a cursor over one piece, the default is the whole of it. -/
theorem oneSlice_flatten_isPrefix (c : Bytes) (n : Nat) : (Buf.oneSlice c.length c n).flatten <+: c := by
  unfold Buf.oneSlice
  split
  · simp
  · simp

theorem oneSlice_flatten_all (c : Bytes) (n : Nat) (h : (Buf.oneSlice c.length c n).length < n) :
    (Buf.oneSlice c.length c n).flatten = c := by
  unfold Buf.oneSlice at h ⊢
  split
  · next e =>
    have : c.length = 0 := by
      rcases e with e | e
      · simp [e] at h
      · exact e
    simp [List.length_eq_zero_iff.mp this]
  · simp

instance : Buf Bytes where
  remaining := List.length
  chunk b := b
  advance b n := b.drop n
  chunksVectored b n := Buf.oneSlice b.length b n

instance : LawfulBuf Bytes where
  bytes b := b
  remaining_eq _ := rfl
  chunk_isPrefix b := List.prefix_refl b
  chunk_ne_nil _ h := List.ne_nil_of_length_pos h
  bytes_advance _ _ _ := rfl
  vectored_isPrefix b n := oneSlice_flatten_isPrefix b n
  vectored_length_le b n := oneSlice_length_le _ b n
  vectored_all b n h := oneSlice_flatten_all b n h

@[simp] theorem bytes_list (b : Bytes) : LawfulBuf.bytes b = b := rfl
@[simp] theorem remaining_list (b : Bytes) : Buf.remaining b = b.length := rfl

/-! ### Chains -/

/-- `a.chain(b)`: the bytes of `a`, then the bytes of `b`. -/
structure Chain (A B : Type) where
  a : A
  b : B
  deriving DecidableEq, Repr

variable {A B : Type} [Buf A] [Buf B]

def Chain.advance (c : Chain A B) (n : Nat) : Chain A B :=
  let rem := Buf.remaining c.a
  if rem ≠ 0 then
    if n ≤ rem then { c with a := Buf.advance c.a n }
    else ⟨Buf.advance c.a rem, Buf.advance c.b (n - rem)⟩
  else { c with b := Buf.advance c.b n }

instance : Buf (Chain A B) where
  remaining c := Buf.remaining c.a + Buf.remaining c.b
  chunk c := if Buf.remaining c.a ≠ 0 then Buf.chunk c.a else Buf.chunk c.b
  advance := Chain.advance
  chunksVectored c n :=
    let xs := Buf.chunksVectored c.a n
    xs ++ Buf.chunksVectored c.b (n - xs.length)

variable [LawfulBuf A] [LawfulBuf B]
open LawfulBuf

theorem bytes_eq_nil {b : B} (h : Buf.remaining b = 0) : bytes b = [] :=
  List.length_eq_zero_iff.mp ((remaining_eq b).symm.trans h)

theorem chain_bytes_advance (c : Chain A B) (n : Nat) (h : n ≤ Buf.remaining c.a + Buf.remaining c.b) :
    bytes (c.advance n).a ++ bytes (c.advance n).b = (bytes c.a ++ bytes c.b).drop n := by
  have ha := remaining_eq c.a
  simp only [Chain.advance]
  split
  · split
    · next hle =>
      rw [bytes_advance _ _ hle, List.drop_append_of_le_length (by omega)]
    · next hle =>
      have hall : (bytes c.a).drop (Buf.remaining c.a) = [] := List.drop_eq_nil_of_le (by omega)
      have hpast : (bytes c.a).drop n = [] := List.drop_eq_nil_of_le (by omega)
      rw [bytes_advance _ _ (Nat.le_refl _), bytes_advance _ _ (by omega), List.drop_append, hall, hpast, ha]
  · next h0 =>
    rw [bytes_eq_nil (by simpa using h0), List.nil_append, List.nil_append]
    exact bytes_advance _ _ (by omega)

theorem chain_vectored_isPrefix (c : Chain A B) (n : Nat) :
    (Buf.chunksVectored c n).flatten <+: bytes c.a ++ bytes c.b := by
  simp only [Buf.chunksVectored, List.flatten_append]
  have hl := vectored_length_le c.a n
  by_cases full : (Buf.chunksVectored c.a n).length < n
  · rw [vectored_all _ _ full]
    exact List.prefix_append_right_inj _ |>.mpr (vectored_isPrefix _ _)
  · have none : Buf.chunksVectored c.b (n - (Buf.chunksVectored c.a n).length) = [] := by
      apply List.length_eq_zero_iff.mp
      have := vectored_length_le c.b (n - (Buf.chunksVectored c.a n).length)
      omega
    rw [none, List.flatten_nil, List.append_nil]
    exact (vectored_isPrefix _ _).trans (List.prefix_append _ _)

instance : LawfulBuf (Chain A B) where
  bytes c := bytes c.a ++ bytes c.b
  remaining_eq c := by simp [Buf.remaining, remaining_eq]
  chunk_isPrefix c := by
    simp only [Buf.chunk]
    split
    · exact (chunk_isPrefix _).trans (List.prefix_append _ _)
    · next h => rw [bytes_eq_nil (by simpa using h)]; exact chunk_isPrefix _
  chunk_ne_nil c h := by
    simp only [Buf.chunk, Buf.remaining] at h ⊢
    split
    · exact chunk_ne_nil _ (by omega)
    · exact chunk_ne_nil _ (by omega)
  bytes_advance c n h := chain_bytes_advance c n h
  vectored_isPrefix := chain_vectored_isPrefix
  vectored_length_le c n := by
    simp only [Buf.chunksVectored, List.length_append]
    have := vectored_length_le c.a n
    have := vectored_length_le c.b (n - (Buf.chunksVectored c.a n).length)
    omega
  vectored_all c n h := by
    simp only [Buf.chunksVectored, List.length_append, List.flatten_append] at h ⊢
    rw [vectored_all c.a n (by omega), vectored_all c.b _ (by omega)]

/-! ### Limits -/

/-- `b.take(limit)`: at most `limit` bytes of `b`. -/
structure Take (B : Type) where
  inner : B
  limit : Nat
  deriving DecidableEq, Repr

/-- Cut the slices off after `limit` bytes. -/
def cutSlices : Nat → List Bytes → List Bytes
  | _, [] => []
  | limit, s :: rest =>
    if limit ≤ s.length then [s.take limit] else s :: cutSlices (limit - s.length) rest

instance : Buf (Take B) where
  remaining t := min (Buf.remaining t.inner) t.limit
  chunk t := (Buf.chunk t.inner).take t.limit
  advance t n := ⟨Buf.advance t.inner n, t.limit - n⟩
  -- The slices of the inner buffer are collected in an array of 16.
  chunksVectored t n :=
    if t.limit = 0 then [] else cutSlices t.limit (Buf.chunksVectored t.inner (min n 16))

theorem take_vectored (t : Take Bytes) (n : Nat) :
    Buf.chunksVectored t n = Buf.oneSlice (t.inner.take t.limit).length (t.inner.take t.limit) n := by
  simp only [Buf.chunksVectored, Buf.oneSlice, List.length_take]
  by_cases hl : t.limit = 0
  · simp [hl]
  · by_cases hn : n = 0 ∨ t.inner.length = 0
    · have h1 : min n 16 = 0 ∨ t.inner.length = 0 := by omega
      have h2 : n = 0 ∨ min t.limit t.inner.length = 0 := by omega
      rw [if_neg hl, if_pos h1, if_pos h2, cutSlices]
    · have h1 : ¬(min n 16 = 0 ∨ t.inner.length = 0) := by omega
      have h2 : ¬(n = 0 ∨ min t.limit t.inner.length = 0) := by omega
      rw [if_neg hl, if_neg h1, if_neg h2, cutSlices]
      split
      · rfl
      · next h => simp [cutSlices, List.take_of_length_le (Nat.le_of_lt (Nat.lt_of_not_le h))]

/-- `Take` keeps the contract over contiguous bytes. -/
instance : LawfulBuf (Take Bytes) where
  bytes t := t.inner.take t.limit
  remaining_eq t := by simp [Buf.remaining, Nat.min_comm]
  chunk_isPrefix t := List.prefix_refl _
  chunk_ne_nil t h := by
    simp only [Buf.remaining, Buf.chunk] at h ⊢
    exact List.ne_nil_of_length_pos (by simp; omega)
  bytes_advance t n _ := by simp [Buf.advance, List.drop_take]
  vectored_isPrefix t n := by rw [take_vectored]; exact oneSlice_flatten_isPrefix _ n
  vectored_length_le t n := by rw [take_vectored]; exact oneSlice_length_le _ _ n
  vectored_all t n h := by rw [take_vectored] at h ⊢; exact oneSlice_flatten_all _ n h

/-! ### Assertions -/

/-- The assertions that `advance` makes. They hold as long as it stays inside of the buffer. -/
class CheckedBuf (B : Type) [Buf B] where
  AdvanceAsserts : B → Nat → Prop
  advance_asserts : ∀ (b : B) (n : Nat), n ≤ Buf.remaining b → AdvanceAsserts b n

open CheckedBuf

instance : CheckedBuf Bytes where
  AdvanceAsserts b n := n ≤ b.length
  advance_asserts _ _ inside := inside

section

variable {A B : Type} [Buf A] [Buf B] [CheckedBuf A] [CheckedBuf B]

def Chain.Asserts (c : Chain A B) (n : Nat) : Prop :=
  let rem := Buf.remaining c.a
  if rem ≠ 0 then
    if n ≤ rem then AdvanceAsserts c.a n else AdvanceAsserts c.a rem ∧ AdvanceAsserts c.b (n - rem)
  else AdvanceAsserts c.b n

instance : CheckedBuf (Chain A B) where
  AdvanceAsserts := Chain.Asserts
  advance_asserts c n inside := by
    simp only [Buf.remaining] at inside
    unfold Chain.Asserts
    dsimp only
    split
    · split
      · next le => exact advance_asserts _ _ le
      · exact ⟨advance_asserts _ _ (Nat.le_refl _), advance_asserts _ _ (by omega)⟩
    · exact advance_asserts _ _ (by omega)

instance : CheckedBuf (Take B) where
  AdvanceAsserts t n := n ≤ t.limit ∧ AdvanceAsserts t.inner n
  advance_asserts t n inside := by
    simp only [Buf.remaining] at inside
    exact ⟨by omega, advance_asserts _ _ (by omega)⟩

end

/-! ### Copies -/

/-- `copy_to_bytes`: a number of bytes from the front, and the rest. -/
class CopyBuf (B : Type) where
  copyToBytes : B → Nat → Bytes × B

class LawfulCopy (B : Type) [Buf B] [LawfulBuf B] [CopyBuf B] : Prop where
  copied : ∀ (b : B) (n : Nat), n ≤ Buf.remaining b → (CopyBuf.copyToBytes b n).1 = (LawfulBuf.bytes b).take n
  left : ∀ (b : B) (n : Nat), n ≤ Buf.remaining b →
    LawfulBuf.bytes (CopyBuf.copyToBytes b n).2 = (LawfulBuf.bytes b).drop n

instance : CopyBuf Bytes where
  copyToBytes b n := (b.take n, b.drop n)

instance : LawfulCopy Bytes where
  copied _ _ _ := rfl
  left _ _ _ := rfl

end Hwire.Lib
