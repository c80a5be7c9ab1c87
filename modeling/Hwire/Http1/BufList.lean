import Hwire.Http1.WriteBuf

/-!
# Lists of buffers

All operations of `BufList` with their assertions. Whatever is called on a list, it stands for the concatenation of its
buffers.
-/

namespace Hwire.Http1
open Lib LawfulBuf

namespace BufList

/-! ### Operations that may panic -/

section

variable {B : Type} [Buf B]

def pushChecked (l : BufList B) (buf : B) : Option (BufList B) :=
  if 0 < Buf.remaining buf then some (l.push buf) else none

/-- The loop of `advance`. The deque is indexed at its front, and a front that is used up is popped. -/
def advanceLoop : List B → Nat → Option (List B)
  | [], cnt => if cnt > 0 then none else some []
  | front :: rest, cnt =>
    if cnt > 0 then
      let rem := Buf.remaining front
      if rem > cnt then some (Buf.advance front cnt :: rest)
      else advanceLoop rest (cnt - rem)
    else some (front :: rest)

def advanceChecked (l : BufList B) (cnt : Nat) : Option (BufList B) :=
  if cnt ≤ l.remaining then (advanceLoop l.bufs cnt).map fun bufs => ⟨bufs, l.remaining - cnt⟩ else none

/-- `bm.put(self.take(len))`: chunk after chunk, with the assertion of `Take::advance`. -/
def putTake : Nat → Bytes → Take (BufList B) → Option (Bytes × BufList B)
  | 0, _, _ => none
  | fuel + 1, bm, src =>
    if Buf.remaining src > 0 then
      let slice := Buf.chunk src
      if slice.length ≤ src.limit then
        (src.inner.advanceChecked slice.length).bind fun inner =>
          putTake fuel (bm ++ slice) ⟨inner, src.limit - slice.length⟩
      else none
    else some (bm, src.inner)

/-- Every round copies a byte, so `len` of them and the check at the end are enough. -/
def copyRest (l : BufList B) (len : Nat) : Option (Bytes × BufList B) :=
  if len ≤ l.remaining then putTake (len + 1) [] ⟨l, len⟩ else none

def copyToBytes [CopyBuf B] (l : BufList B) (len : Nat) : Option (Bytes × BufList B) :=
  match l.bufs with
  | front :: rest =>
    if Buf.remaining front = len then some ((CopyBuf.copyToBytes front len).1, ⟨rest, l.remaining - len⟩)
    else if Buf.remaining front > len then
      some ((CopyBuf.copyToBytes front len).1, ⟨(CopyBuf.copyToBytes front len).2 :: rest, l.remaining - len⟩)
    else l.copyRest len
  | [] => l.copyRest len

end

variable {B : Type} [Buf B] [LawfulBuf B]

/-! ### Advancing -/

theorem advanceLoop_eq {bufs : List B} {cnt : Nat} (inside : cnt ≤ (bufs.flatMap bytes).length) :
    advanceLoop bufs cnt = some (advanceBufs bufs cnt) := by
  induction bufs generalizing cnt with
  | nil =>
    have none : cnt = 0 := Nat.le_zero.mp inside
    rw [none]
    rfl
  | cons front rest ih =>
    rw [advanceLoop, advanceBufs]
    by_cases none : cnt = 0
    · rw [if_neg (by omega), if_pos none]
    · rw [if_pos (by omega), if_neg none]
      dsimp only
      split
      · rfl
      · apply ih
        have size := remaining_eq front
        rw [List.flatMap_cons, List.length_append] at inside
        omega

theorem advanceChecked_eq {l : BufList B} (ok : l.Ok) {cnt : Nat} (inside : cnt ≤ l.remaining) :
    l.advanceChecked cnt = some (l.advance cnt) := by
  rw [advanceChecked, if_pos inside, advanceLoop_eq (ok.counted ▸ inside)]
  rfl

/-! ### The chunk and the counter -/

theorem Ok.summed {l : BufList B} (ok : l.Ok) : l.remaining = (l.bufs.map Buf.remaining).sum := by
  rw [ok.counted, contents, List.length_flatMap]
  congr 1
  apply List.map_congr_left
  intro b _
  exact (remaining_eq b).symm

theorem Ok.chunk_ne_nil {l : BufList B} (ok : l.Ok) : l.chunk ≠ [] ↔ 0 < l.remaining := by
  rw [ok.counted]
  constructor
  · intro some
    have fits := l.chunk_isPrefix.length_le
    have pos := List.length_pos_iff.mpr some
    omega
  · intro pos
    unfold chunk
    unfold contents at pos
    cases first : l.bufs with
    | nil =>
      rw [first] at pos
      exact absurd pos (Nat.lt_irrefl 0)
    | cons front rest =>
      apply LawfulBuf.chunk_ne_nil
      apply ok.nonempty
      rw [first]
      exact List.mem_cons_self

/-! ### Slices -/

theorem vectoredBufs_length_le (bufs : List B) (n : Nat) : (vectoredBufs bufs n).length ≤ n := by
  induction bufs generalizing n with
  | nil => exact Nat.zero_le n
  | cons buf rest ih =>
    have first := vectored_length_le buf n
    rw [vectoredBufs]
    split
    · exact first
    · have later := ih (n - (Buf.chunksVectored buf n).length)
      rw [List.length_append]
      omega

theorem vectoredBufs_all {bufs : List B} {n : Nat} (free : (vectoredBufs bufs n).length < n) :
    (vectoredBufs bufs n).flatten = bufs.flatMap bytes := by
  induction bufs generalizing n with
  | nil => rfl
  | cons buf rest ih =>
    rw [vectoredBufs] at free ⊢
    split
    · next full =>
      rw [if_pos full] at free
      omega
    · next some =>
      have first := vectored_length_le buf n
      rw [if_neg some, List.length_append] at free
      rw [List.flatten_append, vectored_all buf n (by omega), ih (by omega), List.flatMap_cons]

theorem chunksVectored_length_le (l : BufList B) (n : Nat) : (l.chunksVectored n).length ≤ n := by
  unfold chunksVectored
  split
  · exact Nat.zero_le n
  · exact vectoredBufs_length_le l.bufs n

/-- Unless the destination is filled, the slices are everything. -/
theorem chunksVectored_all {l : BufList B} {n : Nat} (free : (l.chunksVectored n).length < n) :
    (l.chunksVectored n).flatten = l.contents := by
  unfold chunksVectored at free ⊢
  split
  · omega
  · next some =>
    rw [if_neg some] at free
    exact vectoredBufs_all free

/-! ### Copies -/

/-- What `Take` shows of the first chunk. -/
theorem Ok.take_chunk {l : BufList B} (ok : l.Ok) {limit : Nat} (pos : 0 < limit) (inside : limit ≤ l.remaining) :
    l.chunk.take limit <+: l.contents ∧ 0 < (l.chunk.take limit).length ∧ (l.chunk.take limit).length ≤ limit := by
  have some : l.chunk ≠ [] := ok.chunk_ne_nil.mpr (by omega)
  have long := List.length_pos_iff.mpr some
  refine ⟨(List.take_prefix _ _).trans l.chunk_isPrefix, ?_, List.length_take_le _ _⟩
  rw [List.length_take]
  omega

/-- The loop copies what the limit leaves, and stops there. -/
theorem putTake_eq {fuel limit : Nat} {bm : Bytes} {l : BufList B} (ok : l.Ok) (inside : limit ≤ l.remaining)
    (enough : limit < fuel) :
    ∃ l' : BufList B, putTake fuel bm ⟨l, limit⟩ = some (bm ++ l.contents.take limit, l') ∧ l'.Ok ∧
      l'.contents = l.contents.drop limit := by
  induction fuel generalizing limit bm l with
  | zero => omega
  | succ fuel ih =>
    rw [putTake]
    have remaining : Buf.remaining (⟨l, limit⟩ : Take (BufList B)) = limit := Nat.min_eq_right inside
    rw [remaining]
    by_cases pos : limit > 0
    · rw [if_pos pos]
      dsimp only
      rw [show Buf.chunk (⟨l, limit⟩ : Take (BufList B)) = l.chunk.take limit from rfl]
      obtain ⟨⟨tail, whole⟩, long, short⟩ := ok.take_chunk pos inside
      generalize l.chunk.take limit = slice at whole long short
      have fits : slice.length ≤ l.remaining := Nat.le_trans short inside
      have after : (l.advance slice.length).contents = tail := by
        rw [contents_advance ok fits, ← whole, List.drop_left]
      rw [if_pos short, advanceChecked_eq ok fits, Option.bind_some]
      obtain ⟨l', copied, ok', left⟩ := @ih (limit - slice.length) (bm ++ slice) _ (ok.advance fits)
        (Nat.sub_le_sub_right inside _) (by omega)
      refine ⟨l', ?_, ok', ?_⟩
      · rw [copied, after, ← whole, List.take_append, List.take_of_length_le short, List.append_assoc]
      · rw [left, after, ← whole, List.drop_append, List.drop_of_length_le short, List.nil_append]
    · rw [if_neg pos]
      have none : limit = 0 := by omega
      subst none
      exact ⟨l, by rw [List.take_zero, List.append_nil], ok, rfl⟩

theorem copyRest_eq {l : BufList B} (ok : l.Ok) {len : Nat} (inside : len ≤ l.remaining) :
    ∃ l' : BufList B, l.copyRest len = some (l.contents.take len, l') ∧ l'.Ok ∧ l'.contents = l.contents.drop len := by
  rw [copyRest, if_pos inside]
  exact putTake_eq ok inside (Nat.lt_succ_self len)

variable [CopyBuf B] [LawfulCopy B]

/-- The front buffer alone, a part of it, or as many buffers as are needed. -/
theorem copyToBytes_eq {l : BufList B} (ok : l.Ok) {len : Nat} (inside : len ≤ l.remaining) :
    ∃ l' : BufList B, l.copyToBytes len = some (l.contents.take len, l') ∧ l'.Ok ∧ l'.contents = l.contents.drop len := by
  unfold copyToBytes
  split
  · next front rest bufs =>
    have size := remaining_eq front
    have all : l.contents = bytes front ++ rest.flatMap bytes := by rw [contents, bufs, List.flatMap_cons]
    have later : ∀ b ∈ rest, 0 < Buf.remaining b := by
      intro b member
      apply ok.nonempty
      rw [bufs]
      exact List.mem_cons_of_mem _ member
    have counted : ∀ l' : BufList B, l'.contents = l.contents.drop len → l.remaining - len = l'.contents.length := by
      intro l' left
      rw [left, List.length_drop, ok.counted]
    split
    · next whole =>
      have taken := LawfulCopy.copied front len (by omega)
      have left : (⟨rest, l.remaining - len⟩ : BufList B).contents = l.contents.drop len := by
        rw [all, ← whole, size, List.drop_left]
        rfl
      refine ⟨_, ?_, ⟨counted _ left, later⟩, left⟩
      rw [taken, all, ← whole, size, List.take_length, List.take_left]
    · split
      · next part =>
        have taken := LawfulCopy.copied front len (by omega)
        have kept := LawfulCopy.left front len (by omega)
        have left : (⟨(CopyBuf.copyToBytes front len).2 :: rest, l.remaining - len⟩ : BufList B).contents =
            l.contents.drop len := by
          rw [all, List.drop_append_of_le_length (by omega), ← kept]
          rfl
        refine ⟨_, ?_, ⟨counted _ left, ?_⟩, left⟩
        · rw [taken, all, List.take_append_of_le_length (by omega)]
        · intro b member
          obtain rfl | member := List.mem_cons.mp member
          · rw [remaining_eq, kept, List.length_drop]
            omega
          · exact later b member
      · exact copyRest_eq ok inside
  · exact copyRest_eq ok inside

/-! ### Runs -/

inductive Op (B : Type) where
  | push (buf : B)
  | advance (cnt : Nat)
  | copyToBytes (len : Nat)
  | chunksVectored (n : Nat)

omit [LawfulBuf B] [LawfulCopy B] in
/-- A call, with the copy or the slices that it returns. -/
def call (l : BufList B) : Op B → Option (List Bytes × BufList B)
  | .push buf => (l.pushChecked buf).map fun l' => ([], l')
  | .advance cnt => (l.advanceChecked cnt).map fun l' => ([], l')
  | .copyToBytes len => (l.copyToBytes len).map fun copy => ([copy.1], copy.2)
  | .chunksVectored n => some (l.chunksVectored n, l)

omit [LawfulBuf B] [LawfulCopy B] in
def calls (l : BufList B) : List (Op B) → Option (List (List Bytes) × BufList B)
  | [] => some ([], l)
  | op :: ops => (l.call op).bind fun first => (first.2.calls ops).map fun later => (first.1 :: later.1, later.2)

namespace Op

omit [CopyBuf B] [LawfulCopy B]

/-- What a caller has to see to, for a list that stands for these bytes. -/
def Allowed (contents : Bytes) : Op B → Prop
  | .push buf => 0 < Buf.remaining buf
  | .advance cnt => cnt ≤ contents.length
  | .copyToBytes len => len ≤ contents.length
  | .chunksVectored _ => True

instance decideAllowed (contents : Bytes) : (op : Op B) → Decidable (op.Allowed contents)
  | .push buf => inferInstanceAs (Decidable (0 < Buf.remaining buf))
  | .advance cnt => inferInstanceAs (Decidable (cnt ≤ contents.length))
  | .copyToBytes len => inferInstanceAs (Decidable (len ≤ contents.length))
  | .chunksVectored _ => inferInstanceAs (Decidable True)

def after (contents : Bytes) : Op B → Bytes
  | .push buf => contents ++ bytes buf
  | .advance cnt => contents.drop cnt
  | .copyToBytes len => contents.drop len
  | .chunksVectored _ => contents

def Returns (contents : Bytes) : Op B → List Bytes → Prop
  | .push _, out => out = []
  | .advance _, out => out = []
  | .copyToBytes len, out => out = [contents.take len]
  | .chunksVectored n, out => out.flatten <+: contents ∧ out.length ≤ n ∧ (out.length < n → out.flatten = contents)

end Op

def Allowed : Bytes → List (Op B) → Prop
  | _, [] => True
  | contents, op :: ops => op.Allowed contents ∧ Allowed (op.after contents) ops

def Returned : Bytes → List (Op B) → List (List Bytes) → Prop
  | contents, op :: ops, out :: outs => op.Returns contents out ∧ Returned (op.after contents) ops outs
  | _, [], [] => True
  | _, _, _ => False

theorem call_represents {l : BufList B} (ok : l.Ok) {op : Op B} (allowed : op.Allowed l.contents) :
    ∃ out l', l.call op = some (out, l') ∧ l'.Ok ∧ l'.contents = op.after l.contents ∧ op.Returns l.contents out := by
  cases op with
  | push buf =>
    have some : 0 < Buf.remaining buf := allowed
    refine ⟨[], l.push buf, ?_, ok.push some, contents_push l buf, rfl⟩
    rw [call, pushChecked, if_pos some]
    rfl
  | advance cnt =>
    have inside : cnt ≤ l.remaining := ok.counted ▸ allowed
    refine ⟨[], l.advance cnt, ?_, ok.advance inside, contents_advance ok inside, rfl⟩
    rw [call, advanceChecked_eq ok inside]
    rfl
  | copyToBytes len =>
    have inside : len ≤ l.remaining := ok.counted ▸ allowed
    obtain ⟨l', copied, ok', left⟩ := copyToBytes_eq ok inside
    refine ⟨[l.contents.take len], l', ?_, ok', left, rfl⟩
    rw [call, copied]
    rfl
  | chunksVectored n =>
    exact ⟨_, l, rfl, ok, rfl, chunksVectored_isPrefix l n, chunksVectored_length_le l n, chunksVectored_all⟩

theorem calls_ok {l : BufList B} (ok : l.Ok) {ops : List (Op B)} (allowed : Allowed l.contents ops) :
    ∃ outs l', l.calls ops = some (outs, l') ∧ l'.Ok ∧ l'.contents = ops.foldl Op.after l.contents ∧
      Returned l.contents ops outs := by
  induction ops generalizing l with
  | nil => exact ⟨[], l, rfl, ok, rfl, trivial⟩
  | cons op ops ih =>
    obtain ⟨out, l₁, first, ok₁, after, returned⟩ := call_represents ok allowed.1
    obtain ⟨outs, l', later, ok', contents, all⟩ := ih ok₁ (after ▸ allowed.2)
    refine ⟨out :: outs, l', ?_, ok', ?_, ⟨returned, after ▸ all⟩⟩
    · rw [calls, first, Option.bind_some, later]
      rfl
    · rw [contents, after]
      rfl

/-- Whatever is called, no assertion fails and the list stands for the concatenation of what was pushed, less what was
taken from its front. The counter is the sum over the buffers, none of which is empty. -/
theorem calls_represent {ops : List (Op B)} (allowed : Allowed [] ops) :
    ∃ outs l, ({} : BufList B).calls ops = some (outs, l) ∧ l.contents = ops.foldl Op.after [] ∧ Returned [] ops outs ∧
      l.remaining = (l.bufs.map Buf.remaining).sum ∧ (∀ b ∈ l.bufs, 0 < Buf.remaining b) ∧
      (l.chunk ≠ [] ↔ 0 < l.remaining) := by
  obtain ⟨outs, l, run, ok, contents, returned⟩ := calls_ok Ok.empty allowed
  exact ⟨outs, l, run, contents, returned, ok.summed, ok.nonempty, ok.chunk_ne_nil⟩

/-- All three kinds of copies. -/
def helloWorld : List (Op Bytes) :=
  [.push (ascii "Hello"), .push (ascii " "), .push (ascii "World"), .copyToBytes 4, .copyToBytes 1, .copyToBytes 3,
    .chunksVectored 2, .advance 1]

theorem calls_represent_helloWorld :
    (({} : BufList Bytes).calls helloWorld).map (·.1) =
        some [[], [], [], [ascii "Hell"], [ascii "o"], [ascii " Wo"], [ascii "rld"], []] ∧
      ∃ outs l, ({} : BufList Bytes).calls helloWorld = some (outs, l) ∧ l.contents = ascii "ld" ∧
        l.remaining = (l.bufs.map Buf.remaining).sum := by
  refine ⟨by decide, ?_⟩
  have allowed : Allowed [] helloWorld := by
    refine ⟨?_, ?_, ?_, ?_, ?_, ?_, trivial, ?_, trivial⟩ <;> decide
  obtain ⟨outs, l, run, contents, -, summed, -⟩ := calls_represent allowed
  exact ⟨outs, l, run, contents, summed⟩

end BufList

end Hwire.Http1
