import Hwire.Http1.Decode

/-!
# The chunked decoder over a whole stream

The decoder reads through a reader that may cut the stream anywhere. `scan` is the same machine over all the
bytes at once; running `decode` to completion agrees with it whatever the pieces are.
-/

namespace Hwire.Http1
open Lib

namespace Chunked

/-! ### The machine over a byte string -/

/-- One byte of the stream, with the data it carries. -/
def scanByte (c : Chunked) (b : UInt8) : Option (Chunked × Bytes) :=
  if c.state = .body then
    some ({ c with chunkLen := c.chunkLen - 1, state := if c.chunkLen - 1 > 0 then .body else .bodyCr }, [b])
  else
    match c.onByte b with
    | .ok c => some (c, [])
    | .error _ => none

/-- The data of the body, the machine in its end state and the bytes after the body. -/
def scan (c : Chunked) : Bytes → Option (Bytes × Chunked × Bytes)
  | [] => if c.state = .end then some ([], c, []) else none
  | b :: rest =>
    if c.state = .end then some ([], c, b :: rest)
    else
      match c.scanByte b with
      | none => none
      | some (c, out) => (scan c rest).map fun res => (out ++ res.1, res.2)

theorem scan_end {c : Chunked} (h : c.state = .end) (bytes : Bytes) : c.scan bytes = some ([], c, bytes) := by
  cases bytes with
  | nil => rw [scan, if_pos h]
  | cons b rest => rw [scan, if_pos h]

theorem scan_state {c c' : Chunked} {bytes data rest : Bytes} (h : c.scan bytes = some (data, c', rest)) :
    c'.state = .end := by
  induction bytes generalizing c data with
  | nil =>
    rw [scan] at h
    split at h
    · next ended => cases h; exact ended
    · exact absurd h (by simp)
  | cons b bytes ih =>
    rw [scan] at h
    split at h
    · next ended => cases h; exact ended
    · split at h
      · exact absurd h (by simp)
      · obtain ⟨⟨data, c₁, rest₁⟩, scanned, eq⟩ := Option.map_eq_some_iff.mp h
        cases eq
        exact ih scanned

theorem scan_nil {c : Chunked} (h : c.state ≠ .end) : c.scan [] = none := by rw [scan, if_neg h]

theorem scan_ok {c c' : Chunked} {b : UInt8} (ne : c.state ≠ .end) (nb : c.state ≠ .body) (h : c.onByte b = .ok c')
    (rest : Bytes) : c.scan (b :: rest) = c'.scan rest := by
  rw [scan, if_neg ne, scanByte, if_neg nb, h]
  simp

theorem scan_error {c : Chunked} {b : UInt8} {e : IoError} (ne : c.state ≠ .end) (nb : c.state ≠ .body)
    (h : c.onByte b = .error e) (rest : Bytes) : c.scan (b :: rest) = none := by
  rw [scan, if_neg ne, scanByte, if_neg nb, h]

/-- The machine after `n` bytes of chunk data. -/
def afterData (c : Chunked) (n : Nat) : Chunked :=
  { c with chunkLen := c.chunkLen - n, state := if c.chunkLen - n > 0 then .body else .bodyCr }

/-- Chunk data may be taken in any piece that is not longer than the chunk. -/
theorem scan_data {c : Chunked} {slice : Bytes} (h : c.state = .body) (ne : slice ≠ []) (le : slice.length ≤ c.chunkLen)
    (rest : Bytes) : c.scan (slice ++ rest) = ((c.afterData slice.length).scan rest).map fun res => (slice ++ res.1, res.2) := by
  have notEnd : c.state ≠ .end := by simp [h]
  induction slice generalizing c with
  | nil => exact absurd rfl ne
  | cons b slice ih =>
    rw [List.cons_append, scan, if_neg notEnd, scanByte, if_pos h]
    dsimp only
    by_cases more : slice = []
    · subst more
      rfl
    · have hpos := List.length_pos_iff.mpr more
      rw [List.length_cons] at le
      have inBody : c.chunkLen - 1 > 0 := by omega
      rw [if_pos inBody, ih rfl more (by show slice.length ≤ c.chunkLen - 1; omega) (by simp), Option.map_map]
      congr 1
      · simp only [afterData, List.length_cons]
        rw [show c.chunkLen - 1 - slice.length = c.chunkLen - (slice.length + 1) by omega]

theorem readBody_ok {c : Chunked} {slice : Bytes} (ne : slice ≠ []) :
    c.readBody slice = .ok (c.afterData slice.length, some slice) := by
  rw [readBody, if_neg ne]; rfl

/-- In the middle of a chunk there is still data to come. -/
def Ok (c : Chunked) : Prop := c.state = .body → 0 < c.chunkLen

theorem Ok.afterData (c : Chunked) (n : Nat) : (c.afterData n).Ok := by
  unfold Ok Chunked.afterData
  dsimp only
  split
  · next h => exact fun _ => h
  · simp

theorem putU8_map_eq_ok {c c' : Chunked} {buf : Bytes} {b : UInt8} {f : Chunked → Chunked} :
    (c.putU8 buf b).map f = .ok c' ↔
      (buf ++ [b]).length < c.maxHeaderSize ∧ c' = f { c with trailersBuf := some (buf ++ [b]) } := by
  unfold putU8
  dsimp only
  split
  · next h => simp [Except.map]; intro; simp at h; omega
  · next h => simp [Except.map]; simp at h; grind

/-- Only the line feed of a size line leads into chunk data. -/
theorem Ok.onByte {c c' : Chunked} {b : UInt8} (nb : c.state ≠ .body) (h : c.onByte b = .ok c') : c'.Ok := by
  intro body
  unfold Chunked.onByte at h
  cases hs : c.state <;> simp only [hs] at h
  case start => grind [readStart, pushSize]
  case size => grind [readSize, pushSize]
  case sizeLws => grind [readSizeLws]
  case extension => grind [readExtension]
  case sizeLf => grind [readSizeLf]
  case body => exact absurd hs nb
  case bodyCr => grind [readBodyCr]
  case bodyLf => grind [readBodyLf]
  case trailer => grind [readTrailer, putU8_map_eq_ok]
  case trailerLf => grind [readTrailerLf, putU8_map_eq_ok]
  case endCr => grind [readEndCr, putU8_map_eq_ok]
  case endLf => grind [readEndLf, putU8_map_eq_ok]
  case «end» => grind

/-! ### Cutting the stream -/

section
variable {R : Type} [MemRead R] [LawfulRead R]
open LawfulRead

/-- What one step can do: it stalls, it fails where the stream fails, or it goes on behind some bytes. -/
theorem step_fed {c : Chunked} {r : R} {bytes : Bytes} {stalls : Nat} (ok : c.Ok) (ne : c.state ≠ .end)
    (fed : Fed r bytes stalls) :
    (∃ r' stalls', c.step r = (.pending, r') ∧ stalls' < stalls ∧ Fed r' bytes stalls') ∨
    (∃ e r', c.step r = (.ready (.error e), r') ∧ c.scan bytes = none) ∨
    (∃ c' slice r' rest, c.step r = (.ready (.ok (c', some slice)), r') ∧ Fed r' rest stalls ∧
      rest.length < bytes.length ∧ slice ≠ [] ∧ c'.Ok ∧ c'.state ≠ .end ∧
      c.scan bytes = (c'.scan rest).map fun res => (slice ++ res.1, res.2)) ∨
    (∃ c' r' rest, c.step r = (.ready (.ok (c', none)), r') ∧ Fed r' rest stalls ∧
      rest.length < bytes.length ∧ c'.Ok ∧ c.scan bytes = c'.scan rest) := by
  by_cases body : c.state = .body
  · have unfold_step : c.step r = c.stepBody r := by simp only [step, body]
    obtain ⟨r', stalls', read, less, fed'⟩ | ⟨r', read, rfl⟩ | ⟨slice, rest, r', read, sne, le, rfl, fed'⟩ :=
      readMem_fed fed (ok body)
    · exact .inl ⟨r', stalls', by rw [unfold_step, stepBody, read], less, fed'⟩
    · refine .inr (.inl ⟨incompleteBody, r', ?_, scan_nil ne⟩)
      rw [unfold_step, stepBody, read]; rfl
    · refine .inr (.inr (.inl ⟨c.afterData slice.length, slice, r', rest, ?_, fed', ?_, sne, .afterData _ _, ?_,
        scan_data body sne le rest⟩))
      · simp only [unfold_step, stepBody, read, readBody_ok sne]
      · have := List.length_pos_iff.mpr sne
        rw [List.length_append]; omega
      · unfold afterData
        dsimp only
        split <;> simp
  · have unfold_step : c.step r = c.stepByte r := by
      unfold step
      split
      · next h => exact absurd h ne
      · next h => exact absurd h body
      · rfl
    obtain ⟨r', stalls', read, less, fed'⟩ | ⟨r', read, rfl⟩ | ⟨slice, rest, r', read, sne, le, rfl, fed'⟩ :=
      readMem_fed fed Nat.one_pos
    · exact .inl ⟨r', stalls', by rw [unfold_step, stepByte, read], less, fed'⟩
    · exact .inr (.inl ⟨eofInSizeLine, r', by rw [unfold_step, stepByte, read], scan_nil ne⟩)
    · obtain ⟨b, rfl⟩ : ∃ b, slice = [b] := by
        have := List.length_pos_iff.mpr sne
        exact List.length_eq_one_iff.mp (by omega)
      cases hb : c.onByte b with
      | error e =>
        refine .inr (.inl ⟨e, r', ?_, scan_error ne body hb rest⟩)
        rw [unfold_step, stepByte, read]; simp [hb, Except.map]
      | ok c' =>
        refine .inr (.inr (.inr ⟨c', r', rest, ?_, fed', by simp, .onByte body hb, scan_ok ne body hb rest⟩))
        rw [unfold_step, stepByte, read]; simp [hb, Except.map]

variable [Httparse]

/-- What one call of `decode` can do on a stream that the machine has not finished. -/
inductive Decoded (c : Chunked) (bytes : Bytes) (stalls : Nat) : Poll (Except IoError Frame) → Chunked → R → Prop where
  | pending {c' : Chunked} {r' : R} {bytes' : Bytes} {stalls' : Nat} (less : stalls' < stalls)
      (le : bytes'.length ≤ bytes.length) (fed : Fed r' bytes' stalls') (ok : c'.Ok) (ne : c'.state ≠ .end)
      (same : c.scan bytes = c'.scan bytes') : Decoded c bytes stalls .pending c' r'
  | failed {e : IoError} {c' : Chunked} {r' : R} (fails : c.scan bytes = none) :
      Decoded c bytes stalls (.ready (.error e)) c' r'
  | data {slice : Bytes} {c' : Chunked} {r' : R} {rest : Bytes} (less : rest.length < bytes.length)
      (fed : Fed r' rest stalls) (nonempty : slice ≠ []) (ok : c'.Ok) (ne : c'.state ≠ .end)
      (goes : c.scan bytes = (c'.scan rest).map fun res => (slice ++ res.1, res.2)) :
      Decoded c bytes stalls (.ready (.ok (.data slice))) c' r'
  | ended {c' : Chunked} {r' : R} {rest : Bytes} (fed : Fed r' rest stalls)
      (scanned : c.scan bytes = some ([], c', rest)) : Decoded c bytes stalls (.ready c'.finish.1) c'.finish.2 r'

theorem Decoded.behind {c c₁ : Chunked} {bytes rest : Bytes} {stalls : Nat} {res : Poll (Except IoError Frame)}
    {c' : Chunked} {r' : R} (same : c.scan bytes = c₁.scan rest) (less : rest.length < bytes.length)
    (h : Decoded c₁ rest stalls res c' r') : Decoded c bytes stalls res c' r' := by
  cases h with
  | pending lt le fed ok ne eq => exact .pending lt (by omega) fed ok ne (same.trans eq)
  | failed fails => exact .failed (same.trans fails)
  | data lt fed nonempty ok ne goes => exact .data (by omega) fed nonempty ok ne (same.trans goes)
  | ended fed scanned => exact .ended fed (same.trans scanned)

/-- The loop of `decode`, by induction on its rounds; every round that goes on takes a byte. -/
theorem decode_decoded {fuel : Nat} {c : Chunked} {r : R} {bytes : Bytes} {stalls : Nat} (ok : c.Ok)
    (ne : c.state ≠ .end) (fed : Fed r bytes stalls) (enough : bytes.length < fuel) :
    Decoded c bytes stalls (c.decode fuel r).1 (c.decode fuel r).2.1 (c.decode fuel r).2.2 := by
  induction fuel generalizing c r bytes with
  | zero => omega
  | succ fuel ih =>
    rw [decode]
    obtain ⟨r', stalls', step, less, fed'⟩ | ⟨e, r', step, fails⟩ |
      ⟨c', slice, r', rest, step, fed', less, sne, ok', ne', goes⟩ | ⟨c', r', rest, step, fed', less, ok', same⟩ :=
      step_fed ok ne fed
    · rw [step]
      exact .pending less (Nat.le_refl _) fed' ok ne rfl
    · rw [step]
      exact .failed fails
    · rw [step]
      simp only [ne', if_false]
      exact .data less fed' sne ok' ne' goes
    · rw [step]
      dsimp only
      split
      · next ended => exact .ended fed' (same.trans (scan_end ended rest))
      · next ne' => exact .behind same less (ih ok' ne' fed' (by omega))

end

end Chunked

/-! ### Running a decoder to completion -/

def framesData (frames : List Frame) : Bytes :=
  frames.flatMap fun
    | .data bytes => bytes
    | .trailers _ => []

def framesTrailers (frames : List Frame) : List HeaderMap :=
  frames.filterMap fun
    | .data _ => none
    | .trailers trailers => some trailers

theorem framesData_append (xs ys : List Frame) : framesData (xs ++ ys) = framesData xs ++ framesData ys := by
  simp [framesData]

theorem framesTrailers_append (xs ys : List Frame) :
    framesTrailers (xs ++ ys) = framesTrailers xs ++ framesTrailers ys := by
  simp [framesTrailers]

namespace Decoder

variable {R : Type} [MemRead R] [Httparse]

/-- Poll until the decoder is at its end or fails, and collect the frames. Without fuel there is no result. -/
def collect : Nat → Decoder → R → Option (Except IoError (List Frame) × Decoder × R)
  | 0, _, _ => none
  | fuel + 1, d, r =>
    match d.decode r with
    | (.pending, d, r) => collect fuel d r
    | (.ready (.error e), d, r) => some (.error e, d, r)
    | (.ready (.ok frame), d, r) =>
      if d.isEof then some (.ok [frame], d, r)
      else (collect fuel d r).map fun res => (res.1.map (frame :: ·), res.2)

variable [LawfulRead R]
open LawfulRead

/-- What `collect` must return for the result of a scan. -/
def Collected (scanned : Option (Bytes × Chunked × Bytes)) (out : Option (Except IoError (List Frame) × Decoder × R)) :
    Prop :=
  match scanned with
  | none => ∃ e d r', out = some (.error e, d, r')
  | some (data, c', rest) =>
    match c'.finish.1 with
    | .error e => ∃ d r', out = some (.error e, d, r')
    | .ok frame => ∃ frames r' stalls', out = some (.ok (frames ++ [frame]), .chunked c'.finish.2, r') ∧
        framesData frames = data ∧ framesTrailers frames = [] ∧ Fed r' rest stalls'

theorem finish_state (c : Chunked) : c.finish.2.state = c.state := by
  unfold Chunked.finish
  split
  · split
    · rfl
    · rfl
  · rfl

theorem collected_data {scanned : Option (Bytes × Chunked × Bytes)} {out : Option (Except IoError (List Frame) × Decoder × R)}
    {slice : Bytes} (h : Collected scanned out) :
    Collected (scanned.map fun res => (slice ++ res.1, res.2))
      (out.map fun res => (res.1.map (.data slice :: ·), res.2)) := by
  cases scanned with
  | none =>
    obtain ⟨e, d, r', rfl⟩ := h
    exact ⟨e, d, r', rfl⟩
  | some res =>
    obtain ⟨data, c', rest⟩ := res
    unfold Collected at h ⊢
    simp only [Option.map_some] at h ⊢
    split at h
    · obtain ⟨d, r', rfl⟩ := h
      exact ⟨d, r', rfl⟩
    · next frame hf =>
      obtain ⟨frames, r', stalls', rfl, hd, ht, fed⟩ := h
      exact ⟨.data slice :: frames, r', stalls', rfl, by simp [framesData, ← hd], by simpa [framesTrailers] using ht, fed⟩

/-- Whatever the pieces are, the frames of a run are those of the scan. -/
theorem collect_chunked {fuel : Nat} {c : Chunked} {r : R} {bytes : Bytes} {stalls : Nat} (ok : c.Ok)
    (ne : c.state ≠ .end) (fed : Fed r bytes stalls) (enough : bytes.length + stalls < fuel) :
    Collected (c.scan bytes) (collect fuel (.chunked c) r) := by
  induction fuel generalizing c r bytes stalls with
  | zero => omega
  | succ fuel ih =>
    have budget : bytes.length < MemRead.budget r + 2 := by
      have := budget_fed fed
      omega
    have decoded := Chunked.decode_decoded ok ne fed budget
    rw [collect, decode]
    generalize hd : c.decode (MemRead.budget r + 2) r = out at decoded
    obtain ⟨res, c', r'⟩ := out
    dsimp only at decoded ⊢
    cases decoded with
    | pending less le fed' ok' ne' same =>
      rw [same]
      exact ih ok' ne' fed' (by omega)
    | failed fails =>
      rw [fails]
      exact ⟨_, _, _, rfl⟩
    | data less fed' nonempty ok' ne' goes =>
      have notEof : (Decoder.chunked c').isEof = false := by simpa [isEof] using ne'
      simp only [notEof, Bool.false_eq_true, if_false]
      rw [goes]
      exact collected_data (ih ok' ne' fed' (by omega))
    | @ended c₁ _ rest fed' scanned =>
      have ended : c₁.state = .end := Chunked.scan_state scanned
      rw [scanned]
      unfold Collected
      dsimp only
      cases hf : c₁.finish.1 with
      | error e => exact ⟨_, _, rfl⟩
      | ok frame =>
        have isEof : (Decoder.chunked c₁.finish.2).isEof = true := by simp [isEof, finish_state, ended]
        simp only [isEof, if_true]
        exact ⟨[], r', stalls, rfl, rfl, rfl, fed'⟩

end Decoder

end Hwire.Http1
