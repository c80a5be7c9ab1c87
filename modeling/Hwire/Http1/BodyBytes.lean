import Hwire.Http1.LengthFraming
import Hwire.Lib.Transducer

/-!
# The bytes of a body

What the decoders have taken out of the bytes behind a head, wherever these are cut. A decoder is a machine that takes one
byte after another. What it has returned is what the bytes it has taken carry, and a body that it has ended is one of its
framing, to the byte.
-/

namespace Hwire.Http1
open Lib

/-! ### One byte at a time -/

namespace Chunked

/-- A byte that is taken before the end of the body. -/
def takeByte (c : Chunked) (b : UInt8) : Option (Chunked × Bytes) := if c.state = .end then none else c.scanByte b

theorem takeByte_ok {c c' : Chunked} {b : UInt8} (going : c.state ≠ .end) (other : c.state ≠ .body)
    (ok : c.onByte b = .ok c') : c.takeByte b = some (c', []) := by
  rw [takeByte, if_neg going, scanByte, if_neg other, ok]

/-- A part of a chunk. -/
theorem emits_data {c : Chunked} {slice : Bytes} (body : c.state = .body) (nonempty : slice ≠ [])
    (fits : slice.length ≤ c.chunkLen) : Emits takeByte c slice (c.afterData slice.length) slice := by
  have going : c.state ≠ .end := by simp [body]
  induction slice generalizing c with
  | nil => exact absurd rfl nonempty
  | cons b slice ih =>
    have first : c.takeByte b = some (c.afterData 1, [b]) := by
      rw [takeByte, if_neg going, scanByte, if_pos body]
      rfl
    by_cases more : slice = []
    · subst more
      exact .single first
    · have some_left : 0 < slice.length := List.length_pos_iff.mpr more
      rw [List.length_cons] at fits
      have inside : c.chunkLen - 1 > 0 := by omega
      have there : (c.afterData 1).state = .body := if_pos inside
      have enough : slice.length ≤ (c.afterData 1).chunkLen := by
        show slice.length ≤ c.chunkLen - 1
        omega
      have rest := ih there more enough (by simp [there])
      have same : (c.afterData 1).afterData slice.length = c.afterData (b :: slice).length := by
        have count : c.chunkLen - 1 - slice.length = c.chunkLen - (slice.length + 1) := by omega
        simp only [afterData, List.length_cons, count]
      rw [same] at rest
      exact .cons first rest

/-- A scan goes on where the bytes that were taken have led. -/
theorem scan_of_emits {c c' : Chunked} {bytes data : Bytes} (emits : Emits takeByte c bytes c' data) (rest : Bytes) :
    c.scan (bytes ++ rest) = (c'.scan rest).map fun res => (data ++ res.1, res.2) := by
  induction bytes generalizing c data with
  | nil =>
    obtain ⟨rfl, rfl⟩ := emits_nil.mp emits
    simp
  | cons b bytes ih =>
    obtain ⟨c₁, now, later, first, behind, rfl⟩ := emits_cons.mp emits
    unfold takeByte at first
    split at first
    · cases first
    · next going =>
      rw [List.cons_append, scan, if_neg going, first]
      dsimp only
      rw [ih behind, Option.map_map]
      congr 1
      funext res
      simp

end Chunked

namespace Decoder

/-- What a decoder does with the next byte of the body, where it takes one. -/
def onByte (d : Decoder) (b : UInt8) : Option (Decoder × Bytes) :=
  match d with
  | .length 0 => none
  | .length (n + 1) => some (.length n, [b])
  | .chunked c => (c.takeByte b).map fun res => (.chunked res.1, res.2)
  | .eof true => none
  | .eof false => some (.eof false, [b])

theorem emits_length {n : Nat} {bytes : Bytes} {d : Decoder} {data : Bytes} :
    Emits onByte (.length n) bytes d data ↔ bytes.length ≤ n ∧ d = .length (n - bytes.length) ∧ data = bytes := by
  induction bytes generalizing n d data with
  | nil => simp [emits_nil]
  | cons b bytes ih =>
    rw [emits_cons]
    cases n with
    | zero => simp [onByte]
    | succ n =>
      constructor
      · rintro ⟨d₁, now, later, first, rest, rfl⟩
        cases first
        obtain ⟨fits, rfl, rfl⟩ := ih.mp rest
        refine ⟨?_, ?_, rfl⟩
        · rw [List.length_cons]
          omega
        · rw [List.length_cons, Nat.add_sub_add_right]
      · rintro ⟨fits, rfl, rfl⟩
        rw [List.length_cons] at fits ⊢
        refine ⟨.length n, [b], bytes, rfl, ih.mpr ⟨by omega, ?_, rfl⟩, rfl⟩
        rw [Nat.add_sub_add_right]

theorem emits_chunked {c : Chunked} {bytes : Bytes} {d : Decoder} {data : Bytes} :
    Emits onByte (.chunked c) bytes d data ↔ ∃ c', d = .chunked c' ∧ Emits Chunked.takeByte c bytes c' data := by
  apply Emits.map
  intro c b
  rfl

theorem emits_eof {bytes : Bytes} {d : Decoder} {data : Bytes} :
    Emits onByte (.eof false) bytes d data ↔ d = .eof false ∧ data = bytes := by
  induction bytes generalizing data with
  | nil => exact emits_nil
  | cons b bytes ih =>
    rw [emits_cons]
    constructor
    · rintro ⟨d₁, now, later, first, rest, rfl⟩
      cases first
      obtain ⟨rfl, rfl⟩ := ih.mp rest
      exact ⟨rfl, rfl⟩
    · rintro ⟨rfl, rfl⟩
      exact ⟨.eof false, [b], bytes, rfl, ih.mpr ⟨rfl, rfl⟩, rfl⟩

end Decoder

/-! ### Reading -/

/-- The last frame of a body, from a decoder that has taken all of it. -/
inductive Decoder.Ends [Httparse] : Decoder → Frame → Decoder → Prop where
  | length (data : Bytes) : Ends (.length 0) (.data data) (.length 0)
  | chunked {c : Chunked} {frame : Frame} (ended : c.state = .end) (finish : c.finish.1 = .ok frame) :
      Ends (.chunked c) frame (.chunked c.finish.2)
  | eof : Ends (.eof false) (.data []) (.eof true)

theorem Decoder.Ends.isEof [Httparse] {d d' : Decoder} {frame : Frame} (ends : d.Ends frame d') : d'.isEof = true := by
  cases ends with
  | length => rfl
  | chunked ended => simp [Decoder.isEof, finish_state, ended]
  | eof => rfl

/-- What a call of `decode` takes out of what is unread, and what it returns. -/
inductive Decoder.Decodes [Httparse] {B : Type} (d : Decoder) (b : Buffered B) :
    Poll (Except IoError Frame) → Decoder → Buffered B → Prop where
  | pending {d' : Decoder} {b' : Buffered B} {bytes : Bytes} (split : b.unread = bytes ++ b'.unread)
      (emits : Emits onByte d bytes d' []) (going : d'.isEof = false) : Decodes d b .pending d' b'
  | failed {e : IoError} {d' : Decoder} {b' : Buffered B} (suffix : b'.unread <:+ b.unread) :
      Decodes d b (.ready (.error e)) d' b'
  | data {data : Bytes} {d' : Decoder} {b' : Buffered B} {bytes : Bytes} (split : b.unread = bytes ++ b'.unread)
      (emits : Emits onByte d bytes d' data) (going : d'.isEof = false) : Decodes d b (.ready (.ok (.data data))) d' b'
  | ended {frame : Frame} {d₁ d' : Decoder} {b' : Buffered B} {bytes : Bytes} (split : b.unread = bytes ++ b'.unread)
      (emits : Emits onByte d bytes d₁ (framesData [frame])) (ends : d₁.Ends frame d') :
      Decodes d b (.ready (.ok frame)) d' b'

/-- Bytes that were taken before come first. -/
theorem Decoder.Decodes.behind [Httparse] {B : Type} {d d₁ d' : Decoder} {b b₁ b' : Buffered B} {bytes : Bytes}
    {res : Poll (Except IoError Frame)} (h : d₁.Decodes b₁ res d' b') (split : b.unread = bytes ++ b₁.unread)
    (emits : Emits onByte d bytes d₁ []) : d.Decodes b res d' b' := by
  have front {more rest : Bytes} (eq : b₁.unread = more ++ rest) : b.unread = (bytes ++ more) ++ rest := by
    rw [split, eq, List.append_assoc]
  cases h with
  | pending later taken going => exact .pending (front later) (emits.append taken) going
  | failed suffix => exact .failed (suffix.trans ⟨bytes, split.symm⟩)
  | data later taken going => exact .data (front later) (emits.append taken) going
  | ended later taken ends => exact .ended (front later) (emits.append taken) ends

namespace Chunked

variable {B : Type}

/-- What a step of the machine takes. -/
theorem step_takes {c : Chunked} (going : c.state ≠ .end) (b : Buffered B) :
    (∃ b', c.step b = (.pending, b') ∧ b'.unread = b.unread) ∨
    (∃ e b', c.step b = (.ready (.error e), b') ∧ b'.unread <:+ b.unread) ∨
    (∃ c' slice b', c.step b = (.ready (.ok (c', some slice)), b') ∧ b.unread = slice ++ b'.unread ∧
      Emits takeByte c slice c' slice ∧ c'.state ≠ .end) ∨
    ∃ c' byte b', c.step b = (.ready (.ok (c', none)), b') ∧ b.unread = byte :: b'.unread ∧
      Emits takeByte c [byte] c' [] := by
  have other {len : Nat} {res : Poll (Except IoError Bytes)} {b' : Buffered B} (read : b.readMem len = (res, b'))
      (same : (b.readMem len).2.unread = b.unread) : b'.unread = b.unread := by
    rw [read] at same
    exact same
  by_cases body : c.state = .body
  · have unfolded : c.step b = c.stepBody b := by simp only [step, body]
    rw [unfolded, stepBody, show MemRead.readMem b c.chunkLen = b.readMem c.chunkLen from rfl]
    obtain ⟨slice, b', read, fits, split⟩ | ⟨none, same⟩ := b.readMem_take c.chunkLen
    · rw [read]
      by_cases empty : slice = []
      · refine .inr (.inl ⟨incompleteBody, b', ?_, ⟨slice, split.symm⟩⟩)
        simp [readBody, empty]
      · refine .inr (.inr (.inl ⟨c.afterData slice.length, slice, b', ?_, split, emits_data body empty fits, ?_⟩))
        · simp only [readBody_ok empty]
        · unfold afterData
          dsimp only
          split
          · simp
          · simp
    · cases read : b.readMem c.chunkLen with
      | mk res b' =>
        have same := other read same
        cases res with
        | pending => exact .inl ⟨b', rfl, same⟩
        | ready res =>
          cases res with
          | error e => exact .inr (.inl ⟨e, b', rfl, same ▸ List.suffix_rfl⟩)
          | ok slice => exact absurd (by rw [read]) (none slice)
  · have unfolded : c.step b = c.stepByte b := by
      unfold step
      split
      · next ended => exact absurd ended going
      · next inside => exact absurd inside body
      · rfl
    rw [unfolded, stepByte, show MemRead.readMem b 1 = b.readMem 1 from rfl]
    obtain ⟨slice, b', read, fits, split⟩ | ⟨none, same⟩ := b.readMem_take 1
    · rw [read]
      cases slice with
      | nil => exact .inr (.inl ⟨eofInSizeLine, b', rfl, ⟨[], split.symm⟩⟩)
      | cons byte more =>
        obtain rfl : more = [] := by
          rw [List.length_cons] at fits
          exact List.length_eq_zero_iff.mp (by omega)
        cases ok : c.onByte byte with
        | error e => exact .inr (.inl ⟨e, b', by simp [ok, Except.map], ⟨[byte], split.symm⟩⟩)
        | ok c' =>
          refine .inr (.inr (.inr ⟨c', byte, b', by simp [ok, Except.map], split, ?_⟩))
          exact .single (takeByte_ok going body ok)
    · cases read : b.readMem 1 with
      | mk res b' =>
        have same := other read same
        cases res with
        | pending => exact .inl ⟨b', rfl, same⟩
        | ready res =>
          cases res with
          | error e => exact .inr (.inl ⟨e, b', rfl, same ▸ List.suffix_rfl⟩)
          | ok slice => exact absurd (by rw [read]) (none slice)

variable [Httparse]

theorem framesData_finish {c : Chunked} {frame : Frame} (finish : c.finish.1 = .ok frame) : framesData [frame] = [] := by
  unfold Chunked.finish at finish
  split at finish
  · split at finish
    · cases finish
    · next buf _ _ =>
      cases trailers : decodeTrailers buf c.trailersCnt with
      | error e =>
        rw [trailers] at finish
        cases finish
      | ok trailers' =>
        rw [trailers] at finish
        cases finish
        rfl
  · cases finish
    rfl

/-- The loop of `decode`, by induction on its rounds. -/
theorem decode_decodes (fuel : Nat) {c : Chunked} (going : c.state ≠ .end) (b : Buffered B) :
    Decoder.Decodes (.chunked c) b (c.decode fuel b).1 (.chunked (c.decode fuel b).2.1) (c.decode fuel b).2.2 := by
  induction fuel generalizing c b with
  | zero =>
    rw [decode]
    exact .pending (List.nil_append _).symm (.nil _) (by simpa [Decoder.isEof] using going)
  | succ fuel ih =>
    rw [decode]
    obtain ⟨b', step, same⟩ | ⟨e, b', step, suffix⟩ | ⟨c', slice, b', step, split, emits, going'⟩ |
      ⟨c', byte, b', step, split, emits⟩ := step_takes going b
    · rw [step]
      exact .pending same.symm (.nil _) (by simpa [Decoder.isEof] using going)
    · rw [step]
      exact .failed suffix
    · rw [step]
      simp only [going', if_false]
      exact .data split (Decoder.emits_chunked.mpr ⟨c', rfl, emits⟩) (by simpa [Decoder.isEof] using going')
    · rw [step]
      dsimp only
      have taken : Emits Decoder.onByte (.chunked c) [byte] (.chunked c') [] := Decoder.emits_chunked.mpr ⟨c', rfl, emits⟩
      split
      · next ended =>
        cases finish : c'.finish.1 with
        | error e => exact .failed ⟨[byte], split.symm⟩
        | ok frame =>
          have last : Emits Decoder.onByte (.chunked c) [byte] (.chunked c') (framesData [frame]) := by
            rw [framesData_finish finish]
            exact taken
          exact .ended split last (.chunked ended finish)
      · next going' => exact (ih going' b').behind split taken

end Chunked

namespace Decoder

variable [Httparse] {B : Type}

/-- The same for all decoders that have not ended. -/
theorem decode_decodes {d : Decoder} (going : d.isEof = false) (b : Buffered B) :
    d.Decodes b (d.decode b).1 (d.decode b).2.1 (d.decode b).2.2 := by
  cases d with
  | length n =>
    obtain ⟨slice, b', eq, fits, split⟩ | ⟨b', eq, same⟩ | ⟨e, b', eq, same⟩ := decode_length n b
    · rw [eq]
      have emits : Emits onByte (.length n) slice (.length (n - slice.length)) slice := emits_length.mpr ⟨fits, rfl, rfl⟩
      by_cases more : n - slice.length = 0
      · rw [more] at emits ⊢
        exact .ended split (by simpa [framesData] using emits) (.length slice)
      · exact .data split emits (by rw [← Bool.not_eq_true, isEof_length]; exact more)
    · rw [eq]
      exact .pending same.symm (.nil _) going
    · rw [eq]
      exact .failed (same ▸ List.suffix_rfl)
  | chunked c =>
    have going : c.state ≠ .end := by simpa [isEof] using going
    exact Chunked.decode_decodes (MemRead.budget b + 2) going b
  | eof ended =>
    obtain rfl : ended = false := by
      cases ended with
      | false => rfl
      | true => cases going
    unfold decode
    simp only [Bool.false_eq_true, if_false]
    rw [show MemRead.readMem b 8192 = b.readMem 8192 from rfl]
    obtain ⟨slice, b', read, -, split⟩ | ⟨none, same⟩ := b.readMem_take 8192
    · rw [read]
      have emits : Emits onByte (.eof false) slice (.eof false) slice := emits_eof.mpr ⟨rfl, rfl⟩
      by_cases empty : slice = []
      · subst empty
        exact .ended split emits .eof
      · have more : decide (slice = []) = false := by simpa using empty
        dsimp only
        rw [more]
        exact .data split emits rfl
    · cases read : b.readMem 8192 with
      | mk res b' =>
        rw [read] at same
        cases res with
        | pending => exact .pending same.symm (.nil _) rfl
        | ready res =>
          cases res with
          | error e => exact .failed (same ▸ List.suffix_rfl)
          | ok slice => exact absurd (by rw [read]) (none slice)

end Decoder

/-! ### Whole bodies -/

section Whole

variable [Httparse]

/-- The frames of a whole body, and the bytes that carry them. -/
inductive WholeBody (h1MaxHeaders : Option Nat) : DecodedLength → List Frame → Bytes → Prop where
  | length {frames : List Frame} (plain : framesTrailers frames = []) :
      WholeBody h1MaxHeaders (.length (framesData frames).length) frames (framesData frames)
  | chunked {frames : List Frame} {body : ChunkedBody} (accepted : body.Accepted h1MaxHeaders none)
      (data : framesData frames = body.data) (trailers : framesTrailers frames = body.decodedTrailers) :
      WholeBody h1MaxHeaders .chunked frames body.render
  | closeDelimited {frames : List Frame} (plain : framesTrailers frames = []) :
      WholeBody h1MaxHeaders .closeDelimited frames (framesData frames)

theorem WholeBody.empty (h1MaxHeaders : Option Nat) : WholeBody h1MaxHeaders .ZERO [] [] := @length _ _ [] rfl

theorem WholeBody.of_ends {decode : DecodedLength} {h1MaxHeaders : Option Nat} {bytes : Bytes} {frames : List Frame}
    {frame : Frame} {d d' : Decoder} (plain : framesTrailers frames = [])
    (emits : Emits Decoder.onByte (.new decode h1MaxHeaders none) bytes d (framesData (frames ++ [frame])))
    (ends : d.Ends frame d') : WholeBody h1MaxHeaders decode (frames ++ [frame]) bytes := by
  have trailers : framesTrailers (frames ++ [frame]) = framesTrailers [frame] := by
    rw [framesTrailers_append, plain, List.nil_append]
  cases decode with
  | length n =>
    obtain ⟨fits, rfl, same⟩ := Decoder.emits_length.mp emits
    generalize left : n - bytes.length = m at ends
    cases ends
    obtain rfl : n = bytes.length := by omega
    rw [← same]
    exact .length (trailers.trans rfl)
  | chunked =>
    obtain ⟨c, rfl, taken⟩ := Decoder.emits_chunked.mp emits
    cases ends with
    | chunked ended finish =>
      have scanned := Chunked.scan_of_emits taken []
      rw [Chunked.scan_end ended, Option.map_some, List.append_nil, List.append_nil] at scanned
      obtain ⟨body, rest, split, fits, out⟩ := (Chunked.scan_start (Chunked.fresh_start h1MaxHeaders none)).mp scanned
      obtain ⟨data, behind, none⟩ : framesData (frames ++ [frame]) = body.data ∧ c = _ ∧ [] = rest := by
        simpa using out
      subst none
      rw [List.append_nil] at split
      rw [split]
      obtain ⟨last, fin, -, carried, accepted⟩ | ⟨e, fin, -⟩ := finish_behind fits
      · rw [← behind, finish] at fin
        cases fin
        exact .chunked accepted data (trailers.trans carried)
      · rw [← behind, finish] at fin
        cases fin
  | closeDelimited =>
    obtain ⟨rfl, same⟩ := Decoder.emits_eof.mp emits
    cases ends
    rw [← same]
    exact .closeDelimited (trailers.trans rfl)

end Whole

end Hwire.Http1
