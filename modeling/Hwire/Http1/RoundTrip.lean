import Hwire.Http1.ChunkedGrammar
import Hwire.Http1.Encode

/-!
# Decoding what was encoded

The output of the encoders, followed by anything, is read back by the matching decoder whatever the cuts are.
-/

namespace Hwire.Http1
open Lib LawfulBuf

/-! ### Encoding a whole body -/

/-- The two ways to finish a body: after the last chunk, or together with it. -/
inductive Finish where
  | «end» | andEnd
  deriving DecidableEq, Repr

/-- Encode the chunks into the write buffer and finish the body. -/
def encodeBody (e : Encoder) (w : WriteBuf (EncodedBuf Bytes)) : List Bytes → Finish → Option (WriteBuf (EncodedBuf Bytes))
  | [], .end =>
    match e.end with
    | .ok none => some w
    | .ok (some buf) => some (w.buffer buf)
    | .error _ => none
  | [], .andEnd => none
  | [last], .andEnd => some (e.encodeAndEnd last w).2
  | chunk :: rest, finish => encodeBody (e.encode chunk).2 (w.buffer (e.encode chunk).1) rest finish

/-! ### The chunked coding -/

theorem hexValue_hexDigit {d : Nat} (h : d < 16) : Chunked.hexValue (hexDigit d) = some d := by
  interval_cases d <;> decide

theorem hexUpper_isHex {n : Nat} {b : UInt8} (h : b ∈ hexUpper n) : isHex b = true := by
  obtain ⟨d, hd, rfl⟩ := List.mem_map.mp h
  rw [isHex, hexValue_hexDigit (bigDigits_lt (by decide) hd)]
  rfl

/-- The decoder reads back the size that the encoder printed. -/
theorem hexRead_hexUpper (n : Nat) : hexRead 0 (hexUpper n) = n := by
  have digits : (hexUpper n).filterMap Chunked.hexValue = bigDigits 16 n := by
    rw [hexUpper, List.filterMap_map]
    conv_rhs => rw [← List.filterMap_some (l := bigDigits 16 n)]
    exact List.filterMap_congr fun d hd => hexValue_hexDigit (bigDigits_lt (by decide) hd)
  rw [hexRead, digits, readDigits_bigDigits]

def plainLine (n : Nat) : SizeLine where
  digits := hexUpper n
  tail := ⟨[], none, by simp, by simp⟩
  digits_ne := by simpa [hexUpper] using bigDigits_ne_nil n
  digits_hex := fun _ hb => hexUpper_isHex hb

theorem plainLine_value (n : Nat) : (plainLine n).value = n := hexRead_hexUpper n

def plainChunk (data : Bytes) (h : data ≠ [] ∧ data.length < 2 ^ 64) : Chunk where
  line := plainLine data.length
  data
  positive := by rw [plainLine_value]; exact List.length_pos_iff.mpr h.1
  fits := by rw [plainLine_value]; exact h.2
  length := (plainLine_value _).symm

theorem plainChunk_render (data : Bytes) (h : data ≠ [] ∧ data.length < 2 ^ 64) :
    (plainChunk data h).render = chunkBytes data := by
  simp [Chunk.render, SizeLine.render, LineTail.render, plainChunk, plainLine, chunkBytes]

def plainBody (chunks : List Bytes) (h : ∀ c ∈ chunks, c ≠ [] ∧ c.length < 2 ^ 64) : ChunkedBody where
  chunks := chunks.pmap plainChunk h
  last := plainLine 0
  last_zero := plainLine_value 0
  trailers := []

theorem plainBody_cons (c : Bytes) (chunks : List Bytes) (h : ∀ x ∈ c :: chunks, x ≠ [] ∧ x.length < 2 ^ 64) :
    plainBody (c :: chunks) h =
      (plainBody chunks fun x hx => h x (List.mem_cons_of_mem _ hx)).consChunk (plainChunk c (h c List.mem_cons_self)) := rfl

theorem plainBody_spec (chunks : List Bytes) (h : ∀ c ∈ chunks, c ≠ [] ∧ c.length < 2 ^ 64) :
    (plainBody chunks h).render = chunks.flatMap chunkBytes ++ lastChunk ∧
      (plainBody chunks h).data = chunks.flatten ∧ (plainBody chunks h).extLen = 0 := by
  induction chunks with
  | nil =>
    have zero : (plainLine 0).digits = ascii "0" := by decide
    refine ⟨?_, rfl, rfl⟩
    simp only [plainBody, ChunkedBody.render, ChunkedBody.trailerSection, SizeLine.render, zero, List.pmap_nil,
      List.flatMap_nil, List.nil_append]
    decide
  | cons c chunks ih =>
    obtain ⟨render, data, ext⟩ := ih fun x hx => h x (List.mem_cons_of_mem _ hx)
    have chunk := plainChunk_render c (h c List.mem_cons_self)
    rw [plainBody_cons]
    refine ⟨?_, ?_, ?_⟩
    · rw [ChunkedBody.render_consChunk, render, List.flatMap_cons, ← chunk, Chunk.render]
      simp
    · rw [ChunkedBody.data_consChunk, data]; rfl
    · rw [ChunkedBody.extLen_consChunk, ext]; rfl

theorem contents_encodeBody_chunked {w : WriteBuf (EncodedBuf Bytes)} (ok : w.Ok) {chunks : List Bytes} {finish : Finish}
    (nonempty : ∀ c ∈ chunks, c ≠ []) (finishable : finish = .andEnd → chunks ≠ []) :
    ∃ w', encodeBody .chunked w chunks finish = some w' ∧
      w'.contents = w.contents ++ (chunks.flatMap chunkBytes ++ lastChunk) := by
  induction chunks generalizing w with
  | nil =>
    cases finish with
    | andEnd => exact absurd rfl (finishable rfl)
    | «end» =>
      refine ⟨_, rfl, ?_⟩
      rw [WriteBuf.contents_buffer ok]
      rfl
  | cons c chunks ih =>
    obtain ⟨bytes_eq, same⟩ := Encoder.bytes_encode_chunked (e := .chunked) rfl c
    obtain ⟨ne, later⟩ := List.forall_mem_cons.mp nonempty
    have go : (finish = .andEnd → chunks ≠ []) → ∃ w',
        encodeBody (Encoder.chunked.encode c).2 (w.buffer (Encoder.chunked.encode c).1) chunks finish = some w' ∧
        w'.contents = w.contents ++ ((c :: chunks).flatMap chunkBytes ++ lastChunk) := by
      intro finishable
      have pos : 0 < Buf.remaining (Encoder.chunked.encode c).1 := by
        rw [remaining_eq, bytes_eq]
        simp [chunkBytes, crlf]
      obtain ⟨w', run, contents⟩ := ih (ok.buffer pos) later finishable
      rw [same]
      refine ⟨w', run, ?_⟩
      rw [contents, WriteBuf.contents_buffer ok, bytes_eq]
      simp
    cases chunks with
    | cons c' chunks => exact go fun _ => by simp
    | nil =>
      cases finish with
      | «end» => exact go (by simp)
      | andEnd =>
        refine ⟨_, rfl, ?_⟩
        show (w.buffer _).contents = _
        rw [WriteBuf.contents_buffer ok]
        congr 1
        simp [bytes, EncodedBuf.contents, ChunkSize.chunk, ChunkSize.new, chunkBytes, lastChunk]
        decide

/-! ### Counted bodies -/

theorem contents_encodeBody_length {e : Encoder} {w : WriteBuf (EncodedBuf Bytes)} (ok : w.Ok) {chunks : List Bytes}
    {finish : Finish} (kind : e.kind = .length chunks.flatten.length) (nonempty : ∀ c ∈ chunks, c ≠ [])
    (finishable : finish = .andEnd → chunks ≠ []) :
    ∃ w', encodeBody e w chunks finish = some w' ∧ w'.contents = w.contents ++ chunks.flatten := by
  induction chunks generalizing e w with
  | nil =>
    cases finish with
    | andEnd => exact absurd rfl (finishable rfl)
    | «end» =>
      have none : (e.end : Except NotEof (Option (EncodedBuf Bytes))) = .ok none := by
        rw [Encoder.end, kind]; rfl
      exact ⟨w, by rw [encodeBody, none], by simp⟩
  | cons c chunks ih =>
    obtain ⟨bytes_eq, after⟩ := Encoder.bytes_encode_length kind c
    obtain ⟨ne, later⟩ := List.forall_mem_cons.mp nonempty
    have le : c.length ≤ (c :: chunks).flatten.length := by simp
    rw [List.take_of_length_le le] at bytes_eq
    have go : (finish = .andEnd → chunks ≠ []) → ∃ w',
        encodeBody (e.encode c).2 (w.buffer (e.encode c).1) chunks finish = some w' ∧
        w'.contents = w.contents ++ (c :: chunks).flatten := by
      intro finishable
      have pos : 0 < Buf.remaining (e.encode c).1 := by
        rw [remaining_eq, bytes_eq]
        exact List.length_pos_iff.mpr ne
      obtain ⟨w', run, contents⟩ := ih (ok.buffer pos) (e := (e.encode c).2) (by rw [after]; simp) later finishable
      refine ⟨w', run, ?_⟩
      rw [contents, WriteBuf.contents_buffer ok, bytes_eq]
      simp
    cases chunks with
    | cons c' chunks => exact go fun _ => by simp
    | nil =>
      cases finish with
      | «end» => exact go (by simp)
      | andEnd =>
        have whole : e.kind = .length c.length := by simpa using kind
        refine ⟨_, rfl, ?_⟩
        have exact_ : (e.encodeAndEnd c w).2 = w.buffer (.exact c) := by
          simp [Encoder.encodeAndEnd, whole]
        rw [exact_, WriteBuf.contents_buffer ok]
        simp [bytes, EncodedBuf.contents]

section
variable {R : Type} [MemRead R] [LawfulRead R] [Httparse]
open LawfulRead

/-- The counted decoder reads exactly its count. -/
theorem collect_length {fuel : Nat} {r : R} {data rest : Bytes} {stalls : Nat} (fed : Fed r (data ++ rest) stalls)
    (enough : data.length + stalls < fuel) :
    ∃ frames decoder r' stalls', Decoder.collect fuel (.length data.length) r = some (.ok frames, decoder, r') ∧
      framesData frames = data ∧ decoder.isEof = true ∧ Fed r' rest stalls' := by
  induction fuel generalizing r data stalls with
  | zero => omega
  | succ fuel ih =>
    by_cases empty : data = []
    · subst empty
      exact ⟨_, _, r, stalls, rfl, rfl, rfl, fed⟩
    · have pos := List.length_pos_iff.mpr empty
      rw [Decoder.collect, Decoder.decode, if_neg (by omega)]
      obtain ⟨r', stalls', read, less, fed'⟩ | ⟨r', read, none⟩ | ⟨slice, rest', r', read, sne, le, heq, fed'⟩ :=
        readMem_fed fed pos
      · rw [read]
        exact ih fed' (by omega)
      · exact absurd (List.append_eq_nil_iff.mp none).1 empty
      · have slicePos := List.length_pos_iff.mpr sne
        -- The slice is the front of the data that is still missing.
        obtain ⟨later, rfl, rfl⟩ : ∃ later, data = slice ++ later ∧ rest' = later ++ rest := by
          obtain ⟨later, h⟩ := List.prefix_of_prefix_length_le ⟨rest', heq.symm⟩ (List.prefix_append data rest) le
          refine ⟨later, h.symm, ?_⟩
          rw [← h, List.append_assoc] at heq
          exact (List.append_cancel_left heq).symm
        rw [List.length_append] at enough le read ⊢
        have notMore : ¬ slice.length > slice.length + later.length := by omega
        have remaining : slice.length + later.length - slice.length = later.length := by omega
        rw [read]
        simp only [notMore, if_false, show ¬ slice.length = 0 by omega, remaining]
        by_cases last : later = []
        · subst last
          exact ⟨[.data slice], _, r', stalls, rfl, rfl, rfl, fed'⟩
        · have more : (Decoder.length later.length).isEof = false := by
            have := List.length_pos_iff.mpr last
            obtain ⟨k, hk⟩ := Nat.exists_eq_succ_of_ne_zero (show later.length ≠ 0 by omega)
            rw [hk]; rfl
          obtain ⟨frames, decoder, r'', stalls'', run, data_eq, eof, fed''⟩ := ih fed' (by omega)
          simp only [more, Bool.false_eq_true, if_false, run]
          exact ⟨.data slice :: frames, decoder, r'', stalls'', rfl, by simp [framesData, ← data_eq], eof, fed''⟩

end

/-- Decoding undoes encoding, for the chunked and for the counted coding, for both ways to finish a body, and leaves
whatever follows the body unread. -/
theorem collect_encodeBody [Httparse] {B : Type} (chunks : List Bytes) (finish : Finish) (strategy : WriteStrategy)
    (rest buffered : Bytes) (cuts : List (Option Bytes)) (h1MaxHeaders h1MaxHeaderSize : Option Nat)
    (nonempty : ∀ c ∈ chunks, c ≠ []) (sized : ∀ c ∈ chunks, c.length < 2 ^ 64)
    (finishable : finish = .andEnd → chunks ≠ []) (pieces : ∀ piece ∈ cuts, piece ≠ some []) :
    (∃ w, encodeBody .chunked { strategy } chunks finish = some w ∧
      (buffered ++ Buffered.cutBytes cuts = w.contents ++ rest →
        ∃ fuel frames decoder reader,
          Decoder.collect fuel (.new .chunked h1MaxHeaders h1MaxHeaderSize) (Buffered.ofCuts buffered cuts : Buffered B) =
            some (.ok frames, decoder, reader) ∧
          framesData frames = chunks.flatten ∧ framesTrailers frames = [] ∧ decoder.isEof = true ∧ reader.unread = rest)) ∧
    (∃ w, encodeBody (.length chunks.flatten.length) { strategy } chunks finish = some w ∧
      (buffered ++ Buffered.cutBytes cuts = w.contents ++ rest →
        ∃ fuel frames decoder reader,
          Decoder.collect fuel (.new (.length chunks.flatten.length) h1MaxHeaders h1MaxHeaderSize)
            (Buffered.ofCuts buffered cuts : Buffered B) = some (.ok frames, decoder, reader) ∧
          framesData frames = chunks.flatten ∧ decoder.isEof = true ∧ reader.unread = rest)) := by
  have fed : LawfulRead.Fed (Buffered.ofCuts buffered cuts : Buffered B) (buffered ++ Buffered.cutBytes cuts)
      (cuts.count none) := Buffered.ofCuts_fed pieces
  have empty : ({ strategy } : WriteBuf (EncodedBuf Bytes)).contents = [] := rfl
  constructor
  · obtain ⟨w, run, contents⟩ := contents_encodeBody_chunked (.new strategy) nonempty finishable
    rw [empty, List.nil_append] at contents
    refine ⟨w, run, ?_⟩
    intro stream
    have ok : ∀ c ∈ chunks, c ≠ [] ∧ c.length < 2 ^ 64 := fun c hc => ⟨nonempty c hc, sized c hc⟩
    obtain ⟨render, data, ext⟩ := plainBody_spec chunks ok
    have accepted : (plainBody chunks ok).Accepted h1MaxHeaders h1MaxHeaderSize :=
      ⟨by rw [ext]; decide, fun h => absurd rfl h⟩
    rw [stream, contents, ← render] at fed
    obtain ⟨frames, decoder, reader, _, run, hdata, htrailers, eof, fed'⟩ :=
      collect_accepted accepted fed (Nat.lt_succ_self _)
    exact ⟨_, frames, decoder, reader, run, hdata.trans data, htrailers, eof, Buffered.Fed.unread fed'⟩
  · obtain ⟨w, run, contents⟩ := contents_encodeBody_length (e := .length chunks.flatten.length) (.new strategy) rfl
      nonempty finishable
    rw [empty, List.nil_append] at contents
    refine ⟨w, run, ?_⟩
    intro stream
    rw [stream, contents] at fed
    obtain ⟨frames, decoder, reader, _, run, hdata, eof, fed'⟩ := collect_length fed (Nat.lt_succ_self _)
    exact ⟨_, frames, decoder, reader, run, hdata, eof, Buffered.Fed.unread fed'⟩

theorem collect_encodeBody_two : letI := oneTrailer
    ∃ w, encodeBody .chunked { strategy := .queue } [ascii "ab", ascii "c"] .andEnd = some w ∧
      ∃ fuel frames decoder reader,
        Decoder.collect fuel (.new .chunked none none)
          (Buffered.ofCuts [] [some (ascii "2\r\nab\r\n"), none, some (ascii "1\r\nc\r\n0\r\n\r\nX")] : Buffered Bytes) =
          some (.ok frames, decoder, reader) ∧
        framesData frames = ascii "abc" ∧ framesTrailers frames = [] ∧ decoder.isEof = true ∧
        reader.unread = ascii "X" := by
  let _ := oneTrailer
  obtain ⟨w, run, decodes⟩ := (collect_encodeBody (B := Bytes) [ascii "ab", ascii "c"] .andEnd .queue (ascii "X") []
    [some (ascii "2\r\nab\r\n"), none, some (ascii "1\r\nc\r\n0\r\n\r\nX")] none none (by decide) (by decide)
    (by decide) (by decide)).1
  refine ⟨w, run, decodes ?_⟩
  obtain rfl := Option.some.inj (run.symm.trans rfl)
  decide

end Hwire.Http1
