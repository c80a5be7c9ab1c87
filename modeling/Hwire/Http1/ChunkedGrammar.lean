import Hwire.Http1.ChunkedScan
import Hwire.Http1.Io

/-!
# The grammar of chunked bodies

Size lines, chunks and trailer lines as the decoder accepts them, and the proof that it accepts nothing else:
each state of the machine is the residual of one production.
-/

namespace Hwire.Http1
open Lib

/-! ### Productions -/

def isHex (b : UInt8) : Bool := (Chunked.hexValue b).isSome

def hexRead (acc : Nat) (digits : Bytes) : Nat := readDigits 16 acc (digits.filterMap Chunked.hexValue)

/-- What follows the digits of a size line: white space and an extension. -/
structure LineTail where
  lws : Bytes
  ext : Option Bytes
  lws_ok : ∀ b ∈ lws, b = HTAB ∨ b = SP
  ext_ok : ∀ b ∈ ext.getD [], b ≠ CR ∧ b ≠ LF

namespace LineTail

def extBytes (t : LineTail) : Bytes := t.ext.getD []

def render (t : LineTail) : Bytes :=
  t.lws ++ (match t.ext with
    | none => []
    | some ext => 59 :: ext) ++ crlf

def consLws (t : LineTail) (b : UInt8) (h : b = HTAB ∨ b = SP) : LineTail :=
  ⟨b :: t.lws, t.ext, by simpa [h] using t.lws_ok, t.ext_ok⟩

end LineTail

structure SizeLine where
  digits : Bytes
  tail : LineTail
  digits_ne : digits ≠ []
  digits_hex : ∀ b ∈ digits, isHex b = true

namespace SizeLine

def value (l : SizeLine) : Nat := hexRead 0 l.digits

def extBytes (l : SizeLine) : Bytes := l.tail.extBytes

def render (l : SizeLine) : Bytes := l.digits ++ l.tail.render

end SizeLine

/-- A chunk: a size line of a positive value below `2 ^ 64` and that much data. -/
structure Chunk where
  line : SizeLine
  data : Bytes
  positive : 0 < line.value
  fits : line.value < 2 ^ 64
  length : data.length = line.value

namespace Chunk

def render (c : Chunk) : Bytes := c.line.render ++ c.data ++ crlf

end Chunk

/-- A trailer line without its end: it does not start with a carriage return and has none inside. -/
structure TrailerLine where
  bytes : Bytes
  nonempty : bytes ≠ []
  noCr : CR ∉ bytes

def TrailerLine.render (l : TrailerLine) : Bytes := l.bytes ++ crlf

structure ChunkedBody where
  chunks : List Chunk
  last : SizeLine
  last_zero : last.value = 0
  trailers : List TrailerLine

namespace ChunkedBody

def data (b : ChunkedBody) : Bytes := b.chunks.flatMap Chunk.data

def trailerSection (b : ChunkedBody) : Bytes := b.trailers.flatMap TrailerLine.render ++ crlf

def render (b : ChunkedBody) : Bytes := b.chunks.flatMap Chunk.render ++ b.last.render ++ b.trailerSection

/-- The number of extension bytes in the whole body. -/
def extLen (b : ChunkedBody) : Nat := (b.chunks.map fun c => c.line.extBytes.length).sum + b.last.extBytes.length

def consChunk (b : ChunkedBody) (chunk : Chunk) : ChunkedBody := { b with chunks := chunk :: b.chunks }

@[simp] theorem data_consChunk (b : ChunkedBody) (chunk : Chunk) : (b.consChunk chunk).data = chunk.data ++ b.data := rfl

@[simp] theorem render_consChunk (b : ChunkedBody) (chunk : Chunk) :
    (b.consChunk chunk).render = chunk.line.render ++ (chunk.data ++ crlf ++ b.render) := by
  simp [render, consChunk, trailerSection, Chunk.render]

@[simp] theorem extLen_consChunk (b : ChunkedBody) (chunk : Chunk) :
    (b.consChunk chunk).extLen = chunk.line.extBytes.length + b.extLen := by
  simp [extLen, consChunk, Nat.add_assoc]

end ChunkedBody

/-! ### One byte -/

namespace Chunked

theorem scan_eq_some {c : Chunked} (ne : c.state ≠ .end) (nb : c.state ≠ .body) {bytes : Bytes}
    {out : Bytes × Chunked × Bytes} :
    c.scan bytes = some out ↔ ∃ b rest c', bytes = b :: rest ∧ c.onByte b = .ok c' ∧ c'.scan rest = some out := by
  cases bytes with
  | nil => simp [scan_nil ne]
  | cons b rest =>
    cases hb : c.onByte b with
    | error e => simp [scan_error ne nb hb, hb]
    | ok c' => simp [scan_ok ne nb hb, hb]

/-! ### Size lines -/

/-- The machine behind a size line of this value with so many extension bytes. -/
def endLine (c : Chunked) (extLen size : Nat) : Chunked :=
  { c with
    extensionsCnt := c.extensionsCnt + extLen, chunkLen := size
    state := if size = 0 then .endCr else .body }

theorem scan_sizeLf {c : Chunked} (h : c.state = .sizeLf) {bytes : Bytes} {out : Bytes × Chunked × Bytes} :
    c.scan bytes = some out ↔ ∃ rest, bytes = LF :: rest ∧ (c.endLine 0 c.chunkLen).scan rest = some out := by
  rw [scan_eq_some (by simp [h]) (by simp [h])]
  have step : ∀ b c', c.onByte b = .ok c' ↔ b = LF ∧ c' = c.endLine 0 c.chunkLen := by
    intro b c'
    simp only [onByte, h, readSizeLf, endLine]
    grind
  simp only [step]
  grind

theorem scan_extension {c : Chunked} (h : c.state = .extension) (bound : c.extensionsCnt < CHUNKED_EXTENSIONS_LIMIT)
    {bytes : Bytes} {out : Bytes × Chunked × Bytes} :
    c.scan bytes = some out ↔ ∃ ext rest, bytes = ext ++ crlf ++ rest ∧ (∀ b ∈ ext, b ≠ CR ∧ b ≠ LF) ∧
      c.extensionsCnt + ext.length < CHUNKED_EXTENSIONS_LIMIT ∧
      (c.endLine ext.length c.chunkLen).scan rest = some out := by
  induction bytes generalizing c with
  | nil =>
    rw [scan_nil (by simp [h])]
    simp [crlf]
  | cons b bytes ih =>
    rw [scan_eq_some (by simp [h]) (by simp [h])]
    have step : ∀ c', c.onByte b = .ok c' ↔ (b = CR ∧ c' = { c with state := .sizeLf }) ∨
        (b ≠ CR ∧ b ≠ LF ∧ c.extensionsCnt + 1 < CHUNKED_EXTENSIONS_LIMIT ∧
          c' = { c with state := .extension, extensionsCnt := c.extensionsCnt + 1 }) := by
      intro c'
      simp only [onByte, h, readExtension]
      grind
    constructor
    · rintro ⟨_, _, c', ⟨rfl, rfl⟩, hb, hs⟩
      rcases (step c').mp hb with ⟨rfl, rfl⟩ | ⟨hcr, hlf, hlim, rfl⟩
      · obtain ⟨rest, rfl, after⟩ := (scan_sizeLf rfl).mp hs
        exact ⟨[], rest, rfl, by simp, by simpa using bound, after⟩
      · obtain ⟨ext, rest, rfl, hext, hlen, after⟩ := (ih rfl hlim).mp hs
        refine ⟨b :: ext, rest, rfl, ?_, ?_, ?_⟩
        · simpa [hcr, hlf] using hext
        · simp only [List.length_cons] at hlen ⊢; omega
        · simpa [endLine, Nat.add_assoc, Nat.add_comm 1] using after
    · rintro ⟨ext, rest, heq, hext, hlen, hs⟩
      cases ext with
      | nil =>
        obtain ⟨rfl, rfl⟩ := List.cons.inj heq
        exact ⟨_, _, _, rfl, (step _).mpr (.inl ⟨rfl, rfl⟩), (scan_sizeLf rfl).mpr ⟨rest, rfl, hs⟩⟩
      | cons b' ext =>
        obtain ⟨rfl, rfl⟩ := List.cons.inj heq
        obtain ⟨⟨hcr, hlf⟩, hext⟩ := List.forall_mem_cons.mp hext
        simp only [List.length_cons] at hlen
        refine ⟨_, _, _, rfl, (step _).mpr (.inr ⟨hcr, hlf, by omega, rfl⟩), ?_⟩
        refine (ih rfl (by dsimp only; omega)).mpr ⟨ext, rest, rfl, hext, by dsimp only; omega, ?_⟩
        simpa [endLine, Nat.add_assoc, Nat.add_comm 1] using hs

theorem readSizeLws_eq_ok {c : Chunked} {b : UInt8} {c' : Chunked} :
    c.readSizeLws b = .ok c' ↔ ((b = HTAB ∨ b = SP) ∧ c' = { c with state := .sizeLws }) ∨
      (b = 59 ∧ c' = { c with state := .extension }) ∨ (b = CR ∧ c' = { c with state := .sizeLf }) := by
  unfold readSizeLws
  have : (59 : UInt8) ≠ HTAB ∧ (59 : UInt8) ≠ SP ∧ CR ≠ HTAB ∧ CR ≠ SP ∧ CR ≠ 59 := by decide
  grind

theorem scan_tail_rest {c : Chunked} (bound : c.extensionsCnt < CHUNKED_EXTENSIONS_LIMIT) {b : UInt8} {bytes : Bytes}
    {out : Bytes × Chunked × Bytes} {c' : Chunked}
    (hb : (b = 59 ∧ c' = { c with state := .extension }) ∨ (b = CR ∧ c' = { c with state := .sizeLf })) :
    c'.scan bytes = some out ↔ ∃ (t : LineTail) (rest : Bytes), t.lws = [] ∧ b :: bytes = t.render ++ rest ∧
      c.extensionsCnt + t.extBytes.length < CHUNKED_EXTENSIONS_LIMIT ∧
      (c.endLine t.extBytes.length c.chunkLen).scan rest = some out := by
  rcases hb with ⟨rfl, rfl⟩ | ⟨rfl, rfl⟩
  · rw [scan_extension (c := { c with state := .extension }) rfl bound]
    constructor
    · rintro ⟨ext, rest, rfl, hext, hlen, hs⟩
      exact ⟨⟨[], some ext, by simp, by simpa using hext⟩, rest, rfl, by simp [LineTail.render], hlen, hs⟩
    · rintro ⟨⟨lws, ext, _, hext⟩, rest, rfl, heq, hlen, hs⟩
      cases ext with
      | none => exact absurd (List.cons.inj heq).1 (by decide)
      | some ext =>
        obtain ⟨-, rfl⟩ := List.cons.inj heq
        exact ⟨ext, rest, rfl, by simpa using hext, hlen, hs⟩
  · rw [scan_sizeLf (c := { c with state := .sizeLf }) rfl]
    constructor
    · rintro ⟨rest, rfl, hs⟩
      exact ⟨⟨[], none, by simp, by simp⟩, rest, rfl, rfl, by simpa [LineTail.extBytes] using bound, hs⟩
    · rintro ⟨⟨lws, ext, _, hext⟩, rest, rfl, heq, hlen, hs⟩
      cases ext with
      | none =>
        obtain ⟨-, rfl⟩ := List.cons.inj heq
        exact ⟨rest, rfl, hs⟩
      | some ext => exact absurd (List.cons.inj heq).1 (by decide)

theorem scan_sizeLws {c : Chunked} (h : c.state = .sizeLws) (bound : c.extensionsCnt < CHUNKED_EXTENSIONS_LIMIT)
    {bytes : Bytes} {out : Bytes × Chunked × Bytes} :
    c.scan bytes = some out ↔ ∃ (t : LineTail) (rest : Bytes), bytes = t.render ++ rest ∧
      c.extensionsCnt + t.extBytes.length < CHUNKED_EXTENSIONS_LIMIT ∧
      (c.endLine t.extBytes.length c.chunkLen).scan rest = some out := by
  induction bytes generalizing c with
  | nil =>
    rw [scan_nil (by simp [h])]
    simp [LineTail.render, crlf]
  | cons b bytes ih =>
    have reads : ∀ b, c.onByte b = c.readSizeLws b := fun b => by simp only [onByte, h]
    rw [scan_eq_some (by simp [h]) (by simp [h])]
    simp only [reads]
    constructor
    · rintro ⟨_, _, c', ⟨rfl, rfl⟩, hb, hs⟩
      rcases readSizeLws_eq_ok.mp hb with ⟨ws, rfl⟩ | other
      · obtain ⟨t, rest, rfl, hlen, after⟩ := (ih (c := { c with state := .sizeLws }) rfl bound).mp hs
        exact ⟨t.consLws b ws, rest, rfl, hlen, after⟩
      · obtain ⟨t, rest, -, heq, hlen, after⟩ := (scan_tail_rest bound other).mp hs
        exact ⟨t, rest, heq, hlen, after⟩
    · rintro ⟨⟨lws, ext, lws_ok, ext_ok⟩, rest, heq, hlen, hs⟩
      cases lws with
      | cons b' lws =>
        obtain ⟨rfl, rfl⟩ := List.cons.inj heq
        obtain ⟨ws, lws_ok⟩ := List.forall_mem_cons.mp lws_ok
        exact ⟨_, _, _, rfl, readSizeLws_eq_ok.mpr (.inl ⟨ws, rfl⟩),
          (ih (c := { c with state := .sizeLws }) rfl bound).mpr ⟨⟨lws, ext, lws_ok, ext_ok⟩, rest, rfl, hlen, hs⟩⟩
      | nil =>
        have start : b = 59 ∨ b = CR := by
          cases ext with
          | none => exact .inr (List.cons.inj heq).1
          | some ext => exact .inl (List.cons.inj heq).1
        obtain ⟨c', other⟩ : ∃ c', (b = 59 ∧ c' = { c with state := .extension }) ∨
            (b = CR ∧ c' = { c with state := .sizeLf }) := by
          rcases start with e | e
          · exact ⟨_, .inl ⟨e, rfl⟩⟩
          · exact ⟨_, .inr ⟨e, rfl⟩⟩
        exact ⟨_, _, _, rfl, readSizeLws_eq_ok.mpr (.inr other),
          (scan_tail_rest bound other).mpr ⟨_, rest, rfl, heq, hlen, hs⟩⟩

theorem hexValue_of_lws {b : UInt8} (h : (b = HTAB ∨ b = SP) ∨ b = 59 ∨ b = CR) : hexValue b = none := by
  rcases h with (rfl | rfl) | rfl | rfl <;> decide

theorem pushSize_eq_ok {c c' : Chunked} {d : Nat} :
    c.pushSize d = .ok c' ↔ c.chunkLen * 16 + d < 2 ^ 64 ∧ c' = { c with state := .size, chunkLen := c.chunkLen * 16 + d } := by
  unfold pushSize
  cases hp : pushDigit 16 (2 ^ 64) c.chunkLen d with
  | none =>
    have tooBig : ¬ c.chunkLen * 16 + d < 2 ^ 64 := fun lt => by
      rw [pushDigit_eq_some.mpr ⟨rfl, lt⟩] at hp
      cases hp
    simp only [reduceCtorEq, tooBig, false_and]
  | some v =>
    obtain ⟨rfl, lt⟩ := pushDigit_eq_some.mp hp
    simp only [Except.ok.injEq, lt, true_and, eq_comm]

theorem readSize_eq_ok {c : Chunked} {b : UInt8} {c' : Chunked} :
    c.readSize b = .ok c' ↔
      (∃ d, hexValue b = some d ∧ c.chunkLen * 16 + d < 2 ^ 64 ∧
        c' = { c with state := .size, chunkLen := c.chunkLen * 16 + d }) ∨ c.readSizeLws b = .ok c' := by
  unfold readSize
  cases hv : hexValue b with
  | some d =>
    have notLws : ¬ c.readSizeLws b = .ok c' := fun h => by
      have : hexValue b = none := hexValue_of_lws (by have := readSizeLws_eq_ok.mp h; grind)
      simp [this] at hv
    simp only [pushSize_eq_ok, notLws, or_false, Option.some.injEq, exists_eq_left']
  | none =>
    simp only [readSizeLws]
    grind

theorem scan_size {c : Chunked} (h : c.state = .size) (bound : c.extensionsCnt < CHUNKED_EXTENSIONS_LIMIT)
    (fits : c.chunkLen < 2 ^ 64) {bytes : Bytes} {out : Bytes × Chunked × Bytes} :
    c.scan bytes = some out ↔ ∃ (digits : Bytes) (t : LineTail) (rest : Bytes), bytes = digits ++ t.render ++ rest ∧
      (∀ b ∈ digits, isHex b = true) ∧ hexRead c.chunkLen digits < 2 ^ 64 ∧
      c.extensionsCnt + t.extBytes.length < CHUNKED_EXTENSIONS_LIMIT ∧
      (c.endLine t.extBytes.length (hexRead c.chunkLen digits)).scan rest = some out := by
  induction bytes generalizing c with
  | nil =>
    rw [scan_nil (by simp [h])]
    simp [LineTail.render, crlf]
  | cons b bytes ih =>
    have reads : ∀ b, c.onByte b = c.readSize b := fun b => by simp only [onByte, h]
    -- Where the digits stop, the machine goes on as it does after white space.
    have tail : (∃ c', c.readSizeLws b = .ok c' ∧ c'.scan bytes = some out) ↔
        ({ c with state := .sizeLws } : Chunked).scan (b :: bytes) = some out := by
      rw [scan_eq_some (by simp) (by simp)]
      simp [onByte, readSizeLws]
    rw [scan_eq_some (by simp [h]) (by simp [h])]
    simp only [reads, readSize_eq_ok]
    constructor
    · rintro ⟨_, _, c', ⟨rfl, rfl⟩, ⟨d, hd, lt, rfl⟩ | hb, hs⟩
      · obtain ⟨digits, t, rest, rfl, hhex, hval, hlen, after⟩ := (ih (c := { c with state := .size, chunkLen := c.chunkLen * 16 + d }) rfl bound lt).mp hs
        have value : hexRead c.chunkLen (b :: digits) = hexRead (c.chunkLen * 16 + d) digits := by
          simp [hexRead, hd]
        refine ⟨b :: digits, t, rest, rfl, ?_, by rw [value]; exact hval, hlen, by rw [value]; exact after⟩
        simpa [isHex, hd] using hhex
      · obtain ⟨t, rest, heq, hlen, after⟩ :=
          (scan_sizeLws (c := { c with state := .sizeLws }) rfl bound).mp (tail.mp ⟨c', hb, hs⟩)
        exact ⟨[], t, rest, heq, by simp, fits, hlen, after⟩
    · rintro ⟨digits, t, rest, heq, hhex, hval, hlen, after⟩
      cases digits with
      | nil =>
        obtain ⟨c', hb, hs⟩ := tail.mpr
          ((scan_sizeLws (c := { c with state := .sizeLws }) rfl bound).mpr ⟨t, rest, heq, hlen, after⟩)
        exact ⟨_, _, c', rfl, .inr hb, hs⟩
      | cons b' digits =>
        obtain ⟨rfl, rfl⟩ := List.cons.inj heq
        obtain ⟨hd, hhex⟩ := List.forall_mem_cons.mp hhex
        obtain ⟨d, hd⟩ := Option.isSome_iff_exists.mp hd
        have value : hexRead c.chunkLen (b :: digits) = hexRead (c.chunkLen * 16 + d) digits := by
          simp [hexRead, hd]
        rw [value] at hval after
        have lt : c.chunkLen * 16 + d < 2 ^ 64 := (le_readDigits (by decide) _ _).trans_lt hval
        refine ⟨_, _, _, rfl, .inl ⟨d, hd, lt, rfl⟩, ?_⟩
        exact (ih (c := { c with state := .size, chunkLen := c.chunkLen * 16 + d }) rfl bound lt).mpr
          ⟨digits, t, rest, rfl, hhex, hval, hlen, after⟩

theorem scan_line {c : Chunked} (h : c.state = .start) (zero : c.chunkLen = 0)
    (bound : c.extensionsCnt < CHUNKED_EXTENSIONS_LIMIT) {bytes : Bytes} {out : Bytes × Chunked × Bytes} :
    c.scan bytes = some out ↔ ∃ (l : SizeLine) (rest : Bytes), bytes = l.render ++ rest ∧ l.value < 2 ^ 64 ∧
      c.extensionsCnt + l.extBytes.length < CHUNKED_EXTENSIONS_LIMIT ∧
      (c.endLine l.extBytes.length l.value).scan rest = some out := by
  have reads : ∀ b c', c.onByte b = .ok c' ↔ ∃ d, hexValue b = some d ∧ d < 2 ^ 64 ∧
      c' = { c with state := .size, chunkLen := d } := by
    intro b c'
    simp only [onByte, h, readStart]
    cases hexValue b with
    | none => simp
    | some d => simp only [pushSize_eq_ok, zero, Nat.zero_mul, Nat.zero_add, Option.some.injEq, exists_eq_left']
  rw [scan_eq_some (by simp [h]) (by simp [h])]
  simp only [reads]
  constructor
  · rintro ⟨b, _, c', rfl, ⟨d, hd, lt, rfl⟩, hs⟩
    obtain ⟨digits, t, rest, rfl, hhex, hval, hlen, after⟩ :=
      (scan_size (c := { c with state := .size, chunkLen := d }) rfl bound lt).mp hs
    have value : hexRead 0 (b :: digits) = hexRead d digits := by simp [hexRead, hd]
    refine ⟨⟨b :: digits, t, by simp, by simpa [isHex, hd] using hhex⟩, rest, ?_, ?_, hlen, ?_⟩
    · simp [SizeLine.render]
    · rw [SizeLine.value, value]; exact hval
    · rw [SizeLine.value, value]; exact after
  · rintro ⟨⟨digits, t, digits_ne, digits_hex⟩, rest, rfl, hval, hlen, after⟩
    cases digits with
    | nil => exact absurd rfl digits_ne
    | cons b digits =>
      obtain ⟨hd, hhex⟩ := List.forall_mem_cons.mp digits_hex
      obtain ⟨d, hd⟩ := Option.isSome_iff_exists.mp hd
      have value : hexRead 0 (b :: digits) = hexRead d digits := by simp [hexRead, hd]
      rw [SizeLine.value, value] at hval after
      have lt : d < 2 ^ 64 := (le_readDigits (by decide) _ _).trans_lt hval
      refine ⟨b, digits ++ t.render ++ rest, _, by simp [SizeLine.render], ⟨d, hd, lt, rfl⟩, ?_⟩
      exact (scan_size (c := { c with state := .size, chunkLen := d }) rfl bound lt).mpr ⟨digits, t, rest, rfl, hhex, hval, hlen, after⟩

/-! ### Chunk data -/

theorem scan_bodyCr {c : Chunked} (h : c.state = .bodyCr) {bytes : Bytes} {out : Bytes × Chunked × Bytes} :
    c.scan bytes = some out ↔ ∃ rest, bytes = crlf ++ rest ∧ ({ c with state := .start } : Chunked).scan rest = some out := by
  have cr : ∀ b c', c.onByte b = .ok c' ↔ b = CR ∧ c' = { c with state := .bodyLf } := by
    intro b c'
    simp only [onByte, h, readBodyCr]
    grind
  have lf : ∀ b c', ({ c with state := .bodyLf } : Chunked).onByte b = .ok c' ↔ b = LF ∧ c' = { c with state := .start } := by
    intro b c'
    simp only [onByte, readBodyLf]
    grind
  rw [scan_eq_some (by simp [h]) (by simp [h])]
  simp only [cr]
  constructor
  · rintro ⟨_, rest, _, rfl, ⟨rfl, rfl⟩, hs⟩
    obtain ⟨_, rest, _, rfl, hb, hs⟩ := (scan_eq_some (by simp) (by simp)).mp hs
    obtain ⟨rfl, rfl⟩ := (lf _ _).mp hb
    exact ⟨rest, rfl, hs⟩
  · rintro ⟨rest, rfl, hs⟩
    exact ⟨CR, LF :: rest, _, rfl, ⟨rfl, rfl⟩, (scan_eq_some (by simp) (by simp)).mpr
      ⟨LF, rest, _, rfl, (lf _ _).mpr ⟨rfl, rfl⟩, hs⟩⟩

theorem scan_body {c : Chunked} (h : c.state = .body) (pos : 0 < c.chunkLen) {bytes data : Bytes}
    {out : Chunked × Bytes} :
    c.scan bytes = some (data, out) ↔ ∃ chunk rest later, bytes = chunk ++ crlf ++ rest ∧ chunk.length = c.chunkLen ∧
      data = chunk ++ later ∧ ({ c with state := .start, chunkLen := 0 } : Chunked).scan rest = some (later, out) := by
  have whole : ∀ chunk rest, chunk.length = c.chunkLen → c.scan (chunk ++ rest) =
      (({ c with state := .bodyCr, chunkLen := 0 } : Chunked).scan rest).map fun res => (chunk ++ res.1, res.2) := by
    intro chunk rest hl
    have after : c.afterData chunk.length = { c with state := .bodyCr, chunkLen := 0 } := by simp [afterData, hl]
    rw [scan_data h (List.ne_nil_of_length_pos (by omega)) (by omega), after]
  constructor
  · intro hs
    -- A stream that ends inside of the chunk fails.
    have enough : c.chunkLen ≤ bytes.length := by
      by_contra lt
      by_cases empty : bytes = []
      · rw [empty, scan_nil (by simp [h])] at hs
        cases hs
      · have cut := scan_data h empty (by omega) []
        have inBody : (c.afterData bytes.length).state ≠ .end := by
          unfold afterData
          dsimp only
          split <;> simp
        rw [List.append_nil, scan_nil inBody] at cut
        rw [cut] at hs
        cases hs
    obtain ⟨chunk, rest, rfl, hl⟩ : ∃ chunk rest, bytes = chunk ++ rest ∧ chunk.length = c.chunkLen :=
      ⟨bytes.take c.chunkLen, bytes.drop c.chunkLen, (List.take_append_drop _ _).symm, by simp; omega⟩
    rw [whole chunk rest hl] at hs
    obtain ⟨⟨later, out'⟩, behind, heq⟩ := Option.map_eq_some_iff.mp hs
    obtain ⟨rfl, rfl⟩ := Prod.mk.inj heq
    obtain ⟨rest, rfl, after⟩ := (scan_bodyCr (c := { c with state := .bodyCr, chunkLen := 0 }) rfl).mp behind
    exact ⟨chunk, rest, later, by simp, hl, rfl, after⟩
  · rintro ⟨chunk, rest, later, rfl, hl, rfl, hs⟩
    rw [List.append_assoc, whole chunk _ hl,
      (scan_bodyCr (c := { c with state := .bodyCr, chunkLen := 0 }) rfl).mpr ⟨rest, rfl, hs⟩]
    rfl

/-! ### Trailers -/

/-- The machine behind a trailer line, with everything of the section so far. -/
def endTrailer (c : Chunked) (buf : Bytes) (lines : Nat) : Chunked :=
  { c with state := .endCr, trailersBuf := some buf, trailersCnt := c.trailersCnt + lines }

theorem scan_trailer {c : Chunked} {buf : Bytes} (h : c.state = .trailer) (hbuf : c.trailersBuf = some buf) {bytes : Bytes}
    {out : Bytes × Chunked × Bytes} :
    c.scan bytes = some out ↔ ∃ line rest, bytes = line ++ crlf ++ rest ∧ CR ∉ line ∧ c.trailersCnt < c.maxHeaders ∧
      (buf ++ line ++ crlf).length < c.maxHeaderSize ∧ (c.endTrailer (buf ++ line ++ crlf) 1).scan rest = some out := by
  induction bytes generalizing c buf with
  | nil =>
    rw [scan_nil (by simp [h])]
    simp [crlf]
  | cons b bytes ih =>
    have step : ∀ b c', c.onByte b = .ok c' ↔ (buf ++ [b]).length < c.maxHeaderSize ∧
        c' = { c with trailersBuf := some (buf ++ [b]), state := if b = CR then .trailerLf else .trailer } := by
      intro b c'
      simp only [onByte, h, readTrailer, expectTrailers, hbuf, Option.getD_some, putU8_map_eq_ok]
    have lf : ∀ b c', ({ c with trailersBuf := some (buf ++ [CR]), state := .trailerLf } : Chunked).onByte b = .ok c' ↔
        b = LF ∧ c.trailersCnt < c.maxHeaders ∧ (buf ++ crlf).length < c.maxHeaderSize ∧
          c' = c.endTrailer (buf ++ crlf) 1 := by
      intro b c'
      simp only [onByte, readTrailerLf, expectTrailers, Option.getD_some]
      by_cases hb : b = LF
      · subst hb
        by_cases hc : c.trailersCnt < c.maxHeaders
        · have : ¬ c.trailersCnt ≥ c.maxHeaders := by omega
          simp only [if_true, true_and, hc]
          rw [if_neg (by exact this)]
          simp [putU8_map_eq_ok, endTrailer, crlf, maxHeaderSize]
        · rw [if_pos rfl, if_pos (by show c.trailersCnt ≥ c.maxHeaders; omega)]
          simp [hc]
      · simp [hb]
    rw [scan_eq_some (by simp [h]) (by simp [h])]
    simp only [step]
    constructor
    · rintro ⟨_, _, c', ⟨rfl, rfl⟩, ⟨hlen, rfl⟩, hs⟩
      by_cases hb : b = CR
      · subst hb
        simp only [if_true] at hs
        obtain ⟨_, rest, _, rfl, hb, hs⟩ := (scan_eq_some (by simp) (by simp)).mp hs
        obtain ⟨rfl, cnt, len, rfl⟩ := (lf _ _).mp hb
        exact ⟨[], rest, rfl, by simp, cnt, by simpa using len, by simpa using hs⟩
      · simp only [hb, if_false] at hs
        obtain ⟨line, rest, rfl, noCr, cnt, len, after⟩ := (ih rfl rfl).mp hs
        refine ⟨b :: line, rest, rfl, ?_, cnt, ?_, ?_⟩
        · simpa [Ne.symm hb] using noCr
        · simpa [maxHeaderSize] using len
        · simpa [endTrailer] using after
    · rintro ⟨line, rest, heq, noCr, cnt, len, hs⟩
      cases line with
      | nil =>
        obtain ⟨rfl, rfl⟩ := List.cons.inj heq
        refine ⟨_, _, _, rfl, ⟨?_, rfl⟩, ?_⟩
        · simp [crlf] at len ⊢; omega
        · simp only [if_true]
          refine (scan_eq_some (by simp) (by simp)).mpr ⟨LF, rest, _, rfl, (lf _ _).mpr ⟨rfl, cnt, ?_, rfl⟩, ?_⟩
          · simpa using len
          · simpa using hs
      | cons b' line =>
        obtain ⟨rfl, rfl⟩ := List.cons.inj heq
        obtain ⟨hb, noCr⟩ := not_or.mp (fun e => noCr (List.mem_cons.mpr e))
        refine ⟨_, _, _, rfl, ⟨?_, rfl⟩, ?_⟩
        · simp [crlf] at len ⊢; omega
        · rw [if_neg (Ne.symm hb)]
          refine (ih rfl rfl).mpr ⟨line, rest, rfl, noCr, cnt, ?_, ?_⟩
          · simpa [maxHeaderSize] using len
          · simpa [endTrailer] using hs

theorem scan_endLf {c : Chunked} (h : c.state = .endLf) {bytes : Bytes} {out : Bytes × Chunked × Bytes} :
    c.scan bytes = some out ↔ ∃ rest, bytes = LF :: rest ∧
      (∀ buf, c.trailersBuf = some buf → (buf ++ [LF]).length < c.maxHeaderSize) ∧
      out = ([], { c with state := .end, trailersBuf := c.trailersBuf.map (· ++ [LF]) }, rest) := by
  rw [scan_eq_some (by simp [h]) (by simp [h])]
  have step : ∀ b c', c.onByte b = .ok c' ↔ b = LF ∧
      (∀ buf, c.trailersBuf = some buf → (buf ++ [LF]).length < c.maxHeaderSize) ∧
      c' = { c with state := .end, trailersBuf := c.trailersBuf.map (· ++ [LF]) } := by
    intro b c'
    simp only [onByte, h, readEndLf]
    cases hbuf : c.trailersBuf with
    | none =>
      by_cases hb : b = LF
      · simp [hb, eq_comm]
      · simp [hb]
    | some buf =>
      by_cases hb : b = LF
      · simp [hb, putU8_map_eq_ok]
      · simp [hb]
  simp only [step]
  constructor
  · rintro ⟨_, rest, _, rfl, ⟨rfl, len, rfl⟩, hs⟩
    rw [scan_end rfl] at hs
    exact ⟨rest, rfl, len, (Option.some.inj hs).symm⟩
  · rintro ⟨rest, rfl, len, rfl⟩
    exact ⟨LF, rest, _, rfl, ⟨rfl, len, rfl⟩, scan_end rfl rest⟩

theorem scan_endCr_some {c : Chunked} {buf : Bytes} (h : c.state = .endCr) (hbuf : c.trailersBuf = some buf)
    (le : c.trailersCnt ≤ c.maxHeaders) {bytes : Bytes} {out : Bytes × Chunked × Bytes} :
    c.scan bytes = some out ↔ ∃ (lines : List TrailerLine) (rest : Bytes),
      bytes = lines.flatMap TrailerLine.render ++ crlf ++ rest ∧ c.trailersCnt + lines.length ≤ c.maxHeaders ∧
      (buf ++ lines.flatMap TrailerLine.render ++ crlf).length < c.maxHeaderSize ∧
      out = ([], { c with
        state := .end, trailersBuf := some (buf ++ lines.flatMap TrailerLine.render ++ crlf)
        trailersCnt := c.trailersCnt + lines.length }, rest) := by
  -- The section is read a line at a time, so the induction is on the length of the stream.
  induction hn : bytes.length using Nat.strong_induction_on generalizing c buf bytes with
  | _ n ih =>
  subst hn
  have step : ∀ b c', c.onByte b = .ok c' ↔ (buf ++ [b]).length < c.maxHeaderSize ∧
      c' = { c with trailersBuf := some (buf ++ [b]), state := if b = CR then .endLf else .trailer } := by
    intro b c'
    simp only [onByte, h, readEndCr, hbuf]
    by_cases hb : b = CR
    · simp [hb, putU8_map_eq_ok]
    · simp [hb, putU8_map_eq_ok]
  rw [scan_eq_some (by simp [h]) (by simp [h])]
  simp only [step]
  constructor
  · rintro ⟨b, bytes, c', rfl, ⟨hlen, rfl⟩, hs⟩
    by_cases hb : b = CR
    · subst hb
      simp only [if_true] at hs
      obtain ⟨rest, rfl, len, rfl⟩ := (scan_endLf rfl).mp hs
      exact ⟨[], rest, rfl, le, by simpa [crlf, maxHeaderSize] using len _ rfl, by simp [crlf]⟩
    · simp only [hb, if_false] at hs
      obtain ⟨line, rest, rfl, noCr, cnt, len, after⟩ := (scan_trailer rfl rfl).mp hs
      obtain ⟨lines, rest, rfl, total, size, rfl⟩ := (ih rest.length (by simp; omega) (by rfl) (by rfl) (by exact cnt) rfl).mp after
      refine ⟨⟨b :: line, by simp, by simpa [Ne.symm hb] using noCr⟩ :: lines, rest, ?_, ?_, ?_, ?_⟩
      · simp [TrailerLine.render]
      · simp only [endTrailer, maxHeaders, List.length_cons] at total ⊢; omega
      · simpa [TrailerLine.render, endTrailer, maxHeaderSize] using size
      · simp [TrailerLine.render, endTrailer]; omega
  · rintro ⟨lines, rest, rfl, total, size, rfl⟩
    cases lines with
    | nil =>
      refine ⟨CR, LF :: rest, _, rfl, ⟨?_, rfl⟩, ?_⟩
      · simp [crlf] at size ⊢; omega
      · refine (scan_endLf (by simp)).mpr ⟨rest, rfl, ?_, by simp [crlf]⟩
        intro buf' e
        obtain rfl := Option.some.inj e
        simpa [crlf, maxHeaderSize] using size
    | cons line lines =>
      obtain ⟨line, nonempty, noCr⟩ := line
      cases line with
      | nil => exact absurd rfl nonempty
      | cons b line =>
        obtain ⟨hb, noCr⟩ := not_or.mp (fun e => noCr (List.mem_cons.mpr e))
        refine ⟨b, line ++ crlf ++ (lines.flatMap TrailerLine.render ++ crlf ++ rest), _, by simp [TrailerLine.render],
          ⟨?_, rfl⟩, ?_⟩
        · simp [TrailerLine.render] at size ⊢; omega
        · rw [if_neg (Ne.symm hb)]
          refine (scan_trailer rfl rfl).mpr ⟨line, _, rfl, noCr, ?_, ?_, ?_⟩
          · simp only [maxHeaders, List.length_cons] at total ⊢; omega
          · simp [TrailerLine.render, maxHeaderSize] at size ⊢; omega
          · refine (ih _ (by simp [TrailerLine.render]; omega) rfl rfl ?_ rfl).mpr ⟨lines, rest, rfl, ?_, ?_, ?_⟩
            · simp only [endTrailer, maxHeaders, List.length_cons] at total ⊢; omega
            · simp only [endTrailer, maxHeaders, List.length_cons] at total ⊢; omega
            · simpa [TrailerLine.render, endTrailer, maxHeaderSize] using size
            · simp [TrailerLine.render, endTrailer]; omega

/-- The machine behind a trailer section of these lines. -/
def endBody (c : Chunked) (lines : List TrailerLine) : Chunked :=
  { c with
    state := .end, trailersCnt := lines.length
    trailersBuf := if lines = [] then none else some (lines.flatMap TrailerLine.render ++ crlf) }

theorem scan_endCr {c : Chunked} (h : c.state = .endCr) (hbuf : c.trailersBuf = none) (zero : c.trailersCnt = 0)
    {bytes : Bytes} {out : Bytes × Chunked × Bytes} :
    c.scan bytes = some out ↔ ∃ (lines : List TrailerLine) (rest : Bytes),
      bytes = lines.flatMap TrailerLine.render ++ crlf ++ rest ∧
      (lines ≠ [] → lines.length ≤ c.maxHeaders ∧
        (lines.flatMap TrailerLine.render ++ crlf).length < c.maxHeaderSize) ∧
      out = ([], c.endBody lines, rest) := by
  have step : ∀ b c', c.onByte b = .ok c' ↔ (b = CR ∧ c' = { c with state := .endLf }) ∨
      (b ≠ CR ∧ c' = { c with trailersBuf := some [b], state := .trailer }) := by
    intro b c'
    simp only [onByte, h, readEndCr, hbuf]
    grind
  have empty : c.endBody [] = { c with state := .end, trailersBuf := c.trailersBuf.map (· ++ [LF]) } := by
    simp [endBody, hbuf, zero]
  rw [scan_eq_some (by simp [h]) (by simp [h])]
  simp only [step]
  constructor
  · rintro ⟨b, bytes, c', rfl, ⟨rfl, rfl⟩ | ⟨hb, rfl⟩, hs⟩
    · obtain ⟨rest, rfl, -, rfl⟩ := (scan_endLf rfl).mp hs
      exact ⟨[], rest, rfl, by simp, by rw [empty]⟩
    · obtain ⟨line, rest, rfl, noCr, cnt, len, after⟩ := (scan_trailer rfl rfl).mp hs
      obtain ⟨lines, rest, rfl, total, size, rfl⟩ := (scan_endCr_some (by rfl) (by rfl) (by exact cnt)).mp after
      refine ⟨⟨b :: line, by simp, by simpa [Ne.symm hb] using noCr⟩ :: lines, rest, ?_, fun _ => ⟨?_, ?_⟩, ?_⟩
      · simp [TrailerLine.render]
      · simp only [endTrailer, maxHeaders, zero, List.length_cons] at total ⊢; omega
      · simpa [TrailerLine.render, endTrailer, maxHeaderSize] using size
      · simp [TrailerLine.render, endTrailer, endBody, zero]; omega
  · rintro ⟨lines, rest, rfl, limits, rfl⟩
    cases lines with
    | nil =>
      refine ⟨CR, LF :: rest, _, rfl, .inl ⟨rfl, rfl⟩, (scan_endLf rfl).mpr ⟨rest, rfl, by simp [hbuf], ?_⟩⟩
      rw [empty]
    | cons line lines =>
      obtain ⟨total, size⟩ := limits (by simp)
      obtain ⟨line, nonempty, noCr⟩ := line
      cases line with
      | nil => exact absurd rfl nonempty
      | cons b line =>
        obtain ⟨hb, noCr⟩ := not_or.mp (fun e => noCr (List.mem_cons.mpr e))
        refine ⟨b, line ++ crlf ++ (lines.flatMap TrailerLine.render ++ crlf ++ rest), _, by simp [TrailerLine.render],
          .inr ⟨Ne.symm hb, rfl⟩, ?_⟩
        refine (scan_trailer rfl rfl).mpr ⟨line, _, rfl, noCr, ?_, ?_, ?_⟩
        · simp only [maxHeaders, zero, List.length_cons] at total ⊢; omega
        · simp [TrailerLine.render, maxHeaderSize] at size ⊢; omega
        · refine (scan_endCr_some rfl rfl ?_).mpr ⟨lines, rest, rfl, ?_, ?_, ?_⟩
          · simp only [endTrailer, maxHeaders, zero, List.length_cons] at total ⊢; omega
          · simp only [endTrailer, maxHeaders, zero, List.length_cons] at total ⊢; omega
          · simpa [TrailerLine.render, endTrailer, maxHeaderSize] using size
          · simp [TrailerLine.render, endTrailer, endBody, zero]; omega

/-! ### Whole bodies -/

/-- The limits that the machine itself enforces on a body. -/
def Fits (c : Chunked) (body : ChunkedBody) : Prop :=
  c.extensionsCnt + body.extLen < CHUNKED_EXTENSIONS_LIMIT ∧
  (body.trailers ≠ [] → body.trailers.length ≤ c.maxHeaders ∧ body.trailerSection.length < c.maxHeaderSize)

def behind (c : Chunked) (body : ChunkedBody) : Chunked :=
  ({ c with extensionsCnt := c.extensionsCnt + body.extLen, chunkLen := 0 } : Chunked).endBody body.trailers

theorem behind_consChunk (c : Chunked) (body : ChunkedBody) (chunk : Chunk) :
    c.behind (body.consChunk chunk) =
      ({ c.endLine chunk.line.extBytes.length chunk.line.value with state := .start, chunkLen := 0 } : Chunked).behind
        body := by
  unfold behind
  rw [ChunkedBody.extLen_consChunk, ← Nat.add_assoc]
  rfl

/-- A machine at the start of a chunk, before any trailers. -/
structure AtStart (c : Chunked) : Prop where
  state : c.state = .start
  zero : c.chunkLen = 0
  noTrailers : c.trailersBuf = none
  noLines : c.trailersCnt = 0
  bound : c.extensionsCnt < CHUNKED_EXTENSIONS_LIMIT

/-- The machine accepts exactly the bodies of the grammar that fit, and leaves what follows. -/
theorem scan_start {c : Chunked} (start : c.AtStart) {bytes : Bytes} {out : Bytes × Chunked × Bytes} :
    c.scan bytes = some out ↔ ∃ (body : ChunkedBody) (rest : Bytes), bytes = body.render ++ rest ∧ c.Fits body ∧
      out = (body.data, c.behind body, rest) := by
  induction hn : bytes.length using Nat.strong_induction_on generalizing c bytes out with
  | _ n ih =>
  subst hn
  rw [scan_line start.state start.zero start.bound]
  constructor
  · rintro ⟨line, rest, rfl, fits, ext, hs⟩
    by_cases zero : line.value = 0
    · obtain ⟨lines, rest, rfl, limits, rfl⟩ :=
        (scan_endCr (by simp [endLine, zero]) (by exact start.noTrailers) (by exact start.noLines)).mp hs
      refine ⟨⟨[], line, zero, lines⟩, rest, ?_, ⟨?_, limits⟩, ?_⟩
      · simp [ChunkedBody.render, ChunkedBody.trailerSection]
      · simpa [ChunkedBody.extLen] using ext
      · simp [behind, endBody, endLine, zero, ChunkedBody.data, ChunkedBody.extLen]
    · obtain ⟨data, res⟩ := out
      obtain ⟨chunk, rest, later, rfl, length, rfl, after⟩ :=
        (scan_body (by simp [endLine, zero]) (Nat.pos_of_ne_zero (by exact zero))).mp hs
      obtain ⟨body, rest, rfl, ⟨ext', limits⟩, heq⟩ :=
        (ih rest.length (by simp [crlf]; omega) ⟨by rfl, by rfl, by exact start.noTrailers, by exact start.noLines, by exact ext⟩
          rfl).mp after
      obtain ⟨rfl, rfl⟩ := Prod.mk.inj heq
      refine ⟨body.consChunk ⟨line, chunk, Nat.pos_of_ne_zero zero, fits, length⟩, rest, by simp, ⟨?_, limits⟩, ?_⟩
      · rw [ChunkedBody.extLen_consChunk, ← Nat.add_assoc]; exact ext'
      · rw [behind_consChunk]; rfl
  · rintro ⟨⟨chunks, last, last_zero, trailers⟩, rest, rfl, ⟨ext, limits⟩, rfl⟩
    cases chunks with
    | nil =>
      refine ⟨last, trailers.flatMap TrailerLine.render ++ crlf ++ rest, ?_, by rw [last_zero]; decide, ?_, ?_⟩
      · simp [ChunkedBody.render, ChunkedBody.trailerSection]
      · simpa [ChunkedBody.extLen] using ext
      · refine (scan_endCr (by simp [endLine, last_zero]) (by exact start.noTrailers) (by exact start.noLines)).mpr
          ⟨trailers, rest, rfl, limits, ?_⟩
        simp [behind, endBody, endLine, last_zero, ChunkedBody.data, ChunkedBody.extLen]
    | cons chunk chunks =>
      obtain ⟨body, hbody⟩ : ∃ body : ChunkedBody, body = ⟨chunks, last, last_zero, trailers⟩ := ⟨_, rfl⟩
      have split : (⟨chunk :: chunks, last, last_zero, trailers⟩ : ChunkedBody) = body.consChunk chunk := by rw [hbody]; rfl
      rw [split] at ih ext limits ⊢
      rw [ChunkedBody.extLen_consChunk, ← Nat.add_assoc] at ext
      have positive := chunk.positive
      have ne : chunk.line.value ≠ 0 := by omega
      refine ⟨chunk.line, chunk.data ++ crlf ++ (body.render ++ rest), by simp, chunk.fits, by omega, ?_⟩
      refine (scan_body (by simp [endLine, ne]) (by exact positive)).mpr
        ⟨chunk.data, _, body.data, rfl, chunk.length, rfl, ?_⟩
      refine (ih _ ?_ ⟨by rfl, by rfl, by exact start.noTrailers, by exact start.noLines, ?_⟩ rfl).mpr
        ⟨body, rest, rfl, ⟨ext, limits⟩, ?_⟩
      · simp [crlf]; omega
      · simp only [endLine]; omega
      · rw [behind_consChunk]

def fresh (h1MaxHeaders h1MaxHeaderSize : Option Nat) : Chunked := { h1MaxHeaders, h1MaxHeaderSize }

theorem fresh_start (h1MaxHeaders h1MaxHeaderSize : Option Nat) : (fresh h1MaxHeaders h1MaxHeaderSize).AtStart :=
  ⟨rfl, rfl, rfl, rfl, Nat.zero_lt_succ _⟩

end Chunked

/-! ### Decoding -/

section
variable [Httparse] {B : Type}
open Chunked

/-- A body that the decoder accepts under its settings: the limits on extensions and trailers, and a trailer section
that parses. -/
def ChunkedBody.Accepted (body : ChunkedBody) (h1MaxHeaders h1MaxHeaderSize : Option Nat) : Prop :=
  body.extLen < CHUNKED_EXTENSIONS_LIMIT ∧
  (body.trailers ≠ [] → body.trailerSection.length < h1MaxHeaderSize.getD TRAILER_LIMIT ∧
    body.trailers.length < h1MaxHeaders.getD DEFAULT_MAX_HEADERS ∧
    ∃ trailers, decodeTrailers body.trailerSection body.trailers.length = .ok trailers)

/-- The trailers that a body carries, if it has any. -/
def ChunkedBody.decodedTrailers (body : ChunkedBody) : List HeaderMap :=
  match body.trailers with
  | [] => []
  | _ => (decodeTrailers body.trailerSection body.trailers.length).toOption.toList

theorem finish_behind {c : Chunked} {body : ChunkedBody} (fits : c.Fits body) :
    (∃ frame, (c.behind body).finish.1 = .ok frame ∧ framesData [frame] = [] ∧
      framesTrailers [frame] = body.decodedTrailers ∧ body.Accepted c.h1MaxHeaders c.h1MaxHeaderSize) ∨
    (∃ e, (c.behind body).finish.1 = .error e ∧ ¬ body.Accepted c.h1MaxHeaders c.h1MaxHeaderSize) := by
  obtain ⟨ext, limits⟩ := fits
  have ext' : body.extLen < CHUNKED_EXTENSIONS_LIMIT := by omega
  by_cases none : body.trailers = []
  · refine .inl ⟨.data [], ?_, rfl, ?_, ext', by simp [none]⟩
    · simp [behind, endBody, finish, none]
    · simp [ChunkedBody.decodedTrailers, none, framesTrailers]
  · obtain ⟨-, size⟩ := limits none
    have buf : (c.behind body).trailersBuf = some body.trailerSection := by
      simp [behind, endBody, none, ChunkedBody.trailerSection]
    have finish : (c.behind body).finish.1 =
        if body.trailers.length ≥ c.maxHeaders then .error trailersCountOverflow
        else (decodeTrailers body.trailerSection body.trailers.length).map .trailers := by
      have count : (c.behind body).trailersCnt = body.trailers.length := rfl
      have maximum : (c.behind body).maxHeaders = c.maxHeaders := rfl
      rw [Chunked.finish, buf]
      simp only [count, maximum]
      split
      · rfl
      · rfl
    have decoded : body.decodedTrailers =
        (decodeTrailers body.trailerSection body.trailers.length).toOption.toList := by
      unfold ChunkedBody.decodedTrailers
      split
      · next e => exact absurd e none
      · rfl
    rw [finish, decoded]
    split
    · next tooMany => exact .inr ⟨_, rfl, fun h => absurd (h.2 none).2.1 (Nat.not_lt.mpr tooMany)⟩
    · next under =>
      cases hd : decodeTrailers body.trailerSection body.trailers.length with
      | error e =>
        refine .inr ⟨e, rfl, ?_⟩
        intro h
        obtain ⟨trailers, ok⟩ := (h.2 none).2.2
        simp [hd] at ok
      | ok trailers =>
        exact .inl ⟨.trailers trailers, rfl, rfl, rfl, ext', fun _ => ⟨size, Nat.lt_of_not_le under, trailers, hd⟩⟩

theorem ChunkedBody.Accepted.fits {body : ChunkedBody} {h1MaxHeaders h1MaxHeaderSize : Option Nat}
    (accepted : body.Accepted h1MaxHeaders h1MaxHeaderSize) : (fresh h1MaxHeaders h1MaxHeaderSize).Fits body := by
  obtain ⟨ext, limits⟩ := accepted
  refine ⟨?_, fun h => ⟨Nat.le_of_lt (limits h).2.1, (limits h).1⟩⟩
  show 0 + body.extLen < _
  omega

variable {R : Type} [MemRead R] [LawfulRead R] {r : R} {bytes : Bytes} {stalls fuel : Nat}
  {h1MaxHeaders h1MaxHeaderSize : Option Nat}
open LawfulRead

theorem collect_fresh (fed : Fed r bytes stalls) (enough : bytes.length + stalls < fuel) :
    Decoder.Collected ((fresh h1MaxHeaders h1MaxHeaderSize).scan bytes)
      (Decoder.collect fuel (.new .chunked h1MaxHeaders h1MaxHeaderSize) r) :=
  Decoder.collect_chunked (fun h => by cases h) (by simp [fresh]) fed enough

/-- A body within the limits of the machine is decoded, or its trailers are refused. -/
theorem collect_fits {body : ChunkedBody} {rest : Bytes} (fits : (fresh h1MaxHeaders h1MaxHeaderSize).Fits body)
    (fed : Fed r (body.render ++ rest) stalls) (enough : (body.render ++ rest).length + stalls < fuel) :
    (body.Accepted h1MaxHeaders h1MaxHeaderSize ∧
      ∃ frames decoder r' stalls', Decoder.collect fuel (.new .chunked h1MaxHeaders h1MaxHeaderSize) r =
        some (.ok frames, decoder, r') ∧ framesData frames = body.data ∧ framesTrailers frames = body.decodedTrailers ∧
      decoder.isEof = true ∧ Fed r' rest stalls') ∨
    (¬ body.Accepted h1MaxHeaders h1MaxHeaderSize ∧
      ∃ e decoder r', Decoder.collect fuel (.new .chunked h1MaxHeaders h1MaxHeaderSize) r =
        some (.error e, decoder, r')) := by
  have collected : Decoder.Collected ((fresh h1MaxHeaders h1MaxHeaderSize).scan _)
      (Decoder.collect fuel (.new .chunked h1MaxHeaders h1MaxHeaderSize) r) := collect_fresh fed enough
  rw [(scan_start (fresh_start _ _)).mpr ⟨body, rest, rfl, fits, rfl⟩] at collected
  unfold Decoder.Collected at collected
  dsimp only at collected
  obtain ⟨frame, fin, data, trailers, accepted⟩ | ⟨e, fin, rejected⟩ := finish_behind fits
  · rw [fin] at collected
    obtain ⟨frames, r', stalls', run, hdata, htrailers, fed'⟩ := collected
    refine .inl ⟨accepted, _, _, r', stalls', run, ?_, ?_, ?_, fed'⟩
    · rw [framesData_append, hdata, data, List.append_nil]
    · rw [framesTrailers_append, htrailers, trailers, List.nil_append]
    · have ended : ((fresh h1MaxHeaders h1MaxHeaderSize).behind body).state = .end := rfl
      simp [Decoder.isEof, Decoder.finish_state, ended]
  · rw [fin] at collected
    obtain ⟨decoder, r', run⟩ := collected
    exact .inr ⟨rejected, e, decoder, r', run⟩

theorem collect_accepted {body : ChunkedBody} {rest : Bytes} (accepted : body.Accepted h1MaxHeaders h1MaxHeaderSize)
    (fed : Fed r (body.render ++ rest) stalls) (enough : (body.render ++ rest).length + stalls < fuel) :
    ∃ frames decoder r' stalls', Decoder.collect fuel (.new .chunked h1MaxHeaders h1MaxHeaderSize) r =
        some (.ok frames, decoder, r') ∧ framesData frames = body.data ∧ framesTrailers frames = body.decodedTrailers ∧
      decoder.isEof = true ∧ Fed r' rest stalls' := by
  rcases collect_fits accepted.fits fed enough with ⟨-, decoded⟩ | ⟨rejected, -⟩
  · exact decoded
  · exact absurd accepted rejected

theorem collect_rejected (fed : Fed r bytes stalls) (enough : bytes.length + stalls < fuel)
    (rejected : ∀ (body : ChunkedBody) (rest : Bytes), bytes = body.render ++ rest →
      ¬ body.Accepted h1MaxHeaders h1MaxHeaderSize) :
    ∃ e decoder r', Decoder.collect fuel (.new .chunked h1MaxHeaders h1MaxHeaderSize) r =
      some (.error e, decoder, r') := by
  have collected : Decoder.Collected ((fresh h1MaxHeaders h1MaxHeaderSize).scan _)
      (Decoder.collect fuel (.new .chunked h1MaxHeaders h1MaxHeaderSize) r) := collect_fresh fed enough
  cases scanned : (fresh h1MaxHeaders h1MaxHeaderSize).scan bytes with
  | none =>
    rw [scanned] at collected
    exact collected
  | some res =>
    obtain ⟨body, rest, rfl, fits, rfl⟩ := (scan_start (fresh_start _ _)).mp scanned
    rcases collect_fits fits fed enough with ⟨accepted, -⟩ | ⟨-, refused⟩
    · exact absurd accepted (rejected body rest rfl)
    · exact refused

/-- Running the chunked decoder to completion over any cuts of a stream succeeds exactly when the stream starts with a
body of the grammar within the limits. The data frames are then its data, a trailers frame its trailers, and what
follows the body is left unread. -/
theorem collect_chunked_iff (buffered : Bytes) (cuts : List (Option Bytes)) (h1MaxHeaders h1MaxHeaderSize : Option Nat)
    (nonempty : ∀ piece ∈ cuts, piece ≠ some []) (fuel : Nat)
    (enough : (buffered ++ Buffered.cutBytes cuts).length + cuts.length < fuel) :
    ∃ out decoder reader,
      Decoder.collect fuel (.new .chunked h1MaxHeaders h1MaxHeaderSize) (Buffered.ofCuts buffered cuts : Buffered B) =
        some (out, decoder, reader) ∧
      ((∃ frames, out = .ok frames) ↔ ∃ (body : ChunkedBody) (rest : Bytes),
        buffered ++ Buffered.cutBytes cuts = body.render ++ rest ∧ body.Accepted h1MaxHeaders h1MaxHeaderSize) ∧
      (∀ (body : ChunkedBody) (rest : Bytes), buffered ++ Buffered.cutBytes cuts = body.render ++ rest →
        body.Accepted h1MaxHeaders h1MaxHeaderSize →
        ∃ frames, out = .ok frames ∧ framesData frames = body.data ∧ framesTrailers frames = body.decodedTrailers ∧
          decoder.isEof = true ∧ reader.unread = rest) := by
  have fed : Fed (Buffered.ofCuts buffered cuts : Buffered B) (buffered ++ Buffered.cutBytes cuts) (cuts.count none) :=
    Buffered.ofCuts_fed nonempty
  have stalls : cuts.count none ≤ cuts.length := List.count_le_length
  by_cases some_body : ∃ (body : ChunkedBody) (rest : Bytes),
      buffered ++ Buffered.cutBytes cuts = body.render ++ rest ∧ body.Accepted h1MaxHeaders h1MaxHeaderSize
  · have every : ∀ (body : ChunkedBody) (rest : Bytes), buffered ++ Buffered.cutBytes cuts = body.render ++ rest →
        body.Accepted h1MaxHeaders h1MaxHeaderSize → ∃ frames decoder reader,
          Decoder.collect fuel (.new .chunked h1MaxHeaders h1MaxHeaderSize) (Buffered.ofCuts buffered cuts : Buffered B) =
            some (.ok frames, decoder, reader) ∧ framesData frames = body.data ∧
          framesTrailers frames = body.decodedTrailers ∧ decoder.isEof = true ∧ reader.unread = rest := by
      intro body rest heq accepted
      rw [heq] at fed enough
      have within : (body.render ++ rest).length + cuts.count none < fuel := by omega
      obtain ⟨frames, decoder, reader, _, run, data, trailers, eof, fed'⟩ := collect_accepted accepted fed within
      exact ⟨frames, decoder, reader, run, data, trailers, eof, Buffered.Fed.unread fed'⟩
    obtain ⟨body, rest, heq, accepted⟩ := some_body
    obtain ⟨frames, decoder, reader, run, -⟩ := every body rest heq accepted
    refine ⟨.ok frames, decoder, reader, run, ⟨fun _ => ⟨body, rest, heq, accepted⟩, fun _ => ⟨frames, rfl⟩⟩, ?_⟩
    intro body' rest' heq' accepted'
    obtain ⟨frames', decoder', reader', run', data, trailers, eof, unread⟩ := every body' rest' heq' accepted'
    obtain ⟨rfl, rfl, rfl⟩ : frames = frames' ∧ decoder = decoder' ∧ reader = reader' := by
      simpa [run] using run'
    exact ⟨frames, rfl, data, trailers, eof, unread⟩
  · have rejected : ∀ (body : ChunkedBody) (rest : Bytes), buffered ++ Buffered.cutBytes cuts = body.render ++ rest →
        ¬ body.Accepted h1MaxHeaders h1MaxHeaderSize := fun body rest heq accepted => some_body ⟨body, rest, heq, accepted⟩
    have within : (buffered ++ Buffered.cutBytes cuts).length + cuts.count none < fuel := by omega
    obtain ⟨e, decoder, reader, run⟩ := collect_rejected fed within rejected
    refine ⟨.error e, decoder, reader, run, ⟨by simp, fun h => absurd h some_body⟩, ?_⟩
    intro body rest heq accepted
    exact absurd accepted (rejected body rest heq)

end

/-- The parser on the one trailer section that the body below has. -/
@[reducible] def oneTrailer : Httparse where
  parseResponse _ _ _ := .ok none
  parseHeaders section_ _ :=
    if section_ = ascii "a: b\r\n\r\n" then .ok (some [(ascii "a", ascii "b")]) else .ok none
  canonicalReason _ := none

/-- A chunk with an extension, the last chunk and one trailer. -/
def sampleBody : ChunkedBody where
  chunks := [⟨⟨ascii "3", ⟨[], some (ascii "x"), by decide +kernel, by decide +kernel⟩, by decide +kernel, by decide +kernel⟩,
    ascii "abc", by decide, by decide, by decide⟩]
  last := ⟨ascii "0", ⟨[SP], none, by decide +kernel, by decide +kernel⟩, by decide +kernel, by decide +kernel⟩
  last_zero := by decide
  trailers := [⟨ascii "a: b", by decide, by decide⟩]

theorem sampleBody_accepted : letI := oneTrailer; sampleBody.Accepted none none :=
  letI := oneTrailer
  ⟨by decide, fun _ => ⟨by decide, by decide, _, rfl⟩⟩

theorem collect_chunked_iff_sampleBody : letI := oneTrailer
    ∃ frames decoder reader,
      Decoder.collect 100 (.new .chunked none none)
          (Buffered.ofCuts (ascii "3;") [none, some (ascii "x\r\nabc\r\n0 \r\na: b\r\n\r\nre"), some (ascii "st")] :
            Buffered Bytes) = some (.ok frames, decoder, reader) ∧
      framesData frames = ascii "abc" ∧ decoder.isEof = true ∧ reader.unread = ascii "rest" := by
  let _ := oneTrailer
  obtain ⟨out, decoder, reader, run, -, success⟩ := collect_chunked_iff (B := Bytes) (ascii "3;")
    [none, some (ascii "x\r\nabc\r\n0 \r\na: b\r\n\r\nre"), some (ascii "st")] none none (by decide) 100 (by decide)
  obtain ⟨frames, rfl, data, -, eof, unread⟩ := success sampleBody (ascii "rest") (by decide) sampleBody_accepted
  exact ⟨frames, decoder, reader, run, data, eof, unread⟩

end Hwire.Http1
