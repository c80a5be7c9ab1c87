import Hwire.Http1.Conn

/-!
# The end of a head

After a partial read, `parse_headers` only looks for the end of a head in the new bytes before it parses again. A head
ends at an empty line, and lines end in CR LF or in a bare LF. The scan knows two of the three ways in which that can
look.
-/

namespace Hwire.Http1
open Lib

/-! ### What the scan finds -/

def Occurs (pattern bytes : Bytes) (i : Nat) : Prop := pattern <+: bytes.drop i

/-- A head end whose last byte is not before `from_`: an LF, followed by LF or by CR LF. -/
def HeadEndFrom (from_ : Nat) (bytes : Bytes) : Prop :=
  ∃ i, Occurs [LF, LF] bytes i ∧ from_ ≤ i + 1 ∨ Occurs [LF, CR, LF] bytes i ∧ from_ ≤ i + 2

/-- A line that ends in a bare LF, followed by an empty line that ends in CR LF. -/
def BareEnd (bytes : Bytes) (i : Nat) : Prop :=
  Occurs [LF, CR, LF] bytes i ∧ ∀ j, i = j + 1 → ¬ Occurs [CR, LF, CR, LF] bytes j

/-- Where such an end is new, another end that the scan knows stands near it. -/
def BareEndsShown (prevLen : Nat) (bytes : Bytes) : Prop :=
  ∀ i, BareEnd bytes i → prevLen ≤ i + 2 →
    ∃ j, prevLen - 3 ≤ j ∧ (Occurs [LF, LF] bytes j ∨ Occurs [CR, LF, CR, LF] bytes j)

theorem occurs_drop (pattern bytes : Bytes) (k i : Nat) : Occurs pattern (bytes.drop k) i ↔ Occurs pattern bytes (k + i) := by
  unfold Occurs
  rw [List.drop_drop]

theorem scanComplete_iff (bytes : Bytes) :
    scanComplete bytes = true ↔ ∃ i, Occurs [LF, LF] bytes i ∨ Occurs [CR, LF, CR, LF] bytes i := by
  induction bytes with
  | nil => simp [scanComplete, Occurs]
  | cons b rest ih =>
    have split : (∃ i, Occurs [LF, LF] (b :: rest) i ∨ Occurs [CR, LF, CR, LF] (b :: rest) i) ↔
        ([LF, LF] <+: b :: rest ∨ [CR, LF, CR, LF] <+: b :: rest) ∨ scanComplete rest = true := by
      rw [ih]
      constructor
      · rintro ⟨i, found⟩
        cases i with
        | zero => exact .inl found
        | succ i => exact .inr ⟨i, found⟩
      · rintro (found | ⟨i, found⟩)
        · exact ⟨0, found⟩
        · exact ⟨i + 1, found⟩
    have differ : CR ≠ LF := by decide
    rw [split, scanComplete, List.cons_prefix_cons, List.cons_prefix_cons]
    by_cases cr : b = CR
    · subst cr
      have three : rest.take 3 = [LF, CR, LF] ↔ [LF, CR, LF] <+: rest := by
        rw [List.prefix_iff_eq_take, eq_comm]
        rfl
      simp [differ.symm, three]
    · by_cases lf : b = LF
      · subst lf
        have next : rest.head? = some LF ↔ [LF] <+: rest := by
          cases rest with
          | nil => simp
          | cons c rest => simp [eq_comm]
        simp [cr, differ, next]
      · simp [cr, lf, Ne.symm cr, Ne.symm lf]

theorem isCompleteFast_iff (bytes : Bytes) (prevLen : Nat) :
    isCompleteFast bytes prevLen = true ↔
      ∃ i, prevLen - 3 ≤ i ∧ (Occurs [LF, LF] bytes i ∨ Occurs [CR, LF, CR, LF] bytes i) := by
  unfold isCompleteFast
  rw [scanComplete_iff]
  simp only [occurs_drop]
  constructor
  · rintro ⟨i, found⟩
    exact ⟨prevLen - 3 + i, Nat.le_add_right _ _, found⟩
  · rintro ⟨i, late, found⟩
    refine ⟨i - (prevLen - 3), ?_⟩
    rwa [Nat.add_sub_cancel' late]

/-- The scan starts three bytes early, so it misses no end that it knows. -/
theorem isCompleteFast_shows_iff (bytes : Bytes) (prevLen : Nat) :
    (HeadEndFrom prevLen bytes → isCompleteFast bytes prevLen = true) ↔ BareEndsShown prevLen bytes := by
  rw [isCompleteFast_iff]
  constructor
  · intro shows i bare new
    exact shows ⟨i, .inr ⟨bare.1, new⟩⟩
  · rintro shown ⟨i, ⟨found, new⟩ | ⟨found, new⟩⟩
    · exact ⟨i, by omega, .inl found⟩
    · by_cases bare : BareEnd bytes i
      · exact shown i bare new
      · obtain ⟨j, rfl, whole⟩ : ∃ j, i = j + 1 ∧ Occurs [CR, LF, CR, LF] bytes j := by
          by_contra none
          refine bare ⟨found, fun j same whole => none ⟨j, same, whole⟩⟩
        exact ⟨j, by omega, .inr whole⟩

/-! ### Heads that come in pieces -/

/-- What is assumed of the parser: it reads from left to right, and a head is complete at an empty line. -/
structure EmptyLineEnds [Httparse] : Prop where
  pos : ∀ {cfg : ParserConfig} {bytes : Bytes} {n : Nat} {raw : RawResponse},
    Httparse.parseResponse cfg bytes n = .ok (some raw) → 0 < raw.len
  found : ∀ {cfg : ParserConfig} {bytes more : Bytes} {n : Nat} {raw : RawResponse},
    Httparse.parseResponse cfg bytes n = .ok none → Httparse.parseResponse cfg (bytes ++ more) n = .ok (some raw) →
      HeadEndFrom bytes.length (bytes ++ more)

namespace Client

variable [Httparse]

def Waits (ctx : ParseContext) (bytes : Bytes) : Prop :=
  Httparse.parseResponse ctx.h1ParserConfig bytes (ctx.h1MaxHeaders.getD DEFAULT_MAX_HEADERS) = .ok none

/-- The parser finds no head at the front: an error, or with `h09_responses` a response that has no head. -/
def Refuses (ctx : ParseContext) (bytes : Bytes) : Prop :=
  ∃ e, Httparse.parseResponse ctx.h1ParserConfig bytes (ctx.h1MaxHeaders.getD DEFAULT_MAX_HEADERS) = .error e

theorem parseRound_of_waits {ctx : ParseContext} {s : ParseState} (waits : Waits ctx s.buf) :
    parseRound ctx s = .inl (.ok none, s) := by
  unfold Waits at waits
  have raw : parseRaw ctx s.buf = .ok none := by
    unfold parseRaw
    rw [waits]
  rw [parseRound, raw]

theorem parse_of_waits {ctx : ParseContext} {bytes : Bytes} (waits : Waits ctx bytes) :
    parse ctx bytes = (.ok none, { buf := bytes, cachedHeaders := ctx.cachedHeaders }) := by
  rw [parse, parseLoop, parseRound_of_waits waits]

theorem waits_of_parseRaw {ctx : ParseContext} {bytes : Bytes} (raw : parseRaw ctx bytes = .ok none) : Waits ctx bytes := by
  unfold parseRaw at raw
  unfold Waits
  split at raw
  · split at raw
    · split at raw
      · cases raw
      · cases raw
    · cases raw
  · next waits => exact waits
  · split at raw
    · cases raw
    · cases raw
  · cases raw

/-- What the parser has found, or a response without a head. -/
theorem parseRaw_cases {ctx : ParseContext} {bytes : Bytes} {len status : Nat} {reason : Option Bytes} {version : Version}
    {indices : List HeaderIndices} (raw : parseRaw ctx bytes = .ok (some (len, status, reason, version, indices))) :
    (∃ found, Httparse.parseResponse ctx.h1ParserConfig bytes (ctx.h1MaxHeaders.getD DEFAULT_MAX_HEADERS) =
      .ok (some found) ∧ found.len = len) ∨ ctx.h09Responses = true ∧ status = 200 := by
  unfold parseRaw at raw
  split at raw
  · next found complete =>
    split at raw
    · split at raw
      · cases raw
      · cases raw
        exact .inl ⟨found, complete, rfl⟩
    · cases raw
  · cases raw
  · split at raw
    · next allowed =>
      cases raw
      exact .inr ⟨allowed, rfl⟩
    · cases raw
  · cases raw

omit [Httparse] in
/-- What the decoder of a response can be. -/
theorem decoder_cases {inc : ResponseHead} {method : Option Method} {res : Option (DecodedLength × Bool)}
    (h : decoder inc method = .ok res) :
    (inc.subject = 101 ∧ res = some (.ZERO, true)) ∨ ((100 ≤ inc.subject ∧ inc.subject ≤ 199) ∧ res = none) ∨
      ((method = some .connect ∧ 200 ≤ inc.subject ∧ inc.subject ≤ 299) ∧ res = some (.ZERO, true)) ∨
      (∃ decode, res = some (decode, false) ∧ ∀ n, decode = .length n → n ≤ DecodedLength.MAX_LEN) := by
  have none : ∀ n, DecodedLength.ZERO = .length n → n ≤ DecodedLength.MAX_LEN := by
    rintro n ⟨⟩
    exact Nat.zero_le _
  unfold decoder at h
  dsimp only at h
  by_cases switching : inc.subject = 101
  · rw [if_pos switching] at h
    cases h
    exact .inl ⟨switching, rfl⟩
  rw [if_neg switching] at h
  by_cases informational : 100 ≤ inc.subject ∧ inc.subject ≤ 199
  · rw [if_pos informational] at h
    cases h
    exact .inr (.inl ⟨informational, rfl⟩)
  rw [if_neg informational] at h
  by_cases bodiless : inc.subject = 204 ∨ inc.subject = 304
  · rw [if_pos bodiless] at h
    cases h
    exact .inr (.inr (.inr ⟨_, rfl, none⟩))
  rw [if_neg bodiless] at h
  by_cases head : method = some .head
  · rw [if_pos head] at h
    cases h
    exact .inr (.inr (.inr ⟨_, rfl, none⟩))
  rw [if_neg head] at h
  by_cases connect : method = some .connect ∧ 200 ≤ inc.subject ∧ inc.subject ≤ 299
  · rw [if_pos connect] at h
    cases h
    exact .inr (.inr (.inl ⟨connect, rfl⟩))
  rw [if_neg connect] at h
  refine .inr (.inr (.inr ?_))
  by_cases coded : inc.headers.contains .transferEncoding = true
  · rw [if_pos coded] at h
    split at h
    · cases h
    split at h
    · cases h
      exact ⟨_, rfl, nofun⟩
    · cases h
      exact ⟨_, rfl, nofun⟩
  rw [if_neg coded] at h
  split at h
  · split at h
    · next small =>
      cases h
      refine ⟨_, rfl, ?_⟩
      rintro n ⟨⟩
      exact small
    · cases h
  · split at h
    · cases h
    · cases h
      exact ⟨_, rfl, nofun⟩

omit [Httparse] in
/-- Only informational heads are skipped. -/
theorem informational_of_skipped {inc : ResponseHead} {method : Option Method} (skipped : decoder inc method = .ok none) :
    100 ≤ inc.subject ∧ inc.subject ≤ 199 := by
  obtain ⟨-, res⟩ | ⟨informational, -⟩ | ⟨-, res⟩ | ⟨decode, res, -⟩ := decoder_cases skipped
  · cases res
  · exact informational
  · cases res
  · cases res

theorem parseRound_waits {ctx : ParseContext} {s s' : ParseState} (h : parseRound ctx s = .inl (.ok none, s')) :
    s'.buf = [] ∨ Waits ctx s'.buf := by
  unfold parseRound at h
  split at h
  · cases h
  · next raw =>
    cases h
    exact .inr (waits_of_parseRaw raw)
  dsimp only at h
  split at h
  · cases h
  split at h
  · cases h
  · cases h
  split at h
  · next empty =>
    cases h
    exact .inl empty
  · cases h

theorem parseRound_shorter (ends : EmptyLineEnds) {ctx : ParseContext} {s s' : ParseState}
    (h : parseRound ctx s = .inr s') : s'.buf.length < s.buf.length := by
  unfold parseRound at h
  split at h
  · cases h
  · cases h
  next len status reason version indices raw =>
  dsimp only at h
  split at h
  · cases h
  split at h
  · cases h
  · cases h
  next skipped =>
  split at h
  · cases h
  next more =>
  cases h
  have informational : 100 ≤ status ∧ status ≤ 199 := informational_of_skipped skipped
  have taken : 0 < len := by
    obtain ⟨found, complete, rfl⟩ | ⟨-, ok⟩ := parseRaw_cases raw
    · exact ends.pos complete
    · omega
  have left : 0 < (s.buf.drop len).length := List.length_pos_iff.mpr more
  show (s.buf.drop len).length < s.buf.length
  rw [List.length_drop] at left ⊢
  omega

theorem parseLoop_waits (ends : EmptyLineEnds) {ctx : ParseContext} {fuel : Nat} {s s' : ParseState}
    (enough : s.buf.length < fuel) (h : parseLoop ctx fuel s = (.ok none, s')) : s'.buf = [] ∨ Waits ctx s'.buf := by
  induction fuel generalizing s with
  | zero => omega
  | succ fuel ih =>
    rw [parseLoop] at h
    split at h
    · next res round =>
      subst h
      exact parseRound_waits round
    · next round =>
      have shorter := parseRound_shorter ends round
      exact ih (by omega) h

end Client

variable [Httparse]

/-- The bytes that were there before have been parsed, and the parser has waited for more. -/
def PartlyRead (ctx : ParseContext) (prevLen : Option Nat) (bytes : Bytes) : Prop :=
  ∀ p, prevLen = some p → p ≤ bytes.length ∧ Client.Waits ctx (bytes.take p)

/-- The shortcut gives what the parser would have given, where that is no error of its own. -/
theorem parseHeaders_eq {ctx : ParseContext} {bytes : Bytes} {prevLen : Option Nat} (ends : EmptyLineEnds)
    (partly : PartlyRead ctx prevLen bytes)
    (shown : ∀ p, prevLen = some p → BareEndsShown p bytes ∧ ¬ Client.Refuses ctx bytes) :
    parseHeaders bytes prevLen ctx = parseHeaders bytes none ctx := by
  cases prevLen with
  | none => rfl
  | some p =>
    obtain ⟨inside, waits⟩ := partly p rfl
    obtain ⟨bare, taken⟩ := shown p rfl
    have shows := (isCompleteFast_shows_iff bytes p).mpr bare
    unfold parseHeaders
    split
    · rfl
    dsimp only
    split
    · next incomplete =>
      cases parsed : Httparse.parseResponse ctx.h1ParserConfig bytes (ctx.h1MaxHeaders.getD DEFAULT_MAX_HEADERS) with
      | error e => exact absurd ⟨e, parsed⟩ taken
      | ok found =>
        cases found with
        | none => exact (Client.parse_of_waits parsed).symm
        | some raw =>
          rw [← List.take_append_drop p bytes] at parsed
          have ended := ends.found waits parsed
          rw [List.take_append_drop, List.length_take, Nat.min_eq_left inside] at ended
          rw [shows ended] at incomplete
          cases incomplete
    · rfl

theorem parseHeaders_waits {ctx : ParseContext} {bytes : Bytes} {s : ParseState} (ends : EmptyLineEnds)
    (h : parseHeaders bytes none ctx = (.ok none, s)) : s.buf = [] ∨ Client.Waits ctx s.buf := by
  unfold parseHeaders at h
  split at h
  · next empty =>
    cases h
    exact .inl empty
  · exact Client.parseLoop_waits ends (Nat.lt_succ_self _) h

namespace Buffered

/-- `Buffered::parse` without the shortcut: the parser sees the buffer after every read. -/
def plainLoop : Nat → ParseContext → List ResponseHead → Buffered (EncodedBuf Bytes) → HeadParse
  | 0, ctx, informed, b => ⟨.pending, ctx.cachedHeaders, informed, b⟩
  | fuel + 1, ctx, informed, b =>
    match parseHeaders b.readBuf none ctx with
    | (.error e, s) =>
      ⟨.ready (.error (.ofParse e)), s.cachedHeaders, informed ++ s.informed, { b with readBuf := s.buf }⟩
    | (.ok (some msg), s) =>
      ⟨.ready (.ok msg), s.cachedHeaders, informed ++ s.informed, { b with readBuf := s.buf, partialLen := none }⟩
    | (.ok none, s) =>
      let informed := informed ++ s.informed
      let b := { b with readBuf := s.buf }
      let currLen := b.readBuf.length
      if currLen ≥ b.readBufStrategy.max then ⟨.ready (.error .newTooLarge), s.cachedHeaders, informed, b⟩
      else
        let b := { b with partialLen := if currLen > 0 then some currLen else none }
        match b.pollReadFromIo with
        | (.pending, b) => ⟨.pending, s.cachedHeaders, informed, b⟩
        | (.ready (.error e), b) => ⟨.ready (.error (.newIo e)), s.cachedHeaders, informed, b⟩
        | (.ready (.ok n), b) =>
          if n = 0 then ⟨.ready (.error .newIncomplete), s.cachedHeaders, informed, b⟩
          else plainLoop fuel { ctx with cachedHeaders := s.cachedHeaders } informed b

def plainParse (b : Buffered (EncodedBuf Bytes)) (ctx : ParseContext) : HeadParse :=
  b.plainLoop (b.io.reads.length + 1) ctx []

/-- The buffers that the parser sees, each with the length it had before the read. -/
def seen (fuel : Nat) (ctx : ParseContext) (b : Buffered (EncodedBuf Bytes)) : List (Option Nat × Bytes) :=
  match fuel with
  | 0 => []
  | fuel + 1 =>
    (b.partialLen, b.readBuf) ::
      match parseHeaders b.readBuf none ctx with
      | (.ok none, s) =>
        let currLen := s.buf.length
        let b := { b with readBuf := s.buf, partialLen := if currLen > 0 then some currLen else none }
        match b.pollReadFromIo with
        | (.ready (.ok _), b) => seen fuel { ctx with cachedHeaders := s.cachedHeaders } b
        | _ => []
      | _ => []

/-- What holds between the calls of `parse` for one head. -/
def PartlyParsed (ctx : ParseContext) (b : Buffered (EncodedBuf Bytes)) : Prop := PartlyRead ctx b.partialLen b.readBuf

theorem pollReadFromIo_partly {ctx : ParseContext} {b : Buffered (EncodedBuf Bytes)}
    (all : b.readBuf = [] ∨ Client.Waits ctx b.readBuf)
    (marked : b.partialLen = if b.readBuf.length > 0 then some b.readBuf.length else none) :
    b.pollReadFromIo.2.PartlyParsed ctx := by
  have before (more : Bytes) : PartlyRead ctx b.partialLen (b.readBuf ++ more) := by
    rw [marked]
    intro p same
    split at same
    · next nonempty =>
      obtain rfl := Option.some.inj same
      have waits := all.resolve_left (List.length_pos_iff.mp nonempty)
      rw [List.take_left' rfl, List.length_append]
      exact ⟨Nat.le_add_right _ _, waits⟩
    · cases same
  have kept : PartlyRead ctx b.partialLen b.readBuf := by
    have same := before []
    rwa [List.append_nil] at same
  unfold pollReadFromIo PartlyParsed
  split
  · exact before _
  · exact kept
  · exact kept

/-- Round by round, both loops see the same bytes and go on or stop together. -/
theorem parseLoop_eq_plainLoop (ends : EmptyLineEnds) {fuel : Nat} {ctx : ParseContext} {informed : List ResponseHead}
    {b : Buffered (EncodedBuf Bytes)} (partly : b.PartlyParsed ctx)
    (shown : ∀ round ∈ seen fuel ctx b, ∀ p, round.1 = some p → BareEndsShown p round.2 ∧ ¬ Client.Refuses ctx round.2) :
    parseLoop fuel ctx informed b = plainLoop fuel ctx informed b ∧
      ((plainLoop fuel ctx informed b).res = .pending → (plainLoop fuel ctx informed b).io.PartlyParsed ctx) := by
  induction fuel generalizing ctx informed b with
  | zero => exact ⟨rfl, fun _ => partly⟩
  | succ fuel ih =>
    have same := parseHeaders_eq ends partly (shown _ List.mem_cons_self)
    rw [parseLoop, same, plainLoop]
    rw [seen] at shown
    cases round : parseHeaders b.readBuf none ctx with
    | mk res s =>
      rw [round] at shown
      cases res with
      | error e => exact ⟨rfl, nofun⟩
      | ok found =>
        cases found with
        | some msg => exact ⟨rfl, nofun⟩
        | none =>
          dsimp only at shown ⊢
          split
          · exact ⟨rfl, nofun⟩
          · have all := parseHeaders_waits ends round
            generalize marked : ({ b with readBuf := s.buf, partialLen := if s.buf.length > 0 then some s.buf.length else none } :
              Buffered (EncodedBuf Bytes)) = b₁ at shown ⊢
            have buf : b₁.readBuf = s.buf := by rw [← marked]
            have len : b₁.partialLen = if b₁.readBuf.length > 0 then some b₁.readBuf.length else none := by
              rw [buf, ← marked]
            have next := pollReadFromIo_partly (buf ▸ all) len
            cases read : b₁.pollReadFromIo with
            | mk res b₂ =>
              rw [read] at shown next
              cases res with
              | pending => exact ⟨rfl, fun _ => next⟩
              | ready res =>
                cases res with
                | error e => exact ⟨rfl, nofun⟩
                | ok n =>
                  dsimp only at shown ⊢
                  split
                  · exact ⟨rfl, nofun⟩
                  · exact @ih { ctx with cachedHeaders := s.cachedHeaders } (informed ++ s.informed) b₂ next
                      fun round member => shown round (List.mem_cons_of_mem _ member)

end Buffered

/-- The scan shows every new head end exactly where the bare ones are shown, and where that is so after every read,
`Buffered::parse` does with a head that comes in pieces what it would do with the parser alone: it completes on the same
bytes, and fails on the same. -/
theorem isCompleteFast_shows (ends : EmptyLineEnds) :
    (∀ bytes prevLen, prevLen ≤ bytes.length →
      ((HeadEndFrom prevLen bytes → isCompleteFast bytes prevLen = true) ↔ BareEndsShown prevLen bytes)) ∧
    ∀ (b : Buffered (EncodedBuf Bytes)) (ctx : ParseContext), b.PartlyParsed ctx →
      (∀ round ∈ b.seen (b.io.reads.length + 1) ctx, ∀ p, round.1 = some p →
        BareEndsShown p round.2 ∧ ¬ Client.Refuses ctx round.2) →
      b.parse ctx = b.plainParse ctx ∧ ((b.plainParse ctx).res = .pending → (b.plainParse ctx).io.PartlyParsed ctx) := by
  refine ⟨fun bytes prevLen _ => isCompleteFast_shows_iff bytes prevLen, ?_⟩
  intro b ctx partly shown
  exact Buffered.parseLoop_eq_plainLoop ends partly shown

/-! ### Two heads -/

/-- A parser that knows one head of a response without content, whatever follows it. -/
@[reducible] def onlyHead (head : Bytes) (headers : List HeaderIndices) : Httparse where
  parseResponse _ bytes _ :=
    if head.isPrefixOf bytes then
      .ok (some { len := head.length, version := 1, code := 204, reason := ascii "No Content", headers })
    else .ok none
  parseHeaders _ _ := .ok none
  canonicalReason _ := some (ascii "No Content")

omit [Httparse] in
theorem onlyHead_eq_some {head bytes : Bytes} {headers : List HeaderIndices} {cfg : ParserConfig} {n : Nat}
    {raw : RawResponse} (complete : @Httparse.parseResponse (onlyHead head headers) cfg bytes n = .ok (some raw)) :
    head <+: bytes ∧ raw.len = head.length := by
  change (if head.isPrefixOf bytes = true then _ else _) = _ at complete
  split at complete
  · next there =>
    cases complete
    exact ⟨List.isPrefixOf_iff_prefix.mp there, rfl⟩
  · cases complete

omit [Httparse] in
theorem onlyHead_eq_none {head bytes : Bytes} {headers : List HeaderIndices} {cfg : ParserConfig} {n : Nat}
    (waits : @Httparse.parseResponse (onlyHead head headers) cfg bytes n = .ok none) : ¬ head <+: bytes := by
  change (if head.isPrefixOf bytes = true then _ else _) = _ at waits
  split at waits
  · cases waits
  · next missing => rwa [List.isPrefixOf_iff_prefix] at missing

omit [Httparse] in
theorem onlyHead_emptyLineEnds {head : Bytes} (headers : List HeaderIndices) (ended : [LF, CR, LF] <:+ head) :
    @EmptyLineEnds (onlyHead head headers) := by
  obtain ⟨pre, rfl⟩ := ended
  refine @EmptyLineEnds.mk (onlyHead _ headers) ?_ ?_
  · intro cfg bytes n raw complete
    rw [(onlyHead_eq_some complete).2, List.length_append]
    exact Nat.lt_add_left _ (by decide)
  · intro cfg bytes more n raw waits complete
    have missing := onlyHead_eq_none waits
    obtain ⟨there, -⟩ := onlyHead_eq_some complete
    have longer : bytes.length < (pre ++ [LF, CR, LF]).length := by
      by_contra short
      exact missing (List.prefix_of_prefix_length_le there (List.prefix_append _ _) (Nat.le_of_not_lt short))
    rw [List.length_append] at longer
    refine ⟨pre.length, .inr ⟨?_, Nat.le_of_lt_succ longer⟩⟩
    obtain ⟨rest, eq⟩ := there
    rw [Occurs, ← eq, List.append_assoc, List.drop_left]
    exact List.prefix_append _ _

def crlfHead : Bytes := ascii "HTTP/1.1 204 No Content\r\n\r\n"

/-- Lines that end in a bare LF, and an empty line that ends in CR LF. -/
def bareHead : Bytes := ascii "HTTP/1.1 204 No Content\na: b\n\r\n"

def inTwoReads (head : Bytes) (cut : Nat) : Buffered (EncodedBuf Bytes) :=
  .new { reads := [.data (head.take cut), .data (head.drop cut)] }

/-- Whether a head is complete for a loop, and how many bytes it has left. -/
def HeadParse.completed (h : HeadParse) : Option Nat :=
  match h.res with
  | .ready (.ok _) => some h.io.readBuf.length
  | _ => none

omit [Httparse] in
theorem isCompleteFast_shows_crlf :
    @Buffered.parse (onlyHead crlfHead []) (inTwoReads crlfHead 25) {} =
      @Buffered.plainParse (onlyHead crlfHead []) (inTwoReads crlfHead 25) {} := by
  have ends := @onlyHead_emptyLineEnds crlfHead [] (by decide +kernel)
  have rounds : @Buffered.seen (onlyHead crlfHead []) 3 {} (inTwoReads crlfHead 25) =
      [(none, []), (none, crlfHead.take 25), (some 25, crlfHead)] := by decide +kernel
  have fresh : @Buffered.PartlyParsed (onlyHead crlfHead []) {} (inTwoReads crlfHead 25) := by
    intro p same
    cases same
  refine ((@isCompleteFast_shows (onlyHead crlfHead []) ends).2 _ {} fresh ?_).1
  rw [show (inTwoReads crlfHead 25).io.reads.length + 1 = 3 from rfl, rounds]
  intro round member p same
  simp only [List.mem_cons, List.not_mem_nil, or_false] at member
  rcases member with rfl | rfl | rfl
  · cases same
  · cases same
  · cases same
    refine ⟨(isCompleteFast_shows_iff _ _).mp fun _ => by decide +kernel, ?_⟩
    rintro ⟨e, refused⟩
    cases refused

omit [Httparse] in
/-- The whole head is there, the parser would return it, and the scan does not see its end. -/
theorem isCompleteFast_hides :
    HeadEndFrom 29 bareHead ∧ isCompleteFast bareHead 29 = false ∧
      (@Buffered.plainParse (onlyHead bareHead [⟨(24, 25), (27, 28)⟩]) (inTwoReads bareHead 29) {}).completed = some 0 ∧
      (@Buffered.parse (onlyHead bareHead [⟨(24, 25), (27, 28)⟩]) (inTwoReads bareHead 29) {}).completed = none := by
  refine ⟨⟨28, .inr ⟨?_, by decide⟩⟩, by decide +kernel, by decide +kernel, by decide +kernel⟩
  show [LF, CR, LF] <+: bareHead.drop 28
  decide +kernel

end Hwire.Http1
