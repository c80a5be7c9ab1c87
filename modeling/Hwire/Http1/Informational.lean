import Hwire.Http1.HeadEnd
import Hwire.Http1.KeepAlive

/-!
# Informational heads

A final head may come behind any number of informational ones. The parser takes them one after the other, in whatever pieces
they come, and each goes to the callback once. What is kept between the reads and between the calls does not mix them up.
-/

namespace Hwire.Http1
open Lib

namespace Client

variable [Httparse]

/-- All of the bytes are a head for the parser, whatever follows them, and no less of them is. -/
structure HeadBytes (ctx : ParseContext) (bytes : Bytes) : Prop where
  nonempty : bytes ≠ []
  whole : ∃ raw : RawResponse, raw.len = bytes.length ∧ ∀ more,
    Httparse.parseResponse ctx.h1ParserConfig (bytes ++ more) (ctx.h1MaxHeaders.getD DEFAULT_MAX_HEADERS) = .ok (some raw)
  cut : ∀ front, front <+: bytes → front ≠ bytes → Waits ctx front

/-- An informational head with CR LF line ends that is accepted by itself, and what a callback is given for it. -/
structure InformationalHead (ctx : ParseContext) (bytes : Bytes) (head : ResponseHead) : Prop extends HeadBytes ctx bytes where
  ends : [CR, LF, CR, LF] <:+ bytes
  accepted : parse { ctx with cachedHeaders := none, onInformational := true } bytes =
    (.ok none, { buf := [], cachedHeaders := none, informed := [head] })

/-- A final head that is accepted by itself, and what it is parsed to over an empty map. -/
structure FinalHead (ctx : ParseContext) (bytes : Bytes) (msg : ParsedMessage) : Prop extends HeadBytes ctx bytes where
  accepted : (parse { ctx with cachedHeaders := none } bytes).1 = .ok (some msg)

/-! ### One head -/

theorem HeadBytes.parseRaw_append {ctx : ParseContext} {bytes : Bytes} (h : HeadBytes ctx bytes) (more : Bytes) :
    parseRaw ctx (bytes ++ more) = parseRaw ctx bytes := by
  obtain ⟨raw, -, parsed⟩ := h.whole
  have alone := parsed []
  rw [List.append_nil] at alone
  unfold parseRaw
  rw [parsed more, alone]

theorem HeadBytes.parseRaw_length {ctx : ParseContext} {bytes : Bytes} (h : HeadBytes ctx bytes) {len status : Nat}
    {reason : Option Bytes} {version : Version} {indices : List HeaderIndices}
    (found : parseRaw ctx bytes = .ok (some (len, status, reason, version, indices))) : len = bytes.length := by
  obtain ⟨raw, length, parsed⟩ := h.whole
  have alone := parsed []
  rw [List.append_nil] at alone
  unfold parseRaw at found
  rw [alone] at found
  dsimp only at found
  split at found
  · split at found
    · cases found
    · cases found
      exact length
  · cases found

/-- The head that some bytes make over an empty map, with whether it keeps the connection alive. -/
def readHead (ctx : ParseContext) (bytes : Bytes) (status : Nat) (reason : Option Bytes) (version : Version)
    (indices : List HeaderIndices) : Except Parse (Bool × ResponseHead) :=
  let (slice, indices) :=
    if ctx.h1ParserConfig.allowObsoleteMultilineHeadersInResponses then obsFoldAll bytes indices else (bytes, indices)
  (indices.foldlM (addHeader slice) (decide (version = .http11), .empty)).map fun (keepAlive, headers) =>
    (keepAlive, { version, subject := status, headers, extensions := { reasonPhrase := reason } })

/-- A round over a head with more bytes behind it. What it gives does not depend on them, nor on an empty map that was
kept. -/
theorem parseRound_eq {ctx : ParseContext} {bytes more : Bytes} {status : Nat} {reason : Option Bytes} {version : Version}
    {indices : List HeaderIndices}
    (raw : parseRaw ctx (bytes ++ more) = .ok (some (bytes.length, status, reason, version, indices)))
    {cachedHeaders : Option HeaderMap} (empty : CacheEmpty cachedHeaders) (informed : List ResponseHead) :
    parseRound ctx { buf := bytes ++ more, cachedHeaders, informed } =
      match readHead ctx bytes status reason version indices with
      | .error e => .inl (.error e, { buf := more, cachedHeaders := none, informed })
      | .ok (keepAlive, head) =>
        match decoder head ctx.reqMethod with
        | .error e => .inl (.error e, { buf := more, cachedHeaders := none, informed })
        | .ok (some (decode, isUpgrade)) =>
          .inl (.ok (some
            { head, decode, expectContinue := false, keepAlive := keepAlive && !isUpgrade, wantsUpgrade := isUpgrade }),
            { buf := more, cachedHeaders := none, informed })
        | .ok none =>
          let s : ParseState :=
            { buf := more, cachedHeaders := none, informed := if ctx.onInformational then informed ++ [head] else informed }
          if more = [] then .inl (.ok none, s) else .inr s := by
  unfold CacheEmpty at empty
  unfold parseRound readHead
  simp only [raw, List.take_left', List.drop_left', empty]
  generalize (if ctx.h1ParserConfig.allowObsoleteMultilineHeadersInResponses = true then obsFoldAll bytes indices
    else (bytes, indices)) = folded
  cases fields : folded.2.foldlM (addHeader folded.1) (decide (version = .http11), .empty) with
  | error e => rfl
  | ok acc => rfl

/-- A head by itself is refused by the parser, or parsing it is the round over it. -/
theorem HeadBytes.parse_eq {ctx : ParseContext} {bytes : Bytes} (h : HeadBytes ctx bytes)
    (empty : CacheEmpty ctx.cachedHeaders) :
    (∃ e, (parse ctx bytes).1 = .error e) ∨
    ∃ status reason version indices, parseRaw ctx bytes = .ok (some (bytes.length, status, reason, version, indices)) ∧
      ∃ keepAlive head, readHead ctx bytes status reason version indices = .ok (keepAlive, head) ∧
      (decoder head ctx.reqMethod = .ok none ∧ parse ctx bytes = (.ok none,
          { buf := [], cachedHeaders := none, informed := if ctx.onInformational then [head] else [] }) ∨
        ∃ decode isUpgrade, decoder head ctx.reqMethod = .ok (some (decode, isUpgrade)) ∧
          parse ctx bytes = (.ok (some
            { head, decode, expectContinue := false, keepAlive := keepAlive && !isUpgrade, wantsUpgrade := isUpgrade }),
            { buf := [], cachedHeaders := none })) := by
  rw [parse, parseLoop]
  cases raw : parseRaw ctx bytes with
  | error e =>
    refine .inl ⟨e, ?_⟩
    rw [parseRound, raw]
  | ok res =>
    cases res with
    | none =>
      obtain ⟨found, -, parsed⟩ := h.whole
      have complete := parsed []
      rw [List.append_nil, waits_of_parseRaw raw] at complete
      cases complete
    | some res =>
      obtain ⟨len, status, reason, version, indices⟩ := res
      obtain rfl := h.parseRaw_length raw
      have whole : parseRaw ctx (bytes ++ []) = .ok (some (bytes.length, status, reason, version, indices)) := by
        rw [List.append_nil, raw]
      have round := parseRound_eq whole empty []
      rw [List.append_nil] at round
      rw [round]
      cases fields : readHead ctx bytes status reason version indices with
      | error e => exact .inl ⟨e, rfl⟩
      | ok read =>
        obtain ⟨keepAlive, head⟩ := read
        cases framing : decoder head ctx.reqMethod with
        | error e => exact .inl ⟨e, by dsimp only; rw [framing]⟩
        | ok found =>
          refine .inr ⟨status, reason, version, indices, rfl, keepAlive, head, fields, ?_⟩
          cases found with
          | none =>
            refine .inl ⟨framing, ?_⟩
            dsimp only
            rw [framing]
            rfl
          | some found =>
            obtain ⟨decode, isUpgrade⟩ := found
            refine .inr ⟨decode, isUpgrade, framing, ?_⟩
            dsimp only
            rw [framing]

/-- The callback hears of a head that is skipped, if there is one. -/
theorem InformationalHead.round {ctx : ParseContext} {bytes : Bytes} {head : ResponseHead}
    (h : InformationalHead ctx bytes head) (more : Bytes) {cachedHeaders : Option HeaderMap}
    (empty : CacheEmpty cachedHeaders) (informed : List ResponseHead) :
    parseRound ctx { buf := bytes ++ more, cachedHeaders, informed } =
      let s : ParseState :=
        { buf := more, cachedHeaders := none, informed := if ctx.onInformational then informed ++ [head] else informed }
      if more = [] then .inl (.ok none, s) else .inr s := by
  have listening : HeadBytes { ctx with cachedHeaders := none, onInformational := true } bytes :=
    ⟨h.nonempty, h.whole, h.cut⟩
  obtain ⟨e, failed⟩ | ⟨status, reason, version, indices, raw, keepAlive, head', fields, skipped⟩ := listening.parse_eq rfl
  · rw [h.accepted] at failed
    cases failed
  obtain ⟨none, parsed⟩ | ⟨decode, isUpgrade, -, parsed⟩ := skipped
  · rw [h.accepted] at parsed
    cases parsed
    have whole := (h.parseRaw_append more).trans raw
    rw [parseRound_eq whole empty informed]
    change readHead ctx bytes status reason version indices = _ at fields
    change decoder head ctx.reqMethod = _ at none
    rw [fields]
    dsimp only
    rw [none]
  · rw [h.accepted] at parsed
    cases parsed

theorem FinalHead.round {ctx : ParseContext} {bytes : Bytes} {msg : ParsedMessage} (h : FinalHead ctx bytes msg)
    (more : Bytes) {cachedHeaders : Option HeaderMap} (empty : CacheEmpty cachedHeaders) (informed : List ResponseHead) :
    parseRound ctx { buf := bytes ++ more, cachedHeaders, informed } =
      .inl (.ok (some msg), { buf := more, cachedHeaders := none, informed }) := by
  have fresh : HeadBytes { ctx with cachedHeaders := none } bytes := ⟨h.nonempty, h.whole, h.cut⟩
  have accepted := h.accepted
  obtain ⟨e, failed⟩ | ⟨status, reason, version, indices, raw, keepAlive, head, fields, returned⟩ := fresh.parse_eq rfl
  · rw [accepted] at failed
    cases failed
  obtain ⟨-, parsed⟩ | ⟨decode, isUpgrade, some, parsed⟩ := returned
  · rw [parsed] at accepted
    cases accepted
  · rw [parsed] at accepted
    cases accepted
    have whole := (h.parseRaw_append more).trans raw
    rw [parseRound_eq whole empty informed]
    change readHead ctx bytes status reason version indices = _ at fields
    change decoder head ctx.reqMethod = _ at some
    rw [fields]
    dsimp only
    rw [some]

/-! ### Heads one after the other -/

/-- Informational heads and a final one, each accepted by itself. -/
structure Heads (ctx : ParseContext) (heads : List (Bytes × ResponseHead)) (final : Bytes) (msg : ParsedMessage) : Prop where
  informational : ∀ head ∈ heads, InformationalHead ctx head.1 head.2
  final : FinalHead ctx final msg

def headBytes (heads : List (Bytes × ResponseHead)) : Bytes := heads.flatMap (·.1)

/-- What the callback is told, if there is one. -/
def told (ctx : ParseContext) (heads : List (Bytes × ResponseHead)) : List ResponseHead :=
  if ctx.onInformational then heads.map (·.2) else []

def nextHead (heads : List (Bytes × ResponseHead)) (final : Bytes) : Bytes :=
  match heads with
  | [] => final
  | head :: _ => head.1

omit [Httparse] in
theorem headBytes_cons (head : Bytes × ResponseHead) (heads : List (Bytes × ResponseHead)) :
    headBytes (head :: heads) = head.1 ++ headBytes heads := List.flatMap_cons

omit [Httparse] in
theorem headBytes_append (done todo : List (Bytes × ResponseHead)) :
    headBytes (done ++ todo) = headBytes done ++ headBytes todo := List.flatMap_append

omit [Httparse] in
theorem told_nil (ctx : ParseContext) : told ctx [] = [] := by
  unfold told
  split
  · rfl
  · rfl

omit [Httparse] in
theorem told_append (ctx : ParseContext) (done todo : List (Bytes × ResponseHead)) :
    told ctx (done ++ todo) = told ctx done ++ told ctx todo := by
  unfold told
  split
  · exact List.map_append
  · rfl

omit [Httparse] in
theorem told_cons (ctx : ParseContext) (head : Bytes × ResponseHead) (heads : List (Bytes × ResponseHead))
    (informed : List ResponseHead) :
    (if ctx.onInformational then informed ++ [head.2] else informed) ++ told ctx heads = informed ++ told ctx (head :: heads) := by
  unfold told
  split
  · rw [List.map_cons, List.append_assoc, List.singleton_append]
  · rfl

omit [Httparse] in
/-- The start of two texts either covers the first of them or is a part of it. -/
theorem covers_or_short {buf later first second : Bytes} (stream : buf ++ later = first ++ second) :
    (∃ more, buf = first ++ more ∧ more ++ later = second) ∨ buf <+: first ∧ buf.length < first.length := by
  obtain long | short := Nat.lt_or_ge buf.length first.length
  · have front : buf <+: first ++ second := ⟨later, stream⟩
    exact .inr ⟨List.prefix_of_prefix_length_le front (List.prefix_append _ _) (Nat.le_of_lt long), long⟩
  · have front : first <+: buf ++ later := ⟨second, stream.symm⟩
    obtain ⟨more, rfl⟩ := List.prefix_of_prefix_length_le front (List.prefix_append _ _) short
    rw [List.append_assoc] at stream
    exact .inl ⟨more, rfl, List.append_cancel_left stream⟩

theorem HeadBytes.waits {ctx : ParseContext} {bytes front : Bytes} (h : HeadBytes ctx bytes) (part : front <+: bytes)
    (short : front.length < bytes.length) : Waits ctx front := by
  apply h.cut front part
  rintro rfl
  exact Nat.lt_irrefl _ short

variable {ctx : ParseContext} {heads : List (Bytes × ResponseHead)} {final : Bytes} {msg : ParsedMessage}

theorem Heads.next (h : Heads ctx heads final msg) : HeadBytes ctx (nextHead heads final) := by
  cases heads with
  | nil => exact h.final.toHeadBytes
  | cons head heads => exact (h.informational head List.mem_cons_self).toHeadBytes

theorem Heads.later {done todo : List (Bytes × ResponseHead)} (h : Heads ctx (done ++ todo) final msg) :
    Heads ctx todo final msg :=
  ⟨fun head member => h.informational head (List.mem_append_right done member), h.final⟩

theorem Heads.keeping (h : Heads ctx heads final msg) (kept : Option HeaderMap) :
    Heads { ctx with cachedHeaders := kept } heads final msg where
  informational head member := by
    have one := h.informational head member
    exact ⟨⟨one.nonempty, one.whole, one.cut⟩, one.ends, one.accepted⟩
  final := ⟨⟨h.final.nonempty, h.final.whole, h.final.cut⟩, h.final.accepted⟩

/-- The parser takes every head that is there as a whole. It stops at the final one, or at the first one that is not. -/
theorem Heads.parseLoop (h : Heads ctx heads final msg) {fuel : Nat} {buf later rest : Bytes}
    {cachedHeaders : Option HeaderMap} (informed : List ResponseHead) (empty : CacheEmpty cachedHeaders)
    (enough : buf.length < fuel) (stream : buf ++ later = headBytes heads ++ (final ++ rest)) :
    (∃ more, buf = headBytes heads ++ (final ++ more) ∧ more ++ later = rest ∧
      Client.parseLoop ctx fuel { buf, cachedHeaders, informed } =
        (.ok (some msg), { buf := more, cachedHeaders := none, informed := informed ++ told ctx heads })) ∨
    ∃ done todo front kept, heads = done ++ todo ∧ buf = headBytes done ++ front ∧
      front.length < (nextHead todo final).length ∧ CacheEmpty kept ∧
      Client.parseLoop ctx fuel { buf, cachedHeaders, informed } =
        (.ok none, { buf := front, cachedHeaders := kept, informed := informed ++ told ctx done }) := by
  obtain ⟨fuel, rfl⟩ : ∃ n, fuel = n + 1 := Nat.exists_eq_succ_of_ne_zero (by omega)
  induction heads generalizing fuel buf cachedHeaders informed with
  | nil =>
    change buf ++ later = final ++ rest at stream
    obtain ⟨more, rfl, left⟩ | ⟨part, short⟩ := covers_or_short stream
    · refine .inl ⟨more, rfl, left, ?_⟩
      rw [Client.parseLoop, h.final.round more empty, told_nil, List.append_nil]
    · refine .inr ⟨[], [], buf, cachedHeaders, rfl, rfl, short, empty, ?_⟩
      rw [Client.parseLoop, parseRound_of_waits (h.final.waits part short), told_nil, List.append_nil]
  | cons head heads ih =>
    have first := h.informational head List.mem_cons_self
    have others : Heads ctx heads final msg :=
      ⟨fun head member => h.informational head (List.mem_cons_of_mem _ member), h.final⟩
    rw [headBytes_cons, List.append_assoc] at stream
    obtain ⟨more, rfl, left⟩ | ⟨part, short⟩ := covers_or_short stream
    · have round := first.round more empty informed
      have some := List.length_pos_iff.mpr first.nonempty
      rw [List.length_append] at enough
      rw [Client.parseLoop, round]
      dsimp only
      by_cases all : more = []
      · rw [if_pos all]
        refine .inr ⟨[head], heads, [], none, rfl, ?_, ?_, rfl, ?_⟩
        · simp [all, headBytes]
        · exact List.length_pos_iff.mpr others.next.nonempty
        · rw [← told_cons, told_nil, List.append_nil, all]
      · rw [if_neg all]
        dsimp only
        have empty' : CacheEmpty none := rfl
        obtain ⟨fuel, rfl⟩ : ∃ n, fuel = n + 1 := Nat.exists_eq_succ_of_ne_zero (by omega)
        obtain ⟨more', cover, left', res⟩ | ⟨done, todo, front, kept, split, cover, short, none, res⟩ :=
          ih others _ empty' left fuel (by omega)
        · refine .inl ⟨more', ?_, left', ?_⟩
          · rw [cover, headBytes_cons, List.append_assoc]
          · rw [res, told_cons]
        · refine .inr ⟨head :: done, todo, front, kept, ?_, ?_, short, none, ?_⟩
          · rw [split, List.cons_append]
          · rw [cover, headBytes_cons, List.append_assoc]
          · rw [res, told_cons]
    · refine .inr ⟨[], head :: heads, buf, cachedHeaders, rfl, rfl, short, empty, ?_⟩
      rw [Client.parseLoop, parseRound_of_waits (first.waits part short), told_nil, List.append_nil]

omit [Httparse] in
theorem nextHead_length_le (heads : List (Bytes × ResponseHead)) (final : Bytes) :
    (nextHead heads final).length ≤ (headBytes heads).length + final.length := by
  cases heads with
  | nil => exact Nat.le_add_left _ _
  | cons head heads =>
    rw [headBytes_cons, List.length_append]
    show head.1.length ≤ _
    omega

/-- Over a buffer, the final head is returned exactly where all of it is there. -/
theorem Heads.parse (h : Heads ctx heads final msg) {buf later rest : Bytes} (empty : CacheEmpty ctx.cachedHeaders)
    (stream : buf ++ later = headBytes heads ++ (final ++ rest)) :
    ((headBytes heads).length + final.length ≤ buf.length ∧ ∃ more, more ++ later = rest ∧
      Client.parse ctx buf = (.ok (some msg), { buf := more, cachedHeaders := none, informed := told ctx heads })) ∨
    buf.length < (headBytes heads).length + final.length ∧
      ∃ done todo front kept, heads = done ++ todo ∧ buf = headBytes done ++ front ∧
        front.length < (nextHead todo final).length ∧ CacheEmpty kept ∧
        Client.parse ctx buf = (.ok none, { buf := front, cachedHeaders := kept, informed := told ctx done }) := by
  obtain ⟨more, cover, left, res⟩ | ⟨done, todo, front, kept, split, cover, short, none, res⟩ :=
    h.parseLoop [] empty (Nat.lt_succ_self _) stream
  · refine .inl ⟨?_, more, left, res⟩
    rw [cover, List.length_append, List.length_append]
    omega
  · refine .inr ⟨?_, done, todo, front, kept, split, cover, short, none, res⟩
    have most := nextHead_length_le todo final
    rw [split, cover, headBytes_append, List.length_append, List.length_append]
    omega

end Client

open Client

/-! ### Heads that come in pieces -/

/-- The final head stands behind `ahead` bytes. All of it has come, and where a part of it was there `before` bytes had
come, the scan behind that part finds an end. -/
def EndSeen (ahead : Nat) (final : Bytes) (before : Nat) (got : Bytes) : Prop :=
  ahead + final.length ≤ got.length ∧ (ahead < before → isCompleteFast (got.drop ahead) (before - ahead) = true)

/-- An end is seen after one of the pieces, and the buffer is not full before. -/
def Shown (ahead : Nat) (final : Bytes) (max : Nat) (before : Nat) (got : Bytes) : List Bytes → Prop
  | [] => EndSeen ahead final before got
  | piece :: pieces =>
    EndSeen ahead final before got ∨ got.length < ahead + max ∧ Shown ahead final max got.length (got ++ piece) pieces

theorem endSeen_append {ahead before : Nat} {final done got : Bytes} :
    EndSeen (done.length + ahead) final (done.length + before) (done ++ got) ↔ EndSeen ahead final before got := by
  unfold EndSeen
  rw [List.length_append, List.drop_length_add_append, Nat.add_sub_add_left, Nat.add_assoc, Nat.add_le_add_iff_left,
    Nat.add_lt_add_iff_left]

theorem shown_append {ahead max before : Nat} {final done got : Bytes} {pieces : List Bytes} :
    Shown (done.length + ahead) final max (done.length + before) (done ++ got) pieces ↔
      Shown ahead final max before got pieces := by
  induction pieces generalizing before got with
  | nil => exact endSeen_append
  | cons piece pieces ih =>
    rw [Shown, Shown, endSeen_append, List.append_assoc, List.length_append, ih, Nat.add_assoc, Nat.add_lt_add_iff_left]

/-- The scan of more bytes finds no less. -/
theorem EndSeen.earlier {ahead before later : Nat} {final got : Bytes} (seen : EndSeen ahead final later got)
    (before_le : before ≤ later) : EndSeen ahead final before got := by
  refine ⟨seen.1, fun behind => ?_⟩
  have found := seen.2 (Nat.lt_of_lt_of_le behind before_le)
  rw [isCompleteFast_iff] at found ⊢
  obtain ⟨i, from_, there⟩ := found
  exact ⟨i, by omega, there⟩

/-- A read that is pending or finds the end of file shows nothing new. -/
theorem shown_nil {ahead max before : Nat} {final got : Bytes} (before_le : before ≤ got.length) :
    Shown ahead final max before got [[]] ↔ EndSeen ahead final before got := by
  rw [Shown, Shown, List.append_nil]
  constructor
  · rintro (seen | ⟨-, seen⟩)
    · exact seen
    · exact seen.earlier before_le
  · exact .inl

/-- The two ends that the scan knows. -/
def EndKnown (head : Bytes) : Prop := [CR, LF, CR, LF] <:+ head ∨ [LF, LF] <:+ head

theorem isCompleteFast_of_known {head more : Bytes} {p : Nat} (known : EndKnown head) (short : p < head.length) :
    isCompleteFast (head ++ more) p = true := by
  rw [isCompleteFast_iff]
  obtain ⟨lines, rfl⟩ | ⟨lines, rfl⟩ := known
  · rw [List.length_append] at short
    change p < lines.length + 4 at short
    refine ⟨lines.length, by omega, .inr ?_⟩
    rw [Occurs, List.append_assoc, List.drop_left]
    exact List.prefix_append _ _
  · rw [List.length_append] at short
    change p < lines.length + 2 at short
    refine ⟨lines.length, by omega, .inl ?_⟩
    rw [Occurs, List.append_assoc, List.drop_left]
    exact List.prefix_append _ _

theorem endSeen_of_known {before : Nat} {front final rest got later : Bytes} (known : EndKnown final)
    (early : before < front.length + final.length) (stream : got ++ later = front ++ final ++ rest)
    (all : front.length + final.length ≤ got.length) : EndSeen front.length final before got := by
  refine ⟨all, fun behind => ?_⟩
  obtain ⟨more, rfl, -⟩ | ⟨-, short⟩ := covers_or_short stream
  · rw [List.append_assoc, List.drop_left]
    exact isCompleteFast_of_known known (by omega)
  · rw [List.length_append] at short
    omega

/-- In whatever pieces it comes, a head with such an end is seen. -/
theorem shown_of_known {max before : Nat} {front final rest got : Bytes} {pieces : List Bytes} (known : EndKnown final)
    (small : final.length < max) (early : before < front.length + final.length)
    (stream : got ++ pieces.flatten = front ++ final ++ rest) : Shown front.length final max before got pieces := by
  induction pieces generalizing before got with
  | nil =>
    apply endSeen_of_known known early stream
    rw [List.flatten_nil, List.append_nil] at stream
    rw [stream, List.length_append, List.length_append]
    omega
  | cons piece pieces ih =>
    by_cases all : front.length + final.length ≤ got.length
    · exact .inl (endSeen_of_known known early stream all)
    · refine .inr ⟨by omega, ih (by omega) ?_⟩
      rw [← stream, List.flatten_cons, List.append_assoc]

section
variable [Httparse] {ctx : ParseContext} {heads : List (Bytes × ResponseHead)} {final : Bytes} {msg : ParsedMessage}

/-- Where the scan does not hide the final head, the parser returns it if its end is seen. -/
theorem Client.Heads.parse_endSeen (h : Heads ctx heads final msg) {before : Nat} {buf later rest : Bytes}
    (empty : CacheEmpty ctx.cachedHeaders) (stream : buf ++ later = headBytes heads ++ (final ++ rest))
    (seen : (headBytes heads).length < before →
      isCompleteFast (buf.drop (headBytes heads).length) (before - (headBytes heads).length) = true) :
    (EndSeen (headBytes heads).length final before buf ∧ ∃ more, more ++ later = rest ∧
      Client.parse ctx buf = (.ok (some msg), { buf := more, cachedHeaders := none, informed := told ctx heads })) ∨
    ¬ EndSeen (headBytes heads).length final before buf ∧
      ∃ done todo front kept, heads = done ++ todo ∧ buf = headBytes done ++ front ∧
        (todo ≠ [] → front.length < (nextHead todo final).length) ∧ CacheEmpty kept ∧
        Client.parse ctx buf = (.ok none, { buf := front, cachedHeaders := kept, informed := told ctx done }) := by
  obtain ⟨all, found⟩ | ⟨part, done, todo, front, kept, split, cover, short, none, res⟩ := h.parse empty stream
  · exact .inl ⟨⟨all, seen⟩, found⟩
  · refine .inr ⟨?_, done, todo, front, kept, split, cover, fun _ => short, none, res⟩
    rintro ⟨all, -⟩
    omega

/-- The scan that begins in an informational head does not miss its end. -/
theorem Client.Heads.short_of_hidden (h : Heads ctx heads final msg) {p : Nat} {buf later rest : Bytes}
    (stream : buf ++ later = headBytes heads ++ (final ++ rest)) (some : heads ≠ [])
    (inNext : p < (nextHead heads final).length) (hidden : isCompleteFast buf p = false) :
    buf.length < (nextHead heads final).length := by
  obtain ⟨head, heads, rfl⟩ := List.exists_cons_of_ne_nil some
  rw [headBytes_cons, List.append_assoc] at stream
  obtain ⟨more, rfl, -⟩ | ⟨-, short⟩ := covers_or_short stream
  · have ends := (h.informational head List.mem_cons_self).ends
    rw [isCompleteFast_of_known (.inl ends) inNext] at hidden
    cases hidden
  · exact short

/-- Of the heads, `parse_headers` takes what the parser would, unless it does not see the end of the final one. -/
theorem Client.Heads.parseHeaders (h : Heads ctx heads final msg) {prevLen : Option Nat} {buf later rest : Bytes}
    (empty : CacheEmpty ctx.cachedHeaders) (stream : buf ++ later = headBytes heads ++ (final ++ rest))
    (marked : ∀ p, prevLen = some p → 0 < p ∧ (heads ≠ [] → p < (nextHead heads final).length)) :
    (EndSeen (headBytes heads).length final (prevLen.getD 0) buf ∧
      ∃ more, more ++ later = rest ∧ Http1.parseHeaders buf prevLen ctx =
        (.ok (some msg), { buf := more, cachedHeaders := none, informed := told ctx heads })) ∨
    ¬ EndSeen (headBytes heads).length final (prevLen.getD 0) buf ∧
      ∃ done todo front kept, heads = done ++ todo ∧ buf = headBytes done ++ front ∧
        (todo ≠ [] → front.length < (nextHead todo final).length) ∧ CacheEmpty kept ∧
        Http1.parseHeaders buf prevLen ctx =
          (.ok none, { buf := front, cachedHeaders := kept, informed := told ctx done }) := by
  by_cases none : buf = []
  · have pos := List.length_pos_iff.mpr h.final.nonempty
    have nextPos := List.length_pos_iff.mpr h.next.nonempty
    refine .inr ⟨?_, [], heads, [], ctx.cachedHeaders, rfl, none, fun _ => nextPos, empty, ?_⟩
    · rintro ⟨all, -⟩
      rw [none, List.length_nil] at all
      omega
    · unfold Http1.parseHeaders
      rw [if_pos none, none, told_nil]
  unfold Http1.parseHeaders
  rw [if_neg none]
  cases prevLen with
  | none => exact h.parse_endSeen empty stream fun behind => absurd behind (Nat.not_lt_zero _)
  | some p =>
    obtain ⟨pos, inNext⟩ := marked p rfl
    dsimp only [Option.getD_some]
    cases seen : isCompleteFast buf p with
    | true =>
      apply h.parse_endSeen empty stream
      intro behind
      -- The mark lies in the first head, so that one is the final one.
      cases heads with
      | nil => exact seen
      | cons head heads =>
        have inFirst : p < head.1.length := inNext (List.cons_ne_nil _ _)
        rw [headBytes_cons, List.length_append] at behind
        omega
    | false =>
      have short (some : heads ≠ []) := h.short_of_hidden stream some (inNext some) seen
      refine .inr ⟨?_, [], heads, buf, ctx.cachedHeaders, rfl, rfl, short, empty, ?_⟩
      · rintro ⟨all, behind⟩
        cases heads with
        | nil =>
          have found := behind pos
          change isCompleteFast buf p = true at found
          rw [seen] at found
          cases found
        | cons head heads =>
          have inFirst := short (List.cons_ne_nil _ _)
          have most := nextHead_length_le (head :: heads) final
          omega
      · rw [told_nil]
        rfl

namespace Buffered

variable {b : Buffered (EncodedBuf Bytes)} {rest : Bytes} {stalls : Nat}

/-- Before a call of `parse`: the heads are to come, and what is marked as read of them lies in the first one, unless only
the final one is left. -/
structure Awaits (ctx : ParseContext) (heads : List (Bytes × ResponseHead)) (final rest : Bytes)
    (b : Buffered (EncodedBuf Bytes)) (stalls : Nat) : Prop where
  empty : CacheEmpty ctx.cachedHeaders
  fed : b.Fed (headBytes heads ++ (final ++ rest)) stalls
  marked : ∀ p, b.partialLen = some p →
    0 < p ∧ p ≤ b.readBuf.length ∧ (heads ≠ [] → p < (nextHead heads final).length)
  small : ∀ head ∈ heads, head.1.length < b.readBufStrategy.max

/-- The reads show the end of the final head. -/
def Shows (heads : List (Bytes × ResponseHead)) (final : Bytes) (b : Buffered (EncodedBuf Bytes)) : Prop :=
  Shown (headBytes heads).length final b.readBufStrategy.max (b.partialLen.getD 0) b.readBuf (b.io.reads.map ReadEvent.bytes)

/-- The final head is returned, the callback was told of the heads before it, and the bytes behind it are left. -/
def Returns (ctx : ParseContext) (heads : List (Bytes × ResponseHead)) (msg : ParsedMessage) (rest : Bytes)
    (informed : List ResponseHead) (run : HeadParse) : Prop :=
  run.res = .ready (.ok msg) ∧ run.informed = informed ++ told ctx heads ∧ ∃ stalls, run.io.Fed rest stalls

def Fails (run : HeadParse) : Prop := ∃ e, run.res = .ready (.error e)

/-- A call is pending, with some of the heads done. -/
def Stalls (ctx : ParseContext) (heads : List (Bytes × ResponseHead)) (final rest : Bytes) (stalls : Nat) (shows : Prop)
    (informed : List ResponseHead) (run : HeadParse) : Prop :=
  run.res = .pending ∧ ∃ done todo stalls', heads = done ++ todo ∧ run.informed = informed ++ told ctx done ∧
    stalls' < stalls ∧ Awaits { ctx with cachedHeaders := run.cachedHeaders } todo final rest run.io stalls' ∧
    (run.io.Shows todo final ↔ shows)

/-- How a call ends. -/
def Answers (ctx : ParseContext) (heads : List (Bytes × ResponseHead)) (final : Bytes) (msg : ParsedMessage) (rest : Bytes)
    (stalls : Nat) (shows : Prop) (informed : List ResponseHead) (run : HeadParse) : Prop :=
  shows ∧ Returns ctx heads msg rest informed run ∨ ¬ shows ∧ Fails run ∨
    Stalls ctx heads final rest stalls shows informed run

omit [Httparse] in
/-- The heads that are done go before the others. -/
theorem Answers.behind {done todo : List (Bytes × ResponseHead)} {kept : Option HeaderMap} {shows shows' : Prop}
    {informed : List ResponseHead} {run : HeadParse}
    (h : Answers { ctx with cachedHeaders := kept } todo final msg rest stalls shows' (informed ++ told ctx done) run)
    (same : shows' ↔ shows) : Answers ctx (done ++ todo) final msg rest stalls shows informed run := by
  obtain ⟨shown, res, told, left⟩ | ⟨hidden, fails⟩ | ⟨res, done', todo', stalls', rfl, told, fewer, awaits, same'⟩ := h
  · refine .inl ⟨same.mp shown, res, ?_, left⟩
    rw [told, told_append, List.append_assoc]
    rfl
  · exact .inr (.inl ⟨fun shown => hidden (same.mpr shown), fails⟩)
  · refine .inr (.inr ⟨res, done ++ done', todo', stalls', ?_, ?_, fewer, awaits, same'.trans same⟩)
    · rw [List.append_assoc]
    · rw [told, told_append, List.append_assoc]
      rfl

/-- What is left in the buffer is marked as read. -/
def waiting (b : Buffered (EncodedBuf Bytes)) (front : Bytes) : Buffered (EncodedBuf Bytes) :=
  { b with readBuf := front, partialLen := if front.length > 0 then some front.length else none }

omit [Httparse] in
theorem waiting_mark (b : Buffered (EncodedBuf Bytes)) (front : Bytes) : (b.waiting front).partialLen.getD 0 = front.length := by
  unfold waiting
  dsimp only
  split
  · rfl
  · next none => exact (Nat.eq_zero_of_not_pos none).symm

omit [Httparse] in
theorem Awaits.mark_le (awaits : Awaits ctx heads final rest b stalls) : b.partialLen.getD 0 ≤ b.readBuf.length := by
  cases mark : b.partialLen with
  | none => exact Nat.zero_le _
  | some p =>
    obtain ⟨-, inside, -⟩ := awaits.marked p mark
    exact inside

omit [Httparse] in
theorem Awaits.waiting {done todo : List (Bytes × ResponseHead)} {front : Bytes} {kept : Option HeaderMap}
    (awaits : Awaits ctx (done ++ todo) final rest b stalls) (cover : b.readBuf = headBytes done ++ front)
    (short : todo ≠ [] → front.length < (nextHead todo final).length) (empty : CacheEmpty kept) :
    Awaits { ctx with cachedHeaders := kept } todo final rest (b.waiting front) stalls := by
  obtain ⟨later, feeds, stream⟩ := awaits.fed.script
  refine ⟨empty, ⟨awaits.fed.open_, later, feeds, ?_⟩, ?_, ?_⟩
  · rw [cover, headBytes_append, List.append_assoc, List.append_assoc] at stream
    exact List.append_cancel_left stream
  · intro p same
    unfold Buffered.waiting at same
    dsimp only at same
    split at same
    · next pos =>
      cases same
      exact ⟨pos, Nat.le_refl _, short⟩
    · cases same
  · intro head member
    exact awaits.small head (List.mem_append_right done member)

omit [Httparse] in
/-- After a read, the heads that are left show what all of them show. -/
theorem shows_of_read {done todo : List (Bytes × ResponseHead)} {front : Bytes} {ev : ReadEvent} {evs : List ReadEvent}
    {b' : Buffered (EncodedBuf Bytes)}
    (hidden : ¬ EndSeen (headBytes (done ++ todo)).length final (b.partialLen.getD 0) b.readBuf)
    (cover : b.readBuf = headBytes done ++ front) (room : front.length < b.readBufStrategy.max)
    (script : b.io.reads = ev :: evs) (reads : b'.io.reads = evs) (buf : b'.readBuf = front ++ ev.bytes)
    (mark : b'.partialLen = (b.waiting front).partialLen) (max : b'.readBufStrategy.max = b.readBufStrategy.max) :
    b'.Shows todo final ↔ b.Shows (done ++ todo) final := by
  unfold Shows
  rw [script, List.map_cons, Shown, or_iff_right hidden, cover, headBytes_append, List.length_append, List.length_append,
    List.append_assoc, shown_append, and_iff_right (by omega), reads, buf, mark, max, waiting_mark]

omit [Httparse] in
theorem Awaits.not_shows_of_full {done todo : List (Bytes × ResponseHead)} {front : Bytes}
    (awaits : Awaits ctx (done ++ todo) final rest b stalls)
    (hidden : ¬ EndSeen (headBytes (done ++ todo)).length final (b.partialLen.getD 0) b.readBuf)
    (cover : b.readBuf = headBytes done ++ front) (short : todo ≠ [] → front.length < (nextHead todo final).length)
    (full : front.length ≥ b.readBufStrategy.max) : ¬ b.Shows (done ++ todo) final := by
  unfold Shows
  cases todo with
  | nil =>
    cases b.io.reads.map ReadEvent.bytes with
    | nil => exact hidden
    | cons piece pieces =>
      rw [Shown, or_iff_right hidden]
      rintro ⟨room, -⟩
      rw [cover, List.append_nil, List.length_append] at room
      omega
  | cons head todo =>
    have small := awaits.small head (List.mem_append_right done List.mem_cons_self)
    have short := short (List.cons_ne_nil _ _)
    change front.length < head.1.length at short
    omega

omit [Httparse] in
theorem Awaits.read {b' : Buffered (EncodedBuf Bytes)} {stalls' : Nat} {more : Bytes}
    (awaits : Awaits ctx heads final rest b stalls) (buf : b'.readBuf = b.readBuf ++ more)
    (mark : b'.partialLen = b.partialLen) (max : b'.readBufStrategy.max = b.readBufStrategy.max)
    (fed : b'.Fed (headBytes heads ++ (final ++ rest)) stalls') : Awaits ctx heads final rest b' stalls' := by
  refine ⟨awaits.empty, fed, ?_, ?_⟩
  · intro p same
    obtain ⟨pos, inside, inNext⟩ := awaits.marked p (mark ▸ same)
    rw [buf, List.length_append]
    exact ⟨pos, Nat.le_add_right_of_le inside, inNext⟩
  · rw [max]
    exact awaits.small

/-- In a call, the final head is returned where its end is shown. Else the call fails, or it is pending and nothing is
lost. -/
theorem Awaits.parseLoop (h : Heads ctx heads final msg) (awaits : Awaits ctx heads final rest b stalls) {fuel : Nat}
    (enough : b.io.reads.length < fuel) (informed : List ResponseHead) :
    Answers ctx heads final msg rest stalls (b.Shows heads final) informed (b.parseLoop fuel ctx informed) := by
  induction fuel generalizing ctx heads b informed with
  | zero => omega
  | succ fuel ih =>
    obtain ⟨later, feeds, stream⟩ := awaits.fed.script
    have inFirst : ∀ p, b.partialLen = some p → 0 < p ∧ (heads ≠ [] → p < (nextHead heads final).length) := by
      intro p same
      obtain ⟨pos, -, inNext⟩ := awaits.marked p same
      exact ⟨pos, inNext⟩
    rw [Buffered.parseLoop]
    obtain ⟨seen, more, left, res⟩ | ⟨hidden, done, todo, front, kept, rfl, cover, short, empty, res⟩ :=
      h.parseHeaders awaits.empty stream.symm inFirst
    · rw [res]
      refine .inl ⟨?_, rfl, rfl, stalls, awaits.fed.open_, later, feeds, left.symm⟩
      unfold Shows
      cases b.io.reads.map ReadEvent.bytes with
      | nil => exact seen
      | cons piece pieces => exact .inl seen
    · rw [res]
      dsimp only
      by_cases full : front.length ≥ b.readBufStrategy.max
      · rw [if_pos full]
        exact .inr (.inl ⟨awaits.not_shows_of_full hidden cover short full, _, rfl⟩)
      rw [if_neg full]
      have room := Nat.lt_of_not_ge full
      have next := awaits.waiting cover short empty
      generalize marked : ({ b with readBuf := front, partialLen := if front.length > 0 then some front.length else none } :
        Buffered (EncodedBuf Bytes)) = b₁
      obtain rfl : b.waiting front = b₁ := marked
      obtain ⟨script, -, b', read⟩ | ⟨evs, stalls', b', script, fewer, read, reads, buf, mark, max, fed⟩ |
        ⟨piece, evs, b', script, ne, read, reads, buf, mark, max, fed⟩ := pollReadFromIo_fed next.fed
      · rw [read]
        refine .inr (.inl ⟨?_, _, rfl⟩)
        unfold Shows
        change b.io.reads = _ at script
        rw [script]
        exact fun shown => hidden ((shown_nil awaits.mark_le).mp shown)
      · rw [read]
        have same : b'.readBuf = (b.waiting front).readBuf ++ ReadEvent.pending.bytes := by
          rw [buf]
          exact (List.append_nil _).symm
        have shows := shows_of_read hidden cover room script reads same mark max
        exact .inr (.inr ⟨rfl, done, todo, stalls', rfl, rfl, fewer, next.read same mark max fed, shows⟩)
      · rw [read]
        dsimp only
        rw [if_neg (fun zero => ne (List.length_eq_zero_iff.mp zero))]
        have shows := shows_of_read hidden cover room script reads buf mark max
        have fuel' : b'.io.reads.length < fuel := by
          change b.io.reads = _ at script
          rw [script, List.length_cons] at enough
          rw [reads]
          omega
        exact (ih (h.later.keeping kept) (next.read buf mark max fed) fuel' (informed ++ told ctx done)).behind shows

theorem Awaits.parse (h : Heads ctx heads final msg) (awaits : Awaits ctx heads final rest b stalls) :
    Answers ctx heads final msg rest stalls (b.Shows heads final) [] (b.parse ctx) :=
  awaits.parseLoop h (Nat.lt_succ_self _) []

/-- `parse` called again while it is pending, with the cached map that the call before has left. -/
def parses : Nat → ParseContext → Buffered (EncodedBuf Bytes) → HeadParse
  | 0, ctx, b => ⟨.pending, ctx.cachedHeaders, [], b⟩
  | calls + 1, ctx, b =>
    let first := b.parse ctx
    match first.res with
    | .pending =>
      let later := parses calls { ctx with cachedHeaders := first.cachedHeaders } first.io
      { later with informed := first.informed ++ later.informed }
    | .ready _ => first

theorem Awaits.parses (h : Heads ctx heads final msg) (awaits : Awaits ctx heads final rest b stalls) {calls : Nat}
    (enough : stalls < calls) :
    b.Shows heads final ∧ Returns ctx heads msg rest [] (b.parses calls ctx) ∨
    ¬ b.Shows heads final ∧ Fails (b.parses calls ctx) := by
  induction calls generalizing ctx heads b stalls with
  | zero => omega
  | succ calls ih =>
    rw [Buffered.parses]
    obtain ⟨shown, res, told, left⟩ | ⟨not, e, fails⟩ | ⟨res, done, todo, stalls', rfl, told, fewer, awaits', same⟩ :=
      awaits.parse h
    · refine .inl ⟨shown, ?_⟩
      rw [res]
      exact ⟨res, told, left⟩
    · refine .inr ⟨not, ?_⟩
      rw [fails]
      exact ⟨e, fails⟩
    · rw [res]
      dsimp only
      obtain ⟨shown, res', told', left⟩ | ⟨not, fails⟩ := ih (h.later.keeping _) awaits' (by omega)
      · refine .inl ⟨same.mp shown, res', ?_, left⟩
        rw [told, told', told_append]
        rfl
      · exact .inr ⟨fun shown => not (same.mpr shown), fails⟩

/-- Behind any informational heads and in any pieces, the final head is returned exactly where the reads show its end. If it
ends in CR LF CR LF or in LF LF, they do. -/
theorem parses_returns_iff (h : Heads ctx heads final msg) (empty : CacheEmpty ctx.cachedHeaders)
    (fresh : b.partialLen = none) (small : ∀ head ∈ heads, head.1.length < b.readBufStrategy.max)
    (smallFinal : final.length < b.readBufStrategy.max) (fed : b.Fed (headBytes heads ++ (final ++ rest)) stalls)
    {calls : Nat} (enough : stalls < calls) :
    (Returns ctx heads msg rest [] (b.parses calls ctx) ↔ b.Shows heads final) ∧
      (EndKnown final → b.Shows heads final) := by
  have unmarked : ∀ p, b.partialLen = some p →
      0 < p ∧ p ≤ b.readBuf.length ∧ (heads ≠ [] → p < (nextHead heads final).length) := by
    intro p mark
    rw [fresh] at mark
    cases mark
  have run := Awaits.parses h ⟨empty, fed, unmarked, small⟩ enough
  constructor
  · obtain ⟨shown, returns⟩ | ⟨hidden, e, fails⟩ := run
    · exact ⟨fun _ => shown, fun _ => returns⟩
    · refine ⟨?_, fun shown => absurd shown hidden⟩
      rintro ⟨res, -⟩
      rw [fails] at res
      cases res
  · intro known
    have pos := List.length_pos_iff.mpr h.final.nonempty
    unfold Shows
    rw [fresh]
    apply shown_of_known known smallFinal
    · exact Nat.lt_add_left _ pos
    · obtain ⟨later, feeds, stream⟩ := fed.script
      rw [← List.flatMap_def, feeds.flatMap_bytes, List.append_assoc]
      exact stream.symm

end Buffered

end

/-! ### Early hints -/

/-- A parser that knows two heads, whatever follows them. -/
@[reducible] def twoHeads (early final : Bytes) (a c : RawResponse) : Httparse where
  parseResponse _ bytes _ :=
    if early.isPrefixOf bytes then .ok (some a) else if final.isPrefixOf bytes then .ok (some c) else .ok none
  parseHeaders _ _ := .ok none
  canonicalReason code := if code = 103 then some (ascii "Early Hints") else some (ascii "No Content")

section
variable {early final : Bytes} {a c : RawResponse} {ctx : ParseContext}

theorem twoHeads_cut {front : Bytes} (noEarly : ¬ early <+: front) (noFinal : ¬ final <+: front) :
    @Waits (twoHeads early final a c) ctx front := by
  rw [← List.isPrefixOf_iff_prefix] at noEarly noFinal
  show (if early.isPrefixOf front = true then _ else if final.isPrefixOf front = true then _ else _) = _
  rw [if_neg noEarly, if_neg noFinal]

theorem twoHeads_early (nonempty : early ≠ []) (length : a.len = early.length) (apart : ¬ final <+: early) :
    @HeadBytes (twoHeads early final a c) ctx early := by
  refine @HeadBytes.mk (twoHeads early final a c) _ _ nonempty ⟨a, length, ?_⟩ ?_
  · intro more
    exact if_pos (List.isPrefixOf_iff_prefix.mpr (List.prefix_append early more))
  · intro front part proper
    apply twoHeads_cut
    · exact fun whole => proper (part.eq_of_length_le whole.length_le)
    · exact fun other => apart (other.trans part)

theorem twoHeads_final (nonempty : final ≠ []) (length : c.len = final.length) (apart : ¬ final <+: early)
    (apart' : ¬ early <+: final) : @HeadBytes (twoHeads early final a c) ctx final := by
  refine @HeadBytes.mk (twoHeads early final a c) _ _ nonempty ⟨c, length, ?_⟩ ?_
  · intro more
    have other : ¬ early <+: final ++ more := fun other =>
      (List.prefix_or_prefix_of_prefix other (List.prefix_append final more)).elim apart' apart
    rw [← List.isPrefixOf_iff_prefix] at other
    show (if early.isPrefixOf (final ++ more) = true then _ else if final.isPrefixOf (final ++ more) = true then _ else _) = _
    rw [if_neg other]
    exact if_pos (List.isPrefixOf_iff_prefix.mpr (List.prefix_append final more))
  · intro front part proper
    apply twoHeads_cut
    · exact fun other => apart' (other.trans part)
    · exact fun whole => proper (part.eq_of_length_le whole.length_le)

end

def earlyHints : Bytes := ascii "HTTP/1.1 103 Early Hints\r\nlink: a\r\n\r\n"

/-- The hints, and a final head without content. -/
@[reducible] def hinting (final : Bytes) (headers : List HeaderIndices) : Httparse :=
  twoHeads earlyHints final
    { len := 37, version := 1, code := 103, reason := ascii "Early Hints", headers := [⟨(26, 30), (32, 33)⟩] }
    { len := final.length, version := 1, code := 204, reason := ascii "No Content", headers }

/-- A head that was skipped and given to the callback, with nothing left. -/
def skippedHead : Except Parse (Option ParsedMessage) × ParseState → Option ResponseHead
  | (.ok none, ⟨[], none, [head]⟩) => some head
  | _ => none

theorem skippedHead_eq_some {res : Except Parse (Option ParsedMessage) × ParseState} {head : ResponseHead}
    (h : skippedHead res = some head) : res = (.ok none, { buf := [], cachedHeaders := none, informed := [head] }) := by
  unfold skippedHead at h
  split at h
  · cases h
    rfl
  · cases h

/-- The parser takes the hints whatever final head it knows. -/
theorem hinting_skips (final : Bytes) (headers : List HeaderIndices) :
    ∃ head ∈ skippedHead (@Client.parse (hinting final headers) { onInformational := true } earlyHints),
      head.subject = 103 ∧ head.headers.entries.length = 1 := ⟨_, rfl, rfl, rfl⟩

theorem hinting_heads {final : Bytes} {headers : List HeaderIndices} {head : ResponseHead} {msg : ParsedMessage}
    (nonempty : final ≠ []) (apart : ¬ final <+: earlyHints) (apart' : ¬ earlyHints <+: final)
    (skipped : skippedHead (@Client.parse (hinting final headers) { onInformational := true } earlyHints) = some head)
    (returned : parsedMessage (@Client.parse (hinting final headers) { onInformational := true } final) = some msg) :
    @Heads (hinting final headers) { onInformational := true } [(earlyHints, head)] final msg := by
  refine @Heads.mk (hinting final headers) _ _ _ _ ?_ ?_
  · intro one member
    obtain rfl := List.mem_singleton.mp member
    have bytes : @HeadBytes (hinting final headers) { onInformational := true } earlyHints :=
      twoHeads_early (by decide +kernel) (by decide +kernel) apart
    have ends : [CR, LF, CR, LF] <:+ earlyHints := by decide +kernel
    exact @InformationalHead.mk (hinting final headers) _ _ _ bytes ends (skippedHead_eq_some skipped)
  · have bytes : @HeadBytes (hinting final headers) { onInformational := true } final :=
      twoHeads_final nonempty rfl apart apart'
    exact @FinalHead.mk (hinting final headers) _ _ _ bytes (congrArg Prod.fst (parsedMessage_eq_some returned))

/-- The hints are cut before their last byte and the final head before its last, and a read is pending. -/
def hintCuts : List (Option Bytes) :=
  [some (earlyHints.take 36), none, some (earlyHints.drop 36 ++ crlfHead.take 26), some (crlfHead.drop 26 ++ ascii "later")]

theorem parses_returns_hinted :
    ∃ head msg, head.subject = 103 ∧ head.headers.entries.length = 1 ∧ msg.head.subject = 204 ∧ msg.head.headers = .empty ∧
      @Buffered.Returns { onInformational := true } [(earlyHints, head)] msg (ascii "later") []
        (@Buffered.parses (hinting crlfHead []) 2 { onInformational := true } (.ofCuts [] hintCuts)) := by
  have returns : ∃ msg ∈ parsedMessage (@Client.parse (hinting crlfHead []) { onInformational := true } crlfHead),
      msg.head.subject = 204 ∧ msg.head.headers = .empty := by decide +kernel
  obtain ⟨head, skipped, early, link⟩ := hinting_skips crlfHead []
  obtain ⟨msg, returned, final, empty⟩ := returns
  have heads := hinting_heads (by decide +kernel) (by decide +kernel) (by decide +kernel) skipped returned
  have fed : (.ofCuts [] hintCuts : Buffered (EncodedBuf Bytes)).Fed
      (headBytes [(earlyHints, head)] ++ (crlfHead ++ ascii "later")) 1 := by
    have pieces := @Buffered.ofCuts_fed (EncodedBuf Bytes) [] hintCuts (by decide +kernel)
    rwa [show [] ++ Buffered.cutBytes hintCuts = earlyHints ++ (crlfHead ++ ascii "later") by decide +kernel] at pieces
  have run := @Buffered.parses_returns_iff (hinting crlfHead []) _ _ _ _ _ _ _ heads rfl rfl ?_ ?_ fed 2 (by decide)
  · exact ⟨head, msg, early, link, final, empty, run.1.mpr (run.2 (.inl (by decide +kernel)))⟩
  · intro one member
    obtain rfl := List.mem_singleton.mp member
    show earlyHints.length < _
    decide +kernel
  · decide +kernel

/-- The final head has lines that end in a bare LF, and its empty line comes with a read of its own. -/
def bareCuts : List (Option Bytes) := [some (earlyHints ++ bareHead.take 29), some (bareHead.drop 29)]

/-- Every head is accepted by itself, all of them come, and the final one is not returned. -/
theorem parses_hides_bare :
    ∃ head msg,
      @Heads (hinting bareHead [⟨(24, 25), (27, 28)⟩]) { onInformational := true } [(earlyHints, head)] bareHead msg ∧
      (.ofCuts [] bareCuts : Buffered (EncodedBuf Bytes)).Fed (headBytes [(earlyHints, head)] ++ (bareHead ++ [])) 0 ∧
      earlyHints.length < DEFAULT_MAX_BUFFER_SIZE ∧ bareHead.length < DEFAULT_MAX_BUFFER_SIZE ∧
      ¬ @Buffered.Returns { onInformational := true } [(earlyHints, head)] msg [] []
        (@Buffered.parses (hinting bareHead [⟨(24, 25), (27, 28)⟩]) 1 { onInformational := true } (.ofCuts [] bareCuts)) := by
  have returns : ∃ msg ∈ parsedMessage (@Client.parse (hinting bareHead [⟨(24, 25), (27, 28)⟩]) { onInformational := true }
      bareHead), msg.head.subject = 204 := by decide +kernel
  have hidden : (@Buffered.parses (hinting bareHead [⟨(24, 25), (27, 28)⟩]) 1 { onInformational := true }
      (.ofCuts [] bareCuts)).completed = none := by decide +kernel
  obtain ⟨head, skipped, -⟩ := hinting_skips bareHead [⟨(24, 25), (27, 28)⟩]
  obtain ⟨msg, returned, -⟩ := returns
  have heads := hinting_heads (by decide +kernel) (by decide +kernel) (by decide +kernel) skipped returned
  have pieces := @Buffered.ofCuts_fed (EncodedBuf Bytes) [] bareCuts (by decide +kernel)
  rw [show [] ++ Buffered.cutBytes bareCuts = earlyHints ++ (bareHead ++ []) by decide +kernel] at pieces
  refine ⟨head, msg, heads, pieces, by decide +kernel, by decide +kernel, ?_⟩
  rintro ⟨res, -⟩
  rw [HeadParse.completed, res] at hidden
  cases hidden

end Hwire.Http1
