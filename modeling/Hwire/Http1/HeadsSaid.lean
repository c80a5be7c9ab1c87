import Hwire.Http1.Informational
import Hwire.Http1.Unread

/-!
# What heads say

The final head of a response as its bytes have it, field for field, wherever the reads cut them: the parser has seen it at
the front of some buffer, behind informational heads. The map that is kept between heads is empty when it is used.
-/

namespace Hwire.Http1
open Lib Client

variable [Httparse]

/-- The message that stands at the front of `text`, and what follows its head. -/
inductive HeadSaid (ctx : ParseContext) (text : Bytes) (msg : ParsedMessage) : Bytes → Prop where
  | found {buf later : Bytes} {len : Nat} {reason : Option Bytes} {version : Version} {indices : List HeaderIndices}
      {flag : Bool} (skips : Skips ctx text (buf ++ later))
      (raw : parseRaw ctx buf = .ok (some (len, msg.head.subject, reason, version, indices)))
      (fields : Client.readHead ctx (buf.take len) msg.head.subject reason version indices = .ok (flag, msg.head))
      (decided : decoder msg.head ctx.reqMethod = .ok (some (msg.decode, msg.wantsUpgrade)))
      (keepAlive : msg.keepAlive = (flag && !msg.wantsUpgrade)) : HeadSaid ctx text msg (buf.drop len ++ later)

theorem HeadSaid.skip {ctx : ParseContext} {bytes text after : Bytes} {msg : ParsedMessage} (skips : Skips ctx bytes text)
    (h : HeadSaid ctx text msg after) : HeadSaid ctx bytes msg after := by
  cases h with
  | found before raw fields decided keepAlive => exact .found (skips.trans before) raw fields decided keepAlive

theorem HeadSaid.append {ctx : ParseContext} {text after : Bytes} {msg : ParsedMessage} (h : HeadSaid ctx text msg after)
    (more : Bytes) : HeadSaid ctx (text ++ more) msg (after ++ more) := by
  cases h with
  | found before raw fields decided keepAlive =>
    have before := before.append more
    rw [List.append_assoc] at before ⊢
    exact .found before raw fields decided keepAlive

theorem HeadSaid.recached {ctx : ParseContext} {cachedHeaders : Option HeaderMap} {text after : Bytes}
    {msg : ParsedMessage} (h : HeadSaid { ctx with cachedHeaders } text msg after) : HeadSaid ctx text msg after := by
  cases h with
  | found before raw fields decided keepAlive => exact .found before.recached raw fields decided keepAlive

namespace Client

theorem parseRound_said {ctx : ParseContext} {s s' : ParseState} {msg : ParsedMessage} (empty : CacheEmpty s.cachedHeaders)
    (h : parseRound ctx s = .inl (.ok (some msg), s')) : HeadSaid ctx s.buf msg s'.buf := by
  unfold parseRound at h
  split at h
  · cases h
  · cases h
  next len status reason version indices raw =>
  dsimp only at h
  rw [show s.cachedHeaders.getD .empty = .empty from empty] at h
  split at h
  · cases h
  next flag headers folded =>
  split at h
  · cases h
  · next decided =>
    cases h
    show HeadSaid ctx s.buf _ (s.buf.drop len)
    rw [← List.append_nil (s.buf.drop len)]
    refine .found ?_ raw ?_ decided rfl
    · rw [List.append_nil]
      exact .none _
    · unfold Client.readHead
      dsimp only
      rw [folded]
      rfl
  · split at h
    · cases h
    · cases h

theorem parseRound_empty {ctx : ParseContext} {s s' : ParseState} {res : Except Parse (Option ParsedMessage)}
    (empty : CacheEmpty s.cachedHeaders) (h : parseRound ctx s = .inl (res, s')) : CacheEmpty s'.cachedHeaders := by
  unfold parseRound at h
  split at h
  · cases h
    exact empty
  · cases h
    exact empty
  dsimp only at h
  split at h
  · cases h
    rfl
  split at h
  · cases h
    rfl
  · cases h
    rfl
  · split at h
    · cases h
      rfl
    · cases h

theorem parseLoop_empty {ctx : ParseContext} {fuel : Nat} {s s' : ParseState} {res : Except Parse (Option ParsedMessage)}
    (empty : CacheEmpty s.cachedHeaders) (h : parseLoop ctx fuel s = (res, s')) : CacheEmpty s'.cachedHeaders := by
  induction fuel generalizing s with
  | zero =>
    cases h
    exact empty
  | succ fuel ih =>
    rw [parseLoop] at h
    split at h
    · next round =>
      subst h
      exact parseRound_empty empty round
    · next round => exact ih (parseRound_cache round) h

theorem parseLoop_said {ctx : ParseContext} {fuel : Nat} {s s' : ParseState} {msg : ParsedMessage}
    (empty : CacheEmpty s.cachedHeaders) (h : parseLoop ctx fuel s = (.ok (some msg), s')) :
    HeadSaid ctx s.buf msg s'.buf := by
  induction fuel generalizing s with
  | zero => cases h
  | succ fuel ih =>
    rw [parseLoop] at h
    split at h
    · next round =>
      subst h
      exact parseRound_said empty round
    · next round => exact (ih (parseRound_cache round) h).skip (parseRound_skips round)

end Client

theorem parseHeaders_empty {bytes : Bytes} {prevLen : Option Nat} {ctx : ParseContext} (empty : CacheEmpty ctx.cachedHeaders) :
    CacheEmpty (parseHeaders bytes prevLen ctx).2.cachedHeaders := by
  unfold parseHeaders
  split
  · exact empty
  split
  · split
    · exact empty
    · exact parseLoop_empty empty rfl
  · exact parseLoop_empty empty rfl

theorem parseHeaders_said {bytes : Bytes} {prevLen : Option Nat} {ctx : ParseContext} {s : ParseState} {msg : ParsedMessage}
    (empty : CacheEmpty ctx.cachedHeaders) (h : parseHeaders bytes prevLen ctx = (.ok (some msg), s)) :
    HeadSaid ctx bytes msg s.buf := by
  unfold parseHeaders at h
  split at h
  · cases h
  split at h
  · split at h
    · cases h
    · exact parseLoop_said empty h
  · exact parseLoop_said empty h

/-- The same for the loop of `Buffered::parse`, over everything that is unread. -/
structure HeadParse.Said (ctx : ParseContext) (unread : Bytes) (h : HeadParse) : Prop where
  empty : CacheEmpty h.cachedHeaders
  head : ∀ msg, h.res = .ready (.ok msg) → HeadSaid ctx unread msg h.io.unread

theorem Buffered.parseLoop_said {fuel : Nat} {ctx : ParseContext} {informed : List ResponseHead}
    {b : Buffered (EncodedBuf Bytes)} (empty : CacheEmpty ctx.cachedHeaders) :
    (b.parseLoop fuel ctx informed).Said ctx b.unread := by
  induction fuel generalizing ctx informed b with
  | zero => exact ⟨empty, fun _ found => by cases found⟩
  | succ fuel ih =>
    rw [Buffered.parseLoop]
    have kept := @parseHeaders_empty _ b.readBuf b.partialLen _ empty
    cases round : parseHeaders b.readBuf b.partialLen ctx with
    | mk res s =>
      rw [round] at kept
      cases res with
      | error e => exact ⟨kept, fun _ found => by cases found⟩
      | ok found =>
        cases found with
        | some msg =>
          refine ⟨kept, ?_⟩
          intro msg' same
          cases same
          exact (parseHeaders_said empty round).append _
        | none =>
          have skips := ((parseHeaders_parsed round).skips rfl).append (b.io.reads.flatMap ReadEvent.bytes)
          dsimp only
          split
          · exact ⟨kept, fun _ found => by cases found⟩
          generalize marked : ({ b with readBuf := s.buf, partialLen := if s.buf.length > 0 then some s.buf.length else none } :
            Buffered (EncodedBuf Bytes)) = b₁
          have moved : b₁.pollReadFromIo.2.unread = s.buf ++ b.io.reads.flatMap ReadEvent.bytes := by
            rw [pollReadFromIo_unread, ← marked]
            rfl
          rw [← moved] at skips
          cases read : b₁.pollReadFromIo with
          | mk res b₂ =>
            rw [read] at skips
            cases res with
            | pending => exact ⟨kept, fun _ found => by cases found⟩
            | ready res =>
              cases res with
              | error e => exact ⟨kept, fun _ found => by cases found⟩
              | ok n =>
                by_cases eof : n = 0
                · simp only [eof, if_true]
                  exact ⟨kept, fun _ found => by cases found⟩
                · simp only [eof, if_false]
                  have later := @ih { ctx with cachedHeaders := s.cachedHeaders } (informed ++ s.informed) b₂ kept
                  refine ⟨later.empty, ?_⟩
                  intro msg found
                  exact (later.head msg found).recached.skip skips

end Hwire.Http1
