import Hwire.Http1.Uploads
import Hwire.Http1.Wire

/-!
# From the caller to the recipient

Whoever reads the bytes of a connection, and nothing else, finds the requests that were given to it.
-/

namespace Hwire.Http1
open Lib

/-- What a recipient is to read for a request: its head, and what its body has yielded. -/
def textOf (r : Request) (x : Exchange) : RequestText where
  head := headText x.head x.hint
  body := bodyText (x.encoder.limit (chunksOf (untilEnd r.body.polls)).flatten) (x.encoder.sentTrailers (untilEnd r.body.polls))

theorem reads_exchange {r : Request} {x : Exchange} (sends : Sends r x) (finished : x.finished = true)
    (readable : Readable x.head x.hint) : Reads readRequest x.onWire (textOf r x) := by
  have small : ∀ n, x.hint = some (.known n) → n < 2 ^ 64 := by
    intro n known
    rw [sends.hint] at known
    exact UserBody.bodyType_small known
  have whole := sends.body finished
  rw [SentWhole] at whole
  rw [textOf, Exchange.onWire, Exchange.headBytes]
  rw [sends.encoder] at whole ⊢
  obtain ⟨bytes, encoded, reads⟩ := reads_request readable small whole
  rw [encoded]
  exact reads

namespace World

variable [Httparse]

/-- Whoever reads the bytes of a connection finds the requests that were given to it, in the order in which they were
given and each at most once, with the data that their bodies have yielded. This holds of as many of them as have heads
that a recipient can read, the last one only once it is finished. -/
theorem run_recipient (opts : Http1Options) (io : Transport) (actions : List Action) (fresh : io.written = []) :
    let c := ((new opts io).run actions).conn
    ∃ reqs : List Request, reqs.Sublist (given actions) ∧ List.Forall₂ Sends reqs c.log ∧
      ∀ k ≤ c.log.length, (∀ x ∈ c.log.take k, Readable x.head x.hint) →
        (k = c.log.length → ∀ x, c.log.getLast? = some x → x.finished = true) →
        (readRequest.many k) (c.io.io.written ++ c.io.writeBuf.contents) =
          some (List.zipWith textOf (reqs.take k) (c.log.take k), (c.log.drop k).flatMap Exchange.onWire) := by
  intro c
  obtain ⟨reqs, logs, order⟩ := run_logs opts io actions
  have wire : c.io.io.written ++ c.io.writeBuf.contents = c.log.flatMap Exchange.onWire := by
    have whole := run_wire opts io actions
    rw [fresh] at whole
    exact whole
  refine ⟨reqs, (List.sublist_append_left _ _).trans order, logs.sends, ?_⟩
  intro k within readable last
  have lengths : reqs.length = c.log.length := logs.sends.length_eq
  have finished : ∀ x ∈ c.log.take k, x.finished = true := by
    have inv : c.Inv := run_inv opts io actions
    intro x member
    by_cases all : k = c.log.length
    · rw [all, List.take_length] at member
      rcases List.eq_nil_or_concat c.log with empty | ⟨earlier, y, eq⟩
      · rw [empty] at member
        cases member
      · rw [eq, List.concat_eq_append] at member
        have ends : c.log.getLast? = some y := by rw [eq, List.concat_eq_append, List.getLast?_concat]
        rcases List.mem_append.mp member with old | new
        · exact (inv.earlier x (by rw [eq, List.concat_eq_append, List.dropLast_concat]; exact old)).finished
        · rw [List.mem_singleton.mp new]
          exact last all y ends
    · have shorter : c.log.take k = c.log.dropLast.take k := by
        rw [List.dropLast_eq_take, List.take_take, Nat.min_eq_left (by omega)]
      rw [shorter] at member
      exact (inv.earlier x (List.mem_of_mem_take member)).finished
  have pairs : ∀ i ∈ (reqs.zip c.log).take k, Lib.Reads readRequest i.2.onWire (textOf i.1 i.2) := by
    intro i member
    have both : (i.1, i.2) ∈ reqs.zip c.log := List.mem_of_mem_take member
    rw [List.zip, List.take_zipWith] at member
    have sent := (List.of_mem_zip member).2
    exact reads_exchange (List.forall₂_zip logs.sends both) (finished i.2 sent) (readable i.2 sent)
  have count : ((reqs.zip c.log).take k).length = k := by
    rw [List.length_take, List.length_zip]
    omega
  have pieces : ((reqs.zip c.log).take k).flatMap (fun i => i.2.onWire) = (c.log.take k).flatMap Exchange.onWire := by
    have seconds : ((reqs.zip c.log).take k).map Prod.snd = c.log.take k := by
      rw [List.map_take, List.map_snd_zip (Nat.le_of_eq lengths.symm)]
    rw [← seconds, List.flatMap_map]
  have values : ((reqs.zip c.log).take k).map (fun i => textOf i.1 i.2) = List.zipWith textOf (reqs.take k) (c.log.take k) := by
    rw [List.zip, List.take_zipWith, List.map_zipWith]
  have reads := Reads.many pairs ((c.log.drop k).flatMap Exchange.onWire)
  rw [count, pieces, values, ← List.flatMap_append, List.take_append_drop] at reads
  rw [wire]
  exact reads

/-- A body of two chunks, of which the first is followed by a pause. -/
def samplePost : Request where
  head := postHead
  body := {
    isEndStream := false
    exact := none
    polls := [(.frame (.data (ascii "ab")), false), (.pending, false), (.frame (.data (ascii "c")), true)]
    small := by decide }

def uploadsPost : List Action :=
  [.give samplePost, .push, .poll true, .step, .step, .step, .step, .step, .poll true, .step, .step, .step, .step]

omit [Httparse] in
theorem run_recipient_post :
    let c := (@run onlyEmptyResponse thenEof uploadsPost).conn
    (c.io.io.written ++ c.io.writeBuf.contents).length = 80 ∧
      ∃ reqs : List Request, reqs.Sublist [samplePost] ∧
        (readRequest.many 1) (c.io.io.written ++ c.io.writeBuf.contents) =
          some (List.zipWith textOf (reqs.take 1) (c.log.take 1), (c.log.drop 1).flatMap Exchange.onWire) := by
  intro c
  have facts : c.log.length = 1 ∧ ∀ x ∈ c.log, x.finished = true ∧ x.head.version = .http11 ∧
      IsToken x.head.subject.method.asStr ∧
      (SP ∉ x.head.subject.uri ∧ CR ∉ x.head.subject.uri ∧ LF ∉ x.head.subject.uri) ∧
      x.head.extensions.onPreserveHeader.isNone = true ∧ x.head.headers.contains .contentLength = false := by
    decide +kernel
  obtain ⟨one, each⟩ := facts
  obtain ⟨reqs, order, -, reads⟩ := @run_recipient onlyEmptyResponse {}
    (sampleTransport [.pending, .data emptyResponse, .pending, .data []]) uploadsPost rfl
  refine ⟨by decide +kernel, reqs, order, reads 1 (Nat.le_of_eq one.symm) ?_ ?_⟩
  · intro x member
    obtain ⟨-, version, method, uri, plain, absent⟩ := each x (List.mem_of_mem_take member)
    have plain := Option.isNone_iff_eq_none.mp plain
    refine ⟨.inr version, ⟨method, uri, ?_⟩, plain, ?_⟩
    · intro visit there
      rw [plain] at there
      cases there
    · intro stale
      exact absurd (absent.symm.trans stale.1) nofun
  · intro _ x last
    exact (each x (List.mem_of_getLast? last)).1

end World

end Hwire.Http1
