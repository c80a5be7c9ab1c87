import Hwire.Http1.Runs

/-!
# Connection options

What the `Connection` fields of a response and of a request have to do with the reuse of a connection. An option is
named by an element of any of the values, without regard to case and white space.
-/

namespace Hwire.Headers
open Lib

def HasOption (option : Bytes) (value : HeaderValue) : Prop :=
  ∃ part ∈ splitComma value.bytes, eqIgnoreAsciiCase (trim part) option = true

instance (option : Bytes) : DecidablePred (HasOption option) :=
  fun value => inferInstanceAs (Decidable (∃ part ∈ splitComma value.bytes, eqIgnoreAsciiCase (trim part) option = true))

def HasClose : HeaderValue → Prop := HasOption (ascii "close")

def HasKeepAlive : HeaderValue → Prop := HasOption (ascii "keep-alive")

instance : DecidablePred HasClose := inferInstanceAs (DecidablePred (HasOption _))

instance : DecidablePred HasKeepAlive := inferInstanceAs (DecidablePred (HasOption _))

def Visible (value : HeaderValue) : Prop := value.bytes.all isVisibleAscii = true

instance : DecidablePred Visible := fun _ => inferInstanceAs (Decidable (_ = true))

theorem connectionHas_iff (value : HeaderValue) (needle : Bytes) :
    connectionHas value needle = true ↔ Visible value ∧ HasOption needle value := by
  unfold connectionHas
  cases text : value.toStr with
  | none =>
    have unreadable : ¬ Visible value := by
      intro visible
      have reads : value.toStr = some value.bytes := if_pos visible
      exact absurd (reads.symm.trans text) nofun
    simp [unreadable]
  | some s =>
    obtain ⟨visible, rfl⟩ := toStr_eq_some.mp text
    have visible : Visible value := visible
    simp [visible, HasOption]

theorem connectionClose_iff (value : HeaderValue) : connectionClose value = true ↔ Visible value ∧ HasClose value :=
  connectionHas_iff value _

theorem connectionKeepAlive_iff (value : HeaderValue) :
    connectionKeepAlive value = true ↔ Visible value ∧ HasKeepAlive value :=
  connectionHas_iff value _

end Hwire.Headers

namespace Hwire.Http1
open Lib Headers

/-! ### Responses -/

/-- What the options of a response say. -/
def KeepsAlive (version : Version) (values : List HeaderValue) : Prop :=
  (∀ value ∈ values, ¬ HasClose value) ∧ (version = .http10 → ∃ value ∈ values, HasKeepAlive value)

def nextFlag (keepAlive : Bool) (value : HeaderValue) : Bool :=
  if keepAlive then !connectionClose value else connectionKeepAlive value

/-- A value that names one of the two options sets the flag, one that names both turns it over. -/
def decisive (value : HeaderValue) : Bool := connectionClose value != connectionKeepAlive value

def turnsOver (value : HeaderValue) : Bool := connectionClose value && connectionKeepAlive value

/-- The last value that sets the flag, or else the default of the version. -/
def lastWord (version : Version) (values : List HeaderValue) : Bool :=
  match (values.rdropWhile fun value => !decisive value).getLast? with
  | some value => connectionKeepAlive value
  | none => decide (version = .http11)

/-- How often the flag is turned over after that. -/
def turns (values : List HeaderValue) : Nat := (values.rtakeWhile fun value => !decisive value).countP turnsOver

/-- The running flag ends up where the options say, although it is decided one value at a time. -/
def FoldsRight (version : Version) (values : List HeaderValue) : Prop :=
  if ∃ value ∈ values, HasClose value then (lastWord version values = true ↔ turns values % 2 = 1)
  else
    version = .http11 ∨ (∀ value ∈ values, ¬ HasKeepAlive value) ∨ ∃ value ∈ values, HasKeepAlive value ∧ Visible value

instance (version : Version) (values : List HeaderValue) : Decidable (FoldsRight version values) := by
  unfold FoldsRight
  infer_instance

theorem nextFlag_of_decisive {value : HeaderValue} (sets : decisive value = true) (flag : Bool) :
    nextFlag flag value = connectionKeepAlive value := by
  unfold decisive at sets
  unfold nextFlag
  cases flag with
  | false => rfl
  | true =>
    cases close : connectionClose value with
    | false =>
      rw [close] at sets
      simpa using sets
    | true =>
      rw [close] at sets
      simpa using sets

theorem nextFlag_of_not_decisive {value : HeaderValue} (keeps : decisive value = false) (flag : Bool) :
    nextFlag flag value = (flag ^^ turnsOver value) := by
  have same : connectionClose value = connectionKeepAlive value := by
    unfold decisive at keeps
    simpa using keeps
  unfold nextFlag turnsOver
  rw [same]
  cases flag with
  | false => simp
  | true => simp

theorem foldl_nextFlag (version : Version) (values : List HeaderValue) :
    values.foldl nextFlag (decide (version = .http11)) = (lastWord version values ^^ decide (turns values % 2 = 1)) := by
  induction values using List.reverseRecOn with
  | nil => simp [lastWord, turns]
  | append_singleton values value ih =>
    rw [List.foldl_append, List.foldl_cons, List.foldl_nil]
    cases sets : decisive value with
    | true =>
      have last : lastWord version (values ++ [value]) = connectionKeepAlive value := by
        unfold lastWord
        rw [List.rdropWhile_concat_neg _ _ _ (by simp [sets]), List.getLast?_concat]
      have none : turns (values ++ [value]) = 0 := by
        unfold turns
        rw [List.rtakeWhile_concat_neg _ _ _ (by simp [sets])]
        rfl
      rw [nextFlag_of_decisive sets, last, none]
      simp
    | false =>
      have last : lastWord version (values ++ [value]) = lastWord version values := by
        unfold lastWord
        rw [List.rdropWhile_concat_pos _ _ _ (by simp [sets])]
      have more : turns (values ++ [value]) = turns values + (if turnsOver value then 1 else 0) := by
        unfold turns
        rw [List.rtakeWhile_concat_pos _ _ _ (by simp [sets]), List.countP_append, List.countP_singleton]
      rw [nextFlag_of_not_decisive sets, last, more, ih]
      cases turnsOver value with
      | false => simp
      | true =>
        have parity : decide ((turns values + 1) % 2 = 1) = !decide (turns values % 2 = 1) := by
          rw [← decide_not]
          congr 1
          rw [eq_iff_iff]
          omega
        rw [if_pos rfl, parity, Bool.xor_true, Bool.xor_not]

/-- Without `close`, the flag only goes up. -/
theorem foldl_nextFlag_of_no_close {values : List HeaderValue} (none : ∀ value ∈ values, connectionClose value = false)
    (flag : Bool) : values.foldl nextFlag flag = (flag || values.any connectionKeepAlive) := by
  induction values generalizing flag with
  | nil => simp
  | cons value rest ih =>
    have step : nextFlag flag value = (flag || connectionKeepAlive value) := by
      unfold nextFlag
      rw [none value List.mem_cons_self]
      cases flag with
      | false => rfl
      | true => rfl
    rw [List.foldl_cons, step, ih fun value member => none value (List.mem_cons_of_mem _ member), List.any_cons,
      Bool.or_assoc]

theorem foldl_nextFlag_iff {version : Version} (known : version = .http10 ∨ version = .http11) (values : List HeaderValue) :
    (values.foldl nextFlag (decide (version = .http11)) = true ↔ KeepsAlive version values) ↔
      FoldsRight version values := by
  unfold FoldsRight KeepsAlive
  by_cases close : ∃ value ∈ values, HasClose value
  · have refused : ¬ ((∀ value ∈ values, ¬ HasClose value) ∧
        (version = .http10 → ∃ value ∈ values, HasKeepAlive value)) := by
      rintro ⟨none, -⟩
      obtain ⟨value, member, has⟩ := close
      exact none value member has
    rw [if_pos close, foldl_nextFlag]
    cases lastWord version values with
    | false => simp [refused]
    | true => simp [refused]
  · have open_ : ∀ value ∈ values, ¬ HasClose value := fun value member has => close ⟨value, member, has⟩
    have none : ∀ value ∈ values, connectionClose value = false := by
      intro value member
      rw [← Bool.not_eq_true, connectionClose_iff]
      intro seen
      exact open_ value member seen.2
    rw [if_neg close, foldl_nextFlag_of_no_close none]
    have seen : values.any connectionKeepAlive = true ↔ ∃ value ∈ values, HasKeepAlive value ∧ Visible value := by
      rw [List.any_eq_true]
      refine exists_congr fun value => and_congr_right fun _ => ?_
      rw [connectionKeepAlive_iff, and_comm]
    rcases known with rfl | rfl
    · simp only [reduceCtorEq, decide_false, Bool.false_or, seen, false_or, true_implies]
      constructor
      · intro agrees
        by_cases named : ∃ value ∈ values, HasKeepAlive value
        · exact .inr (agrees.mpr ⟨open_, named⟩)
        · exact .inl fun value member has => named ⟨value, member, has⟩
      · rintro (unnamed | visible)
        · constructor
          · rintro ⟨value, member, has, -⟩
            exact absurd has (unnamed value member)
          · rintro ⟨-, value, member, has⟩
            exact absurd has (unnamed value member)
        · refine ⟨fun _ => ⟨open_, ?_⟩, fun _ => visible⟩
          obtain ⟨value, member, has, -⟩ := visible
          exact ⟨value, member, has⟩
    · simp only [decide_true, Bool.true_or, true_iff, true_or, iff_true]
      exact ⟨open_, nofun⟩

namespace Client

theorem addHeader_flag {all : Bytes} {idx : HeaderIndices} {flag flag' : Bool} {headers headers' : HeaderMap}
    (h : addHeader all (flag, headers) idx = .ok (flag', headers')) :
    ∃ values, headers'.getAll .connection = headers.getAll .connection ++ values ∧ flag' = values.foldl nextFlag flag := by
  unfold addHeader at h
  split at h
  · next name value _ _ =>
    cases h
    by_cases connection : name = .connection
    · refine ⟨[value], ?_, ?_⟩
      · rw [MultiMap.getAll_append, if_pos connection.symm, connection]
      · rw [if_pos connection]
        rfl
    · refine ⟨[], ?_, ?_⟩
      · rw [MultiMap.getAll_append, if_neg (Ne.symm connection), List.append_nil]
      · rw [if_neg connection]
        rfl
  · cases h

/-- The flag is folded over the values in the order of the fields. -/
theorem foldlM_addHeader_flag {all : Bytes} {indices : List HeaderIndices} {flag flag' : Bool}
    {headers headers' : HeaderMap} (h : indices.foldlM (addHeader all) (flag, headers) = .ok (flag', headers')) :
    ∃ values, headers'.getAll .connection = headers.getAll .connection ++ values ∧ flag' = values.foldl nextFlag flag := by
  induction indices generalizing flag headers with
  | nil =>
    cases h
    exact ⟨[], (List.append_nil _).symm, rfl⟩
  | cons idx rest ih =>
    rw [List.foldlM_cons] at h
    cases first : addHeader all (flag, headers) idx with
    | error e =>
      rw [first] at h
      cases h
    | ok acc =>
      rw [first] at h
      obtain ⟨one, there, set⟩ := addHeader_flag first
      obtain ⟨more, all_, folded⟩ := ih h
      refine ⟨one ++ more, ?_, ?_⟩
      · rw [all_, there, List.append_assoc]
      · rw [folded, set, List.foldl_append]

variable [Httparse]

def CacheEmpty (cached : Option HeaderMap) : Prop := cached.getD .empty = .empty

/-- The flag of a message is that of its own `Connection` values. -/
def FlagFolded (msg : ParsedMessage) : Prop :=
  msg.keepAlive = ((msg.head.headers.getAll .connection).foldl nextFlag (decide (msg.head.version = .http11)) &&
    !msg.wantsUpgrade)

theorem parseRound_flag {ctx : ParseContext} {s s' : ParseState} {msg : ParsedMessage} (empty : CacheEmpty s.cachedHeaders)
    (h : parseRound ctx s = .inl (.ok (some msg), s')) : FlagFolded msg := by
  unfold parseRound at h
  split at h
  · cases h
  · cases h
  dsimp only at h
  split at h
  · cases h
  next flag headers folded =>
  rw [empty] at folded
  obtain ⟨values, there, set⟩ := foldlM_addHeader_flag folded
  rw [MultiMap.getAll_empty, List.nil_append] at there
  split at h
  · cases h
  · cases h
    show (flag && _) = _
    rw [there, ← set]
  · split at h
    · cases h
    · cases h

theorem parseRound_cache {ctx : ParseContext} {s s' : ParseState} (h : parseRound ctx s = .inr s') :
    CacheEmpty s'.cachedHeaders := by
  unfold parseRound at h
  split at h
  · cases h
  · cases h
  dsimp only at h
  split at h
  · cases h
  split at h
  · cases h
  · cases h
  · split at h
    · cases h
    · cases h
      rfl

theorem parseLoop_flag {ctx : ParseContext} {fuel : Nat} {s s' : ParseState} {msg : ParsedMessage}
    (empty : CacheEmpty s.cachedHeaders) (h : parseLoop ctx fuel s = (.ok (some msg), s')) : FlagFolded msg := by
  induction fuel generalizing s with
  | zero => cases h
  | succ fuel ih =>
    rw [parseLoop] at h
    split at h
    · next res round =>
      subst h
      exact parseRound_flag empty round
    · next round => exact ih (parseRound_cache round) h

/-- The flag of a final response says what its options say exactly where the running flag comes out right. -/
theorem parse_keepAlive_iff {ctx : ParseContext} {buf : Bytes} {msg : ParsedMessage} {s : ParseState}
    (empty : CacheEmpty ctx.cachedHeaders) (parsed : parse ctx buf = (.ok (some msg), s))
    (version : msg.head.version = .http10 ∨ msg.head.version = .http11) (stays : msg.wantsUpgrade = false) :
    (msg.keepAlive = true ↔ KeepsAlive msg.head.version (msg.head.headers.getAll .connection)) ↔
      FoldsRight msg.head.version (msg.head.headers.getAll .connection) := by
  have folded := parseLoop_flag empty parsed
  unfold FlagFolded at folded
  rw [stays, Bool.not_false, Bool.and_true] at folded
  rw [folded]
  exact foldl_nextFlag_iff version _

end Client

def twoOptions (first second : String) : Bytes :=
  ascii "HTTP/1.1 204 No Content\r\nconnection: " ++ ascii first ++ ascii "\r\nconnection: " ++ ascii second ++
    ascii "\r\n\r\n"

/-- What the parser says to these two responses. -/
@[reducible] def onlyTwoOptions : Httparse where
  parseResponse _ bytes _ :=
    if bytes = twoOptions "close" "keep-alive" then
      .ok (some
        { len := 70, version := 1, code := 204, reason := ascii "No Content"
          headers := [⟨(25, 35), (37, 42)⟩, ⟨(44, 54), (56, 66)⟩] })
    else if bytes = twoOptions "keep-alive" "close" then
      .ok (some
        { len := 70, version := 1, code := 204, reason := ascii "No Content"
          headers := [⟨(25, 35), (37, 47)⟩, ⟨(49, 59), (61, 66)⟩] })
    else .ok none
  parseHeaders _ _ := .ok none
  canonicalReason _ := some (ascii "No Content")

def parsedMessage (res : Except Parse (Option ParsedMessage) × ParseState) : Option ParsedMessage :=
  match res.1 with
  | .ok msg => msg
  | .error _ => none

theorem parsedMessage_eq_some {res : Except Parse (Option ParsedMessage) × ParseState} {msg : ParsedMessage}
    (h : parsedMessage res = some msg) : res = (.ok (some msg), res.2) := by
  obtain ⟨res, s⟩ := res
  unfold parsedMessage at h
  cases res with
  | error e => cases h
  | ok found =>
    cases h
    rfl

namespace Client

theorem parse_keepAlive_closing :
    ∃ msg s, @parse onlyTwoOptions {} (twoOptions "keep-alive" "close") = (.ok (some msg), s) ∧
      (msg.keepAlive = true ↔ KeepsAlive msg.head.version (msg.head.headers.getAll .connection)) := by
  have facts : ∃ msg ∈ parsedMessage (@parse onlyTwoOptions {} (twoOptions "keep-alive" "close")),
      msg.head.version = .http11 ∧ msg.wantsUpgrade = false ∧
        FoldsRight msg.head.version (msg.head.headers.getAll .connection) := by decide +kernel
  obtain ⟨msg, found, version, stays, folds⟩ := facts
  have parsed := parsedMessage_eq_some found
  exact ⟨msg, _, parsed, (@parse_keepAlive_iff onlyTwoOptions _ _ _ _ (by rfl) parsed (.inr version) stays).mpr folds⟩

/-- A server that closes is taken to stay, because `keep-alive` comes after `close`. -/
theorem parse_keepAlive_overridden :
    ∃ msg s, @parse onlyTwoOptions {} (twoOptions "close" "keep-alive") = (.ok (some msg), s) ∧
      msg.head.version = .http11 ∧ msg.wantsUpgrade = false ∧
      msg.head.headers.getAll .connection = [.fromStatic "close", .fromStatic "keep-alive"] ∧ msg.keepAlive = true ∧
      ¬ (msg.keepAlive = true ↔ KeepsAlive msg.head.version (msg.head.headers.getAll .connection)) := by
  have facts : ∃ msg ∈ parsedMessage (@parse onlyTwoOptions {} (twoOptions "close" "keep-alive")),
      msg.head.version = .http11 ∧ msg.wantsUpgrade = false ∧
      msg.head.headers.getAll .connection = [.fromStatic "close", .fromStatic "keep-alive"] ∧ msg.keepAlive = true ∧
      ∃ value ∈ msg.head.headers.getAll .connection, HasClose value := by decide +kernel
  obtain ⟨msg, found, version, stays, values, keeps, value, member, closes⟩ := facts
  refine ⟨msg, _, parsedMessage_eq_some found, version, stays, values, keeps, ?_⟩
  intro agrees
  exact (agrees.mp keeps).1 value member closes

end Client

/-! ### Requests -/

/-- The caller asks for the connection to be closed. -/
def CarriesClose (headers : HeaderMap) : Prop := ∃ value ∈ headers.getAll .connection, HasClose value

instance : DecidablePred CarriesClose :=
  fun headers => inferInstanceAs (Decidable (∃ value ∈ headers.getAll .connection, HasClose value))

theorem CarriesClose.of_same {headers headers' : HeaderMap} (close : CarriesClose headers)
    (same : headers'.getAll .connection = headers.getAll .connection) : CarriesClose headers' := by
  unfold CarriesClose
  rw [same]
  exact close

theorem CarriesClose.insert_close (headers : HeaderMap) :
    CarriesClose (headers.insert .connection (.fromStatic "close")) := by
  refine ⟨.fromStatic "close", ?_, ?_⟩
  · rw [MultiMap.getAll_insert, if_pos rfl]
    exact List.mem_cons_self
  · decide +kernel

theorem setLength_connection (head : RequestHead) (body : Option BodyLength) :
    (Client.setLength head body).1.getAll .connection = head.headers.getAll .connection := by
  have te : HeaderName.connection ≠ .transferEncoding := by decide
  have cl : HeaderName.connection ≠ .contentLength := by decide
  have entry (headers : HeaderMap) (method : Method) (body : BodyLength) (known : Option Nat) :
      (Client.encoderByEntry headers method body known).1.getAll .connection = headers.getAll .connection := by
    unfold Client.encoderByEntry
    split
    · split
      · rfl
      · rw [addChunked, MultiMap.getAll_modifyLast, if_neg te]
    split
    · rfl
    split
    · split
      · rfl
      · rw [MultiMap.getAll_insert, if_neg te]
    · rfl
  unfold Client.setLength
  split
  · rw [MultiMap.getAll_remove, if_neg te]
  dsimp only
  split
  · split
    · rw [MultiMap.getAll_remove, if_neg te]
    split
    · rw [setContentLength, MultiMap.getAll_insert, if_neg cl, MultiMap.getAll_remove, if_neg te]
    · rw [MultiMap.getAll_remove, if_neg te]
  · have same := entry head.headers head.subject.method ‹_› (contentLengthParseAll head.headers)
    split
    · next made =>
      rw [made] at same
      split
      · rw [MultiMap.getAll_remove, if_neg cl]
        exact same
      · exact same
    · next made =>
      rw [made] at same
      split
      · rw [setContentLength, MultiMap.getAll_insert, if_neg cl]
        exact same
      · exact same

namespace Conn

/-- `fix_keep_alive` puts `keep-alive` in the place of whatever the caller has said. -/
def ForcesKeepAlive (c : Conn) (head : RequestHead) : Prop :=
  c.state.version = .http10 ∧ head.version = .http11 ∧ c.state.keepAlive ≠ .disabled ∧
    (head.headers.get .connection).any connectionKeepAlive = false

/-- Keep-alive is disabled already, or `fix_keep_alive` disables it: both sides speak HTTP/1.0 and the request does not ask
for it. -/
def DisablesKeepAlive (c : Conn) (head : RequestHead) : Prop :=
  c.state.keepAlive = .disabled ∨
    c.state.version = .http10 ∧ head.version = .http10 ∧ (head.headers.get .connection).any connectionKeepAlive = false

theorem busy_version (s : State) : s.busy.version = s.version := by
  unfold State.busy
  split
  · rfl
  · rfl

theorem fixKeepAlive_headers (s : State) (head : RequestHead) :
    (fixKeepAlive s head).2.headers = head.headers ∨
      head.version = .http11 ∧ s.wantsKeepAlive = true ∧ (head.headers.get .connection).any connectionKeepAlive = false := by
  unfold fixKeepAlive
  dsimp only
  split
  · exact .inl rfl
  · next missing =>
    split
    · exact .inl rfl
    · next version =>
      split
      · next wants => exact .inr ⟨version, wants, by simpa using missing⟩
      · exact .inl rfl
    · exact .inl rfl

theorem outgoing_close {c : Conn} {head : RequestHead} (close : CarriesClose head.headers)
    (unforced : ¬ c.ForcesKeepAlive head) : CarriesClose (c.outgoing head).headers := by
  unfold outgoing enforceVersion
  split
  · next old =>
    rcases fixKeepAlive_headers c.state.busy head with same | ⟨version, wants, missing⟩
    · show CarriesClose (fixKeepAlive c.state.busy head).2.headers
      rw [same]
      exact close
    · refine absurd ⟨busy_version _ ▸ old, version, ?_, missing⟩ unforced
      intro disabled
      rw [State.wantsKeepAlive, State.busy_disabled.mpr disabled] at wants
      cases wants
  · split
    · exact CarriesClose.insert_close head.headers
    · exact close
  · exact close

/-- The head that is written to carries `close`, in the map that its lines are written from and, unless the caller
writes them, in the lines. -/
structure WritesClose (x : Exchange) : Prop where
  map : CarriesClose (Client.setLength x.head x.hint).1
  lines : x.head.extensions.onPreserveHeader = none →
    ∃ value ∈ fieldValues .connection (emittedFields x.head x.hint), HasClose value

theorem WroteHead.writesClose {c c' : Conn} {head : RequestHead} {body : Option BodyLength} {x : Exchange}
    (wrote : WroteHead c head body c' x) (close : CarriesClose head.headers) (unforced : ¬ c.ForcesKeepAlive head) :
    WritesClose x := by
  have outgoing := outgoing_close close unforced
  rw [← wrote.head] at outgoing
  have map : CarriesClose (Client.setLength x.head x.hint).1 := outgoing.of_same (setLength_connection _ _)
  refine ⟨map, ?_⟩
  intro plain
  rw [fieldValues_emitted plain]
  exact map

theorem writeHead_disabled {c c' : Conn} {head : RequestHead} {body : Option BodyLength} {x : Exchange}
    (h : c.writeHead head body = some c') (wrote : WroteHead c head body c' x) (disables : c.DisablesKeepAlive head) :
    c'.state.keepAlive = .disabled := by
  rcases disables with disabled | ⟨old, version, missing⟩
  · exact wrote.disabled disabled
  · have fixed : (enforceVersion c.state.busy head).1.keepAlive = .disabled := by
      unfold enforceVersion fixKeepAlive
      simp [busy_version, old, version, missing]
    obtain ⟨made, -, rfl⟩ := Option.map_eq_some_iff.mp h
    exact fixed

variable [Httparse]

theorem Step.length_le {c c' : Conn} (step : c.Step c') (inv : c.Inv) : c.log.length ≤ c'.log.length := by
  obtain ⟨f, -, log⟩ | ⟨head, body, x, -, -, wrote⟩ := step.heads inv
  · rw [log, length_note]
  · rw [wrote.log, List.length_append]
    exact Nat.le_add_right _ _

theorem Steps.length_le {c c' : Conn} (steps : c.Steps c') (inv : c.Inv) : c.log.length ≤ c'.log.length := by
  induction steps with
  | refl => exact Nat.le_refl _
  | tail earlier step ih => exact ih.trans (step.length_le (Steps.inv earlier inv).1)

end Conn

namespace World

variable [Httparse]

theorem act_gone {w : World} (gone : w.phase = .gone) (a : Action) : (w.act a).phase = .gone := by
  cases a with
  | poll => simp [act, gone]
  | step => simp [act, step, gone]
  | drop => simp [act, gone]
  | give | push | dropSender | cancel | pollFrame | dropBody => exact gone

theorem run_gone {w : World} (gone : w.phase = .gone) (later : List Action) : (w.run later).phase = .gone := by
  induction later generalizing w with
  | nil => exact gone
  | cons a rest ih => exact ih (act_gone gone a)

/-- A request that is taken out of the queue and still waited for is written. -/
theorem TakesRequest.act_step {w : World} {left : Nat} {again : Bool} {id : Nat} {req : Request}
    {rest : List (Nat × Request)} (takes : w.TakesRequest left again id req rest) (waited : w.chan.isCanceled id = false) :
    w.act .step = w.takeRequest left again id req rest := by
  have ready : (w.bodyRx.isNone && w.conn.canWriteHead && w.shouldPoll) = true := by
    simp [takes.bodyRx, takes.can, shouldPoll, takes.callback]
  have opened : ¬ w.isClosing = true := by simp [takes.notClosing]
  have waits : ¬ Dispatch.Channel.isCanceled { w.chan with queue := rest } id = true := by
    show ¬ w.chan.isCanceled id = true
    simp [waited]
  rw [act, step, takes.phase]
  show w.stepWriting left again = _
  rw [stepWriting, if_neg opened, if_pos ready, pollMsg, Dispatch.Channel.pollRecv, takes.front]
  exact if_neg waits

/-- A request that asks for the connection to be closed goes out with that option, unless `fix_keep_alive` has replaced
it. Whether another head follows is not up to that option: it does only where the response to the request has come to its
end and allows it, and the request has not disabled keep-alive for an old peer. -/
theorem run_close (opts : Http1Options) (io : Transport) (earlier later : List Action) {left : Nat} {again : Bool}
    {id : Nat} {req : Request} {rest : List (Nat × Request)}
    (takes : ((new opts io).run earlier).TakesRequest left again id req rest)
    (waited : ((new opts io).run earlier).chan.isCanceled id = false) :
    let w := (new opts io).run earlier
    (CarriesClose req.head.headers → ¬ w.conn.ForcesKeepAlive req.head →
      ∀ x ∈ (w.act .step).conn.log[w.conn.log.length]?, Conn.WritesClose x) ∧
    ∀ a, ((w.act .step).run later).CallsWriteHead a → ¬ w.conn.DisablesKeepAlive req.head ∧
      ∃ x, ((w.act .step).run later).conn.log[w.conn.log.length]? = some x ∧ x.Done := by
  intro w
  have inv : w.conn.Inv := run_inv opts io earlier
  have step : w.act .step = w.takeRequest left again id req rest := takes.act_step waited
  have next : (w.act .step).conn.Inv := (Conn.Steps.inv (act_steps w .step) inv).1
  rw [step] at next ⊢
  obtain ⟨conn, wrote, same, -⟩ | ⟨same, gone, -⟩ := w.takeRequest_cases left again id req rest
  · obtain ⟨x, spec⟩ := Conn.writeHead_spec wrote
    rw [same] at next ⊢
    refine ⟨?_, ?_⟩
    · intro close unforced y there
      rw [spec.log, List.getElem?_concat_length] at there
      obtain rfl := Option.some.inj there
      exact spec.writesClose close unforced
    · intro a calls
      have steps := run_steps (w.takeRequest left again id req rest) later
      rw [same] at steps
      obtain ⟨after, keeps⟩ := Conn.Steps.inv steps next
      obtain ⟨_, _, _, _, _, again⟩ := takesRequest_of_calls calls
      obtain ⟨-, init, -⟩ := Conn.canWriteHead_iff.mp again.can
      have longer := Conn.Steps.length_le steps next
      rw [spec.log, List.length_append, List.length_singleton] at longer
      refine ⟨?_, _, List.getElem?_eq_getElem longer, (after.idle init).1 _ (List.getElem_mem longer)⟩
      intro disables
      have stuck := keeps.idle (Conn.writeHead_disabled wrote spec disables) init
      rw [spec.writing] at stuck
      split at stuck
      · cases stuck
      · cases stuck
  · refine ⟨?_, ?_⟩
    · intro _ _ x there
      rw [same, List.getElem?_eq_none (Nat.le_refl _)] at there
      cases there
    · intro a calls
      obtain ⟨_, _, _, _, _, again⟩ := takesRequest_of_calls calls
      exact absurd ((run_gone gone later).symm.trans again.phase) nofun

def closing : HeaderMap := MultiMap.empty.insert .connection (.fromStatic "close" Headers.close_valid)

def answeredOnce : World := new {} (sampleTransport [.pending, .data emptyResponse, .pending, .pending])

def takesClosing : List Action := [.give (sampleGet closing), .push, .poll true, .step]

omit [Httparse] in
theorem run_close_sample :
    ∃ x, (@act onlyEmptyResponse (@run onlyEmptyResponse answeredOnce takesClosing) .step).conn.log[0]? = some x ∧
      Conn.WritesClose x := by
  have takes : (@run onlyEmptyResponse answeredOnce takesClosing).TakesRequest 15 false 0 (sampleGet closing) [] :=
    ⟨rfl, rfl, rfl, by decide +kernel, rfl, rfl⟩
  have goesOut :=
    (@run_close onlyEmptyResponse {} _ takesClosing [] _ _ _ _ _ takes rfl).1 (by decide +kernel)
      (fun forces => absurd forces.1 (by decide +kernel))
  have there : (@act onlyEmptyResponse (@run onlyEmptyResponse answeredOnce takesClosing) .step).conn.log[0]?.isSome := by
    decide +kernel
  obtain ⟨x, there⟩ := Option.isSome_iff_exists.mp there
  exact ⟨x, there, goesOut x there⟩

def usedAgain : List Action :=
  takesClosing ++ ([.step, .step, .step, .step, .poll true, .step, .step, .step, .step, .give (sampleGet .empty), .push,
    .step, .step, .step] : List Action)

omit [Httparse] in
/-- A request with `close`, an answer without options, and the next request on the same connection. -/
theorem run_close_usedAgain :
    CarriesClose (sampleGet closing).head.headers ∧ (@run onlyEmptyResponse answeredOnce takesClosing).written = [] ∧
      (@run onlyEmptyResponse answeredOnce usedAgain).written = [0, 1] ∧
      (@run onlyEmptyResponse answeredOnce usedAgain).conn.log.map (fun x => decide (CarriesClose x.head.headers)) =
        [true, false] := by
  refine ⟨by decide +kernel, by decide +kernel, by decide +kernel, by decide +kernel⟩

end World

end Hwire.Http1
