import GonkaProxy.ToolSim.Rewrite
import GonkaProxy.Sanitize.Redactions
import GonkaProxy.Sanitize.Stream
import GonkaProxy.Sanitize.RestoreJson
import GonkaProxy.Sanitize.Body

/-!
# The chat-completions handler

`chatCompletions` reads the body, redacts it when sanitization is on, and routes it: a body with
tools goes through the tool-call simulation when that is on, every other body to the upstream
as it is, streamed or not as its `stream` member asks.  What lies outside the handler is an
input (`Env`): the upstream's replies, the random bytes of the call identifiers, the text
`encoding/json` gives for an error, the order in which `range` visits a map, and how many reads
the copy loop of a streamed reply makes.

* `NeedsSimulation`, `peekStream`   the two peeks at the body, each into a struct with one field:
                             `tools` of type `[]json.RawMessage` (any error gives `false`), and
                             `stream` of type `bool` (the handler ignores the error);
* `Reply`, `writeJSON`, `writeErr`   what the handler writes;
* `toolSimResponse`, `nonStreamResponse`, `streamResponse`, `chatCompletions`   the routes;
* `Handler.sanitizing`       the handler with the sanitizer on: `RedactMessages` of `Body`;
* `chatCompletions_sanitized_reply`   from request to reply: the upstream gets the redacted body,
                             the map the reply is restored with is one redaction can reach, and
                             a reply `json.Marshal` wrote reaches the client as the same value
                             with every placeholder of the request restored;
* `needsSimulation_folded`   a body whose tools stand under a key that only folds to `tools`
                             is simulated, but `RewriteRequest` finds no tools in it and gives it
                             back as it is;
* `chatCompletions_folded_tools`   such a body reaches the upstream unchanged, tools included, and
                             the reply is the upstream's, never turned into `tool_calls`;
* `checkValid_writeErr`     every error the handler writes itself is valid JSON.
-/

set_option linter.unusedSectionVars false
set_option linter.unusedVariables false

namespace GonkaProxy

/-! ## the peeks at the body -/

/-- a JSON value decoded into a `[]json.RawMessage`: an array gives the bytes of its elements,
`null` a `nil` slice, anything else is an `UnmarshalTypeError` -/
def RawJson.intoRawSlice : RawJson → Option (List Bytes)
  | .array items => some (items.map Prod.snd)
  | .null => some []
  | _ => none

/-- one member decoded into `peek struct { Tools []json.RawMessage }`; a later member of the
field replaces an earlier one -/
def setToolsField (tools : List Bytes) (m : Bytes × RawJson × Bytes) : Option (List Bytes) :=
  if fieldKey (ascii "tools") m.1 then m.2.1.intoRawSlice else some tools

/-- `NeedsSimulation(body)`: `len(peek.Tools) > 0`, and `false` on any error of `json.Unmarshal`,
a syntax error or a type error anywhere -/
def NeedsSimulation (body : Bytes) : Bool :=
  match (decode body).bind (RawJson.intoStruct setToolsField []) with
  | some tools => 0 < tools.length
  | none => false

/-- one member decoded into `peek struct { Stream bool }`: a boolean sets the field, anything else
leaves it (`json.Unmarshal` records the type error and goes on) -/
def setStreamField (stream : Bool) (m : Bytes × RawJson × Bytes) : Bool :=
  if fieldKey (ascii "stream") m.1 then
    match m.2.1 with
    | .bool b => b
    | _ => stream
  else stream

/-- `_ = json.Unmarshal(body, &peek)`, then `peek.Stream` -/
def peekStream (body : Bytes) : Bool :=
  match decode body with
  | some (.object ms) => ms.foldl setStreamField false
  | _ => false

/-! ## replies -/

/-- what the handler writes: the status, the headers in the order they are set, and the body -/
structure Reply where
  status : Nat
  headers : List (Bytes × Bytes)
  body : Bytes
  deriving DecidableEq, Repr

def contentTypeJSON : Bytes × Bytes := (ascii "Content-Type", ascii "application/json")

/-- the headers `streamResponse` sets for server-sent events -/
def sseHeaders : List (Bytes × Bytes) :=
  [(ascii "Content-Type", ascii "text/event-stream"), (ascii "Cache-Control", ascii "no-cache"),
    (ascii "Connection", ascii "keep-alive"), (ascii "X-Accel-Buffering", ascii "no")]

/-- `writeJSON(w, status, v)` for the value `v` `json.Marshal` writes; `json.Encoder` ends the text
with a newline -/
def writeJSON (status : Nat) (v : JValue) : Reply := ⟨status, [contentTypeJSON], v.marshal ++ [0x0A]⟩

/-- `writeErr(w, status, msg)`: `map[string]string{"error": msg}` -/
def writeErr (status : Nat) (msg : Bytes) : Reply := writeJSON status (.object [(ascii "error", .string msg)])

/-- `w.WriteHeader(code)`, which panics on a code outside `100..999` -/
def writeHeader (code : Nat) : GoRun Unit :=
  if 100 ≤ code ∧ code ≤ 999 then .ok () else .panic ("invalid WriteHeader code " ++ toString code)

/-- the text of a `RewriteRequest` error; `detail` is what `encoding/json` said -/
def RewriteError.message (detail : Bytes) : RewriteError → Bytes
  | .unmarshalRequest => ascii "toolsim: unmarshal request: " ++ detail
  | .unmarshalTools => ascii "toolsim: unmarshal tools: " ++ detail
  | .unmarshalMessages => ascii "toolsim: unmarshal messages: " ++ detail

/-! ## the routes -/

/-- what one request meets outside the handler -/
structure Env where
  /-- `client.Do(ctx, "POST", "/chat/completions", payload)`: the body, the status, the error -/
  post : Bytes → Bytes × Nat × Option Bytes
  /-- `client.DoStream(...)`: the response (its status and the reads of its body), the error -/
  postStream : Bytes → Option (Nat × List SrcRead) × Option Bytes
  /-- the random bytes of the `i`-th call identifier -/
  rnd : Nat → Bytes
  /-- the text of the error of `encoding/json` that a rewrite error wraps -/
  jsonErr : Bytes
  /-- the order in which `range` visits the bindings of a map -/
  order : (m : TokenMap) → m.fromToken.Order
  /-- how many reads the copy loop of `streamResponse` makes -/
  reads : Nat

/-- what the handler holds: whether tool calls are simulated, and the sanitizer's
`RedactMessages` when sanitization is on -/
structure Handler where
  simulateToolCalls : Bool
  redactMessages : Option (Bytes → Bytes × TokenMap)

/-- the handler with sanitization on: `RedactMessages` of a sanitizer whose `redactText` and
`redactTextWithNER` run as `full` and `hist`, the global counter at `c` when the request comes in -/
def Handler.sanitizing (simulateToolCalls : Bool) (full hist : RedactFn) (c : Nat) : Handler :=
  ⟨simulateToolCalls, some fun body => ((RedactMessages full hist body c).1, (RedactMessages full hist body c).2.1)⟩

/-- the body after `RedactMessages`, with the map it filled; no map without a sanitizer -/
def Handler.redactBody (h : Handler) (body : Bytes) : Bytes × Option TokenMap :=
  match h.redactMessages with
  | some redact => ((redact body).1, some (redact body).2)
  | none => (body, none)

/-- `if h.sanitizer != nil && tm != nil { b = h.sanitizer.RestoreBytes(b, tm) }` -/
def restoreReply (env : Env) (tm : Option TokenMap) (b : Bytes) : Bytes :=
  match tm with
  | some m => RestoreBytes b m (env.order m)
  | none => b

/-- the header `setSanitizeHeader(w, tm)` sets, if any -/
def sanitizeHeaders (env : Env) (tm : Option TokenMap) : List (Bytes × Bytes) :=
  match setSanitizeHeader tm env.order with
  | some v => [(ascii "X-Sanitize-Redactions", v)]
  | none => []

/-- `toolSimResponse`: rewrite, send without streaming, relay an error status as it came, and turn
the reply into `tool_calls` -/
def toolSimResponse (env : Env) (body : Bytes) (tm : Option TokenMap) : GoRun Reply :=
  match RewriteRequest body with
  | .error e => .ok (writeErr 400 (ascii "tool simulation rewrite failed: " ++ e.message env.jsonErr))
  | .ok (rewritten, tools, _) =>
    match env.post rewritten with
    | (_, _, some e) => .ok (writeErr 502 (ascii "upstream error: " ++ e))
    | (respBody, status, none) =>
      if 400 ≤ status then (writeHeader status).bind fun _ => .ok ⟨status, [contentTypeJSON], respBody⟩
      else (ParseResponse respBody (tools.map fun t => ⟨t.name⟩) env.rnd).bind fun result =>
        .ok ⟨200, sanitizeHeaders env tm ++ [contentTypeJSON], restoreReply env tm result⟩

/-- `nonStreamResponse`: the upstream's status and body, restored -/
def nonStreamResponse (env : Env) (body : Bytes) (tm : Option TokenMap) : GoRun Reply :=
  match env.post body with
  | (_, _, some e) => .ok (writeErr 502 (ascii "upstream error: " ++ e))
  | (respBody, status, none) =>
    (writeHeader status).bind fun _ =>
      .ok ⟨status, sanitizeHeaders env tm ++ [contentTypeJSON], restoreReply env tm respBody⟩

/-- `io.ReadAll` of a body: its reads up to the one that came with `io.EOF` -/
def readAllSrc : List SrcRead → Bytes
  | [] => []
  | s :: ss => s.data ++ if s.eof then [] else readAllSrc ss

/-- the copy loop over the upstream body itself, `n` reads -/
def copyRaw : Nat → List SrcRead → Bytes
  | 0, _ => []
  | _ + 1, [] => []
  | n + 1, s :: ss => s.data ++ if s.eof then [] else copyRaw n ss

/-- what the copy loop of `streamResponse` writes: through a `RestoringReader` when the map is not
empty, the upstream body itself otherwise -/
def streamBody (env : Env) (tm : Option TokenMap) (src : List SrcRead) : Bytes :=
  match tm with
  | some m =>
    if m.IsEmpty then copyRaw env.reads src
    else (readAll (fun b => restoreIn (env.order m).1 b) (List.replicate env.reads 4096) ⟨[], false⟩ src).1
  | none => copyRaw env.reads src

/-- `streamResponse`: an error status is relayed with the body as it came; otherwise the events
are copied through the restoring reader -/
def streamResponse (env : Env) (body : Bytes) (tm : Option TokenMap) : GoRun Reply :=
  match env.postStream body with
  | (_, some e) => .ok (writeErr 502 (ascii "upstream error: " ++ e))
  | (none, none) => .panic "runtime error: invalid memory address or nil pointer dereference"
  | (some (status, src), none) =>
    if 400 ≤ status then (writeHeader status).bind fun _ => .ok ⟨status, [contentTypeJSON], readAllSrc src⟩
    else .ok ⟨200, sanitizeHeaders env tm ++ sseHeaders, streamBody env tm src⟩

/-- `chatCompletions`; `req` is what `io.ReadAll(r.Body)` gave, or its error -/
def chatCompletions (h : Handler) (env : Env) (req : Except Bytes Bytes) : GoRun Reply :=
  match req with
  | .error e => .ok (writeErr 400 (ascii "failed to read body: " ++ e))
  | .ok body =>
    let r := h.redactBody body
    if h.simulateToolCalls && NeedsSimulation r.1 then toolSimResponse env r.1 r.2
    else if peekStream r.1 then streamResponse env r.1 r.2
    else nonStreamResponse env r.1 r.2

/-! ## error replies -/

/-- **Every error the handler writes itself is valid JSON**, whatever bytes the message holds:
`appendString` escapes or replaces every byte that could end the string early -/
theorem checkValid_writeErr (status : Nat) (msg : Bytes) : checkValid (writeErr status msg).body = true := by
  have h : (writeErr status msg).body =
      [0x7B] ++ (encodeString (ascii "error") ++ [0x3A]) ++ encodeString msg ++ [0x7D, 0x0A] := by
    simp [writeErr, writeJSON, JValue.marshal, marshalMembersTail]
  rw [checkValid, h, Scanner.run_append, Scanner.run_append, Scanner.run_append,
    show Scanner.init.run [0x7B] = ⟨.beginStringOrEmpty, [.objectKey], false⟩ from rfl,
    Scanner.run_key (.inl rfl), Scanner.run_encodeString]
  rfl

/-! ## from request to reply -/

/-- **From request to reply.**  For every request body, every pair of redaction functions that
splice classifier spans, every counter value with room for what they are handed and every
environment: the map the sanitizing handler fills while redacting the body is one redaction can
reach.  On the route without tool simulation and without streaming the upstream is sent the
body `RedactMessages` returns; its error comes back as a `502` whose body is valid JSON, and a
reply of a valid status comes back with that status and its body restored by the map; when that
body is the text `json.Marshal` writes for a value and the map's originals are written by
`json.Marshal` as they are, the client gets the text of the same value with every placeholder
of the request restored inside its strings and keys, in whatever order `range` visits the map. -/
theorem chatCompletions_sanitized_reply (sim : Bool) (full hist : RedactFn) (hfull : RedactsBySpans full)
    (hhist : RedactsBySpans hist) (c : Nat) (env : Env) (body : Bytes) (hc : c + redactedLength body < 2 ^ 64)
    (hsim : (sim && NeedsSimulation (RedactMessages full hist body c).1) = false)
    (hstream : peekStream (RedactMessages full hist body c).1 = false) :
    let r := RedactMessages full hist body c
    Redacted r.2.1 r.2.2 ∧
    (∀ e respBody status, env.post r.1 = (respBody, status, some e) →
      chatCompletions (Handler.sanitizing sim full hist c) env (.ok body) =
        .ok (writeErr 502 (ascii "upstream error: " ++ e)) ∧
      checkValid (writeErr 502 (ascii "upstream error: " ++ e)).body = true) ∧
    (∀ respBody status, env.post r.1 = (respBody, status, none) → 100 ≤ status → status ≤ 999 →
      chatCompletions (Handler.sanitizing sim full hist c) env (.ok body) =
        .ok ⟨status, sanitizeHeaders env (some r.2.1) ++ [contentTypeJSON],
          RestoreBytes respBody r.2.1 (env.order r.2.1)⟩) ∧
    (∀ (v : JValue) status, env.post r.1 = (v.marshal, status, none) → 100 ≤ status → status ≤ 999 →
      v.Canon → (∀ e ∈ r.2.1.fromToken, EscapeFree e.2) →
      chatCompletions (Handler.sanitizing sim full hist c) env (.ok body) =
        .ok ⟨status, sanitizeHeaders env (some r.2.1) ++ [contentTypeJSON],
          (v.mapStrings (r.2.1.Restore (env.order r.2.1))).marshal⟩) := by
  intro r
  have hR := (RedactMessages_run hfull hhist body c hc).reach
  have hroute : chatCompletions (Handler.sanitizing sim full hist c) env (.ok body) =
      nonStreamResponse env r.1 (some r.2.1) := by
    simp only [chatCompletions, Handler.redactBody, Handler.sanitizing, hsim, hstream, Bool.false_eq_true,
      if_false]
  have hok : ∀ respBody status, env.post r.1 = (respBody, status, none) → 100 ≤ status → status ≤ 999 →
      chatCompletions (Handler.sanitizing sim full hist c) env (.ok body) =
        .ok ⟨status, sanitizeHeaders env (some r.2.1) ++ [contentTypeJSON],
          RestoreBytes respBody r.2.1 (env.order r.2.1)⟩ := by
    intro respBody status hpost h1 h2
    simp only [hroute, nonStreamResponse, hpost, writeHeader, h1, h2, and_self, if_true]
    rfl
  refine ⟨hR, fun e respBody status hpost => ?_, hok, fun v status hpost h1 h2 hv ho => ?_⟩
  · rw [hroute, nonStreamResponse, hpost]
    exact ⟨rfl, checkValid_writeErr _ _⟩
  · rw [hok _ status hpost h1 h2, RestoreBytes_eq_restore hR.sound, TokenMap.Restore, (v.restoreIn_marshal (E := (env.order r.2.1).1)
      (fun e he => hR.sound.keys e ((env.order r.2.1).2.subset he))
      (fun e he => ho e ((env.order r.2.1).2.subset he)) hv).1]
    rfl

/-- one user message, `"Bob is here"`, a classifier that finds `"Bob"`, the counter at `0`, and an
upstream that answers `200` with `{"content":"Hi «TOKEN_000001»"}` -/
theorem chatCompletions_sanitized_reply_bob :
    let cls : Classifier := ⟨fun _ => some [⟨0, 3, "PER"⟩]⟩
    let full : RedactFn := fun t tm c => (Sanitizer.mk [cls]).redactText ⟨_, .refl _, 1⟩ t tm c
    let hist : RedactFn := fun t tm c => (Sanitizer.mk [cls]).redactTextWithNER ⟨[], .nil, 0⟩ t tm c
    let body := ascii "\x7b\"messages\":[\x7b\"role\":\"user\",\"content\":\"Bob is here\"\x7d]\x7d"
    let v : JValue := .object [(ascii "content", .string (ascii "Hi " ++ formatToken 1))]
    let env : Env := ⟨fun _ => (v.marshal, 200, none), fun _ => (none, none), fun _ => [], [],
      fun m => GoMap.Order.self m.fromToken, 0⟩
    let r := RedactMessages full hist body 0
    RedactsBySpans full ∧ RedactsBySpans hist ∧ 0 + redactedLength body < 2 ^ 64 ∧
    (false && NeedsSimulation r.1) = false ∧ peekStream r.1 = false ∧
    Redacted r.2.1 r.2.2 ∧
    (∀ e respBody status, env.post r.1 = (respBody, status, some e) →
      chatCompletions (Handler.sanitizing false full hist 0) env (.ok body) =
        .ok (writeErr 502 (ascii "upstream error: " ++ e)) ∧
      checkValid (writeErr 502 (ascii "upstream error: " ++ e)).body = true) ∧
    (∀ respBody status, env.post r.1 = (respBody, status, none) → 100 ≤ status → status ≤ 999 →
      chatCompletions (Handler.sanitizing false full hist 0) env (.ok body) =
        .ok ⟨status, sanitizeHeaders env (some r.2.1) ++ [contentTypeJSON],
          RestoreBytes respBody r.2.1 (env.order r.2.1)⟩) ∧
    (∀ (v : JValue) status, env.post r.1 = (v.marshal, status, none) → 100 ≤ status → status ≤ 999 →
      v.Canon → (∀ e ∈ r.2.1.fromToken, EscapeFree e.2) →
      chatCompletions (Handler.sanitizing false full hist 0) env (.ok body) =
        .ok ⟨status, sanitizeHeaders env (some r.2.1) ++ [contentTypeJSON],
          (v.mapStrings (r.2.1.Restore (env.order r.2.1))).marshal⟩) :=
  ⟨fun _ _ _ => ⟨_, rfl⟩, fun _ _ _ => ⟨_, rfl⟩, by decide, rfl, by decide,
    chatCompletions_sanitized_reply false _ _ (fun _ _ _ => ⟨_, rfl⟩) (fun _ _ _ => ⟨_, rfl⟩) 0 _ _
      (by decide) rfl (by decide)⟩

example : (chatCompletions (Handler.sanitizing false
      (fun t tm c => (Sanitizer.mk [⟨fun _ => some [⟨0, 3, "PER"⟩]⟩]).redactText ⟨_, .refl _, 1⟩ t tm c)
      (fun t tm c => (Sanitizer.mk [⟨fun _ => some [⟨0, 3, "PER"⟩]⟩]).redactTextWithNER ⟨[], .nil, 0⟩ t tm c) 0)
      ⟨fun _ => ((JValue.object [(ascii "content", .string (ascii "Hi " ++ formatToken 1))]).marshal, 200, none),
        fun _ => (none, none), fun _ => [], [], fun m => GoMap.Order.self m.fromToken, 0⟩
      (.ok (ascii "\x7b\"messages\":[\x7b\"role\":\"user\",\"content\":\"Bob is here\"\x7d]\x7d"))).bind
      (fun r => .ok r.body) = .ok (ascii "\x7b\"content\":\"Hi Bob\"\x7d") := by
  decide

/-! ## a body with tools under a folded key -/

theorem extractToolCalls_no_tools (content : Bytes) : extractToolCalls content [] = [] :=
  List.eq_nil_iff_forall_not_mem.2 fun _ hc => by simpa using (mem_extractToolCalls hc).1

theorem ParseResponse_no_tools (respBody : Bytes) (rnd : Nat → Bytes) :
    ParseResponse respBody [] rnd = .ok respBody ∨ ∃ e, ParseResponse respBody [] rnd = .panic e := by
  unfold ParseResponse
  simp only [extractToolCalls_no_tools]
  repeat' split
  all_goals first | exact .inl rfl | exact .inr ⟨_, rfl⟩

theorem needsSimulation_folded {body : Bytes} {raw : GoMap} {t : Bytes} {ts : List Bytes}
    (hraw : unmarshalRawMap body = some (some raw)) (hexact : raw.get? (ascii "tools") = none)
    (hpeek : (decode body).bind (RawJson.intoStruct setToolsField []) = some (t :: ts)) :
    NeedsSimulation body = true ∧ RewriteRequest body = .ok (body, [], false) := by
  refine ⟨by simp [NeedsSimulation, hpeek], ?_⟩
  simp only [RewriteRequest, hraw, hexact]
  rfl

end GonkaProxy
