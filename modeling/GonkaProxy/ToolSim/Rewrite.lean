import GonkaProxy.ToolSim.Parse

/-!
# Tool-call simulation: the request rewrite

`RewriteRequest` decodes the body into a `map[string]json.RawMessage`, its `tools` member into
`[]Tool` and its `messages` member into `[]Message`, builds a system prompt describing the tools,
puts a system message holding it in front of the messages, and marshals the map again with
`messages` replaced, `tools` and `tool_choice` deleted and `stream` set to `false`.

Decoding into a struct is Go's: a member goes to the field of its name, matched exactly or after
folding; `null` leaves a field as it was; a value of the wrong type makes the call fail; a member
that no field takes is dropped.  A second member for a slice field is decoded into the same
backing array, element by element.

* `RawJson.intoString`, `RawJson.intoStruct`, `decodeIntoSlice`   decoding into a `string`, a
                                     struct and a slice that already hold a value;
* `FunctionDef`, `unmarshalTools`    `[]Tool`, each tool kept as its `Function`;
* `Message`, `unmarshalMessages`     `[]Message`;
* `parseToolChoice`, `buildToolDescription`, `buildSystemPrompt`, `injectSystemPrompt`   the
                                     prompt and the system message;
* `marshalMessage`                   `json.Marshal` of a `Message`: `role`, `content`, and `name`,
                                     `tool_calls`, `tool_call_id` when they are not empty;
* `rewriteRaw`, `RewriteRequest`     the rewrite;
* `RewriteRequest_eq_ok`, `RewriteRequest_of_decoded`   what a rewrite with tools went through,
                                     and that it goes through;
* `RewriteRequest_rewrites`          the new body is the map of the old one with every member but
                                     `messages`, `tools`, `tool_choice` and `stream` kept, those
                                     two deleted, `stream` false, and `messages` the system message
                                     followed by every message as its `Message` marshals;
* `RewriteRequest_drops_member`      a message member no field takes is lost, and a missing
                                     `content` comes back as `null`.
-/

set_option linter.unusedSectionVars false
set_option linter.unusedVariables false

namespace GonkaProxy

deriving instance DecidableEq, Repr for ToolCallMsg

/-! ## decoding into Go values that already hold one -/

/-- a JSON value decoded into a `string` holding `cur`: a string replaces it, `null` leaves it,
anything else is an `UnmarshalTypeError` -/
def RawJson.intoString (cur : Bytes) : RawJson → Option Bytes
  | .string s => some s
  | .null => some cur
  | _ => none

/-- a JSON value decoded into a struct holding `cur`, whose fields take the members by
`setField`: an object member by member, a later member of a field overwriting an earlier one;
`null` leaves the struct as it is -/
def RawJson.intoStruct {α : Type} (setField : α → Bytes × RawJson × Bytes → Option α) (cur : α) :
    RawJson → Option α
  | .object ms => ms.foldlM setField cur
  | .null => some cur
  | _ => none

/-- `array()` into a slice whose backing array holds `buf`: element `i` is decoded into `buf[i]`,
or into `zero` past its end; the new elements, and what `buf` holds beyond them -/
def decodeIntoSlice {α : Type} (zero : α) (dec : α → RawJson → Option α) :
    List (RawJson × Bytes) → List α → Option (List α × List α)
  | [], buf => some ([], buf)
  | x :: xs, buf => do
    let a ← dec (buf.headD zero) x.1
    let r ← decodeIntoSlice zero dec xs buf.tail
    pure (a :: r.1, r.2)

/-! ## `tools` -/

/-- `FunctionDef`; `Parameters` as the bytes of its member (`[]` for a `nil` `RawMessage`) -/
structure FunctionDef where
  name : Bytes
  description : Bytes
  parameters : Bytes
  deriving DecidableEq, Repr

/-- one member decoded into a `FunctionDef` -/
def setFunctionDefField (f : FunctionDef) (m : Bytes × RawJson × Bytes) : Option FunctionDef :=
  if fieldKey (ascii "name") m.1 then (m.2.1.intoString f.name).map fun s => { f with name := s }
  else if fieldKey (ascii "description") m.1 then
    (m.2.1.intoString f.description).map fun s => { f with description := s }
  else if fieldKey (ascii "parameters") m.1 then some { f with parameters := m.2.2 }
  else some f

/-- one member decoded into a `Tool`, of which nothing reads more than `Function`: `Type` must
still take a string -/
def setToolField (f : FunctionDef) (m : Bytes × RawJson × Bytes) : Option FunctionDef :=
  if fieldKey (ascii "type") m.1 then (m.2.1.intoString []).map fun _ => f
  else if fieldKey (ascii "function") m.1 then m.2.1.intoStruct setFunctionDefField f
  else some f

/-- `json.Unmarshal(t, &toolList)` into a `nil` `[]Tool`, each tool kept as its `Function` -/
def unmarshalTools (data : Bytes) : Option (List FunctionDef) :=
  (decode data).bind fun v => match v with
    | .array items => items.mapM fun e => e.1.intoStruct setToolField ⟨[], [], []⟩
    | .null => some []
    | _ => none

/-! ## `messages` -/

/-- one member decoded into a `FunctionCall`, whose two fields are those of `parsedToolCall` -/
def setFunctionCallField (f : ParsedToolCall) (m : Bytes × RawJson × Bytes) : Option ParsedToolCall :=
  if fieldKey (ascii "name") m.1 then (m.2.1.intoString f.name).map fun s => { f with name := s }
  else if fieldKey (ascii "arguments") m.1 then
    (m.2.1.intoString f.arguments).map fun s => { f with arguments := s }
  else some f

/-- one member decoded into a `ToolCallMsg` -/
def setToolCallMsgField (t : ToolCallMsg) (m : Bytes × RawJson × Bytes) : Option ToolCallMsg :=
  if fieldKey (ascii "id") m.1 then (m.2.1.intoString t.id).map fun s => { t with id := s }
  else if fieldKey (ascii "type") m.1 then (m.2.1.intoString t.type).map fun s => { t with type := s }
  else if fieldKey (ascii "function") m.1 then
    (m.2.1.intoStruct setFunctionCallField t.function).map fun f => { t with function := f }
  else some t

/-- the zero `ToolCallMsg` -/
def ToolCallMsg.zero : ToolCallMsg := ⟨[], [], ⟨[], []⟩⟩

/-- `Message`: `Content` as the bytes of its member (`none` for a `nil` `RawMessage`), and the
slice `ToolCalls` as its elements and what its backing array holds past them -/
structure Message where
  role : Bytes
  content : Option Bytes
  name : Bytes
  toolCalls : List ToolCallMsg
  toolCallsSpare : List ToolCallMsg
  toolCallID : Bytes
  deriving DecidableEq, Repr

/-- the zero `Message` -/
def Message.zero : Message := ⟨[], none, [], [], [], []⟩

/-- one member decoded into a `Message`.  An array for `tool_calls` is decoded into the backing
array of the slice; an empty one, or `null`, leaves an empty slice -/
def setMessageField (msg : Message) (m : Bytes × RawJson × Bytes) : Option Message :=
  if fieldKey (ascii "role") m.1 then (m.2.1.intoString msg.role).map fun s => { msg with role := s }
  else if fieldKey (ascii "content") m.1 then some { msg with content := some m.2.2 }
  else if fieldKey (ascii "name") m.1 then (m.2.1.intoString msg.name).map fun s => { msg with name := s }
  else if fieldKey (ascii "tool_calls") m.1 then
    match m.2.1 with
    | .array [] | .null => some { msg with toolCalls := [], toolCallsSpare := [] }
    | .array items =>
      (decodeIntoSlice ToolCallMsg.zero (RawJson.intoStruct setToolCallMsgField) items
        (msg.toolCalls ++ msg.toolCallsSpare)).map fun r =>
          { msg with toolCalls := r.1, toolCallsSpare := r.2 }
    | _ => none
  else if fieldKey (ascii "tool_call_id") m.1 then
    (m.2.1.intoString msg.toolCallID).map fun s => { msg with toolCallID := s }
  else some msg

/-- `json.Unmarshal(m, &messages)` into a `nil` `[]Message` -/
def unmarshalMessages (data : Bytes) : Option (List Message) :=
  (decode data).bind fun v => match v with
    | .array items => items.mapM fun e => e.1.intoStruct setMessageField Message.zero
    | .null => some []
    | _ => none

set_option maxRecDepth 10000 in
/-- a second `tool_calls` member, matched after folding, is decoded into the elements of the first
and cuts the slice to its own length -/
example : unmarshalMessages (ascii "[\x7b\"tool_calls\":[\x7b\"id\":\"a\"\x7d,\x7b\"id\":\"b\"\x7d],\"TOOL_CALLS\":[\x7b\"type\":\"t\"\x7d]\x7d]") =
    some [{ Message.zero with
      toolCalls := [⟨ascii "a", ascii "t", ⟨[], []⟩⟩]
      toolCallsSpare := [⟨ascii "b", [], ⟨[], []⟩⟩] }] := by
  decide

/-- `json.Unmarshal(s, &stream)` with its error dropped: `stream` stays `false` unless the value
is `true` -/
def unmarshalBool (data : Bytes) : Bool :=
  match decode data with
  | some (.bool b) => b
  | _ => false

/-! ## the system prompt -/

/-- `fmt.Sprintf("%d", n)` -/
def fmtD (n : Nat) : Bytes := (decDigits (n + 1) n).reverse.map digitByte

/-- one member decoded into the `Function` of `parseToolChoice`'s struct, kept as its `Name` -/
def setChoiceFunctionField (name : Bytes) (m : Bytes × RawJson × Bytes) : Option Bytes :=
  if fieldKey (ascii "name") m.1 then m.2.1.intoString name else some name

/-- one member decoded into `parseToolChoice`'s struct, kept as its `Function.Name`: `Type` must
still take a string -/
def setChoiceField (name : Bytes) (m : Bytes × RawJson × Bytes) : Option Bytes :=
  if fieldKey (ascii "type") m.1 then (m.2.1.intoString []).map fun _ => name
  else if fieldKey (ascii "function") m.1 then m.2.1.intoStruct setChoiceFunctionField name
  else some name

/-- `parseToolChoice(raw, tools)`, which does not read `tools`: a string gives the hint of
`"none"` or `"required"` and no hint otherwise (`"auto"` among them); a struct whose
`Function.Name` is not empty asks for that function -/
def parseToolChoice (raw : Bytes) : Bytes :=
  match unmarshalString raw with
  | some s =>
    if s = ascii "none" then ascii "Do NOT call any tools. Respond normally."
    else if s = ascii "required" then ascii "You MUST call at least one tool."
    else []
  | none =>
    match (decode raw).bind (RawJson.intoStruct setChoiceField []) with
    | some name => if name ≠ [] then ascii "You MUST call the `" ++ name ++ ascii "` function." else []
    | none => []

/-- the loop of `buildToolDescription` from the tool at index `i` -/
def toolDescriptions : Nat → List FunctionDef → Bytes
  | _, [] => []
  | i, t :: ts =>
    (if i > 0 then ascii "\n\n" else []) ++
    ascii "### Function " ++ fmtD (i + 1) ++ ascii ": `" ++ t.name ++ ascii "`\n" ++
    (if t.description ≠ [] then ascii "Description: " ++ t.description ++ ascii "\n" else []) ++
    (if t.parameters.length > 0 ∧ t.parameters ≠ ascii "null" then
      ascii "Parameters (JSON Schema):\n```json\n" ++ t.parameters ++ ascii "\n```" else []) ++
    toolDescriptions (i + 1) ts

/-- `buildToolDescription(tools)` -/
def buildToolDescription (tools : List FunctionDef) : Bytes := toolDescriptions 0 tools

/-- `buildSystemPrompt(toolDesc, choiceHint)` -/
def buildSystemPrompt (toolDesc choiceHint : Bytes) : Bytes :=
  ascii "You have access to the following tools/functions:\n\n" ++ toolDesc ++ ascii "\n\n" ++
  ascii "## Instructions\n" ++
  ascii "If the user\x27s request can be answered by calling one or more of these tools, respond with ONLY a JSON array of tool calls in this exact format:\n" ++
  ascii "```json\n" ++
  ascii "[\x7b\"name\": \"function_name\", \"arguments\": \x7b\"param1\": \"value1\"\x7d\x7d]" ++
  ascii "\n```\n\n" ++
  ascii "Rules:\n" ++
  ascii "- Output ONLY the raw JSON array, no markdown code fences, no explanation.\n" ++
  ascii "- `arguments` must be a JSON object matching the parameter schema.\n" ++
  ascii "- You may call multiple tools by including multiple objects in the array.\n" ++
  ascii "- If you do NOT need to call any tool, respond normally with plain text.\n" ++
  (if choiceHint ≠ [] then ascii "\nIMPORTANT: " ++ choiceHint ++ ascii "\n" else [])

/-- `injectSystemPrompt(messages, sysPrompt)`: a system message holding `json.Marshal(sysPrompt)`
in front of the messages -/
def injectSystemPrompt (messages : List Message) (sysPrompt : Bytes) : List Message :=
  { Message.zero with role := ascii "system", content := some (encodeString sysPrompt) } :: messages

/-! ## marshalling -/

/-- `json.Marshal` of a `Message`: the fields in their order, `name`, `tool_calls` and
`tool_call_id` left out when empty (`omitempty`); `Content` compacted, `null` when `nil` -/
def marshalMessage (m : Message) : Bytes :=
  ascii "\x7b\"role\":" ++ encodeString m.role ++ ascii ",\"content\":" ++
    (match m.content with
      | some c => compact c
      | none => ascii "null") ++
    (if m.name = [] then [] else ascii ",\"name\":" ++ encodeString m.name) ++
    (if m.toolCalls = [] then [] else ascii ",\"tool_calls\":" ++ marshalToolCallMsgs m.toolCalls) ++
    (if m.toolCallID = [] then [] else ascii ",\"tool_call_id\":" ++ encodeString m.toolCallID) ++
    [0x7D]

/-- `json.Marshal` of a non-empty `[]Message` -/
def marshalMessages (ms : List Message) : Bytes :=
  [0x5B] ++ [0x2C].intercalate (ms.map marshalMessage) ++ [0x5D]

/-! ## `RewriteRequest` -/

/-- the errors of `RewriteRequest`, by the text they start with; the decoder's message follows -/
inductive RewriteError where
  /-- `toolsim: unmarshal request: ` -/
  | unmarshalRequest
  /-- `toolsim: unmarshal tools: ` -/
  | unmarshalTools
  /-- `toolsim: unmarshal messages: ` -/
  | unmarshalMessages
  deriving DecidableEq, Repr

/-- the edits of `raw` before the last `json.Marshal`: `messages` replaced by `msgBytes`, `tools`
and `tool_choice` deleted, `stream` set to `false` -/
def rewriteRaw (raw : GoMap) (msgBytes : Bytes) : GoMap :=
  (((raw.set (ascii "messages") msgBytes).delete (ascii "tools")).delete (ascii "tool_choice")).set
    (ascii "stream") (ascii "false")

/-- `RewriteRequest(body)`: the new body, the tools, and whether the request asked to stream.  A
body `null` leaves `raw` a `nil` map, which has no `tools`.  The two `json.Marshal` calls cannot
fail: every value they meet is valid JSON. -/
def RewriteRequest (body : Bytes) : Except RewriteError (Bytes × List FunctionDef × Bool) :=
  match unmarshalRawMap body with
  | none => .error .unmarshalRequest
  | some none => .ok (body, [], false)
  | some (some raw) =>
    match (raw.get? (ascii "tools")).elim (some []) unmarshalTools with
    | none => .error .unmarshalTools
    | some [] => .ok (body, [], false)
    | some toolList =>
      match (raw.get? (ascii "messages")).elim (some []) unmarshalMessages with
      | none => .error .unmarshalMessages
      | some messages =>
        let stream := (raw.get? (ascii "stream")).elim false unmarshalBool
        let choiceHint := (raw.get? (ascii "tool_choice")).elim [] parseToolChoice
        let sysPrompt := buildSystemPrompt (buildToolDescription toolList) choiceHint
        let messages := injectSystemPrompt messages sysPrompt
        .ok (marshalRawMap (some (rewriteRaw raw (marshalMessages messages))), toolList, stream)

/-! ## what the rewrite does -/

theorem foldl_set_nodup : ∀ (ms : List (Bytes × RawJson × Bytes)) (m : GoMap), (m.map Prod.fst).Nodup →
    ((ms.foldl (fun m e => m.set e.1 e.2.2) m).map Prod.fst).Nodup
  | [], _, h => h
  | _ :: ms, _, h => foldl_set_nodup ms _ (GoMap.nodup_set h)

theorem unmarshalRawMap_nodup {data : Bytes} {raw : GoMap} (h : unmarshalRawMap data = some (some raw)) :
    (raw.map Prod.fst).Nodup := by
  obtain ⟨v, -, hv⟩ := Option.bind_eq_some.mp h
  cases v <;> simp only [RawJson.toRawMap, Option.some.injEq, reduceCtorEq] at hv
  subst hv
  exact foldl_set_nodup _ [] List.nodup_nil

theorem rewriteRaw_nodup {raw : GoMap} (h : (raw.map Prod.fst).Nodup) (b : Bytes) :
    ((rewriteRaw raw b).map Prod.fst).Nodup :=
  GoMap.nodup_set (GoMap.nodup_delete (GoMap.nodup_delete (GoMap.nodup_set h)))

theorem rewriteRaw_get? (raw : GoMap) (b : Bytes) :
    (rewriteRaw raw b).get? (ascii "stream") = some (ascii "false") ∧
    (rewriteRaw raw b).get? (ascii "tools") = none ∧
    (rewriteRaw raw b).get? (ascii "tool_choice") = none ∧
    (rewriteRaw raw b).get? (ascii "messages") = some b ∧
    ∀ k, k ≠ ascii "messages" → k ≠ ascii "tools" → k ≠ ascii "tool_choice" → k ≠ ascii "stream" →
      (rewriteRaw raw b).get? k = raw.get? k := by
  refine ⟨?_, ?_, ?_, ?_, fun k h1 h2 h3 h4 => ?_⟩ <;>
    simp only [rewriteRaw, GoMap.get?_set, GoMap.get?_delete]
  · rw [if_pos trivial]
  · rw [if_neg (by decide), if_neg (by decide), if_pos trivial]
  · rw [if_neg (by decide), if_pos trivial]
  · rw [if_neg (by decide), if_neg (by decide), if_neg (by decide), if_pos trivial]
  · rw [if_neg (Ne.symm h4), if_neg (Ne.symm h3), if_neg (Ne.symm h2), if_neg (Ne.symm h1)]

theorem RewriteRequest_eq_ok {body newBody : Bytes} {tools : List FunctionDef} {stream : Bool}
    (h : RewriteRequest body = .ok (newBody, tools, stream)) (hne : tools ≠ []) :
    ∃ raw msgs, unmarshalRawMap body = some (some raw) ∧
      (raw.get? (ascii "tools")).elim (some []) unmarshalTools = some tools ∧
      (raw.get? (ascii "messages")).elim (some []) unmarshalMessages = some msgs ∧
      stream = (raw.get? (ascii "stream")).elim false unmarshalBool ∧
      newBody = marshalRawMap (some (rewriteRaw raw (marshalMessages (injectSystemPrompt msgs
        (buildSystemPrompt (buildToolDescription tools)
          ((raw.get? (ascii "tool_choice")).elim [] parseToolChoice)))))) := by
  unfold RewriteRequest at h
  split at h
  · cases h
  · cases h; exact absurd rfl hne
  · rename_i raw hraw
    split at h
    · cases h
    · cases h; exact absurd rfl hne
    · rename_i _ _ htools
      split at h
      · cases h
      · rename_i msgs hmsgs
        cases h
        exact ⟨raw, msgs, hraw, htools, hmsgs, rfl, rfl⟩

theorem RewriteRequest_of_decoded {body : Bytes} {raw : GoMap} {tools : List FunctionDef}
    {msgs : List Message} (hraw : unmarshalRawMap body = some (some raw))
    (htools : (raw.get? (ascii "tools")).elim (some []) unmarshalTools = some tools) (hne : tools ≠ [])
    (hmsgs : (raw.get? (ascii "messages")).elim (some []) unmarshalMessages = some msgs) :
    RewriteRequest body = .ok (marshalRawMap (some (rewriteRaw raw (marshalMessages (injectSystemPrompt
      msgs (buildSystemPrompt (buildToolDescription tools)
        ((raw.get? (ascii "tool_choice")).elim [] parseToolChoice)))))), tools,
      (raw.get? (ascii "stream")).elim false unmarshalBool) := by
  obtain ⟨t, ts, rfl⟩ := List.exists_cons_of_ne_nil hne
  simp only [RewriteRequest, hraw, htools, hmsgs]

/-- **The rewritten request.**  For every body `RewriteRequest` accepts with a non-empty tool
list, the body decodes to a map `raw`, and the new body is the marshalled map `R`, which binds each
key once: every member of `raw` other than `messages`, `tools`, `tool_choice` and `stream` as it
was, no `tools` and no `tool_choice`, `stream` set to `false`, and `messages` the array of the
system message holding the prompt built from the tools and `tool_choice`, followed by the
decoded messages in order, each as its `Message` marshals: `role`, `content` (`null` when
absent), and `name`, `tool_calls`, `tool_call_id` only when they are not empty. -/
theorem RewriteRequest_rewrites {body newBody : Bytes} {tools : List FunctionDef} {stream : Bool}
    (h : RewriteRequest body = .ok (newBody, tools, stream)) (hne : tools ≠ []) :
    ∃ (raw : GoMap) (msgs : List Message) (R : GoMap), unmarshalRawMap body = some (some raw) ∧
      (raw.get? (ascii "tools")).elim (some []) unmarshalTools = some tools ∧
      (raw.get? (ascii "messages")).elim (some []) unmarshalMessages = some msgs ∧
      stream = (raw.get? (ascii "stream")).elim false unmarshalBool ∧
      newBody = marshalRawMap (some R) ∧ (R.map Prod.fst).Nodup ∧
      (∀ k, k ≠ ascii "messages" → k ≠ ascii "tools" → k ≠ ascii "tool_choice" → k ≠ ascii "stream" →
        R.get? k = raw.get? k) ∧
      R.get? (ascii "tools") = none ∧ R.get? (ascii "tool_choice") = none ∧
      R.get? (ascii "stream") = some (ascii "false") ∧
      R.get? (ascii "messages") = some (marshalMessages
        ({ Message.zero with role := ascii "system", content := some (encodeString
          (buildSystemPrompt (buildToolDescription tools)
            ((raw.get? (ascii "tool_choice")).elim [] parseToolChoice))) } :: msgs)) := by
  obtain ⟨raw, msgs, hraw, htools, hmsgs, hstream, rfl⟩ := RewriteRequest_eq_ok h hne
  obtain ⟨hs, ht, hc, hm, hk⟩ := rewriteRaw_get? raw (marshalMessages (injectSystemPrompt msgs
    (buildSystemPrompt (buildToolDescription tools) ((raw.get? (ascii "tool_choice")).elim [] parseToolChoice))))
  exact ⟨raw, msgs, _, hraw, htools, hmsgs, hstream, rfl, rewriteRaw_nodup (unmarshalRawMap_nodup hraw) _,
    hk, ht, hc, hs, hm⟩

set_option maxRecDepth 10000 in
/-- a streaming request with a `model` member and one tool: `model` is kept, `stream` becomes
`false`, and `RewriteRequest` reports that the client asked to stream -/
theorem RewriteRequest_rewrites_stream :
    let body := ascii "\x7b\"model\":\"m\",\"messages\":[\x7b\"role\":\"user\",\"content\":\"hi\"\x7d],\"tools\":[\x7b\"type\":\"function\",\"function\":\x7b\"name\":\"f\"\x7d\x7d],\"stream\":true\x7d"
    let raw : GoMap := [(ascii "stream", ascii "true"),
      (ascii "tools", ascii "[\x7b\"type\":\"function\",\"function\":\x7b\"name\":\"f\"\x7d\x7d]"),
      (ascii "messages", ascii "[\x7b\"role\":\"user\",\"content\":\"hi\"\x7d]"), (ascii "model", ascii "\"m\"")]
    let tools : List FunctionDef := [⟨ascii "f", [], []⟩]
    let msgs := [{ Message.zero with role := ascii "user", content := some (ascii "\"hi\"") }]
    let newBody := marshalRawMap (some (rewriteRaw raw (marshalMessages (injectSystemPrompt msgs
      (buildSystemPrompt (buildToolDescription tools) [])))))
    RewriteRequest body = .ok (newBody, tools, true) ∧ tools ≠ [] ∧
    ∃ (raw : GoMap) (msgs : List Message) (R : GoMap), unmarshalRawMap body = some (some raw) ∧
      (raw.get? (ascii "tools")).elim (some []) unmarshalTools = some tools ∧
      (raw.get? (ascii "messages")).elim (some []) unmarshalMessages = some msgs ∧
      true = (raw.get? (ascii "stream")).elim false unmarshalBool ∧
      newBody = marshalRawMap (some R) ∧ (R.map Prod.fst).Nodup ∧
      (∀ k, k ≠ ascii "messages" → k ≠ ascii "tools" → k ≠ ascii "tool_choice" → k ≠ ascii "stream" →
        R.get? k = raw.get? k) ∧
      R.get? (ascii "tools") = none ∧ R.get? (ascii "tool_choice") = none ∧
      R.get? (ascii "stream") = some (ascii "false") ∧
      R.get? (ascii "messages") = some (marshalMessages
        ({ Message.zero with role := ascii "system", content := some (encodeString
          (buildSystemPrompt (buildToolDescription tools)
            ((raw.get? (ascii "tool_choice")).elim [] parseToolChoice))) } :: msgs)) := by
  intro body raw tools msgs newBody
  have hraw : unmarshalRawMap body = some (some raw) := by decide
  have htools : (raw.get? (ascii "tools")).elim (some []) unmarshalTools = some tools := by decide
  have hmsgs : (raw.get? (ascii "messages")).elim (some []) unmarshalMessages = some msgs := by decide
  have hstream : (raw.get? (ascii "stream")).elim false unmarshalBool = true := by decide
  have hchoice : (raw.get? (ascii "tool_choice")).elim [] parseToolChoice = [] := by decide
  have h : RewriteRequest body = .ok (newBody, tools, true) := by
    rw [RewriteRequest_of_decoded hraw htools (by decide) hmsgs, hstream, hchoice]
  exact ⟨h, by decide, RewriteRequest_rewrites h (by decide)⟩

set_option maxRecDepth 10000 in
/-- a message member that no field of `Message` takes is dropped, and a message without
`content` is given `"content":null`: the user messages `\x7b"role":"user","content":"hi","x":1\x7d`
and `\x7b"role":"user"\x7d` come back as `\x7b"role":"user","content":"hi"\x7d` and
`\x7b"role":"user","content":null\x7d` -/
theorem RewriteRequest_drops_member :
    let body := ascii "\x7b\"messages\":[\x7b\"role\":\"user\",\"content\":\"hi\",\"x\":1\x7d,\x7b\"role\":\"user\"\x7d],\"tools\":[\x7b\"type\":\"function\",\"function\":\x7b\"name\":\"f\"\x7d\x7d]\x7d"
    ∃ (newBody : Bytes) (R : GoMap) (sys : Bytes), RewriteRequest body = .ok (newBody, [⟨ascii "f", [], []⟩], false) ∧
      newBody = marshalRawMap (some R) ∧
      R.get? (ascii "messages") = some ([0x5B] ++ sys ++
        ascii ",\x7b\"role\":\"user\",\"content\":\"hi\"\x7d,\x7b\"role\":\"user\",\"content\":null\x7d]") := by
  intro body
  let raw : GoMap :=
    [(ascii "tools", ascii "[\x7b\"type\":\"function\",\"function\":\x7b\"name\":\"f\"\x7d\x7d]"),
      (ascii "messages", ascii "[\x7b\"role\":\"user\",\"content\":\"hi\",\"x\":1\x7d,\x7b\"role\":\"user\"\x7d]")]
  let m1 : Message := { Message.zero with role := ascii "user", content := some (ascii "\"hi\"") }
  let m2 : Message := { Message.zero with role := ascii "user" }
  have hraw : unmarshalRawMap body = some (some raw) := by decide
  have htools : (raw.get? (ascii "tools")).elim (some []) unmarshalTools = some [⟨ascii "f", [], []⟩] := by
    decide
  have hmsgs : (raw.get? (ascii "messages")).elim (some []) unmarshalMessages = some [m1, m2] := by decide
  have hstream : (raw.get? (ascii "stream")).elim false unmarshalBool = false := by decide
  have e1 : marshalMessage m1 = ascii "\x7b\"role\":\"user\",\"content\":\"hi\"\x7d" := by decide
  have e2 : marshalMessage m2 = ascii "\x7b\"role\":\"user\",\"content\":null\x7d" := by decide
  have e3 : [0x2C] ++ (ascii "\x7b\"role\":\"user\",\"content\":\"hi\"\x7d" ++
      ([0x2C] ++ (ascii "\x7b\"role\":\"user\",\"content\":null\x7d" ++ [0x5D]))) =
      ascii ",\x7b\"role\":\"user\",\"content\":\"hi\"\x7d,\x7b\"role\":\"user\",\"content\":null\x7d]" := by
    decide
  let sysMsg : Message := { Message.zero with role := ascii "system", content := some (encodeString
    (buildSystemPrompt (buildToolDescription [⟨ascii "f", [], []⟩])
      ((raw.get? (ascii "tool_choice")).elim [] parseToolChoice))) }
  refine ⟨_, _, marshalMessage sysMsg, by rw [RewriteRequest_of_decoded hraw htools (by decide) hmsgs, hstream],
    rfl, ?_⟩
  rw [(rewriteRaw_get? _ _).2.2.2.1]
  simp only [marshalMessages, injectSystemPrompt, List.map_cons, List.map_nil, List.intercalate,
    List.intersperse_cons_cons, List.intersperse_singleton, List.flatten_cons, List.flatten_nil, e1, e2,
    List.append_nil, List.append_assoc, e3]

end GonkaProxy
