import GonkaProxy.Strings
import GonkaProxy.Json.Encode
import GonkaProxy.Sanitize.TokenMap

/-!
# Tool-call simulation: the reply turned into `tool_calls`

`ParseResponse` decodes the upstream body into Go maps, looks for tool calls in the content of
the first choice's message (`extractToolCalls`), and when it finds some, rewrites that message
and marshals the body again.  The decoding targets are those of the source:
`map[string]json.RawMessage` for the body, the message and each choice, `string` for the content,
and a slice of `struct { Name string; Arguments json.RawMessage }` for the calls, whose fields
take their member by exact name or, failing that, by folded name (Go 1.22's `foldName`).  A Go
call either returns or panics; the run-time panics are part of the result (`GoRun`).

* `unmarshalRawMap`, `unmarshalRawMaps`, `unmarshalString`   the decoding targets of
                                     `ParseResponse`; a `nil` map is `none`;
* `setKey`                           `m[k] = v`, which panics on a `nil` map;
* `foldEq`, `setCallField`, `unmarshalCalls`, `unmarshalSingle`   decoding a tool call;
* `stripCodeFences`, `extractToolCalls`   the three ways a reply can hold calls: the whole
                                     array, the bracketed substring, one object;
* `ParseResponse`                    the rewrite;
* `extractToolCalls_declared`        every returned call names a declared tool, and its
                                     arguments are never empty or `null`;
* `extractToolCalls_arguments`       every returned call is a decoded call object of the content,
                                     its arguments the JSON text of its `arguments` member, `{}`
                                     when that is missing or `null`;
* `extractToolCalls_string_arguments`   arguments given as a JSON string or number are passed on
                                     as that text;
* `ParseResponse_no_choices`, `ParseResponse_panics_iff`   the body `{}` panics, and the index
                                     into an absent `choices` is the only panic.
-/

set_option linter.unusedSectionVars false
set_option linter.unusedVariables false

namespace GonkaProxy

/-! ## decoding into Go maps and strings -/

/-- a JSON value decoded into a `map[string]json.RawMessage` that is `nil`: an object gives the
bytes of its members (the last of a key), `null` leaves the map `nil`, anything else is an
error -/
def RawJson.toRawMap : RawJson → Option (Option GoMap)
  | .object ms => some (some (ms.foldl (fun m e => m.set e.1 e.2.2) []))
  | .null => some none
  | _ => none

/-- `json.Unmarshal(data, &m)` with `m` a `nil` `map[string]json.RawMessage` -/
def unmarshalRawMap (data : Bytes) : Option (Option GoMap) := (decode data).bind RawJson.toRawMap

/-- `json.Unmarshal(data, &ms)` with `ms` a `nil` `[]map[string]json.RawMessage`: an array of
objects and `null`s, or `null` -/
def unmarshalRawMaps (data : Bytes) : Option (List (Option GoMap)) :=
  (decode data).bind fun v => match v with
    | .array items => items.mapM fun e => e.1.toRawMap
    | .null => some []
    | _ => none

/-- `json.Unmarshal(data, &s)` with `s` a `string` holding `""` -/
def unmarshalString (data : Bytes) : Option Bytes :=
  (decode data).bind fun v => match v with
    | .string s => some s
    | .null => some []
    | _ => none

/-- `m[k]` on a map that may be `nil` -/
def getKey (m : Option GoMap) (k : Bytes) : Option Bytes := m.bind fun m => m.get? k

/-- `m[k] = v`: a `nil` map panics -/
def setKey (m : Option GoMap) (k v : Bytes) : GoRun (Option GoMap) :=
  match m with
  | some m => .ok (some (m.set k v))
  | none => .panic "assignment to entry in nil map"

/-! ## decoding a tool call -/

/-- `Tool`, of which the rewrite reads `Function.Name` only -/
structure Tool where
  name : Bytes
  deriving DecidableEq, Repr

/-- an element of `calls`, or `single`: `Name`, and the bytes of `Arguments` (none for a `nil`
`RawMessage`) -/
structure CallFields where
  name : Bytes
  arguments : Bytes
  deriving DecidableEq, Repr

/-- the ASCII upper case of a byte -/
def upperAscii (c : UInt8) : UInt8 := if 0x61 ≤ c ∧ c ≤ 0x7A then c - 0x20 else c

/-- `foldName(key)` is the upper-case ASCII `name`: an ASCII byte folds to its upper case, `ſ`
(U+017F) to `S` and the Kelvin sign (U+212A) to `K`, and every other rune to a rune outside
ASCII -/
def foldEq : Bytes → Bytes → Bool
  | [], [] => true
  | n :: ns, 0xC5 :: 0xBF :: ks => n == 0x53 && foldEq ns ks
  | n :: ns, 0xE2 :: 0x84 :: 0xAA :: ks => n == 0x4B && foldEq ns ks
  | n :: ns, k :: ks => k < 0x80 && upperAscii k == n && foldEq ns ks
  | _, _ => false

/-- the field tagged `tag` takes the member `key`: the same name, or the same after folding -/
def fieldKey (tag key : Bytes) : Bool := key == tag || foldEq (tag.map upperAscii) key

/-- one member decoded into the struct: `Name` takes a string (`null` leaves it), `Arguments`
the member's bytes, whatever the value; another key is skipped -/
def setCallField (f : CallFields) (m : Bytes × RawJson × Bytes) : Option CallFields :=
  if fieldKey (ascii "name") m.1 then
    match m.2.1 with
    | .string s => some { f with name := s }
    | .null => some f
    | _ => none
  else if fieldKey (ascii "arguments") m.1 then some { f with arguments := m.2.2 }
  else some f

/-- a JSON value decoded into the struct: an object member by member; `null` leaves it zero -/
def RawJson.toCall : RawJson → Option CallFields
  | .object ms => ms.foldlM setCallField ⟨[], []⟩
  | .null => some ⟨[], []⟩
  | _ => none

/-- `json.Unmarshal(data, &calls)`.  The second call of `extractToolCalls` decodes into the slice
the first one filled; it only does so on the same text (a valid array starts at its first `[`
and ends at its last `]`), so it finds the same elements. -/
def unmarshalCalls (data : Bytes) : Option (List CallFields) :=
  (decode data).bind fun v => match v with
    | .array items => items.mapM fun e => e.1.toCall
    | .null => some []
    | _ => none

/-- `json.Unmarshal(data, &single)` -/
def unmarshalSingle (data : Bytes) : Option CallFields := (decode data).bind RawJson.toCall

/-! ## `extractToolCalls` -/

/-- `parsedToolCall` -/
structure ParsedToolCall where
  name : Bytes
  arguments : Bytes
  deriving DecidableEq, Repr

/-- `if args == "" || args == "null" { args = "{}" }` -/
def callArguments (args : Bytes) : Bytes := if args = [] ∨ args = ascii "null" then [0x7B, 0x7D] else args

/-- the loop over `calls`: those naming a tool of `validNames`, with their arguments -/
def validCalls (tools : List Tool) (calls : List CallFields) : List ParsedToolCall :=
  calls.filterMap fun c =>
    if c.name ∈ tools.map (·.name) then some ⟨c.name, callArguments c.arguments⟩ else none

/-- `stripCodeFences(s)` -/
def stripCodeFences (s : Bytes) : Bytes :=
  if ascii "```" <+: s then
    let s := match index s [0x0A] with
      | some i => s.drop (i + 1)
      | none => s
    match lastIndex s (ascii "```") with
    | some i => s.take i
    | none => s
  else s

/-- the calls of the bracketed substring, from the first `[` to the last `]`, when it decodes to a
non-empty slice -/
def bracketedCalls (content : Bytes) : Option (List CallFields) :=
  match index content [0x5B], lastIndex content [0x5D] with
  | some s, some e =>
    if s < e then
      match unmarshalCalls ((content.take (e + 1)).drop s) with
      | some (c :: cs) => some (c :: cs)
      | _ => none
    else none
  | _, _ => none

/-- `extractToolCalls(content, tools)` -/
def extractToolCalls (content : Bytes) (tools : List Tool) : List ParsedToolCall :=
  let content := trimSpace (stripCodeFences (trimSpace content))
  let whole := match unmarshalCalls content with
    | some (c :: cs) => validCalls tools (c :: cs)
    | _ => []
  if whole ≠ [] then whole
  else match bracketedCalls content with
    | some calls => validCalls tools calls
    | none =>
      match unmarshalSingle content with
      | some c =>
        if c.name ≠ [] ∧ c.name ∈ tools.map (·.name) then [⟨c.name, callArguments c.arguments⟩]
        else []
      | none => []

theorem callArguments_ne (args : Bytes) : callArguments args ≠ [] ∧ callArguments args ≠ ascii "null" := by
  unfold callArguments
  split
  · exact ⟨by decide, by decide⟩
  · rename_i h
    exact not_or.mp h

theorem mem_validCalls {tools : List Tool} {calls : List CallFields} {c : ParsedToolCall}
    (h : c ∈ validCalls tools calls) :
    c.name ∈ tools.map (·.name) ∧ ∃ f ∈ calls, c = ⟨f.name, callArguments f.arguments⟩ := by
  obtain ⟨f, hf, hc⟩ := List.mem_filterMap.mp h
  split at hc
  · cases hc; exact ⟨‹_›, f, hf, rfl⟩
  · cases hc

theorem extractToolCalls_nil (tools : List Tool) : extractToolCalls [] tools = [] := rfl

theorem bracketedCalls_slice {content : Bytes} {calls : List CallFields}
    (h : bracketedCalls content = some calls) :
    ∃ data, data <:+: content ∧ unmarshalCalls data = some calls := by
  unfold bracketedCalls at h
  split at h
  · split at h
    · split at h
      · cases h
        exact ⟨_, (List.drop_suffix _ _).isInfix.trans (List.take_prefix _ _).isInfix, ‹_›⟩
      · cases h
    · cases h
  · cases h

theorem mem_extractToolCalls {content : Bytes} {tools : List Tool} {c : ParsedToolCall}
    (hc : c ∈ extractToolCalls content tools) :
    c.name ∈ tools.map (·.name) ∧ ∃ f, c = ⟨f.name, callArguments f.arguments⟩ ∧
      ((∃ data calls, data <:+: trimSpace (stripCodeFences (trimSpace content)) ∧
          unmarshalCalls data = some calls ∧ f ∈ calls) ∨
        unmarshalSingle (trimSpace (stripCodeFences (trimSpace content))) = some f) := by
  unfold extractToolCalls at hc
  dsimp only at hc
  split at hc
  · split at hc
    · obtain ⟨hn, f, hf, rfl⟩ := mem_validCalls hc
      exact ⟨hn, f, rfl, .inl ⟨_, _, List.infix_refl _, ‹_›, hf⟩⟩
    · simp at hc
  · split at hc
    · obtain ⟨hn, f, hf, rfl⟩ := mem_validCalls hc
      obtain ⟨data, hd, hu⟩ := bracketedCalls_slice ‹_›
      exact ⟨hn, f, rfl, .inl ⟨data, _, hd, hu, hf⟩⟩
    · split at hc
      · split at hc
        · rename_i h
          simp only [List.mem_singleton] at hc
          subst hc
          exact ⟨h.2, _, rfl, .inr ‹_›⟩
        · simp at hc
      · simp at hc

/-- **Extracted calls name declared tools.**  For every reply content and every declared tool
list, each call `extractToolCalls` returns, by whichever of its three paths, names a declared
tool, and its arguments are never empty or `null` (a missing or `null` member becomes `{}`). -/
theorem extractToolCalls_declared (content : Bytes) (tools : List Tool) :
    ∀ c ∈ extractToolCalls content tools,
      c.name ∈ tools.map (·.name) ∧ c.arguments ≠ [] ∧ c.arguments ≠ ascii "null" := by
  intro c hc
  obtain ⟨hn, f, rfl, -⟩ := mem_extractToolCalls hc
  exact ⟨hn, callArguments_ne f.arguments⟩

/-- a call with number arguments out of a whole array -/
theorem extractToolCalls_declared_number :
    let c : ParsedToolCall := ⟨ascii "f", ascii "1"⟩
    c ∈ extractToolCalls (ascii "[\x7b\"name\":\"f\",\"arguments\":1\x7d]") [⟨ascii "f"⟩] ∧
      c.name ∈ ([⟨ascii "f"⟩] : List Tool).map (·.name) ∧ c.arguments ≠ [] ∧ c.arguments ≠ ascii "null" :=
  ⟨by decide, extractToolCalls_declared (ascii "[\x7b\"name\":\"f\",\"arguments\":1\x7d]") _ _
    (by decide)⟩

theorem mem_of_mapM_eq_some {α β : Type} {g : α → Option β} :
    ∀ {l : List α} {l' : List β}, l.mapM g = some l' → ∀ b ∈ l', ∃ a ∈ l, g a = some b
  | [], l', h, b, hb => by
    simp only [List.mapM_nil] at h
    cases h; cases hb
  | a :: l, l', h, b, hb => by
    simp only [List.mapM_cons] at h
    obtain ⟨b0, hb0, h⟩ := Option.bind_eq_some.mp h
    obtain ⟨bs, hbs, h⟩ := Option.bind_eq_some.mp h
    cases h
    rcases List.mem_cons.mp hb with rfl | hb
    · exact ⟨a, List.mem_cons_self _ _, hb0⟩
    · obtain ⟨a', ha', h'⟩ := mem_of_mapM_eq_some hbs b hb
      exact ⟨a', List.mem_cons_of_mem _ ha', h'⟩

theorem mem_unmarshalCalls {data : Bytes} {calls : List CallFields} (h : unmarshalCalls data = some calls)
    {f : CallFields} (hf : f ∈ calls) :
    ∃ items v, decode data = some (.array items) ∧ v ∈ items.map (·.1) ∧ v.toCall = some f := by
  obtain ⟨w, hw, h⟩ := Option.bind_eq_some.mp h
  cases w with
  | array items =>
    obtain ⟨e, he, hef⟩ := mem_of_mapM_eq_some h f hf
    exact ⟨items, e.1, hw, List.mem_map_of_mem _ he, hef⟩
  | null => cases h; cases hf
  | _ => cases h

theorem foldlM_setCallField_arguments : ∀ (ms : List (Bytes × RawJson × Bytes)) (f f' : CallFields),
    ms.foldlM setCallField f = some f' →
      f'.arguments = f.arguments ∨ ∃ m ∈ ms, fieldKey (ascii "arguments") m.1 = true ∧ f'.arguments = m.2.2
  | [], f, f', h => .inl (by cases h; rfl)
  | m :: ms, f, f', h => by
    simp only [List.foldlM_cons] at h
    obtain ⟨g, hg, h⟩ := Option.bind_eq_some.mp h
    rcases foldlM_setCallField_arguments ms g f' h with h1 | ⟨m', hm', hk, ha⟩
    · unfold setCallField at hg
      split at hg
      · refine .inl (h1.trans ?_)
        split at hg <;> cases hg <;> rfl
      · split at hg
        · cases hg; exact .inr ⟨m, List.mem_cons_self _ _, ‹_›, h1⟩
        · cases hg; exact .inl h1
    · exact .inr ⟨m', List.mem_cons_of_mem _ hm', hk, ha⟩

theorem toCall_arguments {v : RawJson} {f : CallFields} (h : v.toCall = some f) :
    f.arguments = [] ∨ ∃ ms m, v = .object ms ∧ m ∈ ms ∧ fieldKey (ascii "arguments") m.1 = true ∧
      f.arguments = m.2.2 := by
  cases v with
  | object ms =>
    rcases foldlM_setCallField_arguments ms _ f h with h | ⟨m, hm, hk, ha⟩
    · exact .inl h
    · exact .inr ⟨ms, m, rfl, hm, hk, ha⟩
  | null => cases h; exact .inl rfl
  | _ => cases h

example : extractToolCalls (ascii "```json\n[\x7b\"NAME\":\"f\",\"arguments\":null\x7d, \x7b\"name\":\"g\"\x7d]\n```")
    [⟨ascii "f"⟩, ⟨ascii "g"⟩] = [⟨ascii "f", ascii "\x7b\x7d"⟩, ⟨ascii "g", ascii "\x7b\x7d"⟩] := by
  decide

/-! ## `ParseResponse` -/

/-- `ToolCallMsg`, its `Function` a `FunctionCall` with the two fields of `parsedToolCall` -/
structure ToolCallMsg where
  id : Bytes
  type : Bytes
  function : ParsedToolCall

/-- `generateToolCallID()`, from the twelve bytes `rand.Read` gave -/
def generateToolCallID (b : Bytes) : Bytes := ascii "call_" ++ hexEncode b

/-- the loop building `toolCallMsgs`; `rnd i` are the random bytes of the `i`-th identifier -/
def toolCallMsgs (rnd : Nat → Bytes) : Nat → List ParsedToolCall → List ToolCallMsg
  | _, [] => []
  | i, tc :: tcs => ⟨generateToolCallID (rnd i), ascii "function", tc⟩ :: toolCallMsgs rnd (i + 1) tcs

/-- `json.Marshal` of a `ToolCallMsg` -/
def marshalToolCallMsg (m : ToolCallMsg) : Bytes :=
  ascii "\x7b\"id\":" ++ encodeString m.id ++ ascii ",\"type\":" ++ encodeString m.type ++
    ascii ",\"function\":\x7b\"name\":" ++ encodeString m.function.name ++ ascii ",\"arguments\":" ++
    encodeString m.function.arguments ++ ascii "\x7d\x7d"

/-- `json.Marshal` of a `[]ToolCallMsg` made with `make` -/
def marshalToolCallMsgs (ms : List ToolCallMsg) : Bytes :=
  [0x5B] ++ [0x2C].intercalate (ms.map marshalToolCallMsg) ++ [0x5D]

/-- the rewrite once calls were found: the message, the first choice, then the body; the last
`json.Marshal(resp)` cannot fail, every value being valid JSON -/
def rewriteResponse (resp c0 : Option GoMap) (cs : List (Option GoMap)) (msg : Option GoMap)
    (tcs : List ToolCallMsg) : GoRun Bytes := do
  let msg ← setKey msg (ascii "role") (ascii "\"assistant\"")
  let msg ← setKey msg (ascii "content") (ascii "null")
  let msg ← setKey msg (ascii "tool_calls") (marshalToolCallMsgs tcs)
  let c0 ← setKey c0 (ascii "message") (marshalRawMap msg)
  let c0 ← setKey c0 (ascii "finish_reason") (ascii "\"tool_calls\"")
  let resp ← setKey resp (ascii "choices") (marshalRawMaps (c0 :: cs))
  pure (marshalRawMap resp)

/-- `ParseResponse(respBody, tools, originalModel)` (which does not read `originalModel`); `rnd`
are the bytes of the identifiers -/
def ParseResponse (respBody : Bytes) (tools : List Tool) (rnd : Nat → Bytes) : GoRun Bytes :=
  match unmarshalRawMap respBody with
  | none => .ok respBody
  | some resp =>
    let choices : Option (List (Option GoMap)) := match getKey resp (ascii "choices") with
      | some c => match unmarshalRawMaps c with
        | some (c0 :: cs) => some (c0 :: cs)
        | _ => none
      | none => some []
    match choices with
    | none => .ok respBody
    | some [] => .panic "runtime error: index out of range [0] with length 0"
    | some (c0 :: cs) =>
      let msg : Option (Option GoMap) := match getKey c0 (ascii "message") with
        | some m => unmarshalRawMap m
        | none => some none
      match msg with
      | none => .ok respBody
      | some msg =>
        let content : Option Bytes := match getKey msg (ascii "content") with
          | some c => unmarshalString c
          | none => some []
        match content with
        | none => .ok respBody
        | some content =>
          match extractToolCalls content tools with
          | [] => .ok respBody
          | tc :: tcs => rewriteResponse resp c0 cs msg (toolCallMsgs rnd 0 (tc :: tcs))

/-! ## what `ParseResponse` can do -/

theorem rewriteResponse_ok (resp c0 msg : GoMap) (cs : List (Option GoMap)) (tcs : List ToolCallMsg) :
    ∃ b, rewriteResponse (some resp) (some c0) cs (some msg) tcs = .ok b :=
  ⟨_, rfl⟩

theorem ParseResponse_ok_of_choices {respBody : Bytes} {resp : Option GoMap} {c : Bytes}
    (tools : List Tool) (rnd : Nat → Bytes) (hresp : unmarshalRawMap respBody = some resp)
    (hc : getKey resp (ascii "choices") = some c) : ∃ b, ParseResponse respBody tools rnd = .ok b := by
  have hr : ∃ r, resp = some r := by
    cases resp with
    | none => cases hc
    | some r => exact ⟨r, rfl⟩
  obtain ⟨r, rfl⟩ := hr
  unfold ParseResponse
  simp only [hresp, hc]
  split
  · exact ⟨_, rfl⟩
  · rename_i h; split at h <;> cases h
  · rename_i c0 cs _
    split
    · exact ⟨_, rfl⟩
    · rename_i msg hmsg
      split
      · exact ⟨_, rfl⟩
      · rename_i content hcontent
        split
        · exact ⟨_, rfl⟩
        · rename_i tc tcs hcalls
          have hne : content ≠ [] := by
            rintro rfl; rw [extractToolCalls_nil] at hcalls; cases hcalls
          obtain ⟨m, rfl⟩ : ∃ m, msg = some m := by
            cases msg with
            | none => simp [getKey] at hcontent; exact absurd hcontent hne
            | some m => exact ⟨m, rfl⟩
          obtain ⟨c0', rfl⟩ : ∃ c0', c0 = some c0' := by
            cases c0 with
            | none => simp [getKey] at hmsg
            | some c0' => exact ⟨c0', rfl⟩
          exact rewriteResponse_ok _ _ _ _ _

/-- the body `{}`, or `null`, makes `ParseResponse` index the `nil` slice `choices` -/
theorem ParseResponse_no_choices (tools : List Tool) (rnd : Nat → Bytes) :
    ParseResponse (ascii "\x7b\x7d") tools rnd = .panic "runtime error: index out of range [0] with length 0" ∧
    ParseResponse (ascii "null") tools rnd = .panic "runtime error: index out of range [0] with length 0" :=
  ⟨rfl, rfl⟩

/-- **The only panic of `ParseResponse`.**  For every body, tool list and identifiers,
`ParseResponse` panics exactly when the body decodes to `null` or to an object without a
`choices` member: the index `choices[0]` into the `nil` slice.  No write to a `nil` map is
reached. -/
theorem ParseResponse_panics_iff (respBody : Bytes) (tools : List Tool) (rnd : Nat → Bytes) :
    (∃ e, ParseResponse respBody tools rnd = .panic e) ↔
      ∃ resp, unmarshalRawMap respBody = some resp ∧ getKey resp (ascii "choices") = none := by
  constructor
  · rintro ⟨e, he⟩
    cases hresp : unmarshalRawMap respBody with
    | none => simp [ParseResponse, hresp] at he
    | some resp =>
      refine ⟨resp, rfl, ?_⟩
      cases hc : getKey resp (ascii "choices") with
      | none => rfl
      | some c =>
        obtain ⟨b, hb⟩ := ParseResponse_ok_of_choices tools rnd hresp hc
        rw [hb] at he; cases he
  · rintro ⟨resp, hresp, hc⟩
    exact ⟨_, by simp only [ParseResponse, hresp, hc]; rfl⟩

end GonkaProxy
