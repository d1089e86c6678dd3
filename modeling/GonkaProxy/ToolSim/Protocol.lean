import GonkaProxy.ToolSim.Parse
import GonkaProxy.Json.Codec

/-!
# Tool-call simulation: the reply the prompt asks for becomes `tool_calls`

`buildSystemPrompt` asks the model to answer with only a JSON array of objects with a `name` and
an `arguments` member, and shows the format inside a code fence.  This module follows such a
reply through `extractToolCalls` and `ParseResponse` to the `tool_calls` the client reads.

* `callObject`, `toolCallReply`, `fencedReply`   the reply: the array as `json.Marshal` writes
                                 it, bare or inside a fence whose first line names a language;
* `WellFormedCall`               a call whose name is valid UTF-8 and whose arguments are a value
                                 `json.Marshal` writes, leaving room for the two levels the
                                 reply wraps it in;
* `unmarshalCalls_toolCallReply`   the decoder fills the call structs with each name and the
                                 text of each arguments value;
* `extractToolCalls_toolCallReply`   every call of the reply comes out, in order, with its
                                 arguments as they were written, when every name is declared;
* `ToolCallMsg.toJValue`, `marshalToolCallMsgs_eq`   the hand-written `json.Marshal` of the
                                 `ToolCallMsg` slice is the generic one;
* `decode_marshalToolCallMsgs`   the `tool_calls` text reads back;
* `ParseResponse_toolCallReply`   the whole rewrite of an upstream body whose first message holds
                                 such a reply.
-/

set_option linter.unusedSectionVars false
set_option linter.unusedVariables false

namespace GonkaProxy

/-! ## the reply -/

/-- one element of the array `buildSystemPrompt` asks for: `{"name": ..., "arguments": ...}` -/
def callObject (c : Bytes × JValue) : JValue :=
  .object [(ascii "name", .string c.1), (ascii "arguments", c.2)]

/-- the array of calls `buildSystemPrompt` asks the model to reply with -/
def toolCallReply (calls : List (Bytes × JValue)) : JValue := .array (calls.map callObject)

/-- the reply inside a code fence whose opening line is three backticks and `lang` -/
def fencedReply (lang m : Bytes) : Bytes := ascii "```" ++ lang ++ 0x0A :: (m ++ ascii "\n```")

/-- a call the reply can carry through the decoder: its name is valid UTF-8, its arguments a value
`json.Marshal` writes, nested deep enough to leave room for the array and the object around it -/
def WellFormedCall (c : Bytes × JValue) : Prop :=
  Utf8 c.1 ∧ c.2.Canon ∧ c.2.depth + 2 ≤ maxNestingDepth

/-! ## decoding the reply -/

theorem toCall_callObject (c : Bytes × JValue) : (callObject c).toRaw.toCall = some ⟨c.1, c.2.marshal⟩ :=
  rfl

theorem canon_toolCallReply : ∀ {calls : List (Bytes × JValue)}, (∀ c ∈ calls, WellFormedCall c) →
    (toolCallReply calls).Canon ∧ (toolCallReply calls).depth ≤ maxNestingDepth
  | [], _ => ⟨trivial, by decide⟩
  | c :: cs, h => by
    obtain ⟨hc, hcs⟩ := List.forall_mem_cons.mp h
    obtain ⟨ih1, ih2⟩ := canon_toolCallReply hcs
    refine ⟨⟨⟨utf8_of_ascii (by decide), hc.1, utf8_of_ascii (by decide), hc.2.1, trivial⟩, ih1⟩, ?_⟩
    have := hc.2.2
    simp only [toolCallReply, List.map_cons, JValue.depth, itemsDepth, callObject, membersDepth] at ih2 ⊢
    omega

theorem mapM_toCall_rawItems : ∀ calls : List (Bytes × JValue),
    (rawItems (calls.map callObject)).mapM (fun e => e.1.toCall) =
      some (calls.map fun c => ⟨c.1, c.2.marshal⟩)
  | [] => rfl
  | c :: cs => by
    simp only [List.map_cons, rawItems, List.mapM_cons, toCall_callObject, mapM_toCall_rawItems cs]
    rfl

theorem unmarshalCalls_toolCallReply {calls : List (Bytes × JValue)} (h : ∀ c ∈ calls, WellFormedCall c) :
    unmarshalCalls (toolCallReply calls).marshal = some (calls.map fun c => ⟨c.1, c.2.marshal⟩) := by
  obtain ⟨h1, h2⟩ := canon_toolCallReply h
  rw [unmarshalCalls, decode_marshal h1 h2]
  exact mapM_toCall_rawItems calls

theorem validCalls_of_declared {tools : List Tool} : ∀ {calls : List CallFields},
    (∀ c ∈ calls, c.name ∈ tools.map (·.name)) →
    validCalls tools calls = calls.map fun c => ⟨c.name, callArguments c.arguments⟩
  | [], _ => rfl
  | c :: cs, h => by
    obtain ⟨hc, hcs⟩ := List.forall_mem_cons.mp h
    simp only [validCalls, List.filterMap_cons, if_pos hc, List.map_cons] at hcs ⊢
    exact congrArg _ (validCalls_of_declared hcs)

/-! ## trimming and fences -/

theorem fencedReply_ends (lang m : Bytes) :
    fencedReply lang m = 0x60 :: ((0x60 :: 0x60 :: (lang ++ 0x0A :: (m ++ [0x0A, 0x60, 0x60]))) ++ [0x60]) := by
  simp [fencedReply, ascii]; decide

theorem stripCodeFences_fencedReply {lang : Bytes} (hlang : 0x0A ∉ lang) (m : Bytes) :
    stripCodeFences (fencedReply lang m) = m ++ [0x0A] := by
  have hu : (0x0A : UInt8) ∉ ascii "```" ++ lang := by
    simpa [List.mem_append, not_or] using And.intro (by decide : (0x0A : UInt8) ∉ ascii "```") hlang
  have hlast : lastIndex (ascii "\n```") (ascii "```") = some 1 := by decide
  have hdrop : ((ascii "```" ++ lang) ++ 0x0A :: (m ++ ascii "\n```")).drop ((ascii "```" ++ lang).length + 1) =
      m ++ ascii "\n```" := by
    rw [← List.drop_drop, List.drop_left]; rfl
  rw [stripCodeFences, if_pos (by simp [fencedReply, List.append_assoc]), fencedReply, index_append_cons hu]
  simp only [hdrop, lastIndex_append hlast]
  rw [List.take_append_eq_append_take, List.take_of_length_le (by omega), Nat.add_sub_cancel_left]
  rfl

theorem trimmed_reply (M content : Bytes) (hM : ∃ t, M = 0x5B :: (t ++ [0x5D]))
    (h : content = M ∨ ∃ lang, 0x0A ∉ lang ∧ content = fencedReply lang M) :
    trimSpace (stripCodeFences (trimSpace content)) = M := by
  obtain ⟨t, rfl⟩ := hM
  have h5B : ∀ p ∈ spaceRunes, p.head? ≠ some 0x5B := by decide
  have h5D : ∀ p ∈ spaceRunes, p.getLast? ≠ some 0x5D := by decide
  rcases h with rfl | ⟨lang, hlang, rfl⟩
  · rw [trimSpace_of_ends h5B h5D, stripCodeFences, if_neg (show ¬ ascii "```" <+: 0x5B :: (t ++ [0x5D]) from
        fun h => absurd (List.cons_prefix_cons.mp h).1 (by decide)), trimSpace_of_ends h5B h5D]
  · rw [fencedReply_ends, trimSpace_of_ends (by decide) (by decide), ← fencedReply_ends,
      stripCodeFences_fencedReply hlang, trimSpace_of_ends_newline h5B h5D]

/-! ## `extractToolCalls` -/

/-- **A reply in the prompt's format gives its calls.**  For every declared tool list and every
non-empty list of calls naming declared tools, with names valid UTF-8 and arguments any value
`json.Marshal` writes, the reply the prompt asks for, bare or in a fence under any one-line
language tag, makes `extractToolCalls` return exactly these calls, in their order, each with the
compact text of its arguments (`{}` for `null`). -/
theorem extractToolCalls_toolCallReply (tools : List Tool) (calls : List (Bytes × JValue)) (hne : calls ≠ [])
    (hcalls : ∀ c ∈ calls, c.1 ∈ tools.map (·.name) ∧ WellFormedCall c) (content : Bytes)
    (hcontent : content = (toolCallReply calls).marshal ∨
      ∃ lang, 0x0A ∉ lang ∧ content = fencedReply lang (toolCallReply calls).marshal) :
    extractToolCalls content tools = calls.map fun c => ⟨c.1, callArguments c.2.marshal⟩ := by
  have hfields := unmarshalCalls_toolCallReply fun c hc => (hcalls c hc).2
  have hvalid : validCalls tools (calls.map fun c => ⟨c.1, c.2.marshal⟩) =
      calls.map fun c => ⟨c.1, callArguments c.2.marshal⟩ := by
    rw [validCalls_of_declared fun _ hc => by obtain ⟨x, hx, rfl⟩ := List.mem_map.mp hc; exact (hcalls x hx).1,
      List.map_map]
    rfl
  obtain ⟨c, cs, rfl⟩ := List.exists_cons_of_ne_nil hne
  rw [List.map_cons] at hfields hvalid ⊢
  rw [extractToolCalls, trimmed_reply (toolCallReply (c :: cs)).marshal content (JValue.marshal_array_ends _) hcontent]
  simp only [hfields, hvalid]
  exact if_pos (List.cons_ne_nil _ _)

example : extractToolCalls (fencedReply (ascii "json")
      (toolCallReply [(ascii "get_weather", .object [(ascii "city", .string (ascii "Paris"))])]).marshal)
    [⟨ascii "get_weather"⟩] = [⟨ascii "get_weather", ascii "\x7b\"city\":\"Paris\"\x7d"⟩] := by
  decide

/-! ## the `tool_calls` the client reads -/

/-- a `ToolCallMsg` as the value `json.Marshal` writes for it: the fields in their order, under
their tags, `Arguments` a string -/
def ToolCallMsg.toJValue (m : ToolCallMsg) : JValue :=
  .object [(ascii "id", .string m.id), (ascii "type", .string m.type),
    (ascii "function", .object [(ascii "name", .string m.function.name),
      (ascii "arguments", .string m.function.arguments)])]

/-- the texts of a call's fields are valid UTF-8 -/
def ToolCallMsg.Utf8Fields (m : ToolCallMsg) : Prop :=
  Utf8 m.id ∧ Utf8 m.type ∧ Utf8 m.function.name ∧ Utf8 m.function.arguments

theorem marshalToolCallMsg_eq (m : ToolCallMsg) : marshalToolCallMsg m = m.toJValue.marshal := by
  simp only [marshalToolCallMsg, ToolCallMsg.toJValue, JValue.marshal, marshalMembersTail, encodeString,
    List.append_assoc, List.cons_append, List.singleton_append]
  rfl

theorem marshalToolCallMsgs_eq (ms : List ToolCallMsg) :
    marshalToolCallMsgs ms = (JValue.array (ms.map ToolCallMsg.toJValue)).marshal := by
  rw [JValue.marshal_array, List.map_map, marshalToolCallMsgs]
  congr 3
  exact List.map_congr_left fun m _ => marshalToolCallMsg_eq m

theorem canon_toolCallMsgs : ∀ {ms : List ToolCallMsg}, (∀ m ∈ ms, m.Utf8Fields) →
    (JValue.array (ms.map ToolCallMsg.toJValue)).Canon ∧ (JValue.array (ms.map ToolCallMsg.toJValue)).depth ≤ 3
  | [], _ => ⟨trivial, by decide⟩
  | m :: ms, h => by
    obtain ⟨⟨h1, h2, h3, h4⟩, hms⟩ := List.forall_mem_cons.mp h
    obtain ⟨ih1, ih2⟩ := canon_toolCallMsgs hms
    refine ⟨⟨⟨utf8_of_ascii (by decide), h1, utf8_of_ascii (by decide), h2, utf8_of_ascii (by decide),
      ⟨utf8_of_ascii (by decide), h3, utf8_of_ascii (by decide), h4, trivial⟩, trivial⟩, ih1⟩, ?_⟩
    simp only [List.map_cons, JValue.depth, itemsDepth, ToolCallMsg.toJValue, membersDepth] at ih2 ⊢
    omega

theorem decode_marshalToolCallMsgs {ms : List ToolCallMsg} (h : ∀ m ∈ ms, m.Utf8Fields) :
    decode (marshalToolCallMsgs ms) = some (JValue.array (ms.map ToolCallMsg.toJValue)).toRaw := by
  obtain ⟨h1, h2⟩ := canon_toolCallMsgs h
  rw [marshalToolCallMsgs_eq, decode_marshal h1 (by unfold maxNestingDepth; omega)]

theorem generateToolCallID_ascii (rb : Bytes) : ∀ b ∈ generateToolCallID rb, b ≤ 0x7F := by
  intro b hb
  have hhex : ∀ n, n < 16 → hexDigit n ≤ 0x7F := by decide
  simp only [generateToolCallID, hexEncode, List.mem_append, List.mem_flatMap, List.mem_cons,
    List.mem_singleton, List.not_mem_nil, or_false] at hb
  rcases hb with hb | ⟨x, -, rfl | rfl⟩
  · exact (by decide : ∀ b ∈ ascii "call_", b ≤ 0x7F) b hb
  · exact hhex _ (by have : x.toNat < 256 := x.toNat_lt_size; omega)
  · exact hhex _ (Nat.mod_lt _ (by decide))

theorem utf8_toolCallMsgs (rnd : Nat → Bytes) : ∀ (i : Nat) (calls : List (Bytes × JValue)),
    (∀ c ∈ calls, WellFormedCall c) →
    ∀ m ∈ toolCallMsgs rnd i (calls.map fun c => ⟨c.1, callArguments c.2.marshal⟩), m.Utf8Fields
  | _, [], _ => by simp [toolCallMsgs]
  | i, c :: cs, h => by
    obtain ⟨hc, hcs⟩ := List.forall_mem_cons.mp h
    have hid : Utf8 (generateToolCallID (rnd i)) := utf8_of_ascii (generateToolCallID_ascii _)
    have hargs : Utf8 (callArguments c.2.marshal) := by
      unfold callArguments
      split
      · exact utf8_of_ascii (by decide)
      · exact c.2.utf8_marshal hc.2.1
    simp only [List.map_cons, toolCallMsgs, List.forall_mem_cons]
    exact ⟨⟨hid, utf8_of_ascii (l := ascii "function") (by decide), hc.1, hargs⟩,
      utf8_toolCallMsgs rnd (i + 1) cs hcs⟩

/-! ## `ParseResponse` -/

/-- **A reply in the prompt's format becomes the client's `tool_calls`.**  For every upstream body
that decodes to an object whose first choice holds a message whose `content` string is the reply
the prompt asks for (bare or fenced), naming declared tools with well-formed arguments,
`ParseResponse` rewrites that message with one `ToolCallMsg` per call of the reply, in order, each
with a fresh identifier, the call's name and the compact text of its arguments; and the
`tool_calls` text it writes decodes to exactly these values. -/
theorem ParseResponse_toolCallReply {respBody ch mb cb content : Bytes} {resp c0 msg : GoMap}
    {cs : List (Option GoMap)} (tools : List Tool) (rnd : Nat → Bytes) (calls : List (Bytes × JValue))
    (hne : calls ≠ []) (hcalls : ∀ c ∈ calls, c.1 ∈ tools.map (·.name) ∧ WellFormedCall c)
    (hresp : unmarshalRawMap respBody = some (some resp))
    (hch : resp.get? (ascii "choices") = some ch) (hcs : unmarshalRawMaps ch = some (some c0 :: cs))
    (hmb : c0.get? (ascii "message") = some mb) (hmsg : unmarshalRawMap mb = some (some msg))
    (hcb : msg.get? (ascii "content") = some cb) (hcontent : unmarshalString cb = some content)
    (hreply : content = (toolCallReply calls).marshal ∨
      ∃ lang, 0x0A ∉ lang ∧ content = fencedReply lang (toolCallReply calls).marshal) :
    let tcs := toolCallMsgs rnd 0 (calls.map fun c => ⟨c.1, callArguments c.2.marshal⟩)
    ParseResponse respBody tools rnd = rewriteResponse (some resp) (some c0) cs (some msg) tcs ∧
      decode (marshalToolCallMsgs tcs) = some (JValue.array (tcs.map ToolCallMsg.toJValue)).toRaw := by
  refine ⟨?_, decode_marshalToolCallMsgs (utf8_toolCallMsgs rnd 0 calls fun c hc => (hcalls c hc).2)⟩
  obtain ⟨c, cs', rfl⟩ := List.exists_cons_of_ne_nil hne
  have hx := extractToolCalls_toolCallReply tools _ hne hcalls content hreply
  rw [List.map_cons] at hx ⊢
  simp only [ParseResponse, hresp, getKey, Option.bind, hch, hcs, hmb, hmsg, hcb, hcontent, hx]

set_option maxRecDepth 20000 in
/-- the body `{"choices":[{"message":{"content":"[{\"name\":\"f\",\"arguments\":{}}]"}}]}` -/
theorem ParseResponse_toolCallReply_f :
    let cb := encodeString (toolCallReply [(ascii "f", .object [])]).marshal
    let mb := ascii "\x7b\"content\":" ++ cb ++ ascii "\x7d"
    let ch := ascii "[\x7b\"message\":" ++ mb ++ ascii "\x7d]"
    let tcs := toolCallMsgs (fun _ => []) 0 [⟨ascii "f", ascii "\x7b\x7d"⟩]
    ParseResponse (ascii "\x7b\"choices\":" ++ ch ++ ascii "\x7d") [⟨ascii "f"⟩] (fun _ => []) =
        rewriteResponse (some [(ascii "choices", ch)]) (some [(ascii "message", mb)]) []
          (some [(ascii "content", cb)]) tcs ∧
      decode (marshalToolCallMsgs tcs) = some (JValue.array (tcs.map ToolCallMsg.toJValue)).toRaw :=
  ParseResponse_toolCallReply [⟨ascii "f"⟩] (fun _ => []) [(ascii "f", .object [])] (List.cons_ne_nil _ _)
    (fun c hc => by rw [List.mem_singleton.mp hc]; exact ⟨by decide, utf8_of_ascii (by decide), trivial, by decide⟩)
    (by decide) rfl (by decide) rfl (by decide) rfl (by decide) (.inl rfl)

end GonkaProxy
