import Mathlib.Data.List.Sort
import GonkaProxy.Json.Decode

/-!
# `json.Marshal`: the encoder the tool-call rewrite runs

`json.Marshal` escapes for HTML: in a string `<`, `>` and `&` become `\u003c`, `\u003e`,
`\u0026`, U+2028 and U+2029 become `\u2028` and `\u2029`, and a byte that does not start a valid
UTF-8 sequence becomes `\ufffd` (Go 1.22, which also writes `\b` and `\f`).  A
`json.RawMessage` is copied through `compact`, which drops the white space outside strings and
makes the same HTML escapes.  A map is written with its keys in increasing order.

* `hexEncode`        `hex.EncodeToString`;
* `encodeString`     `appendString(dst, s, true)`;
* `compact`          `appendCompact(dst, src, true)` over a valid JSON text, which every
                     `RawMessage` the program marshals is: a value it decoded, or one it built;
* `marshalRawMap`    `json.Marshal` of a `map[string]json.RawMessage` (`nil` is `null`);
* `marshalRawMaps`   of a non-empty `[]map[string]json.RawMessage`.
-/

set_option linter.unusedSectionVars false
set_option linter.unusedVariables false

namespace GonkaProxy

/-- the lower-case hexadecimal digit of `n < 16` (`hex[n]`) -/
def hexDigit (n : Nat) : UInt8 := if n < 10 then (0x30 + n).toUInt8 else (0x61 + n - 10).toUInt8

/-- the lower-case hexadecimal digits of the bytes (`hex.EncodeToString`) -/
def hexEncode (b : Bytes) : Bytes := b.flatMap fun x => [hexDigit (x.toNat / 16), hexDigit (x.toNat % 16)]

/-- `\u00XY` for the byte `b` -/
def escapeU00 (b : UInt8) : Bytes := ascii "\\u00" ++ [hexDigit (b.toNat / 16), hexDigit (b.toNat % 16)]

/-- `htmlSafeSet`: an ASCII byte `appendString` copies as it is -/
def htmlSafe (b : UInt8) : Bool :=
  0x20 ≤ b && b < 0x80 && b != 0x22 && b != 0x5C && b != 0x3C && b != 0x3E && b != 0x26

/-- the body of `appendString` from the front on; `skip` more bytes of the rune just copied are
still to be copied -/
def encodeScan : Nat → Bytes → Bytes
  | _, [] => []
  | skip + 1, c :: s => c :: encodeScan skip s
  | 0, 0xE2 :: 0x80 :: 0xA8 :: s => ascii "\\u2028" ++ encodeScan 0 s
  | 0, 0xE2 :: 0x80 :: 0xA9 :: s => ascii "\\u2029" ++ encodeScan 0 s
  | 0, c :: s =>
    if c < 0x80 then
      (if htmlSafe c then [c]
        else if c = 0x5C ∨ c = 0x22 then [0x5C, c]
        else if c = 0x08 then ascii "\\b"
        else if c = 0x0C then ascii "\\f"
        else if c = 0x0A then ascii "\\n"
        else if c = 0x0D then ascii "\\r"
        else if c = 0x09 then ascii "\\t"
        else escapeU00 c) ++ encodeScan 0 s
    else if runeWidth (c :: s) = 0 then ascii "\\ufffd" ++ encodeScan 0 s
    else c :: encodeScan (runeWidth (c :: s) - 1) s

/-- `appendString(nil, s, true)`: the string literal of `s` -/
def encodeString (s : Bytes) : Bytes := [0x22] ++ encodeScan 0 s ++ [0x22]

example : encodeString (ascii "a<\"\n" ++ [0xFF]) = ascii "\"a\\u003c\\\"\\n\\ufffd\"" := by decide

/-- `appendCompact` from the front on; `inStr` whether the scan is inside a string, `esc` whether
the byte before was a backslash there -/
def compactScan : Bool → Bool → Bytes → Bytes
  | _, _, [] => []
  | inStr, _, 0xE2 :: 0x80 :: 0xA8 :: s => ascii "\\u2028" ++ compactScan inStr false s
  | inStr, _, 0xE2 :: 0x80 :: 0xA9 :: s => ascii "\\u2029" ++ compactScan inStr false s
  | inStr, esc, c :: s =>
    if c = 0x3C ∨ c = 0x3E ∨ c = 0x26 then escapeU00 c ++ compactScan inStr false s
    else if !inStr then
      (if isSpace c then compactScan false false s else c :: compactScan (c == 0x22) false s)
    else c :: compactScan (esc || c != 0x22) (!esc && c == 0x5C) s

/-- `appendCompact(nil, src, true)` -/
def compact (src : Bytes) : Bytes := compactScan false false src

example : compact (ascii " [ \"a b\" , 1 ] ") = ascii "[\"a b\",1]" := by decide

/-- `json.Marshal` of a `map[string]json.RawMessage`: `null` for a `nil` map, otherwise the
members in increasing order of their keys, each key as a string literal and each value
compacted -/
def marshalRawMap : Option (List (Bytes × Bytes)) → Bytes
  | none => ascii "null"
  | some m =>
    [0x7B] ++ [0x2C].intercalate ((m.insertionSort fun a b => a.1 ≤ b.1).map fun e =>
      encodeString e.1 ++ [0x3A] ++ compact e.2) ++ [0x7D]

/-- `json.Marshal` of a non-empty `[]map[string]json.RawMessage` -/
def marshalRawMaps (ms : List (Option (List (Bytes × Bytes)))) : Bytes :=
  [0x5B] ++ [0x2C].intercalate (ms.map marshalRawMap) ++ [0x5D]

example : marshalRawMaps [some [(ascii "b", ascii "1"), (ascii "a", ascii " true")], none] =
    ascii "[\x7b\"a\":true,\"b\":1\x7d,null]" := by decide

end GonkaProxy

