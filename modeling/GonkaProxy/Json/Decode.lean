import GonkaProxy.Json.Scanner

/-!
# `json.Unmarshal`: the document as the decoder walks it

`json.Unmarshal(data, v)` first runs `checkValid` over the whole input (`Json.Scanner`); only a
valid document is decoded.  The decoder then walks the document with the type of `v` in hand:
strings are unquoted, and a `json.RawMessage` target receives the exact bytes of its value.

* `unquote`                  `unquoteBytes`: escapes, surrogate pairs, and a U+FFFD for every
                             byte that does not start a valid UTF-8 sequence;
* `RawJson`                  the walked document: literals, unquoted strings, and for every array
                             element and object member the bytes it was read from;
* `parseValue`, `parseElements`, `parseMembers`   the walk, one round of fuel per call;
* `decode`                   `checkValid`, then the walk of the whole input;
* `RawJson.toStrings`        the value a `[]string` target receives.
-/

set_option linter.unusedSectionVars false
set_option linter.unusedVariables false

namespace GonkaProxy

/-! ## `unquote` -/

/-- the value of a hexadecimal digit -/
def hexVal (c : UInt8) : Option Nat :=
  if 0x30 ≤ c ∧ c ≤ 0x39 then some (c.toNat - 0x30)
  else if 0x61 ≤ c ∧ c ≤ 0x66 then some (c.toNat - 0x61 + 10)
  else if 0x41 ≤ c ∧ c ≤ 0x46 then some (c.toNat - 0x41 + 10)
  else none

/-- `getu4(s)`: the four hex digits of a `\uXXXX` at the front of `s` -/
def getu4 : Bytes → Option Nat
  | 0x5C :: 0x75 :: a :: b :: c :: d :: _ => do
    let a ← hexVal a; let b ← hexVal b; let c ← hexVal c; let d ← hexVal d
    pure (((a * 16 + b) * 16 + c) * 16 + d)
  | _ => none

/-- `utf8.EncodeRune`; a surrogate or a value past U+10FFFF gives U+FFFD -/
def encodeRune (r : Nat) : Bytes :=
  if r < 0x80 then [r.toUInt8]
  else if r < 0x800 then [(0xC0 + r / 0x40).toUInt8, (0x80 + r % 0x40).toUInt8]
  else if 0xD800 ≤ r ∧ r < 0xE000 ∨ 0x10FFFF < r then [0xEF, 0xBF, 0xBD]
  else if r < 0x10000 then
    [(0xE0 + r / 0x1000).toUInt8, (0x80 + r / 0x40 % 0x40).toUInt8, (0x80 + r % 0x40).toUInt8]
  else
    [(0xF0 + r / 0x40000).toUInt8, (0x80 + r / 0x1000 % 0x40).toUInt8,
      (0x80 + r / 0x40 % 0x40).toUInt8, (0x80 + r % 0x40).toUInt8]

/-- `utf16.DecodeRune(r1, r2)` -/
def decodeSurrogates (r1 r2 : Nat) : Nat :=
  if 0xD800 ≤ r1 ∧ r1 < 0xDC00 ∧ 0xDC00 ≤ r2 ∧ r2 < 0xE000 then
    (r1 - 0xD800) * 0x400 + (r2 - 0xDC00) + 0x10000
  else 0xFFFD

/-- a continuation byte `%x80-BF` -/
def isTailByte (b : UInt8) : Bool := 0x80 ≤ b && b ≤ 0xBF

/-- the length of the valid UTF-8 sequence at the front of `s`, `0` if there is none: what
`utf8.DecodeRune` reads, RFC 3629's table -/
def runeWidth : Bytes → Nat
  | [] => 0
  | c :: s =>
    if c < 0x80 then 1
    else match s with
      | b1 :: s =>
        if 0xC2 ≤ c ∧ c ≤ 0xDF then (if isTailByte b1 then 2 else 0)
        else match s with
          | b2 :: s =>
            if c = 0xE0 ∧ 0xA0 ≤ b1 ∧ b1 ≤ 0xBF ∨ (0xE1 ≤ c ∧ c ≤ 0xEC ∨ 0xEE ≤ c ∧ c ≤ 0xEF) ∧
                isTailByte b1 ∨ c = 0xED ∧ 0x80 ≤ b1 ∧ b1 ≤ 0x9F then
              (if isTailByte b2 then 3 else 0)
            else match s with
              | b3 :: _ =>
                if (c = 0xF0 ∧ 0x90 ≤ b1 ∧ b1 ≤ 0xBF ∨ 0xF1 ≤ c ∧ c ≤ 0xF3 ∧ isTailByte b1 ∨
                    c = 0xF4 ∧ 0x80 ≤ b1 ∧ b1 ≤ 0x8F) ∧ isTailByte b2 ∧ isTailByte b3 then 4
                else 0
              | [] => 0
          | [] => 0
      | [] => 0

/-- the loop of `unquoteBytes` over the bytes between the quotes; `skip` more bytes of the
sequence just decoded are still to be passed over -/
def unquoteScan : Nat → Bytes → Bytes
  | _, [] => []
  | skip + 1, _ :: s => unquoteScan skip s
  | 0, 0x5C :: c :: s =>
    if c = 0x22 ∨ c = 0x5C ∨ c = 0x2F ∨ c = 0x27 then c :: unquoteScan 0 s
    else if c = 0x62 then 0x08 :: unquoteScan 0 s
    else if c = 0x66 then 0x0C :: unquoteScan 0 s
    else if c = 0x6E then 0x0A :: unquoteScan 0 s
    else if c = 0x72 then 0x0D :: unquoteScan 0 s
    else if c = 0x74 then 0x09 :: unquoteScan 0 s
    else if c = 0x75 then
      match getu4 (0x5C :: c :: s) with
      | none => []
      | some r =>
        if 0xD800 ≤ r ∧ r < 0xE000 then
          match getu4 (s.drop 4) with
          | some r2 =>
            if decodeSurrogates r r2 ≠ 0xFFFD then encodeRune (decodeSurrogates r r2) ++ unquoteScan 10 s
            else encodeRune 0xFFFD ++ unquoteScan 4 s
          | none => encodeRune 0xFFFD ++ unquoteScan 4 s
        else encodeRune r ++ unquoteScan 4 s
    else []
  | 0, c :: s =>
    if c < 0x80 then c :: unquoteScan 0 s
    else if runeWidth (c :: s) = 0 then [0xEF, 0xBF, 0xBD] ++ unquoteScan 0 s
    else (c :: s).take (runeWidth (c :: s)) ++ unquoteScan (runeWidth (c :: s) - 1) s

/-- the bytes a string literal decodes to, from the bytes between its quotes -/
def unquote (body : Bytes) : Bytes := unquoteScan 0 body

example : unquote (ascii "a\\u00e9\\ud83d\\ude00\\n") =
    ascii "a" ++ [0xC3, 0xA9] ++ [0xF0, 0x9F, 0x98, 0x80] ++ [0x0A] := by decide

example : unquote [0x61, 0xFF, 0xC3, 0xA9] = [0x61, 0xEF, 0xBF, 0xBD, 0xC3, 0xA9] := by decide

/-! ## the walk -/

/-- a JSON document as the decoder walks it: strings unquoted, numbers as their literal, and
every array element and object member with the bytes it was read from -/
inductive RawJson where
  | null
  | bool (b : Bool)
  | number (lit : Bytes)
  | string (s : Bytes)
  | array (items : List (RawJson × Bytes))
  | object (members : List (Bytes × RawJson × Bytes))
  deriving Repr

/-- the insignificant white space before a value -/
def skipSpace (s : Bytes) : Bytes := s.dropWhile isSpace

/-- a byte `rescanLiteral` keeps in a number -/
def isNumberByte (c : UInt8) : Bool :=
  isDigit c || c == 0x2E || c == 0x65 || c == 0x45 || c == 0x2B || c == 0x2D

/-- the bytes of a string literal up to its closing quote, and what follows it -/
def stringBody : Bytes → Option (Bytes × Bytes)
  | [] => none
  | 0x22 :: rest => some ([], rest)
  | 0x5C :: c :: rest => (stringBody rest).map fun r => (0x5C :: c :: r.1, r.2)
  | c :: rest => (stringBody rest).map fun r => (c :: r.1, r.2)

mutual
/-- one value, after white space; what follows it -/
def parseValue : Nat → Bytes → Option (RawJson × Bytes)
  | 0, _ => none
  | fuel + 1, s =>
    match skipSpace s with
    | 0x7B :: rest =>
      match skipSpace rest with
      | 0x7D :: rest' => some (.object [], rest')
      | _ => (parseMembers fuel rest []).map fun r => (.object r.1, r.2)
    | 0x5B :: rest =>
      match skipSpace rest with
      | 0x5D :: rest' => some (.array [], rest')
      | _ => (parseElements fuel rest []).map fun r => (.array r.1, r.2)
    | 0x22 :: rest => (stringBody rest).map fun r => (.string (unquote r.1), r.2)
    | 0x74 :: 0x72 :: 0x75 :: 0x65 :: rest => some (.bool true, rest)
    | 0x66 :: 0x61 :: 0x6C :: 0x73 :: 0x65 :: rest => some (.bool false, rest)
    | 0x6E :: 0x75 :: 0x6C :: 0x6C :: rest => some (.null, rest)
    | c :: rest =>
      if c = 0x2D ∨ isDigit c then
        some (.number (c :: rest.takeWhile isNumberByte), rest.dropWhile isNumberByte)
      else none
    | [] => none

/-- the elements of an array from the next one on, `acc` those read so far, last first -/
def parseElements : Nat → Bytes → List (RawJson × Bytes) → Option (List (RawJson × Bytes) × Bytes)
  | 0, _, _ => none
  | fuel + 1, s, acc =>
    match parseValue fuel (skipSpace s) with
    | none => none
    | some (v, rest) =>
      let acc := (v, (skipSpace s).take ((skipSpace s).length - rest.length)) :: acc
      match skipSpace rest with
      | 0x2C :: rest' => parseElements fuel rest' acc
      | 0x5D :: rest' => some (acc.reverse, rest')
      | _ => none

/-- the members of an object from the next one on, `acc` those read so far, last first -/
def parseMembers : Nat → Bytes → List (Bytes × RawJson × Bytes) →
    Option (List (Bytes × RawJson × Bytes) × Bytes)
  | 0, _, _ => none
  | fuel + 1, s, acc =>
    match skipSpace s with
    | 0x22 :: rest =>
      match stringBody rest with
      | none => none
      | some (key, rest) =>
        match skipSpace rest with
        | 0x3A :: rest =>
          match parseValue fuel (skipSpace rest) with
          | none => none
          | some (v, rest') =>
            let acc := (unquote key, v, (skipSpace rest).take ((skipSpace rest).length - rest'.length)) :: acc
            match skipSpace rest' with
            | 0x2C :: rest'' => parseMembers fuel rest'' acc
            | 0x7D :: rest'' => some (acc.reverse, rest'')
            | _ => none
        | _ => none
    | _ => none
end

/-- `json.Unmarshal`'s view of `data`: nothing unless `checkValid` accepts it, then the walk of the
document, with fuel for two calls per byte -/
def decode (data : Bytes) : Option RawJson :=
  if checkValid data then (parseValue (2 * data.length + 2) data).map Prod.fst else none

/-! ## targets -/

/-- what a `[]string` receives: an array of strings (a `null` element leaves `""`), or `nil` for
`null`; anything else is an `UnmarshalTypeError` -/
def RawJson.toStrings : RawJson → Option (List Bytes)
  | .null => some []
  | .array items => items.mapM fun e =>
    match e.1 with
    | .string s => some s
    | .null => some []
    | _ => none
  | _ => none

/-- `json.Unmarshal(data, &values)` with `values` a `[]string` -/
def unmarshalStrings (data : Bytes) : Option (List Bytes) := (decode data).bind RawJson.toStrings

example : unmarshalStrings (ascii " [\"a\", null, \"b\\\"c\"] ") = some [ascii "a", [], ascii "b\"c"] := by
  decide

end GonkaProxy
