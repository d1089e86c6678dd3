import GonkaProxy.Json.Encode

/-!
# The request signer: deterministic ECDSA over secp256k1

`Sign(payload, address)` hashes `hex(SHA-256(payload)) ++ decimal(ts) ++ address` with SHA-256,
signs the digest with the nonce of RFC 6979 (`generateRFC6979K`), moves `s` to the lower half of
`[0, n)` and writes `r ‖ s` as 64 bytes in base64.  SHA-256 and the scalar multiplication of the
curve are library calls: they are parameters here (`Primitives`), and nothing below assumes more
of them than that a digest has 32 bytes.  The loop of `generateRFC6979K` draws candidates until
one lies in `[1, n-1]`, which depends on the HMAC outputs; the model gives it `fuel` rounds.

* `secp256k1N`                 the order `n` of the base point;
* `ofBE`, `toBE`, `bigBytes`   `SetBytes`, and the big-endian bytes of a number (`Bytes()`);
* `hmacSha256`                 `hmac.New(sha256.New, key)`;
* `int2octets`, `bits2int`, `bits2octets`, `generateRFC6979K`   RFC 6979, section 3.2;
* `bits2octets_spec`           `bits2int` keeps fewer than `qlen` bits, so one subtraction of `q`
                               reduces it, and `bits2octets` is the `⌈qlen / 8⌉` bytes of the
                               residue;
* `modInverse`                 `ModInverse`, by the extended Euclidean algorithm;
* `rfc6979Sign`, `lowS`, `copyBelow`, `Sign`   the signature, the low-S step and the encoding;
* `Sign_encoding`              neither 32-byte copy panics; whenever `Sign` returns, its signature
                               is the base64 of 64 bytes whose halves are `r = x(kG) mod n` and
                               `min(s0, n - s0)`, which is at most `(n-1)/2`, with `k` in
                               `[1, n-1]` and `kInv` its inverse.
-/

set_option linter.unusedSectionVars false
set_option linter.unusedVariables false

namespace GonkaProxy

/-- the order of the secp256k1 base point, `S256().Params().N` -/
def secp256k1N : Nat := 0xFFFFFFFFFFFFFFFFFFFFFFFFFFFFFFFEBAAEDCE6AF48A03BBFD25E8CD0364141

/-- the library functions `Sign` calls: SHA-256, whose digests have 32 bytes, and the
x-coordinate of `curve.ScalarBaseMult(k.Bytes())` -/
structure Primitives where
  sha256 : Bytes → Bytes
  sha256_length : ∀ m, (sha256 m).length = 32
  baseMultX : Nat → Nat

/-! ## numbers as bytes -/

/-- `new(big.Int).SetBytes(b)`: the bytes read big-endian -/
def ofBE (b : Bytes) : Nat := b.foldl (fun acc x => acc * 256 + x.toNat) 0

/-- the `w` low-order bytes of `v`, big-endian -/
def toBE : Nat → Nat → Bytes
  | 0, _ => []
  | w + 1, v => toBE w (v / 256) ++ [(v % 256).toUInt8]

/-- the number of bits of `v`, by at most `fuel` halvings -/
def bitLenAux : Nat → Nat → Nat
  | 0, _ => 0
  | fuel + 1, v => if v = 0 then 0 else bitLenAux fuel (v / 2) + 1

/-- `v.BitLen()` -/
def bitLen (v : Nat) : Nat := bitLenAux v v

/-- `v.Bytes()`: the big-endian bytes of `v`, without leading zeros -/
def bigBytes (v : Nat) : Bytes := toBE ((bitLen v + 7) / 8) v

/-- `base64.StdEncoding`'s alphabet -/
def b64Char (n : Nat) : UInt8 :=
  if n < 26 then (65 + n).toUInt8 else if n < 52 then (97 + n - 26).toUInt8
  else if n < 62 then (48 + n - 52).toUInt8 else if n = 62 then 43 else 47

/-- `base64.StdEncoding.EncodeToString(b)`: three bytes to four characters, `=` padding -/
def base64Encode : Bytes → Bytes
  | a :: b :: c :: rest =>
    let v := a.toNat * 65536 + b.toNat * 256 + c.toNat
    [b64Char (v / 262144), b64Char (v / 4096 % 64), b64Char (v / 64 % 64), b64Char (v % 64)] ++
      base64Encode rest
  | [a, b] =>
    let v := a.toNat * 65536 + b.toNat * 256
    [b64Char (v / 262144), b64Char (v / 4096 % 64), b64Char (v / 64 % 64), 61]
  | [a] => [b64Char (a.toNat * 65536 / 262144), b64Char (a.toNat * 65536 / 4096 % 64), 61, 61]
  | [] => []

example : base64Encode (ascii "Man") = ascii "TWFu" ∧ base64Encode (ascii "Ma") = ascii "TWE=" := by
  decide

section
variable (P : Primitives)

/-! ## RFC 6979 -/

/-- `hmac.New(sha256.New, key)`, then `Write(msg)` and `Sum(nil)`: RFC 2104 with 64-byte blocks -/
def hmacSha256 (key msg : Bytes) : Bytes :=
  let k := if key.length > 64 then P.sha256 key else key
  let k := k ++ List.replicate (64 - k.length) 0
  P.sha256 (k.map (· ^^^ 0x5C) ++ P.sha256 (k.map (· ^^^ 0x36) ++ msg))

/-- `int2octets(v, qlen)`: `v.Bytes()` padded or cut on the left to `(qlen + 7) / 8` bytes -/
def int2octets (v qlen : Nat) : Bytes :=
  let rlen := (qlen + 7) / 8
  let out := bigBytes v
  let out := if out.length < rlen then List.replicate (rlen - out.length) 0 ++ out else out
  if out.length > rlen then out.drop (out.length - rlen) else out

/-- `bits2int(b, qlen)`: the leftmost `qlen` bits of `b` -/
def bits2int (b : Bytes) (qlen : Nat) : Nat :=
  if 8 * b.length > qlen then ofBE b / 2 ^ (8 * b.length - qlen) else ofBE b

/-- `bits2octets(b, q, qlen)` -/
def bits2octets (b : Bytes) (q qlen : Nat) : Bytes :=
  let z1 := bits2int b qlen
  int2octets (if z1 < q then z1 else z1 - q) qlen

/-- `for len(t)*8 < qlen { V = HMAC_K(V); t = append(t, V...) }`, for at most `fuel` rounds
(`qlen` of them are more than the `⌈qlen / 256⌉` it takes) -/
def fillT (K : Bytes) (qlen : Nat) : Nat → Bytes → Bytes → Bytes × Bytes
  | 0, V, T => (V, T)
  | fuel + 1, V, T =>
    if T.length * 8 < qlen then fillT K qlen fuel (hmacSha256 P K V) (T ++ hmacSha256 P K V)
    else (V, T)

/-- step h: candidates until one lies in `[1, N-1]`, for `fuel` rounds -/
def kLoop (N qlen : Nat) : Nat → Bytes → Bytes → Option Nat
  | 0, _, _ => none
  | fuel + 1, K, V =>
    let VT := fillT P K qlen qlen V []
    if 0 < bits2int VT.2 qlen ∧ bits2int VT.2 qlen < N then some (bits2int VT.2 qlen)
    else
      let K' := hmacSha256 P K (VT.1 ++ [0x00])
      kLoop N qlen fuel K' (hmacSha256 P K' VT.1)

/-- `generateRFC6979K(N, D, hash)`: steps a to g, then `fuel` rounds of step h -/
def generateRFC6979K (N D : Nat) (hash : Bytes) (fuel : Nat) : Option Nat :=
  let qlen := bitLen N
  let bx := int2octets D qlen
  let bh := bits2octets hash N qlen
  let K := hmacSha256 P (List.replicate 32 0) (List.replicate 32 1 ++ [0x00] ++ bx ++ bh)
  let V := hmacSha256 P K (List.replicate 32 1)
  let K := hmacSha256 P K (V ++ [0x01] ++ bx ++ bh)
  kLoop P N qlen fuel K (hmacSha256 P K V)

end

/-! ## the signature -/

/-- the extended Euclidean algorithm from the remainders `r0, r1` and the coefficients `s0, s1`
of the number inverted, for at most `fuel` divisions -/
def egcd : Nat → Int → Int → Int → Int → Int × Int
  | 0, r0, _, s0, _ => (r0, s0)
  | fuel + 1, r0, r1, s0, s1 =>
    if r1 = 0 then (r0, s0) else egcd fuel r1 (r0 % r1) s1 (s0 - r0 / r1 * s1)

/-- `new(big.Int).ModInverse(g, n)`: the inverse of `g` modulo `n`, `nil` when they are not
coprime -/
def modInverse (g n : Nat) : Option Nat :=
  if (egcd (n + 1) g n 1 0).1 = 1 then some ((egcd (n + 1) g n 1 0).2 % n).toNat else none

section
variable (P : Primitives)

/-- `rfc6979Sign(key, hash)`: `r` and `s`, before the low-S step; `none` when the nonce loop finds
no candidate in `fuel` rounds, and a `nil` inverse makes `s.Mul` panic -/
def rfc6979Sign (N D : Nat) (hash : Bytes) (fuel : Nat) : Option (GoRun (Nat × Nat)) :=
  (generateRFC6979K P N D hash fuel).map fun k =>
    match modInverse k N with
    | some kInv => .ok (P.baseMultX k % N, (P.baseMultX k % N * D + ofBE hash) * kInv % N)
    | none => .panic "invalid memory address or nil pointer dereference"

/-- the low-S step: an `s` above `N >> 1` becomes `N - s` -/
def lowS (N s : Nat) : Nat := if s > N / 2 then N - s else s

/-- `copy(out[hi-len(b):hi], b)`: `b` written into `out` just below `hi`; a `b` longer than `hi`
makes the slice expression panic -/
def copyBelow (out : Bytes) (hi : Nat) (b : Bytes) : GoRun Bytes :=
  if b.length ≤ hi then .ok (out.take (hi - b.length) ++ b ++ out.drop hi)
  else .panic "slice bounds out of range"

/-- `payloadHex + tsStr + transferAddress` -/
def sigInput (payload address : Bytes) (ts : Int) : Bytes :=
  hexEncode (P.sha256 payload) ++ ascii (toString ts) ++ address

/-- `Sign(payload, transferAddress)` with the key `D` and the clock reading `ts`: the signature in
base64, and `ts` -/
def Sign (D : Nat) (payload address : Bytes) (ts : Int) (fuel : Nat) : Option (GoRun (Bytes × Int)) :=
  (rfc6979Sign P secp256k1N D (P.sha256 (sigInput P payload address ts)) fuel).map fun rs => do
    let rs ← rs
    let out ← copyBelow (List.replicate 64 0) 32 (bigBytes rs.1)
    let out ← copyBelow out 64 (bigBytes (lowS secp256k1N rs.2))
    pure (base64Encode out, ts)

end

/-! ## the bytes of a number -/

theorem ofBE_foldl (acc : Nat) (b : Bytes) :
    b.foldl (fun acc x => acc * 256 + x.toNat) acc = acc * 256 ^ b.length + ofBE b := by
  induction b generalizing acc with
  | nil => simp [ofBE]
  | cons x b ih =>
    have hx : ofBE (x :: b) = x.toNat * 256 ^ b.length + ofBE b := by
      rw [ofBE, List.foldl_cons, ih]; simp
    rw [List.foldl_cons, ih, hx, List.length_cons, pow_succ]
    ring

theorem ofBE_append (a b : Bytes) : ofBE (a ++ b) = ofBE a * 256 ^ b.length + ofBE b := by
  rw [ofBE, List.foldl_append, ofBE_foldl]; rfl

@[simp] theorem ofBE_replicate_zero (k : Nat) (b : Bytes) : ofBE (List.replicate k 0 ++ b) = ofBE b := by
  induction k with
  | zero => rfl
  | succ k ih =>
    rw [List.replicate_succ, List.cons_append, ofBE, List.foldl_cons, ofBE_foldl]
    simpa [ofBE_append, ofBE] using ih

@[simp] theorem toBE_length (w v : Nat) : (toBE w v).length = w := by
  induction w generalizing v <;> simp [toBE, *]

theorem ofBE_toBE (w v : Nat) : ofBE (toBE w v) = v % 256 ^ w := by
  induction w generalizing v with
  | zero => simp [toBE, ofBE, Nat.mod_one]
  | succ w ih =>
    have h : ((v % 256).toUInt8).toNat = v % 256 := by
      simp [Nat.toUInt8, UInt8.ofNat, UInt8.toNat, BitVec.toNat_ofNat]
    rw [toBE, ofBE_append, ih, pow_succ, Nat.mul_comm (256 ^ w) 256, Nat.mod_mul]
    simp [ofBE, h]
    ring

theorem lt_pow_bitLenAux : ∀ (fuel v : Nat), v ≤ fuel → v < 2 ^ bitLenAux fuel v
  | 0, v, h => by simp [bitLenAux]; omega
  | fuel + 1, v, h => by
    unfold bitLenAux
    split
    · simp; omega
    · have := lt_pow_bitLenAux fuel (v / 2) (by omega)
      rw [pow_succ]; omega

theorem bitLenAux_le : ∀ (fuel v m : Nat), v < 2 ^ m → bitLenAux fuel v ≤ m
  | 0, _, _, _ => Nat.zero_le _
  | fuel + 1, v, m, h => by
    unfold bitLenAux
    split
    · exact Nat.zero_le _
    · cases m with
      | zero => simp at h; omega
      | succ m =>
        have := bitLenAux_le fuel (v / 2) m (by rw [pow_succ] at h; omega)
        omega

@[simp] theorem bitLenAux_zero (fuel : Nat) : bitLenAux fuel 0 = 0 := by cases fuel <;> rfl

theorem pow_bitLenAux_le : ∀ (fuel v : Nat), v ≤ fuel → 0 < v → 2 ^ bitLenAux fuel v ≤ 2 * v
  | 0, v, h, hv => by omega
  | fuel + 1, v, h, hv => by
    rw [bitLenAux, if_neg (by omega), pow_succ]
    rcases Nat.eq_zero_or_pos (v / 2) with h2 | h2
    · rw [h2, bitLenAux_zero]; omega
    · have := pow_bitLenAux_le fuel (v / 2) (by omega) h2
      omega

theorem lt_pow_bigBytes_length (v : Nat) : v < 256 ^ ((bitLen v + 7) / 8) :=
  calc v < 2 ^ bitLen v := lt_pow_bitLenAux v v le_rfl
    _ ≤ 2 ^ (8 * ((bitLen v + 7) / 8)) := Nat.pow_le_pow_right (by decide) (by omega)
    _ = 256 ^ ((bitLen v + 7) / 8) := by rw [pow_mul]; rfl

theorem ofBE_bigBytes (v : Nat) : ofBE (bigBytes v) = v := by
  rw [bigBytes, ofBE_toBE, Nat.mod_eq_of_lt (lt_pow_bigBytes_length v)]

theorem ofBE_cons (x : UInt8) (b : Bytes) : ofBE (x :: b) = x.toNat * 256 ^ b.length + ofBE b := by
  rw [← List.singleton_append, ofBE_append]; simp [ofBE]

theorem ofBE_lt : ∀ b : Bytes, ofBE b < 256 ^ b.length
  | [] => by decide
  | x :: b =>
    calc ofBE (x :: b) < (x.toNat + 1) * 256 ^ b.length := by
          rw [ofBE_cons, Nat.succ_mul]; exact Nat.add_lt_add_left (ofBE_lt b) _
      _ ≤ 256 * 256 ^ b.length := Nat.mul_le_mul_right _ x.toNat_lt_size
      _ = 256 ^ (x :: b).length := by rw [List.length_cons, pow_succ, Nat.mul_comm]

@[simp] theorem toBE_zero (w : Nat) : toBE w 0 = List.replicate w 0 := by
  induction w with
  | zero => rfl
  | succ w ih => rw [toBE, Nat.zero_div, ih, List.replicate_succ']; rfl

theorem replicate_append_toBE (a : Nat) : ∀ (b v : Nat), v < 256 ^ b →
    List.replicate a 0 ++ toBE b v = toBE (a + b) v
  | 0, v, h => by simp [show v = 0 by simpa using h]
  | b + 1, v, h => by
    rw [toBE, ← List.append_assoc, replicate_append_toBE a b (v / 256) (by rw [pow_succ] at h; omega),
      ← Nat.add_assoc, toBE]

theorem bigBytes_length_le {v w : Nat} (h : v < 2 ^ (8 * w)) : (bigBytes v).length ≤ w := by
  have := bitLenAux_le v v _ h
  simp only [bigBytes, toBE_length, bitLen]
  omega

theorem copyBelow_halves {v w : Nat} (hv : v < 2 ^ 256) (hw : w < 2 ^ 256) :
    ∃ out rb sb, copyBelow (List.replicate 64 0) 32 (bigBytes v) = .ok out ∧
      copyBelow out 64 (bigBytes w) = .ok (rb ++ sb) ∧
      rb.length = 32 ∧ ofBE rb = v ∧ sb.length = 32 ∧ ofBE sb = w := by
  have hlv := bigBytes_length_le (w := 32) hv
  have hlw := bigBytes_length_le (w := 32) hw
  have hrb : (List.replicate (32 - (bigBytes v).length) 0 ++ bigBytes v).length = 32 := by simp; omega
  refine ⟨List.replicate (32 - (bigBytes v).length) 0 ++ bigBytes v ++ List.replicate 32 0, _, _,
    by rw [copyBelow, if_pos hlv, List.take_replicate, List.drop_replicate, Nat.min_eq_left (by omega)],
    ?_, hrb, by simp [ofBE_bigBytes],
    (by simp; omega : (List.replicate (32 - (bigBytes w).length) 0 ++ bigBytes w).length = 32),
    by simp [ofBE_bigBytes]⟩
  rw [copyBelow, if_pos (by omega), List.take_append_eq_append_take, List.take_of_length_le (by omega),
    hrb, List.take_replicate, List.drop_of_length_le (by simp; omega),
    show min (64 - (bigBytes w).length - 32) 32 = 32 - (bigBytes w).length by omega]
  simp only [List.append_nil, List.append_assoc]

/-! ## RFC 6979's octet helpers -/

theorem bits2int_lt (b : Bytes) (qlen : Nat) : bits2int b qlen < 2 ^ qlen := by
  have hb : ofBE b < 2 ^ (8 * b.length) := by rw [pow_mul]; exact ofBE_lt b
  unfold bits2int
  split
  · rename_i hgt
    rw [Nat.div_lt_iff_lt_mul (by positivity), ← pow_add, Nat.add_sub_cancel' (le_of_lt hgt)]
    exact hb
  · exact lt_of_lt_of_le hb (Nat.pow_le_pow_right (by decide) (by omega))

theorem int2octets_of_lt {v qlen : Nat} (h : v < 2 ^ qlen) :
    int2octets v qlen = toBE ((qlen + 7) / 8) v := by
  have hL : (bitLen v + 7) / 8 ≤ (qlen + 7) / 8 := by
    have := bitLenAux_le v v qlen h; rw [bitLen]; omega
  have hpad := replicate_append_toBE ((qlen + 7) / 8 - (bitLen v + 7) / 8) _ v (lt_pow_bigBytes_length v)
  rw [Nat.sub_add_cancel hL] at hpad
  have hout : (if (bigBytes v).length < (qlen + 7) / 8 then
      List.replicate ((qlen + 7) / 8 - (bigBytes v).length) 0 ++ bigBytes v else bigBytes v) =
      toBE ((qlen + 7) / 8) v := by
    rw [bigBytes, toBE_length]
    split
    · exact hpad
    · rw [show (bitLen v + 7) / 8 = (qlen + 7) / 8 by omega]
  simp only [int2octets, hout, toBE_length, lt_irrefl, if_false]

/-- **RFC 6979's octet helpers.**  For every byte string `h` and every modulus `q ≥ 1` of bit
length `qlen`: `bits2int(h, qlen)` is below `2 ^ qlen`, so below `2q`, and the one conditional
subtraction of `bits2octets` leaves its residue modulo `q`; `bits2octets` is then `int2octets` of
that residue, its `⌈qlen / 8⌉`-byte big-endian encoding. -/
theorem bits2octets_spec (h : Bytes) (q qlen : Nat) (hq : 1 ≤ q) (hlen : qlen = bitLen q) :
    bits2int h qlen < 2 ^ qlen ∧
    (if bits2int h qlen < q then bits2int h qlen else bits2int h qlen - q) = bits2int h qlen % q ∧
    bits2int h qlen % q < q ∧
    bits2octets h q qlen = int2octets (bits2int h qlen % q) qlen ∧
    int2octets (bits2int h qlen % q) qlen = toBE ((qlen + 7) / 8) (bits2int h qlen % q) := by
  have hz := bits2int_lt h qlen
  have h2q : 2 ^ qlen ≤ 2 * q := hlen ▸ pow_bitLenAux_le q q le_rfl hq
  have hsub : (if bits2int h qlen < q then bits2int h qlen else bits2int h qlen - q) =
      bits2int h qlen % q := by
    split
    · exact (Nat.mod_eq_of_lt ‹_›).symm
    · rw [Nat.mod_eq_sub_mod (by omega), Nat.mod_eq_of_lt (by omega)]
  exact ⟨hz, hsub, Nat.mod_lt _ hq, by simp only [bits2octets, hsub],
    int2octets_of_lt (lt_of_le_of_lt (Nat.mod_le _ _) hz)⟩

/-- the byte `0xFF` against `q = 5`, of three bits: `bits2int` keeps `0b111 = 7`, and the one
subtraction gives `2` -/
theorem bits2octets_spec_ff :
    1 ≤ 5 ∧ 3 = bitLen 5 ∧ bits2octets [0xFF] 5 3 = [2] ∧
    bits2int [0xFF] 3 < 2 ^ 3 ∧
    (if bits2int [0xFF] 3 < 5 then bits2int [0xFF] 3 else bits2int [0xFF] 3 - 5) = bits2int [0xFF] 3 % 5 ∧
    bits2int [0xFF] 3 % 5 < 5 ∧
    bits2octets [0xFF] 5 3 = int2octets (bits2int [0xFF] 3 % 5) 3 ∧
    int2octets (bits2int [0xFF] 3 % 5) 3 = toBE ((3 + 7) / 8) (bits2int [0xFF] 3 % 5) :=
  ⟨by decide, by decide, by decide, bits2octets_spec [0xFF] 5 3 (by decide) (by decide)⟩

/-! ## the low-S step and the nonce -/

theorem lowS_spec {N s : Nat} (hN : N % 2 = 1) (hs : s < N) :
    lowS N s = min s (N - s) ∧ lowS N s ≤ (N - 1) / 2 := by
  unfold lowS
  split <;> omega

theorem secp256k1N_odd : secp256k1N % 2 = 1 := by decide

theorem secp256k1N_lt : secp256k1N < 2 ^ 256 := by decide

theorem kLoop_range (P : Primitives) (N qlen : Nat) :
    ∀ (fuel : Nat) (K V : Bytes) (k : Nat), kLoop P N qlen fuel K V = some k → 0 < k ∧ k < N
  | 0, _, _, _, h => by simp [kLoop] at h
  | fuel + 1, K, V, k, h => by
    unfold kLoop at h
    dsimp only at h
    split at h
    · cases h; assumption
    · exact kLoop_range P N qlen fuel _ _ k h

/-! ## the modular inverse -/

theorem egcd_congr (g n : Int) : ∀ (fuel : Nat) (r0 r1 s0 s1 : Int), n ∣ r0 - s0 * g → n ∣ r1 - s1 * g →
    n ∣ (egcd fuel r0 r1 s0 s1).1 - (egcd fuel r0 r1 s0 s1).2 * g
  | 0, r0, r1, s0, s1, h0, _ => h0
  | fuel + 1, r0, r1, s0, s1, h0, h1 => by
    unfold egcd
    split
    · exact h0
    · refine egcd_congr g n fuel _ _ _ _ h1 ?_
      have h : r0 % r1 - (s0 - r0 / r1 * s1) * g = (r0 - s0 * g) - r0 / r1 * (r1 - s1 * g) := by
        rw [Int.emod_def]; ring
      rw [h]
      exact dvd_sub h0 (Dvd.dvd.mul_left h1 _)

theorem modInverse_spec {g n x : Nat} (hn : 1 < n) (h : modInverse g n = some x) : g * x % n = 1 := by
  unfold modInverse at h
  split at h
  · rename_i h1
    cases h
    have hd := egcd_congr g n (n + 1) g n 1 0 (by simp) (by simp)
    rw [h1] at hd
    have hnn : (0 : Int) ≤ (egcd (n + 1) g n 1 0).2 % n := Int.emod_nonneg _ (by omega)
    have hsg : (1 : Int) % n = (egcd (n + 1) g n 1 0).2 * g % n :=
      Int.emod_eq_emod_iff_emod_sub_eq_zero.mpr (Int.emod_eq_zero_of_dvd hd)
    have h1n : (1 : Int) % n = 1 := Int.emod_eq_of_lt (by omega) (by omega)
    zify
    rw [Int.toNat_of_nonneg hnn, Int.mul_emod, Int.emod_emod_of_dvd _ (dvd_refl _), ← Int.mul_emod,
      Int.mul_comm, ← hsg, h1n]
  · cases h

/-! ## the signature `Sign` returns -/

theorem generateRFC6979K_range (P : Primitives) {N D fuel k : Nat} {hash : Bytes}
    (h : generateRFC6979K P N D hash fuel = some k) : 0 < k ∧ k < N :=
  kLoop_range P N _ fuel _ _ k h

/-- **Signature encoding.**  For every SHA-256 and scalar multiplication, key `D`, payload,
address, clock reading and number of nonce rounds: neither 32-byte copy of `Sign` can panic, so
the only panic it can return is the nil inverse of `ModInverse`; and whenever `Sign` returns, the
nonce `k` of `generateRFC6979K` lies in `[1, n-1]` and `kInv` is its inverse modulo `n`, and the
signature is the base64 of 64 bytes whose halves, read big-endian, are `r = x(kG) mod n` and
`min(s0, n - s0) ≤ (n-1)/2`, where `s0 = kInv (e + r D) mod n` and `e` is the digest of
`hex(SHA-256(payload)) ++ decimal(ts) ++ address` read as a number. -/
theorem Sign_encoding (P : Primitives) (D : Nat) (payload address : Bytes) (ts : Int) (fuel : Nat) :
    let n := secp256k1N
    let hash := P.sha256 (sigInput P payload address ts)
    (∀ r, Sign P D payload address ts fuel = some r → (∃ v, r = .ok v) ∨
      ∃ k, generateRFC6979K P n D hash fuel = some k ∧ modInverse k n = none ∧
        r = .panic "invalid memory address or nil pointer dereference") ∧
    ∀ (sig : Bytes) (ts' : Int), Sign P D payload address ts fuel = some (.ok (sig, ts')) →
    ∃ k kInv out, generateRFC6979K P n D hash fuel = some k ∧ 0 < k ∧ k < n ∧
      modInverse k n = some kInv ∧ k * kInv % n = 1 ∧
      sig = base64Encode out ∧ out.length = 64 ∧ ts' = ts ∧
      ofBE (out.take 32) = P.baseMultX k % n ∧
      ofBE (out.drop 32) = min ((P.baseMultX k % n * D + ofBE hash) * kInv % n)
        (n - (P.baseMultX k % n * D + ofBE hash) * kInv % n) ∧
      ofBE (out.drop 32) ≤ (n - 1) / 2 := by
  intro n hash
  have hn : 1 < n := by decide
  -- both copies succeed, whatever the nonce and its inverse: `r < n` and `lowS ≤ (n-1)/2`
  have hput : ∀ k kInv : Nat, ∃ out rb sb,
      copyBelow (List.replicate 64 0) 32 (bigBytes (P.baseMultX k % n)) = .ok out ∧
      copyBelow out 64 (bigBytes (lowS n ((P.baseMultX k % n * D + ofBE hash) * kInv % n))) =
        .ok (rb ++ sb) ∧ rb.length = 32 ∧ ofBE rb = P.baseMultX k % n ∧
      sb.length = 32 ∧ ofBE sb = lowS n ((P.baseMultX k % n * D + ofBE hash) * kInv % n) := by
    intro k kInv
    obtain ⟨-, hhalf⟩ := lowS_spec secp256k1N_odd
      (Nat.mod_lt ((P.baseMultX k % n * D + ofBE hash) * kInv) (by omega : 0 < n))
    exact copyBelow_halves (lt_trans (Nat.mod_lt (P.baseMultX k) (by omega)) secp256k1N_lt)
      (lt_of_le_of_lt hhalf
        (lt_of_le_of_lt (Nat.div_le_self _ _) (lt_of_le_of_lt (Nat.sub_le _ _) secp256k1N_lt)))
  -- what a returned `Sign` can be: the nil inverse, or the two copies' bytes
  have hcases : ∀ r, Sign P D payload address ts fuel = some r → ∃ k, generateRFC6979K P n D hash fuel = some k ∧
      ((modInverse k n = none ∧ r = .panic "invalid memory address or nil pointer dereference") ∨
        ∃ kInv rb sb, modInverse k n = some kInv ∧ r = .ok (base64Encode (rb ++ sb), ts) ∧
          rb.length = 32 ∧ ofBE rb = P.baseMultX k % n ∧ sb.length = 32 ∧
          ofBE sb = lowS n ((P.baseMultX k % n * D + ofBE hash) * kInv % n)) := by
    intro r hr
    unfold Sign rfc6979Sign at hr
    obtain ⟨rs, hrs, rfl⟩ := Option.map_eq_some'.mp hr
    obtain ⟨k, hk, rfl⟩ := Option.map_eq_some'.mp hrs
    refine ⟨k, hk, ?_⟩
    cases hinv : modInverse k n with
    | none => exact .inl ⟨rfl, by simp only [hinv]; rfl⟩
    | some kInv =>
      obtain ⟨out, rb, sb, h1, h2, hbytes⟩ := hput k kInv
      exact .inr ⟨kInv, rb, sb, rfl, by simp only [hinv, GoRun.bind_ok, h1, h2]; rfl, hbytes⟩
  refine ⟨fun r hr => ?_, fun sig ts' h => ?_⟩
  · obtain ⟨k, hk, ⟨hinv, rfl⟩ | ⟨kInv, rb, sb, -, rfl, -⟩⟩ := hcases r hr
    · exact .inr ⟨k, hk, hinv, rfl⟩
    · exact .inl ⟨_, rfl⟩
  obtain ⟨k, hk, ⟨-, hr⟩ | ⟨kInv, rb, sb, hinv, hr, hrb32, hrbv, hsb32, hsbv⟩⟩ := hcases _ h
  · cases hr
  cases hr
  obtain ⟨hlow, hhalf⟩ := lowS_spec secp256k1N_odd
    (Nat.mod_lt ((P.baseMultX k % n * D + ofBE hash) * kInv) (by omega : 0 < n))
  refine ⟨k, kInv, rb ++ sb, hk, (generateRFC6979K_range P hk).1, (generateRFC6979K_range P hk).2,
    hinv, modInverse_spec hn hinv, rfl, by simp [hrb32, hsb32], rfl, ?_, ?_, ?_⟩
  · rw [List.take_left' hrb32, hrbv]
  · rw [List.drop_left' hrb32, hsbv, hlow]
  · rw [List.drop_left' hrb32, hsbv]
    exact hhalf

set_option maxRecDepth 100000 in
/-- a stand-in SHA-256 giving 32 bytes `0x01` for every message, and `x(kG) = k`: the key `7`
signs with the nonce `0x0101…01`, which is also `r`, and `s = 8` -/
theorem Sign_encoding_ones :
    let P : Primitives := ⟨fun _ => List.replicate 32 1, fun _ => List.length_replicate 32 1, fun k => k⟩
    let sig := ascii "AQEBAQEBAQEBAQEBAQEBAQEBAQEBAQEBAQEBAQEBAQEAAAAAAAAAAAAAAAAAAAAAAAAAAAAAAAAAAAAAAAAACA=="
    Sign P 7 (ascii "x") (ascii "gonka1") 5 1 = some (.ok (sig, 5)) ∧
    let n := secp256k1N
    let hash := P.sha256 (sigInput P (ascii "x") (ascii "gonka1") 5)
    ∃ k kInv out, generateRFC6979K P n 7 hash 1 = some k ∧ 0 < k ∧ k < n ∧
      modInverse k n = some kInv ∧ k * kInv % n = 1 ∧
      sig = base64Encode out ∧ out.length = 64 ∧ (5 : Int) = 5 ∧
      ofBE (out.take 32) = P.baseMultX k % n ∧
      ofBE (out.drop 32) = min ((P.baseMultX k % n * 7 + ofBE hash) * kInv % n)
        (n - (P.baseMultX k % n * 7 + ofBE hash) * kInv % n) ∧
      ofBE (out.drop 32) ≤ (n - 1) / 2 := by
  intro P sig
  have h : Sign P 7 (ascii "x") (ascii "gonka1") 5 1 = some (.ok (sig, 5)) := by decide
  exact ⟨h, (Sign_encoding P 7 (ascii "x") (ascii "gonka1") 5 1).2 sig 5 h⟩

end GonkaProxy
