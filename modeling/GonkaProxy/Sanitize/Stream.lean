import GonkaProxy.Sanitize.TokenMap

/-!
# `RestoringReader`: restoration over a stream

The upstream body is an `io.Reader`; what its successive `Read` calls return is an input, a list
of `SrcRead` (bytes, and whether `io.EOF` came with them), after which it returns `(0, io.EOF)`.
The map is read only through `restoreBytes(·, tm)`, passed as `rb`.

* `RestoringReader.read`    `Read(p)` with `len(p) = m`, every branch of `stream.go`: drain the
                            buffer, report EOF, buffer a short chunk and read again, hold back the
                            last `holdBack` bytes, restore the safe part, put the overflow back;
* `readAll`                 the copy loop of `streamResponse`, one buffer size per call;
* `chunkOut`, `streamOut`   what one upstream chunk, and the whole source, turn into on the
                            client side;
* `read_pending`            one `Read`: copied bytes and pending bytes add up (step lemma);
* `readAll_eof`             non-empty buffers reach `io.EOF` (progress);
* `restoringReader_output`  for every source and every buffer sizes, what the client receives
                            up to `io.EOF` is `streamOut`;
* `restoringReader_split_placeholder`   the split placeholder of the spec's scenario reaches the
                            client unrestored.
-/

set_option linter.unusedSectionVars false
set_option linter.unusedVariables false

namespace GonkaProxy

/-- what one `src.Read(tmp)` returned: its bytes, and whether `io.EOF` came with them -/
structure SrcRead where
  data : Bytes
  eof : Bool

/-- the state of a `RestoringReader` (its source and map are inputs) -/
structure RestoringReader where
  buf : Bytes
  srcEOF : Bool

/-- `holdBack` of `Read` -/
def holdBack : Nat := 20

/-- the end of `Read` once a chunk is in hand and is not buffered whole: restore the safe part,
hold back the tail unless at EOF, copy what fits into `p`, put the overflow back in front -/
def RestoringReader.emit (rb : Bytes → Bytes) (m : Nat) (r : RestoringReader) (chunk : Bytes)
    (eof : Bool) : (Bytes × Bool) × RestoringReader :=
  let safe := if eof then chunk else chunk.take (chunk.length - holdBack)
  let buf := if eof then r.buf else r.buf ++ chunk.drop (chunk.length - holdBack)
  let restored := rb safe
  let buf := if eof && buf ≠ [] then rb buf else buf
  let buf := if m < restored.length then restored.drop m ++ buf else buf
  ((restored.take m, false), ⟨buf, eof⟩)

/-- `Read(p)` with `len(p) = m`: the bytes copied into `p` and whether `io.EOF` is returned, the
reader after the call and what is left of the source -/
def RestoringReader.read (rb : Bytes → Bytes) (m : Nat) :
    RestoringReader → List SrcRead → (Bytes × Bool) × RestoringReader × List SrcRead
  | r, src =>
    if m = 0 then (([], false), r, src)
    else if r.buf ≠ [] then ((r.buf.take m, false), ⟨r.buf.drop m, r.srcEOF⟩, src)
    else if r.srcEOF then (([], true), r, src)
    else match src with
      | [] => let e := r.emit rb m [] true; (e.1, e.2, [])
      | s :: ss =>
        if !s.eof && s.data.length ≤ holdBack then
          RestoringReader.read rb m ⟨r.buf ++ s.data, false⟩ ss
        else let e := r.emit rb m s.data s.eof; (e.1, e.2, ss)

/-- the loop of `streamResponse`: call `Read` with the buffer sizes `ms` in turn, write what it
returns, stop at `io.EOF`; the result is what the client received and whether EOF was reached -/
def readAll (rb : Bytes → Bytes) : List Nat → RestoringReader → List SrcRead → Bytes × Bool
  | [], _, _ => ([], false)
  | m :: ms, r, src =>
    let x := r.read rb m src
    if x.1.2 then (x.1.1, true)
    else let y := readAll rb ms x.2.1 x.2.2; (x.1.1 ++ y.1, y.2)

/-- what the client receives for one upstream chunk: at EOF all of it restored; otherwise a
chunk of at most `holdBack` bytes raw, a longer one restored but for its last `holdBack`
bytes, which pass raw -/
def chunkOut (rb : Bytes → Bytes) (s : SrcRead) : Bytes :=
  if s.eof then rb s.data
  else if s.data.length ≤ holdBack then s.data
  else rb (s.data.take (s.data.length - holdBack)) ++ s.data.drop (s.data.length - holdBack)

/-- what the client receives for the whole source: `chunkOut` of each chunk up to the first one
that came with `io.EOF`, or of the final `(0, io.EOF)` -/
def streamOut (rb : Bytes → Bytes) : List SrcRead → Bytes
  | [] => rb []
  | s :: ss => chunkOut rb s ++ if s.eof then [] else streamOut rb ss

/-- what the reader still has to deliver: its buffer, then, unless the source is done, the rest
of the stream -/
def RestoringReader.pending (rb : Bytes → Bytes) (r : RestoringReader) (src : List SrcRead) :
    Bytes :=
  r.buf ++ if r.srcEOF then [] else streamOut rb src

section
variable (rb : Bytes → Bytes)

theorem take_append_overflow (l b : Bytes) (m : Nat) :
    l.take m ++ (if m < l.length then l.drop m ++ b else b) = l ++ b := by
  split
  · rw [← List.append_assoc, List.take_append_drop]
  · rw [List.take_of_length_le (by omega)]

theorem emit_out (m : Nat) (r : RestoringReader) (chunk : Bytes) (eof : Bool) (hbuf : r.buf = []) :
    (r.emit rb m chunk eof).1.1 ++ (r.emit rb m chunk eof).2.buf =
      (if eof then rb chunk
        else rb (chunk.take (chunk.length - holdBack)) ++ chunk.drop (chunk.length - holdBack)) ∧
    (r.emit rb m chunk eof).1.2 = false ∧ (r.emit rb m chunk eof).2.srcEOF = eof := by
  refine ⟨?_, rfl, rfl⟩
  cases eof
  · simpa [RestoringReader.emit, hbuf] using take_append_overflow _ _ m
  · simpa [RestoringReader.emit, hbuf] using take_append_overflow (rb chunk) [] m

/-- **One `Read`.**  The bytes a call copies, followed by what is still pending after it, are
what was pending before it; a call that returns `io.EOF` copies nothing and leaves nothing
pending. -/
theorem read_pending (m : Nat) :
    ∀ (src : List SrcRead) (r : RestoringReader),
      (r.read rb m src).1.1 ++ (r.read rb m src).2.1.pending rb (r.read rb m src).2.2 =
        r.pending rb src ∧
      ((r.read rb m src).1.2 = true → r.pending rb src = [] ∧ (r.read rb m src).1.1 = [])
  | src, r => by
    unfold RestoringReader.read
    by_cases hm : m = 0
    · simp [hm]
    by_cases hb : r.buf ≠ []
    · simp only [hm, hb, if_false, if_true, ne_eq, not_false_eq_true, RestoringReader.pending,
        ← List.append_assoc, List.take_append_drop, Bool.false_eq_true, false_implies, and_true]
    have hb' : r.buf = [] := not_not.mp hb
    by_cases he : r.srcEOF
    · simp [hm, hb', he, RestoringReader.pending]
    match src with
    | [] =>
      obtain ⟨h1, h2, h3⟩ := emit_out rb m r [] true hb'
      simp only [hm, hb', he, h2, h3, if_false, ne_eq, not_true_eq_false, Bool.false_eq_true,
        false_implies, and_true, RestoringReader.pending, streamOut, if_true, List.append_nil,
        ← List.append_assoc, h1, List.nil_append]
    | s :: ss =>
      by_cases hs : !s.eof && s.data.length ≤ holdBack
      · have hsplit : r.pending rb (s :: ss) = RestoringReader.pending rb ⟨s.data, false⟩ ss := by
          simp only [Bool.and_eq_true, Bool.not_eq_true', decide_eq_true_eq] at hs
          simp [RestoringReader.pending, streamOut, chunkOut, hb', he, hs]
        simp only [hm, hb', he, hs, if_false, if_true, ne_eq, not_true_eq_false,
          Bool.false_eq_true, List.nil_append, hsplit]
        exact read_pending m ss ⟨s.data, false⟩
      · obtain ⟨h1, h2, h3⟩ := emit_out rb m r s.data s.eof hb'
        have hc : chunkOut rb s = if s.eof then rb s.data
            else rb (s.data.take (s.data.length - holdBack)) ++
              s.data.drop (s.data.length - holdBack) := by
          simp only [Bool.and_eq_true, Bool.not_eq_true', decide_eq_true_eq, not_and] at hs
          cases hse : s.eof <;> simp_all [chunkOut]
        simp only [hm, hb', he, hs, if_false, ne_eq, not_true_eq_false, h2, h3,
          Bool.false_eq_true, false_implies, and_true, RestoringReader.pending, streamOut,
          List.nil_append, ← List.append_assoc, h1, hc]

/-- **The copy loop.**  Whatever the buffer sizes, what the client has received is a prefix of
what was pending at the start, and all of it once `io.EOF` is returned. -/
theorem readAll_pending :
    ∀ (ms : List Nat) (r : RestoringReader) (src : List SrcRead),
      (readAll rb ms r src).1 <+: r.pending rb src ∧
      ((readAll rb ms r src).2 = true → (readAll rb ms r src).1 = r.pending rb src)
  | [], r, src => by simp [readAll]
  | m :: ms, r, src => by
    obtain ⟨h1, h2⟩ := read_pending rb m src r
    obtain ⟨ih1, ih2⟩ := readAll_pending ms (r.read rb m src).2.1 (r.read rb m src).2.2
    by_cases he : (r.read rb m src).1.2 = true
    · obtain ⟨hp, ho⟩ := h2 he
      simp [readAll, he, hp, ho]
    · simp only [readAll, he, if_false, Bool.false_eq_true, ← h1]
      exact ⟨(List.prefix_append_right_inj _).mpr ih1, fun h => by rw [ih2 h]⟩


/-- the `src.Read` calls still to come: none once the source is done, else one per chunk and the
final `(0, io.EOF)` -/
def RestoringReader.unread (r : RestoringReader) (src : List SrcRead) : Nat :=
  if r.srcEOF then 0 else src.length + 1

theorem read_unread (m : Nat) (hm : 0 < m) :
    ∀ (src : List SrcRead) (r : RestoringReader), (r.read rb m src).1.2 = false →
      (r.read rb m src).2.1.unread (r.read rb m src).2.2 ≤ r.unread src ∧
      (0 < (r.read rb m src).1.1.length ∨
        (r.read rb m src).2.1.unread (r.read rb m src).2.2 < r.unread src)
  | src, r => by
    unfold RestoringReader.read
    have hm' : m ≠ 0 := by omega
    by_cases hb : r.buf ≠ []
    · have : 0 < r.buf.length := List.length_pos.mpr hb
      simp only [hm', hb, if_false, if_true, ne_eq, not_false_eq_true, List.length_take]
      exact fun _ => ⟨le_rfl, .inl (by simp [RestoringReader.unread]; omega)⟩
    have hb' : r.buf = [] := not_not.mp hb
    by_cases he : r.srcEOF
    · simp [hm', hb', he]
    match src with
    | [] =>
      simp only [hm', hb', he, if_false, ne_eq, not_true_eq_false, Bool.false_eq_true]
      intro _
      simp [RestoringReader.unread, RestoringReader.emit, he]
    | s :: ss =>
      by_cases hs : !s.eof && s.data.length ≤ holdBack
      · simp only [hm', hb', he, hs, if_false, if_true, ne_eq, not_true_eq_false,
          Bool.false_eq_true, List.nil_append]
        intro h
        have hlt : RestoringReader.unread ⟨s.data, false⟩ ss < r.unread (s :: ss) := by
          simp [RestoringReader.unread, he]
        obtain ⟨ih1, ih2⟩ := read_unread m hm ss ⟨s.data, false⟩ h
        exact ⟨by omega, ih2.imp_right (by omega)⟩
      · simp only [hm', hb', he, hs, if_false, ne_eq, not_true_eq_false, Bool.false_eq_true]
        intro _
        cases hse : s.eof <;> simp [RestoringReader.unread, RestoringReader.emit, he, hse]

/-- **Progress of the copy loop.**  With non-empty buffers, a loop given more calls than the
bytes pending plus the source reads still to come returns `io.EOF`. -/
theorem readAll_eof :
    ∀ (ms : List Nat) (r : RestoringReader) (src : List SrcRead), (∀ m ∈ ms, 0 < m) →
      (r.pending rb src).length + r.unread src < ms.length → (readAll rb ms r src).2 = true
  | [], r, src, _, h => absurd h (Nat.not_lt_zero _)
  | m :: ms, r, src, hms, h => by
    by_cases he : (r.read rb m src).1.2 = true
    · simp [readAll, he]
    have he' : (r.read rb m src).1.2 = false := by simpa using he
    obtain ⟨h1, -⟩ := read_pending rb m src r
    obtain ⟨h2, h3⟩ := read_unread rb m (hms m (List.mem_cons_self _ _)) src r he'
    have hlen := congrArg List.length h1
    rw [List.length_append] at hlen
    simp only [readAll, he', if_false, Bool.false_eq_true]
    refine readAll_eof ms _ _ (fun m' hm' => hms m' (List.mem_cons_of_mem _ hm')) ?_
    simp only [List.length_cons] at h
    omega

end

/-- **What a streamed response delivers.**  For every upstream source and every sequence of
buffer sizes the copy loop uses, the bytes the client has received are a prefix of `streamOut`:
each chunk restored except for its last `holdBack` bytes, which pass raw, a chunk of at most
`holdBack` bytes raw, and the chunk that came with `io.EOF` restored whole; once `io.EOF` is
returned the client has received exactly that; and non-empty buffers reach `io.EOF` within
`(streamOut rb src).length + src.length + 2` calls. -/
theorem restoringReader_output (rb : Bytes → Bytes) (ms : List Nat) (src : List SrcRead) :
    (readAll rb ms ⟨[], false⟩ src).1 <+: streamOut rb src ∧
    ((readAll rb ms ⟨[], false⟩ src).2 = true →
      (readAll rb ms ⟨[], false⟩ src).1 = streamOut rb src) ∧
    ((∀ m ∈ ms, 0 < m) → (streamOut rb src).length + src.length + 1 < ms.length →
      (readAll rb ms ⟨[], false⟩ src).2 = true) := by
  obtain ⟨h1, h2⟩ := readAll_pending rb ms ⟨[], false⟩ src
  refine ⟨by simpa [RestoringReader.pending] using h1, by simpa [RestoringReader.pending] using h2,
    fun hms hlen => readAll_eof rb ms _ _ hms ?_⟩
  simpa [RestoringReader.pending, RestoringReader.unread] using hlen

/-- the scenario below, with buffers of one byte: thirty calls reach `io.EOF` -/
theorem restoringReader_output_bytewise :
    (∀ m ∈ List.replicate 30 1, 0 < m) ∧
    (streamOut id [⟨ascii "hello " ++ [0xC2, 0xAB] ++ ascii "TOKEN_0000", false⟩,
        ⟨ascii "01" ++ [0xC2, 0xBB] ++ ascii "!", false⟩]).length + 2 + 1 < 30 ∧
    (readAll id (List.replicate 30 1) ⟨[], false⟩
        [⟨ascii "hello " ++ [0xC2, 0xAB] ++ ascii "TOKEN_0000", false⟩,
          ⟨ascii "01" ++ [0xC2, 0xBB] ++ ascii "!", false⟩]).2 = true :=
  ⟨by decide, by decide, (restoringReader_output id _ _).2.2 (by decide) (by decide)⟩

/-- the spec's scenario: `"hello «TOKEN_0000"` then `"01»!"`, the placeholder of `sk-abc123`;
the client receives the placeholder as it came, the restoration of the stream has the original -/
theorem restoringReader_split_placeholder :
    readAll (restoreIn (newTokenMap.register 0 (ascii "sk-abc123")).2.1.fromToken)
      [4096, 4096, 4096, 4096] ⟨[], false⟩
      [⟨ascii "hello " ++ [0xC2, 0xAB] ++ ascii "TOKEN_0000", false⟩,
        ⟨ascii "01" ++ [0xC2, 0xBB] ++ ascii "!", false⟩] =
      (ascii "hello " ++ formatToken 1 ++ ascii "!", true) ∧
    restoreIn (newTokenMap.register 0 (ascii "sk-abc123")).2.1.fromToken
      (ascii "hello " ++ formatToken 1 ++ ascii "!") = ascii "hello sk-abc123!" := by
  decide

end GonkaProxy
