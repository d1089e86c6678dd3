import GonkaProxy.Sanitize.Redact

/-!
# The classifier fan-out, over every interleaving

`runClassifiers` starts one goroutine per classifier; each calls `Classify` and sends one result on
a channel with room for `len(classifiers)` results (`result{}` when `Classify` fails).  The caller
then runs `len(classifiers)` rounds of a `select` that either receives a result or, once the
budget's context is done, returns what it has.  Any goroutine may finish at any time, the
deadline may pass at any time, and when both cases of the `select` are ready either may be
taken.  An interleaving is a trace of events:

* `FanEvent`         a goroutine sends, the loop receives, the deadline passes, the loop takes the
                     `ctx.Done()` case;
* `Fan`, `Fan.step`  the state of the call (who has not sent yet, the channel buffer, the loop's
                     `all` and round count, the deadline, where the loop is) and what one event
                     does; a send on a full buffer blocks, so it is not a step;
* `Fan.Inv`          the invariant, kept by every event (`Fan.Inv.step`) and over every trace
                     (`Fan.Inv.run`);
* `runClassifiers_fanOut`  what the caller gets, that no goroutine ever blocks, and that the
                     `Schedule` abstraction `runClassifiers` is written over covers every trace.
-/

set_option linter.unusedSectionVars false
set_option linter.unusedVariables false

namespace GonkaProxy

/-- what may happen next during one `runClassifiers` call -/
inductive FanEvent where
  /-- the goroutine of classifier `i` is back from `Classify` and runs `ch <- result{...}` -/
  | send (i : Nat)
  /-- the loop's `select` takes `case r := <-ch` -/
  | recv
  /-- `classifierBudget` elapses: `ctx.Done()` is ready -/
  | expire
  /-- the loop's `select` takes `case <-ctx.Done()` and returns `all` -/
  | done
  deriving DecidableEq, Repr

/-- where the receive loop is -/
inductive Receiver where
  /-- inside `for range classifiers` -/
  | looping
  /-- past the last round: `return all` after the loop -/
  | finished
  /-- `return all` from the `ctx.Done()` case -/
  | timedOut
  deriving DecidableEq, Repr

/-- the state of one call: the classifiers whose goroutine has not sent yet, the channel's buffer
(the classifier behind each result, oldest first), the loop's `all` and the number of rounds it
has completed, whether `ctx.Done()` is ready, where the loop is, and a ghost record of whose
results the loop received, in order -/
structure Fan where
  pending : List Nat
  chan : List Nat
  all : List Span
  rounds : Nat
  expired : Bool
  recv : Receiver
  got : List Nat

/-- a classifier that is never called -/
def idleClassifier : Classifier := ⟨fun _ => none⟩

/-- the spans in the result the goroutine of classifier `i` sends: none when `Classify` fails -/
def spansOf (text : Bytes) (cs : List Classifier) (i : Nat) : List Span :=
  ((cs.getD i idleClassifier).classify text).getD []

/-- the state when the loop starts: every goroutine started, nothing sent; with no classifiers
`runClassifiers` returns at once -/
def Fan.init (cs : List Classifier) : Fan :=
  ⟨List.range cs.length, [], [], 0, false, if cs.length = 0 then .finished else .looping, []⟩

/-- what one event does, `none` when it cannot happen now (a send on a full buffer blocks) -/
def Fan.step (text : Bytes) (cs : List Classifier) (s : Fan) : FanEvent → Option Fan
  | .send i =>
    if i ∈ s.pending ∧ s.chan.length < cs.length then
      some { s with pending := s.pending.erase i, chan := s.chan ++ [i] }
    else none
  | .recv =>
    match s.recv, s.chan with
    | .looping, i :: rest =>
      some { s with chan := rest, all := s.all ++ spansOf text cs i, rounds := s.rounds + 1,
                    recv := if s.rounds + 1 = cs.length then .finished else .looping,
                    got := s.got ++ [i] }
    | _, _ => none
  | .expire => some { s with expired := true }
  | .done => if s.recv = .looping ∧ s.expired then some { s with recv := .timedOut } else none

/-- the events of a trace, one after the other; `none` if one of them cannot happen -/
def Fan.run (text : Bytes) (cs : List Classifier) : Fan → List FanEvent → Option Fan
  | s, [] => some s
  | s, e :: es => (s.step text cs e).bind fun s' => Fan.run text cs s' es

/-! ## the invariant -/

/-- every classifier is pending, buffered or received exactly once; the loop's `all` is the
received results in order; the loop is still going only before its last round, and finishes
exactly at it -/
structure Fan.Inv (text : Bytes) (cs : List Classifier) (s : Fan) : Prop where
  perm : (s.pending ++ s.chan ++ s.got).Perm (List.range cs.length)
  rounds : s.rounds = s.got.length
  all : s.all = (s.got.map (spansOf text cs)).flatten
  looping : s.recv = .looping → s.rounds < cs.length
  finished : s.recv = .finished → s.rounds = cs.length
  timedOut : s.recv = .timedOut → s.expired = true

theorem Fan.init_inv (text : Bytes) (cs : List Classifier) : (Fan.init cs).Inv text cs where
  perm := by simp [Fan.init]
  rounds := rfl
  all := rfl
  looping h := by
    simp only [Fan.init] at h ⊢
    split at h
    · cases h
    · omega
  finished h := by
    simp only [Fan.init] at h ⊢
    split at h
    · omega
    · cases h
  timedOut h := by
    simp only [Fan.init] at h
    split at h <;> cases h

section
variable {text : Bytes} {cs : List Classifier} {s s' : Fan}

/-- **Step lemma.**  Every event keeps the invariant. -/
theorem Fan.Inv.step (h : s.Inv text cs) : ∀ {e : FanEvent}, s.step text cs e = some s' → s'.Inv text cs
  | .send i, hs => by
    simp only [Fan.step] at hs
    split at hs
    · rename_i hc
      cases hs
      refine ⟨?_, h.rounds, h.all, h.looping, h.finished, h.timedOut⟩
      rw [show s.pending.erase i ++ (s.chan ++ [i]) ++ s.got = (s.pending.erase i ++ s.chan) ++ i :: s.got
        by simp]
      refine List.perm_middle.trans (List.Perm.trans ?_ h.perm)
      exact (((List.perm_cons_erase hc.1).append_right s.chan).append_right s.got).symm
    · cases hs
  | .recv, hs => by
    simp only [Fan.step] at hs
    split at hs
    · rename_i i rest hr hc
      cases hs
      have hlt := h.looping hr
      refine ⟨?_, by simp [h.rounds], by simp [h.all], fun hl => ?_, fun hf => ?_, fun ht => ?_⟩
      · refine List.Perm.trans ?_ (hc ▸ h.perm)
        rw [List.append_assoc, List.append_assoc, ← List.append_assoc rest]
        exact (List.perm_append_singleton i (rest ++ s.got)).append_left s.pending
      · dsimp only at hl ⊢
        split at hl
        · cases hl
        · omega
      · dsimp only at hf ⊢
        split at hf
        · assumption
        · cases hf
      · dsimp only at ht
        split at ht <;> cases ht
    · cases hs
  | .expire, hs => by
    cases hs
    exact ⟨h.perm, h.rounds, h.all, h.looping, h.finished, fun _ => rfl⟩
  | .done, hs => by
    simp only [Fan.step] at hs
    split at hs
    · rename_i hc
      cases hs
      exact ⟨h.perm, h.rounds, h.all, fun hl => (by cases hl), fun hf => (by cases hf), fun _ => hc.2⟩
    · cases hs

/-- **Run lemma.**  The invariant holds after every trace. -/
theorem Fan.Inv.run : ∀ {es : List FanEvent} {s s' : Fan}, s.Inv text cs →
    Fan.run text cs s es = some s' → s'.Inv text cs
  | [], _, _, h, hr => by cases hr; exact h
  | e :: es, s, s', h, hr => by
    simp only [Fan.run, Option.bind_eq_some] at hr
    obtain ⟨s₁, h₁, h₂⟩ := hr
    exact Fan.Inv.run (h.step h₁) h₂

/-- **No goroutine blocks**: a goroutine that has not sent yet finds room in the buffer. -/
theorem Fan.Inv.send_enabled (h : s.Inv text cs) {i : Nat} (hi : i ∈ s.pending) :
    ∃ s', s.step text cs (.send i) = some s' := by
  have hlen := h.perm.length_eq
  simp only [List.length_append, List.length_range] at hlen
  have := List.length_pos_of_mem hi
  exact ⟨_, if_pos ⟨hi, by omega⟩⟩

theorem Fan.Inv.got_nodup (h : s.Inv text cs) : s.got.Nodup :=
  (List.nodup_append.mp ((List.nodup_range cs.length).perm h.perm.symm)).2.1

theorem Fan.Inv.got_lt (h : s.Inv text cs) {i : Nat} (hi : i ∈ s.got) : i < cs.length :=
  List.mem_range.mp (h.perm.subset (List.mem_append_right _ hi))

theorem Fan.Inv.finished_perm (h : s.Inv text cs) (hf : s.recv = .finished) :
    s.got.Perm (List.range cs.length) := by
  have hlen := h.perm.length_eq
  have hr := h.finished hf
  rw [h.rounds] at hr
  simp only [List.length_append, List.length_range] at hlen
  have hp : s.pending = [] := List.eq_nil_of_length_eq_zero (by omega)
  have hc : s.chan = [] := List.eq_nil_of_length_eq_zero (by omega)
  simpa [hp, hc] using h.perm

end

/-! ## the schedule abstraction -/

theorem receiveLoop_append :
    ∀ (xs ys : List (Option (List Span))), receiveLoop (xs ++ ys) xs.length = (xs.map fun r => r.getD []).flatten
  | [], [] => rfl
  | [], _ :: _ => rfl
  | x :: xs, ys => by simp [receiveLoop, receiveLoop_append xs ys]

theorem map_getD_range (cs : List Classifier) :
    (List.range cs.length).map (cs.getD · idleClassifier) = cs :=
  List.ext_getElem (by simp) fun n h1 h2 => by simp [List.getD_eq_getElem?_getD, List.getElem?_eq_getElem h2]

/-- **Refinement.**  After every trace, the loop's `all` is what `runClassifiers` returns under the
schedule whose arrival order is received, then buffered, then pending, with as many receives as
the loop completed: the `Schedule` abstraction the redaction is written over loses no trace. -/
theorem Fan.Inv.schedule {text : Bytes} {cs : List Classifier} {s : Fan} (h : s.Inv text cs) :
    ∃ sch : Schedule cs, s.all = runClassifiers text cs sch := by
  refine ⟨⟨(s.got ++ s.chan ++ s.pending).map (cs.getD · idleClassifier), ?_, s.got.length⟩, ?_⟩
  · have hp : (s.got ++ s.chan ++ s.pending).Perm (List.range cs.length) :=
      (List.perm_append_comm.trans (by simpa using List.perm_append_comm.append_left s.pending)).trans
        h.perm
    have := hp.map (cs.getD · idleClassifier)
    rwa [map_getD_range] at this
  · unfold runClassifiers
    split
    · rename_i h0
      have : s.got = [] := List.eq_nil_iff_forall_not_mem.mpr fun i hi => by have := h.got_lt hi; omega
      simp [h.all, this]
    · have key := receiveLoop_append
        (s.got.map ((fun c => c.classify text) ∘ (cs.getD · idleClassifier)))
        ((s.chan ++ s.pending).map ((fun c => c.classify text) ∘ (cs.getD · idleClassifier)))
      rw [List.length_map, ← List.map_append, List.map_map] at key
      rw [h.all, List.map_map]
      dsimp only
      rw [List.append_assoc, key]
      rfl

/-- **The fan-out under a deadline.**  For every text, every classifier list and every trace that
can happen (goroutines sending in any order, the loop receiving, the deadline passing, the loop
taking the `ctx.Done()` case, in any interleaving): the loop's `all` is the concatenation, in
receive order, of the whole span lists of pairwise distinct classifiers, the empty list for a
classifier whose `Classify` failed; once the loop has run all its rounds every classifier is among
them, and it returns through `ctx.Done()` only once the deadline has passed; every goroutine that
has not sent yet can send at once, also after the call has returned; and `all` is what
`runClassifiers` gives under some schedule. -/
theorem runClassifiers_fanOut (text : Bytes) (cs : List Classifier) (es : List FanEvent) (s : Fan)
    (h : Fan.run text cs (Fan.init cs) es = some s) :
    s.got.Nodup ∧ (∀ i ∈ s.got, i < cs.length) ∧ s.all = (s.got.map (spansOf text cs)).flatten ∧
    (s.recv = .finished → s.got.Perm (List.range cs.length)) ∧
    (s.recv = .timedOut → s.expired = true) ∧
    (∀ i ∈ s.pending, ∃ s', s.step text cs (.send i) = some s') ∧
    ∃ sch : Schedule cs, s.all = runClassifiers text cs sch := by
  have hi := (Fan.init_inv text cs).run h
  exact ⟨hi.got_nodup, fun i => hi.got_lt, hi.all, hi.finished_perm, hi.timedOut,
    fun i => hi.send_enabled, hi.schedule⟩

/-- two classifiers, the second of which fails; its result comes first, the deadline passes and
the loop returns with it; the first goroutine sends afterwards, into the buffer -/
theorem runClassifiers_fanOut_late :
    let cs : List Classifier := [⟨fun _ => some [⟨0, 3, "PER"⟩]⟩, ⟨fun _ => none⟩]
    let s : Fan := ⟨[], [0], [], 1, true, .timedOut, [1]⟩
    Fan.run (ascii "Bob") cs (Fan.init cs) [.send 1, .recv, .expire, .done, .send 0] = some s ∧
    s.got.Nodup ∧ (∀ i ∈ s.got, i < cs.length) ∧
    s.all = (s.got.map (spansOf (ascii "Bob") cs)).flatten ∧
    (s.recv = .finished → s.got.Perm (List.range cs.length)) ∧
    (s.recv = .timedOut → s.expired = true) ∧
    (∀ i ∈ s.pending, ∃ s', s.step (ascii "Bob") cs (.send i) = some s') ∧
    ∃ sch : Schedule cs, s.all = runClassifiers (ascii "Bob") cs sch :=
  ⟨rfl, runClassifiers_fanOut _ _ [.send 1, .recv, .expire, .done, .send 0] _ rfl⟩

end GonkaProxy
