import GonkaProxy.Strings

/-!
# Configuration: `config.Load` and the wallet list

`Load` reads the environment (after `godotenv.Load`, which only adds variables): the wallets,
the source node, the feature flags and their URLs, and the port.  The wallets come from
`GONKA_WALLETS`, a comma-separated list of `private_key` or `private_key:address` entries, or,
when that is blank, from `GONKA_PRIVATE_KEY` and `GONKA_ADDRESS`.

* `WalletCfg`, `ConfigError`       the wallet credentials and the errors of `loadWallets`;
* `parseWalletEntry`, `parseParts`, `parseMultiWallets`   the parser: split at the commas, trim,
                                   skip empty parts, split each entry at its first colon;
* `loadWallets`, `Load`            the whole configuration, the environment as a function;
* `Trimmed`, `WalletCfg.WellFormed`   a field that `strings.TrimSpace` leaves alone, and an entry
                                   the format can carry: a non-empty key without commas or colons,
                                   an address without commas;
* `formatWallets`                  the documented format, `privkey1:addr1,privkey2:addr2,privkey3`;
* `parseMultiWallets_formatWallets_iff`   the format carries exactly the non-empty lists of
                                   well-formed wallets: writing them and parsing the text gives
                                   them back, and every list the parser accepts is one;
* `Load_wallets`                   every accepted configuration has a wallet, each with a key.
-/

set_option linter.unusedSectionVars false
set_option linter.unusedVariables false

namespace GonkaProxy

/-! ## the wallet list -/

/-- `WalletCfg` -/
structure WalletCfg where
  privateKey : Bytes
  address : Bytes
  deriving DecidableEq, Repr

/-- the errors of `loadWallets`, by their text -/
inductive ConfigError where
  /-- `wallet entry %d has empty private key`, numbered among all comma-separated parts -/
  | emptyPrivateKey (entry : Nat)
  /-- `GONKA_WALLETS is set but contains no valid entries` -/
  | noValidEntries
  /-- `either GONKA_WALLETS or GONKA_PRIVATE_KEY must be set` -/
  | noWallet
  deriving DecidableEq, Repr

/-- one trimmed, non-empty entry, split at its first colon -/
def parseWalletEntry (part : Bytes) : WalletCfg :=
  match index part [0x3A] with
  | some idx => ⟨trimSpace (part.take idx), trimSpace (part.drop (idx + 1))⟩
  | none => ⟨part, []⟩

/-- the loop of `parseMultiWallets` over the parts from the `i`-th on -/
def parseParts : Nat → List Bytes → Except ConfigError (List WalletCfg)
  | _, [] => .ok []
  | i, part :: parts =>
    if trimSpace part = [] then parseParts (i + 1) parts
    else
      let w := parseWalletEntry (trimSpace part)
      if w.privateKey = [] then .error (.emptyPrivateKey (i + 1))
      else (parseParts (i + 1) parts).map (w :: ·)

/-- `parseMultiWallets(raw)`: `strings.Split(raw, ",")`, then the loop -/
def parseMultiWallets (raw : Bytes) : Except ConfigError (List WalletCfg) :=
  match parseParts 0 (raw.splitOn 0x2C) with
  | .ok [] => .error .noValidEntries
  | r => r

/-- `loadWallets()`, the environment as `os.Getenv` -/
def loadWallets (env : Bytes → Bytes) : Except ConfigError (List WalletCfg) :=
  if trimSpace (env (ascii "GONKA_WALLETS")) ≠ [] then parseMultiWallets (trimSpace (env (ascii "GONKA_WALLETS")))
  else if trimSpace (env (ascii "GONKA_PRIVATE_KEY")) = [] then .error .noWallet
  else .ok [⟨trimSpace (env (ascii "GONKA_PRIVATE_KEY")), trimSpace (env (ascii "GONKA_ADDRESS"))⟩]

/-! ## `Load` -/

/-- `strings.TrimRight(s, "/")` -/
def trimRightSlashes (s : Bytes) : Bytes := (s.reverse.dropWhile (· = 0x2F)).reverse

/-- `strings.TrimSuffix(s, suffix)` -/
def trimSuffix (s suffix : Bytes) : Bytes := if suffix <:+ s then s.take (s.length - suffix.length) else s

/-- `raw == "1" || strings.EqualFold(raw, "true")`: no letter of `true` folds to a byte outside
ASCII, so the fold is ASCII's -/
def isTrueFlag (raw : Bytes) : Bool :=
  raw == ascii "1" || raw.map (fun c => if 0x41 ≤ c ∧ c ≤ 0x5A then c + 0x20 else c) == ascii "true"

/-- `strings.TrimSpace(os.Getenv(name))`, or `dflt` when that is empty -/
def envOr (env : Bytes → Bytes) (name dflt : Bytes) : Bytes :=
  if trimSpace (env name) = [] then dflt else trimSpace (env name)

/-- `Cfg`, without `SanitizeLLMThreshold`, which no modelled function reads -/
structure Cfg where
  wallets : List WalletCfg
  sourceURL : Bytes
  simulateToolCalls : Bool
  sanitizeEnabled : Bool
  sanitizeNER : Bool
  sanitizeNERURL : Bytes
  sanitizeLLM : Bool
  sanitizeLLMURL : Bytes
  sanitizeLLMModel : Bytes
  listenAddr : Bytes
  deriving DecidableEq, Repr

/-- `config.Load()` -/
def Load (env : Bytes → Bytes) : Except ConfigError Cfg :=
  (loadWallets env).map fun wallets =>
    { wallets
      sourceURL := trimSuffix (trimRightSlashes (envOr env (ascii "GONKA_SOURCE_URL")
        (envOr env (ascii "GONKA_ENDPOINT") (ascii "http://node2.gonka.ai:8000")))) (ascii "/v1")
      simulateToolCalls := isTrueFlag (trimSpace (env (ascii "SIMULATE_TOOL_CALLS")))
      sanitizeEnabled := isTrueFlag (trimSpace (env (ascii "SANITIZE")))
      sanitizeNER := isTrueFlag (trimSpace (env (ascii "SANITIZE_NER")))
      sanitizeNERURL := envOr env (ascii "SANITIZE_NER_URL") (ascii "http://sanitize-ner:8001")
      sanitizeLLM := isTrueFlag (trimSpace (env (ascii "SANITIZE_LLM")))
      sanitizeLLMURL := envOr env (ascii "SANITIZE_LLM_URL") (ascii "http://ollama:11434")
      sanitizeLLMModel := envOr env (ascii "SANITIZE_LLM_MODEL") (ascii "qwen2.5:0.5b")
      listenAddr := ascii ":" ++ envOr env (ascii "PORT") (ascii "8080") }

/-! ## splitting at the commas, the first colon, and trimming -/

theorem not_mem_of_mem_splitOn {x : UInt8} : ∀ {xs l : Bytes}, l ∈ xs.splitOn x → x ∉ l
  | [], l, h => by simp_all
  | y :: ys, l, h => by
    have ih := @not_mem_of_mem_splitOn x ys
    simp only [List.splitOn, List.splitOnP_cons] at h ih
    split at h
    · rcases List.mem_cons.mp h with rfl | h
      · exact List.not_mem_nil x
      · exact ih h
    · rename_i hy
      obtain ⟨z, zs, hz⟩ := List.exists_cons_of_ne_nil (List.splitOnP_ne_nil (· == x) ys)
      rw [hz, List.modifyHead_cons] at h
      rcases List.mem_cons.mp h with rfl | h
      · rw [List.mem_cons, not_or]
        exact ⟨fun he => hy (by simp [he]), ih (by rw [hz]; exact List.mem_cons_self _ _)⟩
      · exact ih (by rw [hz]; exact List.mem_cons_of_mem _ h)

theorem spaceRunes_no_sep : ∀ p ∈ spaceRunes, (0x3A : UInt8) ∉ p ∧ (0x2C : UInt8) ∉ p := by decide

theorem Trimmed.colon {k a : Bytes} (hk : Trimmed k) (ha : Trimmed a) : Trimmed (k ++ 0x3A :: a) := by
  intro p hp
  refine ⟨fun h => (hk p hp).1 (prefix_of_not_mem h (spaceRunes_no_sep p hp).1), fun h => ?_⟩
  rw [← List.reverse_prefix, List.reverse_append, List.reverse_cons, List.append_assoc,
    List.singleton_append] at h
  exact (ha p hp).2 (List.reverse_prefix.mp
    (prefix_of_not_mem h (by simpa using (spaceRunes_no_sep p hp).1)))

theorem trimmed_nil : Trimmed [] := fun p hp =>
  ⟨fun h => spaceRunes_ne_nil p hp (List.prefix_nil.mp h), fun h => spaceRunes_ne_nil p hp (List.suffix_nil.mp h)⟩

/-! ## the format of `GONKA_WALLETS` -/

/-- a wallet the format carries: a non-empty key without commas or colons, an address without
commas, both trimmed -/
structure WalletCfg.WellFormed (w : WalletCfg) : Prop where
  key_ne : w.privateKey ≠ []
  key_trimmed : Trimmed w.privateKey
  key_comma : 0x2C ∉ w.privateKey
  key_colon : 0x3A ∉ w.privateKey
  address_trimmed : Trimmed w.address
  address_comma : 0x2C ∉ w.address

/-- the entry of a wallet in `GONKA_WALLETS`: `private_key`, or `private_key:address` -/
def walletEntry (w : WalletCfg) : Bytes :=
  if w.address = [] then w.privateKey else w.privateKey ++ 0x3A :: w.address

/-- the documented format of `GONKA_WALLETS` -/
def formatWallets (ws : List WalletCfg) : Bytes := [0x2C].intercalate (ws.map walletEntry)

theorem WalletCfg.WellFormed.entry {w : WalletCfg} (hw : w.WellFormed) :
    walletEntry w ≠ [] ∧ Trimmed (walletEntry w) ∧ 0x2C ∉ walletEntry w ∧
      parseWalletEntry (walletEntry w) = w := by
  unfold walletEntry
  split
  · rename_i ha
    refine ⟨hw.key_ne, hw.key_trimmed, hw.key_comma, ?_⟩
    rw [parseWalletEntry, index_single_none hw.key_colon, ← ha]
  · refine ⟨by simp, hw.key_trimmed.colon hw.address_trimmed, ?_, ?_⟩
    · simp [hw.key_comma, hw.address_comma]
    · have hd : (w.privateKey ++ 0x3A :: w.address).drop (w.privateKey.length + 1) = w.address := by
        rw [← List.drop_drop, List.drop_left]; rfl
      simp only [parseWalletEntry, index_append_cons hw.key_colon, List.take_left, hd,
        trimSpace_of_trimmed hw.key_trimmed, trimSpace_of_trimmed hw.address_trimmed]

theorem parseParts_entries (i : Nat) : ∀ {ws : List WalletCfg}, (∀ w ∈ ws, w.WellFormed) →
    parseParts i (ws.map walletEntry) = .ok ws
  | [], _ => rfl
  | w :: ws, h => by
    obtain ⟨hw, hws⟩ := List.forall_mem_cons.mp h
    obtain ⟨hne, htr, -, hparse⟩ := hw.entry
    rw [List.map_cons, parseParts, trimSpace_of_trimmed htr, if_neg hne]
    simp only [hparse, if_neg hw.key_ne, parseParts_entries (i + 1) hws]
    rfl

theorem parseMultiWallets_formatWallets {ws : List WalletCfg} (hne : ws ≠ []) (h : ∀ w ∈ ws, w.WellFormed) :
    parseMultiWallets (formatWallets ws) = .ok ws := by
  have hsep : ∀ l ∈ ws.map walletEntry, (0x2C : UInt8) ∉ l := by
    simp only [List.mem_map]
    rintro _ ⟨w, hw, rfl⟩
    exact (h w hw).entry.2.2.1
  rw [parseMultiWallets, formatWallets, List.splitOn_intercalate _ _ hsep (by simpa using hne),
    parseParts_entries 0 h]
  obtain ⟨w, ws, rfl⟩ := List.exists_cons_of_ne_nil hne
  rfl

/-! ## what the parser accepts -/

theorem exists_prefix_drop_of_mem_take {c : UInt8} : ∀ {s : Bytes} {i : Nat}, c ∈ s.take i →
    ∃ j < i, [c] <+: s.drop j
  | [], _, h => by simp at h
  | _ :: _, 0, h => by simp at h
  | x :: s, i + 1, h => by
    rcases List.mem_cons.mp h with rfl | h
    · exact ⟨0, Nat.succ_pos _, by simp⟩
    · obtain ⟨j, hj, hp⟩ := exists_prefix_drop_of_mem_take h
      exact ⟨j + 1, by omega, hp⟩

theorem parseWalletEntry_wellFormed {t : Bytes} (ht : Trimmed t) (hc : 0x2C ∉ t)
    (hk : (parseWalletEntry t).privateKey ≠ []) : (parseWalletEntry t).WellFormed := by
  have hsub : ∀ {x : Bytes}, x <:+: t → ∀ {b : UInt8}, b ∈ trimSpace x → b ∈ t :=
    fun hx _ hb => hx.subset ((trimSpace_isInfix _).subset hb)
  cases hidx : index t [0x3A] with
  | some idx =>
    simp only [parseWalletEntry, hidx] at hk ⊢
    have hfirst := (index_eq_some.mp hidx).2
    exact ⟨hk, trimmed_trimSpace _, fun hm => hc (hsub (List.take_prefix _ _).isInfix hm),
      fun hm => by
        obtain ⟨j, hj, hp⟩ := exists_prefix_drop_of_mem_take ((trimSpace_isInfix _).subset hm)
        exact hfirst j hj hp,
      trimmed_trimSpace _, fun hm => hc (hsub (List.drop_suffix _ _).isInfix hm)⟩
  | none =>
    simp only [parseWalletEntry, hidx] at hk ⊢
    refine ⟨hk, ht, hc, fun hm => ?_, trimmed_nil, List.not_mem_nil _⟩
    obtain ⟨j, -, hp⟩ := exists_prefix_drop_of_mem_take (by rwa [List.take_length])
    exact index_eq_none.mp hidx j hp

theorem parseParts_wellFormed : ∀ (i : Nat) {parts : List Bytes} {ws : List WalletCfg},
    (∀ p ∈ parts, (0x2C : UInt8) ∉ p) → parseParts i parts = .ok ws → ∀ w ∈ ws, w.WellFormed
  | _, [], _, _, h => by cases h; simp
  | i, part :: parts, ws, hc, h => by
    obtain ⟨hc1, hcs⟩ := List.forall_mem_cons.mp hc
    rw [parseParts] at h
    dsimp only at h
    split at h
    · exact parseParts_wellFormed (i + 1) hcs h
    · rename_i hne
      split at h
      · cases h
      · rename_i hk
        cases hr : parseParts (i + 1) parts with
        | error e => rw [hr] at h; cases h
        | ok ws' =>
          rw [hr] at h
          cases h
          refine List.forall_mem_cons.mpr ⟨parseWalletEntry_wellFormed (trimmed_trimSpace _)
            (fun hm => hc1 ((trimSpace_isInfix _).subset hm)) hk, parseParts_wellFormed (i + 1) hcs hr⟩

theorem parseMultiWallets_wellFormed {raw : Bytes} {ws : List WalletCfg} (h : parseMultiWallets raw = .ok ws) :
    ws ≠ [] ∧ ∀ w ∈ ws, w.WellFormed := by
  unfold parseMultiWallets at h
  split at h
  · cases h
  · rename_i r hr
    exact ⟨fun he => hr (he ▸ h), parseParts_wellFormed 0 (fun _ hp => not_mem_of_mem_splitOn hp) h⟩

/-- **The wallet format.**  For every list of wallets, writing it in the documented format of
`GONKA_WALLETS` and parsing the text with `parseMultiWallets` gives the list back exactly when it is
non-empty and every wallet is well formed: a non-empty, trimmed key without commas or colons,
and a trimmed address without commas. -/
theorem parseMultiWallets_formatWallets_iff (ws : List WalletCfg) :
    parseMultiWallets (formatWallets ws) = .ok ws ↔ ws ≠ [] ∧ ∀ w ∈ ws, w.WellFormed :=
  ⟨parseMultiWallets_wellFormed, fun h => parseMultiWallets_formatWallets h.1 h.2⟩

example : parseMultiWallets (ascii "k1, ,:a2") = .error (.emptyPrivateKey 3) := rfl

example : parseMultiWallets (ascii " , ") = .error .noValidEntries := rfl

/-! ## `Load` -/

theorem loadWallets_ok {env : Bytes → Bytes} {ws : List WalletCfg} (h : loadWallets env = .ok ws) :
    ws ≠ [] ∧ (∀ w ∈ ws, w.privateKey ≠ [] ∧ Trimmed w.privateKey ∧ Trimmed w.address) ∧
      (trimSpace (env (ascii "GONKA_WALLETS")) ≠ [] → ∀ w ∈ ws, w.WellFormed) := by
  unfold loadWallets at h
  split at h
  · obtain ⟨hne, hw⟩ := parseMultiWallets_wellFormed h
    exact ⟨hne, fun w hm => ⟨(hw w hm).key_ne, (hw w hm).key_trimmed, (hw w hm).address_trimmed⟩,
      fun _ => hw⟩
  · rename_i hm
    split at h
    · cases h
    · cases h
      refine ⟨List.cons_ne_nil _ _, ?_, fun h' => absurd h' hm⟩
      simp only [List.mem_singleton, forall_eq]
      exact ⟨‹_›, trimmed_trimSpace _, trimmed_trimSpace _⟩

/-- **Every accepted configuration has wallets.**  For every environment, when `config.Load`
succeeds the configuration holds at least one wallet, every wallet has a non-empty key, key and
address are trimmed, and when the wallets came from `GONKA_WALLETS` the documented format writes
them to a text that parses back to them. -/
theorem Load_wallets {env : Bytes → Bytes} {cfg : Cfg} (h : Load env = .ok cfg) :
    cfg.wallets ≠ [] ∧ (∀ w ∈ cfg.wallets, w.privateKey ≠ [] ∧ Trimmed w.privateKey ∧ Trimmed w.address) ∧
      (trimSpace (env (ascii "GONKA_WALLETS")) ≠ [] →
        parseMultiWallets (formatWallets cfg.wallets) = .ok cfg.wallets) := by
  cases hw : loadWallets env with
  | error e => rw [Load, hw] at h; cases h
  | ok ws =>
    rw [Load, hw] at h
    cases h
    obtain ⟨hne, hkeys, hwf⟩ := loadWallets_ok hw
    exact ⟨hne, hkeys, fun hm => parseMultiWallets_formatWallets hne (hwf hm)⟩

/-- two entries around a blank one -/
theorem Load_wallets_two :
    let env := fun n : Bytes => if n = ascii "GONKA_WALLETS" then ascii " k1:a1, ,k2 " else []
    let cfg : Cfg := ⟨[⟨ascii "k1", ascii "a1"⟩, ⟨ascii "k2", []⟩], ascii "http://node2.gonka.ai:8000", false,
      false, false, ascii "http://sanitize-ner:8001", false, ascii "http://ollama:11434", ascii "qwen2.5:0.5b",
      ascii ":8080"⟩
    Load env = .ok cfg ∧ cfg.wallets ≠ [] ∧
      (∀ w ∈ cfg.wallets, w.privateKey ≠ [] ∧ Trimmed w.privateKey ∧ Trimmed w.address) ∧
      (trimSpace (env (ascii "GONKA_WALLETS")) ≠ [] →
        parseMultiWallets (formatWallets cfg.wallets) = .ok cfg.wallets) :=
  by intro env cfg; exact ⟨rfl, Load_wallets (show Load env = .ok cfg from rfl)⟩

end GonkaProxy
