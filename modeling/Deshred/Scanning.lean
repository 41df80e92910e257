import Deshred.Transaction

/-!
# What the scanner accepts and reads back

The scanner walks as `readTransaction` does and keeps the boundaries only.
-/

namespace Deshred
open Scanner View

/-! ### The two walks -/

theorem scanInstruction_eq : scanInstruction = (fun _ => ()) <$> readInstruction := by
  simp only [scanInstruction, readInstruction, readShortVec, shortvecLen_eq, map_bind, bind_map_left, bind_assoc,
    pure_bind, map_pure]

theorem scanLookup_eq : scanLookup = (fun _ => ()) <$> readLookup := by
  simp only [scanLookup, readLookup, readShortVec, shortvecLen_eq, map_bind, bind_map_left, bind_assoc,
    pure_bind, map_pure]

theorem chunks_eq (k n : ℕ) : View.chunks k n = (List.replicate n k).splitLengths <$> View.take (n * k) := rfl

namespace LegacyTx

def version (tx : LegacyTx) : TxVersion := if tx.lookups.isSome then .v0 else .legacy

end LegacyTx

/-- The version is known before the lookups are walked. -/
theorem scanMessage_eq {β : Type} (signatures : ShortVec Bytes) (v0 : Bool) (k : TxVersion → ShortVec Bytes → Scan β) :
    (scanMessage (if v0 then .v0 else .legacy) >>= fun _ => k (if v0 then .v0 else .legacy) signatures) =
      (readMessage signatures v0 >>= fun tx => k tx.version tx.signatures) := by
  cases v0 with
  | false =>
    simp [scanMessage, readMessage, readShortVec, shortvecLen_eq, chunks_eq, scanInstruction_eq, repeatN_map,
      LegacyTx.version]
  | true =>
    simp [scanMessage, readMessage, readShortVec, shortvecLen_eq, chunks_eq, scanInstruction_eq, scanLookup_eq,
      repeatN_map, LegacyTx.version]

/- From the first byte of the message on. -/
theorem scanVersion_eq {β : Type} (signatures : ShortVec Bytes) (messageFirst : UInt8)
    (k : TxVersion → ShortVec Bytes → Scan β) :
    (scanVersion messageFirst >>= fun version => scanMessage version >>= fun _ => k version signatures) =
      ((if messageFirst &&& 0x80 = 0 then readMessage signatures false
        else if messageFirst = 0x80 then u8 >>= fun _ => readMessage signatures true
        else fail (.unknownVersion messageFirst)) >>= fun tx => k tx.version tx.signatures) := by
  have hlegacy := scanMessage_eq signatures false k
  have hv0 := scanMessage_eq signatures true k
  simp only [Bool.false_eq_true, ↓reduceIte] at hlegacy hv0
  unfold scanVersion
  split
  · rw [pure_bind, hlegacy]
  · split
    · simp only [bind_assoc, pure_bind, hv0]
    · rfl

theorem offset_after {α β : Type} {p : Scan α} {len : α → ℕ}
    (hp : ∀ c a c', p.run c = .ok (a, c') → c'.offset = c.offset + len a) (f : α → ℕ → Scan β) :
    (p >>= fun a => offset >>= fun here => f a here) = (offset >>= fun start => p >>= fun a => f a (start + len a)) := by
  funext c
  show (p >>= fun a => offset >>= fun here => f a here).run c = (p >>= fun a => f a (c.offset + len a)).run c
  rw [StateT.run_bind, StateT.run_bind]
  cases h : p.run c with
  | error e => rfl
  | ok r =>
    obtain ⟨a, c'⟩ := r
    have hc := hp c a c' h
    show (f a c'.offset).run c' = (f a (c.offset + len a)).run c'
    rw [hc]

theorem take_offset {n : ℕ} {s : Bytes} {c c' : Cursor UInt8} (h : (View.take n).run c = .ok (s, c')) :
    c'.offset = c.offset + n := by
  change (if _ then _ else _) = _ at h
  split at h
  · cases h
    rfl
  · contradiction

theorem shortvecBytesFrom_offset {start : ℕ} {shifts : List ℕ} {raw : Bytes} {c c' : Cursor UInt8}
    (h : (shortvecBytesFrom start shifts).run c = .ok (raw, c')) : c'.offset = c.offset + raw.length := by
  induction shifts generalizing c raw with
  | nil => contradiction
  | cons shift shifts ih =>
    obtain ⟨byte, c₁, h1, h2⟩ := run_bind_ok.mp h
    obtain ⟨s, hs, _⟩ := run_map_ok.mp h1
    have hone := take_offset hs
    split at h2
    · cases h2
      exact hone
    · obtain ⟨rest, hrest, rfl⟩ := run_map_ok.mp h2
      rw [ih hrest, hone, List.length_cons]
      omega

theorem shortvecBytes_offset (c : Cursor UInt8) (raw : Bytes) (c' : Cursor UInt8)
    (h : shortvecBytes.run c = .ok (raw, c')) : c'.offset = c.offset + raw.length :=
  shortvecBytesFrom_offset h

/-- The view that `scan_legacy_or_v0` builds from where it started and what it consumed. -/
def LegacyTx.viewAt (start here : ℕ) (version : TxVersion) (signatures : ShortVec Bytes) : Scan TxView := do
  let bytes ← spanFrom start
  pure ⟨bytes, version, (here + signatures.lengthBytes.length - start) % 2 ^ 16, signatures.items.length % 2 ^ 8⟩

theorem scanLegacyOrV0_eq (start : ℕ) : scanLegacyOrV0 start =
    (offset >>= fun here => readLegacyOrV0 >>= fun tx => LegacyTx.viewAt start here tx.version tx.signatures) := by
  have hscan : scanLegacyOrV0 start = (shortvecBytes >>= fun raw => offset >>= fun here => (do
      let _ ← View.take (shortvecValue raw * 64)
      let messageFirst ← View.peek
      let version ← scanVersion messageFirst
      scanMessage version
      let bytes ← spanFrom start
      pure (⟨bytes, version, (here - start) % 2 ^ 16, shortvecValue raw % 2 ^ 8⟩ : TxView))) := by
    rw [scanLegacyOrV0, shortvecLen_eq, bind_map_left]
  rw [hscan, offset_after shortvecBytes_offset]
  apply bind_congr
  intro here
  simp only [readLegacyOrV0, readShortVec, chunks_eq, bind_assoc, bind_map_left, pure_bind]
  refine bind_congr fun raw => bind_congr fun s => bind_congr fun messageFirst => ?_
  have hversion := scanVersion_eq ⟨raw, (List.replicate (shortvecValue raw) 64).splitLengths s⟩ messageFirst
    (LegacyTx.viewAt start here)
  rw [← hversion]
  simp only [LegacyTx.viewAt, List.length_splitLengths, List.length_replicate]

theorem and_high_eq_zero_iff (mask : UInt32) : mask &&& ~~~0b11111 = 0 ↔ mask.toNat < 2 ^ 5 := by
  rw [← UInt32.toNat_inj, UInt32.toNat_and]
  constructor
  · intro h
    by_contra hge
    obtain ⟨i, hi, hbit⟩ := Nat.exists_ge_and_testBit_of_ge_two_pow (Nat.le_of_not_lt hge)
    have hlt : i < 32 := by
      by_contra hbig
      rw [Nat.testBit_lt_two_pow (mask.toNat_lt.trans_le (Nat.pow_le_pow_right (by decide) (by omega)))] at hbit
      contradiction
    have hhigh : ∀ i < 32, 5 ≤ i → (~~~0b11111 : UInt32).toNat.testBit i = true := by decide
    have hand : (mask.toNat &&& (~~~0b11111 : UInt32).toNat).testBit i = (0 : UInt32).toNat.testBit i := by rw [h]
    rw [Nat.testBit_and, hbit, hhigh i hlt hi] at hand
    simp at hand
  · intro h
    have hsmall : ∀ k < 2 ^ 5, k &&& (~~~0b11111 : UInt32).toNat = (0 : UInt32).toNat := by decide
    exact hsmall _ h

/-- The scanner rejects the masks that no config has. -/
theorem badMask_iff (mask : UInt32) : badMask mask = true ↔ ¬ V1Config.DefinedMask mask := by
  by_cases hlt : mask.toNat < 2 ^ 5
  · have hall : ∀ k < 2 ^ 5, badMask (UInt32.ofNat k) = true ↔ ¬ V1Config.DefinedMask (UInt32.ofNat k) := by decide
    have hmask := hall mask.toNat hlt
    rwa [UInt32.ofNat_toNat] at hmask
  · have hhigh := (and_high_eq_zero_iff mask).not.mpr hlt
    exact iff_of_true (decide_eq_true (.inl hhigh)) fun h => hlt h.1

/-- And takes as many bytes as the values of a config with this mask have. -/
theorem configLen_eq {mask : UInt32} (h : V1Config.DefinedMask mask) : configLen mask = (V1Config.sizes mask).sum := by
  have hall : ∀ k < 2 ^ 5, V1Config.DefinedMask (UInt32.ofNat k) →
      configLen (UInt32.ofNat k) = (V1Config.sizes (UInt32.ofNat k)).sum := by decide
  have hmask := hall mask.toNat h.1
  rw [UInt32.ofNat_toNat] at hmask
  exact hmask h

/-- The view that `scan_v1` builds. -/
def V1Tx.viewAt (start : ℕ) (tx : V1Tx) : Scan TxView := do
  let here ← offset
  let bytes ← spanFrom start
  pure ⟨bytes, .v1, (here - tx.signatures.length * 64 - start) % 2 ^ 16, tx.signatures.length⟩

theorem scanV1_eq (start : ℕ) : scanV1 start = (readV1 >>= fun tx => V1Tx.viewAt start tx) := by
  have hmove : ∀ n c (s : Bytes) c', (View.take n).run c = .ok (s, c') → c'.offset = c.offset + n :=
    fun n c s c' h => take_offset h
  have htail : ∀ n : ℕ, (offset >>= fun here => View.take (n * 64) >>= fun _ => spanFrom start >>= fun bytes =>
      pure (⟨bytes, .v1, (here - start) % 2 ^ 16, n⟩ : TxView)) = (View.take (n * 64) >>= fun _ => offset >>= fun here =>
      spanFrom start >>= fun bytes => pure ⟨bytes, .v1, (here - n * 64 - start) % 2 ^ 16, n⟩) := by
    intro n
    rw [offset_after (hmove (n * 64))]
    apply bind_congr
    intro here
    simp only [Nat.add_sub_cancel]
  simp only [scanV1, readV1, bind_assoc]
  refine bind_congr fun _ => bind_congr fun numSignatures => bind_congr fun _ => bind_congr fun mask => ?_
  by_cases hmask : V1Config.DefinedMask mask
  · rw [if_neg fun hbad => (badMask_iff mask).mp hbad hmask, if_pos hmask, configLen_eq hmask]
    simp only [chunks_eq, readConfig, bind_assoc, bind_map_left, pure_bind]
    refine bind_congr fun _ => bind_congr fun _ => bind_congr fun _ => bind_congr fun _ => bind_congr fun _ =>
      bind_congr fun headers => bind_congr fun _ => ?_
    rw [htail]
    simp only [V1Tx.viewAt, List.length_splitLengths, List.length_replicate]
  · rw [if_pos ((badMask_iff mask).mpr hmask), if_neg hmask]
    rfl

/-! ### One transaction -/

namespace Transaction

/-- What the scanner says of a transaction of the layout. -/
def view : Transaction → TxView
  | legacyOrV0 tx => ⟨tx.encode, tx.version, tx.signatures.lengthBytes.length % 2 ^ 16, tx.signatures.items.length % 2 ^ 8⟩
  | v1 tx => ⟨tx.encode, .v1, (tx.encode.length - tx.signatures.length * 64) % 2 ^ 16, tx.signatures.length⟩

end Transaction

theorem LegacyTx.run_viewAt (before after enc : Bytes) (version : TxVersion) (signatures : ShortVec Bytes) :
    (viewAt before.length before.length version signatures).run ⟨before ++ (enc ++ after), (before ++ enc).length⟩ =
      .ok (⟨enc, version, signatures.lengthBytes.length % 2 ^ 16, signatures.items.length % 2 ^ 8⟩,
        ⟨before ++ (enc ++ after), (before ++ enc).length⟩) := by
  refine run_bind_ok.mpr ⟨enc, _, run_spanFrom before enc after, ?_⟩
  rw [Nat.add_sub_cancel_left]
  rfl

theorem V1Tx.run_viewAt (before after enc : Bytes) (tx : V1Tx) :
    (viewAt before.length tx).run ⟨before ++ (enc ++ after), (before ++ enc).length⟩ =
      .ok (⟨enc, .v1, (enc.length - tx.signatures.length * 64) % 2 ^ 16, tx.signatures.length⟩,
        ⟨before ++ (enc ++ after), (before ++ enc).length⟩) := by
  have hlen : (before ++ enc).length - tx.signatures.length * 64 - before.length =
      enc.length - tx.signatures.length * 64 := by
    rw [List.length_append]
    omega
  refine run_bind_ok.mpr ⟨_, _, rfl, run_bind_ok.mpr ⟨enc, _, run_spanFrom before enc after, ?_⟩⟩
  rw [hlen]
  rfl

theorem scanLegacyOrV0_ok {before rest : Bytes} {v : TxView} {c' : Cursor UInt8} :
    (scanLegacyOrV0 before.length).run ⟨before ++ rest, before.length⟩ = .ok (v, c') ↔
      ∃ tx, readLegacyOrV0.run ⟨before ++ rest, before.length⟩ = .ok (tx, c') ∧ v = (Transaction.legacyOrV0 tx).view := by
  rw [scanLegacyOrV0_eq, run_offset_bind, run_bind_ok]
  constructor
  · intro ⟨tx, c₁, hread, hview⟩
    obtain ⟨_, after, rfl, rfl⟩ := codec_legacyOrV0.exact before rest tx c₁ trivial hread
    rw [LegacyTx.run_viewAt before after, Except.ok.injEq, Prod.mk.injEq] at hview
    obtain ⟨rfl, rfl⟩ := hview
    exact ⟨tx, hread, rfl⟩
  · rintro ⟨tx, hread, rfl⟩
    obtain ⟨_, after, rfl, rfl⟩ := codec_legacyOrV0.exact before rest tx c' trivial hread
    exact ⟨tx, _, hread, LegacyTx.run_viewAt before after tx.encode tx.version tx.signatures⟩

theorem scanV1_ok {before rest : Bytes} {v : TxView} {c' : Cursor UInt8} (hfirst : rest.head? = some 0x81) :
    (scanV1 before.length).run ⟨before ++ rest, before.length⟩ = .ok (v, c') ↔
      ∃ tx, readV1.run ⟨before ++ rest, before.length⟩ = .ok (tx, c') ∧ v = (Transaction.v1 tx).view := by
  rw [scanV1_eq, run_bind_ok]
  constructor
  · intro ⟨tx, c₁, hread, hview⟩
    obtain ⟨_, after, rfl, rfl⟩ := codec_v1.exact before rest tx c₁ hfirst hread
    rw [V1Tx.run_viewAt before after, Except.ok.injEq, Prod.mk.injEq] at hview
    obtain ⟨rfl, rfl⟩ := hview
    exact ⟨tx, hread, rfl⟩
  · rintro ⟨tx, hread, rfl⟩
    obtain ⟨_, after, rfl, rfl⟩ := codec_v1.exact before rest tx c' hfirst hread
    exact ⟨tx, _, hread, V1Tx.run_viewAt before after tx.encode tx⟩

theorem scanTransaction_ok {before rest : Bytes} {v : TxView} {c' : Cursor UInt8} :
    scanTransaction.run ⟨before ++ rest, before.length⟩ = .ok (v, c') ↔
      ∃ t, readTransaction.run ⟨before ++ rest, before.length⟩ = .ok (t, c') ∧ v = t.view := by
  have hhead : ∀ first, (before ++ rest)[before.length]? = some first → rest.head? = some first := by
    intro first h
    rwa [List.getElem?_append_right le_rfl, Nat.sub_self, ← List.head?_eq_getElem?] at h
  rw [scanTransaction, run_offset_bind, run_bind_ok]
  constructor
  · intro ⟨first, c₁, hpeek, h⟩
    obtain ⟨rfl, hfirst⟩ := run_peek_ok.mp hpeek
    split at h
    · rename_i hlt
      obtain ⟨tx, hread, rfl⟩ := scanLegacyOrV0_ok.mp h
      refine ⟨.legacyOrV0 tx, run_bind_ok.mpr ⟨first, _, hpeek, ?_⟩, rfl⟩
      rw [if_pos hlt]
      exact run_map_ok.mpr ⟨tx, hread, rfl⟩
    · rename_i hge
      split at h
      · rename_i hb
        obtain ⟨tx, hread, rfl⟩ := (scanV1_ok (hb ▸ hhead first hfirst)).mp h
        refine ⟨.v1 tx, run_bind_ok.mpr ⟨first, _, hpeek, ?_⟩, rfl⟩
        rw [if_neg hge, if_pos hb]
        exact run_map_ok.mpr ⟨tx, hread, rfl⟩
      · contradiction
  · rintro ⟨t, hread, rfl⟩
    obtain ⟨first, c₁, hpeek, h⟩ := run_bind_ok.mp hread
    obtain ⟨rfl, hfirst⟩ := run_peek_ok.mp hpeek
    refine ⟨first, _, hpeek, ?_⟩
    split at h
    · rename_i hlt
      obtain ⟨tx, htx, rfl⟩ := run_map_ok.mp h
      rw [if_pos hlt]
      exact scanLegacyOrV0_ok.mpr ⟨tx, htx, rfl⟩
    · rename_i hge
      split at h
      · rename_i hb
        obtain ⟨tx, htx, rfl⟩ := run_map_ok.mp h
        rw [if_neg hge, if_pos hb]
        exact (scanV1_ok (hb ▸ hhead first hfirst)).mpr ⟨tx, htx, rfl⟩
      · contradiction

/-- Wherever a transaction of the layout stands, the scanner finds it. -/
theorem reads_transaction {t : Transaction} (ht : t.Valid) : Reads scanTransaction t.encode t.view :=
  fun before after => scanTransaction_ok.mpr ⟨t, codec_transaction.reads t ht before after, rfl⟩

/-- And what it finds at any cursor is one. -/
theorem valid_of_scanTransaction {c c' : Cursor UInt8} {v : TxView} (h : scanTransaction.run c = .ok (v, c')) :
    ∃ t, readTransaction.run c = .ok (t, c') ∧ t.Valid ∧ v = t.view := by
  have hc : c.offset ≤ c.bytes.length := by
    have hrun := h
    rw [scanTransaction, run_offset_bind] at hrun
    obtain ⟨first, c₁, hpeek, _⟩ := run_bind_ok.mp hrun
    obtain ⟨_, hget⟩ := run_peek_ok.mp hpeek
    exact (List.getElem?_eq_some_iff.mp hget).1.le
  have hlen : (c.bytes.take c.offset).length = c.offset := by
    rw [List.length_take]
    exact Nat.min_eq_left hc
  have hsplit : c = ⟨c.bytes.take c.offset ++ c.bytes.drop c.offset, (c.bytes.take c.offset).length⟩ := by
    rw [List.take_append_drop, hlen]
  rw [hsplit] at h ⊢
  obtain ⟨t, hread, hv⟩ := scanTransaction_ok.mp h
  exact ⟨t, hread, (codec_transaction.exact _ _ _ _ trivial hread).1, hv⟩

/-! ### Re-encoding -/

namespace ShortVec
variable {α : Type} {v : ShortVec α}

theorem canonical_iff : v.Canonical ↔ v.items.length ≤ 65535 ∧ v.compact = v := by
  constructor
  · intro h
    exact ⟨h.items, by rw [compact, ← h.lengthBytes]⟩
  · intro ⟨hn, h⟩
    exact ⟨(congrArg lengthBytes h).symm, hn⟩

theorem Valid.compact {V : List α → Prop} (h : v.Valid V) (hn : v.items.length ≤ 65535) : v.compact.Valid V where
  length := isShortvec_compactU16 hn
  count := (shortvecValue_compactU16 hn).symm
  items := h.items

/-- Each item re-encoded too. -/
def compactItems (f : α → α) (v : ShortVec α) : ShortVec α := ⟨compactU16 v.items.length, v.items.map f⟩

theorem valid_compactItems {V : α → Prop} {f : α → α} (hn : v.items.length ≤ 65535) (hf : ∀ a ∈ v.items, V (f a)) : (v.compactItems f).Valid fun as => ∀ a ∈ as, V a where
  length := isShortvec_compactU16 hn
  count := by
    rw [ShortVec.compactItems, List.length_map]
    exact (shortvecValue_compactU16 hn).symm
  items a ha := by
    obtain ⟨b, hb, rfl⟩ := List.mem_map.mp ha
    exact hf b hb

theorem compactItems_eq_iff {f : α → α} :
    v.compactItems f = v ↔ v.compact = v ∧ ∀ a ∈ v.items, f a = a := by
  obtain ⟨raw, items⟩ := v
  simp only [ShortVec.compactItems, ShortVec.compact, ShortVec.mk.injEq, and_true]
  have hmap : items.map f = items ↔ ∀ a ∈ items, f a = a := by simpa using List.map_inj_left (f := f) (g := id)
  rw [hmap]

end ShortVec

namespace Instruction

def compact (ix : Instruction) : Instruction := ⟨ix.programIdIndex, ix.accounts.compact, ix.data.compact⟩

def counts (ix : Instruction) : List ℕ := [ix.accounts.items.length, ix.data.items.length]

structure Canonical (ix : Instruction) : Prop where
  accounts : ix.accounts.Canonical
  data : ix.data.Canonical

theorem canonical_iff {ix : Instruction} : ix.Canonical ↔ (∀ n ∈ ix.counts, n ≤ 65535) ∧ ix.compact = ix := by
  obtain ⟨programIdIndex, accounts, data⟩ := ix
  constructor
  · intro ⟨ha, hd⟩
    obtain ⟨ha1, ha2⟩ := ShortVec.canonical_iff.mp ha
    obtain ⟨hd1, hd2⟩ := ShortVec.canonical_iff.mp hd
    dsimp only at ha1 ha2 hd1 hd2
    simp [counts, compact, ha1, ha2, hd1, hd2]
  · simp only [counts, compact, List.mem_cons, List.not_mem_nil, or_false, forall_eq_or_imp, forall_eq,
      Instruction.mk.injEq, true_and]
    intro ⟨⟨ha1, hd1⟩, ha2, hd2⟩
    exact ⟨ShortVec.canonical_iff.mpr ⟨ha1, ha2⟩, ShortVec.canonical_iff.mpr ⟨hd1, hd2⟩⟩

theorem Valid.compact {ix : Instruction} (h : ix.Valid) (hn : ∀ n ∈ ix.counts, n ≤ 65535) : ix.compact.Valid where
  accounts := h.accounts.compact (hn _ (by simp [counts]))
  data := h.data.compact (hn _ (by simp [counts]))

end Instruction

namespace Lookup

def compact (l : Lookup) : Lookup := ⟨l.table, l.writable.compact, l.readonly.compact⟩

def counts (l : Lookup) : List ℕ := [l.writable.items.length, l.readonly.items.length]

structure Canonical (l : Lookup) : Prop where
  writable : l.writable.Canonical
  readonly : l.readonly.Canonical

theorem canonical_iff {l : Lookup} : l.Canonical ↔ (∀ n ∈ l.counts, n ≤ 65535) ∧ l.compact = l := by
  obtain ⟨table, writable, readonly⟩ := l
  constructor
  · intro ⟨hw, hr⟩
    obtain ⟨hw1, hw2⟩ := ShortVec.canonical_iff.mp hw
    obtain ⟨hr1, hr2⟩ := ShortVec.canonical_iff.mp hr
    dsimp only at hw1 hw2 hr1 hr2
    simp [counts, compact, hw1, hw2, hr1, hr2]
  · simp only [counts, compact, List.mem_cons, List.not_mem_nil, or_false, forall_eq_or_imp, forall_eq,
      Lookup.mk.injEq, true_and]
    intro ⟨⟨hw1, hr1⟩, hw2, hr2⟩
    exact ⟨ShortVec.canonical_iff.mpr ⟨hw1, hw2⟩, ShortVec.canonical_iff.mpr ⟨hr1, hr2⟩⟩

theorem Valid.compact {l : Lookup} (h : l.Valid) (hn : ∀ n ∈ l.counts, n ≤ 65535) : l.compact.Valid where
  table := h.table
  writable := h.writable.compact (hn _ (by simp [counts]))
  readonly := h.readonly.compact (hn _ (by simp [counts]))

end Lookup

namespace LegacyTx
variable {tx : LegacyTx}

def compact (tx : LegacyTx) : LegacyTx where
  signatures := tx.signatures.compact
  header := tx.header
  keys := tx.keys.compact
  blockhash := tx.blockhash
  instructions := tx.instructions.compactItems Instruction.compact
  lookups := tx.lookups.map fun lookups => lookups.compactItems Lookup.compact

/- The numbers behind every length. -/
def counts (tx : LegacyTx) : List ℕ :=
  [tx.signatures.items.length, tx.keys.items.length, tx.instructions.items.length] ++
    tx.instructions.items.flatMap Instruction.counts ++
      match tx.lookups with
      | none => []
      | some lookups => lookups.items.length :: lookups.items.flatMap Lookup.counts

structure Canonical (tx : LegacyTx) : Prop where
  signatures : tx.signatures.Canonical
  keys : tx.keys.Canonical
  instructions : tx.instructions.Canonical ∧ ∀ ix ∈ tx.instructions.items, ix.Canonical
  lookups : ∀ lookups, tx.lookups = some lookups → lookups.Canonical ∧ ∀ l ∈ lookups.items, l.Canonical

/- The counts, field by field. -/
structure Fits (tx : LegacyTx) : Prop where
  signatures : tx.signatures.items.length ≤ 65535
  keys : tx.keys.items.length ≤ 65535
  instructions : tx.instructions.items.length ≤ 65535
  eachInstruction : ∀ ix ∈ tx.instructions.items, ∀ n ∈ ix.counts, n ≤ 65535
  lookups : ∀ lookups, tx.lookups = some lookups → lookups.items.length ≤ 65535 ∧
    ∀ l ∈ lookups.items, ∀ n ∈ l.counts, n ≤ 65535

theorem fits_iff : (∀ n ∈ tx.counts, n ≤ 65535) ↔ tx.Fits := by
  obtain ⟨signatures, header, keys, blockhash, instructions, _ | lookups⟩ := tx
  · simp only [counts, List.mem_append, List.mem_cons, List.not_mem_nil, or_false, List.mem_flatMap]
    constructor
    · intro h
      exact ⟨h _ (.inl (.inl rfl)), h _ (.inl (.inr (.inl rfl))), h _ (.inl (.inr (.inr rfl))),
        fun ix hix n hn => h n (.inr ⟨ix, hix, hn⟩), nofun⟩
    · rintro h n ((rfl | rfl | rfl) | ⟨ix, hix, hn⟩)
      · exact h.signatures
      · exact h.keys
      · exact h.instructions
      · exact h.eachInstruction ix hix n hn
  · simp only [counts, List.mem_append, List.mem_cons, List.not_mem_nil, or_false, List.mem_flatMap]
    constructor
    · intro h
      refine ⟨h _ (.inl (.inl (.inl rfl))), h _ (.inl (.inl (.inr (.inl rfl)))), h _ (.inl (.inl (.inr (.inr rfl)))),
        fun ix hix n hn => h n (.inl (.inr ⟨ix, hix, hn⟩)), ?_⟩
      rintro _ ⟨⟩
      exact ⟨h _ (.inr (.inl rfl)), fun l hl n hn => h n (.inr (.inr ⟨l, hl, hn⟩))⟩
    · rintro h n (((rfl | rfl | rfl) | ⟨ix, hix, hn⟩) | rfl | ⟨l, hl, hn⟩)
      · exact h.signatures
      · exact h.keys
      · exact h.instructions
      · exact h.eachInstruction ix hix n hn
      · exact (h.lookups lookups rfl).1
      · exact (h.lookups lookups rfl).2 l hl n hn

theorem canonical_iff : tx.Canonical ↔ (∀ n ∈ tx.counts, n ≤ 65535) ∧ tx.compact = tx := by
  rw [fits_iff]
  constructor
  · intro h
    have hs := ShortVec.canonical_iff.mp h.signatures
    have hk := ShortVec.canonical_iff.mp h.keys
    have hi := ShortVec.canonical_iff.mp h.instructions.1
    have hix := fun ix hix => Instruction.canonical_iff.mp (h.instructions.2 ix hix)
    have hl := fun ls hls => ShortVec.canonical_iff.mp (h.lookups ls hls).1
    have hll := fun ls hls l hl => Lookup.canonical_iff.mp ((h.lookups ls hls).2 l hl)
    refine ⟨⟨hs.1, hk.1, hi.1, fun ix hmem => (hix ix hmem).1, fun ls hls =>
      ⟨(hl ls hls).1, fun l hmem => (hll ls hls l hmem).1⟩⟩, ?_⟩
    have hinstr : tx.instructions.compactItems Instruction.compact = tx.instructions :=
      ShortVec.compactItems_eq_iff.mpr ⟨hi.2, fun ix hmem => (hix ix hmem).2⟩
    have hlook : (tx.lookups.map fun lookups => lookups.compactItems Lookup.compact) = tx.lookups := by
      cases hls : tx.lookups with
      | none => rfl
      | some ls =>
        rw [Option.map_some, ShortVec.compactItems_eq_iff.mpr ⟨(hl ls hls).2, fun l hmem => (hll ls hls l hmem).2⟩]
    rw [compact, hs.2, hk.2, hinstr, hlook]
  · intro ⟨h, heq⟩
    have hinstr := ShortVec.compactItems_eq_iff.mp (congrArg LegacyTx.instructions heq)
    refine ⟨ShortVec.canonical_iff.mpr ⟨h.signatures, congrArg LegacyTx.signatures heq⟩,
      ShortVec.canonical_iff.mpr ⟨h.keys, congrArg LegacyTx.keys heq⟩,
      ⟨ShortVec.canonical_iff.mpr ⟨h.instructions, hinstr.1⟩, fun ix hix =>
        Instruction.canonical_iff.mpr ⟨h.eachInstruction ix hix, hinstr.2 ix hix⟩⟩, fun ls hls => ?_⟩
    have hlook := congrArg LegacyTx.lookups heq
    simp only [compact, hls, Option.map_some, Option.some.injEq] at hlook
    obtain ⟨hc, hitems⟩ := ShortVec.compactItems_eq_iff.mp hlook
    exact ⟨ShortVec.canonical_iff.mpr ⟨(h.lookups ls hls).1, hc⟩, fun l hl =>
      Lookup.canonical_iff.mpr ⟨(h.lookups ls hls).2 l hl, hitems l hl⟩⟩

theorem Valid.compact (h : tx.Valid) (hn : tx.Fits) : tx.compact.Valid where
  signatures := h.signatures.compact hn.signatures
  message :=
    { header := h.message.header
      keys := h.message.keys.compact hn.keys
      blockhash := h.message.blockhash
      instructions := ShortVec.valid_compactItems hn.instructions fun ix hix =>
        (h.message.instructions.items ix hix).compact (hn.eachInstruction ix hix)
      lookups := by
        intro lookups hl
        obtain ⟨ls, hls, rfl⟩ := Option.map_eq_some_iff.mp hl
        exact ShortVec.valid_compactItems (hn.lookups ls hls).1 fun l hl =>
          ((h.message.lookups ls hls).items l hl).compact ((hn.lookups ls hls).2 l hl) }
  version hnone := h.version (Option.map_eq_none_iff.mp hnone)

end LegacyTx

namespace Transaction

/-- Every length in its compact form; v1 has none. -/
def compact : Transaction → Transaction
  | legacyOrV0 tx => .legacyOrV0 tx.compact
  | v1 tx => .v1 tx

def counts : Transaction → List ℕ
  | legacyOrV0 tx => tx.counts
  | v1 _ => []

def Canonical : Transaction → Prop
  | legacyOrV0 tx => tx.Canonical
  | v1 _ => True

/-- What the owned side writes; it cannot write a length above 65535. -/
def reencode (t : Transaction) : Option Bytes :=
  if ∀ n ∈ t.counts, n ≤ 65535 then some t.compact.encode else none

theorem canonical_iff {t : Transaction} : t.Canonical ↔ (∀ n ∈ t.counts, n ≤ 65535) ∧ t.compact = t := by
  cases t with
  | legacyOrV0 tx =>
    simp only [Canonical, counts, compact, legacyOrV0.injEq]
    exact LegacyTx.canonical_iff
  | v1 tx => exact ⟨fun _ => ⟨nofun, rfl⟩, fun _ => trivial⟩

theorem Valid.compact {t : Transaction} (h : t.Valid) (hn : ∀ n ∈ t.counts, n ≤ 65535)
    (heq : t.compact.encode = t.encode) : t.compact.Valid := by
  cases t with
  | legacyOrV0 tx =>
    obtain ⟨htx, hfirst⟩ := h
    refine ⟨htx.compact (LegacyTx.fits_iff.mp hn), ?_⟩
    have hsame : tx.compact.encode = tx.encode := heq
    rwa [hsame]
  | v1 tx => exact h

/-- Two transactions of the layout with the same bytes are the same. -/
theorem reencode_iff {t : Transaction} (h : t.Valid) : t.reencode = some t.encode ↔ t.Canonical := by
  rw [canonical_iff, reencode]
  constructor
  · intro heq
    split at heq
    · rename_i hn
      rw [Option.some.injEq] at heq
      exact ⟨hn, codec_transaction.inj (h.compact hn heq) h heq⟩
    · contradiction
  · intro ⟨hn, hcompact⟩
    rw [if_pos hn, hcompact]

theorem view_bytes (t : Transaction) : t.view.bytes = t.encode := by
  cases t <;> rfl

end Transaction

/-- The bytes of a view are what the owned side writes for that transaction exactly when
each length stands there in its compact form. -/
theorem reencodes_iff {c c' : Cursor UInt8} {v : TxView} (h : scanTransaction.run c = .ok (v, c')) :
    ∃ t, readTransaction.run c = .ok (t, c') ∧ v = t.view ∧ (t.reencode = some v.bytes ↔ t.Canonical) := by
  obtain ⟨t, hread, ht, rfl⟩ := valid_of_scanTransaction h
  refine ⟨t, hread, rfl, ?_⟩
  rw [t.view_bytes]
  exact Transaction.reencode_iff ht

/- No signatures, keys or instructions; the number of keys is padded to two bytes. -/
def paddedTx : LegacyTx where
  signatures := ⟨[0x00], []⟩
  header := [0, 0, 0]
  keys := ⟨[0x80, 0x00], []⟩
  blockhash := List.replicate 32 0
  instructions := ⟨[0x00], []⟩
  lookups := none

theorem paddedTx_valid : (Transaction.legacyOrV0 paddedTx).Valid := by
  have hzero : IsShortvec 3 [0x00] := by decide
  have hpadded : IsShortvec 3 [0x80, 0x00] := by decide
  exact ⟨⟨⟨hzero, rfl, nofun⟩, ⟨rfl, ⟨hpadded, rfl, nofun⟩, rfl, ⟨hzero, rfl, nofun⟩, nofun⟩, fun _ => rfl⟩, 0x00, rfl,
    by decide⟩

theorem scan_paddedTx : ∃ c', scanTransaction.run ⟨paddedTx.encode, 0⟩ = .ok ((Transaction.legacyOrV0 paddedTx).view, c') ∧
    readTransaction.run ⟨paddedTx.encode, 0⟩ = .ok (.legacyOrV0 paddedTx, c') := by
  have hscan := reads_transaction paddedTx_valid [] []
  have hread := codec_transaction.reads _ paddedTx_valid [] []
  rw [List.append_nil] at hscan hread
  exact ⟨_, hscan, hread⟩

/-- The scanner takes 39 bytes that nobody writes. -/
theorem padded_length_accepted : ∃ v c', scanTransaction.run ⟨paddedTx.encode, 0⟩ = .ok (v, c') ∧
    readTransaction.run ⟨paddedTx.encode, 0⟩ = .ok (.legacyOrV0 paddedTx, c') ∧
    v.bytes = [0x00, 0, 0, 0, 0x80, 0x00] ++ List.replicate 32 0 ++ [0x00] ∧
    (Transaction.legacyOrV0 paddedTx).reencode ≠ some v.bytes := by
  obtain ⟨c', hscan, hread⟩ := scan_paddedTx
  refine ⟨_, c', hscan, hread, rfl, ?_⟩
  rw [Transaction.view_bytes, ne_eq, Transaction.reencode_iff paddedTx_valid]
  intro h
  exact absurd h.keys.lengthBytes (by decide)

theorem reencodes_iff_padded : ∃ v c' t, scanTransaction.run ⟨paddedTx.encode, 0⟩ = .ok (v, c') ∧
    readTransaction.run ⟨paddedTx.encode, 0⟩ = .ok (t, c') ∧ v = t.view ∧
    (t.reencode = some v.bytes ↔ t.Canonical) := by
  obtain ⟨c', hscan, _⟩ := scan_paddedTx
  obtain ⟨t, hread, hv, hiff⟩ := reencodes_iff hscan
  exact ⟨_, c', t, hscan, hread, hv, hiff⟩

end Deshred
