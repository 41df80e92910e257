import Deshred.FecRuns

/-!
# The layout of recovered shreds

`recover` takes the variant byte of a rebuilt shred from the reconstructed shard, and
its check of the headers does not look at it. When the byte is the set's, the rebuilt
shred is laid out like the received ones: its entry bytes lie inside the shard.
-/

namespace Deshred

namespace Shred

/-- A variant byte is where the proof size and the resigned flag come from. -/
theorem variant_of_parse {packet : Bytes} {x : Shred} (h : parse packet = .ok x) :
    ∃ v, packet[variantOffset]? = some v ∧ variantKind v = some (x.kind, x.resigned) ∧
      (v &&& 0x0F).toNat = x.proofSize := by
  have hf := parse_eq_ok_iff.mp h
  unfold parseFields at hf
  dsimp only at hf
  split at hf
  · contradiction
  · rename_i v hv
    split at hf
    · contradiction
    · rename_i kind resigned hkind
      split at hf
      · contradiction
      · split at hf
        · contradiction
        · split at hf
          · contradiction
          · split at hf
            · contradiction
            · simp only [Except.ok.injEq] at hf
              rw [← hf]
              exact ⟨v, hv, hkind, rfl⟩

/-- A shred rebuilt in the layout of its template carries the shard and the template's
chained root. -/
theorem parts_of_rebuilt {signature : Signature} {template : Shred} {p : Fin 32} {shard : Bytes} {y : Shred}
    (h : FecSet.Rebuilt signature template p shard y) (hlen : shard.length = template.erasureShard.length)
    (hps : y.proofSize = template.proofSize) (hres : y.resigned = template.resigned) :
    y.erasureShard = shard ∧ y.chainedMerkleRoot = template.chainedMerkleRoot := by
  have hk := (y.position_data h.position).1
  have hparts := data_parts hk
  obtain ⟨hbytes, hwire⟩ := bytes_of_parse h.parsed
  have hel : y.erasureShard.length = shard.length := by
    have h1 := y.erasureShard_length
    have h2 := template.erasureShard_length
    rw [hps, hres] at h1
    omega
  have hplen : y.merkleProof.length = 20 * y.proofSize := y.merkleProof_length.trans (Nat.mul_comm ..)
  have hsig : y.signature.val.length = signature.val.length := y.signature.property.trans signature.property.symm
  have hchain : y.chainedMerkleRoot.length = template.chainedMerkleRoot.length :=
    y.chainedMerkleRoot_length.trans template.chainedMerkleRoot_length.symm
  have htail : (y.retransmitterSignature.elim [] Subtype.val).length =
      (template.retransmitterSignature.elim [] Subtype.val).length := by
    have h1 := y.retransmitterSignature_isSome
    have h2 := template.retransmitterSignature_isSome
    rw [hres, ← h2] at h1
    cases ht : template.retransmitterSignature with
    | none =>
      rw [ht, Option.isSome_none, Option.isSome_eq_false_iff, Option.isNone_iff_eq_none] at h1
      rw [h1]
    | some t =>
      rw [ht, Option.isSome_some] at h1
      obtain ⟨s, hs⟩ := Option.isSome_iff_exists.mp h1
      rw [hs]
      exact s.property.trans t.property.symm
  have hfull : y.bytes = FecSet.rebuiltBytes signature template shard := by
    rw [hbytes, List.take_of_length_le]
    rw [hparts] at hbytes
    have hl := congrArg List.length hparts
    rw [y.bytes_length] at hl
    simp only [List.length_append, hplen, hel, hsig, hchain, htail, hps] at hl
    simp only [FecSet.rebuiltBytes, List.length_append, List.length_replicate]
    omega
  rw [hparts] at hfull
  simp only [FecSet.rebuiltBytes, List.append_assoc] at hfull
  have h1 := List.append_inj hfull hsig
  have h2 := List.append_inj h1.2 hel
  exact ⟨h2.1, (List.append_inj h2.2 hchain).1⟩

end Shred

namespace FecSet

/-! ### What is installed -/

theorem mem_rebuildAll_iff {signature : Signature} {template : Shred} {items : List (Fin 32 × Bytes × Bool)}
    {p : Fin 32} {y : Shred} : (p, y) ∈ (rebuildAll signature template items).1 ↔
      ∃ before shard after, items = before ++ (p, shard, false) :: after ∧
        (∀ q shard', (q, shard', false) ∈ before → ∃ z, rebuild signature template q shard' = .ok z) ∧
        rebuild signature template p shard = .ok y := by
  induction items with
  | nil =>
    simp [rebuildAll]
  | cons item items ih =>
    obtain ⟨r, shard₀, present⟩ := item
    -- every split of the tail is one of the whole list when the head is passed
    have hcons : (present = true ∨ ∃ z, rebuild signature template r shard₀ = .ok z) →
        (p, y) ∈ (rebuildAll signature template items).1 →
        ∃ before shard after, (r, shard₀, present) :: items = before ++ (p, shard, false) :: after ∧
          (∀ q shard', (q, shard', false) ∈ before → ∃ z, rebuild signature template q shard' = .ok z) ∧
          rebuild signature template p shard = .ok y := by
      intro hhead hmem
      obtain ⟨before, shard, after, rfl, hbefore, hok⟩ := ih.mp hmem
      refine ⟨(r, shard₀, present) :: before, shard, after, rfl, fun q shard' hq => ?_, hok⟩
      rcases List.mem_cons.mp hq with heq | hq
      · cases heq
        exact hhead.resolve_left (by simp)
      · exact hbefore q shard' hq
    cases present with
    | true =>
      constructor
      · exact fun h => hcons (.inl rfl) h
      · rintro ⟨before, shard, after, heq, hbefore, hok⟩
        cases before with
        | nil => simp at heq
        | cons b before =>
          obtain ⟨rfl, rfl⟩ := List.cons.inj heq
          exact ih.mpr ⟨before, shard, after, rfl, fun q s hq => hbefore q s (List.mem_cons_of_mem _ hq), hok⟩
    | false =>
      constructor
      · intro h
        cases hre : rebuild signature template r shard₀ with
        | error e => simp [rebuildAll, hre] at h
        | ok z =>
          simp only [rebuildAll, hre, List.mem_cons, Prod.mk.injEq] at h
          rcases h with ⟨rfl, rfl⟩ | h
          · exact ⟨[], shard₀, items, rfl, by simp, hre⟩
          · exact hcons (.inr ⟨z, hre⟩) h
      · rintro ⟨before, shard, after, heq, hbefore, hok⟩
        cases before with
        | nil =>
          obtain ⟨hhead, rfl⟩ := List.cons.inj heq
          cases hhead
          simp [rebuildAll, hok]
        | cons b before =>
          obtain ⟨rfl, rfl⟩ := List.cons.inj heq
          obtain ⟨z, hz⟩ := hbefore r shard₀ (List.mem_cons_self ..)
          simp only [rebuildAll, hz]
          exact List.mem_cons_of_mem _
            (ih.mpr ⟨before, shard, after, rfl, fun q s hq => hbefore q s (List.mem_cons_of_mem _ hq), hok⟩)

variable {set set' : FecSet} {rs : ReedSolomon} {r : Except RecoverError (List ℕ)} {template : Shred}
  {shards : List (Bytes × Bool)}

/-- Where there was no data shred, recovery puts what it rebuilt. -/
theorem installed_iff (ht : set.anyShred = some template)
    (hrec : rs.reconstructData (set.shards template.erasureShard.length) = some shards)
    (hok : set.recover rs = .ok (set', r)) {p : Fin 32} (hp : set.data p = none) {y : Shred} :
    set'.data p = some y ↔ (p, y) ∈ (rebuildAll set.signature template (reconstructed shards)).1 := by
  have hnd := @rebuildAll_nodup set template _ _ (rs.keeps _ _ hrec)
  have hdata : set'.data = (set.installAll (rebuildAll set.signature template (reconstructed shards)).1).data := by
    cases recover_ends hok with
    | undecoded t ht' hnone =>
      obtain rfl := Option.some.inj (ht.symm.trans ht')
      rw [hrec] at hnone
      contradiction
    | stopped t out l e ht' hrec' hl =>
      obtain rfl := Option.some.inj (ht.symm.trans ht')
      obtain rfl := Option.some.inj (hrec.symm.trans hrec')
      rw [hl]
    | complete t out l ht' hrec' hl =>
      obtain rfl := Option.some.inj (ht.symm.trans ht')
      obtain rfl := Option.some.inj (hrec.symm.trans hrec')
      rw [hl]
      rfl
  rw [hdata]
  constructor
  · intro h
    rcases installAll_from h with hold | hnew
    · rw [hp] at hold
      contradiction
    · exact hnew
  · exact fun h => installAll_data hnd h

/-! ### The layout -/

/-- The first byte of the shard is the variant of a data shred with this proof size and
resigned flag. -/
def HasVariant (shard : Bytes) (proofSize : ℕ) (resigned : Bool) : Prop :=
  ∃ v, shard[0]? = some v ∧ variantKind v = some (.data, resigned) ∧ (v &&& 0x0F).toNat = proofSize

/-- Every data shard that is rebuilt begins with the set's variant byte: it and the
missing ones before it pass the parser and the header check. -/
def ReconstructsVariant (set : FecSet) (rs : ReedSolomon) (proofSize : ℕ) (resigned : Bool) : Prop :=
  ∀ template shards, set.anyShred = some template →
    rs.reconstructData (set.shards template.erasureShard.length) = some shards →
    ∀ before p shard after, reconstructed shards = before ++ (p, shard, false) :: after →
      (∀ q shard', (q, shard', false) ∈ before → ∃ z, rebuild set.signature template q shard' = .ok z) →
      (∃ y, rebuild set.signature template p shard = .ok y) → HasVariant shard proofSize resigned

/-- Every shred the call installs has this layout, its entry bytes are part of the
reconstructed shard and its chained root is the template's. -/
def InstallsInLayout (set : FecSet) (rs : ReedSolomon) (proofSize : ℕ) (resigned : Bool) : Prop :=
  ∀ set' r p y, set.recover rs = .ok (set', r) → set.data p = none → set'.data p = some y →
    y.proofSize = proofSize ∧ y.resigned = resigned ∧
    ∃ template shards shard, set.anyShred = some template ∧
      rs.reconstructData (set.shards template.erasureShard.length) = some shards ∧
      (p, shard, false) ∈ reconstructed shards ∧ y.data <+: shard.drop 24 ∧
      y.chainedMerkleRoot = template.chainedMerkleRoot

theorem hasVariant_iff {signature : Signature} {p : Fin 32} {shard : Bytes} {y : Shred}
    (hy : Rebuilt signature template p shard y) (hlen : shard.length = template.erasureShard.length)
    {proofSize : ℕ} {resigned : Bool} :
    HasVariant shard proofSize resigned ↔ y.proofSize = proofSize ∧ y.resigned = resigned := by
  obtain ⟨v, hv, hkind, hproof⟩ := Shred.variant_of_parse hy.parsed
  have hs := signature.property
  have hpos : 0 < shard.length := by
    have h1 := template.erasureShard_length
    have h2 := template.valid.proofSize
    have h3 : (if template.resigned then 64 else 0) ≤ 64 := by split <;> omega
    omega
  have hget : (rebuiltBytes signature template shard)[variantOffset]? = shard[0]? := by
    have hoff : variantOffset = signature.val.length := hs.symm
    simp only [rebuiltBytes, List.append_assoc]
    rw [hoff, List.getElem?_append_right le_rfl, Nat.sub_self, List.getElem?_append_left hpos]
  rw [hget] at hv
  rw [(y.position_data hy.position).1] at hkind
  constructor
  · rintro ⟨w, hw, hwk, hwp⟩
    obtain rfl : v = w := Option.some.inj (hv.symm.trans hw)
    rw [hkind] at hwk
    simp only [Option.some.injEq, Prod.mk.injEq, true_and] at hwk
    exact ⟨hproof.symm.trans hwp, hwk⟩
  · rintro ⟨rfl, rfl⟩
    exact ⟨v, hv, hkind, hproof⟩

theorem Reached.code [Hasher] {received : List Shred} (h : Reached received set) :
    (∀ p x, set.code p = some x → x ∈ received) ∧ set.numCode = occupied set.code := by
  induction h with
  | empty => exact ⟨fun p x hx => by simp [FecSet.empty] at hx, by simp [FecSet.empty, occupied]⟩
  | @taken received set x _ hnew ih =>
    obtain ⟨root, hacc⟩ := (set.insert_new_iff x).mp hnew
    rw [insert_of_accepts hacc]
    refine ⟨fun p y hy => ?_, ?_⟩
    · rcases accepted_held (q := .code p) hacc.needed hy with hold | ⟨_, rfl⟩
      · exact List.mem_append_left _ (ih.1 p y hold)
      · simp
    · cases hp : x.position with
      | data p =>
        rw [accepted_code_of_data set x root hp]
        unfold accepted place dropCode
        simp only [hp, isComplete, dataShredsPerFecSet, decide_eq_true_eq]
        split
        · exact occupied_none.symm
        · exact ih.2
      | code p =>
        have hc := hacc.needed (x.position_code hp).1
        have hfresh := hacc.fresh
        rw [get_eq, hp] at hfresh
        rw [accepted_code root hp hc, occupied_update hfresh]
        unfold accepted place dropCode
        simp only [hp]
        rw [if_neg (by simpa [isComplete] using hc)]
        exact congrArg (· + 1) ih.2
  | refused x _ hold ih => rwa [insert_unchanged hold]
  | @recovered received set set' r rs _ hc hok ih =>
    cases recover_ends hok with
    | undecoded template ht hrec => exact ih
    | stopped template out l e ht hrec hl =>
      obtain ⟨hcode, hnum, _⟩ := set.installAll_fields l
      rw [hcode, hnum]
      exact ih
    | complete template out l ht hrec hl =>
      exact ⟨fun p x hx => by simp [dropCode] at hx, occupied_none.symm⟩

theorem anyShred_code (h : 0 < occupied set.code) : ∃ p x, set.anyShred = some x ∧ set.code p = some x := by
  obtain ⟨p, x, hx⟩ := occupied_pos h
  have hmem : x ∈ ((List.finRange 32).map set.code).reduceOption := by
    rw [List.reduceOption_mem_iff]
    exact List.mem_map.mpr ⟨p, List.mem_finRange p, hx⟩
  have hsplit : set.anyShred = ((List.finRange 32).map set.code).reduceOption.head? := by
    rw [anyShred, List.reduceOption_append, List.head?_append_of_ne_nil _ (List.ne_nil_of_mem hmem)]
  cases hh : ((List.finRange 32).map set.code).reduceOption with
  | nil =>
    rw [hh] at hmem
    contradiction
  | cons t rest =>
    rw [hsplit, hh]
    have ht : t ∈ ((List.finRange 32).map set.code).reduceOption := by
      rw [hh]
      exact List.mem_cons_self ..
    obtain ⟨q, _, hq⟩ := List.mem_map.mp (List.reduceOption_mem_iff.mp ht)
    exact ⟨q, t, rfl, hq⟩

/-- Recovered shreds have the layout of the received ones exactly when their shards say so. -/
theorem installsInLayout_iff [Hasher] {received : List Shred} (h : Reached received set)
    (hc : set.canRecover = true) {proofSize : ℕ} {resigned : Bool}
    (hall : ∀ x ∈ received, x.proofSize = proofSize ∧ x.resigned = resigned) (rs : ReedSolomon) :
    set.InstallsInLayout rs proofSize resigned ↔ set.ReconstructsVariant rs proofSize resigned := by
  obtain ⟨hcode, hnum⟩ := h.code
  have hpos : 0 < occupied set.code := by
    rw [← hnum]
    simp only [canRecover, Bool.and_eq_true, decide_eq_true_eq] at hc
    exact hc.1.2
  obtain ⟨q, template, ht, hq⟩ := anyShred_code hpos
  obtain ⟨hps, hres⟩ := hall template (hcode q template hq)
  constructor
  · rintro hin template' shards ht' hrec before p shard after hsplit hbefore ⟨y, hy⟩
    have hmem : (p, shard, false) ∈ reconstructed shards := by
      rw [hsplit]
      simp
    have hkeeps := rs.keeps _ _ hrec
    have hnone : set.data p = none := by
      have hflag := reconstructed_flag hkeeps hmem
      simpa using hflag.symm
    have hrun := recover_eq rs ht'
    rw [hrec] at hrun
    have hset := (installed_iff ht' hrec hrun hnone).mpr (mem_rebuildAll_iff.mpr ⟨before, shard, after, hsplit, hbefore, hy⟩)
    obtain ⟨h1, h2, _⟩ := hin _ _ p y hrun hnone hset
    exact (hasVariant_iff (rebuild_ok hy) (reconstructed_length hkeeps hmem)).mpr ⟨h1, h2⟩
  · intro hvar set' r p y hok hnone hy
    cases hrec : rs.reconstructData (set.shards template.erasureShard.length) with
    | none =>
      rw [recover_eq rs ht, hrec] at hok
      simp only [Except.ok.injEq, Prod.mk.injEq] at hok
      rw [← hok.1, hnone] at hy
      contradiction
    | some shards =>
      have hkeeps := rs.keeps _ _ hrec
      obtain ⟨before, shard, after, hsplit, hbefore, hre⟩ :=
        mem_rebuildAll_iff.mp ((installed_iff ht hrec hok hnone).mp hy)
      have hmem : (p, shard, false) ∈ reconstructed shards := by
        rw [hsplit]
        simp
      have hlen := reconstructed_length hkeeps hmem
      have hb := rebuild_ok hre
      obtain ⟨h1, h2⟩ := (hasVariant_iff hb hlen).mp (hvar template shards ht hrec before p shard after hsplit hbefore ⟨y, hre⟩)
      obtain ⟨hshard, hchain⟩ := Shred.parts_of_rebuilt hb hlen (h1.trans hps.symm) (h2.trans hres.symm)
      have hpre := Shred.data_prefix (y.position_data hb.position).1
      rw [hshard] at hpre
      exact ⟨h1, h2, template, shards, shard, ht, hrec, hmem, hpre, hchain⟩

end FecSet

/-! ### A recovered shred of another variant

Only data shred 0 of the set is missing. The reconstruction returns its shard with the
variant byte of a data shred without proof entries. -/

section
variable [Hasher]

/- The shard of data shred 0, its first byte 0x90. -/
def bareShard : Bytes := 0x90 :: (lineShard 9 (fun _ => 0) 0).drop 1

def bareCodeword : List Bytes := (lineCodeword 9 fun _ => 0).set 0 bareShard

/- All data shreds but the first, and a code shred. -/
def tailOrder : List Position := ((List.finRange 32).drop 1).map Position.data ++ [.code 0]

/- Data shred 0 of the set, were its variant byte 0x90. -/
def barePacket : DataPacket := { DataPacket.blank 9 0 flagDataComplete with size := 100 }

omit [Hasher] in
theorem barePacket_valid : barePacket.Valid false 1083 :=
  have h : (DataPacket.blank 9 0 flagDataComplete).Valid _ _ := DataPacket.blank_valid (by decide) (by decide) (.inr rfl)
  { h with
    kind := h.kind
    room := h.room
    body := h.body
    aligned := h.aligned
    inSet := h.inSet
    parent := h.parent
    flags := h.flags
    size := by
      show 88 ≤ 100 ∧ 100 ≤ 88 + 1083
      decide }

theorem rebuiltBytes_bare (hs : 9 < 2 ^ 64) :
    FecSet.rebuiltBytes ((lineSet 9 hs).data 0).signature ((lineSet 9 hs).code 0) bareShard = barePacket.packet := by
  have hD : (SetDraft.line 9 (fun _ => 0) 0).Valid :=
    SetDraft.line_valid hs (fun _ _ => Nat.two_pow_pos 16) (Nat.two_pow_pos 16)
  have hsig : ((lineSet 9 hs).data 0).signature = _ := SetDraft.sealedSet_signature hD (.data 0)
  have hchain : ((lineSet 9 hs).code 0).chainedMerkleRoot = _ := (SetDraft.sealedSet_parts hD (.code 0)).2.1
  have hret : ((lineSet 9 hs).code 0).retransmitterSignature = none :=
    SetDraft.sealedSet_retransmitterSignature hD (.code 0)
  have hps : ((lineSet 9 hs).code 0).proofSize = 6 := (SetDraft.sealedSet_fields hD (.code 0)).2.2.2.1
  have hsum : List.replicate 963 (0 : UInt8) ++ (List.replicate 32 0 ++ List.replicate 120 0) = List.replicate 1115 0 := by
    rw [List.replicate_append_replicate, List.replicate_append_replicate]
  rw [FecSet.rebuiltBytes, hsig, hchain, hret, hps]
  simp only [DataPacket.packet, DataPacket.tail, barePacket, DataPacket.blank, CommonHeader.bytes, SetDraft.line,
    bareShard, lineShard, Counting.line, Counting.draft, Counting.shard, List.append_assoc, List.cons_append,
    List.nil_append, List.drop_succ_cons, List.drop_zero, Option.elim, List.append_nil, hsum]

theorem bare_rebuild (hs : 9 < 2 ^ 64) : FecSet.rebuild ((lineSet 9 hs).data 0).signature ((lineSet 9 hs).code 0) 0
    bareShard = .ok (barePacket.shred barePacket_valid) := by
  have hD : (SetDraft.line 9 (fun _ => 0) 0).Valid :=
    SetDraft.line_valid hs (fun _ _ => Nat.two_pow_pos 16) (Nat.two_pow_pos 16)
  obtain ⟨hslot, hver, hset, _⟩ := SetDraft.sealedSet_fields hD (.code 0)
  have hkind : (barePacket.shred barePacket_valid).kind = .data := rfl
  obtain ⟨p, hp⟩ := Shred.exists_position_data _ hkind
  have hindex : (0 : ℕ) = 0 + (p : ℕ) := (Shred.position_data _ hp).2.1
  have hzero : p = 0 := Fin.ext (by simpa using hindex.symm)
  rw [hzero] at hp
  refine FecSet.rebuild_of_parse ⟨hp, hslot.symm, hset.symm, hver.symm, ?_⟩
  rw [rebuiltBytes_bare]
  exact barePacket.parse_packet barePacket_valid

omit [Hasher] in
theorem bareShard_length : bareShard.length = 987 := by
  rw [bareShard, List.length_cons, List.length_drop, lineShard, Counting.shard_length List.length_replicate]

theorem bare_reconstructs (hs : 9 < 2 ^ 64) {set : FecSet} {root : Hash32} {signature : Signature}
    (hI : FecSet.Inv 0 set) (hhold : (lineSet 9 hs).Holding root signature tailOrder.toFinset set) :
    ∃ out, (ReedSolomon.table bareCodeword).reconstructData (set.shards ((lineSet 9 hs).code 0).erasureShard.length) =
      some out ∧ out[0]? = some (bareShard, false) := by
  have hD : (SetDraft.line 9 (fun _ => 0) 0).Valid :=
    SetDraft.line_valid hs (fun _ _ => Nat.two_pow_pos 16) (Nat.two_pow_pos 16)
  have hlen : ∀ q, ((lineSet 9 hs).shred q).erasureShard.length = 987 := SetDraft.sealedSet_erasureShard_length hD
  have hword : (lineSet 9 hs).erasureShards = lineCodeword 9 fun _ => 0 := (lineSet_consistent hs).codeword
  have hcode : ((lineSet 9 hs).code 0).erasureShard.length = 987 := hlen (.code 0)
  have h0 : Position.data 0 ∉ tailOrder.toFinset := by decide
  have hcan := (hhold.canRecover_iff hI h0).mpr (by decide)
  rw [hcode]
  have hfirst : (set.shards 987)[0]? = some (List.replicate 987 0, false) := by
    have hget := set.shards_data 987 0
    rw [hhold.data, if_neg h0] at hget
    exact hget
  have hother : ∀ (i : ℕ) (b : Bytes), (set.shards 987)[i]? = some (b, true) → bareCodeword[i]? = some b := by
    intro i b hb
    have hi : i ≠ 0 := by
      rintro rfl
      rw [hfirst] at hb
      exact absurd (congrArg Prod.snd (Option.some.inj hb)) (by simp only [Bool.false_eq_true, not_false_eq_true])
    rw [bareCodeword, List.getElem?_set_ne hi.symm, ← hword]
    exact hhold.carries.shards_agree i b hb
  have hsame : ∀ s ∈ set.shards 987, ∀ c ∈ bareCodeword, s.1.length = c.length := by
    intro s hs' w hw
    have hw : w.length = 987 := by
      rcases List.mem_or_eq_of_mem_set hw with hw | rfl
      · rw [← hword] at hw
        obtain ⟨q, rfl⟩ := LeaderSet.mem_erasureShards.mp hw
        exact hlen q
      · exact bareShard_length
    rw [hw]
    rcases LeaderSet.shards_mem hs' with rfl | ⟨q, x, hq, rfl⟩
    · exact List.length_replicate
    · rw [hhold.carries q x hq]
      exact hlen q
  have hcount : 32 ≤ (set.shards 987).countP Prod.snd := by
    rw [LeaderSet.shards_count, ← hI.num_data, ← hI.num_code]
    simp only [FecSet.canRecover, Bool.and_eq_true, decide_eq_true_eq] at hcan
    exact hcan.2
  have h64 : bareCodeword.length = 64 := by
    rw [bareCodeword, List.length_set, lineCodeword_length]
  obtain ⟨out, hrec, htake⟩ := ReedSolomon.table_rebuilds h64 bareCodeword (set.shards 987) rfl (set.shards_length _)
    hother hsame hcount
  refine ⟨out, hrec, ?_⟩
  have hkeeps := (ReedSolomon.table bareCodeword).keeps _ _ hrec
  have hbare : bareCodeword[0]? = some bareShard := by
    rw [bareCodeword, List.getElem?_set_self (by rw [lineCodeword_length]; decide)]
  have hval := congrArg (fun l : List Bytes => l[0]?) htake
  have hflag := congrArg (fun l : List Bool => l[0]?) hkeeps.flags
  have hlt : 0 < 32 := by decide
  simp only [List.getElem?_take, hlt, if_true, List.getElem?_map, hbare, hfirst, Option.map_some] at hval hflag
  obtain ⟨o, hout, hshard⟩ := Option.map_eq_some_iff.mp hval
  rw [hout, Option.map_some, Option.some.injEq] at hflag
  rw [hout, ← hshard, ← hflag]

theorem bare_installed (hs : 9 < 2 ^ 64) {set : FecSet} {root : Hash32} (hI : FecSet.Inv 0 set)
    (hhold : (lineSet 9 hs).Holding root ((lineSet 9 hs).data 0).signature tailOrder.toFinset set) :
    ∃ set' r, set.recover (ReedSolomon.table bareCodeword) = .ok (set', r) ∧ set.data 0 = none ∧
      set'.data 0 = some (barePacket.shred barePacket_valid) := by
  have hnone : set.data 0 = none := by
    rw [hhold.data, if_neg (by decide)]
  have ht : set.anyShred = some ((lineSet 9 hs).code 0) := by
    apply anyShred_of_code_zero
    rw [hhold.code, if_pos (by decide)]
  have hsig : set.signature = ((lineSet 9 hs).data 0).signature := (hhold.known ⟨.code 0, by decide⟩).2
  obtain ⟨out, hrec, hout⟩ := bare_reconstructs hs hI hhold
  have hrun := FecSet.recover_eq (ReedSolomon.table bareCodeword) ht
  rw [hrec] at hrun
  refine ⟨_, _, hrun, hnone, ?_⟩
  rw [FecSet.installed_iff ht hrec hrun hnone, FecSet.mem_rebuildAll_iff]
  cases out with
  | nil => simp at hout
  | cons o out =>
    have hcons : List.finRange 32 = 0 :: (List.finRange 32).drop 1 := by decide
    have ho : o = (bareShard, false) := by simpa using hout
    rw [ho, hsig]
    exact ⟨[], bareShard, ((List.finRange 32).drop 1).zip out, by rw [FecSet.reconstructed, hcons]; rfl, by simp,
      bare_rebuild hs⟩

theorem tail_reached (hs : 9 < 2 ^ 64) : ∃ root set,
    FecSet.Reached (tailOrder.map (lineSet 9 hs).shred) set ∧ set.canRecover = true ∧ FecSet.Inv 0 set ∧
      (lineSet 9 hs).Holding root ((lineSet 9 hs).data 0).signature tailOrder.toFinset set := by
  have hnd : tailOrder.Nodup := by decide
  have h0 : Position.data 0 ∉ tailOrder.toFinset := by decide
  obtain ⟨root, hroot⟩ := (lineSet_consistent hs).sealed
  have harr := LeaderSet.arrived_insertAll hroot hnd
  have hhold := harr.waiting 0 h0
  exact ⟨root, _, LeaderSet.reached_insertAll hroot hnd (List.mem_toFinset.not.mp h0),
    (hhold.canRecover_iff harr.inv h0).mpr (by decide), harr.inv, hhold⟩

theorem tail_variant (hs : 9 < 2 ^ 64) (x : Shred) (hx : x ∈ tailOrder.map (lineSet 9 hs).shred) :
    x.proofSize = 6 ∧ x.resigned = false := by
  obtain ⟨q, _, rfl⟩ := List.mem_map.mp hx
  exact (SetDraft.sealedSet_fields _ q).2.2.2

omit [Hasher] in
/-- Every shred received has 6 proof entries, the recovered one none. -/
theorem bare_shred_recovered :
    let S := @lineSet sha256Hasher 9 (by decide)
    ∃ set, @FecSet.Reached sha256Hasher (tailOrder.map S.shred) set ∧ set.canRecover = true ∧
      (∀ x ∈ tailOrder.map S.shred, x.proofSize = 6 ∧ x.resigned = false) ∧
      ∃ set' r y, set.recover (ReedSolomon.table bareCodeword) = .ok (set', r) ∧ set.data 0 = none ∧
        set'.data 0 = some y ∧ y.proofSize = 0 := by
  intro S
  obtain ⟨root, set, hreached, hcan, hI, hhold⟩ := @tail_reached sha256Hasher (by decide)
  obtain ⟨set', r, hrun, hnone, hset⟩ := @bare_installed sha256Hasher (by decide) _ _ hI hhold
  have hbare : (barePacket.shred barePacket_valid).proofSize = 0 := by
    show ((0x90 : UInt8) &&& 0x0F).toNat = 0
    decide
  exact ⟨set, hreached, hcan, @tail_variant sha256Hasher (by decide), set', r, _, hrun, hnone, hset, hbare⟩

theorem tail_reconstructsVariant (hs : 9 < 2 ^ 64) {set : FecSet} {root : Hash32} (hI : FecSet.Inv 0 set)
    (hcan : set.canRecover = true)
    (hhold : (lineSet 9 hs).Holding root ((lineSet 9 hs).data 0).signature tailOrder.toFinset set) :
    set.ReconstructsVariant (ReedSolomon.table (lineCodeword 9 fun _ => 0)) 6 false := by
  intro template shards ht hrec before p shard after hsplit _ _
  have hS := lineSet_consistent hs
  have htemplate : set.anyShred = some ((lineSet 9 hs).code 0) := by
    apply anyShred_of_code_zero
    rw [hhold.code, if_pos (by decide)]
  obtain rfl : template = (lineSet 9 hs).code 0 := Option.some.inj (ht.symm.trans htemplate)
  obtain ⟨out, hrec', hshard⟩ := hhold.carries.reconstructs hI
    (ReedSolomon.table_rebuilds (lineCodeword_length ..)) hS.codeword hS.shard_length hcan (.code 0)
  obtain rfl : shards = out := Option.some.inj (hrec.symm.trans hrec')
  have hD : (SetDraft.line 9 (fun _ => 0) 0).Valid :=
    SetDraft.line_valid hs (fun _ _ => Nat.two_pow_pos 16) (Nat.two_pow_pos 16)
  have hmem : (p, shard, false) ∈ FecSet.reconstructed shards := by
    rw [hsplit]
    simp
  have hparts : ((lineSet 9 hs).data p).erasureShard = _ := (SetDraft.sealedSet_parts hD (.data p)).1
  rw [hshard p shard hmem, hparts]
  exact ⟨0x96, rfl, by decide, by decide⟩

omit [Hasher] in
/-- With a decoder that knows the codeword, the recovered shred has 6 proof entries too. -/
theorem tail_installsInLayout :
    let S := @lineSet sha256Hasher 9 (by decide)
    ∃ set, @FecSet.Reached sha256Hasher (tailOrder.map S.shred) set ∧
      set.InstallsInLayout (ReedSolomon.table (lineCodeword 9 fun _ => 0)) 6 false := by
  intro S
  obtain ⟨root, set, hreached, hcan, hI, hhold⟩ := @tail_reached sha256Hasher (by decide)
  exact ⟨set, hreached, (@FecSet.installsInLayout_iff _ sha256Hasher _ hreached hcan _ _
    (@tail_variant sha256Hasher (by decide)) _).mpr (@tail_reconstructsVariant sha256Hasher (by decide) _ _ hI hcan hhold)⟩

end
end Deshred
