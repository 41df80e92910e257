import Deshred.SlotRuns
import Deshred.Window
import Deshred.Wire

/-!
# Which datagrams can panic the worker

The set index of a data shred is bounded by its index. Nothing bounds that of a code
shred, and the first thing a slot does with a code shred is to count the bits of its
set.
-/

namespace Deshred

namespace Deshredder
variable [Hasher] {d : Deshredder}

/-- A call panics on a code shred past the last set of a slot, and on nothing else. -/
theorem returns_iff_set_in_range :
    (∀ stats inputs s out, SlotState.insertAll stats inputs = .ok (s, out) → ∀ x rs stats',
      ((∃ r, s.1.insert x rs stats' = .ok r) ↔ (x.kind = .code → x.fecSetIndex ≤ 32736))) ∧
    ∀ config rs packets d out, (new config rs).pushAll packets = .ok (d, out) → ∀ packet,
      ((∃ r, d.pushRaw packet = .ok r) ↔
        ∀ x, Admitted d packet x → x.kind = .code → x.fecSetIndex ≤ 32736) :=
  ⟨fun _ _ _ _ h x rs stats' => SlotState.insert_ok_iff (SlotState.insertAll_inv h) x rs stats',
    fun _ _ _ _ _ h packet => pushRaw_ok_iff (slotsInv_of_pushAll h) packet⟩

omit [Hasher] in
/-- After one shred of slot 7, a code shred of the last set there is. -/
theorem last_set_returns : ∃ d out r,
    @pushAll sha256Hasher (new ⟨none, 64, true⟩ ReedSolomon.failing) [blankPacket 7 0] = .ok (d, out) ∧
      @pushRaw sha256Hasher d (CodePacket.blank 7 32736).packet = .ok r := by
  obtain ⟨x, hx, hk, _⟩ := parse_blankPacket (show 7 < 2 ^ 64 by decide) (.inl rfl)
  obtain ⟨d, out, hd⟩ := @pushAll_data_returns sha256Hasher ⟨none, 64, true⟩ ReedSolomon.failing
    [blankPacket 7 0] (by simpa using ⟨x, hx, hk⟩)
  have hvalid := @CodePacket.blank_valid 7 32736 (by decide) (by decide) (by decide)
  have hparse := CodePacket.parse_packet _ hvalid
  obtain ⟨r, hr⟩ := ((@returns_iff_set_in_range sha256Hasher).2 _ _ _ d out hd
    (CodePacket.blank 7 32736).packet).mpr (by
      intro y hy _
      rw [Except.ok.inj (hy.parsed.symm.trans hparse)]
      show 32736 ≤ 32736
      exact le_rfl)
  exact ⟨d, out, r, hd, hr⟩

theorem pushRaw_panics {config : Config} {rs : ReedSolomon} {packet : Bytes} {x : Shred}
    (hp : Shred.parse packet = .ok x) (hv : config.shredVersion = none) (hk : x.kind = .code)
    (hx : 32736 < x.fecSetIndex) : (new config rs).pushRaw packet = .error .countOnesOutOfRange := by
  have hadm : Admitted (new config rs) packet x :=
    ⟨hp, by simp [wrongVersion, new, hv], by simp [isStale, new]⟩
  rw [pushRaw_admitted hadm, SlotState.insert_panics hk hx]

omit [Hasher] in
theorem set_index_32768_panics :
    (∃ x, Shred.parse (CodePacket.blank 1 32768).packet = .ok x) ∧
      @pushRaw sha256Hasher (new ⟨none, 64, true⟩ ReedSolomon.failing) (CodePacket.blank 1 32768).packet =
        .error .countOnesOutOfRange := by
  have hvalid := @CodePacket.blank_valid 1 32768 (by decide) (by decide) (by decide)
  have hparse := CodePacket.parse_packet _ hvalid
  have hset : 32736 < ((CodePacket.blank 1 32768).shred hvalid).fecSetIndex := by
    show 32736 < 32768
    decide
  exact ⟨⟨_, hparse⟩, @pushRaw_panics sha256Hasher _ _ _ _ hparse rfl rfl hset⟩

end Deshredder
end Deshred
