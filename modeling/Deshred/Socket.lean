import Deshred.Lib.Projection
import Deshred.Pipeline

/-!
# Receiving (socket.rs)

`recv_batch` drains up to 64 datagrams into one buffer of as many packet slots and
hands out a slice of it for each. A datagram longer than a slot is cut to it.

`recvmmsg` is a system call. It is a parameter here, and what is documented of it is
stated about the datagrams that came in on the socket.
-/

namespace Deshred

def maxPacketSize : ℕ := 1232

namespace Socket

/- The kinds of `io::Error` that `recv_batch` tells apart. -/
inductive Error where
  | wouldBlock
  | timedOut
  | other
  deriving DecidableEq

/-- `recvmmsg` on the socket of the receiver. `S` is what is outside of the process; the
call gets the slices to fill and returns the length of each message, with the slices. -/
abbrev Recvmmsg (S : Type) := S → List Bytes → Except Error (List ℕ × List Bytes) × S

section
variable {S : Type}

/- The first `n` of `buf.chunks_mut(MAX_PACKET_SIZE)`. -/
def chunks : ℕ → Bytes → List Bytes
  | 0, _ => []
  | n + 1, buf => buf.take maxPacketSize :: chunks n (buf.drop maxPacketSize)

/- The lengths and the buffer; `none` where `lens[n]` would panic. -/
def recvInto (recvmmsg : Recvmmsg S) (s : S) (buf : Bytes) : Option (Except Error (List ℕ × Bytes)) × S :=
  match recvmmsg s (chunks Pipeline.batchSize buf) with
  | (.error e, s) => (some (.error e), s)
  | (.ok (lens, slices), s) =>
    (if lens.length ≤ Pipeline.batchSize then some (.ok (lens, slices.flatten)) else none, s)

/- `buf.split_to(MAX_PACKET_SIZE)`, then `packet.truncate(len)`, for every length;
`none` where `split_to` would panic. -/
def splitOff : List ℕ → Bytes → List Bytes → Option (List Bytes)
  | [], _, out => some out
  | len :: lens, buf, out =>
    if buf.length < maxPacketSize then none
    else splitOff lens (buf.drop maxPacketSize) (out ++ [(buf.take maxPacketSize).take len])

/-- Returns the number received, zero after a timeout, and the packets appended. -/
def recvBatch (recvmmsg : Recvmmsg S) (s : S) (out : List Bytes) : Option (Except Error ℕ × List Bytes) × S :=
  match recvInto recvmmsg s (List.replicate (Pipeline.batchSize * maxPacketSize) 0) with
  | (none, s) => (none, s)
  | (some (.error .wouldBlock), s) => (some (.ok 0, out), s)
  | (some (.error .timedOut), s) => (some (.ok 0, out), s)
  | (some (.error .other), s) => (some (.error .other, out), s)
  | (some (.ok (lens, buf)), s) => ((splitOff lens buf out).map fun out => (.ok lens.length, out), s)

/- A turn of the loop in `receive_loop`: an error is logged and the loop goes on. Before
the call `env` happens outside of the process. -/
def recvStep (recvmmsg : Recvmmsg S) (s : S) (env : S → S) : Except Unit (S × List Bytes) :=
  match recvBatch recvmmsg (env s) [] with
  | (none, _) => .error ()
  | (some (_, out), s) => .ok (s, out)

/-! ### What the system call promises -/

/-- Message after message is put into slice after slice, cut to the slice. -/
inductive Scattered : List Bytes → List Bytes → List ℕ → List Bytes → Prop where
  | done (slices filled : List Bytes) : Scattered [] slices [] filled
  | next {datagrams slices filled : List Bytes} {lens : List ℕ} (datagram slice slot : Bytes)
      (hsize : slot.length = slice.length)
      (hcut : slot.take (min datagram.length slice.length) = datagram.take slice.length)
      (h : Scattered datagrams slices lens filled) :
      Scattered (datagram :: datagrams) (slice :: slices) (min datagram.length slice.length :: lens) (slot :: filled)

variable {recvmmsg : Recvmmsg S} {arrived : S → List Bytes} {taken : S → ℕ} {s s' s'' : S}

/-- The datagrams that were taken from the socket between two states. -/
def takenSince (arrived : S → List Bytes) (taken : S → ℕ) (s s' : S) : List Bytes :=
  ((arrived s').take (taken s')).drop (taken s)

/-- The documented behaviour. `arrived` are the datagrams that came in on the socket, in
order; the first `taken` of them were handed to the process. -/
structure Documented (recvmmsg : Recvmmsg S) (arrived : S → List Bytes) (taken : S → ℕ) : Prop where
  bound : ∀ s, taken s ≤ (arrived s).length
  arrives : ∀ s slices, arrived s <+: arrived (recvmmsg s slices).2
  fails : ∀ s slices e, (recvmmsg s slices).1 = .error e → taken (recvmmsg s slices).2 = taken s
  takes : ∀ s slices lens filled, (recvmmsg s slices).1 = .ok (lens, filled) →
    taken (recvmmsg s slices).2 = taken s + lens.length ∧
      Scattered (takenSince arrived taken s (recvmmsg s slices).2) slices lens filled

/-- Outside of the calls datagrams come in, and none is taken. -/
def Untouched (arrived : S → List Bytes) (taken : S → ℕ) (env : S → S) : Prop :=
  ∀ s, arrived s <+: arrived (env s) ∧ taken (env s) = taken s

/-! ### One call -/

theorem chunks_spec (n : ℕ) {buf : Bytes} (h : n * maxPacketSize ≤ buf.length) :
    (chunks n buf).length = n ∧ ∀ slice ∈ chunks n buf, slice.length = maxPacketSize := by
  induction n generalizing buf with
  | zero => exact ⟨rfl, List.forall_mem_nil _⟩
  | succ n ih =>
    rw [Nat.succ_mul] at h
    have hrest : n * maxPacketSize ≤ (buf.drop maxPacketSize).length := by
      rw [List.length_drop]
      omega
    obtain ⟨hlen, hsizes⟩ := ih hrest
    refine ⟨congrArg (· + 1) hlen, ?_⟩
    intro slice hslice
    rcases List.mem_cons.mp hslice with rfl | hslice
    · rw [List.length_take]
      omega
    · exact hsizes slice hslice

theorem Scattered.count {datagrams slices filled : List Bytes} {lens : List ℕ} (h : Scattered datagrams slices lens filled) :
    lens.length ≤ slices.length := by
  induction h with
  | done slices filled => exact Nat.zero_le _
  | next datagram slice slot hsize hcut h ih => exact Nat.succ_le_succ ih

/-- Splitting the buffer where it was filled gives the datagrams back, each cut to a slot. -/
theorem Scattered.splitOff {datagrams slices filled : List Bytes} {lens : List ℕ}
    (h : Scattered datagrams slices lens filled) (hslices : ∀ slice ∈ slices, slice.length = maxPacketSize)
    (out : List Bytes) : Socket.splitOff lens filled.flatten out =
      some (out ++ datagrams.map fun datagram => datagram.take maxPacketSize) := by
  induction h generalizing out with
  | done slices filled => rw [List.map_nil, List.append_nil, Socket.splitOff]
  | @next datagrams slices filled lens datagram slice slot hsize hcut h ih =>
    have hslice := hslices slice (List.mem_cons_self ..)
    have hslot : slot.length = maxPacketSize := hsize.trans hslice
    have hroom : ¬ (slot ++ filled.flatten).length < maxPacketSize := by
      rw [List.length_append, hslot]
      omega
    rw [List.flatten_cons, Socket.splitOff, if_neg hroom, List.drop_left' hslot, List.take_left' hslot, hcut, hslice,
      ih (fun slice h => hslices slice (List.mem_cons_of_mem _ h)), List.map_cons, List.append_assoc, List.singleton_append]

/- The slices the system call gets. -/
def packetSlots : List Bytes := chunks Pipeline.batchSize (List.replicate (Pipeline.batchSize * maxPacketSize) 0)

theorem packetSlots_spec : packetSlots.length = Pipeline.batchSize ∧ ∀ slice ∈ packetSlots, slice.length = maxPacketSize :=
  chunks_spec _ (List.length_replicate ..).ge

theorem takenSince_same (h : taken s' = taken s) : takenSince arrived taken s s' = [] := by
  rw [takenSince, h]
  exact List.drop_eq_nil_of_le (List.length_take_le _ _)

/-- A call appends what it takes from the socket, each datagram cut to a slot. -/
theorem Documented.recvBatch (h : Documented recvmmsg arrived taken) (s : S) (out : List Bytes) :
    ∃ result s', Socket.recvBatch recvmmsg s out =
        (some (result, out ++ (takenSince arrived taken s s').map fun datagram => datagram.take maxPacketSize), s') ∧
      s' = (recvmmsg s packetSlots).2 ∧ taken s ≤ taken s' := by
  unfold Socket.recvBatch recvInto
  rw [show chunks Pipeline.batchSize (List.replicate (Pipeline.batchSize * maxPacketSize) 0) = packetSlots from rfl]
  cases hcall : recvmmsg s packetSlots with
  | mk answer s' =>
    cases answer with
    | error e =>
      have hsame := h.fails s packetSlots e (by rw [hcall])
      rw [hcall] at hsame
      have hnone : takenSince arrived taken s s' = [] := takenSince_same hsame
      cases e with
      | _ => exact ⟨_, s', by rw [hnone, List.map_nil, List.append_nil], rfl, hsame.ge⟩
    | ok answer =>
      obtain ⟨lens, filled⟩ := answer
      obtain ⟨htaken, hscattered⟩ := h.takes s packetSlots lens filled (by rw [hcall])
      rw [hcall] at htaken hscattered
      obtain ⟨hcount, hsizes⟩ := packetSlots_spec
      have hfits : lens.length ≤ Pipeline.batchSize := hscattered.count.trans_eq hcount
      have hsplit := hscattered.splitOff hsizes out
      refine ⟨.ok lens.length, s', ?_, rfl, by dsimp only at htaken; omega⟩
      dsimp only
      rw [if_pos hfits]
      dsimp only
      rw [hsplit]
      rfl

theorem takenSince_trans (htaken : taken s ≤ taken s') (htaken' : taken s' ≤ taken s'')
    (hbound : taken s' ≤ (arrived s').length) (harrived : arrived s' <+: arrived s'') :
    takenSince arrived taken s s'' = takenSince arrived taken s s' ++ takenSince arrived taken s' s'' := by
  have hfront : (arrived s').take (taken s') = (arrived s'').take (taken s') := by
    obtain ⟨more, hmore⟩ := harrived
    rw [← hmore, List.take_append_of_le_length hbound]
  have hsplit : (arrived s'').take (taken s'') =
      (arrived s'').take (taken s') ++ ((arrived s'').take (taken s'')).drop (taken s') := by
    conv_lhs => rw [← List.take_append_drop (taken s') ((arrived s'').take (taken s''))]
    rw [List.take_take, min_eq_left htaken']
  have hlen : taken s ≤ ((arrived s'').take (taken s')).length := by
    have hle := harrived.length_le
    rw [List.length_take]
    omega
  rw [takenSince, takenSince, takenSince, hfront, ← List.drop_append_of_le_length hlen, ← hsplit]

theorem Documented.recvStep_state (h : Documented recvmmsg arrived taken) {env : S → S} {out : List Bytes}
    (hstep : recvStep recvmmsg s env = .ok (s', out)) : s' = (recvmmsg (env s) packetSlots).2 := by
  obtain ⟨result, s₁, hcall, hs₁, _⟩ := h.recvBatch (env s) []
  simp only [recvStep, hcall] at hstep
  cases hstep
  exact hs₁

/-- Any number of calls hand out what they take from the socket, in the order in which it
came in, and none of them panics. -/
theorem Documented.recvAll (h : Documented recvmmsg arrived taken) {envs : List (S → S)}
    (henvs : ∀ env ∈ envs, Untouched arrived taken env) (s : S) :
    ∃ s', Steps.runAll (recvStep recvmmsg) s envs =
        .ok (s', (takenSince arrived taken s s').map fun datagram => datagram.take maxPacketSize) ∧
      arrived s <+: arrived s' ∧ taken s ≤ taken s' := by
  induction envs generalizing s with
  | nil => exact ⟨s, by rw [takenSince_same rfl]; rfl, List.prefix_refl _, le_rfl⟩
  | cons env envs ih =>
    obtain ⟨hin, hleft⟩ := henvs env (List.mem_cons_self ..) s
    obtain ⟨result, s₁, hcall, hs₁, htaken⟩ := h.recvBatch (env s) []
    obtain ⟨s', hrun, harrived, htaken'⟩ := ih (fun env henv => henvs env (List.mem_cons_of_mem _ henv)) s₁
    have harrived₁ : arrived (env s) <+: arrived s₁ := hs₁ ▸ h.arrives (env s) packetSlots
    have hsince : takenSince arrived taken s s₁ = takenSince arrived taken (env s) s₁ := by
      rw [takenSince, takenSince, hleft]
    have hstep : recvStep recvmmsg s env =
        .ok (s₁, (takenSince arrived taken s s₁).map fun datagram => datagram.take maxPacketSize) := by
      simp only [recvStep, hcall, List.nil_append, hsince]
    refine ⟨s', Steps.runAll_cons_ok.mpr ⟨_, _, _, hstep, hrun, ?_⟩, hin.trans (harrived₁.trans harrived), by omega⟩
    rw [takenSince_trans (by omega) htaken' (h.bound s₁) harrived, List.map_append]

end

end Socket

/-! ### The cut -/

theorem wireSize_le (kind : ShredKind) : wireSize kind ≤ 1228 := by
  cases kind with
  | data => decide
  | code => decide

/-- Nothing after the longest shred is read. -/
theorem parseFields_take {n : ℕ} (hn : 1228 ≤ n) (packet : Bytes) : parseFields (packet.take n) = parseFields packet := by
  by_cases hlen : packet.length ≤ n
  · rw [List.take_of_length_le hlen]
  · have hvariant : (packet.take n)[variantOffset]? = packet[variantOffset]? :=
      List.getElem?_take_of_lt (lt_of_lt_of_le (by decide : variantOffset < 1228) hn)
    unfold parseFields
    rw [hvariant]
    split
    · rename_i hnone
      have hlt : variantOffset < packet.length := lt_of_lt_of_le (by decide : variantOffset < 1228) (by omega)
      rw [List.getElem?_eq_getElem hlt] at hnone
      contradiction
    · split
      · rfl
      · rename_i kind resigned _
        have hwire := wireSize_le kind
        have hshort : ¬ (packet.take n).length < wireSize kind := by
          rw [List.length_take]
          omega
        have hlong : ¬ packet.length < wireSize kind := by omega
        have htake : (packet.take n).take (wireSize kind) = packet.take (wireSize kind) := by
          rw [List.take_take]
          congr 1
          omega
        simp only [if_neg hshort, if_neg hlong, htake]

namespace Shred

theorem parse_congr {a b : Bytes} (h : parseFields a = parseFields b) : parse a = parse b := by
  cases ha : parse a with
  | ok s => exact (parse_eq_ok_iff.mpr (h.symm.trans (parse_eq_ok_iff.mp ha))).symm
  | error e =>
    cases hb : parse b with
    | ok s =>
      rw [parse_eq_ok_iff.mpr (h.trans (parse_eq_ok_iff.mp hb))] at ha
      contradiction
    | error e' =>
      unfold parse at ha hb
      split at ha
      · rename_i ea
        split at hb
        · rename_i eb
          rw [h, eb] at ea
          simp only [Except.error.injEq] at ea ha hb
          rw [← ha, ← hb, ea]
        · contradiction
      · contradiction

theorem parse_take {n : ℕ} (hn : 1228 ≤ n) (packet : Bytes) : parse (packet.take n) = parse packet :=
  parse_congr (parseFields_take hn packet)

end Shred

namespace Deshredder
variable [Hasher]

theorem pushRaw_take {n : ℕ} (hn : 1228 ≤ n) (d : Deshredder) (packet : Bytes) :
    d.pushRaw (packet.take n) = d.pushRaw packet := by
  unfold pushRaw
  rw [Shred.parse_take hn]

theorem pushAll_take {n : ℕ} (hn : 1228 ≤ n) (d : Deshredder) (packets : List Bytes) :
    d.pushAll (packets.map fun packet => packet.take n) = d.pushAll packets := by
  rw [pushAll, Steps.runAll_map, pushAll]
  congr 1
  funext d packet
  exact pushRaw_take hn d packet

variable {S : Type} {recvmmsg : Socket.Recvmmsg S} {arrived : S → List Bytes} {taken : S → ℕ}

/-- The receive path is transparent: a Deshredder fed what any sequence of `recv_batch`
calls hands out does what it would do with the datagrams as they came in, in their order. -/
theorem received_as_sent (h : Socket.Documented recvmmsg arrived taken) (d : Deshredder) (s : S) (envs : List (S → S))
    (henvs : ∀ env ∈ envs, Socket.Untouched arrived taken env) :
    ∃ s' out, Steps.runAll (Socket.recvStep recvmmsg) s envs = .ok (s', out) ∧ arrived s <+: arrived s' ∧
      taken s ≤ taken s' ∧ taken s' ≤ (arrived s').length ∧
      out = (Socket.takenSince arrived taken s s').map (fun datagram => datagram.take maxPacketSize) ∧
      (∀ packet ∈ out, packet.length ≤ maxPacketSize) ∧
      d.pushAll out = d.pushAll (Socket.takenSince arrived taken s s') := by
  obtain ⟨s', hrun, harrived, htaken⟩ := h.recvAll henvs s
  refine ⟨s', _, hrun, harrived, htaken, h.bound s', rfl, ?_, pushAll_take (by decide) d _⟩
  intro packet hpacket
  obtain ⟨datagram, _, rfl⟩ := List.mem_map.mp hpacket
  rw [List.length_take]
  exact min_le_left _ _

end Deshredder

/-! ### A sample socket -/

namespace Socket

/- A queue that nothing is lost from. -/
structure Queue where
  arrived : List Bytes
  taken : ℕ
  bound : taken ≤ arrived.length

namespace Queue

def arrive (datagrams : List Bytes) (q : Queue) : Queue where
  arrived := q.arrived ++ datagrams
  taken := q.taken
  bound := q.bound.trans (by rw [List.length_append]; exact Nat.le_add_right ..)

/- Datagram after datagram at the front of a slice. -/
def scatter : List Bytes → List Bytes → List ℕ × List Bytes
  | datagram :: datagrams, slice :: slices =>
    let (lens, filled) := scatter datagrams slices
    (min datagram.length slice.length :: lens, (datagram.take slice.length ++ slice.drop datagram.length) :: filled)
  | _, slices => ([], slices)

def recvmmsg : Recvmmsg Queue := fun q slices =>
  let n := min slices.length (q.arrived.length - q.taken)
  if n = 0 then (.error .timedOut, q)
  else (.ok (scatter ((q.arrived.drop q.taken).take n) slices), ⟨q.arrived, q.taken + n, by have := q.bound; omega⟩)

theorem scatter_scattered {datagrams slices : List Bytes} (h : datagrams.length ≤ slices.length) :
    (scatter datagrams slices).1.length = datagrams.length ∧
      Scattered datagrams slices (scatter datagrams slices).1 (scatter datagrams slices).2 := by
  induction datagrams generalizing slices with
  | nil =>
    cases slices with
    | nil => exact ⟨rfl, .done [] []⟩
    | cons slice slices => exact ⟨rfl, .done _ _⟩
  | cons datagram datagrams ih =>
    cases slices with
    | nil => contradiction
    | cons slice slices =>
      obtain ⟨hlen, hscattered⟩ := ih (Nat.le_of_succ_le_succ h)
      have hcut : (datagram.take slice.length).length = min datagram.length slice.length := by
        rw [List.length_take, min_comm]
      refine ⟨congrArg (· + 1) hlen, .next datagram slice _ ?_ ?_ hscattered⟩
      · rw [List.length_append, hcut, List.length_drop]
        omega
      · exact List.take_left' hcut

/-- It takes as many datagrams as are left and as there are slices. -/
theorem recvmmsg_state (q : Queue) (slices : List Bytes) : (recvmmsg q slices).2.arrived = q.arrived ∧
    (recvmmsg q slices).2.taken = q.taken + min slices.length (q.arrived.length - q.taken) := by
  unfold recvmmsg
  dsimp only
  split
  · rename_i hn
    exact ⟨rfl, by rw [hn]; rfl⟩
  · exact ⟨rfl, rfl⟩

theorem recvmmsg_ok {q : Queue} {slices filled : List Bytes} {lens : List ℕ}
    (h : (recvmmsg q slices).1 = .ok (lens, filled)) :
    scatter ((q.arrived.drop q.taken).take (min slices.length (q.arrived.length - q.taken))) slices = (lens, filled) := by
  unfold recvmmsg at h
  dsimp only at h
  split at h
  · contradiction
  · exact Except.ok.inj h

theorem documented : Documented recvmmsg arrived taken where
  bound q := q.bound
  arrives q slices := (recvmmsg_state q slices).1 ▸ List.prefix_refl _
  fails q slices e h := by
    unfold recvmmsg at h ⊢
    dsimp only at h ⊢
    split
    · rfl
    · rename_i hn
      rw [if_neg hn] at h
      contradiction
  takes q slices lens filled h := by
    obtain ⟨harrived, htaken⟩ := recvmmsg_state q slices
    have hfilled := recvmmsg_ok h
    rw [takenSince, harrived, htaken, List.drop_take, Nat.add_sub_cancel_left]
    have hlen : ((q.arrived.drop q.taken).take (min slices.length (q.arrived.length - q.taken))).length =
        min slices.length (q.arrived.length - q.taken) := by
      rw [List.length_take, List.length_drop]
      omega
    obtain ⟨hcount, hscattered⟩ := scatter_scattered (hlen.trans_le (min_le_left _ _))
    rw [hfilled] at hcount hscattered
    exact ⟨by rw [hcount, hlen], hscattered⟩

theorem untouched (datagrams : List Bytes) : Untouched arrived taken (arrive datagrams) := fun _ =>
  ⟨List.prefix_append _ _, rfl⟩

end Queue

end Socket

namespace Deshredder

/-- A datagram that is too long, a shred and an empty datagram in one call, and a call
that times out. -/
theorem received_as_sent_three :
    let datagrams := [List.replicate 1300 1, blankPacket 7 0, []]
    ∃ s' out, Steps.runAll (Socket.recvStep Socket.Queue.recvmmsg) ⟨[], 0, le_rfl⟩
        [Socket.Queue.arrive datagrams, Socket.Queue.arrive []] = .ok (s', out) ∧
      out = datagrams.map (fun datagram => datagram.take maxPacketSize) ∧
      @pushAll sha256Hasher (new ⟨none, 64, true⟩ ReedSolomon.failing) out =
        @pushAll sha256Hasher (new ⟨none, 64, true⟩ ReedSolomon.failing) datagrams := by
  intro datagrams
  obtain ⟨s', out, hrun, _, _, _, hout, _, hsame⟩ := @received_as_sent sha256Hasher _ _ _ _ Socket.Queue.documented
    (new ⟨none, 64, true⟩ ReedSolomon.failing) ⟨[], 0, le_rfl⟩ [Socket.Queue.arrive datagrams, Socket.Queue.arrive []] (by
      intro env henv
      simp only [List.mem_cons, List.not_mem_nil, or_false] at henv
      rcases henv with rfl | rfl
      · exact Socket.Queue.untouched _
      · exact Socket.Queue.untouched _)
  obtain ⟨s₁, _, _, hstep₁, hrest, _⟩ := Steps.runAll_cons_ok.mp hrun
  have hs₁ := Socket.Queue.documented.recvStep_state hstep₁
  have hs' := Socket.Queue.documented.recvStep_state (Steps.runAll_singleton_ok.mp hrest)
  obtain ⟨harrived₁, htaken₁⟩ := Socket.Queue.recvmmsg_state (.arrive datagrams ⟨[], 0, le_rfl⟩) Socket.packetSlots
  obtain ⟨harrived', htaken'⟩ := Socket.Queue.recvmmsg_state (.arrive [] s₁) Socket.packetSlots
  rw [← hs₁] at harrived₁ htaken₁
  rw [← hs'] at harrived' htaken'
  rw [Socket.packetSlots_spec.1] at htaken₁ htaken'
  have harrived : s'.arrived = datagrams :=
    harrived'.trans ((List.append_nil s₁.arrived).trans (harrived₁.trans (List.nil_append datagrams)))
  have hone : s₁.taken = 3 := htaken₁
  have htaken : s'.taken = 3 := by
    rw [htaken']
    show s₁.taken + min 64 ((s₁.arrived ++ []).length - s₁.taken) = 3
    rw [harrived₁, hone]
    rfl
  have hsince : Socket.takenSince Socket.Queue.arrived Socket.Queue.taken ⟨[], 0, le_rfl⟩ s' = datagrams := by
    rw [Socket.takenSince, harrived, htaken]
    rfl
  rw [hsince] at hout hsame
  exact ⟨s', out, hrun, hout, hsame⟩

end Deshredder
end Deshred
