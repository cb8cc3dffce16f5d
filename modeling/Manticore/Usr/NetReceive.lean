import Manticore.Base.Run
import Manticore.Usr.NetUdp

/-!
# What a socket receives

A socket's buffer holds the last datagram that `udp_input` gave it.  The length field of the UDP
header was compared with the packet before, but neither with the size of the header nor with the
total length of the IP header: for a field below 8 the length of the data wraps around, and
`udp_recvfrom` returns whatever the caller's `len` asks for.  The UDP header is read at offset 20,
whatever the IP header says of its own length.
-/

namespace Manticore

/-- The length field of a datagram, where `udp_recvfrom` reads it. -/
def udpLength (bs : List UInt8) : ℕ := beNat (fieldAt bs (sizeofIphdr + 4) 2)

/-- `ihl` of the IP header, in bytes. -/
def ipHeaderLength (bs : List UInt8) : ℕ := 4 * (leNat (fieldAt bs 0 1) % 16)

/-- `tot_len` of the IP header. -/
def ipTotalLength (bs : List UInt8) : ℕ := beNat (fieldAt bs 2 2)

/-- **The payload of a packet**, as its headers give it: behind an IP header of `ihl` words and the
UDP header, as far as the lengths in both headers reach. -/
def udpPayload (bs : List UInt8) : List UInt8 :=
  let udph := ipHeaderLength bs
  (bs.take (min (ipTotalLength bs) (udph + beNat (fieldAt bs (udph + 4) 2)))).drop
    (udph + sizeofUdphdr)

/-- The datagram, if it is for that socket. -/
def datagramFor (idx : ℕ) : ProtocolInput → Option (List UInt8)
  | .datagram i bs => if i = idx then some bs else none
  | .arp _ => none

/-- The last datagram that was given to a socket. -/
def lastDatagram (idx : ℕ) (inputs : List ProtocolInput) : Option (List UInt8) :=
  inputs.reverse.findSome? (datagramFor idx)

/-- **Only received payload is copied**: the call fails, or copies as much of the payload as it
says. -/
def ReceivesPayload (sk : Socket) (bs : List UInt8) (len addrlen : ℕ) : Prop :=
  match udpRecvfrom sk len addrlen with
  | .error _ => False
  | .ok none => True
  | .ok (some r) => r.nr ≤ len ∧ r.nr ≤ (udpPayload bs).length ∧ r.data = (udpPayload bs).take r.nr

/-! ## Runs of the stack -/

/-- What happens to the stack. -/
inductive NetEvent where
  | packet (bs : List UInt8)
  | bind (idx port : ℕ)
  | send (localPort : ℕ) (payload : List UInt8) (destIp destPort addrlen : ℕ)

def netStep (cfg : NetConfig) (st : NetState) : NetEvent → Except NetFault NetState
  | .packet bs => (netInput cfg st bs).map Prod.snd
  | .bind idx port => .ok (socketBind st idx port)
  | .send localPort payload destIp destPort addrlen =>
      (udpSendto cfg st localPort payload destIp destPort addrlen).map Prod.snd

/-- The state after the events, if no fault ended the program. -/
def netRun (cfg : NetConfig) (events : List NetEvent) : Except NetFault NetState :=
  events.foldlM (netStep cfg) NetState.start

/-- A datagram that `udp_input` has accepted. -/
structure AcceptedDatagram (bs : List UInt8) : Prop where
  header : sizeofIphdr + 6 ≤ bs.length
  buffer : bs.length ≤ rxBufferSize
  length : sizeofIphdr + udpLength bs ≤ bs.length

/-- Every buffer has its size and starts with the last datagram it was given. -/
structure BuffersHold (st : NetState) : Prop where
  size : ∀ sk ∈ st.sockets, sk.rxBuffer.length = rxBufferSize
  last : ∀ idx sk bs, st.sockets[idx]? = some sk → lastDatagram idx st.inputs = some bs →
    AcceptedDatagram bs ∧ bs <+: sk.rxBuffer

variable {cfg : NetConfig} {st st' : NetState} {bs rest : List UInt8} {b : Bool}

/-! ## One step -/

/-- What a step does to the sockets and the record of inputs: nothing, an ARP message is recorded, or
an accepted datagram is delivered. -/
inductive Delivers (st st' : NetState) : Prop
  | same (hsockets : st'.sockets = st.sockets) (hinputs : st'.inputs = st.inputs)
  | arp (bs : List UInt8) (hsockets : st'.sockets = st.sockets)
      (hinputs : st'.inputs = st.inputs ++ [.arp bs])
  | datagram (idx : ℕ) (bs : List UInt8) (haccepted : AcceptedDatagram bs)
      (heq : st' = delivered st idx bs)

theorem delivers_udpInput (h : udpInput st bs = .ok (st', rest)) : Delivers st st' := by
  have hfits := UdpFits.of_ok h
  obtain ⟨idx, hidx⟩ := Option.isSome_iff_exists.mp
    ((socketLookup_isSome st.sockets _).mpr hfits.bound)
  rw [udpInput_of_lookup hfits.header hidx hfits.buffer hfits.length] at h
  exact .datagram idx bs ⟨hfits.header, hfits.buffer, hfits.length⟩
    (congrArg Prod.fst (Except.ok.inj h)).symm

theorem delivers_arpInput (h : arpInput cfg st bs = .ok st') : Delivers st st' := by
  obtain ⟨op, -, h⟩ := exists_of_bind_eq_ok h
  dsimp only at h
  split at h
  · obtain ⟨sip, -, h⟩ := exists_of_bind_eq_ok h
    obtain ⟨smac, -, h⟩ := exists_of_bind_eq_ok h
    obtain ⟨cache, -, h⟩ := exists_of_bind_eq_ok h
    obtain rfl := Except.ok.inj h
    exact .arp bs rfl rfl
  · obtain rfl := Except.ok.inj h
    exact .arp bs rfl rfl

theorem delivers_netInputOne (h : netInputOne cfg st bs = .ok (b, st', rest)) :
    Delivers st st' := by
  unfold netInputOne at h
  split at h
  · obtain rfl := congrArg (·.2.1) (Except.ok.inj h)
    exact .same rfl rfl
  · dsimp only at h
    split at h
    · unfold ipInput at h
      split at h
      · obtain rfl := congrArg (·.2.1) (Except.ok.inj h)
        exact .same rfl rfl
      · obtain ⟨⟨st₁, bs₁⟩, hudp, h⟩ := exists_of_bind_eq_ok h
        obtain rfl := congrArg (·.2.1) (Except.ok.inj h)
        exact delivers_udpInput hudp
    · split at h
      · obtain ⟨st₁, harp, h⟩ := exists_of_bind_eq_ok h
        obtain rfl := congrArg (·.2.1) (Except.ok.inj h)
        exact delivers_arpInput harp
      · obtain rfl := congrArg (·.2.1) (Except.ok.inj h)
        exact .same rfl rfl

theorem udpSendto_sockets_inputs {localPort destIp destPort addrlen : ℕ} {payload : List UInt8} {ret : ℤ}
    (h : udpSendto cfg st localPort payload destIp destPort addrlen = .ok (ret, st')) :
    st'.sockets = st.sockets ∧ st'.inputs = st.inputs := by
  unfold udpSendto at h
  split at h
  · obtain rfl := congrArg Prod.snd (Except.ok.inj h)
    exact ⟨rfl, rfl⟩
  · split at h
    · cases h
    · obtain ⟨_, -, h⟩ := exists_of_bind_eq_ok h
      obtain ⟨_, -, h⟩ := exists_of_bind_eq_ok h
      obtain ⟨_, -, h⟩ := exists_of_bind_eq_ok h
      obtain ⟨_, -, h⟩ := exists_of_bind_eq_ok h
      obtain rfl := congrArg Prod.snd (Except.ok.inj h)
      exact ⟨rfl, rfl⟩

/-! ## The buffers hold what was delivered -/

theorem exists_of_delivered {idx i : ℕ} {sk : Socket}
    (hsk : (delivered st idx bs).sockets[i]? = some sk) :
    ∃ sk₀, st.sockets[i]? = some sk₀ ∧ sk = if i = idx
      then { sk₀ with rxBuffer := bs ++ sk₀.rxBuffer.drop bs.length } else sk₀ := by
  rw [delivered, List.getElem?_modify] at hsk
  obtain ⟨sk₀, hsk₀, rfl⟩ := Option.map_eq_some_iff.mp hsk
  refine ⟨sk₀, hsk₀, ?_⟩
  by_cases hi : i = idx
  · rw [if_pos hi, if_pos hi.symm]
  · rw [if_neg hi, if_neg (Ne.symm hi)]

theorem lastDatagram_concat (idx : ℕ) (inputs : List ProtocolInput) (input : ProtocolInput) :
    lastDatagram idx (inputs ++ [input]) = (datagramFor idx input).or (lastDatagram idx inputs) := by
  unfold lastDatagram
  rw [List.reverse_concat, List.findSome?_cons]
  cases datagramFor idx input <;> rfl

namespace BuffersHold

theorem start : BuffersHold NetState.start where
  size sk hsk := by
    rw [(List.mem_replicate.mp hsk).2]
    exact List.length_replicate
  last _ _ _ _ hlast := nomatch hlast

theorem delivers (h : BuffersHold st) (hstep : Delivers st st') : BuffersHold st' := by
  cases hstep with
  | same hsockets hinputs => exact ⟨hsockets ▸ h.size, hsockets ▸ hinputs ▸ h.last⟩
  | arp bs hsockets hinputs =>
      refine ⟨hsockets ▸ h.size, fun idx sk bs' hsk hlast => h.last idx sk bs' (hsockets ▸ hsk) ?_⟩
      rwa [hinputs, lastDatagram_concat] at hlast
  | datagram idx bs haccepted heq =>
      subst heq
      have hlen := haccepted.buffer
      constructor
      · intro sk hsk
        obtain ⟨i, hi⟩ := List.mem_iff_getElem?.mp hsk
        obtain ⟨sk₀, hsk₀, rfl⟩ := exists_of_delivered hi
        have hsize := h.size sk₀ (List.mem_of_getElem? hsk₀)
        split
        · rw [List.length_append, List.length_drop]
          omega
        · exact hsize
      · intro i sk bs' hsk hlast
        obtain ⟨sk₀, hsk₀, rfl⟩ := exists_of_delivered hsk
        rw [delivered, lastDatagram_concat] at hlast
        by_cases hi : i = idx
        · have hfor : datagramFor i (.datagram idx bs) = some bs := if_pos hi.symm
          rw [hfor] at hlast
          obtain rfl := Option.some.inj hlast
          rw [if_pos hi]
          exact ⟨haccepted, List.prefix_append _ _⟩
        · have hfor : datagramFor i (.datagram idx bs) = none := if_neg (Ne.symm hi)
          rw [hfor] at hlast
          rw [if_neg hi]
          exact h.last i sk₀ bs' hsk₀ hlast

theorem netInputLoop {fuel : ℕ} (h : BuffersHold st)
    (hrun : netInputLoop cfg fuel st bs = .ok (b, st')) : BuffersHold st' := by
  induction fuel generalizing st bs b with
  | zero =>
      have heq : Manticore.netInputLoop cfg 0 st bs = .ok (false, st) := by cases bs <;> rfl
      rw [heq] at hrun
      obtain rfl : st = st' := congrArg Prod.snd (Except.ok.inj hrun)
      exact h
  | succ fuel ih =>
      cases bs with
      | nil =>
          obtain rfl : st = st' := congrArg Prod.snd (Except.ok.inj hrun)
          exact h
      | cons c bs =>
          obtain ⟨⟨one, st₁, rest⟩, hone, hrun⟩ := exists_of_bind_eq_ok hrun
          obtain ⟨⟨ret, st₂⟩, hloop, hrun⟩ := exists_of_bind_eq_ok hrun
          obtain rfl := congrArg Prod.snd (Except.ok.inj hrun)
          exact ih (h.delivers (delivers_netInputOne hone)) hloop

theorem bind (h : BuffersHold st) (idx port : ℕ) : BuffersHold (socketBind st idx port) := by
  have hget (i : ℕ) (sk : Socket) (hsk : (socketBind st idx port).sockets[i]? = some sk) :
      ∃ sk₀, st.sockets[i]? = some sk₀ ∧ sk.rxBuffer = sk₀.rxBuffer := by
    rw [socketBind, List.getElem?_modify] at hsk
    obtain ⟨sk₀, hsk₀, rfl⟩ := Option.map_eq_some_iff.mp hsk
    refine ⟨sk₀, hsk₀, ?_⟩
    split <;> rfl
  constructor
  · intro sk hsk
    obtain ⟨i, hi⟩ := List.mem_iff_getElem?.mp hsk
    obtain ⟨sk₀, hsk₀, hrx⟩ := hget i sk hi
    rw [hrx]
    exact h.size sk₀ (List.mem_of_getElem? hsk₀)
  · intro i sk bs hsk hlast
    obtain ⟨sk₀, hsk₀, hrx⟩ := hget i sk hsk
    rw [hrx]
    exact h.last i sk₀ bs hsk₀ hlast

theorem step (h : BuffersHold st) {event : NetEvent} (hstep : netStep cfg st event = .ok st') :
    BuffersHold st' := by
  cases event with
  | packet bs =>
      obtain ⟨⟨ret, st₁⟩, hrun, rfl⟩ := exists_of_map_eq_ok hstep
      exact h.netInputLoop hrun
  | bind idx port => exact Except.ok.inj hstep ▸ h.bind idx port
  | send =>
      obtain ⟨⟨ret, st₁⟩, hsend, rfl⟩ := exists_of_map_eq_ok hstep
      obtain ⟨hsockets, hinputs⟩ := udpSendto_sockets_inputs hsend
      exact h.delivers (.same hsockets hinputs)

theorem run (h : BuffersHold st) {events : List NetEvent}
    (hrun : events.foldlM (netStep cfg) st = .ok st') : BuffersHold st' := by
  induction events generalizing st with
  | nil => exact Except.ok.inj hrun ▸ h
  | cons event events ih =>
      rw [List.foldlM_cons] at hrun
      obtain ⟨st₁, hstep, hrun⟩ := exists_of_bind_eq_ok hrun
      exact ih (h.step hstep) hrun

end BuffersHold

/-! ## Receiving -/

theorem fieldAt_of_isInitial {bs buf : List UInt8} {o n : ℕ} (h : bs <+: buf)
    (hn : o + n ≤ bs.length) : fieldAt buf o n = fieldAt bs o n := by
  obtain ⟨tail, rfl⟩ := h
  rw [fieldAt, fieldAt, List.drop_append_of_le_length (by omega),
    List.take_append_of_le_length (by rw [List.length_drop]; omega)]

theorem udpPayload_eq (hihl : ipHeaderLength bs = sizeofIphdr) :
    udpPayload bs = (bs.drop (sizeofIphdr + sizeofUdphdr)).take
      (min (ipTotalLength bs) (sizeofIphdr + udpLength bs) - (sizeofIphdr + sizeofUdphdr)) := by
  simp only [udpPayload, hihl, udpLength]
  rw [List.drop_take]

theorem length_udpPayload (hihl : ipHeaderLength bs = sizeofIphdr) (h : AcceptedDatagram bs) :
    (udpPayload bs).length =
      min (ipTotalLength bs) (sizeofIphdr + udpLength bs) - (sizeofIphdr + sizeofUdphdr) := by
  have hlength := h.length
  rw [udpPayload_eq hihl, List.length_take, List.length_drop]
  omega

theorem receivesPayload_of_addrlen (sk : Socket) (bs : List UInt8) (len : ℕ) {addrlen nr : ℕ}
    (haddr : ¬ addrlen < sizeofSockaddrIn)
    (hnr : nr = min (sub64 (udpLength sk.rxBuffer) sizeofUdphdr) len) :
    ReceivesPayload sk bs len addrlen ↔
      sizeofIphdr + sizeofUdphdr + nr ≤ sk.rxBuffer.length ∧ nr ≤ len ∧
        nr ≤ (udpPayload bs).length ∧
        fieldAt sk.rxBuffer (sizeofIphdr + sizeofUdphdr) nr = (udpPayload bs).take nr := by
  unfold udpLength at hnr
  by_cases hinside : sizeofIphdr + sizeofUdphdr + nr ≤ sk.rxBuffer.length
  · have hread : readAt sk.rxBuffer (sizeofIphdr + sizeofUdphdr) nr =
        .ok (fieldAt sk.rxBuffer (sizeofIphdr + sizeofUdphdr) nr) := if_pos hinside
    have hrecv : udpRecvfrom sk len addrlen = .ok (some ⟨nr,
        fieldAt sk.rxBuffer (sizeofIphdr + sizeofUdphdr) nr, leNat (fieldAt sk.rxBuffer 12 4),
        leNat (fieldAt sk.rxBuffer sizeofIphdr 2), sizeofSockaddrIn⟩) := by
      unfold udpRecvfrom
      rw [if_neg haddr, ← hnr]
      dsimp only
      rw [hread]
      rfl
    unfold ReceivesPayload
    rw [hrecv, and_iff_right hinside]
  · have hread : readAt sk.rxBuffer (sizeofIphdr + sizeofUdphdr) nr = .error .readOutside :=
      if_neg hinside
    have hrecv : udpRecvfrom sk len addrlen = .error .readOutside := by
      unfold udpRecvfrom
      rw [if_neg haddr, ← hnr]
      dsimp only
      rw [hread]
      rfl
    unfold ReceivesPayload
    rw [hrecv]
    exact iff_of_false id fun h => hinside h.1

/-- No byte is asked for, or the IP header has no options, the UDP length has room for the header,
and the bytes that are asked for are within the total length. -/
def PayloadFits (bs : List UInt8) (len : ℕ) : Prop :=
  len = 0 ∨ udpLength bs = sizeofUdphdr ∨
    ipHeaderLength bs = sizeofIphdr ∧ sizeofUdphdr ≤ udpLength bs ∧
      sizeofIphdr + sizeofUdphdr + min (udpLength bs - sizeofUdphdr) len ≤ ipTotalLength bs

section Receiving

variable {sk : Socket}

theorem sub64_udpLength (haccepted : AcceptedDatagram bs) (hlow : sizeofUdphdr ≤ udpLength bs) :
    sub64 (udpLength bs) sizeofUdphdr = udpLength bs - sizeofUdphdr := by
  have hlength := haccepted.length
  have hbuffer := haccepted.buffer
  rw [rxBufferSize] at hbuffer
  exact sub64_of_le hlow (by omega)

theorem sub64_udpLength_pos (haccepted : AcceptedDatagram bs)
    (hne : udpLength bs ≠ sizeofUdphdr) : 0 < sub64 (udpLength bs) sizeofUdphdr := by
  have hlength := haccepted.length
  have hbuffer := haccepted.buffer
  unfold sub64
  simp only [sizeofUdphdr, rxBufferSize] at hne hbuffer ⊢
  omega

theorem receivesPayload_of_fits (hsize : sk.rxBuffer.length = rxBufferSize)
    (haccepted : AcceptedDatagram bs) (hpre : bs <+: sk.rxBuffer) {len addrlen : ℕ}
    (haddr : ¬ addrlen < sizeofSockaddrIn)
    (hfield : udpLength sk.rxBuffer = udpLength bs) (hfits : PayloadFits bs len) :
    ReceivesPayload sk bs len addrlen := by
  have hzero (hnr : min (sub64 (udpLength bs) sizeofUdphdr) len = 0) :
      ReceivesPayload sk bs len addrlen := by
    rw [receivesPayload_of_addrlen sk bs len haddr rfl, hfield, hsize, hnr]
    exact ⟨by decide, Nat.zero_le _, Nat.zero_le _, rfl⟩
  rcases hfits with rfl | height | ⟨hihl, hlow, htotal⟩
  · exact hzero (Nat.min_zero _)
  · refine hzero ?_
    rw [sub64_udpLength haccepted height.ge, height, Nat.sub_self, Nat.zero_min]
  · rw [receivesPayload_of_addrlen sk bs len haddr rfl, hfield, hsize,
      sub64_udpLength haccepted hlow]
    generalize hnr : min (udpLength bs - sizeofUdphdr) len = nr at htotal ⊢
    have hle : nr ≤ udpLength bs - sizeofUdphdr := hnr ▸ Nat.min_le_left _ _
    have hlength := haccepted.length
    have hinside : sizeofIphdr + sizeofUdphdr + nr ≤ bs.length := by omega
    have hpayload : nr ≤ (udpPayload bs).length := by
      rw [length_udpPayload hihl haccepted]
      omega
    refine ⟨hinside.trans haccepted.buffer, hnr ▸ Nat.min_le_right _ _, hpayload, ?_⟩
    rw [length_udpPayload hihl haccepted] at hpayload
    rw [fieldAt_of_isInitial hpre hinside, udpPayload_eq hihl, fieldAt, List.take_take,
      Nat.min_eq_left hpayload]

theorem fits_of_receivesPayload (haccepted : AcceptedDatagram bs) {len addrlen : ℕ}
    (haddr : ¬ addrlen < sizeofSockaddrIn) (hfield : udpLength sk.rxBuffer = udpLength bs)
    (hihl : ipHeaderLength bs = sizeofIphdr) (h : ReceivesPayload sk bs len addrlen) :
    PayloadFits bs len := by
  rw [receivesPayload_of_addrlen sk bs len haddr rfl, hfield, length_udpPayload hihl haccepted] at h
  obtain ⟨-, -, hle, -⟩ := h
  by_cases hzero : len = 0
  · exact .inl hzero
  by_cases height : udpLength bs = sizeofUdphdr
  · exact .inr (.inl height)
  have hpos := sub64_udpLength_pos haccepted height
  have hlow : sizeofUdphdr ≤ udpLength bs := by omega
  rw [sub64_udpLength haccepted hlow] at hle
  exact .inr (.inr ⟨hihl, hlow, by omega⟩)

end Receiving

/-- **What a socket receives after any run**: of the datagram that was the last it was given, only
payload, if the payload is where the call looks for it.  For a header without options that is also
necessary; with options the bytes at the fixed offset can be those of the payload by chance only. -/
theorem udpRecvfrom_receives_payload_iff {events : List NetEvent}
    (hrun : netRun cfg events = .ok st) {idx : ℕ} {sk : Socket}
    (hsk : st.sockets[idx]? = some sk) (hlast : lastDatagram idx st.inputs = some bs)
    (len addrlen : ℕ) :
    (addrlen < sizeofSockaddrIn ∨ PayloadFits bs len → ReceivesPayload sk bs len addrlen) ∧
      (ipHeaderLength bs = sizeofIphdr → ReceivesPayload sk bs len addrlen →
        addrlen < sizeofSockaddrIn ∨ PayloadFits bs len) := by
  have h := BuffersHold.start.run hrun
  obtain ⟨haccepted, hpre⟩ := h.last idx sk bs hsk hlast
  have hheader := haccepted.header
  have hfield : udpLength sk.rxBuffer = udpLength bs := by
    rw [udpLength, fieldAt_of_isInitial hpre (by omega), udpLength]
  by_cases haddr : addrlen < sizeofSockaddrIn
  · have hfails : udpRecvfrom sk len addrlen = .ok none := if_pos haddr
    unfold ReceivesPayload
    rw [hfails]
    exact ⟨fun _ => trivial, fun _ _ => .inl haddr⟩
  · refine ⟨fun hcond => ?_, fun hihl hreceives => .inr ?_⟩
    · exact receivesPayload_of_fits (h.size sk (List.mem_of_getElem? hsk)) haccepted hpre haddr hfield
        (hcond.resolve_left haddr)
    · exact fits_of_receivesPayload haccepted haddr hfield hihl hreceives

/-- A datagram for port 7 with the length field `len` in its UDP header, and the payload `hi`. -/
def datagramBytes (len : UInt8) : List UInt8 :=
  [0x45, 0, 0, 30, 0, 0, 0, 0, 64, 17, 0, 0, 10, 0, 0, 2, 10, 0, 0, 1] ++
    [0, 9, 0, 7, 0, len, 0, 0] ++ [104, 105]

/-- Socket 0 is bound to port 7, and the datagram comes in. -/
def datagramRun (len : UInt8) : List NetEvent :=
  [.bind 0 0x0700, .packet ([2, 0, 0, 0, 0, 1, 2, 0, 0, 0, 0, 2, 8, 0] ++ datagramBytes len)]

/-- What two calls of `udp_recvfrom` on socket 0 return, and the last datagram of the socket. -/
def twoCalls (events : List NetEvent) (len len' : ℕ) : Option (Option (List UInt8) ×
    Option (Option (Option Received) × Option (Option Received))) :=
  (netRun ⟨[2, 0, 0, 0, 0, 1], 0x0100000a⟩ events).toOption.map fun st =>
    (lastDatagram 0 st.inputs, (st.sockets[0]?).map fun sk =>
      ((udpRecvfrom sk len sizeofSockaddrIn).toOption,
        (udpRecvfrom sk len' sizeofSockaddrIn).toOption))

theorem exists_of_twoCalls {events : List NetEvent} {len len' : ℕ}
    {r r' : Option (Option Received)}
    (h : twoCalls events len len' = some (some bs, some (r, r'))) : ∃ st sk,
      netRun ⟨[2, 0, 0, 0, 0, 1], 0x0100000a⟩ events = .ok st ∧ st.sockets[0]? = some sk ∧
        lastDatagram 0 st.inputs = some bs ∧
        (udpRecvfrom sk len sizeofSockaddrIn).toOption = r ∧
        (udpRecvfrom sk len' sizeofSockaddrIn).toOption = r' := by
  unfold twoCalls at h
  cases hrun : netRun ⟨[2, 0, 0, 0, 0, 1], 0x0100000a⟩ events with
  | error f =>
      rw [hrun] at h
      cases h
  | ok st =>
      rw [hrun] at h
      obtain ⟨hlast, hcalls⟩ := some_pair_inj h
      obtain ⟨sk, hsk, hr⟩ := Option.map_eq_some_iff.mp hcalls
      obtain ⟨hr, hr'⟩ := Prod.mk.inj hr
      exact ⟨st, sk, rfl, hsk, hlast, hr, hr'⟩

theorem udpRecvfrom_receives_payload_two : ∃ st sk,
    netRun ⟨[2, 0, 0, 0, 0, 1], 0x0100000a⟩ (datagramRun 10) = .ok st ∧
      st.sockets[0]? = some sk ∧ lastDatagram 0 st.inputs = some (datagramBytes 10) ∧
      ReceivesPayload sk (datagramBytes 10) 20 sizeofSockaddrIn := by
  have h : twoCalls (datagramRun 10) 0 20 = some (some (datagramBytes 10),
      some (some (some ⟨0, [], 0x0200000a, 0x0900, 12⟩),
        some (some ⟨2, [104, 105], 0x0200000a, 0x0900, 12⟩))) := by decide +kernel
  obtain ⟨st, sk, hrun, hsk, hlast, -, -⟩ := exists_of_twoCalls h
  have hfits : PayloadFits (datagramBytes 10) 20 := by
    have hlength : udpLength (datagramBytes 10) = 10 := by decide
    have htotal : ipTotalLength (datagramBytes 10) = 30 := by decide
    refine Or.inr (Or.inr ⟨by decide, by decide, ?_⟩)
    rw [hlength, htotal]
    decide
  -- the call is not to be evaluated here
  generalize 20 = len at hfits ⊢
  generalize sizeofSockaddrIn = addrlen
  exact ⟨st, sk, hrun, hsk, hlast,
    (udpRecvfrom_receives_payload_iff hrun hsk hlast len addrlen).1 (.inr hfits)⟩

/-- A datagram with 7 in its length field has no payload; two bytes of it are returned, and a call
with a large `len` leaves the buffer. -/
theorem udpRecvfrom_short_length : udpPayload (datagramBytes 7) = [] ∧ ∃ st sk,
    netRun ⟨[2, 0, 0, 0, 0, 1], 0x0100000a⟩ (datagramRun 7) = .ok st ∧
      st.sockets[0]? = some sk ∧ lastDatagram 0 st.inputs = some (datagramBytes 7) ∧
      (udpRecvfrom sk 2 sizeofSockaddrIn).toOption =
        some (some ⟨2, [104, 105], 0x0200000a, 0x0900, 12⟩) ∧
      (udpRecvfrom sk 2000 sizeofSockaddrIn).toOption = none := by
  have h : twoCalls (datagramRun 7) 2 2000 = some (some (datagramBytes 7),
      some (some (some ⟨2, [104, 105], 0x0200000a, 0x0900, 12⟩), none)) := by decide +kernel
  exact ⟨by decide, exists_of_twoCalls h⟩

end Manticore
