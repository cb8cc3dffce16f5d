import Manticore.Usr.Net

/-!
# Packets of any content

What one round of `net_input` does with a frame, and from it what the loop does: when the
stack survives a packet, and when it looks at one frame only.
-/

namespace Manticore

/-! ## One frame -/

def NetState.ports (st : NetState) : List ℕ := st.sockets.map Socket.localPort

/-- A datagram `udp_input` can handle: the fields it reads are there, some socket has the
port, the packet fits the buffer and the length field fits the packet. -/
structure UdpFits (ports : List ℕ) (bs : List UInt8) : Prop where
  header : sizeofIphdr + 6 ≤ bs.length
  bound : leNat (fieldAt bs (sizeofIphdr + 2) 2) ∈ ports.take maxSockets
  buffer : bs.length ≤ rxBufferSize
  length : sizeofIphdr + beNat (fieldAt bs (sizeofIphdr + 4) 2) ≤ bs.length

/-- The sender of an ARP request. -/
def arpSender (bs : List UInt8) : ℕ := leNat (fieldAt bs (sizeofArphdr + ethAlen) 4)

def arpIsRequest (bs : List UInt8) : Bool := beNat (fieldAt bs 6 2) == arpopRequest

/-- An ARP message `arp_input` can handle; a request needs an entry of the cache. -/
structure ArpFits (cache : List ArpCacheEntry) (bs : List UInt8) : Prop where
  header : sizeofArphdr ≤ bs.length
  sender : arpIsRequest bs = true → sizeofArphdr + ethAlen + 4 ≤ bs.length
  entry : arpIsRequest bs = true →
    (findEntry cache (arpSender bs) (arpHash (arpSender bs))).isSome ∨
      (findEntry cache 0 (arpHash (arpSender bs))).isSome

/-- The frames of a packet that the stack tells apart. -/
inductive FrameKind where
  | ignored
  | dropped
  | udp
  | arp
deriving DecidableEq, Repr

def frameKind (bs : List UInt8) : FrameKind :=
  if bs.length < sizeofEthhdr then .ignored
  else if ethProto bs = ethPIp then
    if ipDropped (bs.drop sizeofEthhdr) then .dropped else .udp
  else if ethProto bs = ethPArp then .arp
  else .ignored

/-- What is left of the packet after one round. -/
def frameRest (bs : List UInt8) : List UInt8 :=
  let body := bs.drop sizeofEthhdr
  match frameKind bs with
  | .ignored => []
  | .dropped => body
  | .udp => body.drop (sizeofIphdr + beNat (fieldAt body (sizeofIphdr + 4) 2))
  | .arp => body

/-- A frame the stack survives. -/
def FrameOk (ports : List ℕ) (cache : List ArpCacheEntry) (bs : List UInt8) : Prop :=
  match frameKind bs with
  | .ignored => True
  | .dropped => True
  | .udp => UdpFits ports (bs.drop sizeofEthhdr)
  | .arp => ArpFits cache (bs.drop sizeofEthhdr)

/-- The cache after an ARP message. -/
def arpCacheAfter (cache : List ArpCacheEntry) (bs : List UInt8) : List ArpCacheEntry :=
  if arpIsRequest bs = true then
    match arpCacheInsert cache (arpSender bs) (fieldAt bs sizeofArphdr ethAlen) with
    | .ok cache => cache
    | .error _ => cache
  else cache

/-- The ARP cache after a frame. -/
def cacheAfter (cache : List ArpCacheEntry) (bs : List UInt8) : List ArpCacheEntry :=
  if frameKind bs = .arp then arpCacheAfter cache (bs.drop sizeofEthhdr) else cache

/-- No protocol gets to see the frame. -/
def SilentFrame (bs : List UInt8) : Prop := frameKind bs = .ignored ∨ frameKind bs = .dropped

variable {cfg : NetConfig} {st st' st₁ : NetState} {bs rest : List UInt8} {b : Bool}
  {ports : List ℕ} {cache : List ArpCacheEntry}

theorem length_frameRest_lt (h : bs ≠ []) : (frameRest bs).length < bs.length := by
  have hpos := List.length_pos_iff.mpr h
  unfold frameRest
  rcases hkind : frameKind bs with _ | _ | _ | _ <;>
    simp only [List.length_nil, List.length_drop, sizeofEthhdr] <;> omega

/-! ## The handlers -/

/-- The result of one round, for a frame that the stack survives. -/
structure FrameDone (st st' : NetState) (bs : List UInt8) : Prop where
  ports : st'.ports = st.ports
  cache : st'.arpCache = cacheAfter st.arpCache bs
  silent : SilentFrame bs → st' = st
  input : ¬ SilentFrame bs → st'.inputs.length = st.inputs.length + 1

theorem socketLookup_isSome (sockets : List Socket) (port : ℕ) :
    (socketLookupByFlow sockets port).isSome ↔
      port ∈ (sockets.map Socket.localPort).take maxSockets := by
  rw [socketLookupByFlow, List.findIdx?_isSome, ← List.map_take]
  simp only [List.any_eq_true, List.mem_map, beq_iff_eq]

theorem ports_modify (sockets : List Socket) (idx : ℕ) (f : List UInt8 → List UInt8) :
    ((sockets.modify idx fun sk => { sk with rxBuffer := f sk.rxBuffer }).map Socket.localPort) =
      sockets.map Socket.localPort := by
  induction sockets generalizing idx with
  | nil => simp
  | cons sk sks ih =>
      cases idx with
      | zero => rfl
      | succ idx => rw [List.modify_succ_cons, List.map_cons, List.map_cons, ih]

/-- The state after a datagram has reached its socket. -/
def delivered (st : NetState) (idx : ℕ) (bs : List UInt8) : NetState :=
  { st with
    sockets := st.sockets.modify idx fun sk =>
      { sk with rxBuffer := bs ++ sk.rxBuffer.drop bs.length }
    inputs := st.inputs ++ [.datagram idx bs] }

theorem udpInput_of_lookup {idx : ℕ} (hheader : sizeofIphdr + 6 ≤ bs.length)
    (hidx : socketLookupByFlow st.sockets (leNat (fieldAt bs (sizeofIphdr + 2) 2)) = some idx)
    (hbuffer : bs.length ≤ rxBufferSize)
    (hlength : sizeofIphdr + beNat (fieldAt bs (sizeofIphdr + 4) 2) ≤ bs.length) :
    udpInput st bs = .ok (delivered st idx bs,
      bs.drop (sizeofIphdr + beNat (fieldAt bs (sizeofIphdr + 4) 2))) := by
  simp only [udpInput, readAt]
  rw [if_pos (by omega), if_pos (by omega), if_pos (by omega)]
  simp only [bind, Except.bind, hidx, socketInput, if_neg (not_lt.mpr hbuffer), packetViewTrim,
    if_pos hlength]
  rfl

theorem udpInput_ok (h : UdpFits st.ports bs) : ∃ st', udpInput st bs =
    .ok (st', bs.drop (sizeofIphdr + beNat (fieldAt bs (sizeofIphdr + 4) 2))) ∧
    st'.ports = st.ports ∧ st'.arpCache = st.arpCache ∧
      st'.inputs.length = st.inputs.length + 1 := by
  obtain ⟨idx, hidx⟩ := Option.isSome_iff_exists.mp
    ((socketLookup_isSome st.sockets _).mpr h.bound)
  refine ⟨delivered st idx bs, udpInput_of_lookup h.header hidx h.buffer h.length, ?_, rfl, ?_⟩
  · exact ports_modify st.sockets idx fun rx => bs ++ rx.drop bs.length
  · simp [delivered]

theorem udpInput_error (h : ¬ UdpFits st.ports bs) : ∃ f, udpInput st bs = .error f := by
  by_cases hheader : sizeofIphdr + 6 ≤ bs.length
  · simp only [udpInput, readAt]
    rw [if_pos (by omega), if_pos (by omega), if_pos (by omega)]
    simp only [bind, Except.bind]
    rcases hidx : socketLookupByFlow st.sockets (leNat (fieldAt bs (sizeofIphdr + 2) 2)) with _ | idx
    · exact ⟨.assertion, rfl⟩
    · by_cases hbuffer : bs.length ≤ rxBufferSize
      · by_cases hlength : sizeofIphdr + beNat (fieldAt bs (sizeofIphdr + 4) 2) ≤ bs.length
        · exact absurd ⟨hheader, (socketLookup_isSome _ _).mp (by rw [hidx]; rfl), hbuffer,
            hlength⟩ h
        · simp only [socketInput, if_neg (not_lt.mpr hbuffer), packetViewTrim, if_neg hlength]
          exact ⟨.assertion, rfl⟩
      · simp only [socketInput, if_pos (not_le.mp hbuffer)]
        exact ⟨.writeOutside, rfl⟩
  · simp only [udpInput, readAt]
    rw [if_neg (by omega)]
    exact ⟨.readOutside, rfl⟩

theorem UdpFits.of_ok {r : NetState × List UInt8} (h : udpInput st bs = .ok r) :
    UdpFits st.ports bs := by
  by_contra hnot
  obtain ⟨f, herror⟩ := udpInput_error hnot
  rw [herror] at h
  cases h

theorem arpCacheInsert_cases (cache : List ArpCacheEntry) (ip : ℕ) (mac : List UInt8) :
    (((findEntry cache ip (arpHash ip)).isSome ∨ (findEntry cache 0 (arpHash ip)).isSome) ∧
      ∃ cache', arpCacheInsert cache ip mac = .ok cache') ∨
    (¬ ((findEntry cache ip (arpHash ip)).isSome ∨ (findEntry cache 0 (arpHash ip)).isSome) ∧
      arpCacheInsert cache ip mac = .error .nullEntry) := by
  unfold arpCacheInsert
  rcases findEntry cache ip (arpHash ip) with _ | idx
  · rcases findEntry cache 0 (arpHash ip) with _ | idx
    · simp
    · simp
  · simp

theorem arpInput_ok (cfg : NetConfig) (h : ArpFits st.arpCache bs) :
    ∃ st', arpInput cfg st bs = .ok st' ∧ st'.ports = st.ports ∧
      st'.arpCache = arpCacheAfter st.arpCache bs ∧
      st'.inputs.length = st.inputs.length + 1 := by
  have hheader := h.header
  simp only [sizeofArphdr] at hheader
  simp only [arpInput, readAt]
  rw [if_pos (by omega)]
  simp only [bind, Except.bind]
  by_cases hreq : arpIsRequest bs = true
  · have hop : beNat (fieldAt bs 6 2) = arpopRequest := beq_iff_eq.mp hreq
    have hsender := h.sender hreq
    rcases arpCacheInsert_cases st.arpCache (arpSender bs) (fieldAt bs sizeofArphdr ethAlen) with
      ⟨-, cache', hins⟩ | ⟨hno, -⟩
    · simp only [if_pos hop, arpReply, readAt, bind, Except.bind]
      rw [if_pos (by omega), if_pos (by omega)]
      simp only [arpSender] at hins
      simp only [hins]
      refine ⟨_, rfl, rfl, ?_, by simp⟩
      simp only [arpCacheAfter, if_pos hreq, arpSender, hins]
    · exact absurd (h.entry hreq) hno
  · have hop : ¬ beNat (fieldAt bs 6 2) = arpopRequest := fun hc => hreq (beq_iff_eq.mpr hc)
    rw [if_neg hop]
    refine ⟨_, rfl, rfl, ?_, by simp⟩
    rw [arpCacheAfter, if_neg hreq]

theorem arpInput_error (cfg : NetConfig) (h : ¬ ArpFits st.arpCache bs) :
    ∃ f, arpInput cfg st bs = .error f := by
  by_cases hheader : sizeofArphdr ≤ bs.length
  · simp only [sizeofArphdr] at hheader
    simp only [arpInput, readAt]
    rw [if_pos (by omega)]
    simp only [bind, Except.bind]
    by_cases hreq : arpIsRequest bs = true
    · have hop : beNat (fieldAt bs 6 2) = arpopRequest := beq_iff_eq.mp hreq
      simp only [if_pos hop, arpReply, readAt, bind, Except.bind]
      by_cases hsender : sizeofArphdr + ethAlen + 4 ≤ bs.length
      · rw [if_pos hsender, if_pos (by omega)]
        rcases arpCacheInsert_cases st.arpCache (arpSender bs) (fieldAt bs sizeofArphdr ethAlen) with
          ⟨hentry, -⟩ | ⟨-, hins⟩
        · exact absurd ⟨hheader, fun _ => hsender, fun _ => hentry⟩ h
        · simp only [arpSender] at hins
          simp only [hins]
          exact ⟨.nullEntry, rfl⟩
      · rw [if_neg hsender]
        exact ⟨.readOutside, rfl⟩
    · exact absurd ⟨hheader, fun hc => absurd hc hreq, fun hc => absurd hc hreq⟩ h
  · simp only [sizeofArphdr] at hheader
    simp only [arpInput, readAt]
    rw [if_neg (by omega)]
    exact ⟨.readOutside, rfl⟩

theorem netInputOne_ok (cfg : NetConfig) (h : FrameOk st.ports st.arpCache bs) :
    ∃ b st', netInputOne cfg st bs = .ok (b, st', frameRest bs) ∧ FrameDone st st' bs := by
  by_cases hshort : bs.length < sizeofEthhdr
  · have hkind : frameKind bs = .ignored := if_pos hshort
    refine ⟨false, st, ?_, rfl, ?_, fun _ => rfl, fun hs => absurd (Or.inl hkind) hs⟩
    · rw [netInputOne, if_pos hshort, frameRest, hkind]
    · rw [cacheAfter, hkind, if_neg (by decide)]
  rw [netInputOne, if_neg hshort]
  by_cases hip : ethProto bs = ethPIp
  · simp only [if_pos hip, ipInput]
    by_cases hdrop : ipDropped (bs.drop sizeofEthhdr) = true
    · have hkind : frameKind bs = .dropped := by
        rw [frameKind, if_neg hshort, if_pos hip, if_pos hdrop]
      refine ⟨false, st, ?_, rfl, ?_, fun _ => rfl, fun hs => absurd (Or.inr hkind) hs⟩
      · rw [if_pos hdrop, frameRest, hkind]
      · rw [cacheAfter, hkind, if_neg (by decide)]
    · have hkind : frameKind bs = .udp := by
        rw [frameKind, if_neg hshort, if_pos hip, if_neg hdrop]
      rw [FrameOk, hkind] at h
      obtain ⟨st', heq, hports, hcache, hinputs⟩ := udpInput_ok h
      refine ⟨true, st', ?_, hports, ?_, ?_, fun _ => hinputs⟩
      · rw [if_neg hdrop, heq, frameRest, hkind]
        rfl
      · rw [hcache, cacheAfter, hkind, if_neg (by decide)]
      · rintro (hs | hs) <;> rw [hkind] at hs <;> cases hs
  · simp only [if_neg hip]
    by_cases harp : ethProto bs = ethPArp
    · have hkind : frameKind bs = .arp := by
        rw [frameKind, if_neg hshort, if_neg hip, if_pos harp]
      rw [FrameOk, hkind] at h
      obtain ⟨st', heq, hports, hcache, hinputs⟩ := arpInput_ok cfg h
      refine ⟨false, st', ?_, hports, ?_, ?_, fun _ => hinputs⟩
      · rw [if_pos harp, heq, frameRest, hkind]
        rfl
      · rw [hcache, cacheAfter, hkind, if_pos rfl]
      · rintro (hs | hs) <;> rw [hkind] at hs <;> cases hs
    · have hkind : frameKind bs = .ignored := by
        rw [frameKind, if_neg hshort, if_neg hip, if_neg harp]
      refine ⟨false, st, ?_, rfl, ?_, fun _ => rfl, fun hs => absurd (Or.inl hkind) hs⟩
      · rw [if_neg harp, frameRest, hkind]
      · rw [cacheAfter, hkind, if_neg (by decide)]

theorem netInputOne_error (cfg : NetConfig) (h : ¬ FrameOk st.ports st.arpCache bs) :
    ∃ f, netInputOne cfg st bs = .error f := by
  rcases hkind : frameKind bs with _ | _ | _ | _
  · exact absurd (by rw [FrameOk, hkind]; trivial) h
  · exact absurd (by rw [FrameOk, hkind]; trivial) h
  · rw [FrameOk, hkind] at h
    obtain ⟨f, hf⟩ := udpInput_error h
    unfold frameKind at hkind
    split_ifs at hkind with hshort hip hdrop
    refine ⟨f, ?_⟩
    rw [netInputOne, if_neg hshort]
    simp only [if_pos hip, ipInput, if_neg hdrop, hf]
    rfl
  · rw [FrameOk, hkind] at h
    obtain ⟨f, hf⟩ := arpInput_error cfg h
    unfold frameKind at hkind
    split_ifs at hkind with hshort hip hdrop harp
    refine ⟨f, ?_⟩
    rw [netInputOne, if_neg hshort]
    simp only [if_neg hip, if_pos harp, hf]
    rfl

/-! ## The loop -/

/-- Packets that the stack survives: every frame it comes to is one it can handle. -/
inductive Benign (ports : List ℕ) : List ArpCacheEntry → List UInt8 → Prop
  | nil (cache : List ArpCacheEntry) : Benign ports cache []
  | frame {cache : List ArpCacheEntry} {bs : List UInt8} (hne : bs ≠ [])
      (hok : FrameOk ports cache bs) (hrest : Benign ports (cacheAfter cache bs) (frameRest bs)) :
      Benign ports cache bs

/-- Packets in which no frame the loop comes to reaches a protocol. -/
inductive Silent : List UInt8 → Prop
  | nil : Silent []
  | frame {bs : List UInt8} (hne : bs ≠ []) (hsilent : SilentFrame bs)
      (hrest : Silent (frameRest bs)) : Silent bs

theorem FrameOk.of_silent (h : SilentFrame bs) : FrameOk ports cache bs := by
  rcases h with h | h <;> rw [FrameOk, h] <;> trivial

theorem netInputLoop_step {fuel : ℕ} (hne : bs ≠ [])
    (h : netInputOne cfg st bs = .ok (b, st₁, rest)) :
    netInputLoop cfg (fuel + 1) st bs =
      (netInputLoop cfg fuel st₁ rest).map fun r => (b || r.1, r.2) := by
  obtain ⟨x, xs, rfl⟩ := List.exists_cons_of_ne_nil hne
  rw [netInputLoop]
  simp only [h, bind, Except.bind, Except.map]

theorem netInputLoop_fault {fuel : ℕ} {f : NetFault} (hne : bs ≠ [])
    (h : netInputOne cfg st bs = .error f) : netInputLoop cfg (fuel + 1) st bs = .error f := by
  obtain ⟨x, xs, rfl⟩ := List.exists_cons_of_ne_nil hne
  rw [netInputLoop]
  simp only [h, bind, Except.bind]

theorem netInputLoop_ok_inv {fuel : ℕ} {ret : Bool} (hne : bs ≠ [])
    (h : netInputLoop cfg (fuel + 1) st bs = .ok (ret, st')) :
    ∃ st₁ r, FrameOk st.ports st.arpCache bs ∧ FrameDone st st₁ bs ∧
      netInputLoop cfg fuel st₁ (frameRest bs) = .ok (r, st') := by
  by_cases hok : FrameOk st.ports st.arpCache bs
  · obtain ⟨b, st₁, heq, hdone⟩ := netInputOne_ok cfg hok
    rw [netInputLoop_step hne heq] at h
    rcases hloop : netInputLoop cfg fuel st₁ (frameRest bs) with f | ⟨r, st₂⟩
    · rw [hloop] at h
      cases h
    · rw [hloop] at h
      obtain rfl := (Prod.mk.inj (Except.ok.inj h)).2
      exact ⟨st₁, r, hok, hdone, hloop⟩
  · obtain ⟨f, hf⟩ := netInputOne_error cfg hok
    rw [netInputLoop_fault hne hf] at h
    cases h

theorem netInputLoop_ok_iff (cfg : NetConfig) (st : NetState) (bs : List UInt8) {fuel : ℕ}
    (hfuel : bs.length ≤ fuel) :
    (∃ r, netInputLoop cfg fuel st bs = .ok r) ↔ Benign st.ports st.arpCache bs := by
  induction fuel generalizing st bs with
  | zero =>
      obtain rfl := List.length_eq_zero_iff.mp (Nat.le_zero.mp hfuel)
      exact ⟨fun _ => Benign.nil _, fun _ => ⟨_, by rw [netInputLoop]⟩⟩
  | succ fuel ih =>
      by_cases hne : bs = []
      · subst hne
        exact ⟨fun _ => Benign.nil _, fun _ => ⟨_, by rw [netInputLoop]⟩⟩
      have hlt := length_frameRest_lt hne
      by_cases hok : FrameOk st.ports st.arpCache bs
      · obtain ⟨b, st', heq, hdone⟩ := netInputOne_ok cfg hok
        have hrest := ih st' (frameRest bs) (by omega)
        rw [hdone.ports, hdone.cache] at hrest
        rw [netInputLoop_step hne heq]
        constructor
        · rintro ⟨r, hr⟩
          refine Benign.frame hne hok (hrest.mp ?_)
          rcases hloop : netInputLoop cfg fuel st' (frameRest bs) with f | r'
          · rw [hloop] at hr
            cases hr
          · exact ⟨r', rfl⟩
        · intro hb
          cases hb with
          | nil => exact absurd rfl hne
          | frame _ _ hb =>
              obtain ⟨r, hr⟩ := hrest.mpr hb
              rw [hr]
              exact ⟨_, rfl⟩
      · obtain ⟨f, hf⟩ := netInputOne_error cfg hok
        rw [netInputLoop_fault hne hf]
        constructor
        · rintro ⟨r, hr⟩
          cases hr
        · intro hb
          cases hb with
          | nil => exact absurd rfl hne
          | frame _ hok' _ => exact absurd hok' hok

/-- **The stack survives a packet exactly if** every frame the loop comes to is one that
its protocol can handle: for UDP a bound port, a packet that fits the socket's buffer and a
length field that fits the packet; for ARP the bytes of the message and a free entry. -/
theorem netInput_survives_iff (cfg : NetConfig) (st : NetState) (bs : List UInt8) :
    (∃ ret st', netInput cfg st bs = .ok (ret, st')) ↔ Benign st.ports st.arpCache bs := by
  rw [← netInputLoop_ok_iff cfg st bs le_rfl]
  constructor
  · rintro ⟨ret, st', h⟩
    exact ⟨(ret, st'), h⟩
  · rintro ⟨⟨ret, st'⟩, h⟩
    exact ⟨ret, st', h⟩

/-- A datagram for port 9: Ethernet, IPv4 and UDP headers without payload. -/
def unboundPortFrame : List UInt8 :=
  [0, 0, 0, 0, 0, 0, 0, 0, 0, 0, 0, 0, 0x08, 0x00] ++
  [0x45, 0, 0, 28, 0, 0, 0x40, 0, 64, 17, 0, 0, 10, 0, 0, 1, 10, 0, 0, 2] ++
  [0, 7, 0, 9, 0, 8, 0, 0]

/-- **A datagram to a port nobody has bound ends the process**: the assertion on the socket
in `udp_input` fails. No socket has been created here. -/
theorem netInput_unbound_port_fault :
    ¬ ∃ ret st', netInput ⟨[0, 0, 0, 0, 0, 1], 0x0200000a⟩ NetState.start unboundPortFrame =
      .ok (ret, st') := by
  rintro ⟨ret, st', h⟩
  have hnone : (netInput ⟨[0, 0, 0, 0, 0, 1], 0x0200000a⟩ NetState.start
      unboundPortFrame).toOption = none := by decide +kernel
  rw [h] at hnone
  cases hnone

/-! ## One packet, one frame -/

theorem netInputLoop_inputs {fuel : ℕ} {ret : Bool}
    (h : netInputLoop cfg fuel st bs = .ok (ret, st')) :
    st.inputs.length ≤ st'.inputs.length := by
  induction fuel generalizing st bs ret with
  | zero =>
      have hend : netInputLoop cfg 0 st bs = .ok (false, st) := by cases bs <;> rfl
      rw [hend] at h
      rw [(Prod.mk.inj (Except.ok.inj h)).2]
  | succ fuel ih =>
      by_cases hne : bs = []
      · subst hne
        rw [netInputLoop] at h
        rw [(Prod.mk.inj (Except.ok.inj h)).2]
      obtain ⟨st₁, r, -, hdone, hloop⟩ := netInputLoop_ok_inv hne h
      refine le_trans ?_ (ih hloop)
      by_cases hs : SilentFrame bs
      · rw [hdone.silent hs]
      · rw [hdone.input hs]
        exact Nat.le_succ _

theorem netInputLoop_silent_iff (cfg : NetConfig) (st : NetState) (bs : List UInt8) {fuel : ℕ}
    (hfuel : bs.length ≤ fuel) :
    (∃ ret, netInputLoop cfg fuel st bs = .ok (ret, st)) ↔ Silent bs := by
  induction fuel generalizing bs with
  | zero =>
      obtain rfl := List.length_eq_zero_iff.mp (Nat.le_zero.mp hfuel)
      exact ⟨fun _ => Silent.nil, fun _ => ⟨_, by rw [netInputLoop]⟩⟩
  | succ fuel ih =>
      by_cases hne : bs = []
      · subst hne
        exact ⟨fun _ => Silent.nil, fun _ => ⟨_, by rw [netInputLoop]⟩⟩
      have hlt := length_frameRest_lt hne
      have hrest := ih (frameRest bs) (by omega)
      constructor
      · rintro ⟨ret, h⟩
        obtain ⟨st₁, r, -, hdone, hloop⟩ := netInputLoop_ok_inv hne h
        -- a protocol input is never taken back
        have hsilent : SilentFrame bs := by
          by_contra hs
          have h₁ := hdone.input hs
          have h₂ := netInputLoop_inputs hloop
          omega
        obtain rfl := hdone.silent hsilent
        exact Silent.frame hne hsilent (hrest.mp ⟨r, hloop⟩)
      · intro hs
        cases hs with
        | nil => exact absurd rfl hne
        | frame _ hsilent hs =>
            have hok : FrameOk st.ports st.arpCache bs := FrameOk.of_silent hsilent
            obtain ⟨b, st₁, heq, hdone⟩ := netInputOne_ok cfg hok
            obtain rfl := hdone.silent hsilent
            obtain ⟨r, hr⟩ := hrest.mpr hs
            rw [netInputLoop_step hne heq, hr]
            exact ⟨_, rfl⟩

/-- **One packet, one frame.** If the frame at the start of the packet can be handled, the
whole call does what handling that frame does, and a protocol sees at most one input. -/
def OneFrame (cfg : NetConfig) (st : NetState) (bs : List UInt8) : Prop :=
  ∀ b st₁ rest, netInputOne cfg st bs = .ok (b, st₁, rest) →
    st₁.inputs.length ≤ st.inputs.length + 1 ∧ ∃ ret, netInput cfg st bs = .ok (ret, st₁)

/-- **Only the first frame counts exactly if** the bytes behind it, read as frames again,
reach no protocol. -/
theorem netInput_oneFrame_iff (cfg : NetConfig) (st : NetState) (bs : List UInt8) :
    OneFrame cfg st bs ↔ ¬ FrameOk st.ports st.arpCache bs ∨ Silent (frameRest bs) := by
  by_cases hok : FrameOk st.ports st.arpCache bs
  · obtain ⟨b, st₁, heq, hdone⟩ := netInputOne_ok cfg hok
    have hone : st₁.inputs.length ≤ st.inputs.length + 1 := by
      by_cases hs : SilentFrame bs
      · rw [hdone.silent hs]
        exact Nat.le_succ _
      · rw [hdone.input hs]
    have hcall : (∃ ret, netInput cfg st bs = .ok (ret, st₁)) ↔ Silent (frameRest bs) := by
      by_cases hne : bs = []
      · subst hne
        have hst : st₁ = st := hdone.silent (Or.inl (if_pos (by decide)))
        rw [hst]
        exact ⟨fun _ => Silent.nil, fun _ => ⟨false, by rw [netInput, netInputLoop]⟩⟩
      · obtain ⟨n, hn⟩ := Nat.exists_eq_succ_of_ne_zero (List.length_pos_iff.mpr hne).ne'
        have hlt := length_frameRest_lt hne
        rw [← netInputLoop_silent_iff cfg st₁ (frameRest bs) (show _ ≤ n by omega), netInput, hn,
          netInputLoop_step hne heq]
        rcases netInputLoop cfg n st₁ (frameRest bs) with f | ⟨r, st₂⟩
        · simp [Except.map]
        · simp [Except.map]
    constructor
    · exact fun h => Or.inr (hcall.mp (h b st₁ _ heq).2)
    · intro h b' st₁' rest' heq'
      rw [heq] at heq'
      obtain ⟨rfl, hrest⟩ := Prod.mk.inj (Except.ok.inj heq')
      obtain ⟨rfl, rfl⟩ := Prod.mk.inj hrest
      exact ⟨hone, hcall.mpr (h.resolve_left (not_not.mpr hok))⟩
  · obtain ⟨f, hf⟩ := netInputOne_error cfg hok
    refine ⟨fun _ => Or.inl hok, ?_⟩
    intro _ b st₁ rest heq
    rw [hf] at heq
    cases heq

/-- An ARP message that is no request, and whose body is a frame with one. -/
def smuggledRequest : List UInt8 :=
  [0, 0, 0, 0, 0, 0, 0, 0, 0, 0, 0, 0, 0x08, 0x06] ++
  [0, 0, 0, 0, 0, 0, 0, 0, 0, 0, 0, 0, 0x08, 0x06] ++
  [0, 1, 8, 0, 6, 4, 0, 1] ++ [6, 6, 6, 6, 6, 6] ++ [10, 0, 0, 9] ++ [0, 0, 0, 0, 0, 0] ++
  [10, 0, 0, 2]

/-- **The body of an ARP message is read as another frame**: the request inside is handled
as if it had been a packet. -/
theorem netInput_smuggled_not_oneFrame :
    ¬ OneFrame ⟨[0, 0, 0, 0, 0, 1], 0x0200000a⟩ NetState.start smuggledRequest := by
  intro h
  have hfirst : (netInputOne ⟨[0, 0, 0, 0, 0, 1], 0x0200000a⟩ NetState.start
      smuggledRequest).toOption.map (fun r => r.2.1.inputs.length) = some 1 := by decide +kernel
  have hall : (netInput ⟨[0, 0, 0, 0, 0, 1], 0x0200000a⟩ NetState.start
      smuggledRequest).toOption.map (fun r => r.2.inputs.length) = some 2 := by decide +kernel
  rcases hone : netInputOne ⟨[0, 0, 0, 0, 0, 1], 0x0200000a⟩ NetState.start smuggledRequest with
    f | ⟨b, st₁, rest⟩
  · rw [hone] at hfirst
    cases hfirst
  · obtain ⟨-, ret, hret⟩ := h b st₁ rest hone
    rw [hone] at hfirst
    rw [hret] at hall
    have h₁ : st₁.inputs.length = 1 := Option.some.inj hfirst
    have h₂ : st₁.inputs.length = 2 := Option.some.inj hall
    omega

end Manticore
