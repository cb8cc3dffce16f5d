import Manticore.Base.Memory
import Manticore.Kernel.IoQueue
import Manticore.Usr.NetUdp

/-!
# From `udp_sendto` to the wire

`udp_sendto` builds its frame in the static `_tx_buf` and puts the address and the length of
the frame into the I/O queue.  The kernel copies the bytes when it runs `process_io`, which
may be after many more calls.  So what goes out is what the buffer holds then.
-/

namespace Manticore

/-- The arguments of a call, and the port of its socket. -/
structure SendCall where
  localPort : ℕ
  payload : List UInt8
  destIp : ℕ
  destPort : ℕ
  addrlen : ℕ
deriving DecidableEq, Repr

/-- The process: the stack's tables, its memory, and the I/O queue. -/
structure Sender where
  net : NetState
  mem : Mem
  io : IOState

namespace Sender

/-- The frame is in `_tx_buf` at `buf`, and is submitted by its address. -/
def submit (buf : UInt64) (st : Sender) (frame : List UInt8) : Sender :=
  { st with
    mem := memcpy st.mem buf.toNat (elementOf frame) frame.length
    io := st.io.ioQueueAppend 0 ⟨.submit, buf, UInt64.ofNat frame.length⟩ }

/-- `udp_sendto` with the buffer that its frame goes through. -/
def sendto (cfg : NetConfig) (buf : UInt64) (st : Sender) (call : SendCall) :
    Except NetFault (ℤ × Sender) :=
  match udpSendto cfg st.net call.localPort call.payload call.destIp call.destPort
      call.addrlen with
  | .error e => .error e
  | .ok (ret, net) =>
      .ok (ret, (net.submitted.drop st.net.submitted.length).foldl (submit buf)
        { st with net := net })

/-- The calls one after another, with their return values. -/
def sendAll (cfg : NetConfig) (buf : UInt64) :
    Sender → List SendCall → Except NetFault (List ℤ × Sender)
  | st, [] => .ok ([], st)
  | st, call :: calls =>
      match st.sendto cfg buf call with
      | .error e => .error e
      | .ok (ret, st) =>
          match sendAll cfg buf st calls with
          | .error e => .error e
          | .ok (rets, st) => .ok (ret :: rets, st)

end Sender

/-- What `process_io_one` copies to the transmit page for each `Submit` command. -/
def transmitted (mem : Mem) (cmds : List IOCmd) : List (List UInt8) :=
  (cmds.filter fun c => c.opcode == .submit).map fun c => bytesAt mem c.addr.toNat c.len.toNat

/-- The frames of the calls between `st` and `st'`. -/
def sentFrames (st st' : Sender) : List (List UInt8) :=
  st'.net.submitted.drop st.net.submitted.length

/-- The frames that the kernel copies in a `process_io` after the calls. -/
def copiedFrames (readable : IOCmd → Bool) (st st' : Sender) : List (List UInt8) :=
  transmitted st'.mem ((st'.io.processIo readable).popped.drop st.io.popped.length)

/-! ## The frame of a call -/

/-- A frame that fits into `_tx_buf`, with its length in the IPv4 header. -/
structure UdpFrame (frame : List UInt8) : Prop where
  header : 42 ≤ frame.length
  fits : frame.length < txBufSize
  totLen : sizeofEthhdr + beNat (fieldAt frame 16 2) = frame.length

theorem udpFrame_of_packet {dest source payload : List UInt8} (destIp srcIp destPort localPort : ℕ)
    (c₁ c₂ d₁ d₂ : UInt8) (hdest : dest.length = ethAlen) (hsource : source.length = ethAlen)
    (hlen : 42 + payload.length < txBufSize) :
    UdpFrame (ethhdrBytes dest source ethPIp ++
      udpPacket payload destIp srcIp destPort localPort c₁ c₂ d₁ d₂) := by
  have heth : (ethhdrBytes dest source ethPIp).length = 14 := by
    simp [ethhdrBytes, hdest, hsource, ethAlen]
  have hlength : (ethhdrBytes dest source ethPIp ++
      udpPacket payload destIp srcIp destPort localPort c₁ c₂ d₁ d₂).length =
        42 + payload.length := by
    rw [List.length_append, heth, length_udpPacket]
    omega
  refine ⟨by omega, by omega, ?_⟩
  have hfield : fieldAt (ethhdrBytes dest source ethPIp ++
      udpPacket payload destIp srcIp destPort localPort c₁ c₂ d₁ d₂) 16 2 =
        fieldAt (udpPacket payload destIp srcIp destPort localPort c₁ c₂ d₁ d₂) 2 2 := by
    rw [fieldAt, fieldAt, List.drop_append, List.drop_eq_nil_of_le (by omega), heth,
      List.nil_append]
  have htot : fieldAt (udpPacket payload destIp srcIp destPort localPort c₁ c₂ d₁ d₂) 2 2 =
      beBytes 2 (sizeofIphdr + (sizeofUdphdr + payload.length)) := rfl
  rw [hfield, htot, beNat_beBytes, hlength]
  simp only [sizeofEthhdr, sizeofIphdr, sizeofUdphdr, txBufSize] at *
  omega

/-- The frame of a call, from the tables of the stack. -/
def callFrame (cfg : NetConfig) (cache : List ArpCacheEntry) (call : SendCall) : List UInt8 :=
  let destArp := (arpCacheLookup cache call.destIp).getD []
  let udpLen := sizeofUdphdr + call.payload.length
  let c := ipv4Checksum (iphdrBytes (sizeofIphdr + udpLen) ipprotoUdp call.destIp cfg.hostIp)
  let d := udpChecksum (udphdrBytes udpLen call.destPort call.localPort ++ call.payload) udpLen
    call.destIp cfg.hostIp
  ethhdrBytes destArp cfg.macAddr ethPIp ++ udpPacket call.payload call.destIp cfg.hostIp
    call.destPort call.localPort (UInt8.ofNat c) (UInt8.ofNat (c / 256)) (UInt8.ofNat d)
    (UInt8.ofNat (d / 256))

/-- The same datagram: payload, destination and ports. -/
def SendCall.SameDatagram (c d : SendCall) : Prop :=
  c.payload = d.payload ∧ c.destIp = d.destIp ∧ c.destPort = d.destPort ∧ c.localPort = d.localPort

/-- The widths of `in_addr_t` and `in_port_t`. -/
structure SendCall.Ranged (c : SendCall) : Prop where
  destIp : c.destIp < 2 ^ 32
  destPort : c.destPort < 2 ^ 16
  localPort : c.localPort < 2 ^ 16

theorem SendCall.SameDatagram.callFrame_eq {c d : SendCall} (h : c.SameDatagram d)
    (cfg : NetConfig) (cache : List ArpCacheEntry) :
    callFrame cfg cache c = callFrame cfg cache d := by
  obtain ⟨hpayload, hip, hdest, hlocal⟩ := h
  simp only [callFrame, hpayload, hip, hdest, hlocal]

theorem leBytes_inj {k a b : ℕ} (ha : a < 256 ^ k) (hb : b < 256 ^ k)
    (h : leBytes k a = leBytes k b) : a = b := by
  have hnat := congrArg leNat h
  rwa [leNat_leBytes, leNat_leBytes, Nat.mod_eq_of_lt ha, Nat.mod_eq_of_lt hb] at hnat

theorem udpPacket_inj {c d : SendCall} {srcIp : ℕ} {c₁ c₂ d₁ d₂ c₁' c₂' d₁' d₂' : UInt8}
    (hc : c.Ranged) (hd : d.Ranged)
    (h : udpPacket c.payload c.destIp srcIp c.destPort c.localPort c₁ c₂ d₁ d₂ =
      udpPacket d.payload d.destIp srcIp d.destPort d.localPort c₁' c₂' d₁' d₂') :
    c.SameDatagram d := by
  have hpayload : c.payload = d.payload := congrArg (List.drop 28) h
  have hip : leBytes 4 c.destIp = leBytes 4 d.destIp := congrArg (fieldAt · 16 4) h
  have hlocal : leBytes 2 c.localPort = leBytes 2 d.localPort := congrArg (fieldAt · 20 2) h
  have hdest : leBytes 2 c.destPort = leBytes 2 d.destPort := congrArg (fieldAt · 22 2) h
  exact ⟨hpayload, leBytes_inj hc.destIp hd.destIp hip, leBytes_inj hc.destPort hd.destPort hdest,
    leBytes_inj hc.localPort hd.localPort hlocal⟩

theorem length_of_arpCacheLookup {cache : List ArpCacheEntry} {ip : ℕ} {mac : List UInt8}
    (harp : ∀ e ∈ cache, e.macAddr.length = ethAlen) (h : arpCacheLookup cache ip = some mac) :
    mac.length = ethAlen := by
  obtain ⟨idx, -, hidx⟩ := Option.bind_eq_some_iff.mp h
  obtain ⟨e, he, rfl⟩ := Option.map_eq_some_iff.mp hidx
  exact harp e (List.mem_of_getElem? he)

theorem udpSendto_too_long {cfg : NetConfig} {st : NetState} {payload destArp : List UInt8}
    {localPort destIp destPort : ℕ} (hlen : ¬ 42 + payload.length < txBufSize)
    (hmac : cfg.macAddr.length = ethAlen)
    (harp : arpCacheLookup st.arpCache destIp = some destArp) (hdest : destArp.length = ethAlen) :
    udpSendto cfg st localPort payload destIp destPort sizeofSockaddrIn = .error .assertion := by
  rw [udpSendto_headers payload localPort destPort hmac harp hdest, packetBufAppend,
    length_udpHeaders cfg destArp localPort destIp destPort _ _ hmac hdest, if_neg hlen]
  rfl

theorem udpSendto_returned {cfg : NetConfig} {st st' : NetState} {call : SendCall} {ret : ℤ}
    (hmac : cfg.macAddr.length = ethAlen) (harp : ∀ e ∈ st.arpCache, e.macAddr.length = ethAlen)
    (h : udpSendto cfg st call.localPort call.payload call.destIp call.destPort call.addrlen =
      .ok (ret, st')) (hret : ret = call.payload.length) :
    (∃ destArp, arpCacheLookup st.arpCache call.destIp = some destArp ∧ destArp.length = ethAlen) ∧
      UdpFrame (callFrame cfg st.arpCache call) ∧
      st' = { st with submitted := st.submitted ++ [callFrame cfg st.arpCache call] } := by
  have haddrlen : call.addrlen = sizeofSockaddrIn := by
    by_contra hne
    rw [udpSendto, if_pos hne] at h
    have := (Prod.mk.inj (Except.ok.inj h)).1
    omega
  rw [haddrlen] at h
  rcases hlookup : arpCacheLookup st.arpCache call.destIp with _ | destArp
  · simp only [udpSendto, hlookup, ne_eq, not_true_eq_false, if_false] at h
    cases h
  · have hdest := length_of_arpCacheLookup harp hlookup
    by_cases hlen : 42 + call.payload.length < txBufSize
    · rw [udpSendto_eq call.localPort call.destPort hlen hmac hlookup hdest] at h
      refine ⟨⟨destArp, rfl, hdest⟩, ?_, ?_⟩
      · simp only [callFrame, hlookup, Option.getD_some]
        exact udpFrame_of_packet call.destIp cfg.hostIp call.destPort call.localPort _ _ _ _
          hdest hmac hlen
      · simp only [callFrame, hlookup, Option.getD_some]
        exact (Prod.mk.inj (Except.ok.inj h)).2.symm
    · rw [udpSendto_too_long hlen hmac hlookup hdest] at h
      cases h

/-! ## A run of calls -/

/-- The buffer after the frames have gone through it. -/
def bufferAfter (buf : ℕ) (mem : Mem) (frames : List (List UInt8)) : Mem :=
  frames.foldl (fun mem frame => memcpy mem buf (elementOf frame) frame.length) mem

/-- The command for a frame. -/
def submitCmd (buf : UInt64) (frame : List UInt8) : IOCmd :=
  ⟨.submit, buf, UInt64.ofNat frame.length⟩

/-- What a run of calls has done: each frame went through the buffer, and its command
waits in the queue. -/
structure Sent (buf : UInt64) (st st' : Sender) (ws : List IOCmd) (frames : List (List UInt8)) :
    Prop where
  udp : ∀ f ∈ frames, UdpFrame f
  submitted : st'.net.submitted = st.net.submitted ++ frames
  mem : st'.mem = bufferAfter buf.toNat st.mem frames
  queued : st'.io.Queued (ws ++ frames.map (submitCmd buf))
  popped : st'.io.popped = st.io.popped

namespace Sender

variable {cfg : NetConfig} {buf : UInt64}

theorem sendto_returned {st st' : Sender} {call : SendCall} {ret : ℤ}
    (hmac : cfg.macAddr.length = ethAlen)
    (harp : ∀ e ∈ st.net.arpCache, e.macAddr.length = ethAlen)
    (h : st.sendto cfg buf call = .ok (ret, st')) (hret : ret = call.payload.length) :
    let frame := callFrame cfg st.net.arpCache call
    (∃ destArp, arpCacheLookup st.net.arpCache call.destIp = some destArp ∧
      destArp.length = ethAlen) ∧ UdpFrame frame ∧ st' = submit buf
      { st with net := { st.net with submitted := st.net.submitted ++ [frame] } } frame := by
  intro frame
  unfold sendto at h
  rcases hsend : udpSendto cfg st.net call.localPort call.payload call.destIp call.destPort
      call.addrlen with e | ⟨r, net⟩
  · rw [hsend] at h
    cases h
  · rw [hsend] at h
    obtain ⟨hr, hst⟩ := Prod.mk.inj (Except.ok.inj h)
    obtain ⟨hpeer, hframe, hnet⟩ := udpSendto_returned hmac harp hsend (hr.trans hret)
    refine ⟨hpeer, hframe, ?_⟩
    rw [← hst, hnet, List.drop_left]
    rfl

theorem sendAll_sent (hmac : cfg.macAddr.length = ethAlen) :
    ∀ {calls : List SendCall} {st st' : Sender} {rets : List ℤ} {ws : List IOCmd},
    (∀ e ∈ st.net.arpCache, e.macAddr.length = ethAlen) →
    st.io.Queued ws → ws.length + calls.length < ioQueueSlots →
    sendAll cfg buf st calls = .ok (rets, st') →
    rets = calls.map (fun call => (call.payload.length : ℤ)) →
      Sent buf st st' ws (calls.map (callFrame cfg st.net.arpCache)) ∧
        ∀ call ∈ calls, ∃ destArp, arpCacheLookup st.net.arpCache call.destIp = some destArp ∧
          destArp.length = ethAlen
  | [], st, st', rets, ws, _, hq, _, h, _ => by
      obtain ⟨-, rfl⟩ := Prod.mk.inj (Except.ok.inj h)
      exact ⟨⟨by simp, by simp, rfl, by simpa using hq, rfl⟩, fun call hcall => nomatch hcall⟩
  | call :: calls, st, st', rets, ws, harp, hq, hroom, h, hrets => by
      rw [List.length_cons] at hroom
      unfold sendAll at h
      rcases hone : st.sendto cfg buf call with e | ⟨ret, st₁⟩
      · rw [hone] at h
        cases h
      · rw [hone] at h
        simp only at h
        rcases hall : sendAll cfg buf st₁ calls with e | ⟨rets', st₂⟩
        · rw [hall] at h
          cases h
        · rw [hall] at h
          obtain ⟨hr, rfl⟩ := Prod.mk.inj (Except.ok.inj h)
          rw [← hr, List.map_cons, List.cons.injEq] at hrets
          obtain ⟨hpeer, hframe, hst₁⟩ := sendto_returned hmac harp hone hrets.1
          generalize hcall : callFrame cfg st.net.arpCache call = frame at hframe hst₁
          have hcache : st₁.net.arpCache = st.net.arpCache := by rw [hst₁]; rfl
          have hq₁ : st₁.io.Queued (ws ++ [submitCmd buf frame]) := by
            rw [hst₁]
            exact hq.append (by omega) 0 (submitCmd buf frame)
          obtain ⟨hsent, hpeers⟩ := sendAll_sent hmac (hcache ▸ harp) hq₁
            (by simp only [List.length_append, List.length_singleton]; omega) hall hrets.2
          rw [hcache] at hsent hpeers
          rw [List.map_cons, hcall]
          refine ⟨⟨?_, ?_, ?_, ?_, ?_⟩, List.forall_mem_cons.mpr ⟨hpeer, hpeers⟩⟩
          · exact List.forall_mem_cons.mpr ⟨hframe, hsent.udp⟩
          · rw [hsent.submitted, hst₁]
            simp [submit]
          · rw [hsent.mem, hst₁]
            rfl
          · simpa [List.append_assoc] using hsent.queued
          · rw [hsent.popped, hst₁]
            rfl

end Sender

/-! ## What goes out -/

theorem transmitted_submitCmd {buf : UInt64} {mem : Mem} {frames : List (List UInt8)}
    (hudp : ∀ f ∈ frames, UdpFrame f) : transmitted mem (frames.map (submitCmd buf)) =
      frames.map fun f => bytesAt mem buf.toNat f.length := by
  have hsubmit : (frames.map (submitCmd buf)).filter (fun c => c.opcode == .submit) =
      frames.map (submitCmd buf) := by
    refine List.filter_eq_self.mpr ?_
    intro c hc
    obtain ⟨f, -, rfl⟩ := List.mem_map.mp hc
    rfl
  rw [transmitted, hsubmit, List.map_map]
  refine List.map_congr_left fun f hf => ?_
  have hlt : f.length < 2 ^ 64 := lt_trans (hudp f hf).fits (by decide)
  simp only [Function.comp_apply, submitCmd, UInt64.toNat_ofNat_of_lt' hlt]

theorem UdpFrame.eq_of_same_memory {mem : Mem} {buf : ℕ} {f g : List UInt8} (hf : UdpFrame f)
    (hg : UdpFrame g) (hfm : bytesAt mem buf f.length = f) (hgm : bytesAt mem buf g.length = g) :
    f = g := by
  have hfield : ∀ h : List UInt8, UdpFrame h → bytesAt mem buf h.length = h →
      fieldAt h 16 2 = [mem (buf + 16), mem (buf + 17)] := by
    intro h hh hm
    have hlen := hh.header
    rw [← hm, fieldAt]
    refine List.ext_getElem (by simp; omega) ?_
    intro i h₁ h₂
    have hi : i < 2 := by simpa using h₂
    interval_cases i <;> simp [bytesAt]
  have hlen : f.length = g.length := by
    rw [← hf.totLen, ← hg.totLen, hfield f hf hfm, hfield g hg hgm]
  rw [← hfm, ← hgm, hlen]

theorem bytesAt_bufferAfter {buf : ℕ} {mem : Mem} {frames : List (List UInt8)} {f : List UInt8}
    (hf : f ∈ frames) (hsame : ∀ g ∈ frames, g = f) :
    bytesAt (bufferAfter buf mem frames) buf f.length = f := by
  obtain ⟨init, last, rfl⟩ : ∃ init last, frames = init ++ [last] :=
    ⟨frames.dropLast, frames.getLast (List.ne_nil_of_mem hf), (List.dropLast_append_getLast _).symm⟩
  have hlast : last = f := hsame last (by simp)
  rw [bufferAfter, List.foldl_append, List.foldl_cons, List.foldl_nil, hlast,
    bytesAt_memcpy_same, bytesAt_elementOf]

theorem sameDatagram_of_callFrame_eq {cfg : NetConfig} {cache : List ArpCacheEntry} {c d : SendCall}
    (hc : c.Ranged) (hd : d.Ranged)
    (hcpeer : ∃ destArp, arpCacheLookup cache c.destIp = some destArp ∧ destArp.length = ethAlen)
    (hdpeer : ∃ destArp, arpCacheLookup cache d.destIp = some destArp ∧ destArp.length = ethAlen)
    (h : callFrame cfg cache c = callFrame cfg cache d) : c.SameDatagram d := by
  obtain ⟨macC, hmacC, hlenC⟩ := hcpeer
  obtain ⟨macD, hmacD, hlenD⟩ := hdpeer
  simp only [callFrame, hmacC, hmacD, Option.getD_some] at h
  refine udpPacket_inj hc hd (List.append_inj h ?_).2
  simp only [ethhdrBytes, List.length_append, hlenC, hlenD]

/-- **Datagrams go out as sent exactly if they are all the same.** Of the frames of all calls
between two runs of `process_io`, the kernel copies what the last ones left in `_tx_buf`. -/
theorem udp_sendto_transmit_iff {cfg : NetConfig} {buf : UInt64} {calls : List SendCall}
    {st st' : Sender} {rets : List ℤ} {readable : IOCmd → Bool}
    (hmac : cfg.macAddr.length = ethAlen)
    (harp : ∀ e ∈ st.net.arpCache, e.macAddr.length = ethAlen)
    (hranged : ∀ call ∈ calls, call.Ranged)
    (hempty : st.io.Queued []) (hroom : calls.length < ioQueueSlots)
    (hrun : Sender.sendAll cfg buf st calls = .ok (rets, st'))
    (hrets : rets = calls.map fun call => (call.payload.length : ℤ))
    (hread : ∀ c, c.addr = buf → readable c = true) :
    copiedFrames readable st st' = sentFrames st st' ↔
      ∀ c ∈ calls, ∀ d ∈ calls, c.SameDatagram d := by
  obtain ⟨h, hpeers⟩ := Sender.sendAll_sent hmac harp hempty (by simpa using hroom) hrun hrets
  generalize hframes : calls.map (callFrame cfg st.net.arpCache) = frames at h
  have hsent : sentFrames st st' = frames := by
    rw [sentFrames, h.submitted, List.drop_left]
  have hcopied : copiedFrames readable st st' =
      frames.map fun f => bytesAt st'.mem buf.toNat f.length := by
    have hdone : ∀ c ∈ frames.map (submitCmd buf), processIoOne readable c = true := by
      intro c hc
      obtain ⟨f, hf, rfl⟩ := List.mem_map.mp hc
      have hfits := (h.udp f hf).fits
      have hlt : f.length < 2 ^ 64 := lt_trans hfits (by decide)
      simp only [processIoOne, submitCmd, hread, Bool.true_and, decide_eq_true_eq,
        UInt64.toNat_ofNat_of_lt' hlt]
      exact le_of_lt hfits
    obtain ⟨hq, happended⟩ := h.queued.processIo hdone
    have hpopped : (st'.io.processIo readable).popped =
        st.io.popped ++ frames.map (submitCmd buf) := by
      have heq := hq.appended_eq
      rw [happended, h.queued.appended_eq, h.popped, List.append_nil, List.nil_append] at heq
      exact heq.symm
    rw [copiedFrames, hpopped, List.drop_left, transmitted_submitCmd h.udp]
  rw [hcopied, hsent]
  constructor
  · intro heq
    have hback : ∀ f ∈ frames, bytesAt st'.mem buf.toNat f.length = f := by
      rw [← List.map_id frames] at heq
      simpa using List.map_inj_left.mp (by simpa using heq)
    intro c hc d hd
    have hmem : ∀ e ∈ calls, callFrame cfg st.net.arpCache e ∈ frames := fun e he =>
      hframes ▸ List.mem_map_of_mem he
    have heq := (h.udp _ (hmem c hc)).eq_of_same_memory (h.udp _ (hmem d hd)) (hback _ (hmem c hc))
      (hback _ (hmem d hd))
    exact sameDatagram_of_callFrame_eq (hranged c hc) (hranged d hd) (hpeers c hc) (hpeers d hd) heq
  · intro hsame
    rw [h.mem]
    refine (List.map_congr_left fun f hf => ?_).trans (List.map_id frames)
    refine bytesAt_bufferAfter hf fun g hg => ?_
    rw [← hframes] at hf hg
    obtain ⟨c, hc, rfl⟩ := List.mem_map.mp hf
    obtain ⟨d, hd, rfl⟩ := List.mem_map.mp hg
    exact (hsame d hd c hc).callFrame_eq cfg _

/-- A process with one ARP entry and an I/O queue that was just set up. -/
def Sender.fresh : Sender :=
  ⟨onePeer 0x0200000a [0, 0, 0, 0, 0, 2], fun _ => 0, IOState.acquire fun _ => 0⟩

/-- One byte to the peer. -/
def oneByte (b : UInt8) : SendCall := ⟨0x0900, [b], 0x0200000a, 0x0700, sizeofSockaddrIn⟩

/-- A single datagram between two runs of the kernel. -/
theorem udp_sendto_transmit_single : ∃ rets st',
    Sender.sendAll ⟨[0, 0, 0, 0, 0, 1], 0x0100000a⟩ 0x5000 Sender.fresh [oneByte 1] =
        .ok (rets, st') ∧
      copiedFrames (fun _ => true) Sender.fresh st' = sentFrames Sender.fresh st' := by
  have hsum : ((Sender.sendAll ⟨[0, 0, 0, 0, 0, 1], 0x0100000a⟩ 0x5000 Sender.fresh
      [oneByte 1]).toOption.map fun r => (r.1, (sentFrames Sender.fresh r.2).length)) =
        some ([1], 1) := by decide +kernel
  rcases hrun : Sender.sendAll ⟨[0, 0, 0, 0, 0, 1], 0x0100000a⟩ 0x5000 Sender.fresh
      [oneByte 1] with e | ⟨rets, st'⟩
  · rw [hrun] at hsum
    cases hsum
  · rw [hrun] at hsum
    obtain ⟨hrets, hlen⟩ := some_pair_inj hsum
    refine ⟨rets, st', rfl, (udp_sendto_transmit_iff rfl ?_ ?_ (IOState.queued_acquire _) (by decide)
      hrun hrets fun _ _ => rfl).mpr ?_⟩
    · intro e he
      rw [Sender.fresh, onePeer] at he
      rcases List.mem_or_eq_of_mem_set he with he | rfl
      · rw [List.eq_of_mem_replicate he]
        rfl
      · rfl
    · exact List.forall_mem_singleton.mpr ⟨by decide, by decide, by decide⟩
    · simp only [List.forall_mem_singleton]
      exact ⟨rfl, rfl, rfl, rfl⟩

/-- **Two datagrams, and the second goes out twice.** -/
theorem udp_sendto_second_overwrites :
    ((Sender.sendAll ⟨[0, 0, 0, 0, 0, 1], 0x0100000a⟩ 0x5000 Sender.fresh
      [oneByte 1, oneByte 2]).toOption.map fun r => (r.1,
        decide (copiedFrames (fun _ => true) Sender.fresh r.2 = sentFrames Sender.fresh r.2),
        (copiedFrames (fun _ => true) Sender.fresh r.2).map List.getLast?)) =
      some ([1, 1], false, [some 2, some 2]) := by
  decide +kernel

end Manticore
