import Manticore.Usr.Epoll
import Manticore.Usr.NetUdp

/-!
# `net_input` on memory

The loop of `net_input` as it runs: a packet is a view of memory, the tables of the stack are in memory
too, and what a handler reads or writes beyond the packet or a buffer is memory like any other.  Only
an `assert` stops the process here.

Each round takes the Ethernet header off the view, or all of it if there is no header or no known
protocol.  The handlers of IP and ARP take more or nothing, and never give anything back, so the
length of the view is a measure for the loop.
-/

namespace Manticore

namespace NetView

open Epoll (PacketView)

/-- Where the globals are. -/
structure NetGlobals where
  sockets : ℕ
  arpCache : ℕ
  txBuf : ℕ
  macAddr : ℕ
  hostIp : ℕ
  packetsDropped : ℕ
  ipDatagramsDropped : ℕ

/-- The memory of the process, and the address and length of each `io_submit` and `io_complete`. -/
structure NetMem where
  mem : Mem
  submitted : List (ℕ × ℕ)
  completed : List (ℕ × ℕ)

/-- Why `net_input` does not return. -/
inductive NetStop where
  /-- an `assert` fails -/
  | assertion
  /-- the loop takes more rounds than allowed -/
  | rounds
deriving DecidableEq, Repr

def sizeofSocket : ℕ := 1512
def sizeofArpCacheEntry : ℕ := 12
def sizeofArpIp4 : ℕ := 20

/-- `ntohs` of the two bytes at `a`. -/
def ntohsAt (m : Mem) (a : ℕ) : ℕ := beNat (bytesAt m a 2)

/-- `memcpy` from memory. -/
def memcpyFrom (m : Mem) (dst src n : ℕ) : Mem := memcpy m dst (fun i => m (src + i)) n

/-- A counter is incremented. -/
def increment (m : Mem) (a : ℕ) : Mem := store m a 8 (add64 (load m a 8) 1)

/-- `packet_view_trim`; `none` is the failed `assert`. -/
def packetViewTrim (pk : PacketView) (size : ℕ) : Option PacketView :=
  if size ≤ pk.len then some { pk with start := add64 pk.start size } else none

/-! ## ARP -/

/-- The address of the entry, or `NULL`. -/
def findEntry (m : Mem) (cache ipAddr hash : ℕ) : ℕ :=
  (((List.range arpCacheSize).map fun count =>
      cache + sizeofArpCacheEntry * ((hash + count) &&& (arpCacheSize - 1))).find?
    fun entry => load m entry 4 == ipAddr).getD 0

/-- Nothing is checked before the entry is written. -/
def arpCacheInsert (m : Mem) (cache ipAddr macAddr : ℕ) : Mem :=
  let entry := findEntry m cache ipAddr (arpHash ipAddr)
  let entry := if entry = 0 then findEntry m cache 0 (arpHash ipAddr) else entry
  memcpyFrom (store m entry 4 ipAddr) (entry + 4) macAddr ethAlen

def arpReply (g : NetGlobals) (s : NetMem) (requestArph : ℕ) : NetMem :=
  let requestArp := requestArph + sizeofArphdr
  let replyEthh := g.txBuf
  let replyArph := g.txBuf + sizeofEthhdr
  let replyArp := g.txBuf + sizeofEthhdr + sizeofArphdr
  let m := arpCacheInsert s.mem g.arpCache (load s.mem (requestArp + ethAlen) 4) requestArp
  let m := memcpyFrom m replyEthh requestArp ethAlen
  let m := memcpyFrom m (replyEthh + ethAlen) g.macAddr ethAlen
  let m := store m (replyEthh + 12) 2 (htons ethPArp)
  let m := store m replyArph 2 (htons arphrdEther)
  let m := store m (replyArph + 2) 2 (htons ethPIp)
  let m := store m (replyArph + 4) 1 ethAlen
  let m := store m (replyArph + 5) 1 4
  let m := store m (replyArph + 6) 2 (htons arpopReply)
  let m := memcpyFrom m replyArp g.macAddr ethAlen
  let m := store m (replyArp + 6) 4 (load m g.hostIp 4)
  let m := memcpyFrom m (replyArp + 10) requestArp ethAlen
  let m := store m (replyArp + 16) 4 (load m (requestArp + ethAlen) 4)
  { s with
    mem := m
    submitted := s.submitted ++ [(replyEthh, sizeofEthhdr + sizeofArphdr + sizeofArpIp4)] }

/-- The view is left as it is. -/
def arpInput (g : NetGlobals) (s : NetMem) (pk : PacketView) : NetMem :=
  if ntohsAt s.mem (pk.start + 6) = arpopRequest then arpReply g s pk.start else s

/-! ## IP and UDP -/

/-- The address of the socket, or `NULL`. -/
def socketLookupByFlow (m : Mem) (sockets localPort : ℕ) : ℕ :=
  (((List.range maxSockets).map fun i => sockets + sizeofSocket * i).find?
    fun sk => load m (sk + 8) 2 == localPort).getD 0

/-- The whole view goes to `rx_buffer`, whatever its length. -/
def socketInput (m : Mem) (sk : ℕ) (pk : PacketView) : Mem :=
  memcpyFrom m (sk + 10) pk.start pk.len

def udpInput (g : NetGlobals) (s : NetMem) (pk : PacketView) : Option (NetMem × PacketView) :=
  let udph := pk.start + sizeofIphdr
  let udpLen := ntohsAt s.mem (udph + 4)
  let sk := socketLookupByFlow s.mem g.sockets (load s.mem (udph + 2) 2)
  if sk = 0 then none
  else
    let s := { s with mem := socketInput s.mem sk pk }
    (packetViewTrim pk (sizeofIphdr + udpLen)).map fun pk => (s, pk)

/-- The datagram is dropped. -/
def ipDropped (m : Mem) (pk : PacketView) : Bool :=
  let iph := pk.start
  pk.len < sizeofIphdr || ntohsAt m (iph + 2) < sizeofIphdr || load m iph 1 / 16 != 4 ||
    ipIsFragment (ntohsAt m (iph + 6)) || load m (iph + 9) 1 != ipprotoUdp

def ipInput (g : NetGlobals) (s : NetMem) (pk : PacketView) :
    Option (Bool × NetMem × PacketView) :=
  if ipDropped s.mem pk then
    some (false, { s with mem := increment s.mem g.ipDatagramsDropped }, pk)
  else (udpInput g s pk).map fun r => (true, r.1, r.2)

/-! ## Packets -/

/-- The rest of the packet is counted as dropped and trimmed. -/
def dropPacket (g : NetGlobals) (s : NetMem) (pk : PacketView) :
    Option (Bool × NetMem × PacketView) :=
  (packetViewTrim pk pk.len).map fun pk =>
    (false, { s with mem := increment s.mem g.packetsDropped }, pk)

/-- `net_input_one`; `none` is a failed `assert`. -/
def netInputOne (g : NetGlobals) (s : NetMem) (pk : PacketView) :
    Option (Bool × NetMem × PacketView) :=
  let ethh := pk.start
  if pk.len < sizeofEthhdr then dropPacket g s pk
  else (packetViewTrim pk sizeofEthhdr).bind fun pk =>
    if load s.mem (ethh + 12) 2 = htons ethPIp then ipInput g s pk
    else if load s.mem (ethh + 12) 2 = htons ethPArp then some (false, arpInput g s pk, pk)
    else dropPacket g s pk

/-- The loop of `net_input`. -/
def netInputLoop (g : NetGlobals) : ℕ → NetMem → PacketView →
    Except NetStop (Bool × NetMem × PacketView)
  | 0, s, pk => if pk.len = 0 then .ok (false, s, pk) else .error .rounds
  | fuel + 1, s, pk =>
      if pk.len = 0 then .ok (false, s, pk)
      else
        match netInputOne g s pk with
        | none => .error .assertion
        | some (one, s, pk) => do
            let (ret, s, pk) ← netInputLoop g fuel s pk
            .ok (one || ret, s, pk)

/-- `net_input`, for at most `fuel` rounds of the loop. -/
def netInput (g : NetGlobals) (fuel : ℕ) (s : NetMem) (pk : PacketView) :
    Except NetStop (Bool × NetMem × PacketView) :=
  let addr := pk.start
  let len := pk.len
  do
    let (ret, s, pk) ← netInputLoop g fuel s pk
    .ok (ret, { s with completed := s.completed ++ [(addr, len)] }, pk)

/-! ## The view gets shorter -/

section Progress

variable {g : NetGlobals} {s s' : NetMem} {pk pk' : PacketView} {one : Bool} {size : ℕ}

/-- The view `pk'` is what is left of `pk`, at least `size` bytes shorter. -/
structure Shortened (pk pk' : PacketView) (size : ℕ) : Prop where
  stop : pk'.stop = pk.stop
  len : pk'.len + size ≤ pk.len

theorem Shortened.trans {pk'' : PacketView} {size' : ℕ} (h : Shortened pk pk' size)
    (h' : Shortened pk' pk'' size') : Shortened pk pk'' (size + size') := by
  refine ⟨h'.stop.trans h.stop, ?_⟩
  have := h.len
  have := h'.len
  omega

theorem Shortened.refl (pk : PacketView) : Shortened pk pk 0 := ⟨rfl, le_rfl⟩

theorem Shortened.mono {size' : ℕ} (h : Shortened pk pk' size) (hle : size' ≤ size) :
    Shortened pk pk' size' :=
  ⟨h.stop, (Nat.add_le_add_left hle _).trans h.len⟩

theorem shortened_of_trim (h : packetViewTrim pk size = some pk') : Shortened pk pk' size := by
  rw [packetViewTrim] at h
  by_cases hle : size ≤ pk.len
  · rw [if_pos hle] at h
    obtain rfl := Option.some.inj h
    refine ⟨rfl, ?_⟩
    simp only [PacketView.len, sub64, add64] at hle ⊢
    omega
  · rw [if_neg hle] at h
    cases h

/-- What a handler does: it shortens the view and completes nothing. -/
structure Handles (s s' : NetMem) (pk pk' : PacketView) (size : ℕ) : Prop where
  shortened : Shortened pk pk' size
  completed : s'.completed = s.completed

theorem handles_arpInput (g : NetGlobals) (s : NetMem) (pk : PacketView) :
    Handles s (arpInput g s pk) pk pk 0 := by
  refine ⟨.refl pk, ?_⟩
  unfold arpInput
  split
  · rfl
  · rfl

theorem handles_udpInput (h : udpInput g s pk = some (s', pk')) : Handles s s' pk pk' 0 := by
  simp only [udpInput] at h
  split at h
  · cases h
  · obtain ⟨pk₁, htrim, heq⟩ := Option.map_eq_some_iff.mp h
    obtain ⟨rfl, rfl⟩ := Prod.mk.inj heq
    exact ⟨(shortened_of_trim htrim).mono (Nat.zero_le _), rfl⟩

theorem handles_ipInput (h : ipInput g s pk = some (one, s', pk')) : Handles s s' pk pk' 0 := by
  rw [ipInput] at h
  split at h
  · cases h
    exact ⟨.refl pk, rfl⟩
  · obtain ⟨⟨s₁, pk₁⟩, hudp, heq⟩ := Option.map_eq_some_iff.mp h
    cases heq
    exact handles_udpInput hudp

theorem handles_dropPacket (h : dropPacket g s pk = some (one, s', pk')) :
    Handles s s' pk pk' pk.len := by
  obtain ⟨pk₁, htrim, heq⟩ := Option.map_eq_some_iff.mp h
  cases heq
  exact ⟨shortened_of_trim htrim, rfl⟩

theorem handles_netInputOne (h : netInputOne g s pk = some (one, s', pk')) :
    Handles s s' pk pk' (min sizeofEthhdr pk.len) := by
  simp only [netInputOne] at h
  split at h
  case isTrue hshort =>
    obtain ⟨hview, hdone⟩ := handles_dropPacket h
    exact ⟨hview.mono (min_le_right _ _), hdone⟩
  case isFalse hlong =>
    obtain ⟨pk₁, htrim, h⟩ := Option.bind_eq_some_iff.mp h
    -- the header is off, and the handler of the protocol takes the rest from there
    have hheader := shortened_of_trim htrim
    have hrest : Handles s s' pk₁ pk' 0 := by
      split at h
      · exact handles_ipInput h
      · split at h
        · cases h
          exact handles_arpInput g s _
        · obtain ⟨hview, hdone⟩ := handles_dropPacket h
          exact ⟨hview.mono (Nat.zero_le _), hdone⟩
    exact ⟨(hheader.trans hrest.shortened).mono (min_le_left _ _), hrest.completed⟩

theorem netInputLoop_ends (g : NetGlobals) {fuel : ℕ} (hfuel : pk.len ≤ fuel) :
    netInputLoop g fuel s pk = .error .assertion ∨ ∃ ret s' pk',
      netInputLoop g fuel s pk = .ok (ret, s', pk') ∧ pk'.len = 0 ∧ s'.completed = s.completed := by
  induction fuel generalizing s pk with
  | zero =>
      have hzero : pk.len = 0 := Nat.le_zero.mp hfuel
      exact .inr ⟨false, s, pk, if_pos hzero, hzero, rfl⟩
  | succ fuel ih =>
      by_cases hzero : pk.len = 0
      · exact .inr ⟨false, s, pk, if_pos hzero, hzero, rfl⟩
      · rw [netInputLoop, if_neg hzero]
        cases hone : netInputOne g s pk with
        | none => exact .inl rfl
        | some r =>
            obtain ⟨one, s₁, pk₁⟩ := r
            obtain ⟨hview, hdone⟩ := handles_netInputOne hone
            have hlen := hview.len
            have hlt : pk₁.len ≤ fuel := by
              simp only [sizeofEthhdr] at hlen
              omega
            rcases ih (s := s₁) hlt with hstop | ⟨ret, s', pk', hok, hend, hsame⟩
            · exact .inl (by simp only [hstop]; rfl)
            · refine .inr ⟨one || ret, s', pk', ?_, hend, hsame.trans hdone⟩
              simp only [hok]
              rfl

end Progress

/-- **Packets make progress.** Every round that no `assert` stops takes at least 14 bytes off the view,
or all that is left; so the loop ends, and the packet is completed once, with its own address and
length. -/
theorem net_input_progress (g : NetGlobals) (s : NetMem) (pk : PacketView) (fuel : ℕ)
    (hfuel : pk.len ≤ fuel) :
    (∀ s₁ pk₁ one s₂ pk₂, netInputOne g s₁ pk₁ = some (one, s₂, pk₂) →
      Shortened pk₁ pk₂ (min 14 pk₁.len)) ∧
    (netInput g fuel s pk = .error .assertion ∨ ∃ ret s' pk',
      netInput g fuel s pk = .ok (ret, s', pk') ∧ pk'.len = 0 ∧
        s'.completed = s.completed ++ [(pk.start, pk.len)]) := by
  refine ⟨fun s₁ pk₁ one s₂ pk₂ hone => (handles_netInputOne hone).shortened, ?_⟩
  rcases netInputLoop_ends (s := s) g hfuel with hstop | ⟨ret, s', pk', hok, hend, hdone⟩
  · refine .inl ?_
    simp only [netInput, hstop]
    rfl
  · refine .inr ⟨ret, { s' with completed := s'.completed ++ [(pk.start, pk.len)] }, pk', ?_, hend, ?_⟩
    · simp only [netInput, hok]
      rfl
    · simp only [hdone]

/-- An ARP request is answered, and what is left of it has no known protocol. -/
theorem net_input_progress_arp :
    let g : NetGlobals := ⟨0x1000, 0x5000, 0x6000, 0x6080, 0x6086, 0x6090, 0x6098⟩
    let s : NetMem := ⟨fun a => (List.replicate 12 (0 : UInt8) ++ [8, 6, 0, 1, 8, 0, 6, 4, 0, 1]).getD
      (a - 0x8000) 0, [], []⟩
    let pk : PacketView := ⟨0x8000, 0x802a⟩
    pk.len ≤ 42 ∧ ∃ s' pk', netInput g 42 s pk = .ok (false, s', pk') ∧ pk'.len = 0 ∧
      s'.submitted.length = 1 ∧ s'.completed = [(0x8000, 42)] := by
  intro g s pk
  refine ⟨by decide, ?_⟩
  have hreturns : (netInput g 42 s pk).toOption.map (fun r => (r.1, r.2.1.submitted.length)) =
      some (false, 1) := by decide +kernel
  rcases (net_input_progress g s pk 42 (by decide)).2 with
    hstop | ⟨ret, s', pk', hok, hend, hdone⟩
  · rw [hstop] at hreturns
    cases hreturns
  · rw [hok] at hreturns
    obtain ⟨rfl, hsent⟩ := Prod.mk.inj (Option.some.inj hreturns)
    exact ⟨s', pk', hok, hend, hsent, hdone.trans (by decide)⟩

end NetView

end Manticore
