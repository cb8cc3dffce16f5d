import Manticore.Base.Bytes

/-!
# The network stack: functions

`usr/liblinux/src/internal/`: Ethernet, ARP, IPv4 and UDP input, the ARP cache, the socket
table, and UDP output.  A packet is the list of bytes between `start` and `end` of its
`packet_view`.  Ports and addresses are kept as the numbers that a little endian machine
loads from their bytes on the wire, as the source does.  A fault is an error of the result.
Drop counters are left out.
-/

namespace Manticore

/-- What ends a process in the stack. -/
inductive NetFault where
  | assertion
  | readOutside
  | writeOutside
  | nullEntry
deriving DecidableEq, Repr

def maxSockets : ℕ := 8
def rxBufferSize : ℕ := 1500
def arpCacheShift : ℕ := 7
def arpCacheSize : ℕ := 1 <<< arpCacheShift
def ethAlen : ℕ := 6
def sizeofEthhdr : ℕ := 14
def sizeofIphdr : ℕ := 20
def sizeofUdphdr : ℕ := 8
def sizeofArphdr : ℕ := 8
def sizeofSockaddrIn : ℕ := 12
def ethPIp : ℕ := 0x0800
def ethPArp : ℕ := 0x0806
def ipDf : ℕ := 0x4000
def ipMf : ℕ := 0x2000
def ipOffmask : ℕ := 0x1fff
def ipprotoUdp : ℕ := 17
def arpopRequest : ℕ := 1
def arpopReply : ℕ := 2
def arphrdEther : ℕ := 1
def txBufSize : ℕ := 4096

/-! ## State -/

structure Socket where
  localPort : ℕ
  rxBuffer : List UInt8
deriving DecidableEq, Repr

structure ArpCacheEntry where
  ipAddr : ℕ
  macAddr : List UInt8
deriving DecidableEq, Repr

/-- What reaches a protocol: a datagram for the socket of that index, or an ARP message. -/
inductive ProtocolInput where
  | datagram (socket : ℕ) (bytes : List UInt8)
  | arp (bytes : List UInt8)
deriving DecidableEq, Repr

/-- The tables of the stack, what it has submitted for output, and what was given to a
protocol so far. -/
structure NetState where
  sockets : List Socket
  arpCache : List ArpCacheEntry
  submitted : List (List UInt8)
  inputs : List ProtocolInput
deriving DecidableEq, Repr

/-- `__liblinux_mac_addr` and `__liblinux_host_ip`. -/
structure NetConfig where
  macAddr : List UInt8
  hostIp : ℕ

def readAt (bs : List UInt8) (o n : ℕ) : Except NetFault (List UInt8) :=
  if o + n ≤ bs.length then .ok (fieldAt bs o n) else .error .readOutside

def packetViewTrim (bs : List UInt8) (size : ℕ) : Except NetFault (List UInt8) :=
  if size ≤ bs.length then .ok (bs.drop size) else .error .assertion

/-! ## The ARP cache -/

def arpHash (ipAddr : ℕ) : ℕ := (ipAddr * 2654435761 % 2 ^ 32) >>> (32 - arpCacheShift)

/-- The index of the first entry for `ipAddr` from the one at `hash` on. -/
def findEntry (cache : List ArpCacheEntry) (ipAddr hash : ℕ) : Option ℕ :=
  ((List.range arpCacheSize).map fun count => (hash + count) &&& (arpCacheSize - 1)).find?
    fun idx => ((cache[idx]?).map ArpCacheEntry.ipAddr) == some ipAddr

def arpCacheInsert (cache : List ArpCacheEntry) (ipAddr : ℕ) (macAddr : List UInt8) :
    Except NetFault (List ArpCacheEntry) :=
  match findEntry cache ipAddr (arpHash ipAddr) with
  | some idx => .ok (cache.set idx ⟨ipAddr, macAddr⟩)
  | none =>
      match findEntry cache 0 (arpHash ipAddr) with
      | some idx => .ok (cache.set idx ⟨ipAddr, macAddr⟩)
      | none => .error .nullEntry

def arpCacheLookup (cache : List ArpCacheEntry) (ipAddr : ℕ) : Option (List UInt8) :=
  (findEntry cache ipAddr (arpHash ipAddr)).bind fun idx => (cache[idx]?).map ArpCacheEntry.macAddr

/-! ## ARP -/

def ethhdrBytes (dest source : List UInt8) (proto : ℕ) : List UInt8 :=
  dest ++ (source ++ beBytes 2 proto)

/-- The reply to a request from `smac` and `sip`. -/
def arpReplyBytes (cfg : NetConfig) (smac : List UInt8) (sip : ℕ) : List UInt8 :=
  ethhdrBytes smac cfg.macAddr ethPArp ++
    (beBytes 2 arphrdEther ++ beBytes 2 ethPIp ++ [UInt8.ofNat ethAlen, 4] ++ beBytes 2 arpopReply) ++
    (cfg.macAddr ++ leBytes 4 cfg.hostIp ++ smac ++ leBytes 4 sip)

def arpReply (cfg : NetConfig) (st : NetState) (bs : List UInt8) : Except NetFault NetState := do
  let sip ← readAt bs (sizeofArphdr + ethAlen) 4
  let smac ← readAt bs sizeofArphdr ethAlen
  let cache ← arpCacheInsert st.arpCache (leNat sip) smac
  .ok { st with
    arpCache := cache
    submitted := st.submitted ++ [arpReplyBytes cfg smac (leNat sip)] }

/-- Nothing is trimmed from the packet. -/
def arpInput (cfg : NetConfig) (st : NetState) (bs : List UInt8) : Except NetFault NetState := do
  let op ← readAt bs 6 2
  let st := { st with inputs := st.inputs ++ [.arp bs] }
  if beNat op = arpopRequest then arpReply cfg st bs else .ok st

/-! ## UDP input -/

def socketLookupByFlow (sockets : List Socket) (localPort : ℕ) : Option ℕ :=
  (sockets.take maxSockets).findIdx? fun sk => sk.localPort == localPort

/-- `memcpy` of the whole packet to the start of the socket's buffer. -/
def socketInput (st : NetState) (idx : ℕ) (bs : List UInt8) : Except NetFault NetState :=
  if rxBufferSize < bs.length then .error .writeOutside
  else .ok { st with
    sockets := st.sockets.modify idx fun sk =>
      { sk with rxBuffer := bs ++ sk.rxBuffer.drop bs.length }
    inputs := st.inputs ++ [.datagram idx bs] }

def udpInput (st : NetState) (bs : List UInt8) : Except NetFault (NetState × List UInt8) := do
  let len ← readAt bs (sizeofIphdr + 4) 2
  let dest ← readAt bs (sizeofIphdr + 2) 2
  let _source ← readAt bs sizeofIphdr 2
  match socketLookupByFlow st.sockets (leNat dest) with
  | none => .error .assertion
  | some idx => do
      let st ← socketInput st idx bs
      let bs ← packetViewTrim bs (sizeofIphdr + beNat len)
      .ok (st, bs)

def ipIsFragment (fragOff : ℕ) : Bool := fragOff &&& ipMf != 0 || fragOff &&& ipOffmask != 0

/-- The datagram is dropped; the packet stays where it is. -/
def ipDropped (bs : List UInt8) : Bool :=
  bs.length < sizeofIphdr || beNat (fieldAt bs 2 2) < sizeofIphdr ||
    leNat (fieldAt bs 0 1) / 16 != 4 || ipIsFragment (beNat (fieldAt bs 6 2)) ||
    leNat (fieldAt bs 9 1) != ipprotoUdp

def ipInput (st : NetState) (bs : List UInt8) :
    Except NetFault (Bool × NetState × List UInt8) :=
  if ipDropped bs then .ok (false, st, bs)
  else do
    let (st, bs) ← udpInput st bs
    .ok (true, st, bs)

/-! ## Packets -/

/-- `ethh->h_proto` in host order. -/
def ethProto (bs : List UInt8) : ℕ := beNat (fieldAt bs 12 2)

def netInputOne (cfg : NetConfig) (st : NetState) (bs : List UInt8) :
    Except NetFault (Bool × NetState × List UInt8) :=
  if bs.length < sizeofEthhdr then .ok (false, st, [])
  else
    let body := bs.drop sizeofEthhdr
    if ethProto bs = ethPIp then ipInput st body
    else if ethProto bs = ethPArp then do
      let st ← arpInput cfg st body
      .ok (false, st, body)
    else .ok (false, st, [])

/-- At most `fuel` rounds of the loop of `net_input`; each takes at least one byte. -/
def netInputLoop (cfg : NetConfig) : ℕ → NetState → List UInt8 → Except NetFault (Bool × NetState)
  | _, st, [] => .ok (false, st)
  | 0, st, _ => .ok (false, st)
  | fuel + 1, st, b :: bs => do
      let (one, st, rest) ← netInputOne cfg st (b :: bs)
      let (ret, st) ← netInputLoop cfg fuel st rest
      .ok (one || ret, st)

/-- `net_input`; the buffer goes back with `io_complete` in any case. -/
def netInput (cfg : NetConfig) (st : NetState) (bs : List UInt8) :
    Except NetFault (Bool × NetState) := netInputLoop cfg bs.length st bs

/-! ## Sockets -/

/-- Before the first call of `socket`. -/
def NetState.start : NetState where
  sockets := List.replicate maxSockets ⟨0, List.replicate rxBufferSize 0⟩
  arpCache := List.replicate arpCacheSize ⟨0, List.replicate ethAlen 0⟩
  submitted := []
  inputs := []

/-- `socket_bind` of the socket of that index. -/
def socketBind (st : NetState) (idx port : ℕ) : NetState :=
  { st with sockets := st.sockets.modify idx fun sk => { sk with localPort := port } }

end Manticore
