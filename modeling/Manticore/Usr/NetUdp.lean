import Manticore.Base.Word
import Manticore.Usr.NetInput

/-!
# UDP output, and the way back

`udp_sendto` and `udp_recvfrom` of `usr/liblinux/src/internal/ip.c`.  A frame that one stack
builds is taken by another: it passes every test of the input path, and the payload, the
sender's address and its port come out as they went in.
-/

namespace Manticore

/-! ## Checksums -/

def checksumAdd : ℕ → List UInt8 → ℕ
  | sum, a :: b :: c :: d :: rest => checksumAdd ((sum + leNat [a, b, c, d]) % 2 ^ 64) rest
  | sum, [a, b, c] => (sum + leNat [a, b] + leNat [c]) % 2 ^ 64
  | sum, [a, b] => (sum + leNat [a, b]) % 2 ^ 64
  | sum, [a] => (sum + leNat [a]) % 2 ^ 64
  | sum, [] => sum

/-- The loop of `checksum_finalize`: each round makes the sum smaller. -/
def checksumFold (sum : ℕ) : ℕ :=
  if 2 ^ 16 ≤ sum then checksumFold (sum % 2 ^ 16 + sum / 2 ^ 16) else sum
termination_by sum
decreasing_by omega

def checksumFinalize (sum : ℕ) : ℕ := 2 ^ 16 - 1 - checksumFold sum

def ipv4Checksum (bs : List UInt8) : ℕ := checksumFinalize (checksumAdd 0 bs)

/-- `htons`. -/
def htons (v : ℕ) : ℕ := leNat (beBytes 2 v)

def udpChecksum (bs : List UInt8) (len destIp srcIp : ℕ) : ℕ :=
  let sum := checksumAdd 0 bs
  let sum := sum + srcIp % 2 ^ 16 + srcIp / 2 ^ 16
  let sum := sum + destIp % 2 ^ 16 + destIp / 2 ^ 16
  checksumFinalize ((sum + htons ipprotoUdp + htons len) % 2 ^ 64)

/-! ## Output -/

/-- `packet_buf_reserve` for `bytes` and writing them there. -/
def packetBufAppend (pk bytes : List UInt8) : Except NetFault (List UInt8) :=
  if pk.length + bytes.length < txBufSize then .ok (pk ++ bytes) else .error .assertion

def iphdrBytes (totLen proto destIp srcIp : ℕ) : List UInt8 :=
  [0x45, 0] ++ beBytes 2 totLen ++ [0, 0] ++ beBytes 2 ipDf ++ [64, UInt8.ofNat proto] ++ [0, 0] ++
    leBytes 4 srcIp ++ leBytes 4 destIp

def udphdrBytes (len dest source : ℕ) : List UInt8 :=
  leBytes 2 source ++ leBytes 2 dest ++ beBytes 2 len ++ [0, 0]

/-- Offsets of the headers and of their checksums in the frame. -/
def iphdrAt : ℕ := sizeofEthhdr
def udphdrAt : ℕ := sizeofEthhdr + sizeofIphdr
def ipCheckAt : ℕ := iphdrAt + 10
def udpCheckAt : ℕ := udphdrAt + 6

/-- The return value, `-1` for a wrong `addrlen`, and what was submitted. -/
def udpSendto (cfg : NetConfig) (st : NetState) (localPort : ℕ) (payload : List UInt8)
    (destIp destPort addrlen : ℕ) : Except NetFault (ℤ × NetState) :=
  if addrlen ≠ sizeofSockaddrIn then .ok (-1, st)
  else
    match arpCacheLookup st.arpCache destIp with
    | none => .error .assertion
    | some destArp => do
        let udpLen := (sizeofUdphdr + payload.length) % 2 ^ 16
        let ipLen := (sizeofIphdr + udpLen) % 2 ^ 16
        let pk ← packetBufAppend [] (ethhdrBytes destArp cfg.macAddr ethPIp)
        let pk ← packetBufAppend pk (iphdrBytes ipLen ipprotoUdp destIp cfg.hostIp)
        let pk ← packetBufAppend pk (udphdrBytes udpLen destPort localPort)
        let pk ← packetBufAppend pk payload
        let pk := setAt pk ipCheckAt (leBytes 2 (ipv4Checksum (fieldAt pk iphdrAt sizeofIphdr)))
        let pk := setAt pk udpCheckAt
          (leBytes 2 (udpChecksum (fieldAt pk udphdrAt udpLen) udpLen destIp cfg.hostIp))
        .ok (payload.length, { st with submitted := st.submitted ++ [pk] })

/-- What `udp_recvfrom` returns, and what it stores in `buf`, `src_addr` and `addrlen`. -/
structure Received where
  nr : ℕ
  data : List UInt8
  srcAddr : ℕ
  srcPort : ℕ
  addrlen : ℕ
deriving DecidableEq, Repr

/-- `none` for `-1`. The length field is not compared with what the buffer holds. -/
def udpRecvfrom (sk : Socket) (len addrlen : ℕ) : Except NetFault (Option Received) :=
  let udpLen := beNat (fieldAt sk.rxBuffer (sizeofIphdr + 4) 2)
  let dataLen := sub64 udpLen sizeofUdphdr
  if addrlen < sizeofSockaddrIn then .ok none
  else do
    let nr := min dataLen len
    let data ← readAt sk.rxBuffer (sizeofIphdr + sizeofUdphdr) nr
    .ok (some {
      nr
      data
      srcAddr := leNat (fieldAt sk.rxBuffer 12 4)
      srcPort := leNat (fieldAt sk.rxBuffer sizeofIphdr 2)
      addrlen := sizeofSockaddrIn })

/-! ## The frame -/

/-- The IPv4 packet of the frame, with the checksums `c₁ c₂` and `d₁ d₂`. -/
def udpPacket (payload : List UInt8) (destIp srcIp destPort localPort : ℕ)
    (c₁ c₂ d₁ d₂ : UInt8) : List UInt8 :=
  [0x45, 0] ++ beBytes 2 (sizeofIphdr + (sizeofUdphdr + payload.length)) ++ [0, 0] ++
    beBytes 2 ipDf ++ [64, UInt8.ofNat ipprotoUdp] ++ [c₁, c₂] ++ leBytes 4 srcIp ++
    leBytes 4 destIp ++ (leBytes 2 localPort ++ leBytes 2 destPort ++
      beBytes 2 (sizeofUdphdr + payload.length) ++ [d₁, d₂]) ++ payload

theorem exists_six {bs : List UInt8} (h : bs.length = ethAlen) :
    ∃ a b c d e f, bs = [a, b, c, d, e, f] := by
  match bs, h with
  | [a, b, c, d, e, f], _ => exact ⟨a, b, c, d, e, f, rfl⟩

theorem packetBufAppend_ok (pk bytes : List UInt8) (h : pk.length + bytes.length < txBufSize) :
    packetBufAppend pk bytes = .ok (pk ++ bytes) := if_pos h

section packet

variable (payload : List UInt8) (destIp srcIp destPort localPort : ℕ) (c₁ c₂ d₁ d₂ : UInt8)

theorem length_udpPacket :
    (udpPacket payload destIp srcIp destPort localPort c₁ c₂ d₁ d₂).length =
      28 + payload.length := by
  rw [udpPacket, List.length_append, Nat.add_right_cancel_iff]
  rfl

theorem setAt_checksums_eq {dest source : List UInt8} (hdest : dest.length = ethAlen)
    (hsource : source.length = ethAlen) (c d : ℕ) :
    setAt (setAt (ethhdrBytes dest source ethPIp ++
        iphdrBytes (sizeofIphdr + (sizeofUdphdr + payload.length)) ipprotoUdp destIp srcIp ++
        udphdrBytes (sizeofUdphdr + payload.length) destPort localPort ++ payload)
      ipCheckAt (leBytes 2 c)) udpCheckAt (leBytes 2 d) =
    ethhdrBytes dest source ethPIp ++
      udpPacket payload destIp srcIp destPort localPort (UInt8.ofNat c) (UInt8.ofNat (c / 256))
        (UInt8.ofNat d) (UInt8.ofNat (d / 256)) := by
  have hc : leBytes 2 c = [UInt8.ofNat c, UInt8.ofNat (c / 256)] := rfl
  have hd : leBytes 2 d = [UInt8.ofNat d, UInt8.ofNat (d / 256)] := rfl
  have heth : (ethhdrBytes dest source ethPIp).length = sizeofEthhdr := by
    simp [ethhdrBytes, hdest, hsource, ethAlen, sizeofEthhdr]
  generalize ethhdrBytes dest source ethPIp = eth at heth
  simp only [iphdrBytes, udphdrBytes, udpPacket]
  generalize sizeofUdphdr + payload.length = udpLen
  -- the IPv4 checksum lies behind ten bytes of its header
  have hip : ∀ rest : List UInt8,
      setAt ((eth ++ ([0x45, 0] ++ (beBytes 2 (sizeofIphdr + udpLen) ++ ([0, 0] ++
        (beBytes 2 ipDf ++ [64, UInt8.ofNat ipprotoUdp]))))) ++ ([0, 0] ++ rest)) ipCheckAt
        (leBytes 2 c) =
      (eth ++ ([0x45, 0] ++ (beBytes 2 (sizeofIphdr + udpLen) ++ ([0, 0] ++
        (beBytes 2 ipDf ++ [64, UInt8.ofNat ipprotoUdp]))))) ++ (leBytes 2 c ++ rest) :=
    fun rest => setAt_append (by simp [heth, ipCheckAt, iphdrAt]) rfl
  -- and the UDP checksum behind the IPv4 header and six bytes of its own
  have hudp : setAt ((eth ++ ([0x45, 0] ++ (beBytes 2 (sizeofIphdr + udpLen) ++ ([0, 0] ++
        (beBytes 2 ipDf ++ ([64, UInt8.ofNat ipprotoUdp] ++ (leBytes 2 c ++ (leBytes 4 srcIp ++
        (leBytes 4 destIp ++ (leBytes 2 localPort ++ (leBytes 2 destPort ++
        beBytes 2 udpLen))))))))))) ++ ([0, 0] ++ payload)) udpCheckAt (leBytes 2 d) =
      (eth ++ ([0x45, 0] ++ (beBytes 2 (sizeofIphdr + udpLen) ++ ([0, 0] ++
        (beBytes 2 ipDf ++ ([64, UInt8.ofNat ipprotoUdp] ++ (leBytes 2 c ++ (leBytes 4 srcIp ++
        (leBytes 4 destIp ++ (leBytes 2 localPort ++ (leBytes 2 destPort ++
        beBytes 2 udpLen))))))))))) ++ (leBytes 2 d ++ payload) :=
    setAt_append (by simp [heth, udpCheckAt, udphdrAt, sizeofIphdr]) rfl
  simp only [List.append_assoc] at hip hudp ⊢
  rw [hip, hudp, hc, hd]

theorem fieldAt_headers {dest source : List UInt8} (hdest : dest.length = ethAlen)
    (hsource : source.length = ethAlen) (totLen udpLen c : ℕ) :
    let pk := ethhdrBytes dest source ethPIp ++ iphdrBytes totLen ipprotoUdp destIp srcIp ++
      udphdrBytes udpLen destPort localPort ++ payload
    fieldAt pk iphdrAt sizeofIphdr = iphdrBytes totLen ipprotoUdp destIp srcIp ∧
      fieldAt (setAt pk ipCheckAt (leBytes 2 c)) udphdrAt (sizeofUdphdr + payload.length) =
        udphdrBytes udpLen destPort localPort ++ payload := by
  intro pk
  obtain ⟨a₁, a₂, a₃, a₄, a₅, a₆, rfl⟩ := exists_six hdest
  obtain ⟨b₁, b₂, b₃, b₄, b₅, b₆, rfl⟩ := exists_six hsource
  constructor
  · rfl
  · have hdrop : (setAt pk ipCheckAt (leBytes 2 c)).drop udphdrAt =
        udphdrBytes udpLen destPort localPort ++ payload := rfl
    rw [fieldAt, hdrop, List.take_of_length_le]
    rw [List.length_append]
    rfl

theorem ipDropped_udpPacket (hlen : payload.length ≤ 1472) :
    ipDropped (udpPacket payload destIp srcIp destPort localPort c₁ c₂ d₁ d₂) = false := by
  -- the header fields are literal bytes, so each field read is a computation
  have htot : fieldAt (udpPacket payload destIp srcIp destPort localPort c₁ c₂ d₁ d₂) 2 2 =
      beBytes 2 (sizeofIphdr + (sizeofUdphdr + payload.length)) := rfl
  have hver : fieldAt (udpPacket payload destIp srcIp destPort localPort c₁ c₂ d₁ d₂) 0 1 =
      [0x45] := rfl
  have hfrag : fieldAt (udpPacket payload destIp srcIp destPort localPort c₁ c₂ d₁ d₂) 6 2 =
      beBytes 2 ipDf := rfl
  have hproto : fieldAt (udpPacket payload destIp srcIp destPort localPort c₁ c₂ d₁ d₂) 9 1 =
      [UInt8.ofNat ipprotoUdp] := rfl
  have hlong : sizeofIphdr ≤ 28 + payload.length := by simp only [sizeofIphdr]; omega
  have hip : sizeofIphdr ≤ (sizeofIphdr + (sizeofUdphdr + payload.length)) % 256 ^ 2 := by
    simp only [sizeofIphdr, sizeofUdphdr]
    omega
  rw [ipDropped, htot, hver, hfrag, hproto, length_udpPacket, beNat_beBytes]
  simp only [not_lt.mpr hlong, not_lt.mpr hip, decide_false, Bool.false_or]
  decide

theorem udpPacket_dest (hport : destPort < 2 ^ 16) :
    leNat (fieldAt (udpPacket payload destIp srcIp destPort localPort c₁ c₂ d₁ d₂)
      (sizeofIphdr + 2) 2) = destPort := by
  have h : fieldAt (udpPacket payload destIp srcIp destPort localPort c₁ c₂ d₁ d₂)
      (sizeofIphdr + 2) 2 = leBytes 2 destPort := rfl
  rw [h, leNat_leBytes]
  omega

theorem udpPacket_len (hlen : payload.length ≤ 1472) (tail : List UInt8) :
    beNat (fieldAt (udpPacket payload destIp srcIp destPort localPort c₁ c₂ d₁ d₂ ++ tail)
      (sizeofIphdr + 4) 2) = sizeofUdphdr + payload.length := by
  have h : fieldAt (udpPacket payload destIp srcIp destPort localPort c₁ c₂ d₁ d₂ ++ tail)
      (sizeofIphdr + 4) 2 = beBytes 2 (sizeofUdphdr + payload.length) := rfl
  rw [h, beNat_beBytes]
  simp only [sizeofUdphdr]
  omega

theorem udpRecvfrom_udpPacket {sk : Socket} {tail : List UInt8} {len addrlen : ℕ}
    (hrx : sk.rxBuffer = udpPacket payload destIp srcIp destPort localPort c₁ c₂ d₁ d₂ ++ tail)
    (hlen : payload.length ≤ 1472) (hip : srcIp < 2 ^ 32) (hport : localPort < 2 ^ 16)
    (haddrlen : sizeofSockaddrIn ≤ addrlen) :
    udpRecvfrom sk len addrlen = .ok (some ⟨min len payload.length,
      payload.take (min len payload.length), srcIp, localPort, sizeofSockaddrIn⟩) := by
  have hdata : fieldAt sk.rxBuffer (sizeofIphdr + sizeofUdphdr) (min len payload.length) =
      payload.take (min len payload.length) := by
    have h : sk.rxBuffer.drop (sizeofIphdr + sizeofUdphdr) = payload ++ tail := by rw [hrx]; rfl
    rw [fieldAt, h, List.take_append_of_le_length (Nat.min_le_right _ _)]
  have hsaddr : leNat (fieldAt sk.rxBuffer 12 4) = srcIp := by
    have h : fieldAt sk.rxBuffer 12 4 = leBytes 4 srcIp := by rw [hrx]; rfl
    rw [h, leNat_leBytes]
    omega
  have hsource : leNat (fieldAt sk.rxBuffer sizeofIphdr 2) = localPort := by
    have h : fieldAt sk.rxBuffer sizeofIphdr 2 = leBytes 2 localPort := by rw [hrx]; rfl
    rw [h, leNat_leBytes]
    omega
  have hudp : beNat (fieldAt sk.rxBuffer (sizeofIphdr + 4) 2) =
      sizeofUdphdr + payload.length := by
    rw [hrx]
    exact udpPacket_len payload destIp srcIp destPort localPort c₁ c₂ d₁ d₂ hlen tail
  have hnr : min (sub64 (sizeofUdphdr + payload.length) sizeofUdphdr) len =
      min len payload.length := by
    have hlt : sizeofUdphdr + payload.length < 2 ^ 64 := by
      simp only [sizeofUdphdr]
      omega
    rw [sub64_of_le (Nat.le_add_right _ _) hlt, Nat.add_sub_cancel_left, Nat.min_comm]
  have hinside : sizeofIphdr + sizeofUdphdr + min len payload.length ≤ sk.rxBuffer.length := by
    rw [hrx, List.length_append, length_udpPacket]
    simp only [sizeofIphdr, sizeofUdphdr]
    omega
  simp only [udpRecvfrom, hudp, hnr, readAt, if_neg (not_lt.mpr haddrlen), if_pos hinside, hdata,
    hsaddr, hsource]
  rfl

end packet

variable {cfg cfg₂ : NetConfig} {st st₂ : NetState} {payload destArp : List UInt8}
  {localPort destIp destPort srcIp : ℕ} {c₁ c₂ d₁ d₂ : UInt8}

variable (cfg destArp localPort destIp destPort) in
theorem length_udpHeaders (ipLen udpLen : ℕ) (hmac : cfg.macAddr.length = ethAlen)
    (hdest : destArp.length = ethAlen) :
    (ethhdrBytes destArp cfg.macAddr ethPIp ++ iphdrBytes ipLen ipprotoUdp destIp cfg.hostIp ++
      udphdrBytes udpLen destPort localPort).length = 42 := by
  have heth : (ethhdrBytes destArp cfg.macAddr ethPIp).length = sizeofEthhdr := by
    rw [ethhdrBytes, List.length_append, List.length_append, hdest, hmac, length_beBytes]
    rfl
  rw [List.length_append, List.length_append, heth]
  rfl

variable (payload localPort destPort) in
theorem udpSendto_headers (hmac : cfg.macAddr.length = ethAlen)
    (harp : arpCacheLookup st.arpCache destIp = some destArp) (hdest : destArp.length = ethAlen) :
    let udpLen := (sizeofUdphdr + payload.length) % 2 ^ 16
    let ipLen := (sizeofIphdr + udpLen) % 2 ^ 16
    udpSendto cfg st localPort payload destIp destPort sizeofSockaddrIn =
      (packetBufAppend (ethhdrBytes destArp cfg.macAddr ethPIp ++
        iphdrBytes ipLen ipprotoUdp destIp cfg.hostIp ++ udphdrBytes udpLen destPort localPort)
        payload).map fun pk =>
          let pk := setAt pk ipCheckAt (leBytes 2 (ipv4Checksum (fieldAt pk iphdrAt sizeofIphdr)))
          let pk := setAt pk udpCheckAt
            (leBytes 2 (udpChecksum (fieldAt pk udphdrAt udpLen) udpLen destIp cfg.hostIp))
          ((payload.length : ℤ), { st with submitted := st.submitted ++ [pk] }) := by
  simp only [udpSendto, harp]
  generalize (sizeofUdphdr + payload.length) % 2 ^ 16 = udpLen
  generalize (sizeofIphdr + udpLen) % 2 ^ 16 = ipLen
  have hlen := length_udpHeaders cfg destArp localPort destIp destPort ipLen udpLen hmac hdest
  rw [List.length_append, List.length_append] at hlen
  have htx : 42 < txBufSize := by decide
  rw [if_neg (not_not.mpr rfl), packetBufAppend_ok [] _ (by rw [List.length_nil]; omega),
    List.nil_append]
  simp only [bind, Except.bind]
  rw [packetBufAppend_ok _ _ (by omega)]
  simp only []
  rw [packetBufAppend_ok _ _ (by rw [List.length_append]; omega)]
  rfl

variable (localPort destPort) in
theorem udpSendto_eq (hlen : 42 + payload.length < txBufSize) (hmac : cfg.macAddr.length = ethAlen)
    (harp : arpCacheLookup st.arpCache destIp = some destArp) (hdest : destArp.length = ethAlen) :
    let udpLen := sizeofUdphdr + payload.length
    let c := ipv4Checksum (iphdrBytes (sizeofIphdr + udpLen) ipprotoUdp destIp cfg.hostIp)
    let d := udpChecksum (udphdrBytes udpLen destPort localPort ++ payload) udpLen destIp cfg.hostIp
    udpSendto cfg st localPort payload destIp destPort sizeofSockaddrIn =
      .ok (payload.length, { st with submitted := st.submitted ++ [ethhdrBytes destArp cfg.macAddr
        ethPIp ++ udpPacket payload destIp cfg.hostIp destPort localPort (UInt8.ofNat c)
          (UInt8.ofNat (c / 256)) (UInt8.ofNat d) (UInt8.ofNat (d / 256))] }) := by
  intro udpLen c d
  have hudp : (sizeofUdphdr + payload.length) % 2 ^ 16 = sizeofUdphdr + payload.length :=
    Nat.mod_eq_of_lt (by simp only [sizeofUdphdr, txBufSize] at *; omega)
  have hip : (sizeofIphdr + (sizeofUdphdr + payload.length)) % 2 ^ 16 =
      sizeofIphdr + (sizeofUdphdr + payload.length) :=
    Nat.mod_eq_of_lt (by simp only [sizeofIphdr, sizeofUdphdr, txBufSize] at *; omega)
  have hheaders := length_udpHeaders cfg destArp localPort destIp destPort
    (sizeofIphdr + (sizeofUdphdr + payload.length)) (sizeofUdphdr + payload.length) hmac hdest
  rw [udpSendto_headers payload localPort destPort hmac harp hdest]
  simp only [hudp, hip]
  rw [packetBufAppend_ok _ payload (by rw [hheaders]; exact hlen)]
  obtain ⟨hiphdr, hudphdr⟩ := fieldAt_headers payload destIp cfg.hostIp destPort localPort hdest hmac
    (sizeofIphdr + (sizeofUdphdr + payload.length)) (sizeofUdphdr + payload.length) c
  simp only [Except.map]
  rw [hiphdr, hudphdr, setAt_checksums_eq payload destIp cfg.hostIp destPort localPort hdest hmac]

variable (localPort destPort) in
theorem udpSendto_frame (hlen : 42 + payload.length < txBufSize) (hmac : cfg.macAddr.length = ethAlen)
    (harp : arpCacheLookup st.arpCache destIp = some destArp) (hdest : destArp.length = ethAlen) :
    ∃ c₁ c₂ d₁ d₂, udpSendto cfg st localPort payload destIp destPort sizeofSockaddrIn =
      .ok (payload.length, { st with submitted := st.submitted ++ [ethhdrBytes destArp cfg.macAddr
        ethPIp ++ udpPacket payload destIp cfg.hostIp destPort localPort c₁ c₂ d₁ d₂] }) :=
  ⟨_, _, _, _, udpSendto_eq localPort destPort hlen hmac harp hdest⟩

variable (cfg destIp srcIp localPort c₁ c₂ d₁ d₂) in
theorem netInputOne_udpFrame {idx : ℕ} {dest source : List UInt8} (hlen : payload.length ≤ 1472)
    (hdest : dest.length = ethAlen) (hsource : source.length = ethAlen) (hport : destPort < 2 ^ 16)
    (hidx : socketLookupByFlow st.sockets destPort = some idx) :
    netInputOne cfg st (ethhdrBytes dest source ethPIp ++
        udpPacket payload destIp srcIp destPort localPort c₁ c₂ d₁ d₂) =
      .ok (true, delivered st idx (udpPacket payload destIp srcIp destPort localPort c₁ c₂ d₁ d₂),
        []) := by
  obtain ⟨a₁, a₂, a₃, a₄, a₅, a₆, rfl⟩ := exists_six hdest
  obtain ⟨b₁, b₂, b₃, b₄, b₅, b₆, rfl⟩ := exists_six hsource
  have hlength := length_udpPacket payload destIp srcIp destPort localPort c₁ c₂ d₁ d₂
  have hkeep := ipDropped_udpPacket payload destIp srcIp destPort localPort c₁ c₂ d₁ d₂ hlen
  have hdst := udpPacket_dest payload destIp srcIp destPort localPort c₁ c₂ d₁ d₂ hport
  have hudp := udpPacket_len payload destIp srcIp destPort localPort c₁ c₂ d₁ d₂ hlen []
  rw [List.append_nil] at hudp
  generalize udpPacket payload destIp srcIp destPort localPort c₁ c₂ d₁ d₂ = bs at *
  have hproto : ethProto (ethhdrBytes [a₁, a₂, a₃, a₄, a₅, a₆] [b₁, b₂, b₃, b₄, b₅, b₆] ethPIp ++
      bs) = ethPIp := by
    have h : fieldAt (ethhdrBytes [a₁, a₂, a₃, a₄, a₅, a₆] [b₁, b₂, b₃, b₄, b₅, b₆] ethPIp ++
      bs) 12 2 = beBytes 2 ethPIp := rfl
    rw [ethProto, h]
    decide
  have hbody : (ethhdrBytes [a₁, a₂, a₃, a₄, a₅, a₆] [b₁, b₂, b₃, b₄, b₅, b₆] ethPIp ++ bs).drop
      sizeofEthhdr = bs := rfl
  have hlong : sizeofEthhdr ≤ (ethhdrBytes [a₁, a₂, a₃, a₄, a₅, a₆] [b₁, b₂, b₃, b₄, b₅, b₆]
      ethPIp ++ bs).length := by
    rw [List.length_append]
    exact Nat.le_add_right _ _
  have hinput := udpInput_of_lookup (by simp only [sizeofIphdr]; omega) (hdst ▸ hidx)
    (by simp only [rxBufferSize]; omega)
    (by rw [hudp, hlength]; simp only [sizeofIphdr, sizeofUdphdr]; omega)
  have hrest : bs.drop (sizeofIphdr + (sizeofUdphdr + payload.length)) = [] :=
    List.drop_eq_nil_of_le (by rw [hlength]; simp only [sizeofIphdr, sizeofUdphdr]; omega)
  simp only [netInputOne, if_neg (not_lt.mpr hlong), hproto, hbody, if_pos, ipInput, hkeep, hinput,
    hudp, hrest]
  rfl

/-- **UDP round trip.** The frame that `udp_sendto` submits, given to `net_input` of a stack
whose first socket of the destination port is `idx`, is used up, and the next `udp_recvfrom`
of that socket gives a prefix of the payload, the address and the port of the sender. -/
theorem udp_round_trip {idx : ℕ} (hlen : payload.length ≤ 1472)
    (hmac : cfg.macAddr.length = ethAlen) (hip : cfg.hostIp < 2 ^ 32)
    (hlocal : localPort < 2 ^ 16) (hport : destPort < 2 ^ 16)
    (harp : arpCacheLookup st.arpCache destIp = some destArp) (hdest : destArp.length = ethAlen)
    (hidx : socketLookupByFlow st₂.sockets destPort = some idx) :
    ∃ frame, udpSendto cfg st localPort payload destIp destPort sizeofSockaddrIn =
        .ok (payload.length, { st with submitted := st.submitted ++ [frame] }) ∧
      ∃ st₂', netInputOne cfg₂ st₂ frame = .ok (true, st₂', []) ∧
        netInput cfg₂ st₂ frame = .ok (true, st₂') ∧
        ∃ sk, st₂'.sockets[idx]? = some sk ∧
          ∀ len addrlen, sizeofSockaddrIn ≤ addrlen →
            udpRecvfrom sk len addrlen = .ok (some ⟨min len payload.length,
              payload.take (min len payload.length), cfg.hostIp, localPort, sizeofSockaddrIn⟩) := by
  have hfits : 42 + payload.length < txBufSize := by
    simp only [txBufSize]
    omega
  obtain ⟨c₁, c₂, d₁, d₂, hsend⟩ := udpSendto_frame localPort destPort hfits hmac harp hdest
  have hone := netInputOne_udpFrame cfg₂ localPort destIp cfg.hostIp c₁ c₂ d₁ d₂ hlen hdest hmac
    hport hidx
  refine ⟨_, hsend, _, hone, ?_, ?_⟩
  · have hne : ethhdrBytes destArp cfg.macAddr ethPIp ++
        udpPacket payload destIp cfg.hostIp destPort localPort c₁ c₂ d₁ d₂ ≠ [] := by
      simp [udpPacket]
    obtain ⟨n, hn⟩ := Nat.exists_eq_add_one.mpr (List.length_pos_iff.mpr hne)
    rw [netInput, hn, netInputLoop_step hne hone, netInputLoop]
    rfl
  · obtain ⟨hlt, -⟩ := List.findIdx?_eq_some_iff_getElem.mp hidx
    have hsk := List.getElem?_eq_getElem (lt_of_lt_of_le hlt (List.length_take_le' _ _))
    refine ⟨_, by rw [delivered, List.getElem?_modify_eq, hsk]; rfl, ?_⟩
    intro len addrlen haddrlen
    exact udpRecvfrom_udpPacket payload destIp cfg.hostIp destPort localPort c₁ c₂ d₁ d₂ rfl hlen
      hip hlocal haddrlen

/-- A stack that knows one peer. -/
def onePeer (destIp : ℕ) (destArp : List UInt8) : NetState :=
  { NetState.start with
    arpCache := NetState.start.arpCache.set (arpHash destIp) ⟨destIp, destArp⟩ }

/-- Three bytes to the first socket of a peer, which is bound to port 7. -/
theorem udp_round_trip_three_bytes :
    ∃ frame, udpSendto ⟨[0, 0, 0, 0, 0, 1], 0x0100000a⟩ (onePeer 0x0200000a [0, 0, 0, 0, 0, 2])
        0x0900 [1, 2, 3] 0x0200000a 0x0700 sizeofSockaddrIn =
        .ok (([1, 2, 3] : List UInt8).length,
          { onePeer 0x0200000a [0, 0, 0, 0, 0, 2] with
            submitted := (onePeer 0x0200000a [0, 0, 0, 0, 0, 2]).submitted ++ [frame] }) ∧
      ∃ st₂', netInputOne ⟨[0, 0, 0, 0, 0, 2], 0x0200000a⟩ (socketBind NetState.start 0 0x0700)
          frame = .ok (true, st₂', []) ∧
        netInput ⟨[0, 0, 0, 0, 0, 2], 0x0200000a⟩ (socketBind NetState.start 0 0x0700) frame =
          .ok (true, st₂') ∧
        ∃ sk, st₂'.sockets[0]? = some sk ∧
          ∀ len addrlen, sizeofSockaddrIn ≤ addrlen →
            udpRecvfrom sk len addrlen = .ok (some ⟨min len ([1, 2, 3] : List UInt8).length,
              ([1, 2, 3] : List UInt8).take (min len ([1, 2, 3] : List UInt8).length), 0x0100000a,
              0x0900, sizeofSockaddrIn⟩) :=
  udp_round_trip (by decide) rfl (by decide) (by decide) (by decide)
    (show arpCacheLookup (onePeer 0x0200000a [0, 0, 0, 0, 0, 2]).arpCache 0x0200000a =
      some [0, 0, 0, 0, 0, 2] by decide +kernel) rfl (by decide +kernel)

end Manticore
