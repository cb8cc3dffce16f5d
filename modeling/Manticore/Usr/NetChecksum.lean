import Manticore.Base.OnesComplement
import Manticore.Usr.NetTransmit

/-!
# Checksums

The checksum of `usr/liblinux/src/internal/ip.c` adds 32-bit words into 64 bits and folds the
carries back at the end.  It is the complement of the one's-complement sum of the 16-bit words,
so the headers of a frame that `udp_sendto` submits add up to `0xffff`.  The UDP field takes
whatever comes out, `0` included.
-/

namespace Manticore

/-! ## Accumulation and folding -/

theorem onesEq_leNat_four (a b c d : UInt8) :
    OnesEq 0xffff (leNat [a, b, c, d]) (leNat [a, b] + leNat [c, d]) := by
  have hsplit : leNat [a, b, c, d] = leNat [a, b] + 65536 * leNat [c, d] := by
    simp only [leNat]
    omega
  rw [hsplit]
  constructor
  · apply Nat.ModEq.symm
    apply (Nat.modEq_iff_dvd' (by omega)).mpr
    exact ⟨leNat [c, d], by omega⟩
  · omega

theorem onesEq_checksumAdd : ∀ (sum : ℕ) (bs : List UInt8),
    sum + 2 ^ 32 * (bs.length / 4) + 2 ^ 17 ≤ 2 ^ 64 →
      OnesEq 0xffff (checksumAdd sum bs) (sum + (words16 leNat bs).sum) ∧
        checksumAdd sum bs ≤ sum + 2 ^ 32 * (bs.length / 4) + 2 ^ 17
  | sum, a :: b :: c :: d :: rest, h => by
      have hword : leNat [a, b, c, d] < 2 ^ 32 := by
        have hlo := leNat_pair_le a b
        have hhi := leNat_pair_le c d
        have hsplit : leNat [a, b, c, d] = leNat [a, b] + 65536 * leNat [c, d] := by
          simp only [leNat]
          omega
        omega
      have hlen : (a :: b :: c :: d :: rest).length / 4 = rest.length / 4 + 1 := by
        simp only [List.length_cons]
        omega
      rw [hlen] at h ⊢
      have hsum : (sum + leNat [a, b, c, d]) % 2 ^ 64 = sum + leNat [a, b, c, d] :=
        Nat.mod_eq_of_lt (by omega)
      obtain ⟨ih, hle⟩ := onesEq_checksumAdd (sum + leNat [a, b, c, d]) rest (by omega)
      rw [checksumAdd, hsum]
      constructor
      · apply ih.trans
        simp only [words16, List.sum_cons]
        rw [← Nat.add_assoc (leNat [a, b]), ← Nat.add_assoc sum]
        exact ((OnesEq.refl _ sum).add (onesEq_leNat_four a b c d)).add (OnesEq.refl _ _)
      · omega
  | sum, [a, b, c], h => by
      have hlo := leNat_pair_le a b
      have hhi := leNat_pair_le c 0
      have hpad : leNat [c] = leNat [c, 0] := by simp [leNat]
      rw [checksumAdd, hpad, Nat.mod_eq_of_lt (by omega)]
      simp only [words16, List.sum_cons, List.sum_nil, Nat.add_zero, Nat.add_assoc]
      exact ⟨OnesEq.refl _ _, by omega⟩
  | sum, [a, b], h => by
      have hlo := leNat_pair_le a b
      rw [checksumAdd, Nat.mod_eq_of_lt (by omega)]
      simp only [words16, List.sum_cons, List.sum_nil, Nat.add_zero]
      exact ⟨OnesEq.refl _ _, by omega⟩
  | sum, [a], h => by
      have hlo := leNat_pair_le a 0
      have hpad : leNat [a] = leNat [a, 0] := by simp [leNat]
      rw [checksumAdd, hpad, Nat.mod_eq_of_lt (by omega)]
      simp only [words16, List.sum_cons, List.sum_nil, Nat.add_zero]
      exact ⟨OnesEq.refl _ _, by omega⟩
  | sum, [], _ => ⟨OnesEq.refl _ _, by simp only [checksumAdd]; omega⟩

/-- One round of the loop of `checksum_finalize`. -/
def checksumRound (sum : ℕ) : ℕ := sum % 2 ^ 16 + sum / 2 ^ 16

theorem checksumFold_spec (sum : ℕ) :
    OnesEq 0xffff (checksumFold sum) sum ∧ checksumFold sum ≤ 0xffff := by
  induction sum using checksumFold.induct with
  | case1 sum hbig ih =>
      rw [checksumFold, if_pos hbig]
      exact ⟨ih.1.trans (onesEq_carry 0xffff sum), ih.2⟩
  | case2 sum hsmall =>
      rw [checksumFold, if_neg hsmall]
      exact ⟨OnesEq.refl _ _, by omega⟩

theorem checksumFold_terminates (sum : ℕ) : ∃ n, checksumFold sum = checksumRound^[n] sum ∧
    checksumRound^[n] sum < 2 ^ 16 ∧ ∀ k < n, 2 ^ 16 ≤ checksumRound^[k] sum := by
  induction sum using checksumFold.induct with
  | case1 sum hbig ih =>
      obtain ⟨n, heq, hlt, hround⟩ := ih
      refine ⟨n + 1, ?_, hlt, ?_⟩
      · rw [checksumFold, if_pos hbig]
        exact heq
      · intro k hk
        cases k with
        | zero => exact hbig
        | succ k => exact hround k (Nat.lt_of_succ_lt_succ hk)
  | case2 sum hsmall =>
      refine ⟨0, ?_, Nat.lt_of_not_le hsmall, fun k hk => absurd hk (Nat.not_lt_zero k)⟩
      rw [checksumFold, if_neg hsmall]
      rfl

theorem checksumFinalize_eq {sum x : ℕ} (h : OnesEq 0xffff x sum) (hx : x ≤ 0xffff) :
    checksumFinalize sum = 0xffff - x := by
  obtain ⟨hfold, hle⟩ := checksumFold_spec sum
  rw [checksumFinalize, (hfold.trans h.symm).eq_of_le hle hx]
  rfl

/-- **The checksum is the standard one**: the complement of the one's-complement sum of the
little-endian 16-bit words, for every byte string on which the 64 bits do not overflow; and the
folding loop ends. -/
theorem ipv4_checksum_standard (bs : List UInt8) (hlen : bs.length < 2 ^ 34) :
    ipv4Checksum bs = 0xffff - onesSum 0xffff (words16 leNat bs) ∧
      ∀ sum, ∃ n, checksumFold sum = checksumRound^[n] sum ∧
        checksumRound^[n] sum < 2 ^ 16 ∧ ∀ k < n, 2 ^ 16 ≤ checksumRound^[k] sum := by
  refine ⟨?_, checksumFold_terminates⟩
  have hadd := (onesEq_checksumAdd 0 bs (by omega)).1
  rw [Nat.zero_add] at hadd
  apply checksumFinalize_eq
  · exact (onesEq_onesSum 0xffff _).trans hadd.symm
  · exact onesSum_le (le_of_mem_words16 leNat_pair_le)

/-- Seven bytes: one 32-bit word, one 16-bit word and one byte. -/
theorem ipv4_checksum_standard_seven :
    ipv4Checksum [0x45, 0, 0xff, 0xff, 1, 0x80, 7] =
      0xffff - onesSum 0xffff [0x45, 0xffff, 0x8001, 7] ∧
      ∃ n, checksumRound^[n] 0x8001ffff0045 < 2 ^ 16 := by
  obtain ⟨hsum, hfold⟩ := ipv4_checksum_standard [0x45, 0, 0xff, 0xff, 1, 0x80, 7] (by decide)
  obtain ⟨n, -, hlt, -⟩ := hfold 0x8001ffff0045
  exact ⟨hsum, n, hlt⟩

/-! ## The frames of `udp_sendto` -/

/-- The pseudo-header of a UDP datagram. -/
def udpPseudoHeader (srcIp destIp udpLen : ℕ) : List UInt8 :=
  leBytes 4 srcIp ++ leBytes 4 destIp ++ [0, UInt8.ofNat ipprotoUdp] ++ beBytes 2 udpLen

theorem sum_words16_leBytes_four {v : ℕ} (hv : v < 2 ^ 32) :
    (words16 leNat (leBytes 4 v)).sum = v % 2 ^ 16 + v / 2 ^ 16 := by
  have hbyte : ∀ w, (UInt8.ofNat w).toNat = w % 256 := fun w => UInt8.toNat_ofNat'
  simp only [leBytes, words16, leNat_pair, List.sum_cons, List.sum_nil, hbyte]
  omega

theorem sum_words16_udpPseudoHeader {srcIp destIp : ℕ} (hsrc : srcIp < 2 ^ 32)
    (hdst : destIp < 2 ^ 32) (udpLen : ℕ) :
    (words16 leNat (udpPseudoHeader srcIp destIp udpLen)).sum =
      srcIp % 2 ^ 16 + srcIp / 2 ^ 16 + (destIp % 2 ^ 16 + destIp / 2 ^ 16) + htons ipprotoUdp +
        htons udpLen := by
  have hproto : (words16 leNat [0, UInt8.ofNat ipprotoUdp]).sum = htons ipprotoUdp := rfl
  have hlen : (words16 leNat (beBytes 2 udpLen)).sum = htons udpLen := by
    show (words16 leNat [_, _]).sum = leNat [_, _]
    simp only [words16, List.sum_singleton]
  rw [udpPseudoHeader, words16_append _ (by simp), words16_append _ (by simp),
    words16_append _ (by simp), List.sum_append, List.sum_append, List.sum_append,
    sum_words16_leBytes_four hsrc, sum_words16_leBytes_four hdst, hproto, hlen]

theorem htons_le (v : ℕ) : htons v ≤ 0xffff := leNat_pair_le _ _

theorem udpChecksum_eq {bs : List UInt8} {len destIp srcIp x : ℕ} (hlen : bs.length < 2 ^ 32)
    (hdst : destIp < 2 ^ 32) (hsrc : srcIp < 2 ^ 32)
    (h : OnesEq 0xffff x (words16 leNat (udpPseudoHeader srcIp destIp len ++ bs)).sum)
    (hx : x ≤ 0xffff) : udpChecksum bs len destIp srcIp = 0xffff - x := by
  obtain ⟨hadd, hle⟩ := onesEq_checksumAdd 0 bs (by omega)
  have hproto := htons_le ipprotoUdp
  have hudp := htons_le len
  rw [words16_append _ (by simp [udpPseudoHeader]), List.sum_append,
    sum_words16_udpPseudoHeader hsrc hdst] at h
  rw [Nat.zero_add] at hadd
  unfold udpChecksum
  simp only []
  rw [Nat.mod_eq_of_lt (by omega)]
  apply checksumFinalize_eq _ hx
  apply h.trans
  have hsum := (OnesEq.refl 0xffff (srcIp % 2 ^ 16 + srcIp / 2 ^ 16 +
    (destIp % 2 ^ 16 + destIp / 2 ^ 16) + htons ipprotoUdp + htons len)).add hadd.symm
  rwa [show checksumAdd 0 bs + srcIp % 2 ^ 16 + srcIp / 2 ^ 16 + destIp % 2 ^ 16 +
    destIp / 2 ^ 16 + htons ipprotoUdp + htons len = srcIp % 2 ^ 16 + srcIp / 2 ^ 16 +
    (destIp % 2 ^ 16 + destIp / 2 ^ 16) + htons ipprotoUdp + htons len + checksumAdd 0 bs by omega]

theorem sum_words16_field {pre post : List UInt8} (hpre : 2 ∣ pre.length) (a b : UInt8) :
    (words16 leNat (pre ++ ([a, b] ++ post))).sum =
      (words16 leNat (pre ++ ([0, 0] ++ post))).sum + leNat [a, b] := by
  have hzero : leNat [0, 0] = 0 := rfl
  rw [words16_append _ hpre, words16_append _ hpre, List.sum_append, List.sum_append]
  simp only [List.cons_append, List.nil_append, words16, List.sum_cons, hzero]
  omega

theorem leNat_ofNat_pair {c : ℕ} (hc : c ≤ 0xffff) :
    leNat [UInt8.ofNat c, UInt8.ofNat (c / 256)] = c := by
  have hbyte : ∀ w, (UInt8.ofNat w).toNat = w % 256 := fun w => UInt8.toNat_ofNat'
  rw [leNat_pair, hbyte, hbyte]
  omega

theorem onesSum_words16_of_onesEq {bs : List UInt8}
    (h : OnesEq 0xffff (words16 leNat bs).sum 0xffff) {read : List UInt8 → ℕ}
    (hread : read = leNat ∨ read = beNat) : onesSum 0xffff (words16 read bs) = 0xffff := by
  have heq : OnesEq 0xffff (words16 read bs).sum 0xffff := by
    rcases hread with rfl | rfl
    · exact h
    · obtain ⟨hmod, hzero⟩ := sum_words16_beNat bs
      constructor
      · apply hmod.trans
        exact (h.modEq.mul_left 256).trans (by decide)
      · exact hzero.trans h.zero_iff
  apply ((onesEq_onesSum 0xffff _).trans heq).eq_of_le _ le_rfl
  apply onesSum_le
  rcases hread with rfl | rfl
  · exact le_of_mem_words16 leNat_pair_le
  · exact le_of_mem_words16 beNat_pair_le

theorem onesSum_with_checksum {pre post : List UInt8} {c : ℕ} (hpre : 2 ∣ pre.length)
    (hc : ∀ x, OnesEq 0xffff x (words16 leNat (pre ++ ([0, 0] ++ post))).sum → x ≤ 0xffff →
      c = 0xffff - x) {read : List UInt8 → ℕ} (hread : read = leNat ∨ read = beNat) :
    onesSum 0xffff (words16 read
      (pre ++ ([UInt8.ofNat c, UInt8.ofNat (c / 256)] ++ post))) = 0xffff := by
  apply onesSum_words16_of_onesEq _ hread
  have hle : onesSum 0xffff (words16 leNat (pre ++ ([0, 0] ++ post))) ≤ 0xffff :=
    onesSum_le (le_of_mem_words16 leNat_pair_le)
  have hsum := onesEq_onesSum 0xffff (words16 leNat (pre ++ ([0, 0] ++ post)))
  have hval := hc _ hsum hle
  rw [sum_words16_field hpre, leNat_ofNat_pair (by omega), hval]
  exact onesEq_complement (by decide) hsum hle

theorem udpFrame_headers {dest source : List UInt8} (payload : List UInt8)
    (destIp srcIp destPort localPort c d : ℕ) (hdest : dest.length = ethAlen)
    (hsource : source.length = ethAlen) :
    let frame := ethhdrBytes dest source ethPIp ++ udpPacket payload destIp srcIp destPort localPort
      (UInt8.ofNat c) (UInt8.ofNat (c / 256)) (UInt8.ofNat d) (UInt8.ofNat (d / 256))
    fieldAt frame iphdrAt sizeofIphdr =
        ([0x45, 0] ++ beBytes 2 (sizeofIphdr + (sizeofUdphdr + payload.length)) ++ [0, 0] ++
          beBytes 2 ipDf ++ [64, UInt8.ofNat ipprotoUdp]) ++
          ([UInt8.ofNat c, UInt8.ofNat (c / 256)] ++ (leBytes 4 srcIp ++ leBytes 4 destIp)) ∧
      frame.drop udphdrAt =
        (leBytes 2 localPort ++ leBytes 2 destPort ++ beBytes 2 (sizeofUdphdr + payload.length)) ++
          ([UInt8.ofNat d, UInt8.ofNat (d / 256)] ++ payload) := by
  intro frame
  obtain ⟨a₁, a₂, a₃, a₄, a₅, a₆, rfl⟩ := exists_six hdest
  obtain ⟨b₁, b₂, b₃, b₄, b₅, b₆, rfl⟩ := exists_six hsource
  exact ⟨rfl, rfl⟩

section frame

variable {cfg : NetConfig} {st : NetState} {payload destArp : List UInt8}
  {localPort destIp destPort : ℕ}

/-- **Transmitted checksums verify**: in the frame that `udp_sendto` submits, the words of the
IPv4 header, and those of pseudo-header, UDP header and payload, add up to `0xffff`, whichever
way round the words are read. -/
theorem udp_sendto_checksums_verify (hlen : payload.length ≤ 4053)
    (hmac : cfg.macAddr.length = ethAlen) (hhost : cfg.hostIp < 2 ^ 32) (hip : destIp < 2 ^ 32)
    (harp : arpCacheLookup st.arpCache destIp = some destArp) (hdest : destArp.length = ethAlen)
    (localPort destPort : ℕ) :
    ∃ frame, udpSendto cfg st localPort payload destIp destPort sizeofSockaddrIn =
        .ok (payload.length, { st with submitted := st.submitted ++ [frame] }) ∧
      ∀ read, read = leNat ∨ read = beNat →
        onesSum 0xffff (words16 read (fieldAt frame iphdrAt sizeofIphdr)) = 0xffff ∧
        onesSum 0xffff (words16 read (udpPseudoHeader cfg.hostIp destIp
          (sizeofUdphdr + payload.length) ++ frame.drop udphdrAt)) = 0xffff := by
  have hfits : 42 + payload.length < txBufSize := by
    simp only [txBufSize]
    omega
  refine ⟨_, udpSendto_eq localPort destPort hfits hmac harp hdest, ?_⟩
  intro read hread
  obtain ⟨hiphdr, hudphdr⟩ := udpFrame_headers payload destIp cfg.hostIp destPort localPort
    (ipv4Checksum (iphdrBytes (sizeofIphdr + (sizeofUdphdr + payload.length)) ipprotoUdp destIp
      cfg.hostIp))
    (udpChecksum (udphdrBytes (sizeofUdphdr + payload.length) destPort localPort ++ payload)
      (sizeofUdphdr + payload.length) destIp cfg.hostIp) hdest hmac
  rw [hiphdr, hudphdr, ← List.append_assoc (udpPseudoHeader _ _ _)]
  constructor
  · apply onesSum_with_checksum (by simp) _ hread
    intro x hx hle
    apply checksumFinalize_eq _ hle
    have hiph : (iphdrBytes (sizeofIphdr + (sizeofUdphdr + payload.length)) ipprotoUdp destIp
      cfg.hostIp).length = 20 := rfl
    have hadd := (onesEq_checksumAdd 0 (iphdrBytes (sizeofIphdr + (sizeofUdphdr + payload.length))
      ipprotoUdp destIp cfg.hostIp) (by rw [hiph]; decide)).1
    rw [Nat.zero_add] at hadd
    exact hx.trans hadd.symm
  · apply onesSum_with_checksum (by simp [udpPseudoHeader]) _ hread
    intro x hx hle
    rw [List.append_assoc] at hx
    apply udpChecksum_eq _ hip hhost hx hle
    simp only [List.length_append, length_leBytes, length_beBytes, List.length_cons, List.length_nil]
    omega

end frame

theorem onePeer_lookup : arpCacheLookup (onePeer 0x0200000a [0, 0, 0, 0, 0, 2]).arpCache 0x0200000a =
    some [0, 0, 0, 0, 0, 2] := by decide +kernel

theorem onePeer_mac : (NetConfig.mk [0, 0, 0, 0, 0, 1] 0x0100000a).macAddr.length = ethAlen := rfl

/-- Three bytes to a peer. -/
theorem udp_sendto_checksums_verify_three :
    ∃ frame, udpSendto ⟨[0, 0, 0, 0, 0, 1], 0x0100000a⟩ (onePeer 0x0200000a [0, 0, 0, 0, 0, 2])
        0x0900 [1, 2, 3] 0x0200000a 0x0700 sizeofSockaddrIn =
        .ok (([1, 2, 3] : List UInt8).length,
          { onePeer 0x0200000a [0, 0, 0, 0, 0, 2] with
            submitted := (onePeer 0x0200000a [0, 0, 0, 0, 0, 2]).submitted ++ [frame] }) ∧
      ∀ read, read = leNat ∨ read = beNat →
        onesSum 0xffff (words16 read (fieldAt frame iphdrAt sizeofIphdr)) = 0xffff ∧
        onesSum 0xffff (words16 read (udpPseudoHeader 0x0100000a 0x0200000a
          (sizeofUdphdr + ([1, 2, 3] : List UInt8).length) ++ frame.drop udphdrAt)) = 0xffff :=
  udp_sendto_checksums_verify (by decide) onePeer_mac (by decide) (by decide) onePeer_lookup rfl
    0x0900 0x0700

/-! ## A checksum of zero -/

/-- What `udp_checksum` is computed over. -/
def udpCovered (srcIp destIp destPort localPort : ℕ) (payload : List UInt8) : List UInt8 :=
  udpPseudoHeader srcIp destIp (sizeofUdphdr + payload.length) ++
    (udphdrBytes (sizeofUdphdr + payload.length) destPort localPort ++ payload)

section zero

variable {payload : List UInt8} {localPort destIp destPort srcIp : ℕ}

theorem sum_udpCovered_ne_zero (payload : List UInt8) (localPort destPort : ℕ)
    (hsrc : srcIp < 2 ^ 32) (hdst : destIp < 2 ^ 32) :
    (words16 leNat (udpCovered srcIp destIp destPort localPort payload)).sum ≠ 0 := by
  have hproto : htons ipprotoUdp = 0x1100 := by decide
  rw [udpCovered, words16_append _ (by simp [udpPseudoHeader]), List.sum_append,
    sum_words16_udpPseudoHeader hsrc hdst]
  omega

theorem udpChecksum_eq_zero_iff (hlen : payload.length ≤ 4053) (hsrc : srcIp < 2 ^ 32)
    (hdst : destIp < 2 ^ 32) :
    udpChecksum (udphdrBytes (sizeofUdphdr + payload.length) destPort localPort ++ payload)
        (sizeofUdphdr + payload.length) destIp srcIp = 0 ↔
      0xffff ∣ (words16 leNat (udpCovered srcIp destIp destPort localPort payload)).sum := by
  have hle : onesSum 0xffff (words16 leNat
      (udpCovered srcIp destIp destPort localPort payload)) ≤ 0xffff :=
    onesSum_le (le_of_mem_words16 leNat_pair_le)
  have hsum := onesEq_onesSum 0xffff (words16 leNat
    (udpCovered srcIp destIp destPort localPort payload))
  have hne := sum_udpCovered_ne_zero payload localPort destPort hsrc hdst
  have hudph : (udphdrBytes (sizeofUdphdr + payload.length) destPort localPort).length = 8 := rfl
  rw [udpChecksum_eq (by rw [List.length_append]; omega) hdst hsrc hsum hle]
  constructor
  · intro hzero
    have hmax : onesSum 0xffff (words16 leNat
        (udpCovered srcIp destIp destPort localPort payload)) = 0xffff := by omega
    rw [hmax] at hsum
    exact (Nat.modEq_zero_iff_dvd).mp (hsum.modEq.symm.trans (by decide))
  · intro hdvd
    have heq : OnesEq 0xffff (words16 leNat
        (udpCovered srcIp destIp destPort localPort payload)).sum 0xffff := by
      constructor
      · exact (Nat.modEq_zero_iff_dvd.mpr hdvd).trans (by decide)
      · simp only [hne, false_iff]
        decide
    rw [(hsum.trans heq).eq_of_le hle le_rfl]

end zero

theorem udpChecksum_le (bs : List UInt8) (len destIp srcIp : ℕ) :
    udpChecksum bs len destIp srcIp ≤ 0xffff := Nat.sub_le _ _

theorem udpFrame_check {dest source : List UInt8} (payload : List UInt8)
    (destIp srcIp destPort localPort c d : ℕ) (hdest : dest.length = ethAlen)
    (hsource : source.length = ethAlen) :
    fieldAt (ethhdrBytes dest source ethPIp ++ udpPacket payload destIp srcIp destPort localPort
      (UInt8.ofNat c) (UInt8.ofNat (c / 256)) (UInt8.ofNat d) (UInt8.ofNat (d / 256))) udpCheckAt 2 =
      [UInt8.ofNat d, UInt8.ofNat (d / 256)] := by
  obtain ⟨a₁, a₂, a₃, a₄, a₅, a₆, rfl⟩ := exists_six hdest
  obtain ⟨b₁, b₂, b₃, b₄, b₅, b₆, rfl⟩ := exists_six hsource
  rfl

/-- **When a datagram is sent as unchecksummed.** A call that returns has submitted one frame,
and the UDP check field of it is not zero exactly if the words that the checksum covers do not
add up to a multiple of `0xffff`. -/
theorem udp_sendto_check_ne_zero_iff {cfg : NetConfig} {st st' : NetState} {payload : List UInt8}
    {localPort destIp destPort : ℕ} {ret : ℤ} (hmac : cfg.macAddr.length = ethAlen)
    (hhost : cfg.hostIp < 2 ^ 32) (hip : destIp < 2 ^ 32)
    (harp : ∀ e ∈ st.arpCache, e.macAddr.length = ethAlen)
    (h : udpSendto cfg st localPort payload destIp destPort sizeofSockaddrIn = .ok (ret, st')) :
    ∃ frame, st' = { st with submitted := st.submitted ++ [frame] } ∧
      (leNat (fieldAt frame udpCheckAt 2) ≠ 0 ↔
        ¬ 0xffff ∣ (words16 leNat (udpCovered cfg.hostIp destIp destPort localPort payload)).sum) := by
  rcases hlookup : arpCacheLookup st.arpCache destIp with _ | destArp
  · simp only [udpSendto, hlookup, ne_eq, not_true_eq_false, if_false] at h
    cases h
  have hdest := length_of_arpCacheLookup harp hlookup
  -- a payload that does not fit does not return
  by_cases hlen : 42 + payload.length < txBufSize
  · have hsend := udpSendto_eq localPort destPort hlen hmac hlookup hdest
    rw [h] at hsend
    refine ⟨_, (Prod.mk.inj (Except.ok.inj hsend)).2, not_congr ?_⟩
    have hle : payload.length ≤ 4053 := by
      simp only [txBufSize] at hlen
      omega
    rw [udpFrame_check payload destIp cfg.hostIp destPort localPort _ _ hdest hmac,
      leNat_ofNat_pair (udpChecksum_le _ _ _ _)]
    exact udpChecksum_eq_zero_iff hle hhost hip
  · rw [udpSendto_too_long hlen hmac hlookup hdest] at h
    cases h

/-- Three bytes to a peer: the field is not zero. -/
theorem udp_sendto_check_ne_zero_three :
    ∃ ret st', udpSendto ⟨[0, 0, 0, 0, 0, 1], 0x0100000a⟩ (onePeer 0x0200000a [0, 0, 0, 0, 0, 2])
        0x0900 [1, 2, 3] 0x0200000a 0x0700 sizeofSockaddrIn = .ok (ret, st') ∧
      ∃ frame, st'.submitted = [frame] ∧ leNat (fieldAt frame udpCheckAt 2) ≠ 0 := by
  have hlen : 42 + ([1, 2, 3] : List UInt8).length < txBufSize := by decide
  have hsend := udpSendto_eq 0x0900 0x0700 hlen onePeer_mac onePeer_lookup rfl
  refine ⟨_, _, hsend, ?_⟩
  obtain ⟨frame, hst, hiff⟩ := udp_sendto_check_ne_zero_iff rfl (by decide) (by decide)
    (by decide +kernel) hsend
  refine ⟨frame, ?_, hiff.mpr (by decide)⟩
  rw [hst]
  rfl

/-- **A datagram marked as unchecksummed**: with the payload `eb c7` the sum is `0xffff`, and the
field is `0`. -/
theorem udp_sendto_check_zero :
    ∃ frame, udpSendto ⟨[0, 0, 0, 0, 0, 1], 0x0100000a⟩ (onePeer 0x0200000a [0, 0, 0, 0, 0, 2])
        0x0900 [0xeb, 0xc7] 0x0200000a 0x0700 sizeofSockaddrIn =
        .ok (2, { onePeer 0x0200000a [0, 0, 0, 0, 0, 2] with submitted := [frame] }) ∧
      leNat (fieldAt frame udpCheckAt 2) = 0 := by
  have hlen : 42 + ([0xeb, 0xc7] : List UInt8).length < txBufSize := by decide
  have hsend := udpSendto_eq 0x0900 0x0700 hlen onePeer_mac onePeer_lookup rfl
  refine ⟨_, hsend, ?_⟩
  rw [udpFrame_check _ _ _ _ _ _ _ rfl rfl, leNat_ofNat_pair (udpChecksum_le _ _ _ _)]
  exact (udpChecksum_eq_zero_iff (by decide) (by decide) (by decide)).mpr (by decide)

end Manticore
