import Manticore.Usr.NetTables

/-!
# The network stack on memory and on lists

The list model of the stack takes a packet as a list of bytes and its tables as lists, and stops at the
first access outside.  Here it is compared with the model on memory: on a packet that the list model
gets through, a round on memory does the same, for tables in memory that hold the same.

`submitted` of the list model has the frames, and on memory where they are: a frame is there when its
round is over, and until the next one is written.
-/

namespace Manticore

namespace NetView

open Epoll (PacketView)

/-- The packet is in memory that the stack does not write. -/
structure PacketApart (g : NetGlobals) (pk : PacketView) : Prop where
  le : pk.start ≤ pk.stop
  lt : pk.stop < 2 ^ 64
  apart : ∀ d ∈ g.tables ++ g.scratch, d.Apart ⟨pk.start, pk.stop - pk.start⟩

/-- A state of the stack in memory and one of the list model, with the same left of the packet. -/
structure Same (g : NetGlobals) (cfg : NetConfig) (s : NetMem) (pk : PacketView) (st : NetState)
    (bs : List UInt8) : Prop where
  tables : Represents g cfg s.mem st
  packet : PacketApart g pk
  bytes : bytesAt s.mem pk.start pk.len = bs

/-- What a round submits: nothing, or what is in `tx_buf` after it. -/
def Submits (g : NetGlobals) (s s' : NetMem) (st st' : NetState) : Prop :=
  (s'.submitted = s.submitted ∧ st'.submitted = st.submitted) ∨
  ∃ len, s'.submitted = s.submitted ++ [(g.txBuf, len)] ∧
    st'.submitted = st.submitted ++ [bytesAt s'.mem g.txBuf len]

variable {g : NetGlobals} {cfg : NetConfig} {m m' : Mem} {s : NetMem} {st st' : NetState}
  {pk : PacketView} {bs rest : List UInt8} {w : List Span} {a n o k : ℕ}

/-! ## Bytes -/

theorem readAt_bytesAt_eq_ok {bs : List UInt8} (h : readAt (bytesAt m a n) o k = .ok bs) :
    o + k ≤ n ∧ bs = bytesAt m (a + o) k := by
  rw [readAt, length_bytesAt] at h
  split at h
  case isTrue hle => exact ⟨hle, (Except.ok.inj h).symm.trans (fieldAt_bytesAt m a hle)⟩
  case isFalse => cases h

theorem load_eq_htons_iff {v : ℕ} (hv : v < 2 ^ 16) : load m a 2 = htons v ↔ ntohsAt m a = v := by
  have hbytes : bytesAt m a 2 = [m a, m (a + 1)] := rfl
  have hload : load m a 2 = (m a).toNat + 256 * (m (a + 1)).toNat := by
    simp [load_eq_leNat, hbytes, leNat]
  have hntohs : ntohsAt m a = (m (a + 1)).toNat + 256 * (m a).toNat := by
    simp [ntohsAt, hbytes, beNat, leNat]
  have hhtons : htons v = v / 256 + 256 * (v % 256) := by
    have hhigh : v / 256 % 256 = v / 256 := Nat.mod_eq_of_lt (by omega)
    simp [htons, beBytes, leBytes, leNat, hhigh]
  have hx : (m a).toNat < 256 := (m a).toNat_lt
  have hy : (m (a + 1)).toNat < 256 := (m (a + 1)).toNat_lt
  have hsplit := Nat.div_add_mod v 256
  have hlow := Nat.mod_lt v (show 0 < 256 by decide)
  rw [hload, hntohs, hhtons]
  constructor
  · intro heq
    have hlt : v / 256 < 256 := by omega
    have h1 : (m a).toNat = v / 256 := by omega
    omega
  · intro heq
    omega

/-! ## The view -/

namespace PacketApart

theorem len_eq (h : PacketApart g pk) : pk.len = pk.stop - pk.start := sub64_of_le h.le h.lt

theorem trim (h : PacketApart g pk) (hn : n ≤ pk.len) :
    packetViewTrim pk n = some ⟨pk.start + n, pk.stop⟩ ∧ PacketApart g ⟨pk.start + n, pk.stop⟩ := by
  have hlen := h.len_eq
  have hle := h.le
  have hlt := h.lt
  refine ⟨?_, by simp only; omega, hlt, fun d hd => ?_⟩
  · rw [packetViewTrim, if_pos hn, add64_of_lt (by omega)]
  · have hapart := h.apart d hd
    simp only [Span.Apart] at hapart ⊢
    omega

theorem bytes_trim (h : PacketApart g pk) (hn : n ≤ pk.len) (m : Mem) :
    bytesAt m (pk.start + n) (PacketView.len ⟨pk.start + n, pk.stop⟩) =
      (bytesAt m pk.start pk.len).drop n := by
  have hlen := (h.trim hn).2.len_eq
  rw [drop_bytesAt, hlen, h.len_eq]
  congr 1
  simp only
  omega

theorem bytes_kept (h : PacketApart g pk) (hw : WritesOnly w m m')
    (hsub : ∀ d ∈ w, d ∈ g.tables ++ g.scratch) :
    bytesAt m' pk.start pk.len = bytesAt m pk.start pk.len := by
  refine hw.bytesAt_eq (fun d hd => h.apart d (hsub d hd)) le_rfl ?_
  rw [h.len_eq]

theorem sender (h : PacketApart g pk) (hlen : sizeofArphdr + ethAlen + 4 ≤ pk.len) {d : Span}
    (hd : d ∈ g.tables ++ g.scratch) :
    d.Apart ⟨pk.start + sizeofArphdr, ethAlen⟩ ∧
      d.Apart ⟨pk.start + sizeofArphdr + ethAlen, 4⟩ := by
  have hapart := h.apart d hd
  have hview := h.len_eq
  simp only [Span.Apart, sizeofArphdr, ethAlen] at hapart hlen ⊢
  omega

end PacketApart

/-! ## ARP -/

theorem leBytes_htons (v : ℕ) : leBytes 2 (htons v) = beBytes 2 v := by
  have h := leBytes_leNat (beBytes 2 v)
  rwa [length_beBytes] at h

theorem htons_lt (v : ℕ) : htons v < 256 ^ 2 := by
  have h := leNat_lt (beBytes 2 v)
  rwa [length_beBytes] at h

theorem arpReplyBytes_eq (cfg : NetConfig) (smac : List UInt8) (sip : ℕ) :
    arpReplyBytes cfg smac sip =
      smac ++ cfg.macAddr ++ beBytes 2 ethPArp ++ beBytes 2 arphrdEther ++ beBytes 2 ethPIp ++
        leBytes 1 ethAlen ++ leBytes 1 4 ++ beBytes 2 arpopReply ++ cfg.macAddr ++
        leBytes 4 cfg.hostIp ++ smac ++ leBytes 4 sip := by
  simp [arpReplyBytes, ethhdrBytes, leBytes]

theorem length_arpReplyBytes {smac : List UInt8} {sip : ℕ} (hmac : cfg.macAddr.length = ethAlen)
    (hsmac : smac.length = ethAlen) :
    (arpReplyBytes cfg smac sip).length = sizeofEthhdr + sizeofArphdr + sizeofArpIp4 := by
  simp [arpReplyBytes_eq, hmac, hsmac, ethAlen, sizeofEthhdr, sizeofArphdr, sizeofArpIp4]

theorem arpReply_filled {arph : ℕ} (hg : g.Apart) (h : Represents g cfg m st)
    (hsmac : g.txSpan.Apart ⟨arph + sizeofArphdr, ethAlen⟩)
    (hsip : g.txSpan.Apart ⟨arph + sizeofArphdr + ethAlen, 4⟩)
    (hm : arpCacheInsert s.mem g.arpCache (load s.mem (arph + sizeofArphdr + ethAlen) 4)
      (arph + sizeofArphdr) = m) :
    FilledWith g.txSpan m (arpReply g s arph).mem
      (arpReplyBytes cfg (bytesAt m (arph + sizeofArphdr) ethAlen)
        (load m (arph + sizeofArphdr + ethAlen) 4)) := by
  have hconfig : ∀ e ∈ g.tables, g.txSpan.Apart e := hg.scratch _ (by simp [NetGlobals.scratch])
  have hmac : g.txSpan.Apart ⟨g.macAddr, ethAlen⟩ := hconfig g.macSpan (by simp [NetGlobals.tables])
  have hip : g.txSpan.Apart ⟨g.hostIp, 4⟩ := hconfig g.ipSpan (by simp [NetGlobals.tables])
  rw [arpReplyBytes_eq, ← h.mac, ← h.ip, leBytes_load, leBytes_load]
  simp only [arpReply, hm, ← leBytes_htons]
  -- the stores and copies from the last to the first; each goes where the one before it ended
  refine .store_load (.memcpy (.store_load (.memcpy (.store (.store (.store (.store (.store (.store
    (.memcpy (.memcpy (.nothing g.txSpan m) ?_ ?_ hsmac) ?_ ?_ hmac) ?_ ?_ (htons_lt _)) ?_ ?_
    (htons_lt _)) ?_ ?_ (htons_lt _)) ?_ ?_ (by decide)) ?_ ?_ (by decide)) ?_ ?_ (htons_lt _))
    ?_ ?_ hmac) ?_ ?_ hip) ?_ ?_ hsmac) ?_ ?_ hsip
  all_goals simp [NetGlobals.txSpan, sizeofEthhdr, sizeofArphdr, ethAlen, Nat.add_assoc]

theorem arpReply_eq_ok (hok : Manticore.arpReply cfg st (bytesAt m a n) = .ok st') :
    sizeofArphdr + ethAlen + 4 ≤ n ∧ ∃ cache,
      Manticore.arpCacheInsert st.arpCache (load m (a + sizeofArphdr + ethAlen) 4)
        (bytesAt m (a + sizeofArphdr) ethAlen) = .ok cache ∧
      st' = { st with
        arpCache := cache
        submitted := st.submitted ++ [arpReplyBytes cfg (bytesAt m (a + sizeofArphdr) ethAlen)
          (load m (a + sizeofArphdr + ethAlen) 4)] } := by
  rw [Manticore.arpReply] at hok
  obtain ⟨sip, hsip, hok⟩ := exists_of_bind_eq_ok hok
  obtain ⟨smac, hsmac, hok⟩ := exists_of_bind_eq_ok hok
  obtain ⟨cache, hins, hok⟩ := exists_of_bind_eq_ok hok
  obtain rfl := Except.ok.inj hok
  obtain ⟨hlen, rfl⟩ := readAt_bytesAt_eq_ok hsip
  obtain ⟨-, rfl⟩ := readAt_bytesAt_eq_ok hsmac
  rw [← load_eq_leNat, ← Nat.add_assoc] at hins ⊢
  exact ⟨hlen, cache, hins, rfl⟩

theorem arpReply_same (hg : g.Apart) (h : Same g cfg s pk st bs)
    (hok : Manticore.arpReply cfg st bs = .ok st') :
    Same g cfg (arpReply g s pk.start) pk st' bs ∧ Submits g s (arpReply g s pk.start) st st' := by
  obtain ⟨htables, hpk, rfl⟩ := h
  obtain ⟨hlen, cache, hins, rfl⟩ := arpReply_eq_ok hok
  obtain ⟨idx, hidx, rfl, hmem⟩ :=
    htables.arpCacheInsert_eq hg.cache_ne (pk.start + sizeofArphdr) hins
  have hcache := hpk.sender hlen (d := g.cacheSpan) (by simp [NetGlobals.tables])
  have htx := hpk.sender hlen (d := g.txSpan) (by simp [NetGlobals.scratch])
  have hinsert := htables.insert hg hidx
    (load_lt s.mem (pk.start + sizeofArphdr + ethAlen) 4) hcache.1
  have hwrites := (writesOnly_entry g s.mem hidx (load s.mem (pk.start + sizeofArphdr + ethAlen) 4)
    (pk.start + sizeofArphdr)).2
  have hreply := arpReply_filled hg hinsert htx.1 htx.2 hmem
  have hframe := hinsert.frame_scratch hg hreply.writes
    (List.forall_mem_singleton.mpr (by simp [NetGlobals.scratch]))
  refine ⟨⟨hframe.histories _ _, hpk, ?_⟩,
    .inr ⟨sizeofEthhdr + sizeofArphdr + sizeofArpIp4, rfl, ?_⟩⟩
  · rw [hpk.bytes_kept hreply.writes (List.forall_mem_singleton.mpr (by simp [NetGlobals.scratch])),
      hpk.bytes_kept hwrites (List.forall_mem_singleton.mpr (by simp [NetGlobals.tables]))]
  · -- the sender's addresses in the reply are those in the packet, which the cache is apart from
    have hsmac := hwrites.bytesAt_eq (List.forall_mem_singleton.mpr hcache.1) le_rfl le_rfl
    have hsip := hwrites.load_eq (List.forall_mem_singleton.mpr hcache.2) le_rfl le_rfl
    have hbytes := hreply.bytes
    simp only at hsmac hsip
    rw [hsmac, hsip, length_arpReplyBytes htables.length_mac (length_bytesAt _ _ _)] at hbytes
    exact congrArg (st.submitted ++ [·]) hbytes.symm

theorem arpInput_same (hg : g.Apart) (h : Same g cfg s pk st bs)
    (hok : Manticore.arpInput cfg st bs = .ok st') :
    Same g cfg (arpInput g s pk) pk st' bs ∧ Submits g s (arpInput g s pk) st st' := by
  rw [Manticore.arpInput] at hok
  obtain ⟨op, hop, hok⟩ := exists_of_bind_eq_ok hok
  rw [← h.bytes] at hop
  obtain ⟨-, rfl⟩ := readAt_bytesAt_eq_ok hop
  rw [arpInput, ntohsAt]
  -- the message is noted in any case
  have hnoted := h.tables.histories st.submitted (st.inputs ++ [.arp bs])
  by_cases hrequest : beNat (bytesAt s.mem (pk.start + 6) 2) = arpopRequest
  · rw [if_pos hrequest]
    rw [if_pos hrequest] at hok
    have hreply := arpReply_same hg ⟨hnoted, h.packet, h.bytes⟩ hok
    exact hreply
  · rw [if_neg hrequest]
    rw [if_neg hrequest] at hok
    obtain rfl := Except.ok.inj hok
    exact ⟨⟨hnoted, h.packet, h.bytes⟩, .inl ⟨rfl, rfl⟩⟩

/-! ## UDP -/

theorem Same.length (h : Same g cfg s pk st bs) : bs.length = pk.len := by
  rw [← h.bytes, length_bytesAt]

theorem Same.trim (h : Same g cfg s pk st bs) (hn : n ≤ bs.length) :
    packetViewTrim pk n = some ⟨pk.start + n, pk.stop⟩ ∧
      Same g cfg s ⟨pk.start + n, pk.stop⟩ st (bs.drop n) := by
  rw [h.length] at hn
  obtain ⟨htrim, hpk⟩ := h.packet.trim hn
  exact ⟨htrim, h.tables, hpk, (h.packet.bytes_trim hn s.mem).trans (by rw [h.bytes])⟩

theorem Same.field (h : Same g cfg s pk st bs) (hle : o + k ≤ bs.length) :
    fieldAt bs o k = bytesAt s.mem (pk.start + o) k := by
  rw [← h.bytes]
  exact fieldAt_bytesAt s.mem pk.start (h.length ▸ hle)

theorem udpInput_same (hg : g.Apart) (h : Same g cfg s pk st bs)
    (hok : Manticore.udpInput st bs = .ok (st', rest)) :
    ∃ s' pk', udpInput g s pk = some (s', pk') ∧ Same g cfg s' pk' st' rest ∧
      Submits g s s' st st' := by
  obtain ⟨hheader, hbound, hbuffer, hlength⟩ := UdpFits.of_ok hok
  obtain ⟨idx, hidx⟩ := Option.isSome_iff_exists.mp ((socketLookup_isSome st.sockets _).mpr hbound)
  rw [udpInput_of_lookup hheader hidx hbuffer hlength] at hok
  obtain ⟨rfl, rfl⟩ := Prod.mk.inj (Except.ok.inj hok)
  have hdest := h.field (o := sizeofIphdr + 2) (k := 2) (by omega)
  have hlenField := h.field (o := sizeofIphdr + 4) (k := 2) (by omega)
  rw [hdest, ← load_eq_leNat] at hidx
  obtain ⟨hmax, hlookup⟩ := h.tables.socketLookupByFlow_eq hidx
  have hne : socketAt g idx ≠ 0 := by
    have := hg.sockets_ne
    simp only [socketAt]
    omega
  -- the packet is copied to `rx_buffer` first, and trimmed then
  have hlen : pk.len ≤ rxBufferSize := h.length ▸ hbuffer
  have hwrites := (writesOnly_rxBuffer g s.mem hmax hlen pk.start).2
  have hdeliver := h.tables.deliver hg pk.start hmax hlen
  rw [h.bytes] at hdeliver
  have hsame : Same g cfg { s with mem := socketInput s.mem (socketAt g idx) pk } pk
      (delivered st idx bs) bs :=
    ⟨hdeliver, h.packet, (h.packet.bytes_kept hwrites
      (List.forall_mem_singleton.mpr (by simp [NetGlobals.tables]))).trans h.bytes⟩
  obtain ⟨htrim, hrest⟩ := hsame.trim hlength
  refine ⟨_, _, ?_, hrest, .inl ⟨rfl, rfl⟩⟩
  rw [hlenField] at htrim
  simp only [udpInput, ntohsAt, Nat.add_assoc, hlookup, if_neg hne, htrim, Option.map_some, hlenField]

/-! ## Packets -/

theorem ipDropped_eq (h : Same g cfg s pk st bs) : ipDropped s.mem pk = Manticore.ipDropped bs := by
  simp only [ipDropped, Manticore.ipDropped, h.length]
  by_cases hshort : pk.len < sizeofIphdr
  · simp only [hshort, decide_true, Bool.true_or]
  · have hlen : sizeofIphdr ≤ bs.length := h.length ▸ not_lt.mp hshort
    simp only [sizeofIphdr] at hlen
    rw [h.field (o := 2) (by omega), h.field (o := 0) (by omega), h.field (o := 6) (by omega),
      h.field (o := 9) (by omega)]
    simp only [ntohsAt, load_eq_leNat, Nat.add_zero]
    rfl

theorem Same.counted (h : Same g cfg s pk st bs) (hg : g.Apart) (ha : ⟨a, 8⟩ ∈ g.scratch) :
    Same g cfg { s with mem := increment s.mem a } pk st bs := by
  have hwrites : WritesOnly [⟨a, 8⟩] s.mem (increment s.mem a) :=
    (WritesOnly.refl _ s.mem).store List.mem_cons_self le_rfl le_rfl
  have hsub : ∀ d ∈ [(⟨a, 8⟩ : Span)], d ∈ g.scratch := List.forall_mem_singleton.mpr ha
  exact ⟨h.tables.frame_scratch hg hwrites hsub, h.packet, (h.packet.bytes_kept hwrites
    fun d hd => List.mem_append_right _ (hsub d hd)).trans h.bytes⟩

theorem ipInput_same (hg : g.Apart) (h : Same g cfg s pk st bs) {one : Bool}
    (hok : Manticore.ipInput st bs = .ok (one, st', rest)) :
    ∃ s' pk', ipInput g s pk = some (one, s', pk') ∧ Same g cfg s' pk' st' rest ∧
      Submits g s s' st st' := by
  rw [Manticore.ipInput] at hok
  rw [ipInput, ipDropped_eq h]
  split at hok
  case isTrue hdropped =>
    cases hok
    rw [if_pos hdropped]
    exact ⟨_, _, rfl, h.counted hg (by simp [NetGlobals.scratch]), .inl ⟨rfl, rfl⟩⟩
  case isFalse hkept =>
    obtain ⟨⟨st₁, bs₁⟩, hudp, hok⟩ := exists_of_bind_eq_ok hok
    cases hok
    obtain ⟨s', pk', heq, hsame⟩ := udpInput_same hg h hudp
    refine ⟨s', pk', ?_, hsame⟩
    rw [if_neg hkept, heq, Option.map_some]

theorem dropPacket_same (hg : g.Apart) (h : Same g cfg s pk st bs) :
    ∃ s' pk', dropPacket g s pk = some (false, s', pk') ∧ Same g cfg s' pk' st [] ∧
      Submits g s s' st st := by
  obtain ⟨htrim, hsame⟩ := h.trim le_rfl
  rw [h.length] at htrim
  rw [List.drop_length] at hsame
  refine ⟨_, _, ?_, hsame.counted (a := g.packetsDropped) hg (by simp [NetGlobals.scratch]),
    .inl ⟨rfl, rfl⟩⟩
  rw [dropPacket, htrim, h.length]
  rfl

theorem Same.proto_iff (h : Same g cfg s pk st bs) {v : ℕ} (hlen : sizeofEthhdr ≤ bs.length)
    (hv : v < 2 ^ 16) : load s.mem (pk.start + 12) 2 = htons v ↔ ethProto bs = v := by
  rw [load_eq_htons_iff hv, ethProto, h.field (by simp only [sizeofEthhdr] at hlen; omega), ntohsAt]

/-- **One round** on memory does what the list model does, if that gets through. -/
theorem netInputOne_same (hg : g.Apart) (h : Same g cfg s pk st bs) {one : Bool}
    (hok : Manticore.netInputOne cfg st bs = .ok (one, st', rest)) :
    ∃ s' pk', netInputOne g s pk = some (one, s', pk') ∧ Same g cfg s' pk' st' rest ∧
      Submits g s s' st st' := by
  rw [Manticore.netInputOne, h.length] at hok
  simp only [netInputOne]
  by_cases hshort : pk.len < sizeofEthhdr
  · rw [if_pos hshort] at hok ⊢
    cases hok
    exact dropPacket_same hg h
  · rw [if_neg hshort] at hok ⊢
    have hlen : sizeofEthhdr ≤ bs.length := h.length ▸ not_lt.mp hshort
    obtain ⟨htrim, hbody⟩ := h.trim hlen
    have hip := h.proto_iff (v := ethPIp) hlen (by decide)
    have harp := h.proto_iff (v := ethPArp) hlen (by decide)
    rw [htrim, Option.bind_some]
    simp only [hip, harp]
    dsimp only at hok
    split at hok
    case isTrue htype =>
      rw [if_pos htype]
      exact ipInput_same hg hbody hok
    case isFalse hnot =>
      rw [if_neg hnot]
      split at hok
      case isTrue htype =>
        obtain ⟨st₁, hinput, hok⟩ := exists_of_bind_eq_ok hok
        cases hok
        rw [if_pos htype]
        exact ⟨_, _, rfl, arpInput_same hg hbody hinput⟩
      case isFalse hnot' =>
        cases hok
        rw [if_neg hnot']
        exact dropPacket_same hg hbody

/-- **The loop** does as well, since every round leaves the two at the same. -/
theorem netInputLoop_same (hg : g.Apart) {fuel : ℕ} (h : Same g cfg s pk st bs) {ret : Bool}
    (hfuel : bs.length ≤ fuel) (hok : Manticore.netInputLoop cfg fuel st bs = .ok (ret, st')) :
    ∃ s' pk', netInputLoop g fuel s pk = .ok (ret, s', pk') ∧ Same g cfg s' pk' st' [] := by
  induction fuel generalizing s pk st bs ret with
  | zero =>
      obtain rfl := List.length_eq_zero_iff.mp (Nat.le_zero.mp hfuel)
      cases hok
      exact ⟨s, pk, if_pos h.length.symm, h⟩
  | succ fuel ih =>
      cases bs with
      | nil =>
          cases hok
          exact ⟨s, pk, if_pos h.length.symm, h⟩
      | cons b bs =>
          rw [Manticore.netInputLoop] at hok
          obtain ⟨⟨one, st₁, rest⟩, hone, hok⟩ := exists_of_bind_eq_ok hok
          obtain ⟨⟨r, st₂⟩, hloop, hok⟩ := exists_of_bind_eq_ok hok
          cases hok
          obtain ⟨s₁, pk₁, heq, hsame, -⟩ := netInputOne_same hg h hone
          -- a round on memory shortens the view, so the rounds left are enough for the rest
          have hshort := (handles_netInputOne heq).shortened.len
          have hlen := h.length
          have hrest := hsame.length
          simp only [List.length_cons, sizeofEthhdr] at hlen hfuel hshort
          obtain ⟨s', pk', hdone, hend⟩ := ih hsame (by omega) hloop
          refine ⟨s', pk', ?_, hend⟩
          rw [netInputLoop, if_neg (by omega), heq]
          simp only [hdone]
          rfl

/-- **The model on memory refines the one on lists**: a packet that `net_input` takes there leaves the
same tables here, gives the same result, and is completed. -/
theorem netInput_refines (hg : g.Apart) (h : Same g cfg s pk st bs) {ret : Bool}
    (hok : Manticore.netInput cfg st bs = .ok (ret, st')) :
    ∃ s' pk', netInput g pk.len s pk = .ok (ret, s', pk') ∧ Represents g cfg s'.mem st' ∧
      s'.completed = s.completed ++ [(pk.start, pk.len)] := by
  rw [Manticore.netInput, h.length] at hok
  obtain ⟨s', pk', heq, hend⟩ := netInputLoop_same hg h h.length.le hok
  have hdone : s'.completed = s.completed := by
    rcases netInputLoop_ends (s := s) g le_rfl with hstop | ⟨_, _, _, hends, -, hsame⟩
    · rw [heq] at hstop
      cases hstop
    · rw [heq] at hends
      cases hends
      exact hsame
  refine ⟨{ s' with completed := s'.completed ++ [(pk.start, pk.len)] }, pk', ?_, hend.tables, ?_⟩
  · simp only [netInput, heq]
    rfl
  · simp only [hdone]

/-! ## Packet after packet -/

/-- The device writes a packet to its buffer, and `net_input` takes it. -/
def receive (g : NetGlobals) (s : NetMem) (p : PacketView × List UInt8) : Except NetStop NetMem :=
  let m := memcpy s.mem p.1.start (fun i => p.2.getD i 0) p.1.len
  (netInput g p.1.len { s with mem := m } p.1).map fun r => r.2.1

theorem Represents.written (h : Represents g cfg s.mem st) (hpk : PacketApart g pk)
    (hlen : bs.length = pk.len) :
    Same g cfg { s with mem := memcpy s.mem pk.start (fun i => bs.getD i 0) pk.len } pk st bs := by
  have hwrites : WritesOnly [⟨pk.start, pk.stop - pk.start⟩] s.mem
      (memcpy s.mem pk.start (fun i => bs.getD i 0) pk.len) :=
    (WritesOnly.refl _ s.mem).memcpy List.mem_cons_self le_rfl (by rw [hpk.len_eq])
  refine ⟨h.frame hwrites fun e he => ?_, hpk, ?_⟩
  · exact List.forall_mem_singleton.mpr (hpk.apart e (List.mem_append_left _ he)).symm
  · rw [bytesAt_memcpy_same, ← hlen, bytesAt_getD]

theorem receive_refines (hg : g.Apart) (h : Represents g cfg s.mem st) (hpk : PacketApart g pk)
    (hlen : bs.length = pk.len) (hok : netStep cfg st (.packet bs) = .ok st') :
    ∃ s', receive g s (pk, bs) = .ok s' ∧ Represents g cfg s'.mem st' ∧
      s'.completed = s.completed ++ [(pk.start, pk.len)] := by
  obtain ⟨⟨ret, st₁⟩, hinput, rfl⟩ := exists_of_map_eq_ok hok
  obtain ⟨s', pk', heq, htables, hdone⟩ := netInput_refines hg (h.written hpk hlen) hinput
  refine ⟨s', ?_, htables, hdone⟩
  simp only [receive, heq]
  rfl

/-- **Whole runs**: packets that the list model takes one after the other are taken on memory, the
tables are the same in the end, and each packet is completed once, in order. -/
theorem receive_run_refines (hg : g.Apart) (packets : List (PacketView × List UInt8))
    (h : Represents g cfg s.mem st)
    (hpackets : ∀ p ∈ packets, PacketApart g p.1 ∧ p.2.length = p.1.len)
    (hok : packets.foldlM (fun st p => netStep cfg st (.packet p.2)) st = .ok st') :
    ∃ s', packets.foldlM (receive g) s = .ok s' ∧ Represents g cfg s'.mem st' ∧
      s'.completed = s.completed ++ packets.map fun p => (p.1.start, p.1.len) := by
  induction packets generalizing s st with
  | nil =>
      cases hok
      exact ⟨s, rfl, h, (List.append_nil _).symm⟩
  | cons p packets ih =>
      obtain ⟨hpk, hlen⟩ := hpackets p List.mem_cons_self
      rw [List.foldlM_cons] at hok
      obtain ⟨st₁, hfirst, hok⟩ := exists_of_bind_eq_ok hok
      obtain ⟨s₁, heq, htables, hdone⟩ := receive_refines hg h hpk hlen hfirst
      obtain ⟨s', hrun, hend, hall⟩ :=
        ih htables (fun q hq => hpackets q (List.mem_cons_of_mem p hq)) hok
      refine ⟨s', ?_, hend, ?_⟩
      · rw [List.foldlM_cons, heq]
        exact hrun
      · rw [hall, hdone, List.append_assoc]
        rfl

/-- An ARP request of `10.0.0.2` for the address 0. -/
def arpFrame : PacketView × List UInt8 :=
  (⟨0x8000, 0x802a⟩, List.replicate 12 0 ++
    [8, 6, 0, 1, 8, 0, 6, 4, 0, 1, 2, 0, 0, 0, 0, 2, 10, 0, 0, 2] ++ List.replicate 10 0)

/-- A datagram from it, for port 0. -/
def udpFrame : PacketView × List UInt8 :=
  (⟨0x8000, 0x802c⟩, List.replicate 12 0 ++ [8, 0, 0x45, 0, 0, 30, 0, 0, 0, 0, 64, 17, 0, 0] ++
    [10, 0, 0, 2, 0, 0, 0, 0, 0, 7, 0, 0, 0, 10, 0, 0, 104, 105])

def oneHost : NetGlobals := ⟨0x1000, 0x5000, 0x6000, 0x6080, 0x6088, 0x6090, 0x6098⟩

/-- With zeroed tables: the ARP cache in memory has the sender, and the buffer of the first socket, the
datagram. -/
theorem receive_run_refines_arp_udp :
    ∃ s', [arpFrame, udpFrame].foldlM (receive oneHost) ⟨fun _ => 0, [], []⟩ = .ok s' ∧
      s'.completed = [(0x8000, 42), (0x8000, 44)] ∧
      load s'.mem (entryAt oneHost (arpHash 0x0200000a)) 4 = 0x0200000a ∧
      bytesAt s'.mem (entryAt oneHost (arpHash 0x0200000a) + 4) ethAlen = [2, 0, 0, 0, 0, 2] ∧
      (bytesAt s'.mem (socketAt oneHost 0 + 10) rxBufferSize).take 30 =
        udpFrame.2.drop sizeofEthhdr := by
  have heval : ([arpFrame, udpFrame].foldlM (fun st p => netStep ⟨List.replicate 6 0, 0⟩ st
      (.packet p.2)) NetState.start).toOption.map (fun st =>
        (st.arpCache[arpHash 0x0200000a]?, st.sockets[0]?.map fun sk => sk.rxBuffer.take 30)) =
      some (some ⟨0x0200000a, [2, 0, 0, 0, 0, 2]⟩, some (udpFrame.2.drop sizeofEthhdr)) := by
    decide +kernel
  obtain ⟨st', hst, heval⟩ := Option.map_eq_some_iff.mp heval
  obtain ⟨hentry, hsocket⟩ := Prod.mk.inj heval
  obtain ⟨sk, hsk, hbuf⟩ := Option.map_eq_some_iff.mp hsocket
  have hrun : [arpFrame, udpFrame].foldlM (fun st p => netStep ⟨List.replicate 6 0, 0⟩ st
      (.packet p.2)) NetState.start = .ok st' := by
    revert hst
    generalize [arpFrame, udpFrame].foldlM (fun st p => netStep ⟨List.replicate 6 0, 0⟩ st
      (.packet p.2)) NetState.start = r
    intro hst
    cases r with
    | error e => cases hst
    | ok st => exact congrArg Except.ok (Option.some.inj hst)
  have hpacket : ∀ p ∈ [arpFrame, udpFrame], PacketApart oneHost p.1 ∧ p.2.length = p.1.len := by
    simp only [List.forall_mem_cons, List.not_mem_nil, false_imp_iff, implies_true, and_true]
    exact ⟨⟨⟨by decide, by decide, by decide⟩, rfl⟩, ⟨by decide, by decide, by decide⟩, rfl⟩
  obtain ⟨s', hs, hrep, hdone⟩ := receive_run_refines (s := ⟨fun _ => 0, [], []⟩)
    ⟨by decide, by decide, by decide, by decide⟩ _
    (represents_start (g := oneHost) rfl rfl (fun _ _ => rfl) fun _ _ => rfl) hpacket hrun
  obtain ⟨hip, hmac⟩ := hrep.entry _ _ hentry
  exact ⟨s', hs, hdone, hip, hmac, (congrArg _ (hrep.socket 0 sk hsk).2).trans hbuf⟩

end NetView

end Manticore
