import Manticore.Usr.NetInput

/-!
# Who is answered for

`arp_input` answers a request without a look at whom it asks for: neither the target address nor
the hardware and protocol types are tested.  What it submits is a well-formed reply, and it is
submitted for every request for which the cache has an entry, because the sender goes into the cache
first.
-/

namespace Manticore

/-- An Ethernet and IPv4 request whose target is the host. -/
structure RequestForHost (cfg : NetConfig) (bs : List UInt8) : Prop where
  hardware : beNat (fieldAt bs 0 2) = arphrdEther
  protocol : beNat (fieldAt bs 2 2) = ethPIp
  lengths : fieldAt bs 4 2 = [UInt8.ofNat ethAlen, 4]
  request : arpIsRequest bs = true
  target : leNat (fieldAt bs (sizeofArphdr + ethAlen + 4 + ethAlen) 4) = cfg.hostIp

instance (cfg : NetConfig) (bs : List UInt8) : Decidable (RequestForHost cfg bs) :=
  decidable_of_iff (beNat (fieldAt bs 0 2) = arphrdEther ∧ beNat (fieldAt bs 2 2) = ethPIp ∧
      fieldAt bs 4 2 = [UInt8.ofNat ethAlen, 4] ∧ arpIsRequest bs = true ∧
      leNat (fieldAt bs (sizeofArphdr + ethAlen + 4 + ethAlen) 4) = cfg.hostIp)
    ⟨fun ⟨h1, h2, h3, h4, h5⟩ => ⟨h1, h2, h3, h4, h5⟩,
      fun h => ⟨h.hardware, h.protocol, h.lengths, h.request, h.target⟩⟩

/-- A frame with the host's answer to the requester of `bs`. -/
structure ReplyTo (cfg : NetConfig) (bs frame : List UInt8) : Prop where
  length : frame.length = 42
  dest : fieldAt frame 0 6 = fieldAt bs sizeofArphdr ethAlen
  source : fieldAt frame 6 6 = cfg.macAddr
  ethProto : beNat (fieldAt frame 12 2) = ethPArp
  hardware : beNat (fieldAt frame 14 2) = arphrdEther
  protocol : beNat (fieldAt frame 16 2) = ethPIp
  lengths : fieldAt frame 18 2 = [UInt8.ofNat ethAlen, 4]
  reply : beNat (fieldAt frame 20 2) = arpopReply
  senderMac : fieldAt frame 22 6 = cfg.macAddr
  senderIp : leNat (fieldAt frame 28 4) = cfg.hostIp
  targetMac : fieldAt frame 32 6 = fieldAt bs sizeofArphdr ethAlen
  targetIp : leNat (fieldAt frame 38 4) = arpSender bs

/-- The frames that `arp_input` submits for a packet. -/
def arpSubmits (cfg : NetConfig) (st : NetState) (bs : List UInt8) : List (List UInt8) :=
  match arpInput cfg st bs with
  | .ok st' => st'.submitted.drop st.submitted.length
  | .error _ => []

/-- **The host answers only for itself**, with one reply. -/
structure AnswersForItself (cfg : NetConfig) (st : NetState) (bs : List UInt8) : Prop where
  answered_iff : arpSubmits cfg st bs ≠ [] ↔ RequestForHost cfg bs
  replies : ∀ frame ∈ arpSubmits cfg st bs, ReplyTo cfg bs frame
  one : (arpSubmits cfg st bs).length ≤ 1

/-- The cache has an entry for the address, or an empty one. -/
def CacheTakes (cache : List ArpCacheEntry) (ip : ℕ) : Prop :=
  (findEntry cache ip (arpHash ip)).isSome ∨ (findEntry cache 0 (arpHash ip)).isSome

variable {cfg : NetConfig} {st : NetState} {bs : List UInt8}

theorem arpInput_of_full_length (hlen : 28 ≤ bs.length) : arpInput cfg st bs =
    if arpIsRequest bs = true then
      (arpCacheInsert st.arpCache (arpSender bs) (fieldAt bs sizeofArphdr ethAlen)).map fun cache =>
        { st with
          arpCache := cache
          submitted := st.submitted ++
            [arpReplyBytes cfg (fieldAt bs sizeofArphdr ethAlen) (arpSender bs)]
          inputs := st.inputs ++ [.arp bs] }
    else .ok { st with inputs := st.inputs ++ [.arp bs] } := by
  have hop : readAt bs 6 2 = .ok (fieldAt bs 6 2) := if_pos (by omega)
  have hsip : readAt bs (sizeofArphdr + ethAlen) 4 = .ok (fieldAt bs (sizeofArphdr + ethAlen) 4) :=
    if_pos (by simp only [sizeofArphdr, ethAlen]; omega)
  have hsmac : readAt bs sizeofArphdr ethAlen = .ok (fieldAt bs sizeofArphdr ethAlen) :=
    if_pos (by simp only [sizeofArphdr, ethAlen]; omega)
  unfold arpInput arpReply arpIsRequest
  simp only [hop, hsip, hsmac, bind, Except.bind, beq_iff_eq]
  split
  · unfold arpSender
    cases arpCacheInsert st.arpCache (leNat (fieldAt bs (sizeofArphdr + ethAlen) 4))
      (fieldAt bs sizeofArphdr ethAlen) <;> rfl
  · rfl

theorem arpSubmits_eq (cfg : NetConfig) (st : NetState) (hlen : 28 ≤ bs.length) :
    (arpIsRequest bs = true ∧ CacheTakes st.arpCache (arpSender bs) ∧ arpSubmits cfg st bs =
      [arpReplyBytes cfg (fieldAt bs sizeofArphdr ethAlen) (arpSender bs)]) ∨
    (¬ (arpIsRequest bs = true ∧ CacheTakes st.arpCache (arpSender bs)) ∧
      arpSubmits cfg st bs = []) := by
  unfold arpSubmits
  rw [arpInput_of_full_length hlen]
  by_cases hreq : arpIsRequest bs = true
  · rw [if_pos hreq]
    obtain ⟨htakes, cache', hins⟩ | ⟨hno, hins⟩ :=
      arpCacheInsert_cases st.arpCache (arpSender bs) (fieldAt bs sizeofArphdr ethAlen)
    · refine .inl ⟨hreq, htakes, ?_⟩
      rw [hins]
      exact List.drop_left
    · refine .inr ⟨fun h => hno h.2, ?_⟩
      rw [hins]
      rfl
  · rw [if_neg hreq]
    exact .inr ⟨fun h => hreq h.1, List.drop_length⟩

theorem exists_of_length_six {l : List UInt8} (h : l.length = 6) :
    ∃ a b c d e f, l = [a, b, c, d, e, f] := by
  rcases l with _ | ⟨a, _ | ⟨b, _ | ⟨c, _ | ⟨d, _ | ⟨e, _ | ⟨f, _ | ⟨g, l⟩⟩⟩⟩⟩⟩⟩ <;> simp at h
  exact ⟨a, b, c, d, e, f, rfl⟩

theorem replyTo_arpReplyBytes (hmac : cfg.macAddr.length = ethAlen) (hip : cfg.hostIp < 2 ^ 32)
    (hlen : 28 ≤ bs.length) :
    ReplyTo cfg bs (arpReplyBytes cfg (fieldAt bs sizeofArphdr ethAlen) (arpSender bs)) := by
  have hsmac : (fieldAt bs sizeofArphdr ethAlen).length = 6 :=
    length_fieldAt (by simp only [sizeofArphdr, ethAlen]; omega)
  have hsip : arpSender bs < 256 ^ 4 := by
    have hlt := leNat_lt (fieldAt bs (sizeofArphdr + ethAlen) 4)
    rwa [length_fieldAt (by simp only [sizeofArphdr, ethAlen]; omega)] at hlt
  obtain ⟨mac, hostIp⟩ := cfg
  -- with the bytes of both MAC addresses named, every field is a part of an explicit list
  obtain ⟨a, b, c, d, e, f, hbytes⟩ := exists_of_length_six hsmac
  obtain ⟨a', b', c', d', e', f', rfl⟩ := exists_of_length_six hmac
  rw [hbytes]
  constructor
  case length => rfl
  case dest => exact hbytes.symm
  case source => rfl
  case ethProto => exact beNat_beBytes 2 ethPArp
  case hardware => exact beNat_beBytes 2 arphrdEther
  case protocol => exact beNat_beBytes 2 ethPIp
  case lengths => rfl
  case reply => exact beNat_beBytes 2 arpopReply
  case senderMac => rfl
  case senderIp => exact (leNat_leBytes 4 hostIp).trans (Nat.mod_eq_of_lt hip)
  case targetMac => exact hbytes.symm
  case targetIp => exact (leNat_leBytes 4 _).trans (Nat.mod_eq_of_lt hsip)

/-- **For whom the host answers**: the requests in its own name are the ones it answers just if no
other request finds an entry of the cache, and every one of its own does. -/
theorem answersForItself_iff (hmac : cfg.macAddr.length = ethAlen) (hip : cfg.hostIp < 2 ^ 32)
    (st : NetState) (hlen : 28 ≤ bs.length) : AnswersForItself cfg st bs ↔
      (arpIsRequest bs = true → (RequestForHost cfg bs ↔ CacheTakes st.arpCache (arpSender bs))) := by
  obtain ⟨hreq, htakes, hsub⟩ | ⟨hno, hsub⟩ := arpSubmits_eq cfg st hlen
  · constructor
    · intro h _
      have hne : arpSubmits cfg st bs ≠ [] := by rw [hsub]; exact List.cons_ne_nil _ _
      exact iff_of_true (h.answered_iff.mp hne) htakes
    · intro h
      refine ⟨iff_of_true (by rw [hsub]; exact List.cons_ne_nil _ _) ((h hreq).mpr htakes), ?_, ?_⟩
      · rw [hsub]
        intro frame hframe
        rw [List.mem_singleton.mp hframe]
        exact replyTo_arpReplyBytes hmac hip hlen
      · rw [hsub]
        exact le_rfl
  · constructor
    · intro h hreq
      exact iff_of_false (fun hfor => h.answered_iff.mpr hfor hsub) fun htakes => hno ⟨hreq, htakes⟩
    · intro h
      refine ⟨iff_of_false (fun hne => hne hsub) ?_, ?_, ?_⟩
      · exact fun hfor => hno ⟨hfor.request, (h hfor.request).mp hfor⟩
      · rw [hsub]
        exact fun _ hframe => nomatch hframe
      · rw [hsub]
        exact Nat.zero_le 1

/-- A request of `10.0.0.2`, which has the MAC address `02:00:00:00:00:02`, for `target`. -/
def arpRequestBytes (target : ℕ) : List UInt8 :=
  [0, 1, 8, 0, 6, 4, 0, 1, 2, 0, 0, 0, 0, 2, 10, 0, 0, 2, 0, 0, 0, 0, 0, 0] ++ leBytes 4 target

/-- The host `10.0.0.1`. -/
def hostOne : NetConfig := ⟨[2, 0, 0, 0, 0, 1], 0x0100000a⟩

theorem answersForItself_request : AnswersForItself hostOne NetState.start
    (arpRequestBytes 0x0100000a) :=
  (answersForItself_iff (show hostOne.macAddr.length = ethAlen from rfl) (by decide) _
    (by decide)).mpr fun _ => iff_of_true (by decide) (.inr (by decide))

/-- The host `10.0.0.1` is asked for `10.0.0.3`, and says that it is it. -/
theorem answers_for_others : ¬ RequestForHost hostOne (arpRequestBytes 0x0300000a) ∧
    arpSubmits hostOne NetState.start (arpRequestBytes 0x0300000a) =
      [arpReplyBytes hostOne [2, 0, 0, 0, 0, 2] 0x0200000a] ∧
    ¬ AnswersForItself hostOne NetState.start (arpRequestBytes 0x0300000a) := by
  have hno : ¬ RequestForHost hostOne (arpRequestBytes 0x0300000a) := by decide
  have hsub : arpSubmits hostOne NetState.start (arpRequestBytes 0x0300000a) =
      [arpReplyBytes hostOne [2, 0, 0, 0, 0, 2] 0x0200000a] := by decide
  exact ⟨hno, hsub, fun h => hno (h.answered_iff.mp (by rw [hsub]; exact List.cons_ne_nil _ _))⟩

end Manticore
