import Manticore.Base.ProbedTable
import Manticore.Usr.NetProgress
import Manticore.Usr.NetReceive

/-!
# The tables of the network stack in memory

The list model of the stack has the socket table and the ARP cache as lists.  Here they are where the
C program has them, as arrays of structures, and each operation of the lists is one on memory.
-/

namespace Manticore

namespace NetView

/-- `&sockets[i]` -/
def socketAt (g : NetGlobals) (i : ℕ) : ℕ := g.sockets + sizeofSocket * i

/-- `&cache->entries[i]` -/
def entryAt (g : NetGlobals) (i : ℕ) : ℕ := g.arpCache + sizeofArpCacheEntry * i

namespace NetGlobals

variable (g : NetGlobals)

def socketsSpan : Span := ⟨g.sockets, sizeofSocket * maxSockets⟩
def cacheSpan : Span := ⟨g.arpCache, sizeofArpCacheEntry * arpCacheSize⟩
def txSpan : Span := ⟨g.txBuf, 128⟩
def macSpan : Span := ⟨g.macAddr, ethAlen⟩
def ipSpan : Span := ⟨g.hostIp, 4⟩

/-- The tables and the configuration. -/
def tables : List Span := [g.socketsSpan, g.cacheSpan, g.macSpan, g.ipSpan]

/-- What is only written. -/
def scratch : List Span := [g.txSpan, ⟨g.packetsDropped, 8⟩, ⟨g.ipDatagramsDropped, 8⟩]

/-- The globals do not overlap, and are not at `NULL`. -/
structure Apart : Prop where
  tables : g.tables.Pairwise Span.Apart
  scratch : ∀ d ∈ g.scratch, ∀ e ∈ g.tables, d.Apart e
  sockets_ne : g.sockets ≠ 0
  cache_ne : g.arpCache ≠ 0

end NetGlobals

example : NetGlobals.Apart ⟨0x1000, 0x5000, 0x6000, 0x6080, 0x6088, 0x6090, 0x6098⟩ :=
  ⟨by decide, by decide, by decide, by decide⟩

theorem NetGlobals.Apart.tables_apart {g : NetGlobals} (h : g.Apart) :
    (g.socketsSpan.Apart g.cacheSpan ∧ g.socketsSpan.Apart g.macSpan ∧
      g.socketsSpan.Apart g.ipSpan) ∧
    (g.cacheSpan.Apart g.macSpan ∧ g.cacheSpan.Apart g.ipSpan) ∧ g.macSpan.Apart g.ipSpan := by
  have htables := h.tables
  simp only [NetGlobals.tables, List.pairwise_cons, List.mem_cons, List.not_mem_nil, or_false,
    forall_eq_or_imp, forall_eq] at htables
  exact ⟨htables.1, htables.2.1, htables.2.2.1⟩

/-- The tables in memory hold what the lists hold. -/
structure Represents (g : NetGlobals) (cfg : NetConfig) (m : Mem) (st : NetState) : Prop where
  sockets : st.sockets.length = maxSockets
  socket : ∀ i sk, st.sockets[i]? = some sk → load m (socketAt g i + 8) 2 = sk.localPort ∧
    bytesAt m (socketAt g i + 10) rxBufferSize = sk.rxBuffer
  cache : st.arpCache.length = arpCacheSize
  entry : ∀ i e, st.arpCache[i]? = some e → load m (entryAt g i) 4 = e.ipAddr ∧
    bytesAt m (entryAt g i + 4) ethAlen = e.macAddr
  mac : bytesAt m g.macAddr ethAlen = cfg.macAddr
  ip : load m g.hostIp 4 = cfg.hostIp

variable {g : NetGlobals} {cfg : NetConfig} {m m' : Mem} {st : NetState} {w : List Span} {n : ℕ}

theorem bytesAt_memcpyFrom (m : Mem) (dst src n : ℕ) :
    bytesAt (memcpyFrom m dst src n) dst n = bytesAt m src n := by
  rw [memcpyFrom, bytesAt_memcpy_same]
  simp [bytesAt]

/-! ## What the tables hold -/

namespace Represents

variable (h : Represents g cfg m st)
include h

theorem socket_in {i : ℕ} {sk : Socket} (hi : st.sockets[i]? = some sk) :
    g.sockets ≤ socketAt g i ∧ socketAt g i + sizeofSocket ≤ g.sockets + sizeofSocket * maxSockets := by
  have hlt : i < maxSockets := h.sockets ▸ (List.getElem?_eq_some_iff.mp hi).1
  simp only [socketAt, sizeofSocket, maxSockets] at hlt ⊢
  omega

theorem entry_in {i : ℕ} {e : ArpCacheEntry} (hi : st.arpCache[i]? = some e) :
    g.arpCache ≤ entryAt g i ∧
      entryAt g i + sizeofArpCacheEntry ≤ g.arpCache + sizeofArpCacheEntry * arpCacheSize := by
  have hlt : i < arpCacheSize := h.cache ▸ (List.getElem?_eq_some_iff.mp hi).1
  simp only [entryAt, sizeofArpCacheEntry, arpCacheSize, arpCacheShift] at hlt ⊢
  omega

theorem sockets_frame (hw : WritesOnly w m m') (hd : ∀ d ∈ w, d.Apart g.socketsSpan) :
    ∀ i sk, st.sockets[i]? = some sk → load m' (socketAt g i + 8) 2 = sk.localPort ∧
      bytesAt m' (socketAt g i + 10) rxBufferSize = sk.rxBuffer := by
  intro i sk hi
  obtain ⟨hlo, hhi⟩ := h.socket_in hi
  obtain ⟨hport, hbuf⟩ := h.socket i sk hi
  simp only [sizeofSocket] at hhi
  refine ⟨(hw.load_eq hd ?_ ?_).trans hport, (hw.bytesAt_eq hd ?_ ?_).trans hbuf⟩
  all_goals
    simp only [NetGlobals.socketsSpan, sizeofSocket, rxBufferSize]
    omega

theorem cache_frame (hw : WritesOnly w m m') (hd : ∀ d ∈ w, d.Apart g.cacheSpan) :
    ∀ i e, st.arpCache[i]? = some e → load m' (entryAt g i) 4 = e.ipAddr ∧
      bytesAt m' (entryAt g i + 4) ethAlen = e.macAddr := by
  intro i e hi
  obtain ⟨hlo, hhi⟩ := h.entry_in hi
  obtain ⟨hip, hmac⟩ := h.entry i e hi
  simp only [sizeofArpCacheEntry] at hhi
  refine ⟨(hw.load_eq hd ?_ ?_).trans hip, (hw.bytesAt_eq hd ?_ ?_).trans hmac⟩
  all_goals
    simp only [NetGlobals.cacheSpan, sizeofArpCacheEntry, ethAlen]
    omega

theorem config_frame (hw : WritesOnly w m m') (hmac : ∀ d ∈ w, d.Apart g.macSpan)
    (hip : ∀ d ∈ w, d.Apart g.ipSpan) :
    bytesAt m' g.macAddr ethAlen = cfg.macAddr ∧ load m' g.hostIp 4 = cfg.hostIp :=
  ⟨(hw.bytesAt_eq hmac le_rfl le_rfl).trans h.mac,
    (hw.load_eq hip le_rfl le_rfl).trans h.ip⟩

theorem frame (hw : WritesOnly w m m') (hapart : ∀ e ∈ g.tables, ∀ d ∈ w, d.Apart e) :
    Represents g cfg m' st := by
  obtain ⟨hmac, hip⟩ := h.config_frame hw (hapart _ (by simp [NetGlobals.tables]))
    (hapart _ (by simp [NetGlobals.tables]))
  exact ⟨h.sockets, h.sockets_frame hw (hapart _ (by simp [NetGlobals.tables])), h.cache,
    h.cache_frame hw (hapart _ (by simp [NetGlobals.tables])), hmac, hip⟩

theorem frame_scratch (hg : g.Apart) (hw : WritesOnly w m m') (hsub : ∀ d ∈ w, d ∈ g.scratch) :
    Represents g cfg m' st :=
  h.frame hw fun e he d hd => hg.scratch d (hsub d hd) e he

theorem with_cache (hg : g.Apart) (hw : WritesOnly [g.cacheSpan] m m') {cache : List ArpCacheEntry}
    (hlen : cache.length = arpCacheSize)
    (hentry : ∀ i e, cache[i]? = some e → load m' (entryAt g i) 4 = e.ipAddr ∧
      bytesAt m' (entryAt g i + 4) ethAlen = e.macAddr) :
    Represents g cfg m' { st with arpCache := cache } := by
  obtain ⟨⟨hsockets, -, -⟩, ⟨hmacs, hips⟩, -⟩ := hg.tables_apart
  obtain ⟨hmac, hip⟩ := h.config_frame hw (List.forall_mem_singleton.mpr hmacs)
    (List.forall_mem_singleton.mpr hips)
  exact ⟨h.sockets, h.sockets_frame hw (List.forall_mem_singleton.mpr hsockets.symm), hlen, hentry,
    hmac, hip⟩

theorem with_sockets (hg : g.Apart) (hw : WritesOnly [g.socketsSpan] m m') {sockets : List Socket}
    (hlen : sockets.length = maxSockets)
    (hsocket : ∀ i sk, sockets[i]? = some sk → load m' (socketAt g i + 8) 2 = sk.localPort ∧
      bytesAt m' (socketAt g i + 10) rxBufferSize = sk.rxBuffer) :
    Represents g cfg m' { st with sockets := sockets } := by
  obtain ⟨⟨hcaches, hmacs, hips⟩, -⟩ := hg.tables_apart
  obtain ⟨hmac, hip⟩ := h.config_frame hw (List.forall_mem_singleton.mpr hmacs)
    (List.forall_mem_singleton.mpr hips)
  exact ⟨hlen, hsocket, h.cache, h.cache_frame hw (List.forall_mem_singleton.mpr hcaches), hmac, hip⟩

theorem length_mac : cfg.macAddr.length = ethAlen := by rw [← h.mac, length_bytesAt]

theorem histories (submitted : List (List UInt8)) (inputs : List ProtocolInput) :
    Represents g cfg m { st with submitted := submitted, inputs := inputs } :=
  ⟨h.sockets, h.socket, h.cache, h.entry, h.mac, h.ip⟩

end Represents

theorem represents_start (hmac : bytesAt m g.macAddr ethAlen = cfg.macAddr)
    (hip : load m g.hostIp 4 = cfg.hostIp)
    (hsockets : ∀ x, g.socketsSpan.Contains x → m x = 0)
    (hcache : ∀ x, g.cacheSpan.Contains x → m x = 0) : Represents g cfg m .start := by
  refine ⟨List.length_replicate, fun i sk hi => ?_, List.length_replicate, fun i e hi => ?_, hmac, hip⟩
  · obtain ⟨hlt, rfl⟩ := List.getElem?_eq_some_iff.mp hi
    simp only [NetState.start, List.length_replicate, maxSockets] at hlt
    have hzero : ∀ x, socketAt g i ≤ x → x < socketAt g i + sizeofSocket → m x = 0 := by
      intro x hx hlt'
      apply hsockets
      simp only [socketAt, sizeofSocket] at hx hlt'
      simp only [Span.Contains, NetGlobals.socketsSpan, sizeofSocket, maxSockets]
      omega
    simp only [sizeofSocket] at hzero
    simp only [NetState.start, List.getElem_replicate]
    refine ⟨(load_congr fun x _ _ => hzero x (by omega) (by omega)).trans (load_zero 2 _), ?_⟩
    refine (bytesAt_congr fun x _ hx => hzero x (by omega) ?_).trans (bytesAt_zero _ _)
    simp only [rxBufferSize] at hx
    omega
  · obtain ⟨hlt, rfl⟩ := List.getElem?_eq_some_iff.mp hi
    simp only [NetState.start, List.length_replicate, arpCacheSize, arpCacheShift] at hlt
    have hzero : ∀ x, entryAt g i ≤ x → x < entryAt g i + sizeofArpCacheEntry → m x = 0 := by
      intro x hx hlt'
      apply hcache
      simp only [entryAt, sizeofArpCacheEntry] at hx hlt'
      simp only [Span.Contains, NetGlobals.cacheSpan, sizeofArpCacheEntry, arpCacheSize, arpCacheShift]
      omega
    simp only [sizeofArpCacheEntry] at hzero
    simp only [NetState.start, List.getElem_replicate]
    refine ⟨(load_congr fun x _ _ => hzero x (by omega) (by omega)).trans (load_zero 4 _), ?_⟩
    refine (bytesAt_congr fun x _ hx => hzero x (by omega) ?_).trans (bytesAt_zero _ _)
    simp only [ethAlen] at hx
    omega

/-! ## The ARP cache -/

theorem findEntry_lt {cache : List ArpCacheEntry} {ipAddr hash idx : ℕ}
    (h : Manticore.findEntry cache ipAddr hash = some idx) : idx < arpCacheSize := by
  obtain ⟨count, _, rfl⟩ := List.mem_map.mp (List.mem_of_find?_eq_some h)
  exact lt_of_le_of_lt Nat.and_le_right (by decide)

theorem Represents.findEntry_eq (h : Represents g cfg m st) (ipAddr hash : ℕ) :
    findEntry m g.arpCache ipAddr hash =
      ((Manticore.findEntry st.arpCache ipAddr hash).map (entryAt g)).getD 0 := by
  have hpred : ∀ idx ∈ (List.range arpCacheSize).map fun count =>
      (hash + count) &&& (arpCacheSize - 1),
      ((fun entry => load m entry 4 == ipAddr) ∘ entryAt g) idx =
        ((st.arpCache[idx]?).map ArpCacheEntry.ipAddr == some ipAddr) := by
    intro idx hidx
    obtain ⟨count, _, rfl⟩ := List.mem_map.mp hidx
    have hlt : (hash + count) &&& (arpCacheSize - 1) < st.arpCache.length := by
      rw [h.cache]
      exact lt_of_le_of_lt Nat.and_le_right (by decide)
    have hget := List.getElem?_eq_getElem hlt
    rw [hget, Function.comp_apply, (h.entry _ _ hget).1, Option.map_some]
    rfl
  rw [Manticore.findEntry, ← find?_congr_of_mem hpred, ← List.find?_map, List.map_map]
  rfl

theorem Represents.arpCacheInsert_eq (h : Represents g cfg m st) (hne : g.arpCache ≠ 0) (src : ℕ)
    {ipAddr : ℕ} {mac : List UInt8} {cache : List ArpCacheEntry}
    (hins : Manticore.arpCacheInsert st.arpCache ipAddr mac = .ok cache) :
    ∃ idx < arpCacheSize, cache = st.arpCache.set idx ⟨ipAddr, mac⟩ ∧
      arpCacheInsert m g.arpCache ipAddr src =
        memcpyFrom (store m (entryAt g idx) 4 ipAddr) (entryAt g idx + 4) src ethAlen := by
  have hentry : ∀ idx, entryAt g idx ≠ 0 := fun idx => by
    simp only [entryAt]
    omega
  rw [Manticore.arpCacheInsert] at hins
  simp only [arpCacheInsert, h.findEntry_eq]
  cases hold : Manticore.findEntry st.arpCache ipAddr (arpHash ipAddr) with
  | some idx =>
      rw [hold] at hins
      refine ⟨idx, findEntry_lt hold, (Except.ok.inj hins).symm, ?_⟩
      rw [Option.map_some, Option.getD_some, if_neg (hentry idx)]
  | none =>
      rw [hold] at hins
      cases hfree : Manticore.findEntry st.arpCache 0 (arpHash ipAddr) with
      | some idx =>
          rw [hfree] at hins
          refine ⟨idx, findEntry_lt hfree, (Except.ok.inj hins).symm, ?_⟩
          rw [Option.map_none, Option.getD_none, if_pos rfl, Option.map_some, Option.getD_some]
      | none =>
          rw [hfree] at hins
          cases hins

theorem writesOnly_entry (g : NetGlobals) (m : Mem) {idx : ℕ} (hidx : idx < arpCacheSize)
    (ipAddr src : ℕ) :
    WritesOnly [⟨entryAt g idx, sizeofArpCacheEntry⟩] m
        (memcpyFrom (store m (entryAt g idx) 4 ipAddr) (entryAt g idx + 4) src ethAlen) ∧
      WritesOnly [g.cacheSpan] m
        (memcpyFrom (store m (entryAt g idx) 4 ipAddr) (entryAt g idx + 4) src ethAlen) := by
  have hone : WritesOnly [⟨entryAt g idx, sizeofArpCacheEntry⟩] m
      (memcpyFrom (store m (entryAt g idx) 4 ipAddr) (entryAt g idx + 4) src ethAlen) := by
    refine ((WritesOnly.refl _ m).store List.mem_cons_self le_rfl ?_).memcpy
      List.mem_cons_self ?_ ?_
    all_goals
      simp only [sizeofArpCacheEntry, ethAlen]
      omega
  refine ⟨hone, hone.widen fun s hs => ⟨g.cacheSpan, List.mem_cons_self, ?_⟩⟩
  obtain rfl := List.mem_singleton.mp hs
  simp only [arpCacheSize, arpCacheShift] at hidx
  simp only [NetGlobals.cacheSpan, entryAt, sizeofArpCacheEntry, arpCacheSize, arpCacheShift]
  omega

theorem entry_written {idx ipAddr src : ℕ} (hidx : idx < arpCacheSize) (hip : ipAddr < 256 ^ 4)
    (hsrc : g.cacheSpan.Apart ⟨src, ethAlen⟩) :
    load (memcpyFrom (store m (entryAt g idx) 4 ipAddr) (entryAt g idx + 4) src ethAlen)
        (entryAt g idx) 4 = ipAddr ∧
      bytesAt (memcpyFrom (store m (entryAt g idx) 4 ipAddr) (entryAt g idx + 4) src ethAlen)
        (entryAt g idx + 4) ethAlen = bytesAt m src ethAlen := by
  constructor
  · rw [memcpyFrom, load_memcpy_of_disjoint (by omega), load_store_same hip]
  · have hstore : WritesOnly [g.cacheSpan] m (store m (entryAt g idx) 4 ipAddr) := by
      refine (WritesOnly.refl _ m).store List.mem_cons_self ?_ ?_
      all_goals
        simp only [arpCacheSize, arpCacheShift] at hidx
        simp only [NetGlobals.cacheSpan, entryAt, sizeofArpCacheEntry, arpCacheSize, arpCacheShift]
        omega
    rw [bytesAt_memcpyFrom]
    exact hstore.bytesAt_eq (List.forall_mem_singleton.mpr hsrc) le_rfl le_rfl

theorem Represents.insert (h : Represents g cfg m st) (hg : g.Apart) {idx ipAddr src : ℕ}
    (hidx : idx < arpCacheSize) (hip : ipAddr < 256 ^ 4)
    (hsrc : g.cacheSpan.Apart ⟨src, ethAlen⟩) :
    Represents g cfg
      (memcpyFrom (store m (entryAt g idx) 4 ipAddr) (entryAt g idx + 4) src ethAlen)
      { st with arpCache := st.arpCache.set idx ⟨ipAddr, bytesAt m src ethAlen⟩ } := by
  obtain ⟨hone, hall⟩ := writesOnly_entry g m hidx ipAddr src
  refine h.with_cache hg hall (by rw [List.length_set, h.cache]) fun i e hi => ?_
  rw [List.getElem?_set] at hi
  by_cases heq : idx = i
  · obtain rfl := heq
    rw [if_pos rfl] at hi
    split at hi
    · obtain rfl := Option.some.inj hi
      exact entry_written hidx hip hsrc
    · cases hi
  · rw [if_neg heq] at hi
    have hapart : ∀ s ∈ [(⟨entryAt g idx, sizeofArpCacheEntry⟩ : Span)],
        s.Apart ⟨entryAt g i, sizeofArpCacheEntry⟩ := by
      refine List.forall_mem_singleton.mpr ?_
      simp only [Span.Apart, entryAt, sizeofArpCacheEntry]
      omega
    obtain ⟨hip₁, hmac₁⟩ := h.entry i e hi
    refine ⟨(hone.load_eq hapart ?_ ?_).trans hip₁, (hone.bytesAt_eq hapart ?_ ?_).trans hmac₁⟩
    all_goals
      simp only [sizeofArpCacheEntry, ethAlen]
      omega

/-! ## The socket table -/

theorem Represents.socketLookupByFlow_eq (h : Represents g cfg m st) {port idx : ℕ}
    (hidx : Manticore.socketLookupByFlow st.sockets port = some idx) :
    idx < maxSockets ∧ socketLookupByFlow m g.sockets port = socketAt g idx := by
  rw [Manticore.socketLookupByFlow, List.take_of_length_le h.sockets.le] at hidx
  obtain ⟨hlt, hport, hfirst⟩ := List.findIdx?_eq_some_iff_getElem.mp hidx
  have hload : ∀ i (hi : i < st.sockets.length),
      load m (socketAt g i + 8) 2 = (st.sockets[i]).localPort :=
    fun i hi => (h.socket i _ (List.getElem?_eq_getElem hi)).1
  have hmax : idx < maxSockets := h.sockets ▸ hlt
  have hfind : (List.range maxSockets).find? ((fun sk => load m (sk + 8) 2 == port) ∘ socketAt g) =
      some idx := by
    refine List.find?_range_eq_some.mpr ⟨?_, List.mem_range.mpr hmax, fun j hj => ?_⟩
    · rw [Function.comp_apply, hload idx hlt]
      exact hport
    · rw [Function.comp_apply, hload j (hj.trans hlt)]
      simpa using hfirst j hj
  refine ⟨hmax, ?_⟩
  rw [socketLookupByFlow]
  change ((List.map (socketAt g) (List.range maxSockets)).find? _).getD 0 = _
  rw [List.find?_map, hfind]
  rfl

theorem bytesAt_memcpyFrom_of_le {dst src len : ℕ} (hle : len ≤ n) :
    bytesAt (memcpyFrom m dst src len) dst n =
      bytesAt m src len ++ (bytesAt m dst n).drop len := by
  obtain ⟨k, rfl⟩ := Nat.exists_eq_add_of_le hle
  rw [drop_bytesAt, Nat.add_sub_cancel_left, bytesAt_add, bytesAt_memcpyFrom, memcpyFrom,
    bytesAt_memcpy_of_disjoint (by omega)]

theorem writesOnly_rxBuffer (g : NetGlobals) (m : Mem) {idx len : ℕ} (hidx : idx < maxSockets)
    (hlen : len ≤ rxBufferSize) (src : ℕ) :
    WritesOnly [⟨socketAt g idx + 10, rxBufferSize⟩] m
        (memcpyFrom m (socketAt g idx + 10) src len) ∧
      WritesOnly [g.socketsSpan] m (memcpyFrom m (socketAt g idx + 10) src len) := by
  have hone : WritesOnly [⟨socketAt g idx + 10, rxBufferSize⟩] m
      (memcpyFrom m (socketAt g idx + 10) src len) :=
    (WritesOnly.refl _ m).memcpy List.mem_cons_self le_rfl (Nat.add_le_add_left hlen _)
  refine ⟨hone, hone.widen fun s hs => ⟨g.socketsSpan, List.mem_cons_self, ?_⟩⟩
  obtain rfl := List.mem_singleton.mp hs
  simp only [maxSockets] at hidx
  simp only [NetGlobals.socketsSpan, socketAt, sizeofSocket, maxSockets, rxBufferSize]
  omega

theorem Represents.deliver (h : Represents g cfg m st) (hg : g.Apart) (src : ℕ) {idx len : ℕ}
    (hidx : idx < maxSockets) (hlen : len ≤ rxBufferSize) :
    Represents g cfg (memcpyFrom m (socketAt g idx + 10) src len)
      (delivered st idx (bytesAt m src len)) := by
  obtain ⟨hone, hall⟩ := writesOnly_rxBuffer g m hidx hlen src
  have hlength : (st.sockets.modify idx fun sk => { sk with
      rxBuffer := bytesAt m src len ++ sk.rxBuffer.drop (bytesAt m src len).length }).length =
      maxSockets := by
    rw [List.length_modify, h.sockets]
  refine (h.with_sockets hg hall hlength fun i sk hi => ?_).histories st.submitted _
  rw [List.getElem?_modify] at hi
  obtain ⟨sk₀, hsk₀, rfl⟩ := Option.map_eq_some_iff.mp hi
  obtain ⟨hport, hbuf⟩ := h.socket i sk₀ hsk₀
  by_cases heq : idx = i
  · obtain rfl := heq
    rw [if_pos rfl, memcpyFrom, load_memcpy_of_disjoint (by omega), ← memcpyFrom,
      bytesAt_memcpyFrom_of_le hlen, length_bytesAt, hbuf]
    exact ⟨hport, rfl⟩
  · rw [if_neg heq]
    have hapart : ∀ s ∈ [(⟨socketAt g idx + 10, rxBufferSize⟩ : Span)],
        s.Apart ⟨socketAt g i + 8, sizeofSocket - 8⟩ := by
      refine List.forall_mem_singleton.mpr ?_
      simp only [Span.Apart, socketAt, sizeofSocket, rxBufferSize]
      omega
    refine ⟨(hone.load_eq hapart ?_ ?_).trans hport, (hone.bytesAt_eq hapart ?_ ?_).trans hbuf⟩
    all_goals
      simp only [sizeofSocket, rxBufferSize]
      omega

end NetView

end Manticore
