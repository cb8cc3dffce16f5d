import Manticore.Base.ProbedTable
import Manticore.Usr.Net

/-!
# The ARP cache

`usr/liblinux/src/internal/arp_cache.c`: open addressing with a multiplicative hash.  The
probe starts at the hash and goes once around the whole table, so the hash decides where an
entry is found first and never whether it is found.
-/

namespace Manticore

/-- The slots in the order in which `find_entry` looks at them. -/
def probeOrder (hash : ℕ) : List ℕ :=
  (List.range arpCacheSize).map fun count => (hash + count) &&& (arpCacheSize - 1)

theorem findEntry_eq_findSlot (cache : List ArpCacheEntry) (ipAddr hash : ℕ) :
    findEntry cache ipAddr hash =
      findSlot ArpCacheEntry.ipAddr cache ipAddr (probeOrder hash) := rfl

/-- **The probe visits every slot**, wherever it starts. -/
theorem mem_probeOrder (hash : ℕ) {i : ℕ} (hi : i < arpCacheSize) : i ∈ probeOrder hash := by
  have hsize : arpCacheSize = 2 ^ 7 := rfl
  refine List.mem_map.mpr ⟨(i + 2 ^ 7 - hash % 2 ^ 7) % 2 ^ 7, ?_, ?_⟩
  · rw [List.mem_range, hsize]
    exact Nat.mod_lt _ (by norm_num)
  · rw [hsize] at hi ⊢
    rw [Nat.and_two_pow_sub_one_eq_mod]
    omega

/-! ## One insert -/

/-- The cache stands for the map `f`, whose keys are among `ips`. -/
structure CacheHolds (ips : Finset ℕ) (cache : List ArpCacheEntry)
    (f : ℕ → Option ArpCacheEntry) : Prop where
  isMap : IsMap ArpCacheEntry.ipAddr 0 cache f
  length_eq : cache.length = arpCacheSize
  keys : ∀ e ∈ cache, e.ipAddr ≠ 0 → e.ipAddr ∈ ips

variable {ips : Finset ℕ} {cache : List ArpCacheEntry} {f : ℕ → Option ArpCacheEntry} {ip : ℕ}

theorem CacheHolds.findEntry_none (h : CacheHolds ips cache f) {hash : ℕ}
    (hnone : findEntry cache ip hash = none) : ∀ e ∈ cache, e.ipAddr ≠ ip := by
  rw [findEntry_eq_findSlot] at hnone
  exact findSlot_none (fun _ hi => mem_probeOrder hash (h.length_eq ▸ hi)) hnone

theorem findEntry_some {hash idx : ℕ} (hsome : findEntry cache ip hash = some idx) :
    ∃ e, cache[idx]? = some e ∧ e.ipAddr = ip := by
  rw [findEntry_eq_findSlot] at hsome
  exact findSlot_some hsome

theorem CacheHolds.exists_empty (h : CacheHolds ips cache f) (hfew : ips.card ≤ arpCacheSize)
    (hip : ip ∈ ips) (hnot : ∀ e ∈ cache, e.ipAddr ≠ ip) (hash : ℕ) :
    ∃ idx, findEntry cache 0 hash = some idx := by
  have hcard : (ips.erase ip).card < cache.length := by
    have hpos := Finset.card_pos.mpr ⟨ip, hip⟩
    rw [Finset.card_erase_of_mem hip, h.length_eq]
    omega
  obtain ⟨e, he, hempty⟩ := h.isMap.exists_empty
    (fun x hx hx0 => Finset.mem_erase.mpr ⟨hnot x hx, h.keys x hx hx0⟩) hcard
  rcases hfind : findEntry cache 0 hash with _ | idx
  · exact absurd hempty (h.findEntry_none hfind e he)
  · exact ⟨idx, rfl⟩

theorem CacheHolds.insert (h : CacheHolds ips cache f) (hfew : ips.card ≤ arpCacheSize)
    (hip : ip ∈ ips) (hne : ip ≠ 0) (mac : List UInt8) :
    ∃ cache', arpCacheInsert cache ip mac = .ok cache' ∧
      CacheHolds ips cache' (Function.update f ip (some ⟨ip, mac⟩)) := by
  have hset : ∀ idx old, cache[idx]? = some old →
      (old.ipAddr = ip ∨ old.ipAddr = 0 ∧ ∀ x ∈ cache, x.ipAddr ≠ ip) →
      CacheHolds ips (cache.set idx ⟨ip, mac⟩) (Function.update f ip (some ⟨ip, mac⟩)) := by
    intro idx old hidx hold
    have hmap := h.isMap.set (e := ⟨ip, mac⟩) hidx hold hne
    refine ⟨hmap, by rw [List.length_set, h.length_eq], ?_⟩
    intro e he he0
    rcases List.mem_or_eq_of_mem_set he with he | rfl
    · exact h.keys e he he0
    · exact hip
  unfold arpCacheInsert
  rcases hfind : findEntry cache ip (arpHash ip) with _ | idx
  · have hnot := h.findEntry_none hfind
    obtain ⟨idx, hempty⟩ := h.exists_empty hfew hip hnot (arpHash ip)
    obtain ⟨old, hidx, hold⟩ := findEntry_some hempty
    rw [hempty]
    exact ⟨_, rfl, hset idx old hidx (Or.inr ⟨hold, hnot⟩)⟩
  · obtain ⟨old, hidx, hold⟩ := findEntry_some hfind
    exact ⟨_, rfl, hset idx old hidx (Or.inl hold)⟩

theorem CacheHolds.lookup (h : CacheHolds ips cache f) (hne : ip ≠ 0) :
    arpCacheLookup cache ip = (f ip).map ArpCacheEntry.macAddr := by
  unfold arpCacheLookup
  rcases hfind : findEntry cache ip (arpHash ip) with _ | idx
  · have hnot := h.findEntry_none hfind
    rcases hf : f ip with _ | e
    · rfl
    · obtain ⟨he, hkey⟩ := (h.isMap.mem_iff ip hne e).mpr hf
      exact absurd hkey (hnot e he)
  · obtain ⟨e, hidx, hkey⟩ := findEntry_some hfind
    have hf := (h.isMap.mem_iff ip hne e).mp ⟨List.mem_of_getElem? hidx, hkey⟩
    rw [Option.bind_some, hidx, hf]

/-! ## Runs of inserts -/

/-- The cache after `arp_cache_init` and the inserts `ins`; an insert that finds no entry
writes through `NULL`. -/
def arpCacheAfterInserts (ins : List (ℕ × List UInt8)) : Except NetFault (List ArpCacheEntry) :=
  ins.foldlM (fun cache e => arpCacheInsert cache e.1 e.2) NetState.start.arpCache

/-- The entry of the last insert for the address. -/
def lastInsert (ins : List (ℕ × List UInt8)) (ip : ℕ) : Option ArpCacheEntry :=
  (ins.reverse.lookup ip).map fun mac => ⟨ip, mac⟩

theorem lastInsert_snoc (ins : List (ℕ × List UInt8)) (ip : ℕ) (mac : List UInt8) :
    lastInsert (ins ++ [(ip, mac)]) = Function.update (lastInsert ins) ip (some ⟨ip, mac⟩) := by
  funext k
  rw [lastInsert, List.reverse_append, List.reverse_singleton, List.singleton_append,
    List.lookup_cons]
  by_cases hk : k = ip
  · subst hk
    rw [Function.update_self, beq_self_eq_true]
    rfl
  · rw [Function.update_of_ne hk, beq_false_of_ne hk]
    rfl

theorem cacheHolds_inserts (hfew : ips.card ≤ arpCacheSize) (ins : List (ℕ × List UInt8)) :
    (∀ e ∈ ins, e.1 ∈ ips ∧ e.1 ≠ 0) →
      ∃ cache, arpCacheAfterInserts ins = .ok cache ∧ CacheHolds ips cache (lastInsert ins) := by
  induction ins using List.reverseRecOn with
  | nil =>
      intro _
      refine ⟨NetState.start.arpCache, rfl, isMap_replicate _ rfl, List.length_replicate, ?_⟩
      intro e he hne
      exact absurd (List.eq_of_mem_replicate he ▸ rfl) hne
  | append_singleton ins e ih =>
      intro hins
      obtain ⟨cache, hcache, hold⟩ := ih fun x hx => hins x (List.mem_append_left _ hx)
      obtain ⟨hip, hne⟩ := hins e (List.mem_append_right _ (List.mem_singleton_self e))
      obtain ⟨cache', hinsert, hnew⟩ := hold.insert hfew hip hne e.2
      refine ⟨cache', ?_, lastInsert_snoc ins e.1 e.2 ▸ hnew⟩
      rw [arpCacheAfterInserts] at hcache ⊢
      rw [List.foldlM_append, hcache]
      show List.foldlM (fun cache e => arpCacheInsert cache e.1 e.2) cache [e] = _
      rw [List.foldlM_cons, hinsert]
      rfl

/-- **The ARP cache is a map.** With at most as many addresses as slots, every insert finds
an entry, no address has two slots, and a lookup gives what was inserted last. -/
theorem arp_cache_is_map (ins : List (ℕ × List UInt8)) (hne : ∀ e ∈ ins, e.1 ≠ 0)
    (hfew : (ins.map Prod.fst).toFinset.card ≤ arpCacheSize) :
    ∃ cache, arpCacheAfterInserts ins = .ok cache ∧
      (∀ (i j : ℕ) (e e' : ArpCacheEntry), cache[i]? = some e → cache[j]? = some e' →
        e.ipAddr = e'.ipAddr → e.ipAddr ≠ 0 → i = j) ∧
      ∀ ip, ip ≠ 0 → arpCacheLookup cache ip = ins.reverse.lookup ip := by
  obtain ⟨cache, hcache, h⟩ := cacheHolds_inserts hfew ins fun e he =>
    ⟨List.mem_toFinset.mpr (List.mem_map_of_mem he), hne e he⟩
  refine ⟨cache, hcache, h.isMap.unique, ?_⟩
  intro ip hip
  rw [h.lookup hip, lastInsert, Option.map_map]
  exact Option.map_id'

/-- Two addresses, one of them inserted twice. -/
theorem arp_cache_is_map_update : ∃ cache,
    arpCacheAfterInserts [(2, [1]), (3, [2]), (2, [3])] = .ok cache ∧
      arpCacheLookup cache 2 = some [3] := by
  obtain ⟨cache, hcache, -, hlookup⟩ := arp_cache_is_map [(2, [1]), (3, [2]), (2, [3])]
    (by decide) (by decide)
  exact ⟨cache, hcache, hlookup 2 (by decide)⟩

/-! ## A full cache

The key of an empty slot is an address that a packet may hold.  An insert of `0.0.0.0` goes to an
empty slot and leaves it empty, and a lookup of `0.0.0.0` finds an empty slot as long as there is
one. -/

/-- The addresses of the inserts that take a slot. -/
def addresses (ins : List (ℕ × List UInt8)) : Finset ℕ := (ins.map Prod.fst).toFinset.erase 0

theorem addresses_concat (ins : List (ℕ × List UInt8)) (e : ℕ × List UInt8) :
    addresses (ins ++ [e]) = (insert e.1 (addresses ins)).erase 0 := by
  ext ip
  simp only [addresses, List.map_append, List.map_singleton, List.toFinset_append, Finset.mem_erase,
    Finset.mem_union, Finset.mem_insert, List.mem_toFinset, List.mem_singleton]
  tauto

/-- Every insert comes for an address that is there, or while a slot is left. -/
def Room (ins : List (ℕ × List UInt8)) : Prop :=
  ∀ pre e post, ins = pre ++ e :: post →
    e.1 ∈ addresses pre ∨ (addresses pre).card < arpCacheSize

theorem room_concat (ins : List (ℕ × List UInt8)) (e : ℕ × List UInt8) : Room (ins ++ [e]) ↔
    Room ins ∧ (e.1 ∈ addresses ins ∨ (addresses ins).card < arpCacheSize) := by
  constructor
  · intro h
    refine ⟨fun pre x post heq => h pre x (post ++ [e]) ?_, h ins e [] rfl⟩
    rw [heq, List.append_assoc, List.cons_append]
  · rintro ⟨h, hlast⟩ pre x post heq
    cases post using List.reverseRecOn with
    | nil =>
        obtain ⟨rfl, hx⟩ := List.append_inj' heq rfl
        obtain rfl := List.cons.inj hx |>.1
        exact hlast
    | append_singleton post y =>
        rw [← List.cons_append, ← List.append_assoc] at heq
        exact h pre x post (List.append_inj' heq rfl).1

/-- The cache stands for `f`, and `ips` are the addresses that have a slot. -/
structure CacheKeys (ips : Finset ℕ) (cache : List ArpCacheEntry)
    (f : ℕ → Option ArpCacheEntry) : Prop extends CacheHolds ips cache f where
  zero_notMem : 0 ∉ ips
  used : ∀ ip ∈ ips, ∃ e ∈ cache, e.ipAddr = ip

namespace CacheKeys

theorem subset_addresses (h : CacheKeys ips cache f) :
    ips ⊆ (cache.map ArpCacheEntry.ipAddr).toFinset := by
  intro ip hip
  obtain ⟨e, he, rfl⟩ := h.used ip hip
  exact List.mem_toFinset.mpr (List.mem_map_of_mem he)

theorem card_addresses_le (h : CacheKeys ips cache f) :
    (cache.map ArpCacheEntry.ipAddr).toFinset.card ≤ arpCacheSize := by
  refine (List.toFinset_card_le _).trans ?_
  rw [List.length_map, h.length_eq]

theorem card_le (h : CacheKeys ips cache f) : ips.card ≤ arpCacheSize :=
  (Finset.card_le_card h.subset_addresses).trans h.card_addresses_le

theorem exists_empty_iff (h : CacheKeys ips cache f) :
    (∃ e ∈ cache, e.ipAddr = 0) ↔ ips.card < arpCacheSize := by
  constructor
  · rintro ⟨e, he, he0⟩
    have hsub : insert 0 ips ⊆ (cache.map ArpCacheEntry.ipAddr).toFinset := by
      refine Finset.insert_subset ?_ h.subset_addresses
      exact he0 ▸ List.mem_toFinset.mpr (List.mem_map_of_mem he)
    have hcard := (Finset.card_le_card hsub).trans h.card_addresses_le
    rwa [Finset.card_insert_of_notMem h.zero_notMem] at hcard
  · intro hlt
    exact h.isMap.exists_empty h.keys (h.length_eq ▸ hlt)

theorem findEntry_isSome_iff (h : CacheKeys ips cache f) (ip hash : ℕ) :
    (findEntry cache ip hash).isSome ↔ ∃ e ∈ cache, e.ipAddr = ip := by
  cases hfind : findEntry cache ip hash with
  | none =>
      refine iff_of_false Bool.false_ne_true ?_
      rintro ⟨e, he, hkey⟩
      exact h.findEntry_none hfind e he hkey
  | some idx =>
      obtain ⟨e, hidx, hkey⟩ := findEntry_some hfind
      exact iff_of_true rfl ⟨e, List.mem_of_getElem? hidx, hkey⟩

theorem mem_iff (h : CacheKeys ips cache f) (hne : ip ≠ 0) :
    (∃ e ∈ cache, e.ipAddr = ip) ↔ ip ∈ ips :=
  ⟨fun ⟨e, he, hkey⟩ => hkey ▸ h.keys e he (hkey ▸ hne), h.used ip⟩

theorem insert_address (h : CacheKeys ips cache f) (hne : ip ≠ 0)
    (hroom : ip ∈ ips ∨ ips.card < arpCacheSize) (mac : List UInt8) :
    ∃ cache', arpCacheInsert cache ip mac = .ok cache' ∧
      CacheKeys (insert ip ips) cache' (Function.update f ip (some ⟨ip, mac⟩)) := by
  have hcard : (insert ip ips).card ≤ arpCacheSize := by
    rcases hroom with hip | hlt
    · rw [Finset.insert_eq_of_mem hip]
      exact h.card_le
    · exact (Finset.card_insert_le ip ips).trans hlt
  have hmore : CacheHolds (insert ip ips) cache f :=
    ⟨h.isMap, h.length_eq, fun e he he0 => Finset.mem_insert_of_mem (h.keys e he he0)⟩
  obtain ⟨cache', hins, hnew⟩ := hmore.insert hcard (Finset.mem_insert_self ip ips) hne mac
  refine ⟨cache', hins, hnew, ?_, ?_⟩
  · rw [Finset.mem_insert, not_or]
    exact ⟨hne.symm, h.zero_notMem⟩
  · intro k hk
    have hk0 : k ≠ 0 := by
      rintro rfl
      exact (Finset.mem_insert.mp hk).elim (fun h0 => hne h0.symm) h.zero_notMem
    by_cases hkip : k = ip
    · subst hkip
      exact ⟨_, (hnew.isMap.mem_iff k hk0 ⟨k, mac⟩).mpr (Function.update_self ..)⟩
    · obtain ⟨e, he, hkey⟩ := h.used k (Finset.mem_of_mem_insert_of_ne hk hkip)
      have hf : f k = some e := (h.isMap.mem_iff k hk0 e).mp ⟨he, hkey⟩
      exact ⟨e, (hnew.isMap.mem_iff k hk0 e).mpr ((Function.update_of_ne hkip ..).trans hf)⟩

theorem insert_zero (h : CacheKeys ips cache f) (hlt : ips.card < arpCacheSize)
    (mac : List UInt8) : ∃ cache', arpCacheInsert cache 0 mac = .ok cache' ∧
      CacheKeys ips cache' (Function.update f 0 (some ⟨0, mac⟩)) := by
  have hsome := (h.findEntry_isSome_iff 0 (arpHash 0)).mpr (h.exists_empty_iff.mpr hlt)
  obtain ⟨idx, hfind⟩ := Option.isSome_iff_exists.mp hsome
  obtain ⟨old, hidx, hold⟩ := findEntry_some hfind
  obtain ⟨hidxlt, -⟩ := List.getElem?_eq_some_iff.mp hidx
  have hmap := (h.isMap.set_empty (e := ⟨0, mac⟩) hidx hold rfl).congr
    fun k hk => Function.update_of_ne hk (some ⟨0, mac⟩) f
  refine ⟨cache.set idx ⟨0, mac⟩, ?_, ⟨hmap, by rw [List.length_set, h.length_eq], ?_⟩,
    h.zero_notMem, ?_⟩
  · rw [arpCacheInsert, hfind]
  · intro e he he0
    rcases List.mem_or_eq_of_mem_set he with he | rfl
    · exact h.keys e he he0
    · exact absurd rfl he0
  · intro ip hip
    have hne : ip ≠ 0 := fun h0 => h.zero_notMem (h0 ▸ hip)
    obtain ⟨e, he, hkey⟩ := h.used ip hip
    have hf : f ip = some e := (h.isMap.mem_iff ip hne e).mp ⟨he, hkey⟩
    exact ⟨e, (hmap.mem_iff ip hne e).mpr ((Function.update_of_ne hne ..).trans hf)⟩

theorem insert_error (h : CacheKeys ips cache f)
    (hroom : ¬ (ip ∈ ips ∨ ips.card < arpCacheSize)) (mac : List UInt8) :
    arpCacheInsert cache ip mac = .error .nullEntry := by
  rw [not_or] at hroom
  have hempty (hash : ℕ) : findEntry cache 0 hash = none := by
    rw [← Option.not_isSome_iff_eq_none, h.findEntry_isSome_iff, h.exists_empty_iff]
    exact hroom.2
  have hentry : findEntry cache ip (arpHash ip) = none := by
    by_cases hne : ip = 0
    · rw [hne]
      exact hempty _
    · rw [← Option.not_isSome_iff_eq_none, h.findEntry_isSome_iff, h.mem_iff hne]
      exact hroom.1
  rw [arpCacheInsert, hentry, hempty]

/-- **One insert** succeeds just if there is room. -/
theorem insert (h : CacheKeys ips cache f) (e : ℕ × List UInt8)
    (hroom : e.1 ∈ ips ∨ ips.card < arpCacheSize) :
    ∃ cache', arpCacheInsert cache e.1 e.2 = .ok cache' ∧
      CacheKeys ((Insert.insert e.1 ips).erase 0) cache'
        (Function.update f e.1 (some ⟨e.1, e.2⟩)) := by
  obtain ⟨ip, mac⟩ := e
  by_cases hne : ip = 0
  · subst hne
    rw [Finset.erase_insert h.zero_notMem]
    exact h.insert_zero (hroom.resolve_left h.zero_notMem) mac
  · have hnot : 0 ∉ Insert.insert ip ips := by
      rw [Finset.mem_insert, not_or]
      exact ⟨Ne.symm hne, h.zero_notMem⟩
    rw [Finset.erase_eq_of_notMem hnot]
    exact h.insert_address hne hroom mac

end CacheKeys

theorem arpCacheAfterInserts_concat (ins : List (ℕ × List UInt8)) (e : ℕ × List UInt8) :
    arpCacheAfterInserts (ins ++ [e]) =
      (arpCacheAfterInserts ins).bind fun cache => arpCacheInsert cache e.1 e.2 := by
  unfold arpCacheAfterInserts
  rw [List.foldlM_append]
  refine congrArg (Except.bind _) (funext fun cache => ?_)
  rw [List.foldlM_cons]
  exact bind_pure _

/-- **Runs of inserts** complete just if there was room for each. -/
theorem cacheKeys_inserts (ins : List (ℕ × List UInt8)) :
    (Room ins ∧ ∃ cache, arpCacheAfterInserts ins = .ok cache ∧
      CacheKeys (addresses ins) cache (lastInsert ins)) ∨
    (¬ Room ins ∧ arpCacheAfterInserts ins = .error .nullEntry) := by
  induction ins using List.reverseRecOn with
  | nil =>
      refine .inl ⟨fun pre e post h => (List.append_ne_nil_of_right_ne_nil pre
        (List.cons_ne_nil e post) h.symm).elim, NetState.start.arpCache, rfl,
        ⟨isMap_replicate _ rfl, List.length_replicate, ?_⟩, by simp [addresses], by simp [addresses]⟩
      intro e he hne
      exact absurd (List.eq_of_mem_replicate he ▸ rfl) hne
  | append_singleton ins e ih =>
      rw [room_concat, arpCacheAfterInserts_concat]
      obtain ⟨hroom, cache, hcache, hkeys⟩ | ⟨hroom, herror⟩ := ih
      · rw [hcache]
        by_cases hlast : e.1 ∈ addresses ins ∨ (addresses ins).card < arpCacheSize
        · obtain ⟨cache', hins, hnew⟩ := hkeys.insert e hlast
          refine .inl ⟨⟨hroom, hlast⟩, cache', hins, ?_⟩
          rw [addresses_concat, lastInsert_snoc]
          exact hnew
        · exact .inr ⟨fun h => hlast h.2, hkeys.insert_error hlast e.2⟩
      · rw [herror]
        exact .inr ⟨fun h => hroom h.1, rfl⟩

/-- **The cache is not exhausted** by a run of inserts: it completes, the address of the last one is
found, and `0.0.0.0` is not. -/
def NotExhausted (ins : List (ℕ × List UInt8)) : Prop :=
  ∃ cache, arpCacheAfterInserts ins = .ok cache ∧
    (∀ ip mac, ins.getLast? = some (ip, mac) → ip ≠ 0 → arpCacheLookup cache ip = some mac) ∧
    arpCacheLookup cache 0 = none

theorem CacheKeys.lookup_zero (h : CacheKeys ips cache f) :
    arpCacheLookup cache 0 = none ↔ ips.card = arpCacheSize := by
  have hsome := (h.findEntry_isSome_iff 0 (arpHash 0)).trans h.exists_empty_iff
  have hle := h.card_le
  unfold arpCacheLookup
  cases hfind : findEntry cache 0 (arpHash 0) with
  | none =>
      rw [hfind] at hsome
      refine iff_of_true rfl (le_antisymm hle (not_lt.mp fun hlt => ?_))
      exact Bool.false_ne_true (hsome.mpr hlt)
  | some idx =>
      rw [hfind] at hsome
      obtain ⟨e, hidx, -⟩ := findEntry_some hfind
      rw [Option.bind_some, hidx]
      exact iff_of_false (Option.some_ne_none _) (hsome.mp rfl).ne

/-- **When the cache serves a run of inserts**: there is room for each of them, and no slot is left
in the end. -/
theorem arp_cache_not_exhausted_iff (ins : List (ℕ × List UInt8)) : NotExhausted ins ↔
    Room ins ∧ (addresses ins).card = arpCacheSize := by
  obtain ⟨hroom, cache, hcache, hkeys⟩ | ⟨hroom, herror⟩ := cacheKeys_inserts ins
  · rw [and_iff_right hroom, ← hkeys.lookup_zero]
    constructor
    · rintro ⟨cache', hcache', -, hzero⟩
      obtain rfl := Except.ok.inj (hcache.symm.trans hcache')
      exact hzero
    · refine fun hzero => ⟨cache, hcache, fun ip mac hlast hne => ?_, hzero⟩
      obtain ⟨init, rfl⟩ := List.getLast?_eq_some_iff.mp hlast
      rw [hkeys.lookup hne, lastInsert_snoc, Function.update_self]
      rfl
  · refine iff_of_false ?_ fun h => hroom h.1
    rintro ⟨cache, hcache, -⟩
    rw [herror] at hcache
    cases hcache

/-- Inserts of the addresses `1` to `n`. -/
def firstAddresses (n : ℕ) : List (ℕ × List UInt8) :=
  (List.range n).map fun i => (i + 1, [2, 0, 0, 0, 0, 2])

theorem card_addresses_firstAddresses (n : ℕ) : (addresses (firstAddresses n)).card = n := by
  have heq : addresses (firstAddresses n) = (Finset.range n).image Nat.succ := by
    ext ip
    simp only [addresses, firstAddresses, List.map_map, Finset.mem_erase, List.mem_toFinset,
      List.mem_map, List.mem_range, Function.comp_apply, Finset.mem_image, Finset.mem_range]
    constructor
    · exact fun h => h.2
    · rintro ⟨i, hi, rfl⟩
      exact ⟨Nat.succ_ne_zero i, i, hi, rfl⟩
  rw [heq, Finset.card_image_of_injective _ Nat.succ_injective, Finset.card_range]

/-- `0.0.0.0` is found after a single insert, and the insert of a 129th address fails. -/
theorem arp_cache_exhausted :
    (arpCacheAfterInserts (firstAddresses 1)).toOption.bind (arpCacheLookup · 0) =
        some [0, 0, 0, 0, 0, 0] ∧
      arpCacheAfterInserts (firstAddresses 129) = .error .nullEntry := by
  refine ⟨by decide +kernel, ?_⟩
  obtain ⟨hroom, -⟩ | ⟨-, herror⟩ := cacheKeys_inserts (firstAddresses 129)
  · have hsplit : firstAddresses 129 = firstAddresses 128 ++ [(129, [2, 0, 0, 0, 0, 2])] := by
      rw [firstAddresses, List.range_succ, List.map_append]
      rfl
    have hcard := card_addresses_firstAddresses 128
    rcases hroom _ _ _ hsplit with hmem | hlt
    · simp [addresses, firstAddresses] at hmem
    · rw [hcard] at hlt
      exact absurd hlt (by decide)
  · exact herror

end Manticore
