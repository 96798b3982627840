import FreeToken.Engine.CacheView

/-!
# What `add_request` did

`addRequest_cases` takes a call apart: it raised before the request was queued,
it raised afterwards, or it returned; in each case with the engine it left.
-/

namespace FreeToken

namespace Engine

variable {e e' : Engine}

/-! ### Page-table rows -/

theorem rowSlice_length (e : Engine) (row a b : Nat) :
    (e.rowSlice row a b).length = min b e.config.maxSeqLen - a := by
  simp [rowSlice]

theorem rowSlice_getElem? {row a b j : Nat} (h : j < min b e.config.maxSeqLen - a) :
    (e.rowSlice row a b)[j]? = some (e.pageTable row (a + j)) := by
  simp [rowSlice, h]

theorem rowSlice_congr (hconfig : e'.config = e.config) {row : Nat}
    (hrow : e'.pageTable row = e.pageTable row) (a b : Nat) :
    e'.rowSlice row a b = e.rowSlice row a b := by
  rw [rowSlice, rowSlice, hconfig, hrow]

theorem rowSlice_append (e : Engine) (row : Nat) {a b c : Nat} (hab : a ≤ b) (hbc : b ≤ c) :
    e.rowSlice row a b ++ e.rowSlice row b c = e.rowSlice row a c := by
  simp only [rowSlice, ← List.map_append]
  congr 1
  by_cases hb : b ≤ e.config.maxSeqLen
  · have h := List.range'_append_1 (s := a) (m := b - a) (n := min c e.config.maxSeqLen - b)
    rw [Nat.min_eq_left hb]
    have h1 : a + (b - a) = b := by omega
    have h2 : b - a + (min c e.config.maxSeqLen - b) = min c e.config.maxSeqLen - a := by omega
    rw [h1, h2] at h
    exact h
  · have h1 : min b e.config.maxSeqLen = e.config.maxSeqLen := by omega
    have h2 : min c e.config.maxSeqLen = e.config.maxSeqLen := by omega
    have h3 : e.config.maxSeqLen - b = 0 := by omega
    simp [h1, h2, h3]

theorem assignRow_spec (e : Engine) (row : Nat) {a b : Nat} {values : List Slot}
    (h : b - a = values.length)
    (hab : a ≤ b) (hb : b ≤ e.config.maxSeqLen) :
    ∃ pt, e.assignRow row a b values = some { e with pageTable := pt } ∧
      (∀ r, r ≠ row → pt r = e.pageTable r) ∧
      ({ e with pageTable := pt } : Engine).rowSlice row a b = values ∧
      (∀ j, j < a ∨ b ≤ j → pt row j = e.pageTable row j) := by
  refine ⟨Function.update e.pageTable row fun j =>
    if a ≤ j then (values[j - a]?).getD (e.pageTable row j) else e.pageTable row j,
    by rw [assignRow, if_pos h], ?_, ?_, ?_⟩
  · intro r hr
    exact Function.update_of_ne hr _ _
  · refine List.ext_getElem? fun j => ?_
    by_cases hj : j < values.length
    · rw [rowSlice_getElem? (by simp only; omega)]
      simp [hj]
    · have hmin : min b e.config.maxSeqLen - a = values.length := by omega
      rw [List.getElem?_eq_none (by rw [rowSlice_length]; exact hmin.le.trans (by omega)),
        List.getElem?_eq_none (by omega)]
  · intro j hj
    simp only [Function.update_self]
    split
    · have hnone : values[j - a]? = none := List.getElem?_eq_none (by omega)
      rw [hnone, Option.getD_none]
    · rfl

/-! ### The prefix match -/

/-- What the prefix-cache block of `add_request` found and locked. -/
structure PromptMatched (e : Engine) (hs : List RadixCacheHandle) (ids : List Token)
    (m : PromptMatch) : Prop where
  frame : m.engine = { e with cacheManager := m.engine.cacheManager }
  cacheOk : m.engine.CacheOk (m.cacheHandle.toList ++ hs)
  isSome_eq : m.engine.cacheManager.isSome = e.cacheManager.isSome
  entries_eq : m.engine.tree.entries = e.tree.entries
  span_eq : ∀ h ∈ hs, m.engine.handleSpan h = e.handleSpan h
  off : e.cacheManager = none → m.cachedLen = 0 ∧ m.cacheHandle = none ∧ m.matchedIndices = [] ∧
    m.engine = e
  on : e.cacheManager.isSome → ∃ h n, m.cacheHandle = some h ∧
    m.engine.handleSpan h = some (ids.take n, m.matchedIndices) ∧ m.matchedIndices.length = n ∧
    n ≤ ids.length ∧ e.config.pageSize ∣ n ∧
    m.cachedLen = alignDown (min (n : Int) (ids.length - 1)) e.config.pageSize ∧
    (h.node ≠ none → 0 < n) ∧
    (h.node = none → n = 0 ∧ ∀ c c', e.cacheManager = some c → m.engine.cacheManager = some c' →
      c'.tree = c.tree ∧ c'.evictableSize = c.evictableSize ∧ c'.protectedSize = c.protectedSize)

theorem matchPrompt_spec {hs : List RadixCacheHandle} (hc : e.CacheOk hs) (ids : List Token) :
    PromptMatched e hs ids (e.matchPrompt ids) := by
  cases hcm : e.cacheManager with
  | none =>
      have hm : e.matchPrompt ids =
          { cachedLen := 0, cacheHandle := none, matchedIndices := [], engine := e } := by
        simp [matchPrompt, hcm]
      rw [hm]
      exact ⟨rfl, hc, rfl, rfl, fun _ _ => rfl, fun _ => ⟨rfl, rfl, rfl, rfl⟩,
        fun h => by simp [hcm] at h⟩
  | some c =>
      obtain ⟨hw, hps⟩ := hc c hcm
      have hspec := RadixPrefixCache.matchPrefix_spec hw ids
      generalize hmp : c.matchPrefix ids = r at hspec
      obtain ⟨m, c1⟩ := r
      simp only at hspec
      obtain ⟨hlock, hkeeps, hroot⟩ := RadixPrefixCache.lock_spec hspec.wellFormed
        (h := m.handle) fun u hu => (hspec.node_mem u hu).1
      obtain ⟨slots, hspan, hlen⟩ := hspec.span_eq
      have hspan' : (c1.lock m.handle).handleSpan m.handle = some (ids.take m.cachedLen, slots) :=
        (hkeeps.handleSpan_eq fun u hu => (hspec.node_mem u hu).1).trans hspan
      have hm : e.matchPrompt ids =
          { cachedLen := alignDown (min (m.cachedLen : Int) (ids.length - 1)) e.config.pageSize
            cacheHandle := some m.handle
            matchedIndices := slots
            engine := { e with cacheManager := some (c1.lock m.handle) } } := by
        simp only [matchPrompt, hcm, hmp, RadixPrefixCache.getMatchedIndices_eq hspan']
      rw [hm]
      refine
        { frame := rfl
          cacheOk := ?_
          isSome_eq := by simp [hcm]
          entries_eq := ?_
          span_eq := ?_
          off := fun h => by rw [hcm] at h; cases h
          on := ?_ }
      · intro c' hc'
        obtain rfl := Option.some.inj hc'
        exact ⟨hlock, (hkeeps.pageSize_eq.trans hspec.keeps.pageSize_eq).trans hps⟩
      · simp only [tree, hcm]
        exact hkeeps.entries_eq.trans hspec.keeps.entries_eq
      · intro h hh
        simp only [handleSpan, hcm, Option.bind_some]
        refine (hkeeps.handleSpan_eq fun u hu => hspec.wellFormed.held h hh u hu).trans ?_
        exact hspec.keeps.handleSpan_eq fun u hu => hw.held h hh u hu
      · intro _
        refine ⟨m.handle, m.cachedLen, rfl, hspan', hlen, hspec.cachedLen_le,
          hps ▸ hspec.dvd_cachedLen, rfl, ?_, ?_⟩
        · intro hne
          obtain ⟨u, hu⟩ := Option.ne_none_iff_exists'.mp hne
          exact (hspec.node_mem u hu).2
        · intro hnone
          refine ⟨(hspec.root hnone).1, ?_⟩
          intro c0 c' hc0 hc'
          rw [hcm] at hc0
          obtain rfl := Option.some.inj hc0
          obtain rfl := Option.some.inj hc'
          rw [hroot hnone]
          exact ⟨(hspec.root hnone).2, hspec.evictableSize_eq, hspec.protectedSize_eq⟩

namespace PromptMatched

variable {hs : List RadixCacheHandle} {ids : List Token} {m : PromptMatch}

/-- A nonempty prompt is admitted with a whole number of pages, its last token
left out. -/
theorem cachedLen_nonneg (h : PromptMatched e hs ids m) (hne : ids ≠ []) :
    ∃ k : Nat, m.cachedLen = k ∧ e.config.pageSize ∣ k ∧ k < ids.length := by
  have hpos := List.length_pos_of_ne_nil hne
  by_cases hsome : e.cacheManager.isSome
  · obtain ⟨x, n, -, -, -, hn, -, hcached, -⟩ := h.on hsome
    refine ⟨alignDownNat (min n (ids.length - 1)) e.config.pageSize, ?_, dvd_alignDownNat _ _, ?_⟩
    · rw [hcached, ← alignDown_natCast]
      congr 1
      omega
    · have := alignDownNat_le (min n (ids.length - 1)) e.config.pageSize
      omega
  · obtain ⟨h0, -⟩ := h.off (by simpa using hsome)
    exact ⟨0, h0, Nat.dvd_zero _, hpos⟩

/-- An empty prompt gets a negative `cached_len` when the cache is on. -/
theorem cachedLen_nil (h : PromptMatched e hs [] m) :
    m.cachedLen = if e.cacheManager.isSome then -(e.config.pageSize : Int) else 0 := by
  by_cases hsome : e.cacheManager.isSome
  · obtain ⟨x, n, -, -, -, hn, -, hcached, -⟩ := h.on hsome
    have hps := e.config.pageSize_pos
    have hn0 : n = 0 := Nat.le_zero.mp hn
    rw [if_pos hsome, hcached, hn0]
    have hdiv : (-1 : Int) / (e.config.pageSize : Int) = -1 := by
      refine Int.ediv_eq_neg_one_of_neg_of_le ?_ ?_ <;> omega
    simp [alignDown, hdiv]
  · rw [if_neg hsome]
    exact (h.off (by simpa using hsome)).1

theorem cachedLen_le_matched (h : PromptMatched e hs ids m) (hne : ids ≠ []) {k : Nat}
    (hk : m.cachedLen = k) : k ≤ m.matchedIndices.length := by
  by_cases hsome : e.cacheManager.isSome
  · have hpos := List.length_pos_of_ne_nil hne
    obtain ⟨x, n, -, -, hlen, -, -, hcached, -⟩ := h.on hsome
    have hmin : (min (n : Int) (ids.length - 1)) = ((min n (ids.length - 1) : Nat) : Int) := by
      omega
    rw [hcached, hmin, alignDown_natCast] at hk
    have := alignDownNat_le (min n (ids.length - 1)) e.config.pageSize
    omega
  · have h0 := (h.off (by simpa using hsome)).1
    omega

end PromptMatched

/-! ### `_allocate_slot` -/

/-- What `_allocate_slot` may touch: the row, its allocation, and unlocked prefixes
of the tree. -/
structure SlotTouched (hs : List RadixCacheHandle) (e : Engine) (row : Nat) (e' : Engine) :
    Prop where
  frame : e' = { e with
    cacheManager := e'.cacheManager, kvCache := e'.kvCache, pageTable := e'.pageTable }
  cacheOk : e'.CacheOk hs
  isSome_eq : e'.cacheManager.isSome = e.cacheManager.isSome
  span_eq : ∀ h ∈ hs, e'.handleSpan h = e.handleSpan h
  entries_sub : ∀ x ∈ e'.tree.entries, x ∈ e.tree.entries
  pageSize_eq : e'.kvCache.pageSize = e.kvCache.pageSize
  numPages_eq : e'.kvCache.numPages = e.kvCache.numPages
  alloc_eq : ∀ r, r ≠ row → e'.kvCache.alloc r = e.kvCache.alloc r
  pageTable_eq : ∀ r, r ≠ row → e'.pageTable r = e.pageTable r

/-- The row got its slots: its prefix is the matched one, the rest its own. -/
structure SlotAllocated (hs : List RadixCacheHandle) (e : Engine) (row k : Nat)
    (matched : List Slot) (e' : Engine) : Prop extends SlotTouched hs e row e' where
  owned : ∃ slots, e'.kvCache.alloc = Function.update e.kvCache.alloc row (some slots) ∧
    slots.length = e.pagesFor k * e.config.pageSize ∧
    (e.kvCache.freeSlots ++ e.tree.slots).Perm (slots ++ (e'.kvCache.freeSlots ++ e'.tree.slots)) ∧
    e'.rowSlice row k e.config.maxSeqLen = slots.take (e.config.maxSeqLen - k)
  prefix_eq : e'.rowSlice row 0 k = matched.take k

/-- The pool was too full; slots of unlocked prefixes may have been reclaimed. -/
structure SlotRefused (hs : List RadixCacheHandle) (e : Engine) (row k : Nat)
    (matched : List Slot) (e' : Engine) : Prop extends SlotTouched hs e row e' where
  kv_eq : e'.kvCache = { e.kvCache with freeSlots := e'.kvCache.freeSlots }
  slots_perm : (e.kvCache.freeSlots ++ e.tree.slots).Perm (e'.kvCache.freeSlots ++ e'.tree.slots)
  prefix_eq : e'.rowSlice row 0 k = matched.take k

theorem assignRow_shape {row a b : Nat} {values : List Slot} (h : e.assignRow row a b values = some e') :
    b - a = values.length := by
  unfold assignRow at h
  split at h
  · assumption
  · cases h

theorem assignRow_frame {row a b : Nat} {values : List Slot} (h : e.assignRow row a b values = some e') :
    ∃ pt, e' = { e with pageTable := pt } ∧ ∀ r, r ≠ row → pt r = e.pageTable r := by
  unfold assignRow at h
  split at h
  · cases h
    exact ⟨_, rfl, fun r hr => Function.update_of_ne hr _ _⟩
  · cases h

/-- Whatever the prompt and the result. -/
theorem allocateSlot_touched {hs : List RadixCacheHandle} (hc : e.CacheOk hs)
    (hps : e.kvCache.pageSize = e.config.pageSize) {row : Nat} {cachedLen : Int}
    {matched : List Slot} {res : Except EngineError Unit} (hnone : e.kvCache.alloc row = none)
    (h : e.allocateSlot row cachedLen matched = (res, e')) : SlotTouched hs e row e' := by
  unfold allocateSlot at h
  dsimp only at h
  split at h
  · simp only [Prod.mk.injEq] at h
    obtain ⟨-, rfl⟩ := h
    exact ⟨rfl, hc, rfl, fun _ _ => rfl, fun _ h => h, rfl, rfl, fun _ _ => rfl, fun _ _ => rfl⟩
  · rename_i e0 hassign
    obtain ⟨pt, rfl, hother⟩ := assignRow_frame hassign
    rcases allocateOrEvict_spec (e := { e with pageTable := pt }) (hc.congr rfl rfl) hps
      (pagesFor { e with pageTable := pt } cachedLen) hnone with
      ⟨-, slots, e1, kv, hrec, halloc, hres⟩ | ⟨-, err, e1, hrec, hres⟩
    · have hkv : kv.pageSize = e1.kvCache.pageSize ∧ kv.numPages = e1.kvCache.numPages ∧
          ∀ r, r ≠ row → kv.alloc r = e1.kvCache.alloc r := by
        unfold MHAKVCache.allocate at halloc
        dsimp only at halloc
        split at halloc
        · cases halloc
        · split at halloc
          · cases halloc
          · simp only [Except.ok.injEq, Prod.mk.injEq] at halloc
            obtain ⟨-, rfl⟩ := halloc
            exact ⟨rfl, rfl, fun r hr => Function.update_of_ne hr _ _⟩
      have htouched : ∀ pt', (∀ r, r ≠ row → pt' r = e.pageTable r) →
          SlotTouched hs e row { e1 with kvCache := kv, pageTable := pt' } := by
        intro pt' hpt'
        have hkv1 := hrec.kv_eq
        exact
          { frame := by rw [hrec.frame]
            cacheOk := hrec.cacheOk.congr rfl rfl
            isSome_eq := hrec.isSome_eq
            span_eq := hrec.span_eq
            entries_sub := hrec.entries_sub
            pageSize_eq := hkv.1.trans (by rw [hkv1])
            numPages_eq := hkv.2.1.trans (by rw [hkv1])
            alloc_eq := fun r hr => (hkv.2.2 r hr).trans (by rw [hkv1])
            pageTable_eq := hpt' }
      have hpt1 : e1.pageTable = pt := by rw [hrec.frame]
      rw [hres] at h
      dsimp only at h
      split at h
      · simp only [Prod.mk.injEq] at h
        obtain ⟨-, rfl⟩ := h
        exact htouched e1.pageTable fun r hr => hpt1 ▸ hother r hr
      · rename_i e2 hassign2
        simp only [Prod.mk.injEq] at h
        obtain ⟨-, rfl⟩ := h
        obtain ⟨pt2, rfl, hother2⟩ := assignRow_frame hassign2
        exact htouched pt2 fun r hr => (hother2 r hr).trans (hpt1 ▸ hother r hr)
    · rw [hres] at h
      simp only [Prod.mk.injEq] at h
      obtain ⟨-, rfl⟩ := h
      have hkv1 := hrec.kv_eq
      exact
        { frame := by rw [hrec.frame]
          cacheOk := hrec.cacheOk
          isSome_eq := hrec.isSome_eq
          span_eq := hrec.span_eq
          entries_sub := hrec.entries_sub
          pageSize_eq := by rw [hkv1]
          numPages_eq := by rw [hkv1]
          alloc_eq := fun r _ => by rw [hkv1]
          pageTable_eq := by
            intro r hr
            rw [hrec.frame]
            exact hother r hr }

theorem pagesFor_natCast (e : Engine) {k : Nat} (hk : k ≤ e.config.maxSeqLen) :
    e.pagesFor k = ceilDiv ((e.config.maxSeqLen - k : Nat) : Int) e.config.pageSize := by
  unfold pagesFor
  congr 1
  omega

theorem le_pagesFor_mul (e : Engine) {k : Nat} (hk : k ≤ e.config.maxSeqLen) :
    e.config.maxSeqLen - k ≤ e.pagesFor k * e.config.pageSize := by
  rw [e.pagesFor_natCast hk]
  exact (ceilDiv_bounds _ e.config.pageSize_pos).1

theorem allocateSlot_spec {hs : List RadixCacheHandle} (hc : e.CacheOk hs)
    (hps : e.kvCache.pageSize = e.config.pageSize) {row k : Nat} {matched : List Slot}
    (hnone : e.kvCache.alloc row = none) (hk : k ≤ e.config.maxSeqLen) (hlen : k ≤ matched.length) :
    (e.pagesFor k * e.config.pageSize ≤ e.kvCache.freeSlots.length + e.tree.evictable ∧
      ∃ e', e.allocateSlot row k matched = (.ok (), e') ∧ SlotAllocated hs e row k matched e') ∨
    (e.kvCache.freeSlots.length + e.tree.evictable < e.pagesFor k * e.config.pageSize ∧
      ∃ n e', e.allocateSlot row k matched = (.error (.kvPoolFull
          (e.pagesFor k * e.config.pageSize) (e.pagesFor k) e.config.pageSize n), e') ∧
        SlotRefused hs e row k matched e') := by
  have hstop : sliceStop e.config.maxSeqLen (k : Int) = k := by
    rw [sliceStop_natCast]
    omega
  have htake : (if (k : Int) = 0 then [] else sliceTo matched (k : Int)) = matched.take k := by
    split
    · rename_i h0
      have : k = 0 := by omega
      simp [this]
    · rw [sliceTo_natCast]
  obtain ⟨pt, hassign, hother, hfront, -⟩ := e.assignRow_spec row
    (show k - 0 = (matched.take k).length by rw [List.length_take]; omega) (Nat.zero_le _) hk
  have hspec := allocateOrEvict_spec (e := { e with pageTable := pt })
    (hc.congr rfl rfl) hps (e.pagesFor k) hnone
  rcases hspec with ⟨hfit, slots, e1, kv, hrec, halloc, hres⟩ | ⟨hfull, n, e1, hrec, hres⟩
  · left
    refine ⟨hfit, ?_⟩
    have hcfg : e1.config = e.config := by
      rw [hrec.frame]
    have hnone1 : e1.kvCache.alloc row = none := by
      rw [hrec.kv_eq]
      exact hnone
    have hps1 : e1.kvCache.pageSize = e.config.pageSize := by
      rw [hrec.kv_eq]
      exact hps
    have hle : e.pagesFor k * e1.kvCache.pageSize ≤ e1.kvCache.freeSlots.length := by
      by_contra hgt
      obtain ⟨n, herr⟩ := MHAKVCache.allocate_full e1.kvCache hnone1 (Nat.lt_of_not_le hgt)
      rw [herr] at halloc
      cases halloc
    rw [MHAKVCache.allocate_ok e1.kvCache hnone1 hle] at halloc
    simp only [Except.ok.injEq, Prod.mk.injEq] at halloc
    obtain ⟨rfl, rfl⟩ := halloc
    have hslots : (e1.kvCache.freeSlots.take (e.pagesFor k * e1.kvCache.pageSize)).length =
        e.pagesFor k * e.config.pageSize := by
      rw [List.length_take, ← hps1]
      exact Nat.min_eq_left hle
    have hremain := e.le_pagesFor_mul hk
    have htoNat : ((e1.config.maxSeqLen : Int) - k).toNat = e1.config.maxSeqLen - k := by omega
    have hwidth : e1.config.maxSeqLen - k =
        ((e1.kvCache.freeSlots.take (e.pagesFor k * e1.kvCache.pageSize)).take
          (e1.config.maxSeqLen - k)).length := by
      rw [List.length_take, hslots, hcfg]
      omega
    obtain ⟨pt2, hassign2, hother2, hown, hkeep⟩ := assignRow_spec
      { e1 with
        kvCache := { e1.kvCache with
          freeSlots := e1.kvCache.freeSlots.drop (e.pagesFor k * e1.kvCache.pageSize)
          alloc := Function.update e1.kvCache.alloc row
            (some (e1.kvCache.freeSlots.take (e.pagesFor k * e1.kvCache.pageSize))) } }
      row hwidth (by rw [hcfg]; exact hk) (Nat.le_refl _)
    have hpt1 : e1.pageTable = pt := by
      rw [hrec.frame]
    have hres' : e.allocateSlot row k matched = (.ok (), { e1 with
        kvCache := { e1.kvCache with
          freeSlots := e1.kvCache.freeSlots.drop (e.pagesFor k * e1.kvCache.pageSize)
          alloc := Function.update e1.kvCache.alloc row
            (some (e1.kvCache.freeSlots.take (e.pagesFor k * e1.kvCache.pageSize))) }
        pageTable := pt2 }) := by
      simp only [allocateSlot, hstop, htake, hassign]
      rw [show pagesFor { e with pageTable := pt } (k : Int) = e.pagesFor k from rfl, hres]
      simp only [htoNat, hassign2]
    refine ⟨_, hres',
      { toSlotTouched := allocateSlot_touched hc hps hnone hres'
        owned := ⟨_, by rw [hrec.kv_eq], hslots, ?_, hcfg ▸ hown⟩
        prefix_eq := ?_ }⟩
    · refine hrec.slots_perm.trans ?_
      rw [← List.append_assoc, List.take_append_drop]
      exact List.Perm.refl _
    · refine Eq.trans ?_ hfront
      simp only [rowSlice, hcfg]
      refine List.map_congr_left fun j hj => ?_
      rw [List.mem_range'_1] at hj
      rw [hkeep j (Or.inl (by omega)), hpt1]
  · right
    have hres' : e.allocateSlot row k matched = (.error (.kvPoolFull
        (e.pagesFor k * e.config.pageSize) (e.pagesFor k) e.config.pageSize n), e1) := by
      simp only [allocateSlot, hstop, htake, hassign]
      rw [show pagesFor { e with pageTable := pt } (k : Int) = e.pagesFor k from rfl, hres]
    exact ⟨hfull, n, e1, hres',
      { toSlotTouched := allocateSlot_touched hc hps hnone hres'
        kv_eq := hrec.kv_eq
        slots_perm := hrec.slots_perm
        prefix_eq := by
          refine Eq.trans ?_ hfront
          rw [hrec.frame]
          rfl }⟩

/-! ### The call -/

/-- The three slots `alloc` popped for an entry, if there is a pool. -/
def LinearTaken (e : Engine) (slots : Option (Slot × Slot × Slot)) (e' : Engine) : Prop :=
  (e.linearStatePool = none ∧ e'.linearStatePool = none ∧ slots = none) ∨
  ∃ pool pool' live track0 track1, e.linearStatePool = some pool ∧
    e'.linearStatePool = some pool' ∧ slots = some (live, track0, track1) ∧
    pool.freeSlots = pool'.freeSlots ++ [track1, track0, live] ∧ pool'.numSlots = pool.numSlots

/-- The call raised before the scheduler had the request. -/
inductive NotQueued (e : Engine) (m : PromptMatch) : Engine → Prop where
  | exhausted {pool : LinearStatePool} (hpool : e.linearStatePool = some pool)
      (hshort : pool.freeSlots.length < 3) : NotQueued e m m.engine
  | noRow {slots : Option (Slot × Slot × Slot)} (lp : Option LinearStatePool)
      (htaken : LinearTaken e slots { m.engine with linearStatePool := lp })
      (hrows : e.scheduler.freeSlots = []) : NotQueued e m { m.engine with linearStatePool := lp }

theorem NotQueued.frame {hs : List RadixCacheHandle} {ids : List Token} {m : PromptMatch}
    (h : NotQueued e m e') (hm : PromptMatched e hs ids m) :
    e' = { e with
      cacheManager := m.engine.cacheManager
      linearStatePool := e'.linearStatePool } := by
  cases h with
  | exhausted hpool hshort =>
      rw [hm.frame]
  | noRow lp htaken hrows =>
      rw [hm.frame]

/-- The engine once the scheduler has queued the entry `p`. -/
structure Queued (e : Engine) (args : AddArgs) (m : PromptMatch) (p : PendingReq) (e3 : Engine) :
    Prop where
  frame : e3 = { e with
    cacheManager := m.engine.cacheManager
    linearStatePool := e3.linearStatePool
    scheduler := e3.scheduler
    admittedCachedLen := e3.admittedCachedLen }
  linear : LinearTaken e (p.linearSlotIdx.bind fun live =>
    p.mambaPingPong.map fun tracks => (live, tracks)) e3
  linear_isSome : p.linearSlotIdx.isSome = p.mambaPingPong.isSome
  admitted_eq : e3.admittedCachedLen = if e.cacheManager.isSome then
    Function.update e.admittedCachedLen p.tableIdx (some m.cachedLen) else e.admittedCachedLen
  add_eq : ∃ p0 : PendingReq, e.scheduler.add p0 = .ok (p, e3.scheduler) ∧ p0.chunkedReq = none ∧
    p0.inputIds = args.inputIds ∧ p0.cachedLen = m.cachedLen
  uid_eq : p.uid = args.uid
  inputIds_eq : p.inputIds = args.inputIds
  samplingParams_eq : p.samplingParams = args.samplingParams
  cachedLen_eq : p.cachedLen = m.cachedLen
  cacheHandle_eq : p.cacheHandle = m.cacheHandle
  chunkedReq_eq : p.chunkedReq = none
  restoreSrc_eq : p.mambaRestoreSrc = e.restoreSrc args.inputIds m.cachedLen

theorem addRequest_cases {hs : List RadixCacheHandle} (args : AddArgs)
    (hm : PromptMatched e hs args.inputIds (e.matchPrompt args.inputIds)) :
    (∃ err e', e.addRequest args = (.error err, e') ∧
      NotQueued e (e.matchPrompt args.inputIds) e') ∨
    ∃ p e3, Queued e args (e.matchPrompt args.inputIds) p e3 ∧
      ((∃ err e', e.addRequest args = (.error err, e') ∧
          e3.allocateSlot p.tableIdx (e.matchPrompt args.inputIds).cachedLen
            (e.matchPrompt args.inputIds).matchedIndices = (.error err, e')) ∨
        ∃ e', e.addRequest args = (.ok p, e') ∧
          e3.allocateSlot p.tableIdx (e.matchPrompt args.inputIds).cachedLen
            (e.matchPrompt args.inputIds).matchedIndices = (.ok (), e')) := by
  generalize hmdef : e.matchPrompt args.inputIds = m at hm
  have hpool : m.engine.linearStatePool = e.linearStatePool := by rw [hm.frame]
  have hsched : m.engine.scheduler = e.scheduler := by rw [hm.frame]
  cases hlin : m.engine.allocLinear with
  | error err =>
      left
      refine ⟨err, m.engine, by simp only [addRequest, hmdef, hlin], ?_⟩
      unfold allocLinear at hlin
      split at hlin
      · cases hlin
      · rename_i pool hp
        split at hlin
        · rename_i err' h3
          exact NotQueued.exhausted (hpool ▸ hp) (LinearStatePool.alloc3_error h3)
        · cases hlin
  | ok r =>
      obtain ⟨slots, e2⟩ := r
      obtain ⟨lp, rfl, htaken⟩ : ∃ lp, e2 = { m.engine with linearStatePool := lp } ∧
          LinearTaken e slots { m.engine with linearStatePool := lp } := by
        unfold allocLinear at hlin
        split at hlin
        · rename_i hp
          simp only [Except.ok.injEq, Prod.mk.injEq] at hlin
          obtain ⟨rfl, rfl⟩ := hlin
          exact ⟨none, by rw [← hp], Or.inl ⟨hpool ▸ hp, rfl, rfl⟩⟩
        · rename_i pool hp
          split at hlin
          · cases hlin
          · rename_i slots' pool' h3
            simp only [Except.ok.injEq, Prod.mk.injEq] at hlin
            obtain ⟨rfl, rfl⟩ := hlin
            obtain ⟨live, track0, track1⟩ := slots'
            obtain ⟨hfree, hnum⟩ := LinearStatePool.alloc3_ok h3
            exact ⟨some pool', rfl,
              Or.inr ⟨pool, pool', live, track0, track1, hpool ▸ hp, rfl, rfl, hfree, hnum⟩⟩
      have hsrc : restoreSrc { m.engine with linearStatePool := lp } args.inputIds m.cachedLen =
          e.restoreSrc args.inputIds m.cachedLen := by
        have hanchors : m.engine.mambaAnchorSnapshots = e.mambaAnchorSnapshots := by rw [hm.frame]
        have hsome : lp.isSome = e.linearStatePool.isSome := by
          rcases htaken with ⟨h1, h2, -⟩ | ⟨pool, pool', _, _, _, h1, h2, -⟩
          · rw [h1, show lp = none from h2]
          · rw [h1, show lp = some pool' from h2]
            rfl
        simp only [restoreSrc, hanchors, hsome]
      cases hadd : m.engine.scheduler.add (makePendingReq args m slots
          (e.restoreSrc args.inputIds m.cachedLen)) with
      | error err =>
          left
          refine ⟨err, { m.engine with linearStatePool := lp }, ?_,
            NotQueued.noRow lp htaken (hsched ▸ Scheduler.add_error hadd)⟩
          simp only [addRequest, hmdef, hlin, hsrc, hadd]
      | ok r =>
          obtain ⟨p, s'⟩ := r
          have hp : p = { makePendingReq args m slots (e.restoreSrc args.inputIds m.cachedLen) with
              tableIdx := p.tableIdx } := by
            unfold Scheduler.add at hadd
            split at hadd
            · cases hadd
            · simp only [Except.ok.injEq, Prod.mk.injEq] at hadd
              obtain ⟨rfl, -⟩ := hadd
              rfl
          have hadmitted : m.engine.admittedCachedLen = e.admittedCachedLen := by rw [hm.frame]
          have hslots : (slots.map fun s => s.1).bind (fun live =>
              (slots.map fun s => s.2).map fun tracks => (live, tracks)) = slots := by
            cases slots <;> rfl
          right
          refine ⟨p, { m.engine with
            linearStatePool := lp
            scheduler := s'
            admittedCachedLen := if m.engine.cacheManager.isSome then
              Function.update m.engine.admittedCachedLen p.tableIdx (some m.cachedLen)
              else m.engine.admittedCachedLen }, ?_, ?_⟩
          · refine
              { frame := by rw [hm.frame]
                linear := ?_
                linear_isSome := by
                  rw [hp]
                  simp [makePendingReq]
                admitted_eq := by
                  simp only [hm.isSome_eq, hadmitted]
                add_eq := ⟨_, hsched ▸ hadd, rfl, rfl, rfl⟩
                uid_eq := by rw [hp]; rfl
                inputIds_eq := by rw [hp]; rfl
                samplingParams_eq := by rw [hp]; rfl
                cachedLen_eq := by rw [hp]; rfl
                cacheHandle_eq := by rw [hp]; rfl
                chunkedReq_eq := by rw [hp]; rfl
                restoreSrc_eq := by rw [hp]; rfl }
            rw [hp]
            simp only [makePendingReq, hslots]
            exact htaken
          · generalize hall : allocateSlot { m.engine with
              linearStatePool := lp
              scheduler := s'
              admittedCachedLen := if m.engine.cacheManager.isSome then
                Function.update m.engine.admittedCachedLen p.tableIdx (some m.cachedLen)
                else m.engine.admittedCachedLen } p.tableIdx m.cachedLen m.matchedIndices = r
            obtain ⟨res, e'⟩ := r
            cases res with
            | error err =>
                left
                refine ⟨err, e', ?_, rfl⟩
                simp only [addRequest, hmdef, hlin, hsrc, hadd, hall]
            | ok u =>
                right
                refine ⟨e', ?_, rfl⟩
                simp only [addRequest, hmdef, hlin, hsrc, hadd, hall]

end Engine

end FreeToken
