import FreeToken.Engine.Books

/-!
# Who owns which KV slot

In a run where `add_request` never raises after it queued a request, every live
request holds the slots its row names: the matched prefix is stored in the tree and
locked, the rest is its own (`Held`). The usable slots are shared out among the free
list, the live requests and the tree (`Keeping`); what a commit neither stores nor
releases is collected in `lost`.
-/

namespace FreeToken

namespace Engine

variable {e e' : Engine} {t : Transcript} {orphans : List RadixCacheHandle} {lost : List Slot}

structure Held (e : Engine) (x : Live) : Prop where
  admitted_le : e.admitted x.seat.row ≤ x.done
  done_le : x.done ≤ x.ids.length
  le_maxSeqLen : e.admitted x.seat.row ≤ e.config.maxSeqLen
  dvd : e.config.pageSize ∣ e.admitted x.seat.row
  alloc : ∃ slots, e.kvCache.alloc x.seat.row = some slots ∧
    slots.length = e.pagesFor (e.admitted x.seat.row) * e.config.pageSize ∧
    e.rowSlice x.seat.row (e.admitted x.seat.row) e.config.maxSeqLen =
      slots.take (e.config.maxSeqLen - e.admitted x.seat.row)
  off : x.seat.handle = none → e.admitted x.seat.row = 0
  span : ∀ h, x.seat.handle = some h → ∃ toks slots, e.handleSpan h = some (toks, slots) ∧
    toks.length = slots.length ∧ e.admitted x.seat.row ≤ toks.length ∧
    toks.take (e.admitted x.seat.row) = x.ids.take (e.admitted x.seat.row) ∧
    e.rowSlice x.seat.row 0 (e.admitted x.seat.row) = slots.take (e.admitted x.seat.row)

theorem admitted_congr {row : Nat} (h : e'.admittedCachedLen row = e.admittedCachedLen row) :
    e'.admitted row = e.admitted row := by
  rw [admitted, admitted, h]

theorem owned_congr {row : Nat} (h : e'.kvCache.alloc row = e.kvCache.alloc row) :
    e'.owned row = e.owned row := by
  rw [owned, owned, h]

/-- Holding depends on the request's own row and handle only. -/
theorem Held.congr {x : Live} (h : Held e x) (hconfig : e'.config = e.config)
    (hadm : e'.admittedCachedLen x.seat.row = e.admittedCachedLen x.seat.row)
    (halloc : e'.kvCache.alloc x.seat.row = e.kvCache.alloc x.seat.row)
    (hrow : e'.pageTable x.seat.row = e.pageTable x.seat.row)
    (hspan : ∀ handle, x.seat.handle = some handle → e'.handleSpan handle = e.handleSpan handle) :
    Held e' x := by
  have hadm' := admitted_congr hadm
  refine ⟨?_, h.done_le, ?_, ?_, ?_, ?_, ?_⟩
  · rw [hadm']
    exact h.admitted_le
  · rw [hadm', hconfig]
    exact h.le_maxSeqLen
  · rw [hadm', hconfig]
    exact h.dvd
  · rw [halloc, hadm', rowSlice_congr hconfig hrow, hconfig, pagesFor, hconfig]
    exact h.alloc
  · rw [hadm']
    exact h.off
  · intro handle hh
    rw [hspan handle hh, hadm', rowSlice_congr hconfig hrow]
    exact h.span handle hh

theorem Held.advanced {x x' : Live} {s : Slice} (h : Held e x) (hadv : Advanced x s x') :
    Held e x' := by
  have hlt := hadv.done_lt
  have hle := hadv.done_le
  have hadm := h.admitted_le
  have hpre : x'.ids.take (e.admitted x.seat.row) = x.ids.take (e.admitted x.seat.row) := by
    rcases hadv.ids_eq with heq | ⟨-, tok, heq⟩
    · rw [heq]
    · rw [heq, List.take_append_of_le_length (by omega)]
  have hlen : x.ids.length ≤ x'.ids.length := by
    rcases hadv.ids_eq with heq | ⟨-, tok, heq⟩
    · rw [heq]
    · rw [heq]
      simp
  refine ⟨?_, hle.trans hlen, ?_, ?_, ?_, ?_, ?_⟩ <;> rw [hadv.seat_eq]
  · omega
  · exact h.le_maxSeqLen
  · exact h.dvd
  · exact h.alloc
  · exact h.off
  · rw [hpre]
    exact h.span

/-- The requests `xs` hold their slots, and the usable slots are shared out. -/
structure Keeping (e : Engine) (xs : List Live) (orphans : List RadixCacheHandle)
    (lost : List Slot) : Prop where
  cacheOk : e.CacheOk ((xs.filterMap fun x => x.seat.handle) ++ orphans)
  stored_le : ∀ x ∈ e.tree.entries, x.1.length ≤ e.config.maxSeqLen
  pageSize_eq : e.kvCache.pageSize = e.config.pageSize
  rows_nodup : (xs.map fun x => x.seat.row).Nodup
  alloc_none : ∀ row, row ∉ xs.map (fun x => x.seat.row) → e.kvCache.alloc row = none
  held : ∀ x ∈ xs, Held e x
  slots_perm : (e.kvCache.freeSlots ++ ((xs.flatMap fun x => e.owned x.seat.row) ++
    (e.tree.slots ++ lost))).Perm (MHAKVCache.usable e.kvCache.numSlots)

namespace Keeping

variable {xs xs' : List Live}

theorem row_notMem {x : Live} (h : Keeping e (x :: xs) orphans lost) :
    x.seat.row ∉ xs.map fun x => x.seat.row :=
  (List.nodup_cons.mp h.rows_nodup).1

/-- The same requests, some of them further on. -/
theorem advance (h : Keeping e xs orphans lost)
    (hseats : (xs'.map Live.seat).Perm (xs.map Live.seat))
    (hheld : ∀ x ∈ xs', Held e x) : Keeping e xs' orphans lost := by
  have hrows : (xs'.map fun x => x.seat.row).Perm (xs.map fun x => x.seat.row) := by
    simpa [Function.comp_def] using hseats.map Seat.row
  have hhandles : (xs'.filterMap fun x => x.seat.handle).Perm
      (xs.filterMap fun x => x.seat.handle) := by
    simpa [List.filterMap_map, Function.comp_def] using hseats.filterMap Seat.handle
  have howned : (xs'.flatMap fun x => e.owned x.seat.row).Perm
      (xs.flatMap fun x => e.owned x.seat.row) := by
    simpa [List.flatMap_map, Function.comp_def] using hseats.flatMap_right fun s => e.owned s.row
  exact
    { cacheOk := h.cacheOk.perm (hhandles.symm.append_right orphans)
      stored_le := h.stored_le
      pageSize_eq := h.pageSize_eq
      rows_nodup := hrows.nodup_iff.mpr h.rows_nodup
      alloc_none := fun row hrow => h.alloc_none row fun hmem => hrow (hrows.mem_iff.mpr hmem)
      held := hheld
      slots_perm := ((howned.append_right _).append_left _).trans h.slots_perm }

theorem perm (h : Keeping e xs orphans lost) (hp : xs.Perm xs') : Keeping e xs' orphans lost :=
  h.advance (hp.symm.map _) fun x hx => h.held x (hp.mem_iff.mpr hx)

/-- The requests `ys` leave: the engine afterwards gives the others what they had,
and their slots went to the free list, the tree or nowhere. -/
theorem release (ys : List Live) {orphans' : List RadixCacheHandle} {lost' : List Slot}
    (h : Keeping e (ys ++ xs) orphans lost) (hconfig : e'.config = e.config)
    (hcache : e'.CacheOk ((xs.filterMap fun x => x.seat.handle) ++ orphans'))
    (hstored : ∀ x ∈ e'.tree.entries, x.1.length ≤ e'.config.maxSeqLen)
    (hspan : ∀ handle ∈ xs.filterMap fun x => x.seat.handle,
      e'.handleSpan handle = e.handleSpan handle)
    (hps : e'.kvCache.pageSize = e.kvCache.pageSize)
    (hnp : e'.kvCache.numPages = e.kvCache.numPages)
    (hrows : ∀ x ∈ xs, e'.admittedCachedLen x.seat.row = e.admittedCachedLen x.seat.row ∧
      e'.kvCache.alloc x.seat.row = e.kvCache.alloc x.seat.row ∧
      e'.pageTable x.seat.row = e.pageTable x.seat.row)
    (hnone : ∀ row, row ∉ xs.map (fun x => x.seat.row) → e'.kvCache.alloc row = none)
    (hslots : (e.kvCache.freeSlots ++ ((ys.flatMap fun x => e.owned x.seat.row) ++
      (e.tree.slots ++ lost))).Perm (e'.kvCache.freeSlots ++ (e'.tree.slots ++ lost'))) :
    Keeping e' xs orphans' lost' := by
  have hxs : ∀ x ∈ xs, x ∈ ys ++ xs := fun x hx => List.mem_append_right _ hx
  have howned : (xs.flatMap fun x => e'.owned x.seat.row) =
      xs.flatMap fun x => e.owned x.seat.row :=
    List.flatMap_congr fun x hx => owned_congr (hrows x hx).2.1
  refine
    { cacheOk := hcache
      stored_le := hstored
      pageSize_eq := hps.trans (h.pageSize_eq.trans (by rw [hconfig]))
      rows_nodup := ?_
      alloc_none := hnone
      held := ?_
      slots_perm := ?_ }
  · have hn := h.rows_nodup
    rw [List.map_append] at hn
    exact (List.nodup_append'.mp hn).2.1
  · intro x hx
    obtain ⟨hadm, halloc, hpt⟩ := hrows x hx
    refine (h.held x (hxs x hx)).congr hconfig hadm halloc hpt fun handle hh => ?_
    exact hspan handle (List.mem_filterMap.mpr ⟨x, hx, hh⟩)
  · have husable : MHAKVCache.usable e'.kvCache.numSlots =
        MHAKVCache.usable e.kvCache.numSlots := by
      rw [MHAKVCache.numSlots, MHAKVCache.numSlots, hps, hnp]
    rw [husable, howned]
    refine List.Perm.trans (List.perm_iff_count.mpr fun a => ?_) h.slots_perm
    have hcount := hslots.count_eq a
    rw [List.flatMap_append]
    simp only [List.count_append] at hcount ⊢
    omega

/-- Nothing the keeping is about changed. -/
theorem congr (h : Keeping e xs orphans lost) (hconfig : e'.config = e.config)
    (hcache : e'.cacheManager = e.cacheManager) (hkv : e'.kvCache = e.kvCache)
    (hadm : e'.admittedCachedLen = e.admittedCachedLen) (hpt : e'.pageTable = e.pageTable) :
    Keeping e' xs orphans lost := by
  refine release [] h hconfig (h.cacheOk.congr hcache hconfig) ?_ ?_ (by rw [hkv])
    (by rw [hkv]) ?_ ?_ ?_
  · rw [tree_congr hcache, hconfig]
    exact h.stored_le
  · exact fun handle _ => handleSpan_congr hcache handle
  · intro x _
    rw [hadm, hkv, hpt]
    exact ⟨rfl, rfl, rfl⟩
  · rw [hkv]
    exact h.alloc_none
  · rw [hkv, tree_congr hcache]
    exact List.Perm.refl _

end Keeping

/-! ### Committing -/

/-- A request of `L` tokens fills its slots without a remainder. -/
def FillsPages (config : EngineConfig) (L : Nat) : Prop :=
  config.pageSize ∣ min L config.maxSeqLen ∧ config.pageSize ∣ config.maxSeqLen

instance (config : EngineConfig) (L : Nat) : Decidable (FillsPages config L) :=
  inferInstanceAs (Decidable (_ ∧ _))

/-- The slots a commit neither stores nor releases: those of the tokens past the
last whole page, and the allocation's rounding past the row's end. -/
def leftOver (e : Engine) (row L : Nat) : List Slot :=
  e.rowSlice row (alignDownNat L e.config.pageSize) L ++
    (e.owned row).drop (e.config.maxSeqLen - e.admitted row)

theorem rowSlice_split (e : Engine) {row a L : Nat} (ha : a ≤ L) :
    e.rowSlice row a L ++ e.rowSlice row L e.config.maxSeqLen = e.rowSlice row a e.config.maxSeqLen := by
  rcases Nat.le_total L e.config.maxSeqLen with hL | hL
  · exact e.rowSlice_append row ha hL
  · have h1 : min L e.config.maxSeqLen = e.config.maxSeqLen := by omega
    simp [rowSlice, h1, Nat.sub_eq_zero_of_le hL]

theorem Held.leftOver_eq_nil_iff {x : Live} (h : Held e x) {L : Nat}
    (haligned : alignDownNat L e.config.pageSize ≤ e.config.maxSeqLen) :
    e.leftOver x.seat.row L = [] ↔ FillsPages e.config L := by
  obtain ⟨slots, halloc, hlen, -⟩ := h.alloc
  have hps := e.config.pageSize_pos
  have hadm := h.le_maxSeqLen
  have hL := alignDownNat_le L e.config.pageSize
  have howned : e.owned x.seat.row = slots := by rw [owned, halloc, Option.getD_some]
  have hfirst : e.rowSlice x.seat.row (alignDownNat L e.config.pageSize) L = [] ↔
      e.config.pageSize ∣ min L e.config.maxSeqLen := by
    rw [← List.length_eq_zero_iff, rowSlice_length]
    constructor
    · intro h0
      have heq : min L e.config.maxSeqLen = alignDownNat L e.config.pageSize := by omega
      rw [heq]
      exact dvd_alignDownNat _ _
    · intro hdvd
      have := le_alignDownNat hdvd (Nat.min_le_left L e.config.maxSeqLen)
      omega
  have hsecond : slots.drop (e.config.maxSeqLen - e.admitted x.seat.row) = [] ↔
      e.config.pageSize ∣ e.config.maxSeqLen := by
    have hle := e.le_pagesFor_mul hadm
    rw [List.drop_eq_nil_iff, hlen]
    rw [e.pagesFor_natCast hadm] at hle ⊢
    have hiff := ceilDiv_mul_eq_iff (e.config.maxSeqLen - e.admitted x.seat.row) hps
    have hsub : e.config.pageSize ∣ e.config.maxSeqLen - e.admitted x.seat.row ↔
        e.config.pageSize ∣ e.config.maxSeqLen := Nat.dvd_sub_iff_left hadm h.dvd
    rw [← hsub, ← hiff]
    constructor <;> intro h <;> omega
  rw [leftOver, List.append_eq_nil_iff, hfirst, howned, hsecond, FillsPages]

namespace Keeping

variable {xs : List Live}

/-- The tree held the admitted prefix, so it stores at least that much of the history. -/
theorem admitted_le_stored {x : Live} {req : Req} {n : Nat} {hs : List RadixCacheHandle}
    (hx : Held e x) (hids : e.history req.tableIdx = x.ids)
    (hne : x.ids ≠ []) (hvalid : ∀ c, e.cacheManager = some c → ∃ ps, c.tree.Valid ps)
    (hcommit : Committed hs e req e' n) : e.admitted x.seat.row ≤ n := by
  rcases Nat.eq_zero_or_pos (e.admitted x.seat.row) with h0 | hpos
  · omega
  cases hh : x.seat.handle with
  | none =>
      have := hx.off hh
      omega
  | some h =>
      obtain ⟨toks, slots, hspan, hlen, hle, htoks, -⟩ := hx.span h hh
      have hadm : e.admitted x.seat.row ≤ x.ids.length := hx.admitted_le.trans hx.done_le
      obtain ⟨c, hcm, hspan⟩ := Option.bind_eq_some_iff.mp hspan
      obtain ⟨ps, hv⟩ := hvalid c hcm
      unfold RadixPrefixCache.handleSpan at hspan
      cases hnode : h.node with
      | none =>
          simp only [hnode, Option.some.injEq, Prod.mk.injEq] at hspan
          rw [← hspan.1, List.length_nil] at hle
          omega
      | some u =>
          rw [hnode] at hspan
          have hlast : e.admitted x.seat.row - 1 < slots.length := by omega
          have hentry := Forest.mem_entries_of_span hv hspan (List.getElem?_eq_getElem hlast)
          have htree : e.tree = c.tree := by simp [tree, hcm]
          have hpos' : e.admitted x.seat.row - 1 + 1 = e.admitted x.seat.row := by omega
          rw [hpos', htoks, ← htree] at hentry
          have hlong := hcommit.longest (hids ▸ hne) _ _ hentry
            (by rw [hids]; exact List.take_prefix _ _)
            (by rw [List.length_take, Nat.min_eq_left hadm]; exact hx.dvd)
          rw [List.length_take] at hlong
          omega

/-- One round of the commit loop: the request leaves, and `leftOver` is lost. -/
theorem commitOne {x : Live} {req : Req} (h : Keeping e (x :: xs) orphans lost)
    (hsome : e.cacheManager.isSome) (hseat : req.seat = x.seat)
    (hids : e.history req.tableIdx = x.ids) (hne : x.ids ≠ [])
    (hone : e.commitOne req = some e') :
    Keeping e' xs orphans (e.leftOver x.seat.row x.ids.length ++ lost) ∧
      (e.leftOver x.seat.row x.ids.length = [] ↔ FillsPages e.config x.ids.length) := by
  have hrow : req.tableIdx = x.seat.row := congrArg Seat.row hseat
  have hhandle : req.cacheHandle = x.seat.handle := congrArg Seat.handle hseat
  have hx := h.held x List.mem_cons_self
  have hcache : e.CacheOk (req.cacheHandle.toList ++
      ((xs.filterMap fun x => x.seat.handle) ++ orphans)) := by
    have hc := h.cacheOk
    rw [hhandle]
    cases hh : x.seat.handle with
    | none => simpa [hh] using hc
    | some handle => simpa [hh] using hc
  obtain ⟨n, hcommit⟩ := commitOne_spec hsome hcache h.stored_le hone
  have hadm := admitted_le_stored hx hids hne
    (fun c hc => ⟨_, (h.cacheOk c hc).1.valid⟩) hcommit
  have hL := hcommit.le
  have haligned := hcommit.aligned_le
  have hentries := hcommit.entries_perm
  have hkv := hcommit.kv_eq (hids ▸ hne)
  rw [hids] at hL haligned hkv hentries
  have hle := alignDownNat_le x.ids.length e.config.pageSize
  refine ⟨?_, hx.leftOver_eq_nil_iff haligned⟩
  obtain ⟨slots, halloc, hlen, hslice⟩ := hx.alloc
  have howned : e.owned x.seat.row = slots := by rw [owned, halloc, Option.getD_some]
  obtain ⟨halloc', hps, hnp, hfree⟩ := (e.kvCache.detach req.tableIdx).releaseSlots_frame
    (e.rowSlice req.tableIdx (e.admitted req.tableIdx) n ++
      e.rowSlice req.tableIdx x.ids.length e.config.maxSeqLen)
  rw [← hkv] at halloc' hps hnp hfree
  have hnot := h.row_notMem
  have hne' : ∀ y ∈ xs, y.seat.row ≠ req.tableIdx := fun y hy heq =>
    hnot (List.mem_map.mpr ⟨y, hy, heq.trans hrow⟩)
  have hconfig : e'.config = e.config := by rw [hcommit.frame]
  refine release [x] h hconfig hcommit.cacheOk
    ((commitOne_keeps hcache h.stored_le hone).2.1) ?_ hps hnp ?_ ?_ ?_
  · exact fun handle hh => hcommit.span_eq handle (List.mem_append_left _ hh)
  · intro y hy
    have hothers := commitOne_others hone (hne' y hy)
    refine ⟨hothers.2.1, hothers.2.2, ?_⟩
    rw [hcommit.frame]
  · intro row hmem
    rw [halloc']
    by_cases heq : row = req.tableIdx
    · rw [heq]
      exact Function.update_self _ _ _
    · refine (Function.update_of_ne heq _ _).trans (h.alloc_none row fun hmem' => ?_)
      rcases List.mem_cons.mp hmem' with h' | h'
      · exact heq (h'.trans hrow.symm)
      · exact hmem h'
  · -- the row is cut at what was admitted, stored, committed and processed
    have htree : e'.tree.slots.Perm (e.tree.slots ++
        e.rowSlice x.seat.row n (alignDownNat x.ids.length e.config.pageSize)) := by
      have hmap := hentries.map Prod.snd
      rw [List.map_append, RadixPrefixCache.map_snd_newEntries] at hmap
      · refine hmap.trans (List.Perm.of_eq ?_)
        congr 1
        rw [hrow, ← e.rowSlice_append x.seat.row (Nat.zero_le _) hle, List.take_append_of_le_length,
          List.take_of_length_le,
          ← e.rowSlice_append x.seat.row (Nat.zero_le n) hL, List.drop_append_of_le_length,
          List.drop_of_length_le, List.nil_append]
        all_goals simp only [rowSlice_length]
        all_goals omega
      · simp only [rowSlice_length]
        omega
    have hsplit : slots = e.rowSlice x.seat.row (e.admitted x.seat.row) n ++
        (e.rowSlice x.seat.row n (alignDownNat x.ids.length e.config.pageSize) ++
          (e.rowSlice x.seat.row (alignDownNat x.ids.length e.config.pageSize) x.ids.length ++
            (e.rowSlice x.seat.row x.ids.length e.config.maxSeqLen ++
              slots.drop (e.config.maxSeqLen - e.admitted x.seat.row)))) := by
      conv_lhs => rw [← List.take_append_drop (e.config.maxSeqLen - e.admitted x.seat.row) slots]
      rw [← hslice, ← e.rowSlice_append x.seat.row (hadm.trans hL) haligned,
        ← e.rowSlice_append x.seat.row hadm hL, ← e.rowSlice_split hle]
      simp only [List.append_assoc]
    refine List.perm_iff_count.mpr fun a => ?_
    have h1 := hfree.count_eq a
    have h2 := htree.count_eq a
    have h3 := congrArg (List.count a) hsplit
    simp only [hrow, List.count_append] at h1 h2 h3
    have h4 : (e.kvCache.detach x.seat.row).freeSlots = e.kvCache.freeSlots := rfl
    simp only [List.flatMap_cons, List.flatMap_nil, List.append_nil, leftOver, howned,
      List.count_append]
    rw [h4] at h1
    omega

end Keeping

/-! ### Between calls -/

/-- The books, and every live request holding its slots. -/
structure Ownership (e : Engine) (t : Transcript) (orphans : List RadixCacheHandle)
    (lost : List Slot) : Prop where
  books : Books e t orphans
  keeping : Keeping e (e.lives t) orphans lost
  /-- Without a prefix cache nothing is ever recorded as admitted. -/
  admitted_off : e.cacheManager = none → ∀ row, e.admittedCachedLen row = none

theorem handles_eq (e : Engine) (t : Transcript) :
    ((e.lives t).filterMap fun x => x.seat.handle) = e.scheduler.handles := by
  rw [Scheduler.handles, ← e.map_seat_lives t, List.filterMap_map]
  rfl

theorem map_row_lives (e : Engine) (t : Transcript) :
    ((e.lives t).map fun x => x.seat.row) = e.scheduler.seats.map Seat.row := by
  rw [← e.map_seat_lives t, List.map_map]
  rfl

theorem ownership_init (config : EngineConfig) (t : Transcript) :
    Ownership (init config) t [] [] where
  books := books_init config t
  keeping :=
    { cacheOk := (books_init config t).cacheOk
      stored_le := (books_init config t).stored_le
      pageSize_eq := rfl
      rows_nodup := List.nodup_nil
      alloc_none := fun _ _ => rfl
      held := fun _ h => absurd h List.not_mem_nil
      slots_perm := by
        have hnil : (init config).tree.slots = [] := by
          simp only [tree, init]
          split
          · rfl
          · rename_i hc
            split at hc
            · obtain rfl := Option.some.inj hc
              rfl
            · cases hc
        rw [hnil]
        exact List.Perm.of_eq (List.append_nil _) }
  admitted_off := fun _ _ => rfl

namespace StepRun

variable {sampled : Nat → Token} {out : StepOutput} {s1 : Scheduler} {e2 : Engine}

variable (h : StepRun e sampled out e' s1 e2)
include h

/-- The finished requests, as they stand when they are committed. -/
theorem seats_finished (hs : e.scheduler.Ok) :
    ((out.finished.map (Req.live (transcript out t)) ++ e'.lives (transcript out t)).map
      Live.seat).Perm ((e.lives t).map Live.seat) := by
  have hseats := (h.stepped hs).seats_perm
  rw [h.finishedIn_eq] at hseats
  rw [List.map_append, map_seat_lives, map_seat_lives, List.map_map]
  exact List.perm_append_comm.trans hseats.symm

/-- After the sampling loop the requests hold what they held. -/
theorem keeping_sampled (ho : Ownership e t orphans lost) :
    Keeping (mid e out s1)
      (out.finished.map (Req.live (transcript out t)) ++ e'.lives (transcript out t)) orphans
      lost := by
  have hf := mid_frame e out s1
  refine Keeping.advance (?_ : Keeping _ (e.lives t) _ _) (h.seats_finished ho.books.sched) ?_
  · exact ho.keeping.congr hf.config_eq hf.cacheManager_eq hf.kvCache_eq hf.admittedCachedLen_eq
      hf.pageTable_eq
  · intro x hx
    have hheld : ∀ y ∈ e.lives t,
        Held (mid e out s1) y := by
      intro y hy
      refine (ho.keeping.held y hy).congr hf.config_eq ?_ ?_ ?_ ?_
      · rw [hf.admittedCachedLen_eq]
      · rw [hf.kvCache_eq]
      · rw [hf.pageTable_eq]
      · exact fun handle _ => handleSpan_congr (e := e) hf.cacheManager_eq handle
    rcases List.mem_append.mp hx with hx | hx
    · obtain ⟨f, hf', rfl⟩ := List.mem_map.mp hx
      obtain ⟨-, y, hy, s, -, hadv⟩ := h.finished_step ho.books.sched ho.books.recorded hf'
      exact (hheld y hy).advanced hadv
    · rcases h.lives_step ho.books.sched ho.books.recorded x hx with ⟨hx, -⟩ | ⟨y, hy, s, -, hadv⟩
      · exact hheld x hx
      · exact (hheld y hy).advanced hadv

/-- The tokens a finished request commits. -/
theorem history_finished (hb : Books e t orphans) (hsome : e.cacheManager.isSome) {f : Req}
    (hf : f ∈ out.finished) :
    (mid e out s1).history
      f.tableIdx = transcript out t f.tableIdx := by
  rw [h.finished_eq, finishedOf, List.mem_filter, h.reqs_eq'] at hf
  obtain ⟨hf, hcond⟩ := hf
  obtain ⟨x, hx, rfl⟩ := List.mem_map.mp hf
  obtain ⟨z, hz, rfl⟩ := List.mem_map.mp hx
  simp only [Bool.and_eq_true, Bool.not_eq_true'] at hcond
  have hround := rounded e out.batch.phase z
  have hc : z.2.chunked = false := hround.chunked_eq ▸ hcond.1
  have hrow : (e.roundOf out.batch.phase z).2.tableIdx = z.2.tableIdx :=
    congrArg Seat.row hround.seat_eq
  rw [hrow, history, h.mid_fullIds hb.sched hb.recorded hsome hz hc]
  rfl

/-- The commits one by one, with a prefix cache: each takes the transcript of its
request, and the tree only grows. -/
theorem commit_induct (hb : Books e t orphans) (hsome : e.cacheManager.isSome)
    {P : Engine → Prop} (hmid : P (mid e out s1))
    (hstep : ∀ (f : Req) (e1 e3 : Engine) (n : Nat) (hs : List RadixCacheHandle),
      f ∈ out.finished → e1.config = e.config → e1.pageTable = e.pageTable →
      (∀ x ∈ e.tree.entries, x ∈ e1.tree.entries) →
      e1.history f.tableIdx = transcript out t f.tableIdx → Committed hs e1 f e3 n →
      P e1 → P e3) : P e2 := by
  have hf := mid_frame e out s1
  have htree := tree_congr (e := e) hf.cacheManager_eq
  have hinduct := commitAll_induct (P := fun rest e1 =>
    (∃ before, out.finished = before ++ rest) ∧ SameFrame (mid e out s1) e1 ∧
    e1.CacheOk (rest.filterMap Req.cacheHandle ++ (e'.scheduler.handles ++ orphans)) ∧
    (∀ x ∈ e1.tree.entries, x.1.length ≤ e1.config.maxSeqLen) ∧
    (∀ x ∈ e.tree.entries, x ∈ e1.tree.entries) ∧
    (∀ f ∈ rest, e1.history f.tableIdx = transcript out t f.tableIdx) ∧ P e1) ?_ ?_ h.commit_mid
  · exact hinduct.2.2.2.2.2.2
  · rintro f rest e1 e3 ⟨⟨before, hfin⟩, hframe, hc, hstored, hsub, hids, hp⟩ hone
    have hmem : f ∈ out.finished := by
      rw [hfin]
      exact List.mem_append_right _ List.mem_cons_self
    have hcons : (f :: rest).filterMap Req.cacheHandle ++ (e'.scheduler.handles ++ orphans) =
        f.cacheHandle.toList ++ (rest.filterMap Req.cacheHandle ++
          (e'.scheduler.handles ++ orphans)) := by
      cases hh : f.cacheHandle <;> simp [hh]
    have hon : e1.cacheManager.isSome := by
      rw [hframe.isSome_eq, hf.isSome_eq]
      exact hsome
    obtain ⟨n, hcommit⟩ := commitOne_spec hon (hcons ▸ hc) hstored hone
    have hkeeps := commitOne_keeps (hcons ▸ hc) hstored hone
    have hgrow : ∀ x ∈ e1.tree.entries, x ∈ e3.tree.entries := fun x hx =>
      hcommit.entries_perm.mem_iff.mpr (List.mem_append_left _ hx)
    refine ⟨⟨before ++ [f], by rw [hfin, List.append_assoc]; rfl⟩,
      hframe.trans (commitOne_frame hone).1, hkeeps.1, hkeeps.2.1,
      fun x hx => hgrow x (hsub x hx), ?_, ?_⟩
    · intro g hg
      have hrows := (List.nodup_append'.mp (h.finished_rows_nodup hb.sched)).2.1
      rw [hfin, List.map_append, List.map_cons] at hrows
      have hne : g.tableIdx ≠ f.tableIdx := fun heq =>
        (List.nodup_cons.mp (List.nodup_append'.mp hrows).2.1).1 (List.mem_map.mpr ⟨g, hg, heq⟩)
      rw [history, (commitOne_others hone hne).1]
      exact hids g (List.mem_cons_of_mem _ hg)
    · exact hstep f e1 e3 n _ hmem (hframe.config_eq.trans hf.config_eq)
        (hframe.pageTable_eq.trans hf.pageTable_eq) hsub (hids f List.mem_cons_self) hcommit hp
  · refine ⟨⟨[], rfl⟩, SameFrame.refl _, (hb.cacheOk.perm (h.handles_perm hb)).congr
      hf.cacheManager_eq hf.config_eq, ?_, ?_, fun f hmem => h.history_finished hb hsome hmem, hmid⟩
    · rw [htree, hf.config_eq]
      exact hb.stored_le
    · rw [htree]
      exact fun _ hx => hx

/-- The commits, with a prefix cache: what is lost is lost by a request that does
not fill its pages. -/
theorem keeping_committed (ho : Ownership e t orphans lost) (hsome : e.cacheManager.isSome) :
    ∃ extra, Keeping e2 (e'.lives (transcript out t)) orphans (extra ++ lost) ∧
      (extra = [] ↔ ∀ f ∈ out.finished, FillsPages e.config f.deviceLen) := by
  have hinduct := commitAll_induct (P := fun rest e1 => ∃ before extra,
    out.finished = before ++ rest ∧ e1.config = e.config ∧ e1.cacheManager.isSome ∧
    (∀ f ∈ rest, e1.history f.tableIdx = transcript out t f.tableIdx) ∧
    Keeping e1 (rest.map (Req.live (transcript out t)) ++ e'.lives (transcript out t)) orphans
      (extra ++ lost) ∧
    (extra = [] ↔ ∀ f ∈ before, FillsPages e.config f.deviceLen)) ?_ ?_ h.commit_mid
  · obtain ⟨before, extra, hfin, -, -, -, hkeep, hiff⟩ := hinduct
    rw [List.append_nil] at hfin
    rw [hfin]
    exact ⟨extra, hkeep, hiff⟩
  · rintro f rest e1 e3 ⟨before, extra, hfin, hconfig, hon, hids, hkeep, hiff⟩ hone
    have hf : f ∈ out.finished := by
      rw [hfin]
      exact List.mem_append_right _ List.mem_cons_self
    obtain ⟨hlen, y, -, s, -, hadv⟩ := h.finished_step ho.books.sched ho.books.recorded hf
    have hdev : (f.live (transcript out t)).ids.length = f.deviceLen := hlen
    have hne : (f.live (transcript out t)).ids ≠ [] := by
      intro hnil
      have hlt := hadv.done_lt
      rw [hnil, List.length_nil] at hdev
      simp only [Req.live, ← hdev] at hlt
      omega
    obtain ⟨hkeep', hlost⟩ := hkeep.commitOne hon rfl (hids f List.mem_cons_self) hne hone
    rw [hdev] at hkeep' hlost
    have hframe := (commitOne_frame hone).1
    refine ⟨before ++ [f], e1.leftOver f.tableIdx f.deviceLen ++ extra, ?_, ?_, ?_, ?_, ?_, ?_⟩
    · rw [hfin, List.append_assoc]
      rfl
    · exact hframe.config_eq.trans hconfig
    · rw [hframe.isSome_eq]
      exact hon
    · intro g hg
      have hrows := (List.nodup_append'.mp (h.finished_rows_nodup ho.books.sched)).2.1
      rw [hfin, List.map_append, List.map_cons] at hrows
      have hne' : g.tableIdx ≠ f.tableIdx := fun heq =>
        (List.nodup_cons.mp (List.nodup_append'.mp hrows).2.1).1
          (List.mem_map.mpr ⟨g, hg, heq⟩)
      have hothers := (commitOne_others hone hne').1
      rw [history, hothers]
      exact hids g (List.mem_cons_of_mem _ hg)
    · rw [List.append_assoc]
      exact hkeep'
    · rw [List.append_eq_nil_iff, hiff, show e1.leftOver f.tableIdx f.deviceLen = [] ↔ _ from hlost,
        hconfig]
      constructor
      · rintro ⟨h1, h2⟩ g hg
        rcases List.mem_append.mp hg with hg | hg
        · exact h2 g hg
        · rw [List.mem_singleton.mp hg]
          exact h1
      · intro hall
        exact ⟨hall f (by simp), fun g hg => hall g (List.mem_append_left _ hg)⟩
  · have hf := mid_frame e out s1
    exact ⟨[], [], rfl, hf.config_eq, (by rw [hf.cacheManager_eq]; exact hsome),
      fun f hmem => h.history_finished ho.books hsome hmem, h.keeping_sampled ho, by simp⟩

/-- Handing the batch back: rows that still have slots give them to the free list. -/
theorem keeping_final (ys : List Live) {lost' : List Slot} (hb : Books e t orphans)
    (hkeep : Keeping e2 (ys ++ e'.lives (transcript out t)) orphans lost')
    (hys : ∀ y ∈ ys, y.seat.handle = none)
    (howned : (out.finished.flatMap fun f => e2.owned f.tableIdx).Perm
      (ys.flatMap fun y => e2.owned y.seat.row)) :
    Keeping e' (e'.lives (transcript out t)) orphans lost' := by
  have hb' := h.books hb
  obtain ⟨freed, hperm, hn, heq⟩ := h.final hb
  obtain ⟨halloc, hps, hnp, hfree⟩ := MHAKVCache.foldl_free_frame e2.kvCache hn
  have hkv : e'.kvCache = freed.foldl MHAKVCache.free e2.kvCache := by rw [heq]
  have hcache : e'.cacheManager = e2.cacheManager := by rw [heq]
  have hconfig : e'.config = e2.config := by rw [heq]
  rw [← hkv] at halloc hps hnp hfree
  refine Keeping.release ys hkeep hconfig ?_ hb'.stored_le ?_ hps hnp ?_ ?_ ?_
  · refine (CacheOk.congr ?_ hcache hconfig)
    have hc := hkeep.cacheOk
    rw [List.filterMap_append, List.filterMap_eq_nil_iff.mpr hys, List.nil_append] at hc
    exact hc
  · exact fun handle _ => handleSpan_congr hcache handle
  · intro x hx
    have hnot : x.seat.row ∉ freed := fun hmem =>
      (List.nodup_append'.mp (h.finished_rows_nodup hb.sched)).2.2 (row_mem_of_mem_lives hx)
        (hperm.mem_iff.mp hmem)
    rw [halloc, if_neg hnot, heq]
    exact ⟨rfl, rfl, rfl⟩
  · intro row hrow
    rw [map_row_lives] at hrow
    exact hb'.alloc_none row hrow
  · have hslots : (freed.flatMap fun row => (e2.kvCache.alloc row).getD []).Perm
        (ys.flatMap fun y => e2.owned y.seat.row) := by
      refine (hperm.flatMap_right _).trans ?_
      rw [List.flatMap_map]
      exact howned
    rw [tree_congr hcache]
    refine List.perm_iff_count.mpr fun a => ?_
    have h1 := hfree.count_eq a
    have h2 := hslots.count_eq a
    simp only [List.count_append] at h1 ⊢
    omega

theorem ownership (ho : Ownership e t orphans lost) :
    ∃ extra, Ownership e' (transcript out t) orphans (extra ++ lost) ∧
      (extra = [] ↔ (e.cacheManager.isSome → ∀ f ∈ out.finished, FillsPages e.config f.deviceLen)) := by
  have hb := ho.books
  have hcacheEq : e'.cacheManager = e2.cacheManager := by
    obtain ⟨freed, -, -, heq⟩ := h.final hb
    rw [heq]
  by_cases hsome : e.cacheManager.isSome
  · obtain ⟨extra, hkeep, hiff⟩ := h.keeping_committed ho hsome
    have hnone : ∀ f ∈ out.finished, e2.owned f.tableIdx = [] := by
      intro f hf
      have hrow : f.tableIdx ∉ (e'.lives (transcript out t)).map fun x => x.seat.row := by
        rw [map_row_lives]
        exact fun hmem => (List.nodup_append'.mp (h.finished_rows_nodup hb.sched)).2.2 hmem
          (List.mem_map.mpr ⟨f, hf, rfl⟩)
      rw [owned, hkeep.alloc_none _ hrow]
      rfl
    have hfinal := h.keeping_final [] hb hkeep (fun _ hy => absurd hy List.not_mem_nil)
      (List.Perm.of_eq (List.flatMap_eq_nil_iff.mpr hnone))
    refine ⟨extra, ⟨h.books hb, hfinal, fun hoff => ?_⟩, hiff.trans (by simp [hsome])⟩
    have hsome' : e'.cacheManager.isSome := by
      rw [hcacheEq, h.frame.isSome_eq]
      exact hsome
    rw [hoff] at hsome'
    cases hsome'
  · have hoff : e.cacheManager = none := by simpa using hsome
    have hf := mid_frame e out s1
    have he2 : e2 = mid e out s1 := by
      have hcommit := h.commit_mid
      rw [commitAll_off (by rw [hf.cacheManager_eq]; exact hoff)] at hcommit
      exact (Option.some.inj hcommit).symm
    have hkeep := h.keeping_sampled ho
    rw [← he2] at hkeep hf
    have hfinal := h.keeping_final _ hb hkeep ?_ ?_
    · refine ⟨[], ⟨h.books hb, hfinal, fun _ row => ?_⟩, by simp [hsome]⟩
      rw [h.final_eq]
      show e2.admittedCachedLen row = none
      rw [hf.admittedCachedLen_eq]
      exact ho.admitted_off hoff row
    · intro y hy
      obtain ⟨f, hmem, rfl⟩ := List.mem_map.mp hy
      have hseat : f.seat ∈ e.scheduler.seats := by
        have hseats := (h.stepped hb.sched).seats_perm
        rw [h.finishedIn_eq] at hseats
        exact hseats.mem_iff.mpr (List.mem_append_right _ (List.mem_map.mpr ⟨f, hmem, rfl⟩))
      have hnone := hb.handle_isSome f.seat hseat
      rw [hoff, Option.isSome_none] at hnone
      exact Option.not_isSome_iff_eq_none.mp (show ¬ f.seat.handle.isSome = true by rw [hnone]; simp)
    · rw [List.flatMap_map]
      exact List.Perm.refl _

end StepRun

/-! ### The other calls -/

theorem Ownership.step (ho : Ownership e t orphans lost) {sampled : Nat → Token} {out : StepOutput}
    (h : e.step sampled = .ok (out, e')) :
    ∃ extra, Ownership e' (StepRun.transcript out t) orphans (extra ++ lost) ∧
      (extra = [] ↔ (e.cacheManager.isSome → ∀ f ∈ out.finished, FillsPages e.config f.deviceLen)) := by
  rcases step_cases h with ⟨-, rfl, rfl⟩ | ⟨s1, e2, hrun⟩
  · exact ⟨[], ho, by simp⟩
  · exact hrun.ownership ho

theorem Ownership.aborted (ho : Ownership e t orphans lost) {seat : Seat}
    (hseat : seat ∈ e.scheduler.seats) (h : Aborted (e'.scheduler.handles ++ orphans) e seat e') :
    Ownership e' t orphans lost := by
  have hb' := ho.books.aborted h
  have hdrop := h.dropped
  rw [← e.map_seat_lives t] at hseat
  obtain ⟨x, hx, rfl⟩ := List.mem_map.mp hseat
  have hsub : ∀ y ∈ e'.lives t, y ∈ e.lives t := by
    intro y hy
    rcases List.mem_append.mp hy with hy | hy
    · obtain ⟨p, hp, rfl⟩ := List.mem_map.mp hy
      exact mem_lives_of_pending (hdrop.pending_sub p hp)
    · obtain ⟨r, hr, rfl⟩ := List.mem_map.mp hy
      exact mem_lives_of_running (hdrop.running_sub r hr)
  have hkeep : Keeping e (x :: e'.lives t) orphans lost := by
    refine ho.keeping.advance ?_ fun y hy => ?_
    · rw [List.map_cons, map_seat_lives, map_seat_lives]
      exact hdrop.seats_perm.symm
    · rcases List.mem_cons.mp hy with rfl | hy
      · exact ho.keeping.held _ hx
      · exact ho.keeping.held y (hsub y hy)
  have hnot := hkeep.row_notMem
  have hkv : e'.kvCache = e.kvCache.free x.seat.row := by rw [h.frame]
  have hadm : e'.admittedCachedLen = Function.update e.admittedCachedLen x.seat.row none := by
    rw [h.frame]
  have hpt : e'.pageTable = e.pageTable := by rw [h.frame]
  have hconfig : e'.config = e.config := by rw [h.frame]
  obtain ⟨halloc, hps, hnp, hfree⟩ := e.kvCache.free_frame x.seat.row
  rw [← hkv] at halloc hps hnp hfree
  have htree : e'.tree.slots = e.tree.slots := by rw [Forest.slots, h.entries_eq, Forest.slots]
  refine ⟨hb', ?_, fun hoff row => ?_⟩
  · refine Keeping.release [x] hkeep hconfig ?_ hb'.stored_le ?_ hps hnp ?_ ?_ ?_
    · rw [handles_eq]
      exact h.cacheOk
    · rw [handles_eq]
      exact fun handle hh => h.span_eq handle (List.mem_append_left _ hh)
    · intro y hy
      have hne : y.seat.row ≠ x.seat.row := fun heq => hnot (List.mem_map.mpr ⟨y, hy, heq⟩)
      rw [hadm, halloc, hpt, Function.update_of_ne hne, Function.update_of_ne hne]
      exact ⟨rfl, rfl, rfl⟩
    · rw [map_row_lives]
      exact hb'.alloc_none
    · rw [htree]
      refine List.perm_iff_count.mpr fun a => ?_
      have h1 := hfree.count_eq a
      simp only [List.flatMap_cons, List.flatMap_nil, List.append_nil, List.count_append,
        owned] at h1 ⊢
      omega
  · have hoff' : e.cacheManager = none := by
      have := h.isSome_eq
      rw [hoff] at this
      exact Option.not_isSome_iff_eq_none.mp (by rw [← this]; simp)
    rw [hadm, Function.update_apply]
    split
    · rfl
    · exact ho.admitted_off hoff' row

/-- A call that raised before the scheduler had the request. -/
theorem Ownership.notQueued (ho : Ownership e t orphans lost) {ids : List Token} {m : PromptMatch}
    (hm : PromptMatched e (e.scheduler.handles ++ orphans) ids m) (h : NotQueued e m e') :
    Ownership e' t (m.cacheHandle.toList ++ orphans) lost := by
  have hb' := ho.books.notQueued hm h
  obtain ⟨lp, rfl⟩ : ∃ lp, e' = { m.engine with linearStatePool := lp } := by
    cases h with
    | exhausted hpool hshort => exact ⟨_, rfl⟩
    | noRow lp htaken hrows => exact ⟨lp, rfl⟩
  have hsched : m.engine.scheduler = e.scheduler := by rw [hm.frame]
  have hkv : m.engine.kvCache = e.kvCache := by rw [hm.frame]
  have hadm : m.engine.admittedCachedLen = e.admittedCachedLen := by rw [hm.frame]
  have hpt : m.engine.pageTable = e.pageTable := by rw [hm.frame]
  have hconfig : m.engine.config = e.config := by rw [hm.frame]
  have hlives : lives { m.engine with linearStatePool := lp } t = e.lives t := by
    simp only [lives, hsched]
  refine ⟨hb', ?_, fun hoff row => ?_⟩
  · rw [hlives]
    refine Keeping.release [] ho.keeping hconfig ?_ hb'.stored_le ?_ (by rw [hkv])
      (by rw [hkv]) ?_ ?_ ?_
    · have hc := hb'.cacheOk
      rw [← handles_eq _ t, hlives] at hc
      exact hc
    · rw [handles_eq]
      exact fun handle hh => hm.span_eq handle (List.mem_append_left _ hh)
    · intro x _
      simp only [hadm, hkv, hpt, and_self]
    · simp only [hkv]
      exact ho.keeping.alloc_none
    · have htree : (tree { m.engine with linearStatePool := lp }).slots = e.tree.slots := by
        rw [Forest.slots, Forest.slots, ← hm.entries_eq]
        rfl
      rw [htree]
      simp only [hkv]
      exact List.Perm.refl _
  · have hoff' : e.cacheManager = none := by
      have := hm.isSome_eq
      rw [show m.engine.cacheManager = none from hoff] at this
      exact Option.not_isSome_iff_eq_none.mp (by rw [← this]; simp)
    simp only [hadm]
    exact ho.admitted_off hoff' row

/-- An empty prompt with the prefix cache on gets a row of the wrong shape. -/
theorem allocateSlot_neg (e' : Engine) {row : Nat} {matched : List Slot} (hm : matched = [])
    (hps : e.kvCache.pageSize = e.config.pageSize) {hs : List RadixCacheHandle}
    (hc : e.CacheOk hs) (hnone : e.kvCache.alloc row = none) :
    e.allocateSlot row (-(e.config.pageSize : Int)) matched ≠ (.ok (), e') := by
  have hpos := e.config.pageSize_pos
  intro h
  unfold allocateSlot at h
  dsimp only at h
  split at h
  · cases h
  · rename_i e1 hassign
    have hlen : sliceStop e.config.maxSeqLen (-(e.config.pageSize : Int)) = 0 := by
      have hshape := assignRow_shape hassign
      have hne : ¬ (-(e.config.pageSize : Int)) = 0 := by omega
      rw [if_neg hne, hm] at hshape
      simpa [sliceTo] using hshape
    obtain ⟨pt, rfl, -⟩ := assignRow_frame hassign
    rcases allocateOrEvict_spec (e := { e with pageTable := pt }) (hc.congr rfl rfl) hps
      (pagesFor { e with pageTable := pt } (-(e.config.pageSize : Int))) hnone with
      ⟨-, slots, e2, kv, hrec, halloc, hres⟩ | ⟨-, err, e2, -, hres⟩
    · rw [hres] at h
      dsimp only at h
      split at h
      · cases h
      · rename_i e3 hassign2
        have hcfg : e2.config = e.config := by rw [hrec.frame]
        have hps2 : e2.kvCache.pageSize = e.config.pageSize := by
          rw [hrec.kv_eq]
          exact hps
        have hslots : slots.length = e.pagesFor (-(e.config.pageSize : Int)) * e.config.pageSize := by
          unfold MHAKVCache.allocate at halloc
          dsimp only at halloc
          split at halloc
          · cases halloc
          · split at halloc
            · cases halloc
            · rename_i hle
              simp only [Except.ok.injEq, Prod.mk.injEq] at halloc
              obtain ⟨rfl, -⟩ := halloc
              rw [List.length_take, hps2]
              rw [hps2] at hle
              exact Nat.min_eq_left (Nat.le_of_not_lt hle)
        have hceil := (ceilDiv_bounds (e.config.maxSeqLen + e.config.pageSize) hpos).1
        have hpages : e.pagesFor (-(e.config.pageSize : Int)) =
            ceilDiv ((e.config.maxSeqLen + e.config.pageSize : Nat) : Int) e.config.pageSize := by
          unfold pagesFor
          congr 1
          omega
        have hshape := assignRow_shape hassign2
        rw [hlen, List.length_take, hslots, hpages, hcfg] at hshape
        omega
    · rw [hres] at h
      cases h

/-- Asking for the slots of a queued request: an empty prompt never gets them when the
cache is on; otherwise they are granted exactly when the pages are there. -/
theorem Queued.allocate_cases (hb : Books e t orphans) {args : AddArgs} {m : PromptMatch}
    {p : PendingReq} {e3 : Engine}
    (hm : PromptMatched e (e.scheduler.handles ++ orphans) args.inputIds m)
    (hq : Queued e args m p e3) :
    (args.inputIds = [] ∧ e.cacheManager.isSome ∧
      ∀ e', e3.allocateSlot p.tableIdx m.cachedLen m.matchedIndices ≠ (.ok (), e')) ∨
    ∃ k : Nat, (args.inputIds ≠ [] ∨ e.cacheManager = none) ∧ m.cachedLen = k ∧
      e.config.pageSize ∣ k ∧ k ≤ args.inputIds.length ∧
      k ≤ m.matchedIndices.length ∧ k ≤ e.config.maxSeqLen ∧
      ((e3.pagesFor k * e3.config.pageSize ≤ e3.kvCache.freeSlots.length + e3.tree.evictable ∧
        ∃ e', e3.allocateSlot p.tableIdx m.cachedLen m.matchedIndices = (.ok (), e') ∧
          SlotAllocated (m.cacheHandle.toList ++ (e.scheduler.handles ++ orphans)) e3
            p.tableIdx k m.matchedIndices e') ∨
      (e3.kvCache.freeSlots.length + e3.tree.evictable < e3.pagesFor k * e3.config.pageSize ∧
        ∃ n e', e3.allocateSlot p.tableIdx m.cachedLen m.matchedIndices = (.error (.kvPoolFull
            (e3.pagesFor k * e3.config.pageSize) (e3.pagesFor k) e3.config.pageSize n), e') ∧
          SlotRefused (m.cacheHandle.toList ++ (e.scheduler.handles ++ orphans)) e3
            p.tableIdx k m.matchedIndices e')) := by
  have hkv3 : e3.kvCache = e.kvCache := by rw [hq.frame]
  have hconfig3 : e3.config = e.config := by rw [hq.frame]
  have hcache3 : e3.cacheManager = m.engine.cacheManager := by rw [hq.frame]
  have hconfigm : m.engine.config = e.config := by rw [hm.frame]
  have hcacheOk : e3.CacheOk (m.cacheHandle.toList ++ (e.scheduler.handles ++ orphans)) :=
    hm.cacheOk.congr hcache3 (hconfig3.trans hconfigm.symm)
  have hps3 : e3.kvCache.pageSize = e3.config.pageSize := by
    rw [hkv3, hconfig3]
    exact hb.pageSize_eq
  have hnone : e3.kvCache.alloc p.tableIdx = none := by
    rw [hkv3]
    exact hb.alloc_none _ ((hq.queuedIn hb hm).row_notMem hb.sched)
  by_cases hbad : args.inputIds = [] ∧ e.cacheManager.isSome
  · left
    obtain ⟨hnil, hsome⟩ := hbad
    refine ⟨hnil, hsome, fun e' halloc => ?_⟩
    rw [hnil] at hm
    obtain ⟨x, n, -, -, hlen, hn, -⟩ := hm.on hsome
    have hempty : m.matchedIndices = [] :=
      List.eq_nil_of_length_eq_zero (by rw [hlen]; exact Nat.le_zero.mp hn)
    rw [hm.cachedLen_nil, if_pos hsome, ← hconfig3] at halloc
    exact allocateSlot_neg e' hempty hps3 hcacheOk hnone halloc
  · right
    have hprompt : args.inputIds ≠ [] ∨ e.cacheManager = none := by
      by_cases hnil : args.inputIds = []
      · exact Or.inr (by simpa using fun hsome => hbad ⟨hnil, hsome⟩)
      · exact Or.inl hnil
    obtain ⟨k, hk, hdvd, hle, hmatched⟩ : ∃ k : Nat, m.cachedLen = k ∧ e.config.pageSize ∣ k ∧
        k ≤ args.inputIds.length ∧ k ≤ m.matchedIndices.length := by
      by_cases hnil : args.inputIds = []
      · have hoff := hprompt.resolve_left (not_not.mpr hnil)
        exact ⟨0, (hm.off hoff).1, Nat.dvd_zero _, Nat.zero_le _, Nat.zero_le _⟩
      · obtain ⟨k, hk, hdvd, hlt⟩ := hm.cachedLen_nonneg hnil
        exact ⟨k, hk, hdvd, hlt.le, hm.cachedLen_le_matched hnil hk⟩
    have hM := hb.cachedLen_le hm hk
    refine ⟨k, hprompt, hk, hdvd, hle, hmatched, hM, ?_⟩
    rw [hk]
    exact allocateSlot_spec hcacheOk hps3 hnone (by rw [hconfig3]; exact hM) hmatched

/-- Whatever came of its slots, a queued request's cached prefix is read from the slots
the tree has for it. -/
theorem Queued.prefix_stored (hb : Books e t orphans) {args : AddArgs} {m : PromptMatch}
    {p : PendingReq} {e3 : Engine}
    (hm : PromptMatched e (e.scheduler.handles ++ orphans) args.inputIds m)
    (hq : Queued e args m p e3) {res : Except EngineError Unit}
    (h : e3.allocateSlot p.tableIdx m.cachedLen m.matchedIndices = (res, e')) :
    ∀ j < m.cachedLen.toNat,
      (args.inputIds.take (j + 1), e'.pageTable p.tableIdx j) ∈ e.tree.entries := by
  intro j hj
  have hconfig : e'.config = e.config := by
    rw [(hb.slotTouched hm hq h).frame, hq.frame]
  rcases hq.allocate_cases hb hm with
    ⟨hnil, hsome, -⟩ | ⟨k, -, hk, -, -, hmatched, hM, hpages⟩
  · rw [hnil] at hm
    rw [hm.cachedLen_nil, if_pos hsome] at hj
    omega
  · have hfront : e'.rowSlice p.tableIdx 0 k = m.matchedIndices.take k := by
      rcases hpages with ⟨-, e1, heq, hspec⟩ | ⟨-, err, e1, heq, hspec⟩
      · obtain rfl := (Prod.mk.inj (h.symm.trans heq)).2
        exact hspec.prefix_eq
      · obtain rfl := (Prod.mk.inj (h.symm.trans heq)).2
        exact hspec.prefix_eq
    rw [hk, Int.toNat_natCast] at hj
    have hsome : e.cacheManager.isSome := by
      by_contra hoff
      have h0 := (hm.off (by simpa using hoff)).1
      omega
    obtain ⟨x, n, -, hspan, hlen, -⟩ := hm.on hsome
    have hslot : m.matchedIndices[j]? = some (e'.pageTable p.tableIdx j) := by
      have hrow : (e'.rowSlice p.tableIdx 0 k)[j]? = some (e'.pageTable p.tableIdx (0 + j)) :=
        rowSlice_getElem? (by rw [hconfig]; omega)
      rw [hfront, List.getElem?_take_of_lt hj, Nat.zero_add] at hrow
      exact hrow
    obtain ⟨c, hcm, hspan⟩ := Option.bind_eq_some_iff.mp hspan
    have hw := (hm.cacheOk c hcm).1
    have hentry : ((args.inputIds.take n).take (j + 1), e'.pageTable p.tableIdx j) ∈
        c.tree.entries := by
      unfold RadixPrefixCache.handleSpan at hspan
      cases hnode : x.node with
      | none =>
          rw [hnode] at hspan
          have hempty := (Prod.mk.inj (Option.some.inj hspan)).2
          rw [← hempty] at hslot
          cases hslot
      | some u =>
          rw [hnode] at hspan
          exact Forest.mem_entries_of_span hw.valid hspan hslot
    rw [List.take_take, Nat.min_eq_left (by omega)] at hentry
    have htree : m.engine.tree = c.tree := by rw [tree, hcm]
    rw [← hm.entries_eq, htree]
    exact hentry

/-- What a call that returned did to the KV slots. -/
structure Returned (e : Engine) (orphans : List RadixCacheHandle) (args : AddArgs) (m : PromptMatch)
    (p : PendingReq) (e3 e' : Engine) (k : Nat) : Prop where
  matched : PromptMatched e (e.scheduler.handles ++ orphans) args.inputIds m
  queued : Queued e args m p e3
  cachedLen_eq : m.cachedLen = k
  le_matched : k ≤ m.matchedIndices.length
  le_maxSeqLen : k ≤ e.config.maxSeqLen
  le_inputIds : k ≤ args.inputIds.length
  dvd : e.config.pageSize ∣ k
  allocated : SlotAllocated (m.cacheHandle.toList ++ (e.scheduler.handles ++ orphans)) e3
    p.tableIdx k m.matchedIndices e'

theorem Books.returned (hb : Books e t orphans) {args : AddArgs} {p : PendingReq}
    (h : e.addRequest args = (.ok p, e')) :
    ∃ e3 k, Returned e orphans args (e.matchPrompt args.inputIds) p e3 e' k := by
  have hm := hb.promptMatched args
  rcases addRequest_cases args hm with ⟨err, e1, heq, -⟩ | ⟨p1, e3, hq, hres⟩
  · rw [h] at heq
    cases heq
  rcases hres with ⟨err, e1, heq, -⟩ | ⟨e1, heq, halloc⟩
  · rw [h] at heq
    cases heq
  rw [h] at heq
  simp only [Prod.mk.injEq, Except.ok.injEq] at heq
  obtain ⟨rfl, rfl⟩ := heq
  rcases hq.allocate_cases hb hm with
    ⟨-, -, hno⟩ | ⟨k, -, hk, hdvd, hle, hmatched, hM, hok | ⟨-, err, e1, herr, -⟩⟩
  · exact absurd halloc (hno e')
  · obtain ⟨-, e1, heq, hspec⟩ := hok
    rw [halloc] at heq
    obtain rfl := (Prod.mk.inj heq).2
    exact ⟨e3, k, hm, hq, hk, hmatched, hM, hle, hdvd, hspec⟩
  · rw [halloc] at herr
    cases (Prod.mk.inj herr).1

namespace Returned

variable {args : AddArgs} {m : PromptMatch} {p : PendingReq} {e3 : Engine} {k : Nat}

theorem frame (h : Returned e orphans args m p e3 e' k) : e' = { e with
    cacheManager := e'.cacheManager
    kvCache := e'.kvCache
    pageTable := e'.pageTable
    linearStatePool := e'.linearStatePool
    scheduler := e'.scheduler
    admittedCachedLen := e'.admittedCachedLen } := by
  have h1 := h.allocated.frame
  have h2 := h.queued.frame
  rw [h1]
  rw [h2]

theorem scheduler_eq (h : Returned e orphans args m p e3 e' k) : e'.scheduler = e3.scheduler := by
  rw [h.allocated.frame]

theorem queuedIn (h : Returned e orphans args m p e3 e' k) (hb : Books e t orphans) :
    QueuedIn e p e'.scheduler := by
  rw [h.scheduler_eq]
  exact h.queued.queuedIn hb h.matched

theorem admittedCachedLen_eq (h : Returned e orphans args m p e3 e' k) :
    e'.admittedCachedLen = if e.cacheManager.isSome then
      Function.update e.admittedCachedLen p.tableIdx (some (k : Int)) else e.admittedCachedLen := by
  rw [h.allocated.frame]
  exact h.cachedLen_eq ▸ h.queued.admitted_eq

theorem lives_perm (h : Returned e orphans args m p e3 e' k) (hb : Books e t orphans) :
    (e'.lives t).Perm (p.live :: e.lives t) :=
  (h.queuedIn hb).lives_perm

/-- The new request holds its slots, and takes them from the free list and the tree. -/
theorem keeping (h : Returned e orphans args m p e3 e' k) (ho : Ownership e t orphans lost) :
    Keeping e' (p.live :: e.lives t) orphans lost := by
  have hb := ho.books
  have hin := h.queuedIn hb
  have hb' : Books e' t orphans := hb.queued h.matched h.queued h.allocated.toSlotTouched
  obtain ⟨slots, halloc, hlen, hperm, hslice⟩ := h.allocated.owned
  have hkv3 : e3.kvCache = e.kvCache := by rw [h.queued.frame]
  have hconfig3 : e3.config = e.config := by rw [h.queued.frame]
  have hpt3 : e3.pageTable = e.pageTable := by rw [h.queued.frame]
  have hcache3 : e3.cacheManager = m.engine.cacheManager := by rw [h.queued.frame]
  have hconfig : e'.config = e.config := by rw [h.frame]
  have hnot := hin.row_notMem hb.sched
  have hrows : ∀ x ∈ e.lives t, x.seat.row ≠ p.tableIdx := fun x hx heq =>
    hnot (heq ▸ row_mem_of_mem_lives hx)
  have htree3 : e3.tree.slots = e.tree.slots := by
    rw [tree_congr hcache3, Forest.slots, h.matched.entries_eq, Forest.slots]
  have hspan : ∀ handle ∈ e.scheduler.handles ++ orphans,
      e'.handleSpan handle = e.handleSpan handle := fun handle hh =>
    (h.allocated.span_eq handle (List.mem_append_right _ hh)).trans
      ((handleSpan_congr hcache3 handle).trans (h.matched.span_eq handle hh))
  have hadm := h.admittedCachedLen_eq
  have hadmOld : ∀ row, row ≠ p.tableIdx → e'.admittedCachedLen row = e.admittedCachedLen row := by
    intro row hrow
    rw [hadm]
    split
    · exact Function.update_of_ne hrow _ _
    · rfl
  have hadmNew : e'.admitted p.tableIdx = k := by
    rw [admitted, hadm]
    by_cases hsome : e.cacheManager.isSome
    · rw [if_pos hsome, Function.update_self]
      rfl
    · have hoff : e.cacheManager = none := by simpa using hsome
      rw [if_neg hsome, ho.admitted_off hoff]
      have h0 := (h.matched.off hoff).1
      rw [h.cachedLen_eq] at h0
      exact (Int.natCast_eq_zero.mp h0).symm
  rw [hkv3] at halloc hperm
  rw [htree3] at hperm
  rw [hconfig3] at hlen hslice
  refine
    { cacheOk := ?_
      stored_le := hb'.stored_le
      pageSize_eq := hb'.pageSize_eq
      rows_nodup := ?_
      alloc_none := ?_
      held := ?_
      slots_perm := ?_ }
  · refine hb'.cacheOk.perm (List.Perm.append_right orphans ?_)
    rw [← handles_eq e' t]
    exact (h.lives_perm hb).filterMap _
  · rw [List.map_cons, List.nodup_cons, map_row_lives]
    exact ⟨hnot, hb.sched.seat_rows_nodup⟩
  · intro row hrow
    rw [List.map_cons, List.mem_cons, not_or, map_row_lives] at hrow
    rw [halloc]
    exact (Function.update_of_ne hrow.1 _ _).trans (hb.alloc_none row hrow.2)
  · intro x hx
    rcases List.mem_cons.mp hx with rfl | hx
    · have hrow : p.live.seat.row = p.tableIdx := rfl
      have hids : p.live.ids = args.inputIds := h.queued.inputIds_eq
      have hdone : p.live.done = k := by
        have hcached := h.queued.cachedLen_eq
        rw [h.cachedLen_eq] at hcached
        simp only [PendingReq.live, PendingReq.processed, h.queued.chunkedReq_eq, hcached]
        exact Int.toNat_natCast k
      have hhandle : p.live.seat.handle = m.cacheHandle := h.queued.cacheHandle_eq
      refine ⟨?_, ?_, ?_, ?_, ?_, ?_, ?_⟩
      · rw [hrow, hadmNew, hdone]
      · rw [hdone, hids]
        exact h.le_inputIds
      · rw [hrow, hadmNew, hconfig]
        exact h.le_maxSeqLen
      · rw [hrow, hadmNew, hconfig]
        exact h.dvd
      · rw [hrow, hadmNew, hconfig]
        refine ⟨slots, by rw [halloc, Function.update_self], ?_, hslice⟩
        rw [hlen, pagesFor, pagesFor, hconfig3, hconfig]
      · intro hnone
        rw [hhandle] at hnone
        rw [hrow, hadmNew]
        by_cases hsome : e.cacheManager.isSome
        · obtain ⟨handle, n, hh, -⟩ := h.matched.on hsome
          rw [hh] at hnone
          cases hnone
        · have h0 := (h.matched.off (by simpa using hsome)).1
          rw [h.cachedLen_eq] at h0
          exact Int.natCast_eq_zero.mp h0
      · intro handle hh
        rw [hhandle] at hh
        have hsome : e.cacheManager.isSome := by
          by_contra hsome
          rw [(h.matched.off (by simpa using hsome)).2.1] at hh
          cases hh
        obtain ⟨handle', n, hh', hspan', hlen', hn, -, hcached, -⟩ := h.matched.on hsome
        rw [hh] at hh'
        obtain rfl := Option.some.inj hh'
        have hle := h.le_matched
        rw [hlen'] at hle
        rw [hrow, hadmNew, hids]
        refine ⟨args.inputIds.take n, m.matchedIndices, ?_, ?_, ?_, ?_, h.allocated.prefix_eq⟩
        · rw [h.allocated.span_eq handle (by rw [hh]; exact List.mem_append_left _ (by simp))]
          rw [handleSpan_congr hcache3]
          exact hspan'
        · rw [List.length_take, hlen']
          omega
        · rw [List.length_take]
          omega
        · rw [List.take_take, Nat.min_eq_left hle]
    · have hne := hrows x hx
      refine (ho.keeping.held x hx).congr hconfig (hadmOld _ hne) ?_ ?_ fun handle hh => ?_
      · rw [halloc, Function.update_of_ne hne]
      · rw [h.allocated.pageTable_eq _ hne, hpt3]
      · refine hspan handle (List.mem_append_left _ ?_)
        rw [← handles_eq e t]
        exact List.mem_filterMap.mpr ⟨x, hx, hh⟩
  · have hnum : e'.kvCache.numSlots = e.kvCache.numSlots := by
      rw [MHAKVCache.numSlots, MHAKVCache.numSlots, h.allocated.numPages_eq,
        h.allocated.pageSize_eq, hkv3]
    have hold : ((e.lives t).flatMap fun x => e'.owned x.seat.row) =
        (e.lives t).flatMap fun x => e.owned x.seat.row :=
      List.flatMap_congr fun x hx => owned_congr (by rw [halloc, Function.update_of_ne (hrows x hx)])
    have hnew : e'.owned p.live.seat.row = slots := by
      have hself : e'.kvCache.alloc p.live.seat.row = some slots := by
        rw [halloc]
        exact Function.update_self _ _ _
      rw [owned, hself, Option.getD_some]
    rw [hnum, List.flatMap_cons, hnew, hold]
    refine List.Perm.trans (List.perm_iff_count.mpr fun a => ?_) ho.keeping.slots_perm
    have hcount := hperm.count_eq a
    simp only [List.count_append] at hcount ⊢
    omega

theorem ownership (h : Returned e orphans args m p e3 e' k) (ho : Ownership e t orphans lost) :
    Ownership e' t orphans lost := by
  refine ⟨ho.books.queued h.matched h.queued h.allocated.toSlotTouched,
    (h.keeping ho).perm (h.lives_perm ho.books).symm, fun hoff row => ?_⟩
  have hoff' : e.cacheManager = none := by
    have hsome := h.allocated.isSome_eq
    have hcache3 : e3.cacheManager = m.engine.cacheManager := by rw [h.queued.frame]
    rw [hcache3, h.matched.isSome_eq, hoff] at hsome
    exact Option.not_isSome_iff_eq_none.mp (by rw [← hsome]; simp)
  rw [h.admittedCachedLen_eq, hoff']
  exact ho.admitted_off hoff' row

end Returned

end Engine

end FreeToken
