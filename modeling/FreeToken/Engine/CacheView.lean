import FreeToken.KVCache.RadixSpec
import FreeToken.Engine.StepSpec
import FreeToken.Engine.Calls

/-!
# The pools and the cache seen from the engine

The KV pool's operations as they change the free list and the allocations, the
radix tree the engine holds, and the allocation that evicts from it when the pool
is short.
-/

namespace FreeToken

namespace MHAKVCache

theorem allocate_ok (kv : MHAKVCache) {reqId numPages : Nat} (h : kv.alloc reqId = none)
    (hle : numPages * kv.pageSize ≤ kv.freeSlots.length) :
    kv.allocate reqId numPages = .ok (kv.freeSlots.take (numPages * kv.pageSize),
      { kv with
        freeSlots := kv.freeSlots.drop (numPages * kv.pageSize)
        alloc := Function.update kv.alloc reqId (some (kv.freeSlots.take (numPages * kv.pageSize))) }) := by
  have hgt : ¬ numPages * kv.pageSize > kv.freeSlots.length := by omega
  simp [allocate, h, hgt]

theorem allocate_full (kv : MHAKVCache) {reqId numPages : Nat} (h : kv.alloc reqId = none)
    (hgt : kv.freeSlots.length < numPages * kv.pageSize) :
    ∃ n, kv.allocate reqId numPages =
      .error (.kvPoolFull (numPages * kv.pageSize) numPages kv.pageSize n) := by
  have hgt : numPages * kv.pageSize > kv.freeSlots.length := hgt
  refine ⟨kv.freeSlots.length, ?_⟩
  simp [allocate, h, hgt]

theorem releaseSlots_eq (kv : MHAKVCache) (slots : List Slot) :
    kv.releaseSlots slots = { kv with freeSlots := (kv.releaseSlots slots).freeSlots } := by
  unfold releaseSlots
  split <;> rfl

theorem releaseSlots_frame (kv : MHAKVCache) (slots : List Slot) :
    (kv.releaseSlots slots).alloc = kv.alloc ∧ (kv.releaseSlots slots).pageSize = kv.pageSize ∧
      (kv.releaseSlots slots).numPages = kv.numPages ∧
      (kv.releaseSlots slots).freeSlots.Perm (kv.freeSlots ++ slots) := by
  unfold releaseSlots
  split
  · rename_i h
    rw [List.isEmpty_iff.mp h, List.append_nil]
    exact ⟨rfl, rfl, rfl, List.Perm.refl _⟩
  · exact ⟨rfl, rfl, rfl, sortSlots_perm _⟩

theorem free_frame (kv : MHAKVCache) (row : Nat) :
    (kv.free row).alloc = Function.update kv.alloc row none ∧
      (kv.free row).pageSize = kv.pageSize ∧ (kv.free row).numPages = kv.numPages ∧
      (kv.free row).freeSlots.Perm (kv.freeSlots ++ (kv.alloc row).getD []) := by
  unfold free
  split
  · rename_i h
    rw [h, Option.getD_none, List.append_nil]
    exact ⟨(Function.update_eq_self_iff.mpr h.symm).symm, rfl, rfl, List.Perm.refl _⟩
  · rename_i slots h
    rw [h, Option.getD_some]
    exact ⟨rfl, rfl, rfl, sortSlots_perm _⟩

/-- Freeing rows one after the other. -/
theorem foldl_free_frame : ∀ {rows : List Nat} (kv : MHAKVCache), rows.Nodup →
    (∀ row, (rows.foldl free kv).alloc row = if row ∈ rows then none else kv.alloc row) ∧
      (rows.foldl free kv).pageSize = kv.pageSize ∧ (rows.foldl free kv).numPages = kv.numPages ∧
      (rows.foldl free kv).freeSlots.Perm
        (kv.freeSlots ++ rows.flatMap fun row => (kv.alloc row).getD [])
  | [], kv, _ => by simp
  | row :: rows, kv, hn => by
      obtain ⟨hrow, hn⟩ := List.nodup_cons.mp hn
      obtain ⟨ha, hps, hnp, hfree⟩ := free_frame kv row
      obtain ⟨iha, ihps, ihnp, ihfree⟩ := foldl_free_frame (kv.free row) hn
      refine ⟨fun r => ?_, ihps.trans hps, ihnp.trans hnp, ?_⟩
      · rw [List.foldl_cons, iha, ha]
        by_cases hr : r = row
        · subst hr
          simp
        · simp [hr]
      · refine ihfree.trans ?_
        have hsame : (rows.flatMap fun r => ((kv.free row).alloc r).getD []) =
            rows.flatMap fun r => (kv.alloc r).getD [] := by
          refine List.flatMap_congr fun r hr => ?_
          have hne : r ≠ row := fun h => hrow (h ▸ hr)
          rw [ha, Function.update_of_ne hne]
        rw [hsame, List.flatMap_cons, ← List.append_assoc]
        exact hfree.append_right _

end MHAKVCache

namespace Engine

variable {e e' : Engine}

/-! ### The prefix cache seen from the engine -/

/-- The radix tree; an engine without a prefix cache has the empty one. -/
def tree (e : Engine) : Forest :=
  match e.cacheManager with
  | none => .nil
  | some c => c.tree

def handleSpan (e : Engine) (h : RadixCacheHandle) : Option (List Token × List Slot) :=
  e.cacheManager.bind fun c => c.handleSpan h

/-- The cache, if there is one, is well formed while the handles `hs` are locked. -/
def CacheOk (e : Engine) (hs : List RadixCacheHandle) : Prop :=
  ∀ c, e.cacheManager = some c → c.WellFormed hs ∧ c.pageSize = e.config.pageSize

theorem CacheOk.perm {hs hs' : List RadixCacheHandle} (h : e.CacheOk hs) (hp : hs.Perm hs') :
    e.CacheOk hs' := fun c hc => ⟨(h c hc).1.perm hp, (h c hc).2⟩

theorem CacheOk.congr {hs : List RadixCacheHandle} (h : e.CacheOk hs)
    (hcache : e'.cacheManager = e.cacheManager) (hconfig : e'.config = e.config) :
    e'.CacheOk hs := fun c hc => by
  rw [hconfig]
  exact h c (hcache ▸ hc)

theorem tree_congr (hcache : e'.cacheManager = e.cacheManager) : e'.tree = e.tree := by
  rw [tree, tree, hcache]

theorem handleSpan_congr (hcache : e'.cacheManager = e.cacheManager) (h : RadixCacheHandle) :
    e'.handleSpan h = e.handleSpan h := by
  rw [handleSpan, handleSpan, hcache]

/-- The cache lost at most some unlocked prefixes, whose slots the pool got. -/
structure Reclaimed (hs : List RadixCacheHandle) (e e' : Engine) : Prop where
  frame : e' = { e with cacheManager := e'.cacheManager, kvCache := e'.kvCache }
  cacheOk : e'.CacheOk hs
  isSome_eq : e'.cacheManager.isSome = e.cacheManager.isSome
  span_eq : ∀ h ∈ hs, e'.handleSpan h = e.handleSpan h
  entries_sub : ∀ x ∈ e'.tree.entries, x ∈ e.tree.entries
  kv_eq : e'.kvCache = { e.kvCache with freeSlots := e'.kvCache.freeSlots }
  slots_perm : (e.kvCache.freeSlots ++ e.tree.slots).Perm (e'.kvCache.freeSlots ++ e'.tree.slots)

theorem Reclaimed.refl {hs : List RadixCacheHandle} (h : e.CacheOk hs) : Reclaimed hs e e :=
  ⟨rfl, h, rfl, fun _ _ => rfl, fun _ h => h, rfl, List.Perm.refl _⟩

/-- `kv_cache.allocate` with its retry: it gives the slots exactly when the free
and the evictable ones are enough. -/
theorem allocateOrEvict_spec {hs : List RadixCacheHandle} (hc : e.CacheOk hs)
    (hps : e.kvCache.pageSize = e.config.pageSize) {row : Nat} (numPages : Nat)
    (hnone : e.kvCache.alloc row = none) :
    (numPages * e.config.pageSize ≤ e.kvCache.freeSlots.length + e.tree.evictable ∧
      ∃ slots e1 kv, Reclaimed hs e e1 ∧ e1.kvCache.allocate row numPages = .ok (slots, kv) ∧
        e.allocateOrEvict row numPages = (.ok slots, { e1 with kvCache := kv })) ∨
    (e.kvCache.freeSlots.length + e.tree.evictable < numPages * e.config.pageSize ∧
      ∃ n e', Reclaimed hs e e' ∧ e.allocateOrEvict row numPages =
        (.error (.kvPoolFull (numPages * e.config.pageSize) numPages e.config.pageSize n), e')) := by
  by_cases hfit : numPages * e.kvCache.pageSize ≤ e.kvCache.freeSlots.length
  · left
    have hok := MHAKVCache.allocate_ok e.kvCache hnone hfit
    exact ⟨by rw [← hps]; omega, _, e, _, Reclaimed.refl hc, hok, by simp [allocateOrEvict, hok]⟩
  · obtain ⟨n, herr⟩ := MHAKVCache.allocate_full e.kvCache hnone (Nat.lt_of_not_le hfit)
    rw [hps] at herr
    cases hcm : e.cacheManager with
    | none =>
        right
        have hev : e.tree.evictable = 0 := by simp [tree, hcm, Forest.evictable]
        exact ⟨by rw [← hps]; omega, n, e, Reclaimed.refl hc,
          by simp [allocateOrEvict, herr, hcm]⟩
    | some c =>
        obtain ⟨hw, hcps⟩ := hc c hcm
        have hev : e.tree.evictable = c.tree.evictable := by simp [tree, hcm]
        have hsize := hw.evictable_eq
        by_cases hzero : min ((numPages * e.config.pageSize : Nat) : Int) c.evictableSize ≤ 0
        · right
          refine ⟨by rw [← hps] at hzero ⊢; omega, n, e, Reclaimed.refl hc, ?_⟩
          simp only [allocateOrEvict, herr, hcm]
          rw [if_pos hzero]
        · obtain ⟨indices, c', hevict, hspec, hle⟩ := hw.evict_spec
            (min ((numPages * e.config.pageSize : Nat) : Int) c.evictableSize).toNat
            (by omega) (by omega)
          obtain ⟨halloc, hpsize, hpages, hfree⟩ := e.kvCache.releaseSlots_frame indices
          have hlen := hfree.length_eq
          rw [List.length_append] at hlen
          have hsize' := hspec.evictableSize_eq
          have hw' := hspec.wellFormed.evictable_eq
          have hrec : Reclaimed hs e
              { e with cacheManager := some c', kvCache := e.kvCache.releaseSlots indices } :=
            { frame := rfl
              cacheOk := by
                intro c1 hc1
                obtain rfl := Option.some.inj hc1
                exact ⟨hspec.wellFormed, hspec.pageSize_eq.trans hcps⟩
              isSome_eq := by simp [hcm]
              span_eq := by
                intro h hh
                simp only [handleSpan, hcm, Option.bind_some]
                exact hspec.handleSpan_eq h hh
              entries_sub := by
                intro x hx
                simp only [tree, hcm] at hx ⊢
                exact hspec.entries_sub x hx
              kv_eq := e.kvCache.releaseSlots_eq indices
              slots_perm := by
                simp only [tree, hcm]
                refine (hspec.slots_perm.append_left _).trans ?_
                rw [← List.append_assoc]
                exact hfree.symm.append_right _ }
          by_cases hfit' : numPages * e.kvCache.pageSize ≤
              (e.kvCache.releaseSlots indices).freeSlots.length
          · left
            have hok := MHAKVCache.allocate_ok (e.kvCache.releaseSlots indices)
              (halloc ▸ hnone) (hpsize ▸ hfit')
            refine ⟨by rw [hps] at hfit'; omega, _, _, _, hrec, hok, ?_⟩
            simp only [allocateOrEvict, herr, hcm, hevict, hok]
            rw [if_neg hzero]
          · right
            obtain ⟨n', herr'⟩ := MHAKVCache.allocate_full (e.kvCache.releaseSlots indices)
              (halloc ▸ hnone) (hpsize ▸ Nat.lt_of_not_le hfit')
            rw [hpsize, hps] at herr'
            refine ⟨by rw [hps] at hfit'; omega, n', _, hrec, ?_⟩
            simp only [allocateOrEvict, herr, hcm, hevict, herr']
            rw [if_neg hzero]

end Engine

end FreeToken
