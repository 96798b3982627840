import FreeToken.KVCache.RadixSound
import FreeToken.KVCache.RadixTouch
import FreeToken.Lib.Run

/-!
# Runs of the cache

`RadixRun` is a run of calls that return: the cache, the handles it returned, those that are
locked, and the walks with their times. A handle that was returned reads the same slots from
then on, wherever its node goes.
-/

namespace FreeToken

namespace RadixPrefixCache

/-- A handle reads the span of its node. -/
theorem getMatchedIndices_congr {c c' : RadixPrefixCache} {hd : RadixCacheHandle}
    (h : ∀ u, hd.node = some u → c'.tree.span u = c.tree.span u) :
    c'.getMatchedIndices hd = c.getMatchedIndices hd := by
  unfold getMatchedIndices
  cases hnode : hd.node with
  | none => rfl
  | some u =>
      have hspan := h u hnode
      rw [Forest.span, Forest.span] at hspan
      simp only [Option.bind_some]
      cases hp : c.tree.path u with
      | none =>
          rw [hp, Option.map_none, Option.map_eq_none_iff] at hspan
          rw [hspan]
      | some ds =>
          rw [hp, Option.map_some, Option.map_eq_some_iff] at hspan
          obtain ⟨ds', hp', heq⟩ := hspan
          rw [hp']
          exact congrArg Prod.snd heq

end RadixPrefixCache

/-- The slots from the root down to a node. -/
def Forest.valuesTo (f : Forest) (at' : Option Nat) : List Slot :=
  match at'.bind fun u => f.path u with
  | none => []
  | some ds => ds.flatMap fun d => d.value

theorem Pops.path_eq {ps : Nat} {f f' : Forest} {es : List EvictedNode} (h : Pops f es f')
    (hv : f.Valid ps) (hn : f.uuids.Nodup) {u : Nat} (hu : u ∈ f'.uuids) :
    f'.path u = f.path u := by
  induction h with
  | done f => rfl
  | pop hmin rest ih =>
      have hleaf := heapMin_mem hmin
      have htip := Forest.mem_tips_of_leaves hleaf
      have hn' := List.nodup_cons.mp ((Forest.uuids_remove htip hn).nodup_iff.mp hn)
      have hv' := (Forest.pruned_remove hleaf hv hn).1.valid
      rw [ih hv' hn'.2 hu]
      apply Forest.path_remove htip hn
      intro heq
      have hmem := (rest.shape hv' hn'.2).2.mem_iff.mpr (List.mem_append_right _ hu)
      rw [heq] at hmem
      exact hn'.1 hmem

/-- What a node spanned can be read by climbing through the popped nodes. -/
theorem Pops.valuesTo {ps : Nat} {f f' : Forest} {es : List EvictedNode} (h : Pops f es f')
    (hv : f.Valid ps) (hn : f.uuids.Nodup) {u : Nat} (hu : u ∈ f.uuids) :
    f'.valuesTo (climb es u).2 ++ ((climb es u).1.reverse.flatMap fun e => e.node.value) =
      f.valuesTo (some u) := by
  induction h generalizing u with
  | done f =>
      rw [climb]
      exact List.append_nil _
  | @pop f f' x es hmin rest ih =>
      have hleaf := heapMin_mem hmin
      have htip := Forest.mem_tips_of_leaves hleaf
      have hperm := Forest.uuids_remove htip hn
      have hn' := (List.nodup_cons.mp (hperm.nodup_iff.mp hn)).2
      have hv' := (Forest.pruned_remove hleaf hv hn).1.valid
      rw [climb]
      split
      · next hxu =>
          dsimp only at hxu
          subst hxu
          obtain ⟨a, ha⟩ := Forest.path_tip htip hn
          have hself : f.valuesTo (some x.uuid) = (a.flatMap fun d => d.value) ++ x.value := by
            simp only [Forest.valuesTo, Option.bind_some, ha, List.flatMap_append,
              List.flatMap_singleton]
          rw [hself]
          split
          · next hnone =>
              dsimp only at hnone
              rw [Forest.parent_eq ha, Option.map_eq_none_iff, List.getLast?_eq_none_iff] at hnone
              subst hnone
              simp [Forest.valuesTo]
          · next v hsome =>
              dsimp only at hsome
              have hvmem := Forest.parent_mem_remove htip hn hsome
              rw [Forest.parent_eq ha, Option.map_eq_some_iff] at hsome
              obtain ⟨y, hy, rfl⟩ := hsome
              obtain ⟨a0, rfl⟩ := List.getLast?_eq_some_iff.mp hy
              have hpath : f.path y.uuid = some (a0 ++ [y]) :=
                Forest.path_of_mem_path hn (by rw [ha, List.append_assoc]; rfl)
              have hne : y.uuid ≠ x.uuid := fun heq =>
                (List.nodup_cons.mp (hperm.nodup_iff.mp hn)).1 (heq ▸ hvmem)
              have hup := ih hv' hn' hvmem
              dsimp only
              rw [List.reverse_cons, List.flatMap_append, ← List.append_assoc, hup,
                List.flatMap_singleton]
              simp only [Forest.valuesTo, Option.bind_some, Forest.path_remove htip hn hne, hpath]
      · next hxu =>
          have hne : u ≠ x.uuid := Ne.symm hxu
          rw [ih hv' hn' ((List.mem_cons.mp (hperm.mem_iff.mp hu)).resolve_left hne)]
          simp only [Forest.valuesTo, Option.bind_some, Forest.path_remove htip hn hne]

namespace RadixNodes

variable {c c' : RadixNodes} {held : List RadixCacheHandle}

theorem getMatchedIndices_eq_valuesTo (c : RadixNodes) (hd : RadixCacheHandle) :
    c.getMatchedIndices hd = c.cache.tree.valuesTo (c.ancestors hd).2 ++
      ((c.ancestors hd).1.reverse.flatMap fun e => e.node.value) := rfl

/-- The handles of `c` are handles of `c'` that read the same slots. -/
structure Frames (c c' : RadixNodes) : Prop where
  known : ∀ {hd}, c.Known hd → c'.Known hd
  indices : ∀ {hd}, c.Known hd → c'.getMatchedIndices hd = c.getMatchedIndices hd

theorem Sound.frames_grow (h : c.Sound held) {cache : RadixPrefixCache}
    (hspan : ∀ u ∈ c.cache.tree.uuids, u ∈ cache.tree.uuids ∧ cache.tree.span u = c.cache.tree.span u) :
    Frames c { c with cache := cache } where
  known := fun hk u hu => (hk u hu).imp_left fun hmem => (hspan u hmem).1
  indices := by
    intro hd hk
    have heq : cache.getMatchedIndices (c.landed hd) = c.cache.getMatchedIndices (c.landed hd) :=
      RadixPrefixCache.getMatchedIndices_congr fun u hu => (hspan u (h.landed_mem hk hu)).2
    exact congrArg (· ++ ((c.ancestors hd).1.reverse.flatMap fun e => e.node.value)) heq

/-- New counts on the nodes change no span and no value. -/
theorem Relocks.frames {f : Nat → Nat} {on : List EvictedNode} (h : Relocks c c')
    (hevicted : c'.evicted = recount f on c.evicted) : Frames c c' where
  known := by
    intro hd hk u hu
    rw [h.uuids_eq, hevicted, map_uuid_recount]
    exact hk u hu
  indices := by
    intro hd _
    obtain ⟨cache, evicted⟩ := c'
    dsimp only at hevicted
    subst hevicted
    rw [getMatchedIndices, getMatchedIndices, landed_recount, ancestors_recount]
    have hvalue : ((recount f on (c.ancestors hd).1).reverse.flatMap fun e => e.node.value) =
        (c.ancestors hd).1.reverse.flatMap fun e => e.node.value := by
      rw [recount, ← List.map_reverse, List.flatMap_map]
      apply List.flatMap_congr
      intro e _
      dsimp only
      split
      · rfl
      · rfl
    rw [hvalue]
    congr 1
    exact RadixPrefixCache.getMatchedIndices_congr fun u _ => h.span_eq u

theorem unlock_evicted {hd : RadixCacheHandle} (h : c.unlock hd = some c') :
    c'.evicted = recount (· - 1) (c.ancestors hd).1 c.evicted := by
  rw [RadixNodes.unlock] at h
  split at h
  · cases h
  · rw [Option.map_eq_some_iff] at h
    obtain ⟨cache, -, rfl⟩ := h
    rfl

theorem Sound.perm {held' : List RadixCacheHandle} (h : c.Sound held) (hp : held.Perm held') :
    c.Sound held' where
  apart := h.apart
  wellFormed := h.wellFormed.perm (hp.map c.landed)
  nodup := h.nodup
  linked := h.linked
  refs := fun e he => (h.refs e he).trans (hp.countP_eq _)

theorem Sound.frames_evict (h : c.Sound held) {size : Nat} {indices : List Slot}
    (hevict : c.evict size = some (indices, c')) : Frames c c' := by
  obtain ⟨-, hpops, hevicted, -⟩ := h.evict hevict
  obtain ⟨-, hperm⟩ := hpops.shape h.apart.shape.valid h.apart.shape.nodup
  generalize Forest.evictedNodes size c.cache.tree.count c.cache.tree 0 = vs at *
  constructor
  · intro hd hk u hu
    rw [hevicted, List.map_append, List.mem_append]
    rcases hk u hu with hmem | hmem
    · rcases List.mem_append.mp (hperm.mem_iff.mp hmem) with hgone | hstay
      · exact Or.inr (Or.inr hgone)
      · exact Or.inl hstay
    · exact Or.inr (Or.inl hmem)
  · intro hd hk
    rw [getMatchedIndices_eq_valuesTo, getMatchedIndices_eq_valuesTo, ancestors, ancestors,
      hevicted]
    cases hnode : hd.node with
    | none => rfl
    | some u =>
        dsimp only
        rw [climb_append]
        cases htop : (climb c.evicted u).2 with
        | none => rfl
        | some v =>
            have hv : v ∈ c.cache.tree.uuids := climb_mem h.linked (hk u hnode) htop
            have hvalues := hpops.valuesTo h.apart.shape.valid h.apart.shape.nodup hv
            dsimp only
            rw [List.reverse_append, List.flatMap_append, ← List.append_assoc, hvalues]

end RadixNodes

/-! ### Runs -/

/-- What a call left behind: the cache, the handles that were returned, those that are locked,
and the walks, newest first. -/
structure RadixRun where
  nodes : RadixNodes
  issued : List RadixCacheHandle := []
  held : List RadixCacheHandle := []
  walks : List (Nat × List Token) := []
deriving DecidableEq, Repr

namespace RadixRun

open RadixNodes

/-- The handles of a reply. -/
def handles : Reply → List RadixCacheHandle
  | .result r _ => [r.handle]
  | _ => []

/-- The locked handles after a call. -/
def heldAfter (held : List RadixCacheHandle) : Call → List RadixCacheHandle
  | .lockHandle handle false => handle :: held
  | .lockHandle handle true => held.erase handle
  | _ => held

/-- The walk of a call, with its time. -/
def walkOf (c : RadixPrefixCache) : Call → List (Nat × List Token)
  | .matchPrefix inputIds => [(c.clock, inputIds)]
  | .insertPrefix inputIds _ => [(c.clock, inputIds.take (alignDownNat inputIds.length c.pageSize))]
  | _ => []

def next (s : RadixRun) (a : Call) : Option RadixRun :=
  (s.nodes.call a).map fun r =>
    { nodes := r.2
      issued := handles r.1 ++ s.issued
      held := heldAfter s.held a
      walks := walkOf s.nodes.cache a ++ s.walks }

/-- A handle is locked after it was returned, and unlocked once for a lock. -/
def Paired (s : RadixRun) : Call → Prop
  | .lockHandle handle false => handle ∈ s.issued
  | .lockHandle handle true => handle ∈ s.held
  | _ => True

instance (s : RadixRun) : (a : Call) → Decidable (s.Paired a)
  | .lockHandle handle false => inferInstanceAs (Decidable (handle ∈ s.issued))
  | .lockHandle handle true => inferInstanceAs (Decidable (handle ∈ s.held))
  | .matchPrefix _ => isTrue trivial
  | .insertPrefix _ _ => isTrue trivial
  | .evict _ => isTrue trivial

def init (pageSize : Nat) : RadixRun := { nodes := RadixNodes.init pageSize }

/-- The run of these calls, with the locks in pairs. -/
def Reaches (s : RadixRun) (as : List Call) (s' : RadixRun) : Prop :=
  Run.AllSteps next Paired s as ∧ Run.exec next s as = some s'

structure Kept (s : RadixRun) : Prop where
  sound : s.nodes.Sound s.held
  stamped : Stamped s.walks s.nodes.cache.clock s.nodes.cache.tree
  represents : ∃ m, s.nodes.cache.tree.Represents s.nodes.cache.pageSize m
  issued : ∀ hd ∈ s.issued, s.nodes.Known hd ∧
    (s.nodes.getMatchedIndices hd).length = hd.cachedLen
  held_issued : ∀ hd ∈ s.held, hd ∈ s.issued

variable {s s' : RadixRun}

theorem kept_init {ps : Nat} (hps : 0 < ps) : (init ps).Kept where
  sound := sound_init hps
  stamped :=
    { log_lt := fun _ hy => absurd hy List.not_mem_nil
      stamp := fun _ hx => absurd hx List.not_mem_nil }
  represents := ⟨_, represents_init ps⟩
  issued := fun _ hd => absurd hd List.not_mem_nil
  held_issued := fun _ hd => absurd hd List.not_mem_nil

/-- What one call leaves of the handles and the counts. -/
theorem Kept.call_frames {a : Call} {r : Reply} {c' : RadixNodes} (h : s.Kept) (hp : s.Paired a)
    (hcall : s.nodes.call a = some (r, c')) :
    Frames s.nodes c' ∧ c'.Sound (heldAfter s.held a) := by
  cases a with
  | matchPrefix ids =>
      cases hcall
      have hw := h.sound.apart.shape.walked ids
      exact ⟨h.sound.frames_grow hw.keeps.span_eq, h.sound.matchPrefix ids⟩
  | insertPrefix ids slots =>
      rw [call, Option.map_eq_some_iff] at hcall
      obtain ⟨⟨res, c1⟩, hinsert, heq⟩ := hcall
      cases heq
      refine ⟨?_, h.sound.insertPrefix hinsert⟩
      rw [RadixNodes.insertPrefix, Option.map_eq_some_iff] at hinsert
      obtain ⟨⟨res', cache⟩, hinsert, heq⟩ := hinsert
      cases heq
      exact h.sound.frames_grow (h.sound.apart.shape.inserting hinsert).span_eq
  | lockHandle hd unlock =>
      cases unlock with
      | false =>
          cases hcall
          exact ⟨(relocks_lock s.nodes hd).frames rfl, h.sound.lock (h.issued hd hp).1⟩
      | true =>
          rw [call, Option.map_eq_some_iff] at hcall
          obtain ⟨c1, hunlock, heq⟩ := hcall
          cases heq
          have hre := relocks_unlock hunlock
          obtain ⟨c2, hunlock', hsound⟩ := (h.sound.perm (List.perm_cons_erase hp)).unlock
          rw [hunlock] at hunlock'
          cases hunlock'
          exact ⟨hre.frames (unlock_evicted hunlock), hsound⟩
  | evict size =>
      rw [call, Option.map_eq_some_iff] at hcall
      obtain ⟨⟨indices, c1⟩, hevict, heq⟩ := hcall
      cases heq
      exact ⟨h.sound.frames_evict hevict, (h.sound.evict hevict).sound⟩

/-- The walks of one call are in the log, and the timestamps are theirs. -/
theorem Kept.call_stamped {a : Call} {r : Reply} {c' : RadixNodes} (h : s.Kept)
    (hcall : s.nodes.call a = some (r, c')) :
    Stamped (walkOf s.nodes.cache a ++ s.walks) c'.cache.clock c'.cache.tree := by
  cases a with
  | matchPrefix ids =>
      cases hcall
      exact h.sound.apart.shape.stamped_matchPrefix h.stamped ids
  | insertPrefix ids slots =>
      rw [call, Option.map_eq_some_iff] at hcall
      obtain ⟨⟨res, c1⟩, hinsert, heq⟩ := hcall
      cases heq
      rw [RadixNodes.insertPrefix, Option.map_eq_some_iff] at hinsert
      obtain ⟨⟨res', cache⟩, hinsert, heq⟩ := hinsert
      cases heq
      exact h.sound.apart.shape.stamped_insertPrefix h.stamped hinsert
  | lockHandle hd unlock =>
      have hre : Relocks s.nodes c' := by
        cases unlock with
        | false =>
            cases hcall
            exact relocks_lock s.nodes hd
        | true =>
            rw [call, Option.map_eq_some_iff] at hcall
            obtain ⟨c1, hunlock, heq⟩ := hcall
            cases heq
            exact relocks_unlock hunlock
      rw [hre.clock_eq]
      refine h.stamped.sub fun x hx => ?_
      rw [← Forest.stamps_bare, hre.bare_eq, Forest.stamps_bare] at hx
      exact hx
  | evict size =>
      rw [call, Option.map_eq_some_iff] at hcall
      obtain ⟨⟨indices, c1⟩, hevict, heq⟩ := hcall
      cases heq
      have hpops := (h.sound.evict hevict).pops
      rw [RadixNodes.evict, Option.map_eq_some_iff] at hevict
      obtain ⟨⟨indices', cache⟩, hevict, heq⟩ := hevict
      cases heq
      obtain ⟨-, -, -, hfields⟩ := RadixPrefixCache.evict_pops hevict
      have hclock : cache.clock = s.nodes.cache.clock := by rw [hfields]
      dsimp only
      rw [hclock]
      exact (hpops.evictsOldest h.sound.apart.shape.valid h.sound.apart.shape.nodup h.stamped).2

/-- A handle that a call returns is known, and reads as many slots as it says. -/
theorem Kept.call_handles {a : Call} {r : Reply} {c' : RadixNodes} (h : s.Kept)
    (hcall : s.nodes.call a = some (r, c')) {hd : RadixCacheHandle} (hhd : hd ∈ handles r) :
    c'.Known hd ∧ (c'.getMatchedIndices hd).length = hd.cachedLen := by
  obtain ⟨m, hm⟩ := h.represents
  obtain ⟨m', -, happart, -, -⟩ := answers_call h.sound.apart hm hcall
  cases a with
  | matchPrefix ids =>
      cases hcall
      rw [List.mem_singleton.mp hhd]
      have hw := h.sound.apart.shape.walked ids
      obtain ⟨slots, hspan, hlen⟩ := hw.span_eq
      have hindices := happart.getMatchedIndices_eq hw.node_mem hspan
      exact ⟨fun u hu => Or.inl (hw.node_mem u hu), (congrArg List.length hindices).trans hlen⟩
  | insertPrefix ids slots =>
      rw [call, Option.map_eq_some_iff] at hcall
      obtain ⟨⟨res, c1⟩, hinsert, heq⟩ := hcall
      cases heq
      rw [List.mem_singleton.mp hhd]
      rw [RadixNodes.insertPrefix, Option.map_eq_some_iff] at hinsert
      obtain ⟨⟨res', cache⟩, hinsert, heq⟩ := hinsert
      cases heq
      have hi := h.sound.apart.shape.inserts hm hinsert
      have hinserting := h.sound.apart.shape.inserting hinsert
      obtain ⟨out, hspan, hout⟩ := hi.span_eq
      have hindices := happart.getMatchedIndices_eq hinserting.node_mem hspan
      refine ⟨fun u hu => Or.inl (hinserting.node_mem u hu), ?_⟩
      rw [hindices, hout]
      exact hi.cachedLen_eq.symm
  | lockHandle hd' unlock =>
      cases unlock with
      | false =>
          cases hcall
          exact absurd hhd List.not_mem_nil
      | true =>
          rw [call, Option.map_eq_some_iff] at hcall
          obtain ⟨c1, -, heq⟩ := hcall
          cases heq
          exact absurd hhd List.not_mem_nil
  | evict size =>
      rw [call, Option.map_eq_some_iff] at hcall
      obtain ⟨x, -, heq⟩ := hcall
      cases heq
      exact absurd hhd List.not_mem_nil

theorem mem_of_heldAfter {held : List RadixCacheHandle} {hd : RadixCacheHandle} {a : Call}
    (h : hd ∈ heldAfter held a) : hd ∈ held ∨ a = .lockHandle hd false := by
  cases a with
  | lockHandle hd' unlock =>
      cases unlock with
      | false =>
          rcases List.mem_cons.mp h with rfl | h
          · exact Or.inr rfl
          · exact Or.inl h
      | true => exact Or.inl (List.mem_of_mem_erase h)
  | matchPrefix ids => exact Or.inl h
  | insertPrefix ids slots => exact Or.inl h
  | evict size => exact Or.inl h

theorem Kept.next {a : Call} (h : s.Kept) (hp : s.Paired a) (hnext : s.next a = some s') :
    s'.Kept ∧ Frames s.nodes s'.nodes := by
  rw [RadixRun.next, Option.map_eq_some_iff] at hnext
  obtain ⟨⟨r, c'⟩, hcall, rfl⟩ := hnext
  obtain ⟨hframes, hsound⟩ := h.call_frames hp hcall
  obtain ⟨m, hm⟩ := h.represents
  obtain ⟨m', -, -, -, hm'⟩ := answers_call h.sound.apart hm hcall
  refine ⟨?_, hframes⟩
  exact
    { sound := hsound
      stamped := h.call_stamped hcall
      represents := ⟨m', hm'⟩
      issued := by
        intro hd hmem
        rcases List.mem_append.mp hmem with hmem | hmem
        · exact h.call_handles hcall hmem
        · obtain ⟨hknown, hlen⟩ := h.issued hd hmem
          refine ⟨hframes.known hknown, ?_⟩
          rw [hframes.indices hknown]
          exact hlen
      held_issued := by
        intro hd hmem
        rcases mem_of_heldAfter hmem with hmem | rfl
        · exact List.mem_append_right _ (h.held_issued hd hmem)
        · exact List.mem_append_right _ hp }

theorem Reaches.kept {as : List Call} (h : s.Reaches as s') (hs : s.Kept) : s'.Kept :=
  Run.invariant Kept (fun _ _ _ hk hp hn => (hk.next hp hn).1) hs h.1 h.2

end RadixRun

end FreeToken
