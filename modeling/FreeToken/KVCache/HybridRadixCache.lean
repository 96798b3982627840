import FreeToken.KVCache.RadixCache
import FreeToken.KVCache.RadixStored
import FreeToken.Lib.Heapq

/-!
# `HybridRadixCache`

The radix cache of `hybrid_radix_cache.py`: on the nodes of `radix_cache.py`, some of which own a
snapshot of the linear state at the end of their span (`mambaValue`, a slot of the state pool).
KV and snapshots are locked and evicted each by its own count. The fields the class shares with
`RadixPrefixCache` are kept as one: the page size, the tree, the counter of the nodes and the clock,
and `full_evictable` and `full_protected` as its two sizes.
-/

namespace FreeToken

namespace Forest

/-- `is_leaf` of node `u`. -/
def isLeaf (u : Nat) (f : Forest) : Bool := f.tips.any fun d => d.uuid = u

/-- Node `u` as it is now. -/
def nodeAt (u : Nat) (f : Forest) : Option RadixTreeNode := (f.path u).bind List.getLast?

/-- Assignments to fields of node `u`. -/
@[grind =]
def modify (u : Nat) (g : RadixTreeNode → RadixTreeNode) : Forest → Forest
  | .nil => .nil
  | .node d cs rest =>
      if d.uuid = u then .node (g d) cs rest else .node d (modify u g cs) (modify u g rest)

/-- `_leaves`: the stack gives the children back from the last one on. -/
@[grind =]
def stackLeaves : Forest → List RadixTreeNode
  | .nil => []
  | .node d cs rest => rest.stackLeaves ++ if cs = .nil then [d] else cs.stackLeaves

/-- `_snapshot_nodes`. -/
@[grind =]
def snapshotNodes : Forest → List RadixTreeNode
  | .nil => []
  | .node d cs rest =>
      rest.snapshotNodes ++ (if d.mambaValue.isSome then [d] else []) ++ cs.snapshotNodes

end Forest

/-- `RadixTreeNode.__lt__`. -/
def RadixTreeNode.lt (a b : RadixTreeNode) : Bool := a.timestamp < b.timestamp

structure HybridRadixCache where
  kv : RadixPrefixCache
  /-- The number of live, unlocked snapshots. -/
  mambaEvictable : Int := 0
  mambaProtected : Int := 0
deriving DecidableEq, Repr

/-- `node` is `none` for the root. -/
structure HybridMatch where
  kvIndices : List Slot
  cachedLen : Nat
  mambaValue : Option Slot
  node : Option Nat
deriving DecidableEq, Repr

structure EvictResult where
  kvIndices : List Slot
  mambaSlots : List Slot
deriving DecidableEq, Repr

namespace HybridRadixCache

abbrev tree (c : HybridRadixCache) : Forest := c.kv.tree

def withTree (c : HybridRadixCache) (tree : Forest) : HybridRadixCache :=
  { c with kv := { c.kv with tree := tree } }

/-! ### `match_prefix` and `insert` -/

/-- The loop of `match_prefix`, on the nodes from where the walk ended up to the root's child. -/
def deepestSnapshot : List RadixTreeNode → Nat → HybridMatch
  | [], _ => { kvIndices := [], cachedLen := 0, mambaValue := none, node := none }
  | cur :: up, endLen =>
      match cur.mambaValue with
      | some slot =>
          { kvIndices := (cur :: up).reverse.flatMap fun d => d.value
            cachedLen := endLen
            mambaValue := some slot
            node := some cur.uuid }
      | none => deepestSnapshot up (endLen - cur.key.length)

/-- The nodes from the root's child down to `node`. -/
def pathTo (c : HybridRadixCache) (node : Option Nat) : List RadixTreeNode :=
  (node.bind fun u => c.tree.path u).getD []

/-- `_path_len`. -/
def pathLen (ds : List RadixTreeNode) : Nat := (ds.map fun d => d.key.length).sum

def matchPrefix (c : HybridRadixCache) (inputIds : List Token) : HybridMatch × HybridRadixCache :=
  let (w, kv) := c.kv.treeWalk inputIds
  let c := { c with kv := kv }
  (deepestSnapshot (c.pathTo w.node).reverse (pathLen (c.pathTo w.node)), c)

/-- The end of `insert`: the snapshot goes to the node, unless it is the root or has one. -/
def donate (c : HybridRadixCache) (node : Option Nat) (mambaValue : Slot) :
    Bool × HybridRadixCache :=
  match node.bind fun u => c.tree.nodeAt u with
  | none => (true, c)
  | some d =>
      if d.mambaValue.isSome then (true, c)
      else
        (false,
          { c.withTree (c.tree.modify d.uuid fun d => { d with mambaValue := some mambaValue }) with
            mambaEvictable :=
              if d.mambaRefCount = 0 then c.mambaEvictable + 1 else c.mambaEvictable })

/-- `insert`, with its `(matched_prefix_len, mamba_exist)`; `none` is the assertion of
`set_key_value`. -/
def insert (c : HybridRadixCache) (inputIds : List Token) (kvIndices : List Slot)
    (mambaValue : Slot) : Option ((Nat × Bool) × HybridRadixCache) :=
  let insertLen := alignDownNat inputIds.length c.kv.pageSize
  let inputIds := inputIds.take insertLen
  let kvIndices := kvIndices.take insertLen
  let (w, kv) := c.kv.treeWalk inputIds
  if w.prefixLen ≠ insertLen then
    let new : RadixTreeNode :=
      { uuid := kv.counter
        key := inputIds.drop w.prefixLen
        value := kvIndices.drop w.prefixLen
        timestamp := kv.clock }
    if new.key.length = new.value.length then
      let c := { c with kv := { kv with
        tree := kv.setParent w.node new
        counter := kv.counter + 1
        clock := kv.clock + 1
        evictableSize := kv.evictableSize + new.key.length } }
      let (exist, c) := c.donate (some new.uuid) mambaValue
      some ((w.prefixLen, exist), c)
    else none
  else
    let (exist, c) := { c with kv := kv }.donate w.node mambaValue
    some ((w.prefixLen, exist), c)

/-! ### Locking -/

/-- `inc_lock`. The second loop is that of `lock_handle`. -/
def incLock (c : HybridRadixCache) (node : Option Nat) : HybridRadixCache :=
  match node.bind fun u => c.tree.nodeAt u with
  | none => c
  | some d =>
      let c :=
        if d.mambaValue.isSome then
          { c.withTree (c.tree.modify d.uuid fun d => { d with mambaRefCount := d.mambaRefCount + 1 })
              with
            mambaEvictable :=
              if d.mambaRefCount = 0 then c.mambaEvictable - 1 else c.mambaEvictable
            mambaProtected :=
              if d.mambaRefCount = 0 then c.mambaProtected + 1 else c.mambaProtected }
        else c
      { c with kv := c.kv.lock { cachedLen := 0, node := node } }

/-- `dec_lock`; `none` is its assertion. -/
def decLock (c : HybridRadixCache) (node : Option Nat) : Option HybridRadixCache :=
  match node.bind fun u => c.tree.nodeAt u with
  | none => some c
  | some d =>
      let c :=
        if d.mambaValue.isSome ∧ 0 < d.mambaRefCount then
          { c.withTree (c.tree.modify d.uuid fun d => { d with mambaRefCount := d.mambaRefCount - 1 })
              with
            mambaEvictable :=
              if d.mambaRefCount = 1 then c.mambaEvictable + 1 else c.mambaEvictable
            mambaProtected :=
              if d.mambaRefCount = 1 then c.mambaProtected - 1 else c.mambaProtected }
        else c
      (c.kv.unlock { cachedLen := 0, node := node }).map fun kv => { c with kv := kv }

/-! ### Eviction -/

/-- The locals of the two loops. -/
structure Evicting where
  cache : HybridRadixCache
  /-- The nodes as they were pushed. -/
  heap : List RadixTreeNode
  kv : List Slot := []
  mamba : List Slot := []
  freed : Nat := 0
deriving DecidableEq, Repr

namespace Evicting

/-- `kv.append(node.value)`, `full_evictable -= node.length`. -/
def takeKv (s : Evicting) (node : RadixTreeNode) : Evicting :=
  { s with
    kv := s.kv ++ node.value
    cache := { s.cache with
      kv := { s.cache.kv with evictableSize := s.cache.kv.evictableSize - node.key.length } } }

/-- `_free_node_mamba`. -/
def freeNodeMamba (s : Evicting) (node : RadixTreeNode) : Evicting :=
  match node.mambaValue with
  | none => s
  | some slot =>
      { s with
        mamba := s.mamba ++ [slot]
        cache :=
          { s.cache.withTree
              (s.cache.tree.modify node.uuid fun d => { d with mambaValue := none }) with
            mambaEvictable :=
              if node.mambaRefCount = 0 then s.cache.mambaEvictable - 1
              else s.cache.mambaEvictable } }

/-- `_unlink`. -/
def unlink (s : Evicting) (node : RadixTreeNode) : Evicting :=
  { s with cache := s.cache.withTree (s.cache.tree.remove node.uuid) }

/-- `_cascade_tombstone_leaves`, on the nodes from the parent up to the root's child: the highest
surviving ancestor, the tokens that came free. -/
def cascadeTombstoneLeaves (s : Evicting) : List RadixTreeNode →
    (Option RadixTreeNode × Nat) × Evicting
  | [] => ((none, 0), s)
  | parent :: up =>
      if parent.mambaValue = none ∧ s.cache.tree.isLeaf parent.uuid ∧ parent.refCount = 0 then
        let ((parent', freed), s') :=
          ((s.takeKv parent).unlink parent).cascadeTombstoneLeaves up
        ((parent', parent.key.length + freed), s')
      else ((some parent, 0), s)

/-- What `evict_full` does with the node it pops. -/
def fullStep (s : Evicting) (popped : RadixTreeNode) : Evicting :=
  match ((s.cache.tree.path popped.uuid).getD []).reverse with
  | [] => s
  | node :: up =>
      if node.refCount ≠ 0 ∨ ¬ s.cache.tree.isLeaf node.uuid then s
      else
        let s := { s with freed := s.freed + node.key.length }
        let ((parent, casc), s) :=
          (((s.takeKv node).freeNodeMamba node).unlink node).cascadeTombstoneLeaves up
        let s := { s with freed := s.freed + casc }
        match parent with
        | none => s
        | some parent =>
            if s.cache.tree.isLeaf parent.uuid ∧ parent.refCount = 0 then
              { s with heap := Heapq.heappush RadixTreeNode.lt s.heap parent }
            else s

/-- What `evict_mamba` does with the node it pops. -/
def mambaStep (s : Evicting) (popped : RadixTreeNode) : Evicting :=
  match ((s.cache.tree.path popped.uuid).getD []).reverse with
  | [] => s
  | node :: up =>
      if node.mambaValue = none ∨ node.mambaRefCount ≠ 0 then s
      else if s.cache.tree.isLeaf node.uuid ∧ node.refCount = 0 then
        let s := (s.takeKv node).freeNodeMamba node
        let s := { s with freed := s.freed + 1 }
        ((s.unlink node).cascadeTombstoneLeaves up).2
      else
        let s := s.freeNodeMamba node
        { s with freed := s.freed + 1 }

/-- `while freed < num and heap`. A node of the heap is always in the tree. The loop pops each
node of the tree at most once, besides those on the heap at first. -/
def loop (step : Evicting → RadixTreeNode → Evicting) (num : Int) : Nat → Evicting → Evicting
  | 0, s => s
  | fuel + 1, s =>
      if (s.freed : Int) < num then
        match Heapq.heappop RadixTreeNode.lt s.heap with
        | none => s
        | some (popped, heap) => loop step num fuel (step { s with heap := heap } popped)
      else s

def result (s : Evicting) : EvictResult × HybridRadixCache :=
  ({ kvIndices := s.kv, mambaSlots := s.mamba }, s.cache)

end Evicting

def evictFull (c : HybridRadixCache) (numTokens : Int) : EvictResult × HybridRadixCache :=
  let leaves := c.tree.stackLeaves.filter fun n => n.refCount = 0
  let s : Evicting := { cache := c, heap := Heapq.heapify RadixTreeNode.lt leaves }
  (s.loop Evicting.fullStep numTokens (s.heap.length + c.tree.count)).result

def evictMamba (c : HybridRadixCache) (num : Int) : EvictResult × HybridRadixCache :=
  let cands := c.tree.snapshotNodes.filter fun n => n.mambaRefCount = 0
  let s : Evicting := { cache := c, heap := Heapq.heapify RadixTreeNode.lt cands }
  (s.loop Evicting.mambaStep num s.heap.length).result

end HybridRadixCache

end FreeToken
