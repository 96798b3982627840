import FreeToken.KVCache.RadixTree

/-!
# `RadixPrefixCache`

The operations of `radix_cache.py` on the whole cache: the tree, the counter
that names new nodes, the clock the timestamps are read from, and the two size
counters. `time.monotonic_ns` is read as a clock that advances at every read.
-/

namespace FreeToken

structure RadixPrefixCache where
  pageSize : Nat
  tree : Forest := .nil
  counter : Nat := 0
  clock : Nat := 0
  evictableSize : Int := 0
  protectedSize : Int := 0
deriving DecidableEq, Repr

/-- `MatchResult` and `InsertResult`. -/
structure MatchResult where
  cachedLen : Nat
  handle : RadixCacheHandle
deriving DecidableEq, Repr

namespace RadixPrefixCache

/-- `_tree_walk` from the root. -/
def treeWalk (c : RadixPrefixCache) (inputIds : List Token) : WalkResult × RadixPrefixCache :=
  let w := c.tree.treeWalk c.pageSize c.clock c.counter none inputIds
  (w, { c with tree := w.tree, counter := w.counter, clock := c.clock + 1 })

def matchPrefix (c : RadixPrefixCache) (inputIds : List Token) : MatchResult × RadixPrefixCache :=
  let (w, c) := c.treeWalk inputIds
  ({ cachedLen := w.prefixLen, handle := { cachedLen := w.prefixLen, node := w.node } }, c)

/-- `set_parent` below the node a walk ended at. -/
def setParent (c : RadixPrefixCache) (parent : Option Nat) (new : RadixTreeNode) : Forest :=
  match parent with
  | none => c.tree.snoc new
  | some u => c.tree.attach u new

/-- `insert_prefix`; `none` is the assertion of `set_key_value`. -/
def insertPrefix (c : RadixPrefixCache) (inputIds : List Token) (indices : List Slot) :
    Option (MatchResult × RadixPrefixCache) :=
  let insertLen := alignDownNat inputIds.length c.pageSize
  let inputIds := inputIds.take insertLen
  let indices := indices.take insertLen
  let (w, c) := c.treeWalk inputIds
  if w.prefixLen = insertLen then
    some ({ cachedLen := w.prefixLen, handle := { cachedLen := insertLen, node := w.node } }, c)
  else
    let new : RadixTreeNode :=
      { uuid := c.counter
        key := inputIds.drop w.prefixLen
        value := indices.drop w.prefixLen
        timestamp := c.clock }
    if new.key.length = new.value.length then
      some ({ cachedLen := w.prefixLen, handle := { cachedLen := insertLen, node := some c.counter } },
        { c with
          tree := c.setParent w.node new
          counter := c.counter + 1
          clock := c.clock + 1
          evictableSize := c.evictableSize + new.key.length })
    else none

/-- The summed length of the nodes on a path whose reference count is `n`. -/
def pathLength (n : Nat) (ds : List RadixTreeNode) : Nat :=
  ((ds.filter fun d => d.refCount = n).map fun d => d.key.length).sum

/-- `lock_handle(handle)`: the nodes that were unlocked become protected. -/
def lock (c : RadixPrefixCache) (handle : RadixCacheHandle) : RadixPrefixCache :=
  match handle.node.bind fun u => (c.tree.path u).map (u, ·) with
  | none => c
  | some (u, ds) =>
      { c with
        tree := c.tree.mapPath u (· + 1)
        evictableSize := c.evictableSize - pathLength 0 ds
        protectedSize := c.protectedSize + pathLength 0 ds }

/-- `lock_handle(handle, unlock=True)`; `none` is the assertion that no
reference count goes below zero. -/
def unlock (c : RadixPrefixCache) (handle : RadixCacheHandle) : Option RadixPrefixCache :=
  match handle.node.bind fun u => (c.tree.path u).map (u, ·) with
  | none => some c
  | some (u, ds) =>
      if ds.any (fun d => d.refCount == 0) then none
      else
        some { c with
          tree := c.tree.mapPath u (· - 1)
          evictableSize := c.evictableSize + pathLength 1 ds
          protectedSize := c.protectedSize - pathLength 1 ds }

/-- `get_matched_indices` of a handle. -/
def getMatchedIndices (c : RadixPrefixCache) (handle : RadixCacheHandle) : List Slot :=
  match handle.node.bind fun u => c.tree.path u with
  | none => []
  | some ds => ds.flatMap fun d => d.value

/-- `evict`; `none` is one of its assertions. -/
def evict (c : RadixPrefixCache) (size : Nat) : Option (List Slot × RadixPrefixCache) :=
  if size = 0 then some ([], c)
  else if (size : Int) ≤ c.evictableSize then
    match c.tree.evictLoop size c.tree.count 0 with
    | none => none
    | some (indices, tree, evictedSize) =>
        some (indices, { c with tree := tree, evictableSize := c.evictableSize - evictedSize })
  else none

end RadixPrefixCache

end FreeToken
