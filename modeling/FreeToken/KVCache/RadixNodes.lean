import FreeToken.KVCache.RadixCache

/-!
# Handles to nodes that were evicted

A handle holds its node, also when `evict` has taken the node out of the tree: the object
lives on with its `_parent`, and `lock_handle` and `get_matched_indices` walk from it to the
root. `RadixNodes` keeps these objects beside the cache, so that a handle means the same at
any time.
-/

namespace FreeToken

/-- A node out of the tree, and its `_parent` (`none`: the root). -/
structure EvictedNode where
  node : RadixTreeNode
  parent : Option Nat
deriving DecidableEq, Repr

namespace Forest

/-- `node.parent`; `none` is the root. -/
def parent (u : Nat) (f : Forest) : Option Nat :=
  ((f.path u).getD []).dropLast.getLast?.map fun d => d.uuid

/-- The nodes that `evictLoop` pops. -/
def evictedNodes (size : Nat) : Nat → Forest → Nat → List EvictedNode
  | 0, _, _ => []
  | fuel + 1, tree, evictedSize =>
      if evictedSize < size then
        match heapMin tree.leaves with
        | none => []
        | some victim =>
            { node := victim, parent := tree.parent victim.uuid } ::
              evictedNodes size fuel (tree.remove victim.uuid) (evictedSize + victim.key.length)
      else []

end Forest

/-- The walk from node `u` to the root: the evicted nodes, and the node of the tree it goes on
from (`none`: the root). A parent is evicted after its children, so it stands further on. -/
def climb : List EvictedNode → Nat → List EvictedNode × Option Nat
  | [], u => ([], some u)
  | e :: es, u =>
      if e.node.uuid = u then
        match e.parent with
        | none => ([e], none)
        | some v => (e :: (climb es v).1, (climb es v).2)
      else climb es u

/-- The cache, and the evicted nodes, in the order of their eviction. -/
structure RadixNodes where
  cache : RadixPrefixCache
  evicted : List EvictedNode := []
deriving DecidableEq, Repr

namespace RadixNodes

/-- The walk from a handle's node to the root. -/
def ancestors (c : RadixNodes) (handle : RadixCacheHandle) : List EvictedNode × Option Nat :=
  match handle.node with
  | none => ([], none)
  | some u => climb c.evicted u

/-- The handle of the first node of the tree on this walk. -/
def landed (c : RadixNodes) (handle : RadixCacheHandle) : RadixCacheHandle :=
  { handle with node := (c.ancestors handle).2 }

/-- A new reference count on each of the nodes. -/
def recount (f : Nat → Nat) (on : List EvictedNode) (es : List EvictedNode) : List EvictedNode :=
  es.map fun e =>
    if e.node.uuid ∈ on.map (fun x => x.node.uuid) then
      { e with node := { e.node with refCount := f e.node.refCount } }
    else e

/-- The summed length of the nodes whose reference count is `n`. -/
def length (n : Nat) (es : List EvictedNode) : Nat :=
  RadixPrefixCache.pathLength n (es.map fun e => e.node)

def matchPrefix (c : RadixNodes) (inputIds : List Token) : MatchResult × RadixNodes :=
  ((c.cache.matchPrefix inputIds).1, { c with cache := (c.cache.matchPrefix inputIds).2 })

def insertPrefix (c : RadixNodes) (inputIds : List Token) (indices : List Slot) :
    Option (MatchResult × RadixNodes) :=
  (c.cache.insertPrefix inputIds indices).map fun r => (r.1, { c with cache := r.2 })

/-- `lock_handle(handle)`. The size counters are moved for an evicted node as for any other. -/
def lock (c : RadixNodes) (handle : RadixCacheHandle) : RadixNodes :=
  let gone := (c.ancestors handle).1
  let cache := c.cache.lock (c.landed handle)
  { cache :=
      { cache with
        evictableSize := cache.evictableSize - length 0 gone
        protectedSize := cache.protectedSize + length 0 gone }
    evicted := recount (· + 1) gone c.evicted }

/-- `lock_handle(handle, unlock=True)`; `none` is its assertion. -/
def unlock (c : RadixNodes) (handle : RadixCacheHandle) : Option RadixNodes :=
  let gone := (c.ancestors handle).1
  if gone.any (fun e => e.node.refCount == 0) then none
  else
    (c.cache.unlock (c.landed handle)).map fun cache =>
      { cache :=
          { cache with
            evictableSize := cache.evictableSize + length 1 gone
            protectedSize := cache.protectedSize - length 1 gone }
        evicted := recount (· - 1) gone c.evicted }

/-- `get_matched_indices` of a handle. -/
def getMatchedIndices (c : RadixNodes) (handle : RadixCacheHandle) : List Slot :=
  c.cache.getMatchedIndices (c.landed handle) ++
    (c.ancestors handle).1.reverse.flatMap fun e => e.node.value

def evict (c : RadixNodes) (size : Nat) : Option (List Slot × RadixNodes) :=
  (c.cache.evict size).map fun r =>
    (r.1,
      { cache := r.2
        evicted := c.evicted ++ Forest.evictedNodes size c.cache.tree.count c.cache.tree 0 })

/-- A cache as it is made. -/
def init (pageSize : Nat) : RadixNodes := { cache := { pageSize := pageSize } }

/-! ### Calls -/

inductive Call where
  | matchPrefix (inputIds : List Token)
  | insertPrefix (inputIds : List Token) (indices : List Slot)
  | lockHandle (handle : RadixCacheHandle) (unlock : Bool)
  | evict (size : Nat)
deriving DecidableEq, Repr

/-- What a call returns; a handle comes with its `get_matched_indices`. -/
inductive Reply where
  | result (r : MatchResult) (indices : List Slot)
  | unit
  | evicted (indices : List Slot)
deriving DecidableEq, Repr

/-- A call that returns; `none` is an assertion. -/
def call (c : RadixNodes) : Call → Option (Reply × RadixNodes)
  | .matchPrefix inputIds =>
      let (r, c') := c.matchPrefix inputIds
      some (.result r (c'.getMatchedIndices r.handle), c')
  | .insertPrefix inputIds indices =>
      (c.insertPrefix inputIds indices).map fun r => (.result r.1 (r.2.getMatchedIndices r.1.handle), r.2)
  | .lockHandle handle false => some (.unit, c.lock handle)
  | .lockHandle handle true => (c.unlock handle).map fun c' => (.unit, c')
  | .evict size => (c.evict size).map fun r => (.evicted r.1, r.2)

/-- The calls, one after the other. -/
def calls (c : RadixNodes) : List Call → Option (List Reply × RadixNodes)
  | [] => some ([], c)
  | a :: as =>
      match c.call a with
      | none => none
      | some (r, c') => (calls c' as).map fun rs => (r :: rs.1, rs.2)

end RadixNodes

end FreeToken
