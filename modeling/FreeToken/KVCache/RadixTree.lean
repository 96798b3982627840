import FreeToken.Core

/-!
# The radix tree of `radix_cache.py`

`Forest` is the `children` dict of a node, in insertion order, each child with
its own `children`; the root node has no span and is represented by its
`children` alone. Nodes carry the `uuid` the source gives them, which is how
handles point into the tree. A split keeps the old object as the lower half, so
a handle keeps pointing at the end of the span it was made for.
-/

namespace FreeToken

/-- The fields of `RadixTreeNode`, parent and children apart. The two `mamba`
fields belong to the hybrid cache built on the same nodes. -/
structure RadixTreeNode where
  uuid : Nat
  key : List Token
  value : List Slot
  refCount : Nat := 0
  timestamp : Nat
  mambaValue : Option Slot := none
  mambaRefCount : Nat := 0
deriving DecidableEq, Repr

inductive Forest where
  | nil
  | node (d : RadixTreeNode) (children rest : Forest)
deriving DecidableEq, Repr

/-- `_get_key_fn`: children are keyed by their first page. -/
def keyFn (pageSize : Nat) (xs : List Token) : List Token := xs.take pageSize

/-- `fast_compare_key`: the length of the common prefix. -/
@[grind =]
def fastCompareKey : List Token → List Token → Nat
  | a :: xs, b :: ys => if a = b then fastCompareKey xs ys + 1 else 0
  | _, _ => 0

/-- What `_tree_walk` leaves behind: the tree (timestamps touched, perhaps one
node split), the node it stopped at (`none`: the root) and the matched length. -/
structure WalkResult where
  tree : Forest
  node : Option Nat
  prefixLen : Nat
  /-- `RadixTreeNode.counter` afterwards. -/
  counter : Nat
deriving DecidableEq, Repr

/-- `split_at`: the new upper node takes the first `pos` tokens, the reference
count and no snapshot; the old node keeps the rest. -/
def RadixTreeNode.upper (d : RadixTreeNode) (uuid pos timestamp : Nat) : RadixTreeNode :=
  { uuid := uuid, key := d.key.take pos, value := d.value.take pos, refCount := d.refCount,
    timestamp := timestamp }

def RadixTreeNode.lower (d : RadixTreeNode) (pos : Nat) : RadixTreeNode :=
  { d with key := d.key.drop pos, value := d.value.drop pos }

namespace Forest

/-- `_tree_walk` from the children of `parent`. -/
@[grind =]
def treeWalk (pageSize tic counter : Nat) : Forest → Option Nat → List Token → WalkResult
  | .nil, parent, _ => { tree := .nil, node := parent, prefixLen := 0, counter := counter }
  | .node d cs rest, parent, input =>
      if input = [] then
        { tree := .node d cs rest, node := parent, prefixLen := 0, counter := counter }
      else if keyFn pageSize d.key = keyFn pageSize input then
        let matchLen := alignDownNat (fastCompareKey d.key input) pageSize
        if matchLen ≠ d.key.length then
          { tree := .node (d.upper counter matchLen tic) (.node (d.lower matchLen) cs .nil) rest
            node := some counter
            prefixLen := matchLen
            counter := counter + 1 }
        else
          let w := treeWalk pageSize tic counter cs (some d.uuid) (input.drop matchLen)
          { w with
            tree := .node { d with timestamp := tic } w.tree rest
            prefixLen := matchLen + w.prefixLen }
      else
        let w := treeWalk pageSize tic counter rest parent input
        { w with tree := .node d cs w.tree }

/-- A new entry at the end of a `children` dict. -/
@[grind =]
def snoc : Forest → RadixTreeNode → Forest
  | .nil, new => .node new .nil .nil
  | .node d cs rest, new => .node d cs (rest.snoc new)

/-- `set_parent` of a new node: it becomes the last child of node `u`. -/
@[grind =]
def attach (u : Nat) (new : RadixTreeNode) : Forest → Forest
  | .nil => .nil
  | .node d cs rest =>
      if d.uuid = u then .node d (cs.snoc new) rest
      else .node d (attach u new cs) (attach u new rest)

/-- The nodes from the root's child down to node `u`. -/
@[grind =]
def path (u : Nat) : Forest → Option (List RadixTreeNode)
  | .nil => none
  | .node d cs rest =>
      if d.uuid = u then some [d]
      else
        match path u cs with
        | some ds => some (d :: ds)
        | none => path u rest

/-- Replace the reference count of every node on the path to `u`. -/
@[grind =]
def mapPath (u : Nat) (f : Nat → Nat) : Forest → Forest
  | .nil => .nil
  | .node d cs rest =>
      if d.uuid = u then .node { d with refCount := f d.refCount } cs rest
      else
        match path u cs with
        | some _ => .node { d with refCount := f d.refCount } (mapPath u f cs) rest
        | none => .node d cs (mapPath u f rest)

/-- `_collect_leave_nodes_for_evict`: the leaves with reference count 0. -/
@[grind =]
def leaves : Forest → List RadixTreeNode
  | .nil => []
  | .node d .nil rest => (if d.refCount = 0 then [d] else []) ++ leaves rest
  | .node _ (.node d cs rest') rest => leaves (.node d cs rest') ++ leaves rest

/-- `del parent.children[key_fn(node._key)]` for the leaf `u`. -/
@[grind =]
def remove (u : Nat) : Forest → Forest
  | .nil => .nil
  | .node d cs rest => if d.uuid = u then rest else .node d (remove u cs) (remove u rest)

@[grind =]
def count : Forest → Nat
  | .nil => 0
  | .node _ cs rest => 1 + count cs + count rest

end Forest

/-- `heapq.heappop` on nodes ordered by timestamp. -/
def heapMin : List RadixTreeNode → Option RadixTreeNode
  | [] => none
  | d :: ds =>
      match heapMin ds with
      | none => some d
      | some e => if e.timestamp < d.timestamp then some e else some d

/-- The loop of `evict`. The heap always holds the unlocked leaves of the tree:
a parent is pushed when it becomes one. Running out of leaves is the source's
assertion; `fuel` bounds the number of nodes, so it ends no loop earlier. -/
def Forest.evictLoop (size : Nat) : Nat → Forest → Nat → Option (List Slot × Forest × Nat)
  | 0, tree, evictedSize => if evictedSize < size then none else some ([], tree, evictedSize)
  | fuel + 1, tree, evictedSize =>
      if evictedSize < size then
        match heapMin tree.leaves with
        | none => none
        | some victim =>
            match evictLoop size fuel (tree.remove victim.uuid)
                (evictedSize + victim.key.length) with
            | none => none
            | some (indices, result) => some (victim.value ++ indices, result)
      else some ([], tree, evictedSize)

end FreeToken
