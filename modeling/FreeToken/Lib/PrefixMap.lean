import Mathlib.Data.List.Infix

/-!
# Maps of prefixes

A map from sequences, in whole pages of `n` items, to a value for each item. A sequence is
stored with its prefixes: `store` adds what is missing of one and keeps what is there, and
`Evicts` takes ends off again.
-/

/-- The values of the stored sequences. -/
def PrefixMap (α β : Type) : Type := List α → Option (List β)

namespace PrefixMap

variable {α β : Type} (n : Nat) (m : PrefixMap α β)

/-- Nothing is stored. -/
def empty : PrefixMap α β := fun _ => none

/-- The values of a sequence; the empty one has none. -/
def valuesOf (q : List α) : List β := (m q).getD []

/-- The longest prefix of `xs` that is stored has `k` items. -/
structure Longest (xs : List α) (k : Nat) : Prop where
  dvd : n ∣ k
  le : k ≤ xs.length
  stored : k = 0 ∨ (m (xs.take k)).isSome
  longest : ∀ j, n ∣ j → j ≤ xs.length → (m (xs.take j)).isSome → j ≤ k

/-- Store `xs` with the values `ys`, where the first `k` items are stored. -/
def store [DecidableEq α] (xs : List α) (ys : List β) (k : Nat) : PrefixMap α β := fun q =>
  match m q with
  | some s => some s
  | none =>
      if q ≠ [] ∧ n ∣ q.length ∧ q <+: xs then
        some (m.valuesOf (xs.take k) ++ (ys.take q.length).drop k)
      else none

/-- Take off the prefixes of `xs` of more than `k` items. -/
def cut [DecidableEq α] (xs : List α) (k : Nat) : PrefixMap α β := fun q =>
  if q <+: xs ∧ k < q.length then none else m q

/-- Ends of stored sequences are taken off, one after the other, each when nothing goes on from
it; `ys` are their values. -/
inductive Evicts [DecidableEq α] : PrefixMap α β → List β → PrefixMap α β → Prop where
  | done (m : PrefixMap α β) : Evicts m [] m
  | leaf {m m' : PrefixMap α β} {xs : List α} {s ys : List β} {k : Nat} (hs : m xs = some s)
      (hk : k < xs.length)
      (hend : ∀ q q', (m q).isSome → q <+: xs → k < q.length → (m q').isSome → q <+: q' → q' <+: xs)
      (rest : Evicts (m.cut xs k) ys m') : Evicts m (s.drop k ++ ys) m'

variable {n m}

theorem Longest.unique {xs : List α} {j k : Nat} (hj : m.Longest n xs j) (hk : m.Longest n xs k) :
    j = k := by
  apply Nat.le_antisymm
  · rcases hj.stored with hzero | hsome
    · exact hzero ▸ Nat.zero_le k
    · exact hk.longest j hj.dvd hj.le hsome
  · rcases hk.stored with hzero | hsome
    · exact hzero ▸ Nat.zero_le j
    · exact hj.longest k hk.dvd hk.le hsome

/-- An eviction adds nothing and changes nothing that is left. -/
theorem Evicts.sub [DecidableEq α] {m m' : PrefixMap α β} {ys : List β} (h : Evicts m ys m')
    {q : List α} {s : List β} (hq : m' q = some s) : m q = some s := by
  induction h with
  | done m => exact hq
  | leaf hs hk hend rest ih =>
      have hcut := ih hq
      rw [cut] at hcut
      split at hcut
      · cases hcut
      · exact hcut

end PrefixMap
