import FreeToken.Core

/-!
# `LinearStatePool`

`kvcache/linear_state_pool.py`: the free list over recurrent-state slots. Slot 0
is the padding slot. `alloc` pops from the end of the list and `free` appends
to it. The states themselves are followed where they matter, through the copies
and forwards a step performs.
-/

namespace FreeToken

structure LinearStatePool where
  numSlots : Nat
  freeSlots : List Slot
deriving DecidableEq, Repr

namespace LinearStatePool

def init (numSlots : Nat) : LinearStatePool where
  numSlots := numSlots
  freeSlots := (List.range numSlots).drop 1

/-- `alloc(3)`: one live slot and two track slots, as `add_request` unpacks them. -/
def alloc3 (pool : LinearStatePool) :
    Except EngineError ((Slot × Slot × Slot) × LinearStatePool) :=
  match pool.freeSlots.reverse with
  | live :: track0 :: track1 :: rest =>
      .ok ((live, track0, track1), { pool with freeSlots := rest.reverse })
  | _ => .error (.linearStateExhausted 3 pool.freeSlots.length)

theorem alloc3_ok {pool pool' : LinearStatePool} {live track0 track1 : Slot}
    (h : pool.alloc3 = .ok ((live, track0, track1), pool')) :
    pool.freeSlots = pool'.freeSlots ++ [track1, track0, live] ∧ pool'.numSlots = pool.numSlots := by
  unfold alloc3 at h
  split at h
  · rename_i live' track0' track1' rest hrev
    simp only [Except.ok.injEq, Prod.mk.injEq] at h
    obtain ⟨⟨rfl, rfl, rfl⟩, rfl⟩ := h
    refine ⟨?_, rfl⟩
    have heq := congrArg List.reverse hrev
    rw [List.reverse_reverse] at heq
    simpa using heq
  · cases h

theorem alloc3_error {pool : LinearStatePool} {err : EngineError} (h : pool.alloc3 = .error err) :
    pool.freeSlots.length < 3 := by
  unfold alloc3 at h
  split at h
  · cases h
  · rename_i hshort
    by_contra hlen
    have hrev : 3 ≤ pool.freeSlots.reverse.length := by
      rw [List.length_reverse]
      omega
    match hmatch : pool.freeSlots.reverse, hrev with
    | a :: b :: c :: rest, _ => exact hshort a b c rest hmatch

def free (pool : LinearStatePool) (slots : List Slot) : LinearStatePool :=
  { pool with freeSlots := pool.freeSlots ++ slots }

end LinearStatePool

end FreeToken
