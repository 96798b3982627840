import Mathlib.Data.List.Basic

/-!
# Sliding windows

A sequence comes in pieces, and every output is a function of the last `n + 1`
inputs. It is enough to keep the last `n` of them between two pieces: the windows
over what was kept and the next piece are the windows over the whole sequence.
-/

namespace SlidingWindow

variable {α : Type} (pad : α) (n : Nat)

/-- The last `n` of `xs`, with `pad` on the left where there are fewer. -/
def tail (xs : List α) : List α := (List.replicate n pad ++ xs).drop xs.length

/-- `xs[-n:]`. -/
def lastN (xs : List α) : List α := xs.drop (xs.length - n)

/-- All stretches of `n + 1` elements, from left to right. -/
def windows (xs : List α) : List (List α) :=
  (List.range (xs.length - n)).map fun i => (xs.drop i).take (n + 1)

theorem tail_nil : tail pad n [] = List.replicate n pad := by
  simp [tail]

theorem length_tail (xs : List α) : (tail pad n xs).length = n := by
  simp [tail]

theorem length_lastN {xs : List α} (h : n ≤ xs.length) : (lastN n xs).length = n := by
  rw [lastN, List.length_drop]
  omega

theorem length_windows (xs : List α) : (windows n xs).length = xs.length - n := by
  simp [windows]

variable {n}

/-- Keeping the last `n` elements piece by piece. -/
theorem lastN_append {st ys : List α} (h : st.length = n) :
    lastN n (st ++ ys) = (st ++ ys).drop ys.length := by
  rw [lastN, List.length_append, h, Nat.add_sub_cancel_left]

theorem drop_padded (xs ys : List α) :
    (List.replicate n pad ++ (xs ++ ys)).drop xs.length = tail pad n xs ++ ys := by
  rw [← List.append_assoc, List.drop_append_of_le_length (by simp), tail]

theorem tail_append (xs ys : List α) : tail pad n (xs ++ ys) = lastN n (tail pad n xs ++ ys) := by
  rw [lastN_append (length_tail pad n xs), tail, List.length_append, ← List.drop_drop,
    drop_padded]

theorem windows_drop (xs : List α) (k : Nat) : windows n (xs.drop k) = (windows n xs).drop k := by
  apply List.ext_getElem
  · simp only [length_windows, List.length_drop]
    omega
  · intro i h1 h2
    simp only [windows, List.getElem_map, List.getElem_range, List.getElem_drop, List.drop_drop]

/-- The windows over what was kept and the next piece. -/
theorem windows_tail (xs ys : List α) :
    windows n (tail pad n xs ++ ys) =
      (windows n (List.replicate n pad ++ (xs ++ ys))).drop xs.length := by
  rw [← windows_drop, drop_padded]

/-- The windows over two pieces, the second read after what the first one keeps. -/
theorem windows_append {st : List α} (h : st.length = n) (xs ys : List α) :
    windows n (st ++ (xs ++ ys)) = windows n (st ++ xs) ++ windows n (lastN n (st ++ xs) ++ ys) := by
  have hsplit : ∀ k ≤ (st ++ xs).length, (st ++ (xs ++ ys)).drop k = (st ++ xs).drop k ++ ys := by
    intro k hk
    rw [← List.append_assoc st xs ys]
    exact List.drop_append_of_le_length hk
  have hdrop : lastN n (st ++ xs) ++ ys = (st ++ (xs ++ ys)).drop xs.length := by
    rw [lastN_append h, hsplit _ (by simp)]
  have htake : windows n (st ++ xs) = (windows n (st ++ (xs ++ ys))).take xs.length := by
    apply List.ext_getElem
    · simp only [length_windows, List.length_take, List.length_append, h]
      omega
    · intro i h1 h2
      have hi : i < xs.length := by simpa [length_windows, h] using h1
      simp only [windows, List.getElem_map, List.getElem_range, List.getElem_take]
      rw [hsplit i (by simp; omega), List.take_append_of_le_length (by simp; omega)]
  rw [hdrop, windows_drop, htake, List.take_append_drop]

end SlidingWindow
