import Mathlib.Logic.Function.Basic
import Mathlib.Data.List.Nodup
import FreeToken.Lib.SlidingWindow

/-!
# Recurrent states

A `Recurrence` advances a state by one piece of an input sequence after the other;
where the pieces are cut makes no difference. Many such states are kept in cells, and
a sweep makes a list of jobs, each on the cell of its key: when the keys differ, each
job finds its cell as it was before the sweep.
-/

structure Recurrence (ι σ : Type) where
  fresh : σ
  advance : σ → List ι → σ
  advance_nil : ∀ s, advance s [] = s
  advance_append : ∀ s xs ys, advance s (xs ++ ys) = advance (advance s xs) ys

namespace Recurrence

variable {ι σ α : Type}

/-- The state after the inputs from the beginning. -/
def after (r : Recurrence ι σ) (xs : List ι) : σ := r.advance r.fresh xs

theorem after_nil (r : Recurrence ι σ) : r.after [] = r.fresh := r.advance_nil r.fresh

theorem after_append (r : Recurrence ι σ) (xs ys : List ι) :
    r.after (xs ++ ys) = r.advance (r.after xs) ys := r.advance_append r.fresh xs ys

/-- Two states over the same inputs. -/
def prod {σ' : Type} (r : Recurrence ι σ) (r' : Recurrence ι σ') : Recurrence ι (σ × σ') where
  fresh := (r.fresh, r'.fresh)
  advance s xs := (r.advance s.1 xs, r'.advance s.2 xs)
  advance_nil s := Prod.ext (r.advance_nil s.1) (r'.advance_nil s.2)
  advance_append s xs ys := Prod.ext (r.advance_append s.1 xs ys) (r'.advance_append s.2 xs ys)

/-- The last `n` inputs, as the projection `f` sees them. -/
def window (pad : α) (n : Nat) (f : ι → α) : Recurrence ι { st : List α // st.length = n } where
  fresh := ⟨List.replicate n pad, by simp⟩
  advance st xs := ⟨SlidingWindow.lastN n (st.1 ++ xs.map f),
    SlidingWindow.length_lastN n (by simp [st.2])⟩
  advance_nil st := by
    apply Subtype.ext
    simp [SlidingWindow.lastN, st.2]
  advance_append st xs ys := by
    apply Subtype.ext
    have hmid : (SlidingWindow.lastN n (st.1 ++ xs.map f)).length = n :=
      SlidingWindow.length_lastN n (by simp [st.2])
    dsimp only
    rw [SlidingWindow.lastN_append hmid, SlidingWindow.lastN_append st.2,
      SlidingWindow.lastN_append st.2, List.map_append, List.length_append, ← List.append_assoc,
      ← List.drop_drop, List.drop_append_of_le_length (by simp)]

theorem after_window (pad : α) (n : Nat) (f : ι → α) (xs : List ι) :
    ((window pad n f).after xs).1 = SlidingWindow.tail pad n (xs.map f) := by
  have h := SlidingWindow.tail_append (n := n) pad [] (xs.map f)
  rw [SlidingWindow.tail_nil, List.nil_append] at h
  exact h.symm

theorem after_window_comp {β : Type} (pad : α) (n : Nat) (g : β → α) (f : ι → β) (xs : List ι) :
    (window pad n fun x => g (f x)).after xs = (window pad n g).after (xs.map f) := by
  apply Subtype.ext
  rw [after_window, after_window, List.map_map]
  rfl

end Recurrence

namespace Sweep

variable {κ σ ι ο τ : Type} [DecidableEq κ] (key : ι → κ) (act : ι → σ → ο × σ)

/-- The jobs one after the other: what they report, and the cells afterwards. -/
def sweep : List ι → (κ → σ) → List ο × (κ → σ)
  | [], cells => ([], cells)
  | j :: js, cells =>
      let (o, s) := act j (cells (key j))
      let (os, cells) := sweep js (Function.update cells (key j) s)
      (o :: os, cells)

variable {key act}

theorem sweep_of_notMem {k : κ} : ∀ {js : List ι} {cells : κ → σ}, k ∉ js.map key →
    (sweep key act js cells).2 k = cells k
  | [], _, _ => rfl
  | j :: js, cells, h => by
      rw [List.map_cons, List.mem_cons, not_or] at h
      rw [sweep]
      exact (sweep_of_notMem h.2).trans (Function.update_of_ne h.1 _ _)

theorem sweep_of_mem {j : ι} : ∀ {js : List ι} {cells : κ → σ}, (js.map key).Nodup → j ∈ js →
    (sweep key act js cells).2 (key j) = (act j (cells (key j))).2
  | i :: js, cells, hn, hj => by
      obtain ⟨hkey, hn⟩ := List.nodup_cons.mp hn
      rw [sweep]
      rcases List.mem_cons.mp hj with rfl | hj
      · exact (sweep_of_notMem hkey).trans (Function.update_self _ _ _)
      · have hne : key j ≠ key i := fun heq => hkey (heq ▸ List.mem_map_of_mem hj)
        exact (sweep_of_mem hn hj).trans (by rw [Function.update_of_ne hne])

/-- With different keys the jobs report what each says of its cell before the sweep. -/
theorem sweep_reports : ∀ {js : List ι} {cells : κ → σ}, (js.map key).Nodup →
    (sweep key act js cells).1 = js.map fun j => (act j (cells (key j))).1
  | [], _, _ => rfl
  | i :: js, cells, hn => by
      obtain ⟨hkey, hn⟩ := List.nodup_cons.mp hn
      rw [sweep, List.map_cons]
      dsimp only
      rw [sweep_reports hn]
      congr 1
      refine List.map_congr_left fun j hj => ?_
      have hne : key j ≠ key i := fun heq => hkey (heq ▸ List.mem_map_of_mem hj)
      rw [Function.update_of_ne hne]

/-! ### Loops over a store -/

/-- The jobs one after the other on a store. -/
def loop (step : ι → τ → ο × τ) : List ι → τ → List ο × τ
  | [], t => ([], t)
  | j :: js, t =>
      let (o, t) := step j t
      let (os, t) := loop step js t
      (o :: os, t)

theorem length_loop (step : ι → τ → ο × τ) :
    ∀ (js : List ι) (t : τ), (loop step js t).1.length = js.length
  | [], _ => rfl
  | j :: js, t => congrArg Nat.succ (length_loop step js (step j t).2)

/-- Two stretches of a loop. -/
theorem loop_append (step : ι → τ → ο × τ) :
    ∀ (js ks : List ι) (t : τ), loop step (js ++ ks) t =
      ((loop step js t).1 ++ (loop step ks (loop step js t).2).1,
        (loop step ks (loop step js t).2).2)
  | [], _, _ => rfl
  | j :: js, ks, t => by
      rw [List.cons_append, loop]
      dsimp only
      rw [loop_append step js ks]
      rfl

/-- A loop whose steps read and write the cell of their key is a sweep. -/
theorem loop_eq_sweep {step : ι → τ → ο × τ} (cell : τ → κ → σ)
    (hout : ∀ j t, (step j t).1 = (act j (cell t (key j))).1)
    (hcell : ∀ j t, cell (step j t).2 =
      Function.update (cell t) (key j) (act j (cell t (key j))).2) :
    ∀ (js : List ι) (t : τ), (loop step js t).1 = (sweep key act js (cell t)).1 ∧
      cell (loop step js t).2 = (sweep key act js (cell t)).2
  | [], _ => ⟨rfl, rfl⟩
  | j :: js, t => by
      obtain ⟨ih1, ih2⟩ := loop_eq_sweep cell hout hcell js (step j t).2
      rw [hcell] at ih1 ih2
      constructor
      · rw [loop, sweep]
        dsimp only
        rw [ih1, hout]
      · rw [loop, sweep]
        exact ih2

end Sweep
