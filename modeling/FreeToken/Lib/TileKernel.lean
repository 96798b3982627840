import FreeToken.Lib.Accumulate
import FreeToken.Lib.Scatter
import FreeToken.Lib.Except
import Mathlib.Algebra.BigOperators.Ring.Finset
import Mathlib.Data.List.ProdSigma

/-!
# Tiled kernels

A grid of programs multiplies two matrices tile by tile: every program owns a tile of the
output, walks over the inner dimension in steps, loads a tile of each factor in each step, and
stores its accumulator. A masked lane is not loaded; a lane that is loaded from outside its
tensor is an error. When all loads are inside, every element of the output is stored once.
-/

namespace TileKernel

open Assign

/-- What a launch fails with. -/
inductive LaunchError where
  | compilation
  | outOfBounds
deriving DecidableEq, Repr

/-- The lengths that a range of lanes can have. -/
def powerOfTwo (n : Nat) : Bool := n = 2 ^ Nat.log2 n

/-- The blocks of `block` that cover `n`. -/
def cdiv (n block : Nat) : Nat := (n + block - 1) / block

/-- The lanes of a tile. -/
def tile (rows cols : Nat) : List (Nat × Nat) := (List.range rows).product (List.range cols)

/-- A load of lanes; `other` stands in the masked ones. -/
def load {ι β : Type} (lanes : List ι) (mask inside : ι → Bool) (value : ι → β) (other : β) :
    Except LaunchError (ι → β) :=
  if ∀ i ∈ lanes, mask i → inside i then .ok fun i => if mask i then value i else other
  else .error .outOfBounds

variable {K : Type}

/-- The loop over the inner dimension: the tiles of both factors, and `acc += dot(x, w)`. -/
def accumulate [Semiring K] (steps inner : Nat)
    (tiles : Nat → Except LaunchError ((Nat → Nat → K) × (Nat → Nat → K))) :
    Except LaunchError (Nat → Nat → K) :=
  (List.range steps).foldlM (fun acc step => do
    let (x, w) ← tiles step
    return fun r c => acc r c + ∑ i ∈ Finset.range inner, x r i * w i c) fun _ _ => 0

/-- The masked store of a tile: the elements of the output and their values. -/
def stores (m n blockM blockN : Nat) (pid : Nat × Nat) (acc : Nat → Nat → K) :
    List ((Nat × Nat) × K) :=
  ((tile blockM blockN).filter fun l =>
    pid.1 * blockM + l.1 < m && pid.2 * blockN + l.2 < n).map fun l =>
      ((pid.1 * blockM + l.1, pid.2 * blockN + l.2), acc l.1 l.2)

/-- The grid of programs. A kernel that does not compile is not launched. -/
def launch (compiles : Bool) (m n blockM blockN : Nat)
    (program : Nat × Nat → Except LaunchError (Nat → Nat → K)) :
    Except LaunchError (List ((Nat × Nat) × K)) :=
  if compiles then do
    let tiles ← (tile (cdiv m blockM) (cdiv n blockN)).mapM fun pid =>
      (program pid).map (stores m n blockM blockN pid)
    return tiles.flatten
  else .error .compilation

/-- Every element of an `m` by `n` output is stored once, with the value of `f`, and nothing
else is stored. -/
structure Computes (m n : Nat) (f : Nat → Nat → K) (out : List ((Nat × Nat) × K)) : Prop where
  once : ∀ i < m, ∀ j < n, (out.map Prod.fst).count (i, j) = 1
  inside : ∀ s ∈ out, s.1.1 < m ∧ s.1.2 < n ∧ s.2 = f s.1.1 s.1.2

/-! ### Lengths -/

theorem powerOfTwo_iff {n : Nat} : powerOfTwo n = true ↔ ∃ e, n = 2 ^ e := by
  rw [powerOfTwo, decide_eq_true_eq]
  constructor
  · exact fun h => ⟨_, h⟩
  · rintro ⟨e, rfl⟩
    rw [Nat.log2_two_pow]

/-- A power of two divided by a smaller one. -/
theorem powerOfTwo_div {n d e : Nat} (hn : powerOfTwo n = true) (hd : d = 2 ^ e) (hle : d ≤ n) :
    powerOfTwo (n / d) = true := by
  obtain ⟨a, rfl⟩ := powerOfTwo_iff.mp hn
  subst hd
  have hea : e ≤ a := (Nat.pow_le_pow_iff_right (by decide)).mp hle
  exact powerOfTwo_iff.mpr ⟨a - e, Nat.pow_div hea (by decide)⟩

theorem powerOfTwo_pos {n : Nat} (hn : powerOfTwo n = true) : 0 < n := by
  obtain ⟨a, rfl⟩ := powerOfTwo_iff.mp hn
  exact Nat.two_pow_pos a

/-! ### Loads -/

theorem load_ok {ι β : Type} {lanes : List ι} {mask inside : ι → Bool} {value : ι → β} {other : β}
    (h : ∀ i ∈ lanes, mask i = true → inside i = true) :
    load lanes mask inside value other = .ok fun i => if mask i then value i else other :=
  if_pos h

theorem load_error {ι β : Type} {lanes : List ι} {mask inside : ι → Bool} {value : ι → β}
    {other : β} {i : ι} (hi : i ∈ lanes) (hmask : mask i = true) (hinside : inside i = false) :
    load lanes mask inside value other = .error .outOfBounds :=
  if_neg fun h => by
    rw [h i hi hmask] at hinside
    cases hinside

theorem mem_tile {rows cols : Nat} {l : Nat × Nat} : l ∈ tile rows cols ↔ l.1 < rows ∧ l.2 < cols := by
  rw [tile]
  exact List.mem_product.trans (and_congr List.mem_range List.mem_range)

theorem nodup_tile (rows cols : Nat) : (tile rows cols).Nodup :=
  List.nodup_range.product List.nodup_range

theorem lt_cdiv_mul {n block : Nat} (hblock : 0 < block) {i : Nat} (h : i < n) :
    i / block < cdiv n block := by
  rw [cdiv, Nat.lt_iff_add_one_le, ← Nat.add_div_right i hblock]
  exact Nat.div_le_div_right (by omega)

theorem cdiv_mul {block : Nat} (hblock : 0 < block) (n : Nat) : cdiv (block * n) block = n := by
  rw [cdiv, Nat.add_sub_assoc hblock, Nat.mul_add_div hblock,
    Nat.div_eq_of_lt (Nat.sub_one_lt_of_lt hblock), Nat.add_zero]

/-- The lanes of the steps over whole blocks. -/
theorem lane_lt {block k step i : Nat} (h : block ∣ k) (hstep : step < cdiv k block) (hi : i < block) :
    step * block + i < k := by
  obtain ⟨n, rfl⟩ := h
  rw [cdiv_mul (Nat.zero_lt_of_lt hi)] at hstep
  have hle := Nat.mul_le_mul_right block (Nat.succ_le_of_lt hstep)
  rw [Nat.succ_mul, Nat.mul_comm n] at hle
  omega

/-- The block of a lane. -/
theorem lane_div {block step i : Nat} (hi : i < block) : (step * block + i) / block = step := by
  rw [Nat.mul_comm, Nat.mul_add_div (Nat.zero_lt_of_lt hi), Nat.div_eq_of_lt hi, Nat.add_zero]

theorem mul_lt_of_lt_cdiv {n block pid : Nat} (h : pid < cdiv n block) : pid * block < n := by
  rcases Nat.eq_zero_or_pos block with rfl | hblock
  · simp [cdiv] at h
  · have hle := (Nat.le_div_iff_mul_le hblock).mp (Nat.succ_le_of_lt h)
    rw [Nat.succ_mul] at hle
    omega

/-! ### The loop -/

theorem accumulate_ok [Semiring K] {steps inner : Nat}
    {tiles : Nat → Except LaunchError ((Nat → Nat → K) × (Nat → Nat → K))}
    {x w : Nat → Nat → Nat → K} (h : ∀ step < steps, tiles step = .ok (x step, w step)) :
    accumulate steps inner tiles = .ok fun r c =>
      ∑ step ∈ Finset.range steps, ∑ i ∈ Finset.range inner, x step r i * w step i c := by
  rw [accumulate]
  induction steps with
  | zero => rfl
  | succ steps ih =>
      rw [List.range_succ, List.foldlM_append, ih fun step hstep => h step (Nat.lt_succ_of_lt hstep)]
      simp only [bind, Except.bind, List.foldlM_cons, h steps (Nat.lt_succ_self steps)]
      simp only [Finset.sum_range_succ]
      rfl

theorem accumulate_error [Semiring K] {steps inner step : Nat} {e : LaunchError}
    {tiles : Nat → Except LaunchError ((Nat → Nat → K) × (Nat → Nat → K))} (hstep : step < steps)
    (h : tiles step = .error e) (acc : Nat → Nat → K) :
    accumulate steps inner tiles ≠ .ok acc := by
  have hloop : ∀ (l : List Nat) (acc₀ : Nat → Nat → K), step ∈ l → l.foldlM (fun acc step => do
      let (x, w) ← tiles step
      return fun r c => acc r c + ∑ i ∈ Finset.range inner, x r i * w i c) acc₀ ≠ .ok acc := by
    intro l
    induction l with
    | nil => intro _ hmem; cases hmem
    | cons s l ih =>
        intro acc₀ hmem hok
        rw [List.foldlM_cons] at hok
        cases hs : tiles s with
        | error e' =>
            rw [hs] at hok
            cases hok
        | ok xw =>
            rw [hs] at hok
            rcases List.mem_cons.mp hmem with rfl | hmem
            · rw [h] at hs
              cases hs
            · exact ih _ hmem hok
  exact hloop _ _ (List.mem_range.mpr hstep)

/-- The steps over `k`, where the lanes beyond it add nothing. -/
theorem sum_steps [AddCommMonoid K] {inner : Nat} (hinner : 0 < inner) (k : Nat) (f : Nat → K) :
    ∑ step ∈ Finset.range (cdiv k inner), ∑ i ∈ Finset.range inner,
        (if step * inner + i < k then f (step * inner + i) else 0) =
      ∑ j ∈ Finset.range k, f j := by
  rw [← Accumulate.sum_windows fun j => if j < k then f j else 0]
  have hsub : Finset.range k ⊆ Finset.range (cdiv k inner * inner) := by
    intro j hj
    have hlt := lt_cdiv_mul hinner (Finset.mem_range.mp hj)
    exact Finset.mem_range.mpr ((Nat.div_lt_iff_lt_mul hinner).mp hlt)
  rw [← Finset.sum_subset hsub fun j _ hj => if_neg fun hlt => hj (Finset.mem_range.mpr hlt)]
  apply Finset.sum_congr rfl
  intro j hj
  exact if_pos (Finset.mem_range.mp hj)

/-- The steps of a program whose lanes hold the terms of a sum over `k`. -/
theorem sum_tiles [AddCommMonoid K] {inner k : Nat} (hinner : 0 < inner) {g : Nat → Nat → K}
    {f : Nat → K} (h : ∀ step < cdiv k inner, ∀ i < inner,
      g step i = if step * inner + i < k then f (step * inner + i) else 0) :
    ∑ step ∈ Finset.range (cdiv k inner), ∑ i ∈ Finset.range inner, g step i =
      ∑ j ∈ Finset.range k, f j := by
  refine Eq.trans ?_ (sum_steps hinner k f)
  refine Finset.sum_congr rfl fun step hstep => Finset.sum_congr rfl fun i hi => ?_
  exact h step (Finset.mem_range.mp hstep) i (Finset.mem_range.mp hi)

/-- A tile that divides a block lies in one block. -/
theorem tile_div_block {block width pid c : Nat} (h : width ∣ block) (hc : c < width) :
    (pid * width + c) / block = pid * width / block := by
  obtain ⟨q, rfl⟩ := h
  rw [← Nat.div_div_eq_div_mul, ← Nat.div_div_eq_div_mul, lane_div hc,
    Nat.mul_div_cancel _ (Nat.zero_lt_of_lt hc)]

/-! ### The grid -/

section Grid

variable {m n blockM blockN : Nat}

theorem mem_stores {pid : Nat × Nat} {acc : Nat → Nat → K} {s : (Nat × Nat) × K} :
    s ∈ stores m n blockM blockN pid acc ↔ ∃ r < blockM, ∃ c < blockN,
      pid.1 * blockM + r < m ∧ pid.2 * blockN + c < n ∧
        s = ((pid.1 * blockM + r, pid.2 * blockN + c), acc r c) := by
  simp only [stores, List.mem_map, List.mem_filter, mem_tile, Bool.and_eq_true, decide_eq_true_eq]
  constructor
  · rintro ⟨⟨r, c⟩, ⟨⟨hr, hc⟩, hm, hn⟩, rfl⟩
    exact ⟨r, hr, c, hc, hm, hn, rfl⟩
  · rintro ⟨r, hr, c, hc, hm, hn, rfl⟩
    exact ⟨(r, c), ⟨⟨hr, hc⟩, hm, hn⟩, rfl⟩

/-- The element of a lane tells its program and the lane. -/
theorem lane_inj {block p p' r r' : Nat} (hr : r < block) (hr' : r' < block)
    (h : p * block + r = p' * block + r') : p = p' ∧ r = r' := by
  have hpos : 0 < block := Nat.zero_lt_of_lt hr
  have hdiv := congrArg (· / block) h
  have hmod := congrArg (· % block) h
  simp only [Nat.mul_comm _ block, Nat.mul_add_div hpos, Nat.mul_add_mod, Nat.div_eq_of_lt hr,
    Nat.div_eq_of_lt hr', Nat.mod_eq_of_lt hr, Nat.mod_eq_of_lt hr', Nat.add_zero] at hdiv hmod
  exact ⟨hdiv, hmod⟩

theorem nodup_stores (pid : Nat × Nat) (acc : Nat → Nat → K) :
    ((stores m n blockM blockN pid acc).map Prod.fst).Nodup := by
  rw [stores, List.map_map]
  refine List.Nodup.map_on ?_ ((nodup_tile _ _).filter _)
  rintro ⟨r, c⟩ h ⟨r', c'⟩ h' heq
  obtain ⟨hr, hc⟩ := mem_tile.mp (List.mem_filter.mp h).1
  obtain ⟨hr', hc'⟩ := mem_tile.mp (List.mem_filter.mp h').1
  obtain ⟨heq₁, heq₂⟩ := Prod.mk.inj heq
  exact Prod.ext (lane_inj hr hr' heq₁).2 (lane_inj hc hc' heq₂).2

/-- The programs of a grid own tiles of their own, which cover the output. -/
theorem computes_grid (hM : 0 < blockM) (hN : 0 < blockN) {f : Nat → Nat → K}
    {acc : Nat × Nat → Nat → Nat → K}
    (hacc : ∀ pid r c, r < blockM → c < blockN → pid.1 * blockM + r < m →
      pid.2 * blockN + c < n → acc pid r c = f (pid.1 * blockM + r) (pid.2 * blockN + c)) :
    Computes m n f ((tile (cdiv m blockM) (cdiv n blockN)).flatMap fun pid =>
      stores m n blockM blockN pid (acc pid)) := by
  constructor
  · intro i hi j hj
    apply List.count_eq_one_of_mem
    · rw [List.map_flatMap, List.nodup_flatMap]
      refine ⟨fun pid _ => nodup_stores pid (acc pid), ?_⟩
      apply (nodup_tile _ _).pairwise_of_forall_ne
      intro pid _ pid' _ hne
      refine List.disjoint_left.mpr ?_
      intro key hkey hkey'
      apply hne
      obtain ⟨s, hs, rfl⟩ := List.mem_map.mp hkey
      obtain ⟨s', hs', heq⟩ := List.mem_map.mp hkey'
      obtain ⟨r, hr, c, hc, -, -, rfl⟩ := mem_stores.mp hs
      obtain ⟨r', hr', c', hc', -, -, rfl⟩ := mem_stores.mp hs'
      obtain ⟨heq₁, heq₂⟩ := Prod.mk.inj heq
      exact Prod.ext (lane_inj hr' hr heq₁).1.symm (lane_inj hc' hc heq₂).1.symm
    · -- the program that owns the element, and its lane
      have hrow := Nat.div_add_mod' i blockM
      have hcol := Nat.div_add_mod' j blockN
      refine List.mem_map.mpr ⟨((i, j), acc (i / blockM, j / blockN) (i % blockM) (j % blockN)), ?_, rfl⟩
      refine List.mem_flatMap.mpr ⟨(i / blockM, j / blockN),
        mem_tile.mpr ⟨lt_cdiv_mul hM hi, lt_cdiv_mul hN hj⟩, mem_stores.mpr ?_⟩
      refine ⟨i % blockM, Nat.mod_lt _ hM, j % blockN, Nat.mod_lt _ hN, ?_, ?_, ?_⟩
      · rwa [hrow]
      · rwa [hcol]
      · rw [hrow, hcol]
  · intro s hs
    obtain ⟨pid, -, hs⟩ := List.mem_flatMap.mp hs
    obtain ⟨r, hr, c, hc, hm, hn, rfl⟩ := mem_stores.mp hs
    exact ⟨hm, hn, hacc pid r c hr hc hm hn⟩

/-- A launch whose programs all come through. -/
theorem launch_computes (hM : 0 < blockM) (hN : 0 < blockN)
    {program : Nat × Nat → Except LaunchError (Nat → Nat → K)} {f : Nat → Nat → K}
    {acc : Nat × Nat → Nat → Nat → K}
    (hprogram : ∀ pid ∈ tile (cdiv m blockM) (cdiv n blockN), program pid = .ok (acc pid))
    (hacc : ∀ pid r c, r < blockM → c < blockN → pid.1 * blockM + r < m →
      pid.2 * blockN + c < n → acc pid r c = f (pid.1 * blockM + r) (pid.2 * blockN + c)) :
    ∃ out, launch true m n blockM blockN program = .ok out ∧ Computes m n f out := by
  have hmap : (tile (cdiv m blockM) (cdiv n blockN)).mapM (fun pid =>
      (program pid).map (stores m n blockM blockN pid)) =
        .ok ((tile (cdiv m blockM) (cdiv n blockN)).map fun pid =>
          stores m n blockM blockN pid (acc pid)) := by
    rw [FreeToken.mapM_eq_ok, List.forall₂_map_right_iff, List.forall₂_same]
    intro pid hpid
    rw [hprogram pid hpid]
    rfl
  refine ⟨_, ?_, computes_grid hM hN hacc⟩
  simp only [launch, if_true, hmap, bind, Except.bind]
  rfl

/-- A launch of loops whose tiles are all loaded, and whose sums are the values of `f`. -/
theorem launch_accumulate [Semiring K] (hM : 0 < blockM) (hN : 0 < blockN) {steps inner : Nat}
    {tiles : Nat × Nat → Nat → Except LaunchError ((Nat → Nat → K) × (Nat → Nat → K))}
    {x w : Nat × Nat → Nat → Nat → Nat → K} {f : Nat → Nat → K}
    (htiles : ∀ pid ∈ tile (cdiv m blockM) (cdiv n blockN), ∀ step < steps,
      tiles pid step = .ok (x pid step, w pid step))
    (hsum : ∀ pid r c, r < blockM → c < blockN → pid.1 * blockM + r < m →
      pid.2 * blockN + c < n →
        ∑ step ∈ Finset.range steps, ∑ i ∈ Finset.range inner, x pid step r i * w pid step i c =
          f (pid.1 * blockM + r) (pid.2 * blockN + c)) :
    ∃ out, launch true m n blockM blockN (fun pid => accumulate steps inner (tiles pid)) = .ok out ∧
      Computes m n f out :=
  launch_computes hM hN (fun pid hpid => accumulate_ok (htiles pid hpid)) hsum

theorem launch_compiles {compiles : Bool} {program : Nat × Nat → Except LaunchError (Nat → Nat → K)}
    {out : List ((Nat × Nat) × K)} (h : launch compiles m n blockM blockN program = .ok out) :
    compiles = true := by
  cases compiles with
  | false => cases h
  | true => rfl

/-- A program that does not come through. -/
theorem launch_ne_ok {compiles : Bool} {pid : Nat × Nat}
    {program : Nat × Nat → Except LaunchError (Nat → Nat → K)}
    (hpid : pid ∈ tile (cdiv m blockM) (cdiv n blockN)) (h : ∀ acc, program pid ≠ .ok acc)
    (out : List ((Nat × Nat) × K)) : launch compiles m n blockM blockN program ≠ .ok out := by
  intro hout
  cases compiles with
  | false => cases hout
  | true =>
      obtain ⟨tiles, htiles, -⟩ := FreeToken.bind_eq_ok.mp hout
      obtain ⟨out', -, hpid'⟩ := FreeToken.forall₂_exists_of_mem (FreeToken.mapM_eq_ok.mp htiles) hpid
      obtain ⟨acc, hacc, -⟩ := FreeToken.map_eq_ok.mp hpid'
      exact h acc hacc

/-- What a launch leaves of the memory in the elements of its output. -/
theorem Computes.written {f : Nat → Nat → K} {out : List ((Nat × Nat) × K)}
    (h : Computes m n f out) (junk : Nat × Nat → K) {i j : Nat} (hi : i < m) (hj : j < n) :
    written junk out (i, j) = f i j := by
  refine written_eq ?_ (List.count_pos_iff.mp ?_) junk
  · rintro ⟨key, v⟩ hs rfl
    exact (h.inside _ hs).2.2
  · rw [h.once i hi j hj]
    exact Nat.one_pos

end Grid

end TileKernel
