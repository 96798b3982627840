import FreeToken.Kernel.FusedLinearSpec

/-!
# Fused GPTQ against dequantized

The kernel of `fused_gptq_linear` takes whole groups: it masks the rows and the columns of its
tiles, but not the inner dimension. Where a last group is not whole, it loads packed rows that are
not there.
-/

namespace FreeToken

open TileKernel

variable {α K : Type} [Field K] {S : Stored α K} {blockM blockN m n : Nat}
  {bias : Option (Nat → K)} {junk : Nat × Nat → K} {x : Tensor K} {qweight qzeros scales : Tensor α}
  {kPacked nPacked groups zeroGroups gs : Nat}

/-- What the wrapper checks, of a group size that is not negative. -/
structure GptqAccepts (x : Tensor K) (qweight qzeros scales : Tensor α)
    (m n kPacked nPacked groups zeroGroups : Nat) : Prop where
  x_shape : x.shape = [m, kPacked * 8]
  qweight_shape : qweight.shape = [kPacked, n]
  qzeros_shape : qzeros.shape = [zeroGroups, nPacked]
  scales_shape : scales.shape = [groups, n]
  packs : nPacked * 8 = n

/-- The product of `x` and the matrix. -/
def matmul (x w : Tensor K) (k : Nat) (i j : Nat) : K :=
  ∑ l ∈ Finset.range k, x.get [i, l] * w.get [l, j]

/-- The groups that the tensors have, and what is loaded of the last one. -/
structure GroupsFit (m n k gs groups zeroGroups : Nat) : Prop where
  scales_le : cdiv k gs ≤ groups
  qzeros_le : cdiv k gs ≤ zeroGroups
  whole : m = 0 ∨ n = 0 ∨ gs ∣ k

/-! ### Sequential groups -/

theorem sequentialGroups_get (k gs i : Nat) :
    (sequentialGroups k gs).get [i] = ((i / gs : Nat) : Int) := by
  change (i : Int).fdiv gs = _
  rw [Int.fdiv_eq_ediv_of_nonneg _ (Int.natCast_nonneg gs), Int.natCast_ediv]

theorem wrapIndex_natCast {n i : Nat} : (wrapIndex n (i : Int)).isSome ↔ i < n := by
  constructor
  · intro h
    obtain ⟨g, hg⟩ := Option.isSome_iff_exists.mp h
    rw [wrapIndex] at hg
    split_ifs at hg with hin hneg
    · exact Int.ofNat_lt.mp hin.2
    · omega
  · intro h
    rw [wrapIndex, if_pos ⟨Int.natCast_nonneg i, Int.ofNat_lt.mpr h⟩]
    rfl

theorem wrapIndex_of_lt {n i : Nat} (h : i < n) : wrapIndex n (i : Int) = some i := by
  rw [wrapIndex, if_pos ⟨Int.natCast_nonneg i, Int.ofNat_lt.mpr h⟩, Int.toNat_natCast]

/-- The groups of all columns are in a tensor when it has as many groups as there are steps. -/
theorem groups_cover (hgs : 0 < gs) {k : Nat} :
    (∀ i < k, i / gs < groups) ↔ cdiv k gs ≤ groups := by
  constructor
  · intro h
    rcases Nat.eq_zero_or_pos k with rfl | hk
    · rw [cdiv, Nat.zero_add, Nat.div_eq_of_lt (Nat.sub_one_lt_of_lt hgs)]
      exact Nat.zero_le _
    · have hlast := h (k - 1) (Nat.sub_one_lt_of_lt hk)
      rw [cdiv, show k + gs - 1 = k - 1 + gs by omega, Nat.add_div_right _ hgs]
      exact hlast
  · exact fun h i hi => Nat.lt_of_lt_of_le (lt_cdiv_mul hgs hi) h

/-- The matrix is there when the tensors have the groups. -/
theorem sequentialGroups_eq_ok
    (h : GptqAccepts x qweight qzeros scales m n kPacked nPacked groups zeroGroups) (hgs : 0 < gs) :
    (∃ w, dequantizeGptqInt4SequentialGroups S.elements qweight qzeros scales gs = .ok w) ↔
      cdiv (kPacked * 8) gs ≤ groups ∧ cdiv (kPacked * 8) gs ≤ zeroGroups := by
  have hsize : qweight.size 0 = kPacked := by
    rw [Tensor.size, h.qweight_shape]
    rfl
  rw [dequantizeGptqInt4SequentialGroups, if_neg (by omega), hsize, ← groups_cover hgs,
    ← groups_cover hgs]
  constructor
  · rintro ⟨w, hw⟩
    obtain ⟨kPacked', nPacked', zeroGroups', groups', hs, -⟩ := dequantizeGptqInt4_eq_ok.mp hw
    cases h.qweight_shape.symm.trans hs.qweight_shape
    cases h.qzeros_shape.symm.trans hs.qzeros_shape
    cases h.scales_shape.symm.trans hs.scales_shape
    have hrange := hs.inRange
    simp only [sequentialGroups_get, wrapIndex_natCast] at hrange
    exact ⟨fun i hi => (hrange i hi).1, fun i hi => (hrange i hi).2⟩
  · rintro ⟨hgroups, hzeros⟩
    refine ⟨_, dequantizeGptqInt4_eq_ok.mpr ⟨kPacked, nPacked, zeroGroups, groups,
      ⟨?_, h.qzeros_shape, ?_, rfl, ?_⟩, rfl⟩⟩
    · rw [h.qweight_shape, h.packs]
    · rw [h.scales_shape, h.packs]
    · intro i hi
      rw [sequentialGroups_get, wrapIndex_natCast, wrapIndex_natCast]
      exact ⟨hgroups i hi, hzeros i hi⟩

/-- An element of the matrix, with the zero and the scale of its group. -/
theorem sequentialGroups_value
    (h : GptqAccepts x qweight qzeros scales m n kPacked nPacked groups zeroGroups) {w : Tensor K}
    (hw : dequantizeGptqInt4SequentialGroups S.elements qweight qzeros scales gs = .ok w) {l : Nat}
    (hgroup : l / gs < groups) (hzero : l / gs < zeroGroups) (j : Nat) :
    w.get [l, j] = S.float (scales.get [l / gs, j]) *
      ((nibble (S.int32 (qweight.get [l / 8, j])) (l % 8) : K) -
        ((nibble (S.int32 (qzeros.get [l / gs, j / 8])) (j % 8) : K) + 1)) := by
  rw [dequantizeGptqInt4SequentialGroups] at hw
  split at hw
  · cases hw
  obtain ⟨kPacked', nPacked', zeroGroups', groups', hs, rfl⟩ := dequantizeGptqInt4_eq_ok.mp hw
  change gptqValue S.elements qweight qzeros scales (sequentialGroups (qweight.size 0 * 8) gs) l j = _
  have hgroups : scales.size 0 = groups := by rw [Tensor.size, h.scales_shape]; rfl
  have hzeros : qzeros.size 0 = zeroGroups := by rw [Tensor.size, h.qzeros_shape]; rfl
  simp only [gptqValue, sequentialGroups_get, hgroups, hzeros, wrapIndex_of_lt hgroup,
    wrapIndex_of_lt hzero, Option.getD_some]
  change _ * (((nibble _ _ : Nat) : Int) - (((nibble _ _ + 1 : Nat) : Int) : K)) = _
  push_cast
  rfl

/-! ### The kernel -/

theorem gptqKernel_computes
    (h : GptqAccepts x qweight qzeros scales m n kPacked nPacked groups zeroGroups)
    (hM : 0 < blockM) (hN : 0 < blockN) (hgs : 0 < gs) (hwords : 8 ∣ gs)
    (hfit : GroupsFit m n (kPacked * 8) gs groups zeroGroups) {w : Tensor K}
    (hw : dequantizeGptqInt4SequentialGroups S.elements qweight qzeros scales gs = .ok w)
    (hcompiles : compiles blockM blockN gs [gs / 8, 8] = true) :
    ∃ out, fusedGptqKernel S blockM blockN x qweight qzeros scales m n (kPacked * 8) gs = .ok out ∧
      Computes m n (matmul x w (kPacked * 8)) out := by
  have hsteps : ∀ {g i : Nat}, m ≠ 0 → n ≠ 0 → g < cdiv (kPacked * 8) gs → i < gs →
      g * gs + i < kPacked * 8 := by
    intro g i hm hn hg hi
    exact lane_lt ((hfit.whole.resolve_left hm).resolve_left hn) hg hi
  rw [fusedGptqKernel, hcompiles]
  refine launch_accumulate hM hN
    (x := fun pid g r i => if pid.1 * blockM + r < m then
      x.get [pid.1 * blockM + r, g * gs + i] else 0)
    (w := fun pid g i c =>
      ((nibble (if pid.2 * blockN + c < n then
          S.int32 (qweight.get [g * (gs / 8) + i / 8, pid.2 * blockN + c]) else 0) (i % 8) : K) -
        ((nibble (if pid.2 * blockN + c < n then
          S.int32 (qzeros.get [g, (pid.2 * blockN + c) / 8]) else 0) ((pid.2 * blockN + c) % 8) : K) + 1)) *
        (if pid.2 * blockN + c < n then S.float (scales.get [g, pid.2 * blockN + c]) else 0)) ?_ ?_
  · intro pid hpid g hg
    have hm : m ≠ 0 := Nat.ne_zero_of_lt (mul_lt_of_lt_cdiv (mem_tile.mp hpid).1)
    have hn : n ≠ 0 := Nat.ne_zero_of_lt (mul_lt_of_lt_cdiv (mem_tile.mp hpid).2)
    have hword : ∀ r < gs / 8, g * (gs / 8) + r < kPacked := by
      intro r hr
      have hlane := hsteps hm hn hg (show r * 8 < gs by omega)
      have hpacked := (Nat.div_lt_iff_lt_mul (by decide)).mpr hlane
      rwa [(group_words hwords g _).1, Nat.mul_div_cancel _ (by decide)] at hpacked
    have hload : loadAt qweight (tile (gs / 8) blockN) (fun l => pid.2 * blockN + l.2 < n)
        (fun l => [g * (gs / 8) + l.1, pid.2 * blockN + l.2]) S.int32 0 = .ok _ :=
      loadAt_ok fun _ hl hmask => (inRange_pair h.qweight_shape _ _).mpr
        ⟨hword _ (mem_tile.mp hl).1, of_decide_eq_true hmask⟩
    have hzero : loadAt qzeros (List.range blockN) (fun c => pid.2 * blockN + c < n)
        (fun c => [g, (pid.2 * blockN + c) / 8]) S.int32 0 = .ok _ :=
      loadAt_ok fun _ _ hmask => (inRange_pair h.qzeros_shape _ _).mpr
        ⟨Nat.lt_of_lt_of_le hg hfit.qzeros_le, Nat.div_lt_of_lt_mul
          (Nat.lt_of_lt_of_eq (of_decide_eq_true hmask) (h.packs.symm.trans (Nat.mul_comm _ _)))⟩
    have hscale : loadAt scales (List.range blockN) (fun c => pid.2 * blockN + c < n)
        (fun c => [g, pid.2 * blockN + c]) S.float 0 = .ok _ :=
      loadAt_ok fun _ _ hmask => (inRange_pair h.scales_shape _ _).mpr
        ⟨Nat.lt_of_lt_of_le hg hfit.scales_le, of_decide_eq_true hmask⟩
    have hx : loadX blockM x m gs pid g (fun _ => true) = .ok _ :=
      loadX_ok h.x_shape fun _ hi _ => hsteps hm hn hg hi
    simp only [gptqTiles, hload, hzero, hscale, hx, bind, Except.bind, Bool.and_true, decide_eq_true_eq]
    rfl
  · intro pid r c hr hc hm hn
    apply sum_tiles hgs
    intro g hg i hi
    have hlane := hsteps (Nat.ne_zero_of_lt hm) (Nat.ne_zero_of_lt hn) hg hi
    obtain ⟨hdiv, hmod⟩ := group_words hwords g i
    simp only [hm, hn, hlane, if_true]
    refine congrArg (_ * ·) ?_
    rw [sequentialGroups_value h hw, lane_div hi, hdiv, hmod]
    · exact mul_comm _ _
    · exact lane_div hi ▸ Nat.lt_of_lt_of_le hg hfit.scales_le
    · exact lane_div hi ▸ Nat.lt_of_lt_of_le hg hfit.qzeros_le

/-- The last group of a kernel that runs is whole. -/
theorem gptqKernel_whole
    (h : GptqAccepts x qweight qzeros scales m n kPacked nPacked groups zeroGroups)
    (hM : 0 < blockM) (hN : 0 < blockN) (hgs : 0 < gs) (hwords : 8 ∣ gs) {out}
    (hout : fusedGptqKernel S blockM blockN x qweight qzeros scales m n (kPacked * 8) gs = .ok out) :
    m = 0 ∨ n = 0 ∨ gs ∣ kPacked * 8 := by
  by_contra hnot
  obtain ⟨hm, hn, hdvd⟩ : m ≠ 0 ∧ n ≠ 0 ∧ ¬ gs ∣ kPacked * 8 := by
    simpa only [not_or] using hnot
  obtain ⟨q, rfl⟩ := hwords
  have hq : 0 < q := Nat.pos_of_mul_pos_left hgs
  -- the group that is not whole, and its first row that is not there
  have hrest : kPacked / q * q < kPacked := by
    refine Nat.lt_of_le_of_ne (Nat.div_mul_le_self _ _) fun heq => hdvd ?_
    rw [← heq]
    exact ⟨kPacked / q, by ring⟩
  have hstep : kPacked / q < cdiv (kPacked * 8) (8 * q) := by
    have hlt := lt_cdiv_mul hgs (show kPacked / q * (8 * q) < kPacked * 8 by
      rw [Nat.mul_left_comm]
      omega)
    rwa [Nat.mul_div_cancel _ hgs] at hlt
  have hrow := Nat.div_add_mod' kPacked q
  have hpid : ((0, 0) : Nat × Nat) ∈ tile (cdiv m blockM) (cdiv n blockN) :=
    mem_tile.mpr ⟨Nat.zero_lt_of_lt (lt_cdiv_mul hM (Nat.pos_of_ne_zero hm)),
      Nat.zero_lt_of_lt (lt_cdiv_mul hN (Nat.pos_of_ne_zero hn))⟩
  refine launch_ne_ok hpid (fun acc => accumulate_error (e := .outOfBounds) hstep ?_ acc) out hout
  have hload : loadAt qweight (tile (8 * q / 8) blockN) (fun l => 0 * blockN + l.2 < n)
      (fun l => [kPacked / q * (8 * q / 8) + l.1, 0 * blockN + l.2]) S.int32 0 = .error .outOfBounds := by
    rw [Nat.mul_div_cancel_left q (by decide)]
    refine load_error (i := (kPacked % q, 0)) (mem_tile.mpr ⟨Nat.mod_lt _ hq, hN⟩) ?_ ?_
    · rw [Nat.zero_mul]
      exact decide_eq_true (Nat.pos_of_ne_zero hn)
    · apply decide_eq_false
      rw [inRange_pair h.qweight_shape, hrow]
      exact fun hin => Nat.lt_irrefl _ hin.1
  simp only [gptqTiles, hload, bind, Except.bind]

theorem fusedGptqLinear_checked {groupSize : Int}
    (h : Checked (fusedGptqLinear S blockM blockN groupSize bias junk x qweight qzeros scales)) :
    ∃ m n kPacked nPacked groups zeroGroups,
      GptqAccepts x qweight qzeros scales m n kPacked nPacked groups zeroGroups ∧
      groupSize % 8 = 0 ∧ 0 < blockM ∧ 0 < blockN ∧
      fusedGptqLinear S blockM blockN groupSize bias junk x qweight qzeros scales =
        fusedResult m n bias junk (fusedGptqKernel S blockM blockN x qweight qzeros scales m n
          (kPacked * 8) groupSize.toNat) := by
  generalize hr : fusedGptqLinear S blockM blockN groupSize bias junk x qweight qzeros scales = r at h ⊢
  obtain ⟨hvalue, hzero⟩ := h
  rw [fusedGptqLinear] at hr
  split at hr
  · exact absurd hr.symm hvalue
  next hwords =>
    split at hr
    · next m k kPacked n zeroGroups nPacked groups cols hx hqweight hqzeros hscales =>
        split_ifs at hr with hk hcols hpos
        · exact absurd hr.symm hvalue
        · exact absurd hr.symm hvalue
        · exact absurd hr.symm hzero
        · cases not_not.mp hk
          obtain ⟨rfl, hpacks⟩ := (not_or.mp hcols).imp not_not.mp not_not.mp
          obtain ⟨-, hM, hN⟩ := (not_or.mp hpos).imp id not_or.mp
          exact ⟨m, cols, kPacked, nPacked, groups, zeroGroups,
            ⟨hx, hqweight, hqzeros, hscales, hpacks⟩, not_not.mp hwords, Nat.pos_of_ne_zero hM,
            Nat.pos_of_ne_zero hN, hr.symm⟩
    · exact absurd hr.symm hvalue

/-- The tiles of a group size that is not positive do not fit. -/
theorem TilesFit.size_pos {groupSize : Int} (h : TilesFit blockM blockN groupSize.toNat)
    (hwords : groupSize % 8 = 0) :
    (groupSize.toNat : Int) = groupSize ∧ 0 < groupSize.toNat ∧ 8 ∣ groupSize.toNat := by
  have hfloor := h.floor
  omega

/-- The fused linear multiplies with the dequantized matrix just when its tiles fit, the scales and
the zeros have every group, and no program loads a group that is not whole. -/
theorem fusedGptqLinear_iff (S : Stored α K) (blockM blockN : Nat) (groupSize : Int)
    (bias : Option (Nat → K)) (junk : Nat × Nat → K) (x : Tensor K) (qweight qzeros scales : Tensor α)
    (hchecked : Checked (fusedGptqLinear S blockM blockN groupSize bias junk x qweight qzeros scales)) :
    (∃ w, dequantizeGptqInt4SequentialGroups S.elements qweight qzeros scales groupSize = .ok w ∧
      FusedProduct (x.size 0) (qweight.size 1) (matmul x w (x.size 1)) bias
        (fusedGptqKernel S blockM blockN x qweight qzeros scales (x.size 0) (qweight.size 1) (x.size 1)
          groupSize.toNat)
        (fusedGptqLinear S blockM blockN groupSize bias junk x qweight qzeros scales)) ↔
      TilesFit blockM blockN groupSize.toNat ∧ GroupsFit (x.size 0) (qweight.size 1) (x.size 1)
        groupSize.toNat (scales.size 0) (qzeros.size 0) := by
  obtain ⟨m, n, kPacked, nPacked, groups, zeroGroups, h, hwords, hM, hN, hlinear⟩ :=
    fusedGptqLinear_checked hchecked
  have hm : x.size 0 = m := by rw [Tensor.size, h.x_shape]; rfl
  have hk : x.size 1 = kPacked * 8 := by rw [Tensor.size, h.x_shape]; rfl
  have hn : qweight.size 1 = n := by rw [Tensor.size, h.qweight_shape]; rfl
  have hgroups : scales.size 0 = groups := by rw [Tensor.size, h.scales_shape]; rfl
  have hzeros : qzeros.size 0 = zeroGroups := by rw [Tensor.size, h.qzeros_shape]; rfl
  rw [hm, hk, hn, hgroups, hzeros, hlinear]
  constructor
  · rintro ⟨w, hw, hproduct⟩
    obtain ⟨out, hout, -⟩ := hproduct.launched_ok
    have hfit := (compiles_iff.mp (launch_compiles hout)).1
    obtain ⟨hcast, hpos, hdvd⟩ := hfit.size_pos hwords
    obtain ⟨hscalesLe, hzerosLe⟩ := (sequentialGroups_eq_ok h hpos).mp ⟨w, hcast.symm ▸ hw⟩
    exact ⟨hfit, hscalesLe, hzerosLe, gptqKernel_whole h hM hN hpos hdvd hout⟩
  · rintro ⟨hfit, hgroupsFit⟩
    obtain ⟨hcast, hpos, hdvd⟩ := hfit.size_pos hwords
    obtain ⟨w, hw⟩ := (sequentialGroups_eq_ok h hpos).mpr ⟨hgroupsFit.scales_le, hgroupsFit.qzeros_le⟩
    have hcompiles : compiles blockM blockN groupSize.toNat [groupSize.toNat / 8, 8] = true := by
      have hpacked : powerOfTwo (groupSize.toNat / 8) = true :=
        powerOfTwo_div (e := 3) hfit.inner_pow rfl hfit.floor
      refine compiles_iff.mpr ⟨hfit, ?_⟩
      simpa using ⟨hpacked, powerOfTwo_iff.mpr ⟨3, rfl⟩⟩
    exact ⟨w, hcast ▸ hw,
      fusedProduct_of_launched (gptqKernel_computes h hM hN hpos hdvd hgroupsFit hw hcompiles)⟩

/-- The parts of a layer of eight columns, in groups of 16. -/
def eightColumns (kPacked groups : Nat) : Tensor ℚ × Tensor ℤ × Tensor ℤ × Tensor ℤ :=
  (⟨[1, kPacked * 8], fun _ => 1⟩, ⟨[kPacked, 8], fun _ => 1⟩, ⟨[groups, 1], fun _ => 1⟩,
    ⟨[groups, 8], fun _ => 1⟩)

/-- The fused linear of `eightColumns`. -/
def eightColumnsLinear (kPacked groups : Nat) : Except FusedError (Tensor ℚ) :=
  let (x, qweight, qzeros, scales) := eightColumns kPacked groups
  fusedGptqLinear intStored 8 16 16 none (fun _ => 0) x qweight qzeros scales

/-- The launch of `eightColumns`. -/
def eightColumnsKernel (kPacked groups : Nat) : Except LaunchError (List ((Nat × Nat) × ℚ)) :=
  let (x, qweight, qzeros, scales) := eightColumns kPacked groups
  fusedGptqKernel intStored 8 16 x qweight qzeros scales 1 8 (kPacked * 8) 16

theorem eightColumns_checked (kPacked groups : Nat) : Checked (eightColumnsLinear kPacked groups) := by
  have hlinear : eightColumnsLinear kPacked groups =
      fusedResult 1 8 none (fun _ => 0) (eightColumnsKernel kPacked groups) := by
    simp [eightColumnsLinear, eightColumnsKernel, eightColumns, fusedGptqLinear]
  rw [hlinear]
  exact checked_fusedResult

/-- One whole group. -/
theorem oneGroup_fused : ∃ w, dequantizeGptqInt4SequentialGroups intStored.elements
      ⟨[2, 8], fun _ => 1⟩ ⟨[1, 1], fun _ => 1⟩ ⟨[1, 8], fun _ => 1⟩ 16 = .ok w ∧
    FusedProduct 1 8 (matmul ⟨[1, 16], fun _ => 1⟩ w 16) none (eightColumnsKernel 2 1)
      (eightColumnsLinear 2 1) := by
  refine (fusedGptqLinear_iff intStored 8 16 16 none (fun _ => 0) ⟨[1, 16], fun _ => 1⟩
    ⟨[2, 8], fun _ => 1⟩ ⟨[1, 1], fun _ => 1⟩ ⟨[1, 8], fun _ => 1⟩ (eightColumns_checked 2 1)).mpr ?_
  exact ⟨⟨by decide, by decide, by decide, by decide, by decide, by decide, by decide⟩,
    by decide, by decide, by decide⟩

/-- A group and a half: the second half of the last group is loaded, and is not there. -/
theorem groupAndHalf_not_fused : Checked (eightColumnsLinear 3 2) ∧
    (∃ w, dequantizeGptqInt4SequentialGroups intStored.elements ⟨[3, 8], fun _ => 1⟩
      ⟨[2, 1], fun _ => 1⟩ ⟨[2, 8], fun _ => 1⟩ 16 = .ok w) ∧
    ∀ product, ¬ FusedProduct 1 8 product none (eightColumnsKernel 3 2) (eightColumnsLinear 3 2) := by
  have h : GptqAccepts (⟨[1, 24], fun _ => 1⟩ : Tensor ℚ) (⟨[3, 8], fun _ => 1⟩ : Tensor ℤ)
      (⟨[2, 1], fun _ => 1⟩ : Tensor ℤ) (⟨[2, 8], fun _ => 1⟩ : Tensor ℤ) 1 8 3 1 2 2 :=
    ⟨rfl, rfl, rfl, rfl, rfl⟩
  refine ⟨eightColumns_checked 3 2, ?_, ?_⟩
  · exact (sequentialGroups_eq_ok h (show 0 < 16 by decide)).mpr ⟨by decide, by decide⟩
  · intro product hproduct
    obtain ⟨out, hout, -⟩ := hproduct.launched_ok
    have hwhole := gptqKernel_whole h (by decide) (by decide) (by decide) ⟨2, rfl⟩ hout
    exact absurd hwhole (by decide)

end FreeToken
