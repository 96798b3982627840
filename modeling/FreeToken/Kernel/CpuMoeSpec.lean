import FreeToken.Kernel.CpuMoe
import FreeToken.Lib.Accumulate
import FreeToken.Moe.HybridExperts

/-!
# The fast CPU kernel against the reference

Every loop of the kernel is a step that adds: an expert adds `expertTerm`, a range of experts
the sum over the range. The vector rows add what the scalar rows do, the ranges of the workers
are the experts one after the other, and the terms of two complementary masks add up to those
of no mask.
-/

namespace FreeToken.CpuMoe

open Accumulate ScatterAdd

variable {K : Type} [Semiring K] {silu : K → K} {a : CoreArgs K}

/-! ### Rows -/

theorem dotScalar_eq (a b : Nat → K) (n : Nat) :
    dotScalar a b n = ∑ i ∈ Finset.range n, a i * b i := by
  rw [← sum_range, dotScalar, List.sum_eq_foldl, List.foldl_map]

theorem avx512Lanes_eq (a b : Nat → K) (q l : Nat) :
    avx512Lanes a b q l = ∑ k ∈ Finset.range q, a (k * 16 + l) * b (k * 16 + l) := by
  induction q with
  | zero => rfl
  | succ q ih =>
      rw [avx512Lanes, List.range_succ, List.foldl_concat, Finset.sum_range_succ, add_comm, ← ih]
      rfl

/-- The lanes and the tail add up to the whole product. -/
theorem dotAvx512_eq : (dotAvx512 : (Nat → K) → (Nat → K) → Nat → K) = dotScalar := by
  funext a b n
  have htail : Adds (fun sum : K => (List.range (n % 16)).foldl
      (fun sum i => sum + a (n / 16 * 16 + i) * b (n / 16 * 16 + i)) sum) _ :=
    Adds.foldl fun i _ sum => rfl
  have hlanes : (List.range 16).foldl (fun sum l => sum + avx512Lanes a b (n / 16) l) 0 =
      ∑ l ∈ Finset.range 16, avx512Lanes a b (n / 16) l := by
    rw [← sum_range, List.sum_eq_foldl, List.foldl_map]
  have hn : n = n / 16 * 16 + n % 16 := by omega
  calc dotAvx512 a b n
      = (∑ l ∈ Finset.range 16, avx512Lanes a b (n / 16) l) +
          ∑ i ∈ Finset.range (n % 16), a (n / 16 * 16 + i) * b (n / 16 * 16 + i) := by
        rw [← hlanes, ← sum_range]
        exact htail _
    _ = ∑ i ∈ Finset.range (n / 16 * 16 + n % 16), a i * b i := by
        rw [sum_blocks fun i => a i * b i]
        simp only [avx512Lanes_eq]
    _ = dotScalar a b n := by rw [← hn, dotScalar_eq]

theorem selectRowCompute_eq (host : Host) (silu : K → K) (forceScalar : Bool) :
    selectRowCompute host silu forceScalar = rowComputeScalar silu := by
  rw [selectRowCompute, rowComputeAvx512, dotAvx512_eq]
  exact ite_self _

/-- What a row adds. -/
def rowTerm (silu : K → K) (xRow gateW upW downE : Nat → K) (H I : Nat) (w : K) (outRow : Nat) :
    Nat → K :=
  ((List.range H).map fun o => Pi.single (outRow + o) (w * dotScalar
    (fun i => silu (dotScalar xRow (fun h => gateW (i * H + h)) H) *
      dotScalar xRow (fun h => upW (i * H + h)) H) (fun i => downE (o * I + i)) I)).sum

theorem rowComputeScalar_adds (xRow gateW upW downE : Nat → K) (H I : Nat) (w : K)
    (outRow : Nat) :
    Adds (rowComputeScalar silu xRow gateW upW downE H I w outRow)
      (rowTerm silu xRow gateW upW downE H I w outRow) :=
  Adds.foldl fun _ _ => Adds.cell _ _

theorem rowTerm_of_le {xRow gateW upW downE : Nat → K} {H I : Nat} {w : K} {outRow i : Nat}
    (h : outRow + H ≤ i) : rowTerm silu xRow gateW upW downE H I w outRow i = 0 := by
  apply sum_cell_zero
  intro o ho
  have ho' := List.mem_range.mp ho
  exact Pi.single_eq_of_ne (by omega) _

/-! ### Experts -/

/-- What a candidate expert adds. -/
def routedTerm (silu : K → K) (a : CoreArgs K) (e : Nat) : Nat → K :=
  ((List.range a.topk).map fun j => ((List.range a.numTokens).map fun t =>
    if a.expertIds (t * a.topk + j) ≠ (e : Int) then 0
    else rowTerm silu (a.xRow t) (a.gateW e) (a.upW e) (a.downE e) a.hidden a.intermediate
      (a.expertWeights (t * a.topk + j)) (t * a.hidden)).sum).sum

/-- What an expert adds. -/
def expertTerm (silu : K → K) (a : CoreArgs K) (e : Nat) : Nat → K :=
  if a.masked e then 0 else routedTerm silu a e

theorem moeForwardExpertRange_adds (a : CoreArgs K) (expertBegin expertEnd : Nat) :
    Adds (moeForwardExpertRange a expertBegin expertEnd (rowComputeScalar silu))
      ((List.range' expertBegin (expertEnd - expertBegin)).map (expertTerm silu a)).sum :=
  Adds.foldl fun _ _ => Adds.skip (Adds.foldl fun _ _ => Adds.foldl fun _ _ =>
    Adds.skip (rowComputeScalar_adds _ _ _ _ _ _ _ _))

/-- The reference works off all experts, a scalar row at a time. -/
theorem moeForwardCore_eq_range (a : CoreArgs K) (out : Nat → K) :
    moeForwardCore silu a out =
      moeForwardExpertRange a 0 a.numExperts (rowComputeScalar silu) (memset a.outElems out) := by
  rw [moeForwardExpertRange, Nat.sub_zero, ← List.range_eq_range']
  rfl

theorem moeForwardCore_eq (a : CoreArgs K) (out : Nat → K) :
    moeForwardCore silu a out =
      memset a.outElems out + ((List.range a.numExperts).map (expertTerm silu a)).sum := by
  rw [moeForwardCore_eq_range, moeForwardExpertRange_adds, Nat.sub_zero, List.range_eq_range']

theorem expertTerm_of_le {e i : Nat} (h : a.outElems ≤ i) : expertTerm silu a e i = 0 := by
  rw [expertTerm]
  by_cases he : a.masked e
  · rw [if_pos he]
    rfl
  rw [if_neg he]
  apply sum_cell_zero
  intro j _
  apply sum_cell_zero
  intro t ht
  by_cases hid : a.expertIds (t * a.topk + j) ≠ (e : Int)
  · rw [if_pos hid]
    rfl
  · rw [if_neg hid]
    apply rowTerm_of_le
    calc t * a.hidden + a.hidden = (t + 1) * a.hidden := (Nat.succ_mul _ _).symm
      _ ≤ a.numTokens * a.hidden := Nat.mul_le_mul_right _ (List.mem_range.mp ht)
      _ ≤ i := h

/-! ### Workers -/

theorem partitionLoop_succ (numExperts threads p : Nat) :
    partitionLoop numExperts threads (p + 1) =
      let st := partitionLoop numExperts threads p
      let stop := st.1 + (numExperts / threads + if p < numExperts % threads then 1 else 0)
      (stop, st.2 ++ [(st.1, stop)]) := by
  rw [partitionLoop, List.range_succ, List.foldl_concat]
  rfl

theorem partitionLoop_begin (numExperts threads p : Nat) :
    (partitionLoop numExperts threads p).1 =
      p * (numExperts / threads) + min p (numExperts % threads) := by
  induction p with
  | zero => simp [partitionLoop]
  | succ p ih =>
      simp only [partitionLoop_succ, ih, Nat.succ_mul]
      by_cases hp : p < numExperts % threads
      · simp only [if_pos hp]
        omega
      · simp only [if_neg hp]
        omega

/-- The ranges follow one another from the first expert on. -/
theorem partitionLoop_ranges (numExperts threads p : Nat) :
    (partitionLoop numExperts threads p).2.flatMap (fun r => List.range' r.1 (r.2 - r.1)) =
      List.range (partitionLoop numExperts threads p).1 := by
  induction p with
  | zero => rfl
  | succ p ih =>
      simp only [partitionLoop_succ, List.flatMap_append, ih, List.flatMap_singleton,
        Nat.add_sub_cancel_left, List.range_eq_range']
      simpa only [Nat.zero_add] using List.range'_append_1 (s := 0)

theorem partitionLoop_all {numExperts threads : Nat} (h : 0 < threads) :
    (partitionLoop numExperts threads threads).2.flatMap
      (fun r => List.range' r.1 (r.2 - r.1)) = List.range numExperts := by
  have hmod := Nat.mod_lt numExperts h
  have hdiv := Nat.div_add_mod numExperts threads
  rw [partitionLoop_ranges, partitionLoop_begin, Nat.min_eq_right (by omega), hdiv]

theorem partialOut_eq (r : Nat × Nat) :
    partialOut a (rowComputeScalar silu) r =
      ((List.range' r.1 (r.2 - r.1)).map (expertTerm silu a)).sum := by
  rw [partialOut]
  by_cases hr : r.2 ≤ r.1
  · rw [if_pos hr, Nat.sub_eq_zero_of_le hr]
    rfl
  · rw [if_neg hr, moeForwardExpertRange_adds]
    exact zero_add _

theorem sum_expertTerm_of_le {l : List Nat} {i : Nat} (h : a.outElems ≤ i) :
    (l.map (expertTerm silu a)).sum i = 0 :=
  sum_cell_zero fun _ _ => expertTerm_of_le h

/-- Adding a private buffer to `out`, cell by cell, where it is zero beyond the cells. -/
theorem merge_adds {n : Nat} {part : Nat → K} (h : ∀ i, n ≤ i → part i = 0) :
    Adds (fun out => (List.range n).foldl (fun out idx =>
      Function.update out idx (out idx + part idx)) out) part := by
  refine Adds.congr (Adds.foldl fun idx _ => Adds.cell idx (part idx)) ?_
  funext i
  rw [sum_cell, sum_range]
  by_cases hi : i < n
  · rw [Finset.sum_eq_single i]
    · simp
    · intro j _ hne
      simp [Ne.symm hne]
    · simp [hi]
  · rw [h i (by omega)]
    apply Finset.sum_eq_zero
    intro j hj
    have hne : i ≠ j := by
      rintro rfl
      exact hi (Finset.mem_range.mp hj)
    simp [hne]

/-- The buffers of the workers, added to `out` one after the other. -/
theorem partials_adds (ranges : List (Nat × Nat)) :
    Adds (fun out => (ranges.map (partialOut a (rowComputeScalar silu))).foldl
        (fun out part => (List.range a.outElems).foldl (fun out idx =>
          Function.update out idx (out idx + part idx)) out) out)
      ((ranges.flatMap fun r => List.range' r.1 (r.2 - r.1)).map (expertTerm silu a)).sum := by
  simp only [sum_flatMap, List.foldl_map]
  apply Adds.foldl
  intro r _
  rw [← partialOut_eq]
  apply merge_adds
  intro i hi
  rw [partialOut_eq]
  exact sum_expertTerm_of_le hi

/-- The fast path computes what the reference does. -/
theorem moeForwardCoreFast_eq (host : Host) (silu : K → K) (numThreads : Int)
    (forceScalar : Bool) :
    moeForwardCoreFast host silu numThreads forceScalar = moeForwardCore silu := by
  funext a out
  rw [moeForwardCoreFast, selectRowCompute_eq]
  by_cases hone : clampThreads host numThreads a.numExperts ≤ 1
  · rw [moeForwardCore_eq_range]
    exact if_pos hone
  have hpos : 0 < clampThreads host numThreads a.numExperts :=
    Nat.lt_trans Nat.zero_lt_one (Nat.lt_of_not_le hone)
  calc (if clampThreads host numThreads a.numExperts ≤ 1 then _ else _)
      = memset a.outElems out + _ := (if_neg hone).trans (partials_adds _ _)
    _ = memset a.outElems out + ((List.range a.numExperts).map (expertTerm silu a)).sum := by
        rw [partitionLoop_all hpos]
    _ = moeForwardCore silu a out := (moeForwardCore_eq a out).symm

/-! ### Masks -/

/-- The same call under another mask. -/
def CoreArgs.withMask (a : CoreArgs K) (mask : Option (Nat → UInt8)) : CoreArgs K :=
  { a with expertMask := mask }

/-- Two masks are complementary on the experts. -/
def Complementary (numExperts : Nat) (maskA maskB : Nat → UInt8) : Prop :=
  ∀ e < numExperts, maskA e = 0 ↔ maskB e ≠ 0

theorem expertTerm_complementary {maskA maskB : Nat → UInt8}
    (h : Complementary a.numExperts maskA maskB) {e : Nat} (he : e < a.numExperts) :
    expertTerm silu (a.withMask (some maskA)) e + expertTerm silu (a.withMask (some maskB)) e =
      expertTerm silu (a.withMask none) e := by
  have hnone : (a.withMask none).masked e = false := rfl
  have hA : (a.withMask (some maskA)).masked e = (maskA e == 0) := rfl
  have hB : (a.withMask (some maskB)).masked e = (maskB e == 0) := rfl
  have hrouted : ∀ mask, routedTerm silu (a.withMask mask) e = routedTerm silu a e := fun _ => rfl
  simp only [expertTerm, hnone, hA, hB, hrouted, beq_iff_eq, Bool.false_eq_true, if_false]
  by_cases hmask : maskA e = 0
  · rw [if_pos hmask, if_neg ((h e he).mp hmask), zero_add]
  · rw [if_neg hmask, if_pos (not_not.mp fun hB => hmask ((h e he).mpr hB)), add_zero]

theorem moeForwardCore_complementary {maskA maskB : Nat → UInt8}
    (h : Complementary a.numExperts maskA maskB) (out : Nat → K) {i : Nat}
    (hi : i < a.outElems) :
    moeForwardCore silu (a.withMask (some maskA)) out i +
        moeForwardCore silu (a.withMask (some maskB)) out i =
      moeForwardCore silu (a.withMask none) out i := by
  have hcell : ∀ mask, moeForwardCore silu (a.withMask mask) out i =
      ((List.range a.numExperts).map fun e => expertTerm silu (a.withMask mask) e i).sum := by
    intro mask
    have hi' : i < (a.withMask mask).outElems := hi
    rw [moeForwardCore_eq, Pi.add_apply, sum_cell, memset, if_pos hi', zero_add]
    rfl
  rw [hcell, hcell, hcell, sum_range, sum_range, sum_range, ← Finset.sum_add_distrib]
  apply Finset.sum_congr rfl
  intro e he
  exact congrFun (expertTerm_complementary h (Finset.mem_range.mp he)) i

/-! ### The layer -/

section Layer

variable {K : Type} [CommRing K] {m : MoeModel K} {r : Routing K} {a : CoreArgs K}

/-- The call is on the buffers of a layer and of a routing. -/
structure OfLayer (m : MoeModel K) (r : Routing K) (a : CoreArgs K) : Prop where
  hidden_eq : a.hidden = m.hidden
  intermediate_eq : a.intermediate = m.intermediate
  numTokens_eq : a.numTokens = r.tokens
  topk_eq : a.topk = r.topK
  ids_eq : ∀ t < r.tokens, ∀ j < r.topK, a.expertIds (t * r.topK + j) = r.idx t j
  weights_eq : ∀ t < r.tokens, ∀ j < r.topK, a.expertWeights (t * r.topK + j) = r.w t j

/-- The weights of an expert in the two banks. -/
def bankWeights (m : MoeModel K) (a : CoreArgs K) (e : Nat) : ExpertWeights K :=
  m.weightsOf (fun i h => a.gateUp (e * a.gateUpExpertStride + (i * a.hidden + h)))
    fun o i => a.down (e * a.downExpertStride + (o * a.intermediate + i))

/-- A row adds to its own token only. -/
theorem rowTerm_cell {xRow gateW upW downE : Nat → K} {H I : Nat} {w : K} {t t' o : Nat}
    (ho : o < H) : rowTerm m.silu xRow gateW upW downE H I w (t' * H) (t * H + o) =
      if t' = t then w * dotScalar (fun i => m.silu (dotScalar xRow (fun h => gateW (i * H + h)) H) *
        dotScalar xRow (fun h => upW (i * H + h)) H) (fun i => downE (o * I + i)) I else 0 := by
  rw [rowTerm, sum_cell, sum_range]
  by_cases ht : t' = t
  · subst ht
    rw [if_pos rfl, Finset.sum_eq_single o]
    · rw [Pi.single_eq_same]
    · intro o' _ hne
      exact Pi.single_eq_of_ne (by omega) _
    · intro hnot
      exact absurd (Finset.mem_range.mpr ho) hnot
  · rw [if_neg ht]
    apply Finset.sum_eq_zero
    intro o' ho'
    apply Pi.single_eq_of_ne
    intro heq
    have hdiv := congrArg (· / H) heq
    simp only [Nat.mul_comm _ H, Nat.mul_add_div (Nat.zero_lt_of_lt ho), Nat.div_eq_of_lt ho,
      Nat.div_eq_of_lt (Finset.mem_range.mp ho'), Nat.add_zero] at hdiv
    exact ht hdiv.symm

/-- What an expert adds to a token. -/
theorem routedTerm_cell (h : OfLayer m r a) {e t o : Nat} (ht : t < r.tokens)
    (ho : o < m.hidden) : routedTerm m.silu a e (t * m.hidden + o) =
      ∑ j ∈ Finset.range r.topK, if r.idx t j = e then
        r.w t j * m.swiglu (bankWeights m a e) (fun i => a.x (t * m.hidden + i)) o else 0 := by
  rw [routedTerm, sum_cell, sum_range, h.topk_eq]
  apply Finset.sum_congr rfl
  intro j hj
  have hj' := Finset.mem_range.mp hj
  rw [sum_cell, sum_range, h.numTokens_eq, Finset.sum_eq_single t]
  · rw [h.ids_eq t ht j hj', h.weights_eq t ht j hj', h.hidden_eq]
    by_cases hid : r.idx t j = e
    · rw [if_pos hid, if_neg (not_not.mpr (congrArg Nat.cast hid)), rowTerm_cell ho, if_pos rfl]
      simp only [dotScalar_eq, MoeModel.swiglu, bankWeights, MoeModel.weightsOf, CoreArgs.xRow,
        CoreArgs.gateW, CoreArgs.upW, CoreArgs.downE, h.hidden_eq, h.intermediate_eq, Nat.add_mul,
        Nat.add_assoc]
    · rw [if_neg hid, if_pos fun heq => hid (Nat.cast_injective heq)]
      rfl
  · intro t' _ hne
    rw [h.hidden_eq]
    by_cases hid : a.expertIds (t' * r.topK + j) ≠ (e : Int)
    · rw [if_pos hid]
      rfl
    · rw [if_neg hid, rowTerm_cell ho, if_neg hne]
  · intro hnot
    exact absurd (Finset.mem_range.mpr ht) hnot

/-- The reference is the layer of the CPU half, on the experts that are not masked. -/
theorem moeForwardCore_layer (h : OfLayer m r a) (out : Nat → K) {t o : Nat} (ht : t < r.tokens)
    (ho : o < m.hidden) : moeForwardCore m.silu a out (t * m.hidden + o) =
      m.cpuForward a.numExperts (bankWeights m a) (fun t i => a.x (t * m.hidden + i)) r
        (fun e => !a.masked e) t o := by
  have hcell : t * m.hidden + o < a.outElems := by
    rw [CoreArgs.outElems, h.numTokens_eq, h.hidden_eq]
    calc t * m.hidden + o < t * m.hidden + m.hidden := Nat.add_lt_add_left ho _
      _ = (t + 1) * m.hidden := (Nat.succ_mul _ _).symm
      _ ≤ r.tokens * m.hidden := Nat.mul_le_mul_right _ ht
  rw [moeForwardCore_eq, Pi.add_apply, memset, if_pos hcell, zero_add, sum_cell,
    MoeModel.cpuForward, scatterAdd_eq_sum, keyMajor, sum_flatMap, sum_cell]
  congr 1
  apply List.map_congr_left
  intro e _
  by_cases he : a.masked e
  · rw [expertTerm, if_pos he, if_neg (by simp [he])]
    rfl
  · rw [expertTerm, if_neg he, if_pos (by simp [he]), routedTerm_cell h ht ho,
      sum_places ht e fun j t o => r.w t j *
        m.swiglu (bankWeights m a e) (fun i => a.x (t * m.hidden + i)) o, Finset.sum_apply]
    apply Finset.sum_congr rfl
    intro j _
    by_cases hid : r.idx t j = e
    · rw [if_pos hid, if_pos hid]
    · rw [if_neg hid, if_neg hid]
      rfl

end Layer

/-! ### Calls -/

/-- Two calls return what a third does, and where that is `0` their outputs add up to its. -/
def AddUp (n : Nat) (ra rb r : Int × Option (Nat → K)) : Prop :=
  ra.1 = r.1 ∧ rb.1 = r.1 ∧ (r.1 = 0 → ∃ outA outB out, ra.2 = some outA ∧ rb.2 = some outB ∧
    r.2 = some out ∧ ∀ i < n, outA i + outB i = out i)

theorem entry_addUp {core : CoreArgs K → (Nat → K) → Nat → K} {maskA maskB : Nat → UInt8}
    (hcore : ∀ (a : CoreArgs K) out i, Complementary a.numExperts maskA maskB → i < a.outElems →
      core (a.withMask (some maskA)) out i + core (a.withMask (some maskB)) out i =
        core (a.withMask none) out i)
    (a : EntryArgs K) (h : Complementary a.numExperts.toNat maskA maskB)
    (out : Option (Nat → K)) :
    AddUp (a.numTokens.toNat * a.hidden.toNat) (entry core { a with expertMask := some maskA } out)
      (entry core { a with expertMask := some maskB } out)
      (entry core { a with expertMask := none } out) := by
  obtain ⟨x, T, H, ids, w, k, gateUp, down, E, I, mask⟩ := a
  -- a null pointer is refused before the mask is looked at
  rcases x with _ | x
  · exact ⟨rfl, rfl, fun hcode => by cases hcode⟩
  rcases ids with _ | ids
  · exact ⟨rfl, rfl, fun hcode => by cases hcode⟩
  rcases w with _ | w
  · exact ⟨rfl, rfl, fun hcode => by cases hcode⟩
  rcases gateUp with _ | gateUp
  · exact ⟨rfl, rfl, fun hcode => by cases hcode⟩
  rcases down with _ | down
  · exact ⟨rfl, rfl, fun hcode => by cases hcode⟩
  rcases out with _ | out
  · exact ⟨rfl, rfl, fun hcode => by cases hcode⟩
  by_cases hbad : T < 0 ∨ H ≤ 0 ∨ k < 0 ∨ E < 0 ∨ I ≤ 0
  · simp only [entry, if_pos hbad]
    exact ⟨rfl, rfl, fun hcode => by cases hcode⟩
  by_cases hnone : T = 0 ∨ k = 0 ∨ E = 0
  · simp only [entry, if_neg hbad, if_pos hnone]
    refine ⟨rfl, rfl, fun _ => ⟨_, _, _, rfl, rfl, rfl, fun i hi => ?_⟩⟩
    simp only [memset, if_pos hi, add_zero]
  · simp only [entry, if_neg hbad, if_neg hnone]
    exact ⟨rfl, rfl, fun _ => ⟨_, _, _, rfl, rfl, rfl, fun i hi => hcore
      { x, numTokens := T.toNat, hidden := H.toNat, expertIds := ids, expertWeights := w
        topk := k.toNat, gateUp, down, numExperts := E.toNat, intermediate := I.toNat
        expertMask := mask } out i h hi⟩⟩

/-- The fast path returns what the reference does, and two complementary masks add up to none. -/
theorem cpu_moe_paths_agree (silu : K → K) (a : EntryArgs K) (out : Option (Nat → K)) :
    (∀ host numThreads forceScalar,
      freetokenCpuMoeForwardFast host silu numThreads forceScalar a out =
        freetokenCpuMoeForward silu a out) ∧
    ∀ maskA maskB, Complementary a.numExperts.toNat maskA maskB →
      AddUp (a.numTokens.toNat * a.hidden.toNat)
        (freetokenCpuMoeForward silu { a with expertMask := some maskA } out)
        (freetokenCpuMoeForward silu { a with expertMask := some maskB } out)
        (freetokenCpuMoeForward silu { a with expertMask := none } out) := by
  constructor
  · intro host numThreads forceScalar
    rw [freetokenCpuMoeForwardFast, moeForwardCoreFast_eq]
    rfl
  · intro maskA maskB h
    exact entry_addUp (fun _ out _ h hi => moeForwardCore_complementary h out hi) a h out

/-- One token and three experts, the first under one mask and the others under the other. -/
theorem threeExperts_addUp :
    let a : EntryArgs Rat :=
      { x := some fun _ => 1, numTokens := 1, hidden := 1, expertIds := some fun j => j
        expertWeights := some fun _ => 2, topk := 3, gateUp := some fun i => i
        down := some fun e => e, numExperts := 3, intermediate := 1, expertMask := none }
    let first : Nat → UInt8 := fun e => if e = 0 then 1 else 0
    let rest : Nat → UInt8 := fun e => if e = 0 then 0 else 1
    Complementary 3 first rest ∧
      AddUp 1 (freetokenCpuMoeForward (fun v => v * v) { a with expertMask := some first } (some 0))
        (freetokenCpuMoeForward (fun v => v * v) { a with expertMask := some rest } (some 0))
        (freetokenCpuMoeForward (fun v => v * v) { a with expertMask := none } (some 0)) := by
  intro a first rest
  have h : Complementary 3 first rest := by
    intro e _
    by_cases he : e = 0 <;> simp [first, rest, he]
  exact ⟨h, (cpu_moe_paths_agree _ a _).2 first rest h⟩

end FreeToken.CpuMoe
