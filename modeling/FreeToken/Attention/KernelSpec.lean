import FreeToken.Attention.Sycl
import FreeToken.Lib.OnlineSoftmax
import Mathlib.Analysis.Complex.Exponential

/-!
# What the SYCL kernels compute

The sums of a query head change with its own keys only, so the loops over the keys and the heads
of a group are one online softmax for each head. Every element of the output has one store, and
the order of the stores does not matter.
-/

namespace FreeToken

open OnlineSoftmax

variable {K : Type} [Field K] [LinearOrder K] {exp : K → K}

/-- A key counts when its logit is above that of a masked one. -/
def scoreOf (s : K) : Option K := if maskedLogit < s then some s else none

theorem scoreOf_of_lt {s : K} (h : maskedLogit < s) : scoreOf s = some s := if_pos h

@[simp] theorem scoreOf_maskedLogit : scoreOf (maskedLogit : K) = none := if_neg (lt_irrefl _)

/-! ### Row-major rows -/

/-- The row of an element. -/
theorem row_div {d x : Nat} (hx : x < d) (r : Nat) : (r * d + x) / d = r := by
  rw [Nat.mul_comm, Nat.mul_add_div (Nat.zero_lt_of_lt hx), Nat.div_eq_of_lt hx, Nat.add_zero]

/-- Its column. -/
theorem row_mod {d x : Nat} (hx : x < d) (r : Nat) : (r * d + x) % d = x := by
  rw [Nat.mul_comm, Nat.mul_add_mod, Nat.mod_eq_of_lt hx]

theorem element_eq_iff {d r r' x x' : Nat} (hx : x < d) (hx' : x' < d) :
    r * d + x = r' * d + x' ↔ r = r' ∧ x = x' := by
  constructor
  · intro heq
    have hrow := row_div hx r
    rw [heq, row_div hx'] at hrow
    subst hrow
    exact ⟨rfl, Nat.add_left_cancel heq⟩
  · rintro ⟨rfl, rfl⟩
    rfl

/-! ### The sums of a head -/

theorem head_offset_iff {d i j x : Nat} (hx : x < d) :
    (j * d ≤ i * d + x ∧ i * d + x < j * d + d) ↔ j = i := by
  constructor
  · rintro ⟨hle, hlt⟩
    rcases Nat.lt_trichotomy j i with hji | rfl | hij
    · have hmul := Nat.mul_le_mul_right d (Nat.succ_le_of_lt hji)
      rw [Nat.succ_mul] at hmul
      omega
    · rfl
    · have hmul := Nat.mul_le_mul_right d (Nat.succ_le_of_lt hij)
      rw [Nat.succ_mul] at hmul
      omega
  · rintro rfl
    exact ⟨Nat.le_add_right _ _, Nat.add_lt_add_left hx _⟩

namespace HeadSums

/-- The sums of the head `i` over the keys `xs`, as far as the element `x` of the values goes. -/
structure Sums (exp : K → K) (d i x : Nat) (xs : List (Option K × K)) (sums : HeadSums K) :
    Prop where
  masked_le : maskedLogit ≤ sums.m i
  holds : Holds exp (sums.m i) (sums.l i) (sums.oacc (i * d + x)) xs

variable {d i j x : Nat} {xs : List (Option K × K)} {sums : HeadSums K} {s : K} {vrow : Nat → K}

theorem Sums.init (exp : K → K) (d i x : Nat) : Sums exp d i x [] .init where
  masked_le := le_rfl
  holds := Holds.nil _

/-- A key for another head. -/
theorem Sums.absorb_of_ne (h : Sums exp d i x xs sums) (hne : j ≠ i) (hx : x < d) :
    Sums exp d i x xs (sums.absorb exp d j s vrow) := by
  have hoff : ¬ (j * d ≤ i * d + x ∧ i * d + x < j * d + d) := mt (head_offset_iff hx).mp hne
  obtain ⟨hmasked, hholds⟩ := h
  rw [HeadSums.absorb]
  split
  · constructor
    · simpa [Function.update_of_ne hne.symm] using hmasked
    · simpa [Function.update_of_ne hne.symm, hoff] using hholds
  · constructor
    · exact hmasked
    · simpa [Function.update_of_ne hne.symm, hoff] using hholds

/-- A key for the head. -/
theorem Sums.absorb (h : Sums exp d i x xs sums) (he : Exponential exp) (hx : x < d) (s : K)
    (vrow : Nat → K) :
    Sums exp d i x (xs ++ [(scoreOf s, vrow x)]) (sums.absorb exp d i s vrow) := by
  obtain ⟨hmasked, hholds⟩ := h
  rw [HeadSums.absorb]
  split
  · next hlt =>
      -- a new maximum is above the mask
      rw [scoreOf_of_lt (lt_of_le_of_lt hmasked hlt)]
      have hnew := hholds.absorb he s (vrow x)
      constructor
      · simpa using (lt_of_le_of_lt hmasked hlt).le
      · simpa [hx, mul_comm] using hnew
  · next hlt =>
      rw [scoreOf]
      split
      · have hadd := hholds.add he s (vrow x)
        constructor
        · exact hmasked
        · simpa [hx, mul_comm] using hadd
      · constructor
        · exact hmasked
        · simpa using hholds.skip (vrow x)

/-- The loop over the heads of a group takes in one key for each. -/
theorem Sums.absorbHeads (h : Sums exp d i x xs sums) (he : Exponential exp) (hx : x < d)
    (logit : Nat → K) (vrow : Nat → K) {heads : List Nat} (hnodup : heads.Nodup)
    (hi : i ∈ heads) :
    Sums exp d i x (xs ++ [(scoreOf (logit i), vrow x)])
      (heads.foldl (fun sums j => sums.absorb exp d j (logit j) vrow) sums) := by
  have hskip : ∀ {xs : List (Option K × K)} (others : List Nat) (sums : HeadSums K), i ∉ others →
      Sums exp d i x xs sums →
      Sums exp d i x xs (others.foldl (fun sums j => sums.absorb exp d j (logit j) vrow) sums) := by
    intro xs others
    induction others with
    | nil => exact fun _ _ hsums => hsums
    | cons j others ih =>
        intro sums hnot hsums
        rcases not_or.mp (mt List.mem_cons.mpr hnot) with ⟨hne, hnot⟩
        exact ih _ hnot (hsums.absorb_of_ne (Ne.symm hne) hx)
  rcases List.append_of_mem hi with ⟨before, after, rfl⟩
  have hnot := List.nodup_middle.mp hnodup |>.notMem
  simp only [List.mem_append, not_or] at hnot
  rw [List.foldl_append, List.foldl_cons]
  apply hskip after _ hnot.2
  exact (hskip before _ hnot.1 h).absorb he hx _ _

end HeadSums

namespace KernelArgs

variable (a : KernelArgs K)

/-- The key in row `p` of the table, for the query in row `qrow` and the element `x`. -/
def keyAt (off stride hkv : Nat) (qpos : Int) (qrow x p : Nat) : Option K × K :=
  (scoreOf (a.logit p qpos qrow (a.kvRow off stride hkv p)), a.vCache (a.kvRow off stride hkv p + x))

/-- The softmax over the keys of a request. -/
def attended (exp : K → K) (off stride hkv : Nat) (kvLen qpos : Int) (qrow x : Nat) : K :=
  softmax exp ((List.range kvLen.toNat).map (a.keyAt off stride hkv qpos qrow x))

theorem sums_attendKeys (he : Exponential exp) {i x : Nat} (hi : i < a.g) (hx : x < a.d)
    (off stride hkv : Nat) (kvLen qpos : Int) (qrow : Nat) :
    HeadSums.Sums exp a.d i x
      ((List.range kvLen.toNat).map (a.keyAt off stride hkv qpos (qrow + i) x))
      (a.attendKeys exp off stride hkv kvLen qpos qrow) := by
  rw [attendKeys]
  induction kvLen.toNat with
  | zero => exact .init exp a.d i x
  | succ n ih =>
      have hpos : (kvLen - 1) - (kvLen - 1 - (n : Int)) = n := by omega
      rw [List.range_succ, List.map_append, List.foldl_append]
      simp only [List.foldl_cons, List.foldl_nil, List.map_cons, List.map_nil, hpos]
      exact ih.absorbHeads he hx
        (fun i => a.logit n qpos (qrow + i) (a.kvRow off stride hkv n))
        (fun x => a.vCache (a.kvRow off stride hkv n + x)) List.nodup_range (List.mem_range.mpr hi)

/-- A group stores the softmax of each of its heads. -/
theorem mem_storeRows [IsStrictOrderedRing K] (he : Exponential exp) {off stride hkv orow : Nat}
    {kvLen qpos : Int} {store : Nat × K}
    (hmem : store ∈ a.storeRows orow (a.attendKeys exp off stride hkv kvLen qpos orow)) :
    ∃ i < a.g, ∃ x < a.d, store =
      ((orow + i) * a.d + x, a.attended exp off stride hkv kvLen qpos (orow + i) x) := by
  simp only [storeRows, List.mem_flatMap, List.mem_map, List.mem_range] at hmem
  rcases hmem with ⟨i, hi, x, hx, rfl⟩
  have hsums := a.sums_attendKeys he hi hx off stride hkv kvLen qpos orow
  refine ⟨i, hi, x, hx, ?_⟩
  rw [attended, ← hsums.holds.softmax_eq he, smul_eq_mul, mul_comm (ite _ _ _)]

/-- Every element of a group's rows has a store. -/
theorem fst_mem_storeRows {i x : Nat} (orow : Nat) (sums : HeadSums K) (hi : i < a.g) (hx : x < a.d) :
    (orow + i) * a.d + x ∈ (a.storeRows orow sums).map Prod.fst := by
  simp only [storeRows, List.mem_map, List.mem_flatMap, List.mem_range]
  exact ⟨_, ⟨i, hi, x, hx, rfl⟩, rfl⟩

/-! ### A launch -/

variable {a} {stores out : List (Nat × K)} {b h x : Nat}

omit [Field K] [LinearOrder K] in
theorem launch_isSome_iff {item : Nat → List (Nat × K)} :
    (a.launch item).isSome ↔ a.bs = 0 ∨ a.Launches := by
  rw [launch]
  split
  · next hbs => exact iff_of_true rfl (.inl hbs)
  next hbs =>
  split
  · next h => exact iff_of_true rfl (.inr h)
  · next h => exact iff_of_false Bool.false_ne_true (not_or.mpr ⟨hbs, h⟩)

omit [Field K] [LinearOrder K] in
/-- A store after a launch, in whatever order the device made the stores. -/
theorem written_launch {item : Nat → List (Nat × K)} (hlaunch : a.launch item = some stores)
    (hout : out.Perm stores) {i : Nat} {v : K}
    (hsame : ∀ gid < a.bs * a.kv, ∀ store ∈ item gid, store.1 = i → store.2 = v)
    (hmem : ∃ gid < a.bs * a.kv, i ∈ (item gid).map Prod.fst) (junk : Nat → K) :
    Assign.written junk out i = v := by
  have hbs : a.bs ≠ 0 := by
    rintro hbs
    obtain ⟨gid, hgid, -⟩ := hmem
    rw [hbs, Nat.zero_mul] at hgid
    cases hgid
  rw [launch, if_neg hbs] at hlaunch
  split at hlaunch
  · cases hlaunch
    apply Assign.written_eq
    · intro store hstore hi
      rcases List.mem_flatMap.mp (hout.mem_iff.mp hstore) with ⟨gid, hgid, hstore⟩
      exact hsame gid (List.mem_range.mp hgid) store hstore hi
    · rcases hmem with ⟨gid, hgid, hi⟩
      rcases List.mem_map.mp hi with ⟨store, hstore, rfl⟩
      apply List.mem_map_of_mem
      exact hout.mem_iff.mpr (List.mem_flatMap.mpr ⟨gid, List.mem_range.mpr hgid, hstore⟩)
  · cases hlaunch

omit [Field K] [LinearOrder K] in
/-- The group of a query head, and its place in it. -/
theorem head_eq_iff (hgroup : a.qh = a.kv * a.g) {hkv i r r' : Nat} (hkv_lt : hkv < a.kv)
    (hi : i < a.g) (hh : h < a.qh) :
    r * a.qh + hkv * a.g + i = r' * a.qh + h ↔ r = r' ∧ hkv = h / a.g ∧ i = h % a.g := by
  have hlt : hkv * a.g + i < a.qh := by
    have hmul := Nat.mul_le_mul_right a.g (Nat.succ_le_of_lt hkv_lt)
    rw [Nat.succ_mul, ← hgroup] at hmul
    omega
  constructor
  · intro heq
    rw [Nat.add_assoc] at heq
    obtain ⟨rfl, rfl⟩ := (element_eq_iff hlt hh).mp heq
    exact ⟨rfl, (row_div hi hkv).symm, (row_mod hi hkv).symm⟩
  · rintro ⟨rfl, rfl, rfl⟩
    rw [Nat.add_assoc, Nat.div_add_mod']

omit [Field K] [LinearOrder K] in
/-- The work-item of a request and a query head. -/
theorem exists_item (hgroup : a.qh = a.kv * a.g) (hb : b < a.bs) (hh : h < a.qh) :
    b * a.kv + h / a.g < a.bs * a.kv ∧ (b * a.kv + h / a.g) / a.kv = b ∧
      (b * a.kv + h / a.g) % a.kv = h / a.g ∧ h % a.g < a.g := by
  have hlt : h < a.kv * a.g := hgroup ▸ hh
  have hg : 0 < a.g := Nat.pos_of_mul_pos_left (Nat.zero_lt_of_lt hlt)
  have hdiv : h / a.g < a.kv := (Nat.div_lt_iff_lt_mul hg).mpr hlt
  have hmul := Nat.mul_le_mul_right a.kv (Nat.succ_le_of_lt hb)
  rw [Nat.succ_mul] at hmul
  exact ⟨by omega, row_div hdiv b, row_mod hdiv b, Nat.mod_lt _ hg⟩

variable [IsStrictOrderedRing K]

theorem decode_computes (he : Exponential exp) (hgroup : a.qh = a.kv * a.g)
    (hlaunch : a.decodeAttention exp = some stores) (hout : out.Perm stores) (hb : b < a.bs)
    (hh : h < a.qh) (hx : x < a.d) (junk : Nat → K) :
    Assign.written junk out ((b * a.qh + h) * a.d + x) =
      a.attended exp (b * a.tableDim * 3) 3 (h / a.g) (a.table (b * a.tableDim * 3 + 1))
        (a.table (b * a.tableDim * 3 + 2)) (b * a.qh + h) x := by
  apply written_launch hlaunch hout
  · intro gid hgid store hstore heq
    have hkv : gid % a.kv < a.kv := Nat.mod_lt _ (Nat.pos_of_mul_pos_left (Nat.zero_lt_of_lt hgid))
    rcases a.mem_storeRows he hstore with ⟨i, hi, x', hx', rfl⟩
    obtain ⟨hrow, rfl⟩ := (element_eq_iff hx' hx).mp heq
    obtain ⟨hdiv, hmod, -⟩ := (head_eq_iff hgroup hkv hi hh).mp hrow
    rw [← hrow]
    simp only [hdiv, hmod]
  · obtain ⟨hgid, hdiv, hmod, hi⟩ := exists_item hgroup hb hh
    refine ⟨_, hgid, ?_⟩
    have hmem := a.fst_mem_storeRows (b * a.qh + h / a.g * a.g)
      (a.attendKeys exp (b * a.tableDim * 3) 3 (h / a.g) (a.table (b * a.tableDim * 3 + 1))
        (a.table (b * a.tableDim * 3 + 2)) (b * a.qh + h / a.g * a.g)) hi hx
    rw [Nat.add_assoc, Nat.div_add_mod'] at hmem
    simpa only [decodeItem, hdiv, hmod] using hmem

/-- The row of the token `t` of the request `b` in a prefill. -/
def tokenRow (a : KernelArgs K) (b t : Nat) : Nat :=
  (a.table (b * a.tableDim * 5 + 4) + t).toNat

/-- The tokens of the requests of a prefill are in rows of their own. -/
def RowsApart (a : KernelArgs K) : Prop :=
  ∀ b < a.bs, ∀ t < (a.table (b * a.tableDim * 5 + 3)).toNat,
    ∀ b' < a.bs, ∀ t' < (a.table (b' * a.tableDim * 5 + 3)).toNat,
      a.tokenRow b t = a.tokenRow b' t' → b = b' ∧ t = t'

theorem prefill_computes (he : Exponential exp) (hgroup : a.qh = a.kv * a.g)
    (hapart : a.RowsApart) (hlaunch : a.prefillAttention exp = some stores)
    (hout : out.Perm stores) (hb : b < a.bs) {t : Nat}
    (ht : t < (a.table (b * a.tableDim * 5 + 3)).toNat) (hh : h < a.qh) (hx : x < a.d)
    (junk : Nat → K) :
    Assign.written junk out ((a.tokenRow b t * a.qh + h) * a.d + x) =
      a.attended exp (b * a.tableDim * 5) 5 (h / a.g) (a.table (b * a.tableDim * 5 + 1))
        (a.table (b * a.tableDim * 5 + 2) + t) (a.tokenRow b t * a.qh + h) x := by
  apply written_launch hlaunch hout
  · intro gid hgid store hstore heq
    have hkvpos := Nat.pos_of_mul_pos_left (Nat.zero_lt_of_lt hgid)
    have hbs : gid / a.kv < a.bs := (Nat.div_lt_iff_lt_mul hkvpos).mpr hgid
    have hkv : gid % a.kv < a.kv := Nat.mod_lt _ hkvpos
    rcases List.mem_flatMap.mp hstore with ⟨t', ht', hstore⟩
    rcases a.mem_storeRows he hstore with ⟨i, hi, x', hx', rfl⟩
    obtain ⟨hrow, rfl⟩ := (element_eq_iff hx' hx).mp heq
    obtain ⟨htoken, hmod, -⟩ := (head_eq_iff hgroup hkv hi hh).mp hrow
    obtain ⟨hdiv, rfl⟩ := hapart _ hbs t' (List.mem_range.mp ht') b hb t ht htoken
    rw [← hrow]
    simp only [hdiv, hmod]
  · obtain ⟨hgid, hdiv, hmod, hi⟩ := exists_item hgroup hb hh
    refine ⟨_, hgid, ?_⟩
    simp only [prefillItem, hdiv, hmod, List.map_flatMap]
    refine List.mem_flatMap.mpr ⟨t, List.mem_range.mpr ht, ?_⟩
    have hmem := a.fst_mem_storeRows (a.tokenRow b t * a.qh + h / a.g * a.g)
      (a.attendKeys exp (b * a.tableDim * 5) 5 (h / a.g) (a.table (b * a.tableDim * 5 + 1))
        (a.table (b * a.tableDim * 5 + 2) + t) (a.tokenRow b t * a.qh + h / a.g * a.g)) hi hx
    rwa [Nat.add_assoc, Nat.div_add_mod'] at hmem

end KernelArgs

end FreeToken
