import FreeToken.Layers.Rotary
import Mathlib.Analysis.SpecialFunctions.Pow.Real
import Mathlib.Analysis.SpecialFunctions.Trigonometric.Basic

/-!
# Which layers rotate right

A layer is to rotate each pair of its first `rotary_dim` dimensions by the position times the
pair's frequency. The NeoX layers whose frequencies span just the rotary part do. With
proportional frequencies of a partial rotary part the sines are read from the wrong place of the
cache. The interleaved layers put their pairs back in the wrong order, or raise.
-/

namespace FreeToken

/-- The exact real functions. -/
noncomputable def Trig.real : Trig ℝ where
  cos := Real.cos
  sin := Real.sin
  invPow := fun base d n => 1 / base ^ ((2 * d : ℝ) / n)

namespace RotaryEmbedding

/-! ### The layers' shapes -/

section

variable {K : Type} (layer : RotaryEmbedding K)

/-- The two dimensions of a pair. -/
def pair (d : Nat) : Nat × Nat :=
  if layer.isNeox then (d, layer.half + d) else (2 * d, 2 * d + 1)

theorem half_add_half : layer.half + layer.half = layer.rotaryDim := by
  have heven := layer.rotaryDim_even
  simp only [half]
  omega

theorem headSize_ge : 64 ≤ layer.headSize ∧ layer.headSize % 2 = 0 := by
  have hvalid := layer.headSize_valid
  simp only [List.mem_cons, List.not_mem_nil, or_false] at hvalid
  omega

theorem rotateShapes_neox (h : layer.isNeox = true) : layer.rotateShapes = .ok () := by
  simp [rotateShapes, h, broadcast]

/-- An interleaved layer goes through exactly where it rotates the whole head. -/
theorem rotateShapes_interleaved (h : layer.isNeox = false) :
    layer.rotateShapes = .ok () ↔ layer.rotaryDim = layer.headSize := by
  rcases layer.headSize_ge with ⟨hge, heven⟩
  have hhalf := layer.half_add_half
  have hpos := layer.rotaryDim_pos
  have hle := layer.rotaryDim_le
  constructor
  · intro hok
    by_contra hne
    have hmany : ¬ layer.headSize / 2 = 1 := by omega
    have hwidth : ¬ layer.headSize / 2 = layer.half := by omega
    by_cases hone : layer.half = 1
    · simp [rotateShapes, h, broadcast, hmany, hone] at hok
    · simp [rotateShapes, h, broadcast, hwidth, hmany, hone] at hok
  · intro heq
    have hwidth : layer.headSize / 2 = layer.half := by omega
    have hreshape : layer.half * 2 = layer.headSize := by omega
    simp [rotateShapes, h, broadcast, hwidth, hreshape, Nat.mul_comm 2]

end

/-! ### Rotating right -/

variable (layer : RotaryEmbedding ℝ)

/-- `y` is `x` with each pair rotated by its angle and scaled, and the rest left as it is. -/
def Rotated (pos : Nat) (x y : Nat → ℝ) : Prop :=
  (∀ d < layer.half,
    y (layer.pair d).1 = layer.attentionFactor *
      (x (layer.pair d).1 * Real.cos (pos * layer.invFreq .real d) -
        x (layer.pair d).2 * Real.sin (pos * layer.invFreq .real d)) ∧
    y (layer.pair d).2 = layer.attentionFactor *
      (x (layer.pair d).2 * Real.cos (pos * layer.invFreq .real d) +
        x (layer.pair d).1 * Real.sin (pos * layer.invFreq .real d))) ∧
  ∀ k, layer.rotaryDim ≤ k → k < layer.headSize → y k = x k

/-- `forward` rotates every head of the query and of the key at every position. -/
def RotatesRight : Prop :=
  ∀ positions : List Nat, (∀ pos ∈ positions, pos < layer.maxPositionEmbeddings) →
    ∀ query key, ∃ query' key', layer.forward .real positions query key = .ok (query', key') ∧
      ∀ t < positions.length, ∀ h,
        layer.Rotated (positions.getD t 0) (query t h) (query' t h) ∧
        layer.Rotated (positions.getD t 0) (key t h) (key' t h)

/-- What `_rotate` makes of a head at a position. -/
noncomputable def rotated (pos : Nat) (x : Nat → ℝ) : Nat → ℝ :=
  layer.rotate (layer.cosSinCache .real pos)
    (fun d => layer.cosSinCache .real pos (layer.half + d)) x

variable {layer}

theorem apply_nil (x : Nat → Nat → Nat → ℝ) : layer.apply .real [] x = .ok x := by
  simp [apply]

theorem apply_cons (hshapes : layer.rotateShapes = .ok ()) {positions : List Nat}
    (hne : positions ≠ []) (hlt : ∀ pos ∈ positions, pos < layer.maxPositionEmbeddings)
    (x : Nat → Nat → Nat → ℝ) : layer.apply .real positions x =
      .ok fun t h => layer.rotated (positions.getD t 0) (x t h) := by
  have hin : ¬ ∃ pos ∈ positions, layer.maxPositionEmbeddings ≤ pos := by
    rintro ⟨pos, hpos, hle⟩
    exact absurd (hlt pos hpos) (Nat.not_lt.mpr hle)
  simp [apply, hne, hin, hshapes, rotated]

theorem forward_eq_ok {positions : List Nat} {query key query' key' : Nat → Nat → Nat → ℝ} :
    layer.forward .real positions query key = .ok (query', key') ↔
      layer.apply .real positions query = .ok query' ∧
        layer.apply .real positions key = .ok key' := by
  rcases hquery : layer.apply .real positions query with raised | q
  · simp [forward, hquery, bind, Except.bind]
  · rcases hkey : layer.apply .real positions key with raised | k
    · simp [forward, hquery, hkey, bind, Except.bind]
    · simp [forward, hquery, hkey, bind, Except.bind, pure, Except.pure]

/-- A layer rotates right exactly when it has no position, or its shapes go through and it
rotates each head right. -/
theorem rotatesRight_iff_rotated : layer.RotatesRight ↔ layer.maxPositionEmbeddings = 0 ∨
    (layer.rotateShapes = .ok () ∧
      ∀ pos < layer.maxPositionEmbeddings, ∀ x, layer.Rotated pos x (layer.rotated pos x)) := by
  constructor
  · intro hright
    refine (Nat.eq_zero_or_pos _).imp id fun hpos => ?_
    have hshapes : layer.rotateShapes = .ok () := by
      rcases hright [0] (by simpa using hpos) (fun _ _ _ => 0) (fun _ _ _ => 0) with
        ⟨query', key', hok, -⟩
      rcases hraised : layer.rotateShapes with raised | _
      · simp [forward_eq_ok, apply, hraised, hpos.ne'] at hok
      · rfl
    refine ⟨hshapes, fun pos hlt x => ?_⟩
    have hpositions : ∀ p ∈ [pos], p < layer.maxPositionEmbeddings := by simpa using hlt
    rcases hright [pos] hpositions (fun _ _ => x) (fun _ _ => x) with
      ⟨query', key', hok, hrotated⟩
    rw [forward_eq_ok, apply_cons hshapes (by simp) hpositions] at hok
    have hx := (hrotated 0 (by simp) 0).1
    rwa [← Except.ok.inj hok.1] at hx
  · intro h positions hpositions query key
    by_cases hnil : positions = []
    · rcases hnil with rfl
      exact ⟨query, key, forward_eq_ok.mpr ⟨apply_nil query, apply_nil key⟩, by simp⟩
    · rcases h with hzero | ⟨hshapes, hrotated⟩
      · rcases List.exists_mem_of_ne_nil positions hnil with ⟨pos, hpos⟩
        exact absurd (hpositions pos hpos) (by simp [hzero])
      · refine ⟨_, _, forward_eq_ok.mpr ⟨apply_cons hshapes hnil hpositions query,
          apply_cons hshapes hnil hpositions key⟩, fun t ht h => ?_⟩
        have hpos : positions.getD t 0 < layer.maxPositionEmbeddings := by
          refine hpositions _ ?_
          simp [List.getD_eq_getElem?_getD, List.getElem?_eq_getElem ht]
        exact ⟨hrotated _ hpos _, hrotated _ hpos _⟩

/-! ### One head -/

/-- Where the frequencies span just the rotary part, the second half of the cache are the sines. -/
theorem rotated_neox (hneox : layer.isNeox = true) (hfreqs : layer.numFreqs = layer.half)
    (pos : Nat) (x : Nat → ℝ) : layer.Rotated pos x (layer.rotated pos x) := by
  have hhalf := layer.half_add_half
  constructor
  · intro d hd
    have hfirst : d < layer.rotaryDim := by omega
    have hsecond : layer.half + d < layer.rotaryDim := by omega
    simp only [pair, hneox, if_true, rotated, rotate, hfirst, hd, hsecond, cosSinCache, hfreqs,
      Nat.not_lt.mpr (Nat.le_add_right _ _), if_false, Nat.add_sub_cancel_left, Trig.real]
    constructor <;> ring
  · intro k hk _
    simp [rotated, rotate, hneox, Nat.not_lt.mpr hk]

/-- With the factor zero every rotated dimension is zero, whatever is read. -/
theorem rotated_zero (hzero : layer.attentionFactor = 0)
    (hwhole : layer.isNeox = true ∨ layer.rotaryDim = layer.headSize) (pos : Nat) (x : Nat → ℝ) :
    layer.Rotated pos x (layer.rotated pos x) := by
  have hrow : ∀ j, layer.cosSinCache .real pos j = 0 := by
    intro j
    simp [cosSinCache, hzero]
  have hhalf := layer.half_add_half
  cases hneox : layer.isNeox with
  | true =>
    constructor
    · intro d hd
      have hfirst : d < layer.rotaryDim := by omega
      have hsecond : layer.half + d < layer.rotaryDim := by omega
      simp [pair, hneox, rotated, rotate, hrow, hfirst, hsecond, hzero]
    · intro k hk _
      simp [rotated, rotate, hneox, Nat.not_lt.mpr hk]
  | false =>
    have hsame : layer.rotaryDim = layer.headSize := hwhole.resolve_left (by simp [hneox])
    constructor
    · intro d hd
      simp [pair, hneox, rotated, rotate, hrow, hzero]
    · intro k hk hlt
      omega

/-- At position 0 the partial NeoX layer with proportional frequencies reads a cosine as the
first pair's sine. -/
theorem rotated_partial (hneox : layer.isNeox = true) (hproportional : layer.proportional = true)
    (hnarrow : layer.rotaryDim < layer.headSize) (x : Nat → ℝ) :
    layer.rotated 0 x 0 = (x 0 - x layer.half) * layer.attentionFactor := by
  have hhalf := layer.half_add_half
  have hpos := layer.rotaryDim_pos
  rcases layer.headSize_ge with ⟨-, heven⟩
  have hfreq : layer.half < layer.headSize / 2 := by omega
  have hzero : 0 < layer.half := by omega
  have hfirst : 0 < layer.headSize / 2 := by omega
  simp [rotated, rotate, hneox, hpos, hzero, cosSinCache, numFreqs, hproportional, hfreq, hfirst,
    Trig.real]
  ring

/-- At position 0 the interleaved layer puts dimension 4 where dimension 1 was. -/
theorem rotated_interleaved (hneox : layer.isNeox = false)
    (hwhole : layer.rotaryDim = layer.headSize) (x : Nat → ℝ) :
    layer.rotated 0 x 1 = x 4 * layer.attentionFactor := by
  have hhalf := layer.half_add_half
  rcases layer.headSize_ge with ⟨hge, -⟩
  have hmod : 1 % layer.half = 1 := Nat.mod_eq_of_lt (by omega)
  have hdiv : 1 / layer.half = 0 := Nat.div_eq_of_lt (by omega)
  have htwo : 2 < layer.half := by omega
  have hfreqs : layer.numFreqs = layer.half := by
    simp only [numFreqs]
    split_ifs <;> omega
  simp [rotated, rotate, hneox, hmod, hdiv, htwo, cosSinCache, hfreqs, Trig.real]

/-! ### Which layers rotate right -/

/-- A layer rotates right exactly when it is a NeoX layer whose frequencies span just the rotary
part. Apart from that only layers without a position, and layers that put zeros everywhere. -/
theorem rotatesRight_iff (layer : RotaryEmbedding ℝ) : layer.RotatesRight ↔
    (layer.isNeox = true ∧ (layer.proportional = false ∨ layer.rotaryDim = layer.headSize)) ∨
    layer.maxPositionEmbeddings = 0 ∨
    (layer.attentionFactor = 0 ∧ (layer.isNeox = true ∨ layer.rotaryDim = layer.headSize)) := by
  rw [rotatesRight_iff_rotated]
  constructor
  · rintro (hzero | ⟨hshapes, hrotated⟩)
    · exact Or.inr (Or.inl hzero)
    · rcases Nat.eq_zero_or_pos layer.maxPositionEmbeddings with hzero | hpos
      · exact Or.inr (Or.inl hzero)
      have hhalf := layer.half_add_half
      have hrotary := layer.rotaryDim_pos
      have hfirst : 0 < layer.half := by omega
      cases hneox : layer.isNeox with
      | true =>
        by_cases hspan : layer.proportional = false ∨ layer.rotaryDim = layer.headSize
        · exact Or.inl ⟨rfl, hspan⟩
        · -- the first pair of the head that is one at `half` and zero elsewhere
          have hproportional : layer.proportional = true := by
            simpa using fun h => hspan (Or.inl h)
          have hnarrow : layer.rotaryDim < layer.headSize :=
            lt_of_le_of_ne layer.rotaryDim_le fun h => hspan (Or.inr h)
          have hvalue := ((hrotated 0 hpos fun k => if k = layer.half then 1 else 0).1 0 hfirst).1
          simp [pair, hneox, rotated_partial hneox hproportional hnarrow, hfirst.ne] at hvalue
          exact Or.inr (Or.inr ⟨hvalue, Or.inl rfl⟩)
      | false =>
        -- the head that is one at dimension 1 and zero elsewhere
        have hwhole := (layer.rotateShapes_interleaved hneox).mp hshapes
        have hvalue := ((hrotated 0 hpos fun k => if k = 1 then 1 else 0).1 0 hfirst).2
        simp [pair, hneox, rotated_interleaved hneox hwhole] at hvalue
        exact Or.inr (Or.inr ⟨hvalue.symm, Or.inr hwhole⟩)
  · rintro (⟨hneox, hspan⟩ | hzero | ⟨hfactor, hwhole⟩)
    · refine Or.inr ⟨layer.rotateShapes_neox hneox, fun pos _ x => rotated_neox hneox ?_ pos x⟩
      rcases hspan with hplain | hwhole
      · simp [numFreqs, hplain]
      · simp [numFreqs, half, hwhole]
    · exact Or.inl hzero
    · refine Or.inr ⟨?_, fun pos _ x => rotated_zero hfactor hwhole pos x⟩
      cases hneox : layer.isNeox with
      | true => exact layer.rotateShapes_neox hneox
      | false =>
        exact (layer.rotateShapes_interleaved hneox).mpr (hwhole.resolve_left (by simp [hneox]))

/-- Half of the head is rotated, with proportional frequencies. -/
noncomputable def halfRotary : RotaryEmbedding ℝ where
  headSize := 64
  rotaryDim := 32
  maxPositionEmbeddings := 1
  base := 10000
  proportional := true
  attentionFactor := 1
  rotaryDim_pos := by decide
  rotaryDim_le := by decide
  rotaryDim_even := by decide
  headSize_valid := by decide

/-- The whole head is rotated, in interleaved pairs. -/
noncomputable def interleaved : RotaryEmbedding ℝ where
  headSize := 64
  rotaryDim := 64
  maxPositionEmbeddings := 1
  base := 10000
  attentionFactor := 1
  isNeox := false
  rotaryDim_pos := by decide
  rotaryDim_le := by decide
  rotaryDim_even := by decide
  headSize_valid := by decide

/-- At position 0 nothing is to move, but both layers move dimensions. -/
theorem halfRotary_interleaved_wrong :
    (halfRotary.rotated 0 (fun k => if k = 16 then 1 else 0) 0 = -1 ∧ ¬ halfRotary.RotatesRight) ∧
    (interleaved.rotated 0 (fun k => if k = 4 then 1 else 0) 1 = 1 ∧
      ¬ interleaved.RotatesRight) := by
  have hnarrow : ∀ x, halfRotary.rotated 0 x 0 = (x 0 - x 16) * 1 :=
    rotated_partial rfl rfl (by decide)
  have hinterleaved : ∀ x, interleaved.rotated 0 x 1 = x 4 * 1 := rotated_interleaved rfl rfl
  refine ⟨⟨by simp [hnarrow], fun hright => ?_⟩, by simp [hinterleaved], fun hright => ?_⟩
  · rcases rotatesRight_iff_rotated.mp hright with hzero | ⟨-, hrotated⟩
    · exact absurd hzero (by decide)
    · have hvalue := ((hrotated 0 (by decide) fun k => if k = 16 then 1 else 0).1 0 (by decide)).1
      have hfirst : (halfRotary.pair 0).1 = 0 := rfl
      have hsecond : (halfRotary.pair 0).2 = 16 := rfl
      simp [hfirst, hsecond, hnarrow] at hvalue
  · rcases rotatesRight_iff_rotated.mp hright with hzero | ⟨-, hrotated⟩
    · exact absurd hzero (by decide)
    · have hvalue := ((hrotated 0 (by decide) fun k => if k = 4 then 1 else 0).1 0 (by decide)).2
      have hfirst : (interleaved.pair 0).1 = 0 := rfl
      have hsecond : (interleaved.pair 0).2 = 1 := rfl
      simp [hfirst, hsecond, hinterleaved] at hvalue

end RotaryEmbedding

end FreeToken
