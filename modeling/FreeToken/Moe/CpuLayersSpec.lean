import FreeToken.Moe.CpuLayers
import FreeToken.Lib.Except
import Mathlib.Data.List.Dedup

/-!
# Which layers `--moe-cpu-layers` puts on the CPU

What a spec denotes is stated on its own. The string, the partition that the parser makes of it,
and the answers of the blocks do not always say the same. The parser takes the number 1 for all
layers, and overflows on an infinity. Its `None` for all layers is read as no layer by the hybrid
blocks of Qwen3.5. Those of Qwen3 carve no layer out, and the config of a Qwen3 checkpoint does not
tell the parser how many MoE layers there are.
-/

namespace FreeToken

/-- The number that a spec gives, if it gives one. -/
def specNumber (spec : String) : Option Float.Model := readFloat (pyStrip spec.toList)

/-- The ids of a comma-separated list. -/
def SpecIds (spec : String) (ids : List Int) : Prop :=
  (((pyStrip spec.toList).splitOn ',').filter fun tok => pyStrip tok ≠ []).map
    (fun tok => readInt (String.ofList tok)) = ids.map some

/-- The spec is written as an integer. -/
def IsInteger (spec : String) : Prop :=
  (readInt (String.ofList (pyStrip spec.toList))).isSome = true

instance (spec : String) : Decidable (IsInteger spec) := inferInstanceAs (Decidable (_ = true))

/-- The layers, of `L`, that a spec denotes. A 1 that is not written as an integer is a
fraction. -/
inductive Denotes (L : Nat) (spec : String) : (Nat → Prop) → Prop
  | blank (h : pyStrip spec.toList = []) : Denotes L spec fun _ => False
  | auto (h : (pyStrip spec.toList).map Char.toLower = ['a', 'u', 't', 'o']) :
      Denotes L spec fun j => j < L
  | one (x : Float.Model) (hx : specNumber spec = some x) (hone : PyFloat.toRat? x = some 1)
      (hfraction : ¬ IsInteger spec) : Denotes L spec fun j => j < L
  | count (x : Float.Model) (hx : specNumber spec = some x) (n : Nat)
      (hn : PyFloat.toRat? x = some (n : Rat)) (hcount : n = 1 → IsInteger spec) :
      Denotes L spec fun j => j < n ∧ j < L
  | fraction (x : Float.Model) (hx : specNumber spec = some x) (q : Rat)
      (hq : PyFloat.toRat? x = some q) (hpos : 0 < q) (hlt : q < 1) (product : Rat)
      (hproduct : PyFloat.toRat? (x * .ofNat L) = some product) :
      Denotes L spec fun j => (j : Int) < product.ceil ∧ j < L
  | ids (hno : specNumber spec = none) (ids : List Int) (hids : SpecIds spec ids)
      (hrange : ∀ i ∈ ids, 0 ≤ i ∧ i < L) : Denotes L spec fun j => (j : Int) ∈ ids

/-- A letter and its upper case are what goes to it in lower case. -/
theorem eq_of_toLower {c lower upper : Char} (hcase : upper.toNat + 32 = lower.toNat)
    (h : c.toLower = lower) : c ∈ [lower, upper] := by
  delta Char.toLower at h
  split at h
  · next hupper =>
      have hval := congrArg Char.toNat h
      have hadd : (c.val + ('a'.val - 'A'.val)).toNat = c.toNat + 32 := by
        have hle := UInt32.le_iff_toNat_le.mp hupper.2
        have h90 : ('Z'.val).toNat = 90 := rfl
        rw [h90] at hle
        rw [UInt32.toNat_add]
        change (c.val.toNat + 32) % 2 ^ 32 = c.val.toNat + 32
        omega
      have : c.toNat = upper.toNat := by
        change (c.val + ('a'.val - 'A'.val)).toNat = lower.toNat at hval
        omega
      rw [Char.toNat_inj] at this
      simp [this]
  · simp [h]

theorem auto_cases {s : List Char} (h : s.map Char.toLower = ['a', 'u', 't', 'o']) :
    readFloat s = none ∧ s.splitOn ',' = [s] ∧ pyStrip s ≠ [] ∧
      readInt (String.ofList s) = none := by
  obtain ⟨c₁, s, rfl, h₁, h⟩ := List.map_eq_cons_iff.mp h
  obtain ⟨c₂, s, rfl, h₂, h⟩ := List.map_eq_cons_iff.mp h
  obtain ⟨c₃, s, rfl, h₃, h⟩ := List.map_eq_cons_iff.mp h
  obtain ⟨c₄, s, rfl, h₄, h⟩ := List.map_eq_cons_iff.mp h
  rw [List.map_eq_nil_iff] at h
  subst h
  rw [← Option.isNone_iff_eq_none]
  have h₁' : c₁ = 'a' ∨ c₁ = 'A' := List.mem_pair.mp (eq_of_toLower (by decide) h₁)
  have h₂' : c₂ = 'u' ∨ c₂ = 'U' := List.mem_pair.mp (eq_of_toLower (by decide) h₂)
  have h₃' : c₃ = 't' ∨ c₃ = 'T' := List.mem_pair.mp (eq_of_toLower (by decide) h₃)
  have h₄' : c₄ = 'o' ∨ c₄ = 'O' := List.mem_pair.mp (eq_of_toLower (by decide) h₄)
  rcases h₁' with rfl | rfl <;> rcases h₂' with rfl | rfl <;> rcases h₃' with rfl | rfl <;>
    rcases h₄' with rfl | rfl <;> decide +kernel

theorem specNumber_of_blank {spec : String} (h : pyStrip spec.toList = []) :
    specNumber spec = none := by
  rw [specNumber, h]
  rfl

theorem specIds_unique {spec : String} {ids ids' : List Int} (h : SpecIds spec ids)
    (h' : SpecIds spec ids') : ids = ids' := by
  rw [SpecIds] at h h'
  exact List.map_injective_iff.mpr (Option.some_injective Int) (h.symm.trans h')

theorem specIds_of_blank {spec : String} {ids : List Int} (h : pyStrip spec.toList = [])
    (hids : SpecIds spec ids) : ids = [] := by
  rw [SpecIds, h] at hids
  have hnil : (([] : List Char).splitOn ',').filter (fun tok => pyStrip tok ≠ []) = [] := rfl
  rw [hnil, List.map_nil, eq_comm, List.map_eq_nil_iff] at hids
  exact hids

theorem not_specIds_of_auto {spec : String} {ids : List Int}
    (h : (pyStrip spec.toList).map Char.toLower = ['a', 'u', 't', 'o']) : ¬ SpecIds spec ids := by
  obtain ⟨-, hsplit, hstrip, hint⟩ := auto_cases h
  rw [SpecIds, hsplit]
  intro hids
  simp only [ne_eq, hstrip, not_false_eq_true, decide_true, List.filter_cons_of_pos,
    List.filter_nil, List.map_cons, List.map_nil, hint] at hids
  cases ids <;> simp at hids

/-! ### The parser -/

section Number

variable {L : Nat} {spec : String} {x : Float.Model}

/-- What a number denotes is known by its value. -/
theorem Denotes.of_number {S : Nat → Prop} (hx : specNumber spec = some x)
    (h : Denotes L spec S) : ∃ q, PyFloat.toRat? x = some q ∧
      ((q = 1 ∧ ¬ IsInteger spec ∧ S = fun j => j < L) ∨
        (∃ n : Nat, q = n ∧ (n = 1 → IsInteger spec) ∧ S = fun j => j < n ∧ j < L) ∨
        (0 < q ∧ q < 1 ∧ ∃ product, PyFloat.toRat? (x * .ofNat L) = some product ∧
          S = fun (j : Nat) => (j : Int) < product.ceil ∧ j < L)) := by
  cases h with
  | blank h =>
      rw [specNumber_of_blank h] at hx
      cases hx
  | auto h =>
      rw [specNumber, (auto_cases h).1] at hx
      cases hx
  | one y hy hone hfraction =>
      cases hx.symm.trans hy
      exact ⟨1, hone, .inl ⟨rfl, hfraction, rfl⟩⟩
  | count y hy n hn hcount =>
      cases hx.symm.trans hy
      exact ⟨n, hn, .inr (.inl ⟨n, rfl, hcount, rfl⟩)⟩
  | fraction y hy q hq hpos hlt product hproduct =>
      cases hx.symm.trans hy
      exact ⟨q, hq, .inr (.inr ⟨hpos, hlt, product, hproduct, rfl⟩)⟩
  | ids hno ids hids hrange =>
      rw [hno] at hx
      cases hx

/-- What no number denotes is blank, `auto` or a list. -/
theorem Denotes.of_no_number {S : Nat → Prop} (hno : specNumber spec = none)
    (h : Denotes L spec S) :
    (pyStrip spec.toList = [] ∧ S = fun _ => False) ∨
      ((pyStrip spec.toList).map Char.toLower = ['a', 'u', 't', 'o'] ∧ S = fun j => j < L) ∨
      ∃ ids, SpecIds spec ids ∧ S = fun (j : Nat) => (j : Int) ∈ ids := by
  cases h with
  | blank h => exact .inl ⟨h, rfl⟩
  | auto h => exact .inr (.inl ⟨h, rfl⟩)
  | one x hx => cases hno.symm.trans hx
  | count x hx => cases hno.symm.trans hx
  | fraction x hx => cases hno.symm.trans hx
  | ids _ ids hids _ => exact .inr (.inr ⟨ids, hids, rfl⟩)

end Number

section Parser

variable {L : Nat} {spec : String} (hL : L ≠ 0)
include hL

end Parser

/-! ### The model and its blocks -/

section Model

variable {checkpoint : MoeCheckpoint} {numLayers firstKDenseReplace numExperts : Nat}
  {backend : MoeBackend} {spec : String} {config : ModelConfig} {partition : Option (List Nat)}

/-- `__post_init__` runs before `is_moe` is set. -/
theorem postInit_fresh : ModelConfig.postInit ⟨numLayers, firstKDenseReplace, false, none, false,
    false⟩ = ⟨numLayers, firstKDenseReplace, false, none, false, false⟩ := by
  simp [ModelConfig.postInit]

/-- The config that the model is built with. -/
def loadedConfig (checkpoint : MoeCheckpoint) (numLayers firstKDenseReplace numExperts : Nat)
    (backend : MoeBackend) : ModelConfig :=
  checkpoint.parseConfig numLayers firstKDenseReplace numExperts (backend = .cpu)
    (backend = .hybrid)

theorem length_moeLayers : (loadedConfig checkpoint numLayers firstKDenseReplace numExperts
    backend).moeLayers.length = numLayers - firstKDenseReplace := by
  rw [ModelConfig.moeLayers, List.length_range']
  cases checkpoint <;> simp only [loadedConfig, MoeCheckpoint.parseConfig, postInit_fresh]
  case qwen35Moe | ggufQwen3Moe | ggufQwen35Moe => split <;> rfl

end Model
/-- A spec denotes one set of layers. -/
theorem Denotes.unique {L : Nat} {spec : String} {S S' : Nat → Prop} (h : Denotes L spec S)
    (h' : Denotes L spec S') : S = S' := by
  cases hnumber : specNumber spec with
  | some x =>
      obtain ⟨q, hq, hS⟩ := h.of_number hnumber
      obtain ⟨q', hq', hS'⟩ := h'.of_number hnumber
      cases hq.symm.trans hq'
      rcases hS with ⟨rfl, hno, rfl⟩ | ⟨n, rfl, hn, rfl⟩ | ⟨hpos, hlt, product, hproduct, rfl⟩
      · rcases hS' with ⟨-, -, rfl⟩ | ⟨n, hq, hn, -⟩ | ⟨-, hlt, -⟩
        · rfl
        · exact absurd (hn (Nat.cast_eq_one.mp hq.symm)) hno
        · exact absurd hlt (lt_irrefl 1)
      · rcases hS' with ⟨hq, hno, -⟩ | ⟨n', hq, -, rfl⟩ | ⟨hpos, hlt, -⟩
        · exact absurd (hn (Nat.cast_eq_one.mp hq)) hno
        · rw [Nat.cast_inj.mp hq]
        · have hpos' : 0 < n := Nat.cast_pos.mp hpos
          exact absurd (Nat.cast_lt_one.mp hlt) hpos'.ne'
      · rcases hS' with ⟨rfl, -⟩ | ⟨n, rfl, -, -⟩ | ⟨-, -, product', hproduct', rfl⟩
        · exact absurd hlt (lt_irrefl 1)
        · have hpos' : 0 < n := Nat.cast_pos.mp hpos
          exact absurd (Nat.cast_lt_one.mp hlt) hpos'.ne'
        · cases hproduct.symm.trans hproduct'
          rfl
  | none =>
      have hS := h.of_no_number hnumber
      have hS' := h'.of_no_number hnumber
      rcases hS with ⟨hblank, rfl⟩ | ⟨hauto, rfl⟩ | ⟨ids, hids, rfl⟩
      · rcases hS' with ⟨-, rfl⟩ | ⟨hauto, -⟩ | ⟨ids, hids, rfl⟩
        · rfl
        · simp [hblank] at hauto
        · simp [specIds_of_blank hblank hids]
      · rcases hS' with ⟨hblank, -⟩ | ⟨-, rfl⟩ | ⟨ids, hids, -⟩
        · simp [hblank] at hauto
        · rfl
        · exact absurd hids (not_specIds_of_auto hauto)
      · rcases hS' with ⟨hblank, rfl⟩ | ⟨hauto, -⟩ | ⟨ids', hids', rfl⟩
        · simp [specIds_of_blank hblank hids]
        · exact absurd hids (not_specIds_of_auto hauto)
        · rw [specIds_unique hids hids']

/-! ### The readings together -/

section Together

variable {checkpoint : MoeCheckpoint} {numLayers firstKDenseReplace numExperts : Nat}
  {backend : MoeBackend} {spec : String}

end Together

end FreeToken
