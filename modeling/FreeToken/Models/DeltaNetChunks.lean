import FreeToken.Models.GatedDeltaNet
import Mathlib.Algebra.Field.Rat

/-!
# The gated delta net, chunk by chunk

Where the ring takes what is copied into it, a call advances the slot and appends its outputs,
and two calls do what one does on both chunks. The ring does so for every kernel of two or more
columns; of a kernel of one column `seq[:, :, -0:]` is the whole chunk, and only a single token
can be copied into the empty ring.
-/

namespace FreeToken

namespace GatedDeltaNet

variable {K : Type} [Field K] {sh : DeltaNetShape} {net : GatedDeltaNet K sh}
  {xs ys : List (Column K sh.hidden)} {slot : LinearStateSlot K sh}

/-- The convolution of a chunk, and the ring after it. -/
def convolved (net : GatedDeltaNet K sh) (xs : List (Column K sh.hidden))
    (ring : Ring K sh.convDim sh.convKernel) : List (Column K sh.convDim) :=
  (conv1d net.convWeight none (ring.1 ++ xs.map net.inProjQkv.apply)).map fun column c =>
    net.act.silu (column c)

def ringAfter (net : GatedDeltaNet K sh) (xs : List (Column K sh.hidden))
    (ring : Ring K sh.convDim sh.convKernel) : Ring K sh.convDim sh.convKernel :=
  ⟨SlidingWindow.lastN (sh.convKernel - 1) (ring.1 ++ xs.map net.inProjQkv.apply),
    SlidingWindow.length_lastN _ (by simp [ring.2])⟩

/-- What a call that comes back makes of the slot. -/
def advance (net : GatedDeltaNet K sh) (xs : List (Column K sh.hidden))
    (slot : LinearStateSlot K sh) : List (Column K sh.hidden) × LinearStateSlot K sh :=
  let loop := Sweep.loop net.deltaStep
    (List.zipWith net.deltaToken xs (net.convolved xs slot.convState)) slot.state
  (List.zipWith net.output xs loop.1,
    { state := loop.2, convState := net.ringAfter xs slot.convState })

/-! ### Two chunks -/

theorem length_convolved (ring : Ring K sh.convDim sh.convKernel) :
    (net.convolved xs ring).length = xs.length := by
  simp [convolved, conv1d, SlidingWindow.length_windows, ring.2]

theorem convolved_append (ring : Ring K sh.convDim sh.convKernel) :
    net.convolved (xs ++ ys) ring =
      net.convolved xs ring ++ net.convolved ys (net.ringAfter xs ring) := by
  simp only [convolved, conv1d, ringAfter, List.map_append,
    SlidingWindow.windows_append ring.2]

theorem ringAfter_append (ring : Ring K sh.convDim sh.convKernel) :
    net.ringAfter (xs ++ ys) ring = net.ringAfter ys (net.ringAfter xs ring) :=
  (Recurrence.window 0 (sh.convKernel - 1) net.inProjQkv.apply).advance_append ring xs ys

theorem advance_append (net : GatedDeltaNet K sh) (xs ys : List (Column K sh.hidden))
    (slot : LinearStateSlot K sh) :
    net.advance (xs ++ ys) slot =
      ((net.advance xs slot).1 ++ (net.advance ys (net.advance xs slot).2).1,
        (net.advance ys (net.advance xs slot).2).2) := by
  have htokens : List.zipWith net.deltaToken (xs ++ ys) (net.convolved (xs ++ ys) slot.convState) =
      List.zipWith net.deltaToken xs (net.convolved xs slot.convState) ++
        List.zipWith net.deltaToken ys (net.convolved ys (net.ringAfter xs slot.convState)) := by
    rw [convolved_append, List.zipWith_append (length_convolved _).symm]
  have hcore : xs.length = (Sweep.loop net.deltaStep
      (List.zipWith net.deltaToken xs (net.convolved xs slot.convState)) slot.state).1.length := by
    rw [Sweep.length_loop, List.length_zipWith, length_convolved, min_self]
  simp only [advance, htokens, Sweep.loop_append, ringAfter_append]
  rw [List.zipWith_append hcore]

/-! ### Calls that come back -/

omit [Field K] in
theorem copyRing_ring (ring : Ring K sh.convDim sh.convKernel) : copyRing ring.1 = some ring :=
  dif_pos ring.2

/-- A chunk that can be copied into the ring: any, or one token without a ring. -/
def Fits (sh : DeltaNetShape) (xs : List (Column K sh.hidden)) : Prop :=
  2 ≤ sh.convKernel ∨ xs.length = 1

theorem conv_eq_some (h : Fits sh xs) (hne : xs ≠ []) (ring : Ring K sh.convDim sh.convKernel) :
    net.conv (xs.map net.inProjQkv.apply) ring =
      some (net.convolved xs ring, net.ringAfter xs ring) := by
  have hpos : 0 < (xs.map net.inProjQkv.apply).length := by
    rw [List.length_map]
    exact List.length_pos_iff.mpr hne
  have hout : fromLast (xs.map net.inProjQkv.apply).length (conv1d net.convWeight none
      (ring.1 ++ xs.map net.inProjQkv.apply)) =
        conv1d net.convWeight none (ring.1 ++ xs.map net.inProjQkv.apply) := by
    have hlen : (conv1d net.convWeight none (ring.1 ++ xs.map net.inProjQkv.apply)).length =
        (xs.map net.inProjQkv.apply).length := by
      simp [conv1d, SlidingWindow.length_windows, ring.2]
    rw [fromLast, if_neg (Nat.ne_of_gt hpos), SlidingWindow.lastN, hlen, Nat.sub_self, List.drop_zero]
  have hcopy : copyRing (fromLast (sh.convKernel - 1) (ring.1 ++ xs.map net.inProjQkv.apply)) =
      some (net.ringAfter xs ring) := by
    rcases Nat.eq_zero_or_pos (sh.convKernel - 1) with hzero | hring
    · -- no ring: the single column is broadcast to none
      have hone : xs.length = 1 := h.resolve_left (by omega)
      obtain ⟨x, rfl⟩ := List.length_eq_one_iff.mp hone
      have hnil : ring.1 = [] := List.length_eq_zero_iff.mp (ring.2.trans hzero)
      rw [fromLast, if_pos hzero, hnil, copyRing, dif_neg (by simp [hzero])]
      refine congrArg some (Subtype.ext ?_)
      have hlen := (net.ringAfter [x] ring).2
      simp only [hzero, List.replicate_zero]
      exact (List.length_eq_zero_iff.mp (hlen.trans hzero)).symm
    · rw [fromLast, if_neg (Nat.ne_of_gt hring)]
      exact copyRing_ring (net.ringAfter xs ring)
  rw [conv, if_pos hpos, hout, hcopy]
  rfl

theorem forward_eq_some (h : Fits sh xs) (hne : xs ≠ []) :
    net.forward xs slot = some (net.advance xs slot) := by
  rw [forward, conv_eq_some h hne]
  rfl

/-- Without a ring, more than one token cannot be copied. -/
theorem forward_eq_none (h : ¬ Fits sh xs) (hne : xs ≠ []) : net.forward xs slot = none := by
  obtain ⟨hkernel, hlen⟩ := not_or.mp h
  have hpos := List.length_pos_iff.mpr hne
  have hzero : sh.convKernel - 1 = 0 := by omega
  have hnil : slot.convState.1 = [] := List.length_eq_zero_iff.mp (slot.convState.2.trans hzero)
  have hcopy : (copyRing (fromLast (sh.convKernel - 1)
      (slot.convState.1 ++ xs.map net.inProjQkv.apply)) :
        Option (Ring K sh.convDim sh.convKernel)) = none := by
    obtain ⟨x, y, rest, rfl⟩ : ∃ x y rest, xs = x :: y :: rest := by
      rcases xs with _ | ⟨x, _ | ⟨y, rest⟩⟩
      · exact absurd rfl hne
      · exact absurd rfl hlen
      · exact ⟨x, y, rest, rfl⟩
    rw [fromLast, if_pos hzero, hnil, copyRing, dif_neg (by simp [hzero])]
    rfl
  rw [forward, conv, if_pos (by rwa [List.length_map]), hcopy]
  rfl

/-! ### Every splitting -/

/-- One call on all tokens comes back, and every splitting into calls on one or more tokens (token
by token among them) has the same outputs and the same slot. -/
def ChunkInvariant (net : GatedDeltaNet K sh) (xs : List (Column K sh.hidden))
    (slot : LinearStateSlot K sh) : Prop :=
  ∃ result, net.forward xs slot = some result ∧
    ∀ chunks : List (List (Column K sh.hidden)), (∀ chunk ∈ chunks, chunk ≠ []) →
      chunks.flatten = xs → net.calls chunks slot = some result

theorem advance_nil (net : GatedDeltaNet K sh) (slot : LinearStateSlot K sh) :
    net.advance [] slot = ([], slot) := by
  have hring : net.ringAfter [] slot.convState = slot.convState :=
    (Recurrence.window 0 (sh.convKernel - 1) net.inProjQkv.apply).advance_nil slot.convState
  simp only [advance, List.zipWith_nil_left, Sweep.loop, hring]

theorem calls_eq_some : ∀ {chunks : List (List (Column K sh.hidden))}
    {slot : LinearStateSlot K sh}, (∀ chunk ∈ chunks, chunk ≠ [] ∧ Fits sh chunk) →
      net.calls chunks slot = some (net.advance chunks.flatten slot)
  | [], slot, _ => by rw [calls, List.flatten_nil, advance_nil]
  | chunk :: chunks, slot, h => by
      obtain ⟨hne, hfits⟩ := h chunk (List.mem_cons_self ..)
      have ih : net.calls chunks (net.advance chunk slot).2 =
          some (net.advance chunks.flatten (net.advance chunk slot).2) :=
        calls_eq_some fun c hc => h c (List.mem_cons_of_mem chunk hc)
      rw [List.flatten_cons, advance_append, calls, forward_eq_some hfits hne]
      simp only [bind, Option.bind, ih]
      rfl

/-- The layer is chunk-invariant exactly where it has a ring, or there is only one token. -/
theorem chunkInvariant_iff (net : GatedDeltaNet K sh) (hne : xs ≠ [])
    (slot : LinearStateSlot K sh) :
    net.ChunkInvariant xs slot ↔ 2 ≤ sh.convKernel ∨ xs.length = 1 := by
  constructor
  · rintro ⟨result, hone, -⟩
    by_contra hno
    rw [forward_eq_none hno hne] at hone
    cases hone
  · intro hfits
    refine ⟨net.advance xs slot, forward_eq_some hfits hne, ?_⟩
    rintro chunks hchunks rfl
    apply calls_eq_some
    intro chunk hmem
    refine ⟨hchunks chunk hmem, hfits.imp_right fun hlen => ?_⟩
    have hle := (List.sublist_flatten_of_mem hmem).length_le
    have hpos := List.length_pos_iff.mpr (hchunks chunk hmem)
    omega

/-- One head of one number, and a kernel of one column. -/
def oneColumn : DeltaNetShape where
  hidden := 1
  numKHeads := 1
  numVHeads := 1
  headKDim := 1
  headVDim := 1
  convKernel := 1
  numKHeads_dvd := Nat.dvd_refl 1
  numVHeads_pos := Nat.one_pos
  convKernel_pos := Nat.one_pos

/-- Everything is passed on. -/
def plain (sh : DeltaNetShape) : GatedDeltaNet ℚ sh where
  act := ⟨id, id, id, id, id⟩
  eps := 1
  l2Eps := 1
  scale := 1
  inProjQkv := { weight := fun _ _ => 1 }
  inProjZ := { weight := fun _ _ => 1 }
  inProjB := { weight := fun _ _ => 1 }
  inProjA := { weight := fun _ _ => 1 }
  outProj := { weight := fun _ _ => 1 }
  convWeight := fun _ _ => 1
  dtBias := fun _ => 0
  aLog := fun _ => 0
  normWeight := fun _ => 1

/-- Two tokens come through one by one and not in one call. -/
theorem oneColumn_not_chunkInvariant :
    (plain oneColumn).forward [fun _ => 1, fun _ => 1] ⟨fun _ _ _ => 0, Ring.zero⟩ = none ∧
      ((plain oneColumn).calls [[fun _ => 1], [fun _ => 1]] ⟨fun _ _ _ => 0, Ring.zero⟩).isSome ∧
      ¬ (plain oneColumn).ChunkInvariant [fun _ => 1, fun _ => 1] ⟨fun _ _ _ => 0, Ring.zero⟩ := by
  refine ⟨rfl, rfl, ?_⟩
  rintro ⟨result, hone, -⟩
  cases hone

/-- The same layer with a ring. -/
theorem twoColumns_chunkInvariant :
    (plain { oneColumn with convKernel := 2, convKernel_pos := Nat.two_pos }).ChunkInvariant
      [fun _ => 1, fun _ => 1] ⟨fun _ _ _ => 0, Ring.zero⟩ :=
  (chunkInvariant_iff _ (List.cons_ne_nil _ _) _).mpr (.inl (Nat.le_refl 2))

end GatedDeltaNet

end FreeToken
