import FreeToken.Lib.CausalModel
import FreeToken.Lib.Scatter

/-!
# Layered models

In a layered model every layer keeps a value for each position, and takes a hidden state on by
what it keeps of the positions up to its own. A share of a sequence is run layer by layer: a layer
first puts the values of all of its tokens into the memory, and then takes each of them on. As
long as no position of the share has the place of an earlier one, this is what the tokens give one
after the other.
-/

structure LayeredModel (Tok H KV : Type) where
  numLayers : Nat
  embed : Tok → H
  /-- What a layer keeps of a hidden state at a position. -/
  project : Nat → Nat → H → KV
  /-- The hidden state after a layer, from what the layer keeps of the positions up to this one. -/
  attend : Nat → Nat → H → List KV → H
  head : H → Tok

namespace LayeredModel

/-- What the layers keep of a token, and its last hidden state. -/
structure Value (H KV : Type) where
  kept : Nat → KV
  hidden : H

variable {Tok H KV S : Type} (m : LayeredModel Tok H KV)

/-- A memory, layer by layer. -/
def keptOf (mem : S → Value H KV) (l : Nat) (s : S) : KV := (mem s).kept l

/-- The hidden state of a token after the first layers. -/
def hidden (past : List (Value H KV)) (tok : Tok) : Nat → H
  | 0 => m.embed tok
  | l + 1 =>
      let h := hidden past tok l
      m.attend l past.length h
        (past.map (fun v => v.kept l) ++ [m.project l past.length h])

/-- Token by token. -/
def causal [Inhabited Tok] : CausalModel Tok (Value H KV) where
  value past tok :=
    { kept := fun l => m.project l past.length (m.hidden past tok l)
      hidden := m.hidden past tok m.numLayers }
  next vs := (vs.getLast?.map fun v => m.head v.hidden).getD default

section

variable [DecidableEq S] (row : Nat → S) (start : Nat)

/-- A layer over the hidden states of a share. -/
def runLayer (l : Nat) (mem : S → KV) (hs : List H) : (S → KV) × List H :=
  let written := Assign.written mem
    ((hs.zipIdx start).map fun x => (row x.2, m.project l x.2 x.1))
  (written, (hs.zipIdx start).map fun x =>
    m.attend l x.2 x.1 (CausalModel.read row written (x.2 + 1)))

/-- The first layers over the tokens of a share. -/
def runLayers (toks : List Tok) (mem : Nat → S → KV) : Nat → (Nat → S → KV) × List H
  | 0 => (mem, toks.map m.embed)
  | l + 1 =>
      let res := runLayers toks mem l
      let out := m.runLayer row start l (res.1 l) res.2
      (Function.update res.1 l out.1, out.2)

end

end LayeredModel

/-! ## Token by token -/

namespace CausalModel

variable {Tok V S : Type} {m : CausalModel Tok V}

/-- No position of the share has the place of an earlier one. -/
def Share.Fresh (x : Share Tok S) : Prop :=
  ∀ p, x.start ≤ p → p < x.stop → ∀ j < p, x.row j ≠ x.row p

@[simp] theorem length_read (row : Nat → S) (mem : S → V) (n : Nat) :
    (read row mem n).length = n := by
  simp [read]

theorem read_succ (row : Nat → S) (mem : S → V) (n : Nat) :
    read row mem (n + 1) = read row mem n ++ [mem (row n)] := by
  simp [read, List.range_succ]

theorem map_read {W : Type} (f : V → W) (row : Nat → S) (mem : S → V) (n : Nat) :
    (read row mem n).map f = read row (fun s => f (mem s)) n := by
  simp [read]

theorem read_congr {row : Nat → S} {mem mem' : S → V} {n : Nat}
    (h : ∀ j < n, mem' (row j) = mem (row j)) : read row mem' n = read row mem n :=
  List.map_congr_left fun j hj => h j (List.mem_range.mp hj)

variable [DecidableEq S]

/-- What a write leaves at a position: the value of its token after what the row holds before. -/
theorem write_row {row : Nat → S} : ∀ {toks : List Tok} {mem : S → V} {start i : Nat} {tok : Tok},
    (∀ p, start ≤ p → p < start + toks.length → ∀ j < p, row j ≠ row p) → toks[i]? = some tok →
    m.write row mem start toks (row (start + i)) =
      m.value (read row (m.write row mem start toks) (start + i)) tok
  | first :: toks, mem, start, i, tok, hfresh, hi => by
      rw [List.length_cons] at hfresh
      have hrest : ∀ p, start + 1 ≤ p → p < start + 1 + toks.length → ∀ j < p, row j ≠ row p :=
        fun p hp hlt => hfresh p (by omega) (by omega)
      cases i with
      | zero =>
          simp only [List.getElem?_cons_zero, Option.some.injEq] at hi
          subst hi
          have hkeep : ∀ j ≤ start, m.write row mem start (first :: toks) (row j) =
              Function.update mem (row start) (m.value (read row mem start) first) (row j) :=
            fun j hj => write_of_notMem fun p hp hlt => (hrest p hp hlt j (by omega)).symm
          have hbefore : read row (m.write row mem start (first :: toks)) start =
              read row mem start := read_congr fun j hj => by
            rw [hkeep j hj.le, Function.update_of_ne (hfresh start (Nat.le_refl _) (by omega) j hj)]
          rw [Nat.add_zero, hbefore, hkeep start (Nat.le_refl _), Function.update_self]
      | succ i =>
          have hstart : start + (i + 1) = start + 1 + i := by omega
          rw [write, hstart]
          exact write_row hrest (by simpa using hi)

end CausalModel

namespace LayeredModel

open CausalModel

variable {Tok H KV S : Type} [Inhabited Tok] [DecidableEq S] {m : LayeredModel Tok H KV}
  {x : Share Tok S} {mem : S → Value H KV}

omit [DecidableEq S] in
@[simp] theorem kept_value (past : List (Value H KV)) (tok : Tok) (l : Nat) :
    (m.causal.value past tok).kept l = m.project l past.length (m.hidden past tok l) := rfl

omit [Inhabited Tok] in
@[simp] theorem length_runLayers (row : Nat → S) (start : Nat) (toks : List Tok)
    (mem : Nat → S → KV) (l : Nat) : (m.runLayers row start toks mem l).2.length = toks.length := by
  induction l with
  | zero => simp [runLayers]
  | succ l ih => simp [runLayers, runLayer, ih]

omit [Inhabited Tok] in
/-- A layer reads the places of its row, and the others do not count. -/
theorem runLayer_congr {valid : S → Prop} {row : Nat → S} {start l : Nat} {mem mem' : S → KV}
    {hs : List H} (hmem : ∀ s, valid s → mem s = mem' s)
    (hrow : ∀ p < start + hs.length, valid (row p)) :
    (m.runLayer row start l mem hs).2 = (m.runLayer row start l mem' hs).2 ∧
      ∀ s, valid s → (m.runLayer row start l mem hs).1 s = (m.runLayer row start l mem' hs).1 s := by
  have hwritten : ∀ s, valid s →
      (m.runLayer row start l mem hs).1 s = (m.runLayer row start l mem' hs).1 s :=
    fun s hs => Assign.written_congr (hmem s hs)
  refine ⟨List.map_congr_left fun x hx => ?_, hwritten⟩
  have hlt := List.snd_lt_add_of_mem_zipIdx hx
  congr 1
  exact read_congr fun j hj => hwritten _ (hrow j (by omega))

omit [DecidableEq S] in
/-- The token that follows the last one of a share. -/
theorem next_read (row : Nat → S) (mem : S → Value H KV) (n : Nat) :
    m.causal.next (read row mem (n + 1)) = m.head (mem (row n)).hidden := by
  simp [causal, read_succ]

/-- The memory of a layer after it has put the values of a share into it. -/
theorem runLayer_written {l : Nat} {hs : List H} {layerMem : S → KV}
    (hlen : hs.length = x.toks.length) (hmem : ∀ s, layerMem s = (mem s).kept l)
    (hproject : ∀ i h, hs[i]? = some h → (m.causal.write x.row mem x.start x.toks
      (x.row (x.start + i))).kept l = m.project l (x.start + i) h) :
    (m.runLayer x.row x.start l layerMem hs).1 =
      fun s => (m.causal.write x.row mem x.start x.toks s).kept l := by
  have hassigned : ∀ a ∈ (hs.zipIdx x.start).map (fun a => (x.row a.2, m.project l a.2 a.1)),
      a.2 = (m.causal.write x.row mem x.start x.toks a.1).kept l := by
    intro a ha
    rcases List.mem_map.mp ha with ⟨⟨h, p⟩, hzip, rfl⟩
    rcases List.mk_mem_zipIdx_iff_le_and_getElem?_sub.mp hzip with ⟨hle, hget⟩
    have hp := hproject _ _ hget
    rw [Nat.add_sub_cancel' hle] at hp
    exact hp.symm
  funext s
  by_cases hs' : s ∈ ((hs.zipIdx x.start).map
      fun a => (x.row a.2, m.project l a.2 a.1)).map Prod.fst
  · exact Assign.written_eq (fun a ha heq => heq ▸ hassigned a ha) hs' _
  · refine Assign.written_keep (fun a ha heq => heq ▸ hassigned a ha) ?_
    rw [hmem, write_of_notMem]
    intro p hp hlt heq
    apply hs'
    rw [List.map_map]
    have hi : p - x.start < hs.length := by omega
    refine List.mem_map.mpr ⟨(hs[p - x.start], p), ?_, heq⟩
    rw [List.mk_mem_zipIdx_iff_le_and_getElem?_sub]
    exact ⟨hp, List.getElem?_eq_getElem hi⟩

/-- Layer by layer is token by token: the hidden states after the first layers, and what these
layers keep. -/
theorem runLayers_eq (hfresh : x.Fresh) (mem : S → Value H KV) (l : Nat) :
    let written := m.causal.write x.row mem x.start x.toks
    (m.runLayers x.row x.start x.toks (keptOf mem) l).2 = (x.toks.zipIdx x.start).map
      (fun a => m.hidden (read x.row written a.2) a.1 l) ∧
    ∀ l' s, (m.runLayers x.row x.start x.toks (keptOf mem) l).1 l' s =
      if l' < l then (written s).kept l' else (mem s).kept l' := by
  intro written
  have hvalue : ∀ {i tok}, x.toks[i]? = some tok → written (x.row (x.start + i)) =
      m.causal.value (read x.row written (x.start + i)) tok := fun hi => write_row hfresh hi
  induction l with
  | zero =>
      refine ⟨?_, fun l' s => ?_⟩
      · refine List.ext_getElem? fun i => ?_
        simp only [runLayers, hidden, List.getElem?_map, List.getElem?_zipIdx, Option.map_map]
        rfl
      · rw [if_neg (Nat.not_lt_zero l')]
        rfl
  | succ l ih =>
      obtain ⟨hhidden, hkept⟩ := ih
      have hwritten : (m.runLayer x.row x.start l ((m.runLayers x.row x.start x.toks (keptOf mem) l).1 l)
          (m.runLayers x.row x.start x.toks (keptOf mem) l).2).1 = fun s => (written s).kept l := by
        have hmem : ∀ s, (m.runLayers x.row x.start x.toks (keptOf mem) l).1 l s = (mem s).kept l :=
          fun s => by rw [hkept, if_neg (Nat.lt_irrefl l)]
        refine runLayer_written (length_runLayers _ _ _ _ l) hmem fun i h hi => ?_
        rw [hhidden, List.getElem?_map, List.getElem?_zipIdx, Option.map_map] at hi
        rcases Option.map_eq_some_iff.mp hi with ⟨tok, htok, rfl⟩
        change (written (x.row (x.start + i))).kept l = _
        rw [hvalue htok, kept_value, length_read]
        rfl
      refine ⟨?_, fun l' s => ?_⟩
      · have hout : (m.runLayers x.row x.start x.toks (keptOf mem) (l + 1)).2 =
            ((m.runLayers x.row x.start x.toks (keptOf mem) l).2.zipIdx x.start).map fun a =>
              m.attend l a.2 a.1 (read x.row (fun s => (written s).kept l) (a.2 + 1)) := by
          rw [← hwritten]
          rfl
        rw [hout, hhidden]
        refine List.ext_getElem? fun i => ?_
        simp only [List.getElem?_map, List.getElem?_zipIdx, Option.map_map]
        cases htok : x.toks[i]? with
        | none => rfl
        | some tok =>
            simp only [Option.map_some, Function.comp_apply, Option.some.injEq]
            rw [read_succ, hvalue htok, ← map_read fun v : Value H KV => v.kept l]
            simp [hidden]
      · simp only [runLayers, hwritten, Function.update_apply]
        by_cases hl : l' = l
        · rw [if_pos hl, if_pos (by omega), hl]
        · rw [if_neg hl, hkept]
          exact if_congr (by omega) rfl rfl

/-- What the layers keep after a share, and the token that follows it. -/
theorem runLayers_share (hfresh : x.Fresh) (mem : S → Value H KV) (hne : x.toks ≠ []) :
    let res := m.runLayers x.row x.start x.toks (keptOf mem) m.numLayers
    let written := m.causal.write x.row mem x.start x.toks
    (∀ l < m.numLayers, ∀ s, res.1 l s = (written s).kept l) ∧
    (res.2.getLast?.map m.head) = some (m.causal.next (read x.row written x.stop)) := by
  intro res written
  rcases runLayers_eq hfresh mem m.numLayers with ⟨hhidden, hkept⟩
  refine ⟨fun l hl s => (hkept l s).trans (if_pos hl), ?_⟩
  have hpos : 0 < x.toks.length := List.length_pos_of_ne_nil hne
  have hstop : x.stop = x.start + (x.toks.length - 1) + 1 := by
    rw [Share.stop]
    omega
  have hlast : x.toks[x.toks.length - 1]? = some x.toks[x.toks.length - 1] :=
    List.getElem?_eq_getElem (by omega)
  have hwritten : written (x.row (x.start + (x.toks.length - 1))) = _ := write_row hfresh hlast
  rw [hstop, next_read, hwritten, hhidden, List.getLast?_map, List.getLast?_eq_getElem?,
    List.getElem?_zipIdx, List.length_zipIdx, hlast]
  rfl

end LayeredModel
