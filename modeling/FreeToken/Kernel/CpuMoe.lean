import Mathlib.Algebra.BigOperators.Group.Finset.Basic
import Mathlib.Algebra.Ring.Defs

/-!
# The CPU kernel of the experts

`kernel/csrc/cpu_moe/cpu_moe.cpp`, the `float` paths, in exact arithmetic: a buffer is a
function of the index, a pointer into it an offset, and `silu` is any function. The host is
known by what it answers to `hardware_concurrency` and to the probe for AVX-512. A worker
thread writes its own buffer only, and the others read what nobody writes, so the workers are
run one after the other.
-/

namespace FreeToken.CpuMoe

variable {K : Type} [Semiring K]

/-- What the process runs on. -/
structure Host where
  hardwareConcurrency : Nat
  avx512Available : Bool

/-- The arguments of the core loops. -/
structure CoreArgs (K : Type) where
  x : Nat → K
  numTokens : Nat
  hidden : Nat
  expertIds : Nat → Int
  expertWeights : Nat → K
  topk : Nat
  gateUp : Nat → K
  down : Nat → K
  numExperts : Nat
  intermediate : Nat
  expertMask : Option (Nat → UInt8)

namespace CoreArgs

variable (a : CoreArgs K)

/-- `expert_mask != nullptr && expert_mask[e] == 0`. -/
def masked (e : Nat) : Bool := a.expertMask.any fun mask => mask e == 0

/-- `num_tokens * H`. -/
def outElems : Nat := a.numTokens * a.hidden

def xRow (t : Nat) : Nat → K := fun h => a.x (t * a.hidden + h)

def gateUpExpertStride : Nat := 2 * a.intermediate * a.hidden

def downExpertStride : Nat := a.hidden * a.intermediate

def gateW (e : Nat) : Nat → K := fun i => a.gateUp (e * a.gateUpExpertStride + i)

def upW (e : Nat) : Nat → K := fun i =>
  a.gateUp (e * a.gateUpExpertStride + a.intermediate * a.hidden + i)

def downE (e : Nat) : Nat → K := fun i => a.down (e * a.downExpertStride + i)

end CoreArgs

/-- `memset(out, 0, n)`. -/
def memset (n : Nat) (out : Nat → K) : Nat → K := fun i => if i < n then 0 else out i

/-! ### The reference -/

/-- `moe_forward_core`. -/
def moeForwardCore (silu : K → K) (a : CoreArgs K) (out : Nat → K) : Nat → K :=
  (List.range a.numExperts).foldl (fun out e =>
    if a.masked e then out
    else (List.range a.topk).foldl (fun out j =>
      (List.range a.numTokens).foldl (fun out t =>
        if a.expertIds (t * a.topk + j) ≠ (e : Int) then out
        else
          let gate := fun i => (List.range a.hidden).foldl
            (fun acc h => acc + a.xRow t h * a.gateW e (i * a.hidden + h)) 0
          let up := fun i => (List.range a.hidden).foldl
            (fun acc h => acc + a.xRow t h * a.upW e (i * a.hidden + h)) 0
          let act := fun i => silu (gate i) * up i
          let w := a.expertWeights (t * a.topk + j)
          (List.range a.hidden).foldl (fun out o =>
            let acc := (List.range a.intermediate).foldl
              (fun acc i => acc + act i * a.downE e (o * a.intermediate + i)) 0
            Function.update out (t * a.hidden + o) (out (t * a.hidden + o) + w * acc)) out)
        out) out) (memset a.outElems out)

/-! ### The rows of the fast path -/

/-- The dot product of `row_compute_scalar`. -/
def dotScalar (a b : Nat → K) (n : Nat) : K :=
  (List.range n).foldl (fun acc i => acc + a i * b i) 0

/-- The sixteen lanes of `acc`, after `q` passes of the vector loop. -/
def avx512Lanes (a b : Nat → K) (q : Nat) : Nat → K :=
  (List.range q).foldl (fun acc k l => a (k * 16 + l) * b (k * 16 + l) + acc l) fun _ => 0

/-- `dot_avx512`. -/
def dotAvx512 (a b : Nat → K) (n : Nat) : K :=
  let acc := avx512Lanes a b (n / 16)
  -- `_mm512_reduce_add_ps`
  let sum := (List.range 16).foldl (fun sum l => sum + acc l) 0
  (List.range (n % 16)).foldl
    (fun sum i => sum + a (n / 16 * 16 + i) * b (n / 16 * 16 + i)) sum

/-- `RowComputeFn`: `x_row`, `gate_w`, `up_w`, `down_e`, `H`, `I`, `w`, `out_row`, and the
buffer that `out_row` points into. -/
abbrev RowComputeFn (K : Type) :=
  (Nat → K) → (Nat → K) → (Nat → K) → (Nat → K) → Nat → Nat → K → Nat → (Nat → K) → Nat → K

/-- A row, by its dot product. -/
def rowCompute (dot : (Nat → K) → (Nat → K) → Nat → K) (silu : K → K) : RowComputeFn K :=
  fun xRow gateW upW downE H I w outRow out =>
    let gate := fun i => dot xRow (fun h => gateW (i * H + h)) H
    let up := fun i => dot xRow (fun h => upW (i * H + h)) H
    let act := fun i => silu (gate i) * up i
    (List.range H).foldl (fun out o =>
      Function.update out (outRow + o)
        (out (outRow + o) + w * dot act (fun i => downE (o * I + i)) I)) out

/-- `row_compute_scalar`. -/
def rowComputeScalar (silu : K → K) : RowComputeFn K := rowCompute dotScalar silu

/-- `row_compute_avx512`. -/
def rowComputeAvx512 (silu : K → K) : RowComputeFn K := rowCompute dotAvx512 silu

def selectRowCompute (host : Host) (silu : K → K) (forceScalar : Bool) : RowComputeFn K :=
  if !forceScalar && host.avx512Available then rowComputeAvx512 silu else rowComputeScalar silu

/-! ### The fast path -/

/-- `moe_forward_expert_range`. -/
def moeForwardExpertRange (a : CoreArgs K) (expertBegin expertEnd : Nat)
    (rowFn : RowComputeFn K) (out : Nat → K) : Nat → K :=
  (List.range' expertBegin (expertEnd - expertBegin)).foldl (fun out e =>
    if a.masked e then out
    else (List.range a.topk).foldl (fun out j =>
      (List.range a.numTokens).foldl (fun out t =>
        if a.expertIds (t * a.topk + j) ≠ (e : Int) then out
        else rowFn (a.xRow t) (a.gateW e) (a.upW e) (a.downE e) a.hidden a.intermediate
          (a.expertWeights (t * a.topk + j)) (t * a.hidden) out)
        out) out) out

/-- `threads`, clamped. -/
def clampThreads (host : Host) (numThreads : Int) (numExperts : Nat) : Nat :=
  let threads :=
    if numThreads ≤ 0 then
      if 0 < host.hardwareConcurrency then (host.hardwareConcurrency : Int) else 1
    else numThreads
  let threads := if (numExperts : Int) < threads then (numExperts : Int) else threads
  (if threads < 1 then 1 else threads).toNat

/-- `begin` and the pairs `(begin, end)` after the first `p` passes of the partition loop. -/
def partitionLoop (numExperts threads : Nat) (p : Nat) : Nat × List (Nat × Nat) :=
  (List.range p).foldl (fun st p =>
    let count := numExperts / threads + if p < numExperts % threads then 1 else 0
    let stop := st.1 + count
    (stop, st.2 ++ [(st.1, stop)])) (0, [])

/-- The private buffer of a worker, once it is joined. -/
def partialOut (a : CoreArgs K) (rowFn : RowComputeFn K) (range : Nat × Nat) : Nat → K :=
  if range.2 ≤ range.1 then fun _ => 0
  else moeForwardExpertRange a range.1 range.2 rowFn fun _ => 0

/-- `moe_forward_core_fast`. -/
def moeForwardCoreFast (host : Host) (silu : K → K) (numThreads : Int) (forceScalar : Bool)
    (a : CoreArgs K) (out : Nat → K) : Nat → K :=
  let out := memset a.outElems out
  let rowFn := selectRowCompute host silu forceScalar
  let threads := clampThreads host numThreads a.numExperts
  if threads ≤ 1 then moeForwardExpertRange a 0 a.numExperts rowFn out
  else
    let partials := (partitionLoop a.numExperts threads threads).2.map (partialOut a rowFn)
    partials.foldl (fun out part =>
      (List.range a.outElems).foldl (fun out idx =>
        Function.update out idx (out idx + part idx)) out) out

/-! ### The entry points -/

/-- The arguments of an entry point; `none` is `nullptr`. -/
structure EntryArgs (K : Type) where
  x : Option (Nat → K)
  numTokens : Int
  hidden : Int
  expertIds : Option (Nat → Int)
  expertWeights : Option (Nat → K)
  topk : Int
  gateUp : Option (Nat → K)
  down : Option (Nat → K)
  numExperts : Int
  intermediate : Int
  expertMask : Option (Nat → UInt8)

/-- The checks of an entry point, then its core: the return code and `out`. -/
def entry (core : CoreArgs K → (Nat → K) → Nat → K) (a : EntryArgs K)
    (out : Option (Nat → K)) : Int × Option (Nat → K) :=
  match a.x, a.expertIds, a.expertWeights, a.gateUp, a.down, out with
  | some x, some expertIds, some expertWeights, some gateUp, some down, some out =>
      if a.numTokens < 0 ∨ a.hidden ≤ 0 ∨ a.topk < 0 ∨ a.numExperts < 0 ∨
          a.intermediate ≤ 0 then (-2, some out)
      else if a.numTokens = 0 ∨ a.topk = 0 ∨ a.numExperts = 0 then
        (0, some (memset (a.numTokens.toNat * a.hidden.toNat) out))
      else (0, some (core
        { x, expertIds, expertWeights, gateUp, down
          numTokens := a.numTokens.toNat
          hidden := a.hidden.toNat
          topk := a.topk.toNat
          numExperts := a.numExperts.toNat
          intermediate := a.intermediate.toNat
          expertMask := a.expertMask } out))
  | _, _, _, _, _, _ => (-1, out)

/-- `freetoken_cpu_moe_forward`. -/
def freetokenCpuMoeForward (silu : K → K) (a : EntryArgs K) (out : Option (Nat → K)) :
    Int × Option (Nat → K) :=
  entry (moeForwardCore silu) a out

/-- `freetoken_cpu_moe_forward_fast`. -/
def freetokenCpuMoeForwardFast (host : Host) (silu : K → K) (numThreads : Int)
    (forceScalar : Int) (a : EntryArgs K) (out : Option (Nat → K)) : Int × Option (Nat → K) :=
  entry (moeForwardCoreFast host silu numThreads (forceScalar ≠ 0)) a out

end FreeToken.CpuMoe
