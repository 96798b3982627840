import FreeToken.Attention.Triton
import FreeToken.Lib.Scatter

/-!
# The SYCL attention

`attention/sycl.py` and the two kernels of `kernel/csrc/sycl/attention.cpp`, in exact arithmetic. A
pointer is a function of the flat index. A launch is the list of the stores of its work-items: the
device may interleave them.
-/

namespace FreeToken

/-! ### The kernels -/

/-- The arguments of both entry points. -/
structure KernelArgs (K : Type) where
  q : Nat → K
  kCache : Nat → K
  vCache : Nat → K
  table : Nat → Int
  bs : Nat
  /-- `K`, the rows of a request in the table. -/
  tableDim : Nat
  qh : Nat
  kv : Nat
  d : Nat
  smScale : K
  slidingWindow : Int
  /-- `max_work_group_size` of the queue's device. -/
  maxWorkGroupSize : Nat

/-- `m`, `l` and `oacc`: the online softmax of every query head of a group. -/
structure HeadSums (K : Type) where
  m : Nat → K
  l : Nat → K
  oacc : Nat → K

variable {K : Type} [Field K]

/-- `-1e30f`, the logit of a masked key. -/
def maskedLogit : K := -((10 ^ 30 : Nat) : K)

namespace HeadSums

def init : HeadSums K where
  m := fun _ => maskedLogit
  l := fun _ => 0
  oacc := fun _ => 0

/-- A key with the logit `s` for the head `i`. -/
def absorb [LinearOrder K] (exp : K → K) (d i : Nat) (s : K) (vrow : Nat → K) (sums : HeadSums K) :
    HeadSums K :=
  if sums.m i < s then
    let scale := exp (sums.m i - s)
    { m := Function.update sums.m i s
      l := Function.update sums.l i (sums.l i * scale + 1)
      oacc := fun j =>
        if i * d ≤ j ∧ j < i * d + d then sums.oacc j * scale + vrow (j - i * d) else sums.oacc j }
  else
    let w := if maskedLogit < s then exp (s - sums.m i) else 0
    { m := sums.m
      l := Function.update sums.l i (sums.l i + w)
      oacc := fun j =>
        if i * d ≤ j ∧ j < i * d + d then sums.oacc j + vrow (j - i * d) * w else sums.oacc j }

end HeadSums

namespace KernelArgs

/-- Query heads per kv head. -/
def g (a : KernelArgs K) : Nat := a.qh / a.kv

/-- `visible`. -/
def visible (a : KernelArgs K) (keypos qpos : Int) : Bool :=
  keypos ≤ qpos && (a.slidingWindow ≤ 0 || qpos - keypos < a.slidingWindow)

/-- `s`, for the query row `qrow` and the key at `kvRow`. -/
def logit (a : KernelArgs K) (keypos qpos : Int) (qrow kvRow : Nat) : K :=
  if a.visible keypos qpos then
    (∑ x ∈ Finset.range a.d, a.q (qrow * a.d + x) * a.kCache (kvRow + x)) * a.smScale
  else maskedLogit

/-- `slot * kv * d + hkv * d`, for the key in row `p` of the table. -/
def kvRow (a : KernelArgs K) (off stride hkv p : Nat) : Nat :=
  (a.table (off + p * stride)).toNat * a.kv * a.d + hkv * a.d

variable [LinearOrder K] (exp : K → K)

/-- The loop over the keys, for the query heads of a group, whose rows in `q` start at `qrow`. -/
def attendKeys (a : KernelArgs K) (off stride hkv : Nat) (kvLen qpos : Int) (qrow : Nat) :
    HeadSums K :=
  let newest := kvLen - 1
  (List.range kvLen.toNat).foldl (fun sums (p : Nat) =>
    let keypos := newest - (kvLen - 1 - p)
    let kvRow := a.kvRow off stride hkv p
    (List.range a.g).foldl (fun sums i =>
      sums.absorb exp a.d i (a.logit keypos qpos (qrow + i) kvRow) fun x => a.vCache (kvRow + x))
      sums) .init

/-- The stores of a group, into the rows from `orow` on. -/
def storeRows (a : KernelArgs K) (orow : Nat) (sums : HeadSums K) : List (Nat × K) :=
  (List.range a.g).flatMap fun i =>
    let inv := if 0 < sums.l i then 1 / sums.l i else 0
    (List.range a.d).map fun x => ((orow + i) * a.d + x, sums.oacc (i * a.d + x) * inv)

/-- A work-item of `decode_attention_impl`. -/
def decodeItem (a : KernelArgs K) (gid : Nat) : List (Nat × K) :=
  let b := gid / a.kv
  let hkv := gid % a.kv
  let tbase := b * a.tableDim * 3
  let kvLen := a.table (tbase + 1)
  let qpos := a.table (tbase + 2)
  let row := b * a.qh + hkv * a.g
  a.storeRows row (a.attendKeys exp tbase 3 hkv kvLen qpos row)

/-- A work-item of `prefill_attention_impl`. -/
def prefillItem (a : KernelArgs K) (gid : Nat) : List (Nat × K) :=
  let b := gid / a.kv
  let hkv := gid % a.kv
  let off := b * a.tableDim * 5
  let extb := a.table (off + 3)
  let baseQ := a.table (off + 4)
  let kvLen := a.table (off + 1)
  let qpos0 := a.table (off + 2)
  (List.range extb.toNat).flatMap fun (t : Nat) =>
    let row := (baseQ + t).toNat * a.qh + hkv * a.g
    a.storeRows row (a.attendKeys exp off 5 hkv kvLen (qpos0 + t) row)

/-- The arrays of a work-item are fixed, `m[64]`, `l[64]` and `oacc[64 * 256]`: beyond them the
kernel has no meaning, as with no kv head to divide by. All `bs * kv` work-items are one work-group,
the local range being the global one, and the device refuses more than it can group. -/
def Launches (a : KernelArgs K) : Prop :=
  0 < a.kv ∧ a.g ≤ 64 ∧ a.g * a.d ≤ 64 * 256 ∧ a.bs * a.kv ≤ a.maxWorkGroupSize

instance (a : KernelArgs K) : Decidable a.Launches := inferInstanceAs (Decidable (_ ∧ _))

/-- A launch over `bs * kv` work-items. -/
def launch (a : KernelArgs K) (item : Nat → List (Nat × K)) : Option (List (Nat × K)) :=
  if a.bs = 0 then some []
  else if a.Launches then some ((List.range (a.bs * a.kv)).flatMap item)
  else none

/-- `decode_attention`. -/
def decodeAttention (a : KernelArgs K) : Option (List (Nat × K)) := a.launch (a.decodeItem exp)

/-- `prefill_attention`. -/
def prefillAttention (a : KernelArgs K) : Option (List (Nat × K)) := a.launch (a.prefillItem exp)

end KernelArgs

/-! ### The tables -/

/-- The rows of one request in a table, `[K, stride]`: `header` is its row 0 from column 1 on, and
the key slots are column 0 from row 0 on. -/
structure TableRows where
  header : List Int
  slots : List Slot
deriving DecidableEq, Repr

namespace TableRows

/-- `3` for a decode, `5` for a prefill. -/
def stride (rows : TableRows) : Nat := rows.header.length + 1

/-- The entries as the kernel reads them. -/
def pointer (rows : TableRows) (i : Nat) : Int :=
  let row := i / rows.stride
  let col := i % rows.stride
  if col = 0 then (rows.slots.getD row 0 : Nat)
  else if row = 0 then rows.header.getD (col - 1) 0 else 0

end TableRows

/-- `SyclMetadata`: one entry for each request. -/
structure SyclMetadata where
  decode : Option (List TableRows)
  prefill : Option (List TableRows)
deriving DecidableEq, Repr

/-- `SyclAttentionBackend`: `_kv_num_slots`, and a limit of the device that it launches on. -/
structure SyclAttentionBackend where
  kvNumSlots : Nat
  maxWorkGroupSize : Nat
deriving DecidableEq, Repr

/-- `one_row`. -/
def SyclMetadata.oneRow (metadata : SyclMetadata) (batch : AttnBatch) (tableIdx : Nat) :
    Option TableRows :=
  let table := if batch.phase = .decode then metadata.decode else metadata.prefill
  let table := table.orElse fun _ =>
    if metadata.prefill = none then metadata.decode else metadata.prefill
  (batch.locate tableIdx).bind fun found => table.bind fun rows => rows[found.1]?

namespace SyclAttentionBackend

/-- `gbase`: the token offsets of the requests. -/
def gbase (exts : List Nat) : List Nat := exts.dropLast.scanl (· + ·) 0

/-- The rows of one request. An assignment beyond the `K` rows of a table is an error, and so is a
read beyond the columns of the page table. -/
def requestRows (self : SyclAttentionBackend) (pool : KVPool K) (req : Req) (kvLen : Int)
    (header : List Int) : Option TableRows :=
  if 0 < self.kvNumSlots ∧ 0 ≤ kvLen ∧ kvLen.toNat ≤ self.kvNumSlots then
    (pool.pageSlots req.tableIdx kvLen.toNat).map fun slots => { header := header, slots := slots }
  else none

/-- One request of `_build_metadata`: its offset and its new tokens. -/
def buildRows (self : SyclAttentionBackend) (pool : KVPool K) (batch : AttnBatch) (req : Req)
    (gbase ext : Nat) : Option TableRows :=
  batch.positions[gbase]?.bind fun qpos =>
    if batch.phase = .decode then
      let kvLen : Int := req.deviceLen
      self.requestRows pool req kvLen [kvLen, qpos]
    else
      let kvLen := req.cachedLen + ext
      self.requestRows pool req kvLen [kvLen, qpos, ext, 0]

/-- `_build_metadata`. -/
def buildMetadata (self : SyclAttentionBackend) (pool : KVPool K) (batch : AttnBatch) :
    Option SyclMetadata :=
  let exts := batch.extendLens
  let table := batch.reqs.zipIdx.mapM fun (req, b) =>
    (gbase exts)[b]?.bind fun base => exts[b]?.bind fun ext =>
      self.buildRows pool batch req base ext
  table.map fun rows =>
    let table := if rows = [] then none else some rows
    if batch.phase = .decode then { decode := table, prefill := none }
    else { decode := none, prefill := table }

/-- The arguments of the launch of `forward`: `q_tok` is token-major. -/
def launchArgs (self : SyclAttentionBackend) (invSqrt : Nat → K) (pool : KVPool K) (q : Queries K)
    (numKv : Nat) (attnSpec : Option (AttentionSpec K)) (oneRow : TableRows) : KernelArgs K where
  q := fun i => q.at' (i / q.headDim % q.heads) (i / q.headDim / q.heads) (i % q.headDim)
  kCache := pool.kBuffer
  vCache := pool.vBuffer
  table := oneRow.pointer
  bs := 1
  tableDim := self.kvNumSlots
  qh := q.heads
  kv := numKv
  d := q.headDim
  smScale := (attnSpec.bind fun spec => spec.smScale).getD (invSqrt q.headDim)
  slidingWindow := attnWindow attnSpec
  maxWorkGroupSize := self.maxWorkGroupSize

variable [LinearOrder K] (exp : K → K)

/-- The launch of `forward`, for one request. -/
def launch (self : SyclAttentionBackend) (invSqrt : Nat → K) (pool : KVPool K) (q : Queries K)
    (numKv : Nat) (phase : Phase) (attnSpec : Option (AttentionSpec K)) (oneRow : TableRows) :
    Option (List (Nat × K)) :=
  let args := self.launchArgs invSqrt pool q numKv attnSpec oneRow
  if phase = .decode then args.decodeAttention exp else args.prefillAttention exp

/-- `forward` on the tables of `prepare_metadata`: the stores of its launch. -/
def forward (self : SyclAttentionBackend) (metadata : SyclMetadata) (invSqrt : Nat → K)
    (pool : KVPool K) (q : Queries K) (numKv : Nat) (batch : AttnBatch)
    (attnSpec : Option (AttentionSpec K)) (tableIdx : Nat) : Option (List (Nat × K)) :=
  let table := if batch.phase = .decode then metadata.decode else metadata.prefill
  let table := table.orElse fun _ =>
    if metadata.prefill = none then metadata.decode else metadata.prefill
  (batch.locate tableIdx).bind fun found =>
    (table.bind fun rows => rows[found.1]?).bind fun oneRow =>
      self.launch exp invSqrt pool q numKv batch.phase attnSpec oneRow

end SyclAttentionBackend

/-- `out.transpose(0, 1)`, where `out` was zeros before the stores. -/
def readOut (q : Queries K) (stores : List (Nat × K)) (head token x : Nat) : K :=
  Assign.written (fun _ => 0) stores ((token * q.heads + head) * q.headDim + x)

end FreeToken
