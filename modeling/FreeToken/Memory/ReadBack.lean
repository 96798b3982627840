import FreeToken.Engine.Columns
import FreeToken.Lib.Scatter
import FreeToken.Memory.Sessions

/-!
# Reading back what was written

The layers of a model write the K/V of a request's new tokens, and `read_kv` reads a position through
the request's page-table row. A family that writes where the row says reads back what it wrote: the
slots of the positions that live requests have processed are all different. A family that writes
where the position says reads another position, since no row has slot 0.
-/

namespace FreeToken

/-- The model directories with an attention forward over the pool. -/
inductive ModelFamily where
  | qwen3
  | qwen2Moe
  | qwen3Moe
  | qwen35Moe
  | mellum
  | olmoe
  | lfm2Moe
  | deepseekV2Lite
  | deepseekV4
  | gptOss
  | glm4Moe
  | glmMoeDsa
  | qwen4Exp
deriving DecidableEq, Repr

/-- The third argument of the family's `write_kv` call: `out_loc`, as `page_table[table_idx,
positions]`, or the positions. -/
def ModelFamily.writeLoc : ModelFamily → WriteLoc
  | .qwen3 | .qwen2Moe | .qwen3Moe | .qwen35Moe | .mellum | .olmoe | .lfm2Moe
  | .deepseekV2Lite | .deepseekV4 => .pageTable
  | .gptOss | .glm4Moe | .glmMoeDsa | .qwen4Exp => .outLoc

/-- The K/V that the layers compute in a forward, by layer, row and position. -/
abbrev Computed (V : Type) : Type := Nat → Nat → Nat → V

/-- The `write_kv` call of a layer for the share of a request. -/
def Slice.writeKv {V : Type} (w : WriteLoc) (pageTable : Nat → Nat → Slot) (kv : Computed V)
    (layer : Nat) (s : Slice) : List (Slot × V) :=
  s.positions.map fun pos => (w.slot pageTable s.tableIdx pos, kv layer s.tableIdx pos)

/-- An engine with the buffers of its layers. -/
structure Layers (V : Type) where
  engine : Engine
  /-- The K/V of a layer in a slot. -/
  buffer : Nat → Slot → V
  /-- What the layers computed for the request at a row, as far as they did. -/
  computed : Computed (Option V) := fun _ _ _ => none

namespace Layers

variable {V : Type}

def init (config : EngineConfig) (buffer : Nat → Slot → V) : Layers V where
  engine := Engine.init config
  buffer := buffer

/-- `read_kv`. -/
def readKv (s : Layers V) (tableIdx pos layer : Nat) : V :=
  s.buffer layer (s.engine.pageTable tableIdx pos)

/-- What a call leaves behind: a request starts with nothing computed, and the forward of a step
writes its batch, layer by layer. -/
def see (w : WriteLoc) (kv : Computed V) (s : Layers V) (e : Engine) : Engine.Report → Layers V
  | .added (.ok p) =>
      { s with
        engine := e
        computed := fun layer row pos =>
          if row = p.tableIdx then none else s.computed layer row pos }
  | .stepped out =>
      { engine := e
        buffer := fun layer => Assign.written (s.buffer layer)
          (out.slices.flatMap (Slice.writeKv w s.engine.pageTable kv layer))
        computed := fun layer row pos =>
          if ∃ sl ∈ out.slices, sl.tableIdx = row ∧ pos ∈ sl.positions then some (kv layer row pos)
          else s.computed layer row pos }
  | _ => { s with engine := e }

/-- One call, with what the layers compute in its forward. -/
def next (w : WriteLoc) (s : Layers V) (a : Call × Computed V) : Option (Layers V) :=
  (s.engine.report a.1).map fun (report, e) => s.see w a.2 e report

/-- Every live request reads back what the layers computed for it. -/
def ReadsOwn (s : Layers V) : Prop :=
  ∀ seat ∈ s.engine.scheduler.seats, ∀ layer pos v, s.computed layer seat.row pos = some v →
    s.readKv seat.row pos layer = v

/-- The call queues no request, or returns it with its slots. -/
def Installs (s : Layers V) (a : Call × Computed V) : Prop := s.engine.Installs a.1

instance (s : Layers V) (a : Call × Computed V) : Decidable (s.Installs a) :=
  inferInstanceAs (Decidable (s.engine.Installs a.1))

end Layers

namespace Engine.StepRun

variable {V : Type} {e e' : Engine} {t : Transcript} {orphans : List RadixCacheHandle}
  {lost : List Slot} {sampled : Nat → Token} {out : StepOutput} {s1 : Scheduler} {e2 : Engine}
  {kv : Computed V} {layer : Nat} {buffer : Slot → V}

variable (h : StepRun e sampled out e' s1 e2) (ho : Ownership e t orphans lost)
include h ho

/-- A position of the batch is written into its own slot. -/
theorem store_eq {store : Slot × V}
    (hstore : store ∈ out.slices.flatMap (Slice.writeKv .pageTable e.pageTable kv layer))
    {y : Live} (hy : y ∈ e.lives t) {j : Nat} (hj : j < e.config.maxSeqLen)
    (heq : store.1 = e.pageTable y.seat.row j) :
    (∃ s ∈ out.slices, s.tableIdx = y.seat.row ∧ j ∈ s.positions) ∧
      store.2 = kv layer y.seat.row j := by
  obtain ⟨s, hmem, hstore⟩ := List.mem_flatMap.mp hstore
  obtain ⟨p, hp, rfl⟩ := List.mem_map.mp hstore
  have hrange := List.mem_range'_1.mp hp
  have hsame : s.tableIdx = y.seat.row ∧ p = j := by
    by_contra hne
    exact h.write_ne_live ho hmem hrange.1 hrange.2 hy hj (not_and_or.mp hne) heq
  obtain ⟨hrow, rfl⟩ := hsame
  exact ⟨⟨s, hmem, hrow, hp⟩, by rw [hrow]⟩

/-- The positions of the batch are read back as they were computed. -/
theorem read_of_mem {s : Slice} (hmem : s ∈ out.slices) {y : Live} (hy : y ∈ e.lives t)
    (hrow : s.tableIdx = y.seat.row) {j : Nat} (hj : j ∈ s.positions) :
    j < e.config.maxSeqLen ∧
      Assign.written buffer (out.slices.flatMap (Slice.writeKv .pageTable e.pageTable kv layer))
        (e.pageTable y.seat.row j) = kv layer y.seat.row j := by
  have hmax : j < e.config.maxSeqLen :=
    Nat.lt_of_lt_of_le (List.mem_range'_1.mp hj).2 (h.placed ho hmem).stop_le
  refine ⟨hmax, Assign.written_eq (fun store hstore heq => (h.store_eq ho hstore hy hmax heq).2) ?_
    buffer⟩
  have hstore : (e.pageTable s.tableIdx j, kv layer s.tableIdx j) ∈
      s.writeKv .pageTable e.pageTable kv layer := List.mem_map.mpr ⟨j, hj, rfl⟩
  rw [← hrow]
  exact List.mem_map_of_mem (List.mem_flatMap.mpr ⟨s, hmem, hstore⟩)

/-- The others stay as they were. -/
theorem read_of_notMem {y : Live} (hy : y ∈ e.lives t) {j : Nat} (hj : j < e.config.maxSeqLen)
    (hnot : ¬ ∃ s ∈ out.slices, s.tableIdx = y.seat.row ∧ j ∈ s.positions) :
    Assign.written buffer (out.slices.flatMap (Slice.writeKv .pageTable e.pageTable kv layer))
      (e.pageTable y.seat.row j) = buffer (e.pageTable y.seat.row j) :=
  Assign.written_keep (fun _ hstore heq => absurd (h.store_eq ho hstore hy hj heq).1 hnot) rfl

end Engine.StepRun

namespace Layers

variable {V : Type} {s s' : Layers V}

/-- The live requests hold their slots and read back what was computed for them. -/
structure Sound (s : Layers V) : Prop where
  own : ∃ t orphans lost, s.engine.Ownership t orphans lost
  reads : ∀ seat ∈ s.engine.scheduler.seats, ∀ layer pos v, s.computed layer seat.row pos = some v →
    pos < s.engine.config.maxSeqLen ∧ s.readKv seat.row pos layer = v

theorem sound_init (config : EngineConfig) (buffer : Nat → Slot → V) : Sound (init config buffer) where
  own := ⟨fun _ => [], [], [], Engine.ownership_init config _⟩
  reads := fun _ h => by cases h

/-- The rows of requests that stay do not change. -/
theorem Sound.stay (h : Sound s) {e' : Engine} (hown : ∃ t orphans lost, e'.Ownership t orphans lost)
    (hconfig : e'.config = s.engine.config) {computed : Computed (Option V)}
    (hseats : ∀ seat ∈ e'.scheduler.seats, ∀ layer pos v, computed layer seat.row pos = some v →
      seat ∈ s.engine.scheduler.seats ∧ s.computed layer seat.row pos = some v ∧
        e'.pageTable seat.row = s.engine.pageTable seat.row) :
    Sound { s with engine := e', computed := computed } where
  own := hown
  reads seat hseat layer pos v hv := by
    obtain ⟨hmem, hcomputed, hrow⟩ := hseats seat hseat layer pos v hv
    obtain ⟨hlt, hread⟩ := h.reads seat hmem layer pos v hcomputed
    dsimp only [readKv]
    rw [hconfig, hrow]
    exact ⟨hlt, hread⟩

theorem Sound.added (h : Sound s) {args : AddArgs} {kv : Computed V} {res : Except EngineError PendingReq}
    {e' : Engine} (hadd : s.engine.addRequest args = (res, e'))
    (hi : s.engine.Installs (.addRequest args))
    (hown : ∃ t orphans lost, e'.Ownership t orphans lost) :
    Sound (s.see .pageTable kv e' (.added res)) := by
  obtain ⟨t, orphans, lost, ho⟩ := h.own
  cases res with
  | ok p =>
      obtain ⟨e3, k, hret⟩ := ho.books.returned hadd
      have hin := hret.queuedIn ho.books
      refine h.stay hown (by rw [hret.frame]) fun seat hseat layer pos v hv => ?_
      change (if seat.row = p.tableIdx then none else s.computed layer seat.row pos) = some v at hv
      split at hv
      · cases hv
      next hne =>
      rcases List.mem_cons.mp (hin.seats_perm.mem_iff.mp hseat) with rfl | hmem
      · exact absurd rfl hne
      · exact ⟨hmem, hv, by rw [hret.allocated.pageTable_eq _ hne, hret.queued.frame]⟩
  | error err =>
      rcases ho.add_cases hi with ⟨m, hm, hnot⟩ | ⟨p, e3, k, hret⟩
      · rw [hadd] at hnot
        obtain ⟨hsched, hconfig⟩ := hnot.scheduler_eq hm
        exact h.stay hown hconfig fun seat hseat layer pos v hv => ⟨hsched ▸ hseat, hv,
          congrArg (fun e' => e'.pageTable seat.row) (hnot.frame hm)⟩
      · -- a request that raised after it was queued is in the list
        exfalso
        have hlist := (hret.queuedIn ho.books).pendingList_eq
        rcases hi with hsame | ⟨p, hp⟩
        · rw [hsame] at hlist
          simpa using congrArg List.length hlist
        · rw [hadd] at hp
          cases hp

theorem Sound.stepped (h : Sound s) {sampled : Nat → Token} {kv : Computed V}
    {out : Engine.StepOutput} {e' : Engine} {s1 : Scheduler} {e2 : Engine}
    (hrun : Engine.StepRun s.engine sampled out e' s1 e2)
    (hown : ∃ t orphans lost, e'.Ownership t orphans lost) :
    Sound (s.see .pageTable kv e' (.stepped out)) where
  own := hown
  reads seat hseat layer pos v hv := by
    obtain ⟨t, orphans, lost, ho⟩ := h.own
    have hmem : seat ∈ s.engine.scheduler.seats :=
      (hrun.stepped ho.books.sched).seats_perm.mem_iff.mpr (List.mem_append_left _ hseat)
    obtain ⟨y, hy, rfl⟩ : ∃ y ∈ s.engine.lives t, y.seat = seat :=
      List.mem_map.mp (s.engine.map_seat_lives t ▸ hmem)
    dsimp only [see] at hv ⊢
    dsimp only [readKv]
    rw [hrun.config_eq, hrun.pageTable_eq]
    split at hv
    · next hin =>
        obtain ⟨sl, hsl, hrow, hpos⟩ := hin
        exact Option.some.inj hv ▸ hrun.read_of_mem ho hsl hy hrow hpos
    · next hnot =>
        obtain ⟨hlt, hread⟩ := h.reads y.seat hmem layer pos v hv
        exact ⟨hlt, (hrun.read_of_notMem ho hy hlt hnot).trans hread⟩

theorem Sound.next {a : Call × Computed V} (h : Sound s) (hi : s.Installs a)
    (hnext : s.next .pageTable a = some s') : Sound s' := by
  obtain ⟨c, kv⟩ := a
  obtain ⟨⟨report, e'⟩, hreport, rfl⟩ := Option.map_eq_some_iff.mp hnext
  obtain ⟨t, orphans, lost, ho⟩ := h.own
  have hcall : s.engine.call c = some e' := by
    rw [← Engine.map_snd_report, hreport, Option.map_some]
  have hown := ho.call hi hcall
  cases c with
  | addRequest args =>
      cases hreport
      exact h.added rfl hi hown
  | step sampled =>
      rcases hstep : s.engine.step sampled with err | ⟨out, e1⟩
      · simp [Engine.report, hstep] at hreport
      simp only [Engine.report, hstep, Option.some.injEq, Prod.mk.injEq] at hreport
      obtain ⟨rfl, rfl⟩ := hreport
      rcases Engine.step_cases hstep with ⟨-, rfl, rfl⟩ | ⟨s1, e2, hrun⟩
      · exact h.stay hown rfl fun seat hseat layer pos v hv => ⟨hseat, by simpa [see] using hv, rfl⟩
      · exact h.stepped hrun hown
  | abortRequest uid =>
      rcases ho.books.abort_cases uid with ⟨-, heq⟩ | ⟨seat, e1, -, -, heq, hseat, hab⟩
      · simp only [Engine.report, heq, Option.some.injEq, Prod.mk.injEq] at hreport
        obtain ⟨rfl, rfl⟩ := hreport
        exact h.stay hown rfl fun seat hseat layer pos v hv => ⟨hseat, hv, rfl⟩
      · simp only [Engine.report, heq, Option.some.injEq, Prod.mk.injEq] at hreport
        obtain ⟨rfl, rfl⟩ := hreport
        refine h.stay hown (by rw [hab.frame]) fun seat' hseat' layer pos v hv => ⟨?_, hv, ?_⟩
        · exact hab.dropped.seats_perm.mem_iff.mpr (List.mem_cons_of_mem _ hseat')
        · rw [hab.frame]

theorem reads_own_of_run {config : EngineConfig} {buffer : Nat → Slot → V}
    {calls : List (Call × Computed V)}
    (hall : Run.AllSteps (next .pageTable) Installs (init config buffer) calls)
    (h : Run.exec (next .pageTable) (init config buffer) calls = some s) : s.ReadsOwn := by
  have hsound : Sound s := Run.invariant Sound (fun _ _ _ hs hi hn => hs.next hi hn)
    (sound_init config buffer) hall h
  intro seat hseat layer pos v hv
  exact (hsound.reads seat hseat layer pos v hv).2

/-! ### The families -/

/-- The K/V of a position, by its row and its place there. -/
def rowAndPos : Computed Nat := fun _ row pos => 10 * row + pos

/-- Two prompts of two tokens, and their prefills. -/
def twoPrompts : List (Call × Computed Nat) :=
  [.addRequest { uid := 5, inputIds := [7, 8], samplingParams := { maxTokens := 2 } },
    .addRequest { uid := 3, inputIds := [6, 9], samplingParams := { maxTokens := 2 } },
    .step fun _ => 4, .step fun _ => 4].map fun c => (c, rowAndPos)

/-- Engines with both rows, and no prefix cache. -/
def bothRows : EngineConfig := { Session.twoRows with enablePrefixCache := false }

/-- Written by its positions, the first request reads the second one's last token for its own
first. -/
theorem exec_outLoc : Run.AllSteps (next .outLoc) Installs (init bothRows fun _ _ => 99) twoPrompts ∧
    ∃ s, Run.exec (next .outLoc) (init bothRows fun _ _ => 99) twoPrompts = some s ∧
      s.computed 0 0 0 = some (rowAndPos 0 0 0) ∧ s.readKv 0 0 0 = rowAndPos 0 1 1 ∧
      ¬ s.ReadsOwn := by
  refine ⟨by decide +kernel, ?_⟩
  have hread : (Run.exec (next .outLoc) (init bothRows fun _ _ => 99) twoPrompts).map
      (fun s => (s.engine.scheduler.seats.map Seat.row, s.computed 0 0 0, s.readKv 0 0 0)) =
        some ([0, 1], some 0, 11) := by decide +kernel
  obtain ⟨s, hs, hmap⟩ := Option.map_eq_some_iff.mp hread
  obtain ⟨hrows, hcomputed, hslot⟩ : s.engine.scheduler.seats.map Seat.row = [0, 1] ∧
      s.computed 0 0 0 = some 0 ∧ s.readKv 0 0 0 = 11 := by
    simpa only [Prod.mk.injEq] using hmap
  refine ⟨s, hs, hcomputed, hslot, fun hreads => ?_⟩
  obtain ⟨seat, hseat, hrow⟩ := List.mem_map.mp (hrows ▸ List.mem_cons_self)
  have hown := hreads seat hseat 0 0 0 (by rw [hrow]; exact hcomputed)
  rw [hrow, hslot] at hown
  cases hown

/-- In every run whose queued requests have their slots, each live request reads back, in every
layer and at every position it processed, what the layer computed for it, if and only if the family
writes where the page table says. -/
theorem reads_own_iff (family : ModelFamily) :
    (∀ (V : Type) (config : EngineConfig) (buffer : Nat → Slot → V) (calls : List (Call × Computed V))
      (s : Layers V), Run.AllSteps (next family.writeLoc) Installs (init config buffer) calls →
        Run.exec (next family.writeLoc) (init config buffer) calls = some s → s.ReadsOwn) ↔
      family.writeLoc = .pageTable := by
  constructor
  · intro h
    cases hloc : family.writeLoc with
    | pageTable => rfl
    | outLoc =>
        obtain ⟨hall, s, hs, -, -, hnot⟩ := exec_outLoc
        rw [← hloc] at hall hs
        exact absurd (h _ _ _ _ _ hall hs) hnot
  · intro hloc V config buffer calls s hall hexec
    rw [hloc] at hall hexec
    exact reads_own_of_run hall hexec

theorem gptOss_reads_other : ∃ s : Layers Nat,
    Run.AllSteps (next ModelFamily.gptOss.writeLoc) Installs (init bothRows fun _ _ => 99) twoPrompts ∧
    Run.exec (next ModelFamily.gptOss.writeLoc) (init bothRows fun _ _ => 99) twoPrompts = some s ∧
    s.computed 0 0 0 = some (rowAndPos 0 0 0) ∧ s.readKv 0 0 0 = rowAndPos 0 1 1 ∧ ¬ s.ReadsOwn := by
  obtain ⟨hall, s, hs, hread⟩ := exec_outLoc
  exact ⟨s, hall, hs, hread⟩

end Layers

end FreeToken
