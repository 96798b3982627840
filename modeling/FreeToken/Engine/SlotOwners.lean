import FreeToken.Engine.LinearSlots

/-!
# Each linear-state slot has one owner

A donated track slot is the snapshot map's from then on. The map stays true to this as
long as nobody aborts a request that has donated, and no donation overwrites the entry of
a request that has finished: the first leaves a slot both free and recorded, the second
one that nobody has.
-/

namespace FreeToken

/-! ### The values of a dict -/

section Dict

variable {α : Type} [DecidableEq α]

/-- A new key's value comes last; an old key's value is replaced. -/
theorem values_dictSet (key : α) (v : Slot) : ∀ items : List (α × Slot),
    (dictGet key items = none ∧ (dictSet key v items).map Prod.snd = items.map Prod.snd ++ [v]) ∨
    ∃ w rest, dictGet key items = some w ∧ (items.map Prod.snd).Perm (w :: rest) ∧
      ((dictSet key v items).map Prod.snd).Perm (v :: rest)
  | [] => Or.inl ⟨rfl, rfl⟩
  | (k, w) :: items => by
      by_cases hk : k = key
      · right
        refine ⟨w, items.map Prod.snd, ?_, .refl _, ?_⟩
        · simp [dictGet, hk]
        · simp [dictSet, hk]
      · have hget : dictGet key ((k, w) :: items) = dictGet key items := by
          simp [dictGet, hk]
        rw [hget, dictSet, if_neg hk]
        rcases values_dictSet key v items with ⟨hnone, hlast⟩ | ⟨u, rest, hsome, hold, hnew⟩
        · left
          exact ⟨hnone, congrArg (w :: ·) hlast⟩
        · right
          exact ⟨u, w :: rest, hsome, (hold.cons w).trans (.swap u w rest),
            (hnew.cons w).trans (.swap v w rest)⟩

theorem mem_values_of_dictGet {key : α} {w : Slot} {items : List (α × Slot)}
    (h : dictGet key items = some w) : w ∈ items.map Prod.snd :=
  List.mem_map_of_mem (f := Prod.snd) (mem_of_dictGet h)

/-- Setting keys to new values keeps the values distinct, and loses those whose key is set. -/
theorem foldl_dictSet_values : ∀ {entries items : List (α × Slot)},
    (items.map Prod.snd).Nodup → (entries.map Prod.snd).Nodup →
    (∀ s ∈ entries.map Prod.snd, s ∉ items.map Prod.snd) →
    let items' := entries.foldl (fun m x => dictSet x.1 x.2 m) items
    (items'.map Prod.snd).Nodup ∧
      (∀ s ∈ items'.map Prod.snd, s ∈ items.map Prod.snd ∨ s ∈ entries.map Prod.snd) ∧
      ∀ s ∈ items.map Prod.snd, s ∈ items'.map Prod.snd ↔
        ∀ x ∈ entries, dictGet x.1 items ≠ some s
  | [], items, hn, _, _ => by
      refine ⟨hn, fun s hs => Or.inl hs, fun s hs => ?_⟩
      simp only [List.foldl_nil, hs, List.not_mem_nil, false_implies, implies_true]
  | (key, v) :: entries, items, hn, hne, hnew => by
      obtain ⟨hv, hne⟩ := List.nodup_cons.mp hne
      have hvi : v ∉ items.map Prod.snd := hnew v List.mem_cons_self
      -- one key first
      have hone : ((dictSet key v items).map Prod.snd).Nodup ∧
          (∀ s ∈ (dictSet key v items).map Prod.snd, s ∈ items.map Prod.snd ∨ s = v) ∧
          ∀ s ∈ items.map Prod.snd, s ∈ (dictSet key v items).map Prod.snd ↔
            dictGet key items ≠ some s := by
        rcases values_dictSet key v items with ⟨hnone, hlast⟩ | ⟨w, rest, hsome, hold, hset⟩
        · rw [hlast, hnone]
          refine ⟨?_, ?_, ?_⟩
          · exact List.nodup_append'.mpr ⟨hn, List.nodup_singleton v, by simpa using hvi⟩
          · simp
          · intro s hs
            exact iff_of_true (List.mem_append_left _ hs) (Option.some_ne_none s).symm
        · obtain ⟨hw, hrest⟩ := List.nodup_cons.mp (hold.nodup_iff.mp hn)
          refine ⟨hset.nodup_iff.mpr (List.nodup_cons.mpr ⟨?_, hrest⟩), ?_, ?_⟩
          · exact fun hmem => hvi (hold.mem_iff.mpr (List.mem_cons_of_mem _ hmem))
          · intro s hs
            rcases List.mem_cons.mp (hset.mem_iff.mp hs) with rfl | hs
            · exact Or.inr rfl
            · exact Or.inl (hold.mem_iff.mpr (List.mem_cons_of_mem _ hs))
          · intro s hs
            have hsv : s ≠ v := fun heq => hvi (heq ▸ hs)
            rw [hset.mem_iff, List.mem_cons, or_iff_right hsv, hsome, ne_eq, Option.some.injEq]
            constructor
            · intro hmem heq
              exact hw (heq ▸ hmem)
            · intro hws
              exact (List.mem_cons.mp (hold.mem_iff.mp hs)).resolve_left fun heq => hws heq.symm
      obtain ⟨hn1, hsub1, hkept1⟩ := hone
      obtain ⟨hn2, hsub2, hkept2⟩ := foldl_dictSet_values hn1 hne (fun s hs hmem => by
        rcases hsub1 s hmem with hmem | rfl
        · exact hnew s (List.mem_cons_of_mem _ hs) hmem
        · exact hv hs)
      refine ⟨hn2, fun s hs => ?_, fun s hs => ?_⟩
      · rcases hsub2 s hs with hs | hs
        · rcases hsub1 s hs with hs | rfl
          · exact Or.inl hs
          · exact Or.inr List.mem_cons_self
        · exact Or.inr (List.mem_cons_of_mem _ hs)
      · have hsv : v ≠ s := fun heq => hvi (heq ▸ hs)
        rw [List.forall_mem_cons]
        by_cases hmem : s ∈ (dictSet key v items).map Prod.snd
        · have hfirst := (hkept1 s hs).mp hmem
          rw [List.foldl_cons, hkept2 s hmem]
          refine Iff.trans ?_ (and_iff_right hfirst).symm
          refine forall₂_congr fun x _ => ?_
          rw [dictGet_dictSet]
          split
          · rename_i hkey
            rw [← hkey]
            exact iff_of_true (fun heq => hsv (Option.some.inj heq)) hfirst
          · exact Iff.rfl
        · refine iff_of_false (fun hs' => ?_) fun hall => hmem ((hkept1 s hs).mpr hall.1)
          rcases hsub2 s hs' with h | h
          · exact hmem h
          · exact hnew s (List.mem_cons_of_mem _ h) hs

end Dict

/-- The next step donates a track slot of the request: the anchor it sampled is its last
token, will be forwarded, and ends a page. -/
def Req.DonatesNext (pageSize : Nat) (r : Req) : Prop :=
  r.toolcallAnchorLen = some r.deviceLen ∧ r.mambaLastTrackSeqlen = none ∧ pageSize ∣ r.deviceLen

instance (pageSize : Nat) (r : Req) : Decidable (r.DonatesNext pageSize) :=
  inferInstanceAs (Decidable (_ ∧ _ ∧ _))

theorem Req.trackSlot_mem {r : Req} (h : r.seat.Seated) : r.trackSlot.getD 0 ∈ r.seat.tracks := by
  obtain ⟨live, track0, track1, hlive, hpp⟩ := h
  have hpp : r.mambaPingPong = some (track0, track1) := hpp
  simp only [Req.trackSlot, Seat.tracks, Req.seat, hpp, Option.map_some, Option.getD_some]
  split <;> simp

namespace Engine

variable {e e' : Engine} {t : Transcript} {orphans : List RadixCacheHandle} {kept : List Slot}
  {config : EngineConfig}

/-! ### The property -/

/-- Every slot of the pool is free, a live request's own, or recorded once. -/
def LinearOwned (e : Engine) : Prop :=
  (e.linearFree ++ (e.scheduler.seats.flatMap (Seat.undonated e.donated) ++ e.donated)).Perm
    (linearUsable e.config)

/-- The track slots of the live requests. -/
def liveTracks (e : Engine) : List Slot := e.scheduler.seats.flatMap Seat.tracks

theorem flatMap_donated (e : Engine) : e.scheduler.seats.flatMap (Seat.donated e.donated) =
    e.liveTracks.filter fun s => s ∈ e.donated := by
  rw [liveTracks, List.filter_flatMap]
  rfl

theorem LinearBooks.tracks_kept_nodup (h : LinearBooks config e kept) :
    (e.linearFree ++ (e.liveTracks ++ kept)).Nodup := by
  refine h.nodup.sublist (List.Sublist.append_left ?_ _)
  refine List.Sublist.append_right ?_ _
  rw [liveTracks]
  generalize e.scheduler.seats = seats
  induction seats with
  | nil => exact List.Sublist.refl _
  | cons seat seats ih =>
      rw [List.flatMap_cons, List.flatMap_cons]
      exact (List.sublist_append_right _ _).append ih

/-- The recorded slots are the kept ones and those that live requests donated. -/
theorem LinearBooks.owned_iff (h : LinearBooks config e kept) :
    e.LinearOwned ↔ e.donated.Nodup ∧ (∀ s ∈ e.donated, s ∈ kept ∨ s ∈ e.liveTracks) ∧
      ∀ s ∈ kept, s ∈ e.donated := by
  have hall := h.tracks_kept_nodup
  have hn := (List.nodup_append'.mp hall).2.1
  have hsplit : (e.scheduler.seats.flatMap Seat.linearSlots ++ kept).Perm
      (e.scheduler.seats.flatMap (Seat.undonated e.donated) ++
        (kept ++ e.liveTracks.filter fun s => s ∈ e.donated)) := by
    refine ((flatMap_linearSlots_perm e.donated e.scheduler.seats).append_right kept).trans ?_
    rw [flatMap_donated, List.append_assoc]
    exact List.perm_append_comm.append_left _
  have hiff : e.LinearOwned ↔
      e.donated.Perm (kept ++ e.liveTracks.filter fun s => s ∈ e.donated) := by
    rw [LinearOwned, h.config_eq]
    constructor
    · intro hperm
      have hsame := (hperm.trans h.slots_perm.symm).trans (hsplit.append_left _)
      rw [List.perm_append_left_iff, List.perm_append_left_iff] at hsame
      exact hsame
    · intro hperm
      exact (((hperm.append_left _).trans hsplit.symm).append_left _).trans h.slots_perm
  have hkn : (kept ++ e.liveTracks.filter fun s => s ∈ e.donated).Nodup :=
    (List.perm_append_comm.nodup_iff.mp hn).sublist
      ((List.filter_sublist (p := fun s => decide (s ∈ e.donated))).append_left kept)
  rw [hiff]
  constructor
  · intro hperm
    refine ⟨hperm.nodup_iff.mpr hkn, fun s hs => ?_, fun s hs => ?_⟩
    · exact (List.mem_append.mp (hperm.mem_iff.mp hs)).imp_right List.mem_of_mem_filter
    · exact hperm.mem_iff.mpr (List.mem_append_left _ hs)
  · rintro ⟨hdn, hheld, hkept⟩
    refine (List.perm_ext_iff_of_nodup hdn hkn).mpr fun s => ?_
    rw [List.mem_append, List.mem_filter, decide_eq_true_iff]
    constructor
    · intro hs
      exact (hheld s hs).imp_right fun hl => ⟨hl, hs⟩
    · rintro (hs | ⟨-, hs⟩)
      · exact hkept s hs
      · exact hs

/-! ### Donations -/

/-- What a donation records: the tokens so far, and the track slot. -/
def donation (e : Engine) (r : Req) : List Token × Slot :=
  (e.history r.tableIdx, r.trackSlot.getD 0)

/-- The requests that the next step donates for. -/
def donors (e : Engine) : List Req :=
  match e.scheduler.schedule with
  | none => []
  | some (batch, _) => batch.reqs.filter fun r => r.DonatesNext e.config.pageSize

/-- A snapshot is due in the round after the one that sampled the anchor. -/
theorem snapshotOf_round (hpool : e.linearStatePool.isSome = true) {req : Req}
    (hseat : req.seat.Seated) (phase : Phase) (tok : Token) :
    e.snapshotOf ((req.append phase tok).detectAnchor e.config.toolcallAnchorId tok) =
      if req.DonatesNext e.config.pageSize then
        some (req.deviceLen, req.linearSlotIdx.getD 0, req.trackSlot.getD 0)
      else none := by
  obtain ⟨live, track0, track1, hlive, hpp⟩ := hseat
  have hlive : req.linearSlotIdx = some live := hlive
  have hpp : req.mambaPingPong = some (track0, track1) := hpp
  rw [snapshotOf, if_pos hpool]
  by_cases hd : e.config.toolcallAnchorId = some tok ∧ req.toolcallAnchorLen = none
  · have hnot : ¬ req.DonatesNext e.config.pageSize := by
      rintro ⟨hanchor, -⟩
      rw [hd.2] at hanchor
      cases hanchor
    have hdetect : (req.append phase tok).detectAnchor e.config.toolcallAnchorId tok =
        { req.append phase tok with toolcallAnchorLen := some (req.deviceLen + 1) } := if_pos hd
    rw [if_neg hnot, hdetect]
    simp [Req.freeze, Req.reachesAnchor, Req.append]
  · have hdetect : (req.append phase tok).detectAnchor e.config.toolcallAnchorId tok =
        req.append phase tok := if_neg hd
    rw [hdetect]
    have hreach : (req.append phase tok).reachesAnchor =
        if req.toolcallAnchorLen = some req.deviceLen ∧ req.mambaLastTrackSeqlen = none then
          some req.deviceLen else none := by
      cases hanchor : req.toolcallAnchorLen with
      | none => simp [Req.reachesAnchor, Req.append, hanchor]
      | some n =>
          simp only [Req.reachesAnchor, Req.append, hanchor, Nat.add_right_cancel_iff,
            Option.some.injEq]
          by_cases hn : req.deviceLen = n
          · subst hn
            simp
          · rw [if_neg fun h => hn h.2, if_neg fun h => hn h.1.symm]
    have htrack : (req.append phase tok).trackSlot = req.trackSlot := rfl
    have hsome : req.trackSlot = some (req.trackSlot.getD 0) := by
      simp [Req.trackSlot, hpp]
    simp only [Req.freeze, hreach, htrack, show (req.append phase tok).linearSlotIdx = some live from
      hlive, hlive]
    rw [hsome]
    by_cases hreq : req.toolcallAnchorLen = some req.deviceLen ∧ req.mambaLastTrackSeqlen = none
    · have hpage : alignDownNat req.deviceLen e.config.pageSize = req.deviceLen ↔
          e.config.pageSize ∣ req.deviceLen :=
        ⟨fun h => h ▸ dvd_alignDownNat _ _, alignDownNat_of_dvd⟩
      simp [hreq, Req.DonatesNext, hpage]
    · rw [if_neg hreq, if_neg fun h : req.DonatesNext _ => hreq ⟨h.1, h.2.1⟩]

/-- Before its donation a request has its whole history recorded. -/
def DonorRecorded (e : Engine) (phase : Phase) (req : Req) : Prop :=
  req.DonatesNext e.config.pageSize → req.chunked = false ∧ phase = .decode ∧
    ∃ ids, e.fullIds req.tableIdx = some ids ∧ ids.length = req.deviceLen

theorem sampleOne_snapshots {phase : Phase} {tok : Token} {req : Req}
    (hpool : e.linearStatePool.isSome = true) (hcache : e.cacheManager.isSome = true)
    (hseat : req.seat.Seated) (hrec : e.DonorRecorded phase req) :
    (e.sampleOne phase tok req).mambaAnchorSnapshots =
      if req.DonatesNext e.config.pageSize then
        dictSet (e.donation req).1 (e.donation req).2 e.mambaAnchorSnapshots
      else e.mambaAnchorSnapshots := by
  have hround := snapshotOf_round hpool hseat phase tok
  by_cases hdon : req.DonatesNext e.config.pageSize
  · obtain ⟨hc, hphase, ids, hids, hlen⟩ := hrec hdon
    rw [if_pos hdon] at hround ⊢
    have hfull : (e.sampleOne phase tok req).fullIds req.tableIdx =
        if phase = .decode then (e.fullIds req.tableIdx).map (· ++ [tok])
        else some (req.inputIds ++ [tok]) := sampleOne_fullIds hc hcache
    have hrecord : e.recordIds phase tok req req.tableIdx = some (ids ++ [tok]) := by
      rw [recordIds, if_neg (by simp [hc, Option.isSome_iff_ne_none.mp hcache]),
        Function.update_self, if_pos hphase, hids]
      rfl
    have hnot : ¬ req.chunked = true := by simp [hc]
    unfold sampleOne
    dsimp only
    rw [if_neg hnot]
    have hround' : ({ e with fullIds := e.recordIds phase tok req } : Engine).snapshotOf
        ((req.append phase tok).detectAnchor e.config.toolcallAnchorId tok) = _ := hround
    rw [hround']
    simp only [hrecord, Option.getD_some, donation, history, hids, ← hlen, List.take_left']
  · rw [if_neg hdon] at hround ⊢
    unfold sampleOne
    dsimp only
    split
    · rfl
    · have hround' : ({ e with fullIds := e.recordIds phase tok req } : Engine).snapshotOf
          ((req.append phase tok).detectAnchor e.config.toolcallAnchorId tok) = none := hround
      rw [hround']

theorem sampleAll_snapshots {phase : Phase} : ∀ {rounds : List (Token × Req)} {e : Engine},
    e.linearStatePool.isSome = true → e.cacheManager.isSome = true →
    (∀ x ∈ rounds, x.2.seat.Seated) → (rounds.map fun x => x.2.tableIdx).Nodup →
    (∀ x ∈ rounds, e.DonorRecorded phase x.2) →
    (e.sampleAll phase rounds).mambaAnchorSnapshots =
      (((rounds.map Prod.snd).filter fun r => r.DonatesNext e.config.pageSize).map
        e.donation).foldl (fun m x => dictSet x.1 x.2 m) e.mambaAnchorSnapshots
  | [], e, _, _, _, _, _ => rfl
  | (tok, req) :: rounds, e, hpool, hcache, hseat, hn, hrec => by
      obtain ⟨hrow, hn⟩ := List.nodup_cons.mp hn
      have hframe := sampleOne_frame e phase tok req
      have hfirst : (e.sampleOne phase tok req).mambaAnchorSnapshots =
          if req.DonatesNext e.config.pageSize then
            dictSet (e.donation req).1 (e.donation req).2 e.mambaAnchorSnapshots
          else e.mambaAnchorSnapshots :=
        sampleOne_snapshots hpool hcache (hseat _ List.mem_cons_self) (hrec _ List.mem_cons_self)
      -- the later rounds find the histories of their own rows as they were
      have hrows : ∀ x ∈ rounds,
          (e.sampleOne phase tok req).fullIds x.2.tableIdx = e.fullIds x.2.tableIdx := by
        intro x hx
        exact sampleOne_fullIds_of_ne fun _ heq => hrow (List.mem_map.mpr ⟨x, hx, heq.symm⟩)
      have hrec' : ∀ x ∈ rounds, (e.sampleOne phase tok req).DonorRecorded phase x.2 := by
        intro x hx
        rw [DonorRecorded, hframe.config_eq, hrows x hx]
        exact hrec x (List.mem_cons_of_mem _ hx)
      have ih := sampleAll_snapshots (e := e.sampleOne phase tok req)
        (by rw [hframe.linearStatePool_eq]; exact hpool) (hframe.isSome_eq.trans hcache)
        (fun x hx => hseat x (List.mem_cons_of_mem _ hx)) hn hrec'
      have hsame : ((rounds.map Prod.snd).filter fun r => r.DonatesNext e.config.pageSize).map
          (e.sampleOne phase tok req).donation =
          ((rounds.map Prod.snd).filter fun r => r.DonatesNext e.config.pageSize).map e.donation := by
        refine List.map_congr_left fun r hr => ?_
        obtain ⟨x, hx, rfl⟩ := List.mem_map.mp (List.mem_of_mem_filter hr)
        rw [donation, donation, history, history, hrows x hx]
      rw [sampleAll, ih, hframe.config_eq, hsame, hfirst, List.map_cons, List.filter_cons]
      by_cases hdon : req.DonatesNext e.config.pageSize
      · simp only [hdon, if_true, decide_true, List.map_cons, List.foldl_cons]
      · simp only [hdon, if_false, decide_false, Bool.false_eq_true]

/-! ### The invariant -/

/-- What is recorded is recorded once and held by somebody, and who has not donated yet has
no slot recorded. -/
structure Recording (config : EngineConfig) (e : Engine) (kept : List Slot) : Prop
    extends LinearBooks config e kept where
  donated_nodup : e.donated.Nodup
  held : ∀ s ∈ e.donated, s ∈ kept ∨ s ∈ e.liveTracks
  pending : ∀ p ∈ e.scheduler.pendingList, ∀ s ∈ p.seat.tracks, s ∉ e.donated
  running : ∀ r ∈ e.scheduler.runningReqs, r.mambaLastTrackSeqlen = none →
    ∀ s ∈ r.seat.tracks, s ∉ e.donated

/-- The slots have one owner each. -/
structure Owners (config : EngineConfig) (e : Engine) (kept : List Slot) : Prop
    extends Recording config e kept where
  kept_donated : ∀ s ∈ kept, s ∈ e.donated

theorem recording_init (h : HybridCached config) : Recording config (init config) [] where
  toLinearBooks := linearBooks_init h
  donated_nodup := List.nodup_nil
  held := fun _ hs => absurd hs List.not_mem_nil
  pending := fun _ hp => absurd hp List.not_mem_nil
  running := fun _ hr => absurd hr List.not_mem_nil

theorem owners_init (h : HybridCached config) : Owners config (init config) [] where
  toRecording := recording_init h
  kept_donated := fun _ hs => absurd hs List.not_mem_nil

/-- The call aborts nobody who has donated, and no donation takes the key of a slot that
only the map has. -/
def KeepsOwners (e : Engine) : Call → Prop
  | .addRequest _ => True
  | .step _ => ∀ r ∈ e.donors, ∀ s ∈ dictGet (e.history r.tableIdx) e.mambaAnchorSnapshots,
      s ∈ e.liveTracks
  | .abortRequest uid => ∀ seat ∈ e.scheduler.findSeat uid, ∀ s ∈ seat.tracks, s ∉ e.donated

instance (e : Engine) (c : Call) : Decidable (e.KeepsOwners c) :=
  match c with
  | .addRequest _ => isTrue trivial
  | .step _ => inferInstanceAs (Decidable (∀ r ∈ e.donors,
      ∀ s ∈ dictGet (e.history r.tableIdx) e.mambaAnchorSnapshots, s ∈ e.liveTracks))
  | .abortRequest uid => inferInstanceAs (Decidable (∀ seat ∈ e.scheduler.findSeat uid,
      ∀ s ∈ seat.tracks, s ∉ e.donated))

namespace Recording

/-- Two live requests with a track slot in common are the same. -/
theorem seat_eq_of_mem_tracks (h : LinearBooks config e kept) {seat seat' : Seat} {s : Slot}
    (hseat : seat ∈ e.scheduler.seats) (hseat' : seat' ∈ e.scheduler.seats)
    (hs : s ∈ seat.tracks) (hs' : s ∈ seat'.tracks) : seat = seat' := by
  have hn : (e.scheduler.seats.flatMap Seat.tracks).Nodup :=
    (List.nodup_append'.mp (List.nodup_append'.mp h.tracks_kept_nodup).2.1).1
  generalize e.scheduler.seats = seats at hn hseat hseat'
  induction seats with
  | nil => cases hseat
  | cons first seats ih =>
      rw [List.flatMap_cons] at hn
      obtain ⟨-, hrest, hdisj⟩ := List.nodup_append'.mp hn
      have hlater : ∀ {x : Seat}, x ∈ seats → s ∈ x.tracks → s ∉ first.tracks := fun hx hmem hf =>
        hdisj hf (List.mem_flatMap.mpr ⟨_, hx, hmem⟩)
      rcases List.mem_cons.mp hseat with hfirst | htail
      · rcases List.mem_cons.mp hseat' with hfirst' | htail'
        · exact hfirst.trans hfirst'.symm
        · exact absurd (hfirst ▸ hs) (hlater htail' hs')
      · rcases List.mem_cons.mp hseat' with hfirst' | htail'
        · exact absurd (hfirst' ▸ hs') (hlater htail hs)
        · exact ih hrest htail htail'

theorem notMem_kept (h : LinearBooks config e kept) {s : Slot} (hs : s ∈ e.liveTracks) :
    s ∉ kept := fun hk =>
  (List.nodup_append'.mp (List.nodup_append'.mp h.tracks_kept_nodup).2.1).2.2 hs hk

theorem addRequest (h : Recording config e kept) (hb : Books e t orphans) (args : AddArgs) :
    Recording config (e.addRequest args).2 kept := by
  have hl := h.toLinearBooks.addRequest hb args
  obtain ⟨⟨-, -, hsnap⟩, hcases⟩ := h.toLinearBooks.add_cases hb args rfl
  have hdon : (e.addRequest args).2.donated = e.donated := congrArg (List.map Prod.snd) hsnap
  rcases hcases with ⟨hsched, -⟩ | ⟨p, hadd⟩
  · have hlive : (e.addRequest args).2.liveTracks = e.liveTracks := by
      rw [liveTracks, hsched, ← liveTracks]
    constructor
    · exact hl
    · exact hdon ▸ h.donated_nodup
    · rw [hdon, hlive]
      exact h.held
    · rw [hdon, hsched]
      exact h.pending
    · rw [hdon, hsched]
      exact h.running
  · have hin := hadd.queuedIn
    constructor
    · exact hl
    · exact hdon ▸ h.donated_nodup
    · rw [hdon]
      intro s hs
      refine (h.held s hs).imp_right fun hlive => ?_
      rw [liveTracks, (hin.seats_perm.flatMap_right Seat.tracks).mem_iff, List.flatMap_cons]
      exact List.mem_append_right _ hlive
    · rw [hdon, hin.pendingList_eq]
      intro q hq s hs
      rcases List.mem_append.mp hq with hq | hq
      · exact h.pending q hq s hs
      · -- the new entry's slots were free
        obtain rfl := List.mem_singleton.mp hq
        have hfree : s ∈ e.linearFree := by
          rw [hadd.seat_linearSlots.2.mem_iff]
          exact List.mem_append_right _ (List.mem_append_right _ hs)
        intro hmem
        refine (List.nodup_append'.mp h.toLinearBooks.tracks_kept_nodup).2.2 hfree ?_
        exact List.mem_append.mpr (h.held s hmem).symm
    · rw [hdon, hin.runningReqs_eq]
      exact h.running

theorem aborted_eq {hs : List RadixCacheHandle} {seat : Seat} (hab : Aborted hs e seat e') :
    e'.donated = e.donated ∧ e.liveTracks.Perm (seat.tracks ++ e'.liveTracks) := by
  have hperm := hab.dropped.seats_perm.flatMap_right Seat.tracks
  rw [List.flatMap_cons] at hperm
  refine ⟨?_, hperm⟩
  rw [donated, hab.frame]
  rfl

/-- A request that has not donated may go. -/
theorem aborted (h : Recording config e kept) {hs : List RadixCacheHandle} {seat : Seat}
    (hseat : seat ∈ e.scheduler.seats) (hab : Aborted hs e seat e')
    (hnot : ∀ s ∈ seat.tracks, s ∉ e.donated) : Recording config e' kept := by
  obtain ⟨hdon, hlive⟩ := aborted_eq hab
  constructor
  · exact (h.toLinearBooks.aborted hseat hab).1
  · exact hdon ▸ h.donated_nodup
  · intro s hs
    rw [hdon] at hs
    refine (h.held s hs).imp_right fun hmem => ?_
    exact (List.mem_append.mp (hlive.mem_iff.mp hmem)).resolve_left fun htrack => hnot s htrack hs
  · rw [hdon]
    exact fun p hp => h.pending p (hab.dropped.pending_sub p hp)
  · rw [hdon]
    exact fun r hr => h.running r (hab.dropped.running_sub r hr)

end Recording

namespace Owners

theorem owned (h : Owners config e kept) : e.LinearOwned :=
  h.owned_iff.mpr ⟨h.donated_nodup, h.held, h.kept_donated⟩

theorem addRequest (h : Owners config e kept) (hb : Books e t orphans) (args : AddArgs) :
    Owners config (e.addRequest args).2 kept := by
  have hdon : (e.addRequest args).2.donated = e.donated :=
    congrArg (List.map Prod.snd) (hb.add_frame args).2.2
  refine ⟨h.toRecording.addRequest hb args, ?_⟩
  rw [hdon]
  exact h.kept_donated

theorem aborted (h : Owners config e kept) {hs : List RadixCacheHandle} {seat : Seat}
    (hseat : seat ∈ e.scheduler.seats) (hab : Aborted hs e seat e') :
    (e'.LinearOwned ↔ ∀ s ∈ seat.tracks, s ∉ e.donated) ∧
      ((∀ s ∈ seat.tracks, s ∉ e.donated) → Owners config e' kept) := by
  have hl := (h.toLinearBooks.aborted hseat hab).1
  obtain ⟨hdon, hlive⟩ := Recording.aborted_eq hab
  have hgo : (∀ s ∈ seat.tracks, s ∉ e.donated) → Owners config e' kept := fun hnot =>
    ⟨h.toRecording.aborted hseat hab hnot, by rw [hdon]; exact h.kept_donated⟩
  refine ⟨⟨fun howned s htrack hs => ?_, fun hnot => (hgo hnot).owned⟩, hgo⟩
  obtain ⟨-, hheld, -⟩ := hl.owned_iff.mp howned
  have hmem : s ∈ e.liveTracks := hlive.mem_iff.mpr (List.mem_append_left _ htrack)
  rcases hheld s (hdon ▸ hs) with hkept | hlive'
  · exact Recording.notMem_kept h.toLinearBooks hmem hkept
  · have hn := (List.nodup_append'.mp (List.nodup_append'.mp
      h.toLinearBooks.tracks_kept_nodup).2.1).1
    exact (List.nodup_append'.mp (hlive.nodup_iff.mp hn)).2.2 htrack hlive'

end Owners

/-! ### One step -/

/-- Only a request that has not donated, and is not just donating, comes out without a
track. -/
theorem roundOf_last (hpool : e.linearStatePool.isSome = true) {phase : Phase} {x : Token × Req}
    (hseat : x.2.seat.Seated) (hc : x.2.chunked = false)
    (h : (e.roundOf phase x).2.mambaLastTrackSeqlen = none) :
    x.2.mambaLastTrackSeqlen = none ∧ ¬ x.2.DonatesNext e.config.pageSize := by
  obtain ⟨tok, req⟩ := x
  obtain ⟨src, hsrc⟩ := e.clearRestore_eq req
  have hnot : ¬ ({ req with mambaRestoreSrc := src } : Req).chunked = true := by simpa using hc
  have hseat' : ({ req with mambaRestoreSrc := src } : Req).seat.Seated := hseat
  have hround := snapshotOf_round hpool hseat' phase tok
  have hsame : ({ req with mambaRestoreSrc := src } : Req).DonatesNext e.config.pageSize ↔
      req.DonatesNext e.config.pageSize := Iff.rfl
  simp only [roundOf, hsrc, sampleReq, if_neg hnot, hround, hsame, Req.markDone_eq] at h
  split at h
  · rename_i n live dst hsome
    obtain ⟨cached, hcached⟩ := (Req.tracked n (Req.detectAnchor e.config.toolcallAnchorId tok
      (Req.append phase tok { req with mambaRestoreSrc := src }))).snapCachedLen_eq phase
    rw [hcached] at h
    cases h
  · rename_i hnone
    obtain ⟨cached, hcached⟩ := (Req.detectAnchor e.config.toolcallAnchorId tok
      (Req.append phase tok { req with mambaRestoreSrc := src })).snapCachedLen_eq phase
    obtain ⟨anchor, hanchor⟩ := (Req.append phase tok
      { req with mambaRestoreSrc := src }).detectAnchor_eq e.config.toolcallAnchorId tok
    rw [hcached, hanchor] at h
    refine ⟨h, fun hdon => ?_⟩
    rw [if_pos hdon] at hnone
    cases hnone

namespace StepRun

variable {sampled : Nat → Token} {out : StepOutput} {s1 : Scheduler} {e2 : Engine}

variable (h : StepRun e sampled out e' s1 e2)
include h

theorem donors_eq :
    e.donors = out.batch.reqs.filter fun r => r.DonatesNext e.config.pageSize := by
  rw [donors, h.schedule_eq]

/-- Donors are running requests, in a decode batch. -/
theorem donor_running (hs : e.scheduler.Ok) {req : Req} (hreq : req ∈ out.batch.reqs)
    (hdon : req.DonatesNext e.config.pageSize) :
    out.batch.phase = .decode ∧ req ∈ e.scheduler.runningReqs := by
  rcases (h.stepped hs).origin req hreq with ⟨-, p, -, hext⟩ | hdecode
  · have hanchor := hdon.1
    rw [hext.no_anchor] at hanchor
    cases hanchor
  · exact hdecode

theorem snapshots_foldl (hb : Books e t orphans) (hl : LinearBooks config e kept) :
    e'.mambaAnchorSnapshots = (e.donors.map e.donation).foldl (fun m x => dictSet x.1 x.2 m)
      e.mambaAnchorSnapshots := by
  have hfinal : e'.mambaAnchorSnapshots = (mid e out s1).mambaAnchorSnapshots := by
    rw [h.final_eq]
    exact (commitAll_frame h.commit_mid).2
  have hseated : ∀ x ∈ rounds out, x.2.seat.Seated := by
    intro x hx
    apply hl.seated
    rcases (h.stepped hb.sched).origin x.2 (h.mem_batch hx) with ⟨-, p, hp, hext⟩ | ⟨-, hrun⟩
    · rw [hext.seat_eq]
      exact List.mem_append_left _ (List.mem_map_of_mem hp)
    · exact List.mem_append_right _ (List.mem_map_of_mem hrun)
  rw [hfinal, mid, sampleAll_snapshots (e := { e with scheduler := s1 }) hl.pool_isSome
    hl.cache_isSome hseated (h.rounds_rows_nodup hb.sched), h.map_snd_rounds, h.donors_eq]
  · rfl
  · intro x hx hdon
    obtain ⟨hphase, hrun⟩ := h.donor_running hb.sched (h.mem_batch hx) hdon
    refine ⟨(hb.sched.running_ok _ hrun).not_chunked, hphase, t x.2.tableIdx, ?_, ?_⟩
    · exact hb.recorded.fullIds_eq hl.cache_isSome _ hrun
    · exact hb.recorded.length_eq _ hrun

/-- The slots that the step records: track slots of its donors. -/
theorem donated_slots (hb : Books e t orphans) (hl : LinearBooks config e kept) :
    ((e.donors.map e.donation).map Prod.snd).Nodup ∧
      ∀ s ∈ (e.donors.map e.donation).map Prod.snd, ∃ r ∈ out.batch.reqs,
        r ∈ e.scheduler.runningReqs ∧ r.DonatesNext e.config.pageSize ∧ s ∈ r.seat.tracks := by
  have hmem : ∀ r ∈ e.donors, r ∈ out.batch.reqs ∧ r ∈ e.scheduler.runningReqs ∧
      r.DonatesNext e.config.pageSize ∧ (e.donation r).2 ∈ r.seat.tracks := by
    intro r hr
    rw [h.donors_eq, List.mem_filter, decide_eq_true_iff] at hr
    have hrun := (h.donor_running hb.sched hr.1 hr.2).2
    exact ⟨hr.1, hrun, hr.2, Req.trackSlot_mem
      (hl.seated _ (List.mem_append_right _ (List.mem_map_of_mem hrun)))⟩
  constructor
  · rw [List.map_map]
    have hrows : (e.donors.map Req.tableIdx).Nodup := by
      rw [h.donors_eq]
      exact (h.stepped hb.sched).rows_nodup.sublist (List.filter_sublist.map _)
    refine (List.Nodup.of_map _ hrows).map_on fun r hr r' hr' heq => ?_
    obtain ⟨-, hrun, -, hs⟩ := hmem r hr
    obtain ⟨-, hrun', -, hs'⟩ := hmem r' hr'
    have heq : (e.donation r).2 = (e.donation r').2 := heq
    have hseat := Recording.seat_eq_of_mem_tracks hl
      (List.mem_append_right _ (List.mem_map_of_mem hrun))
      (List.mem_append_right _ (List.mem_map_of_mem hrun')) hs (by rw [heq]; exact hs')
    exact List.inj_on_of_nodup_map hrows hr hr' (congrArg Seat.row hseat)
  · intro s hs
    obtain ⟨x, hx, rfl⟩ := List.mem_map.mp hs
    obtain ⟨r, hr, rfl⟩ := List.mem_map.mp hx
    obtain ⟨hbatch, hrun, hdon, htrack⟩ := hmem r hr
    exact ⟨r, hbatch, hrun, hdon, htrack⟩

/-- What is recorded after the step: the donors' track slots, and what was recorded under
no donor's key. -/
theorem donated_step (hb : Books e t orphans) (hr : Recording config e kept) :
    e'.donated.Nodup ∧
      (∀ s ∈ e'.donated, s ∈ e.donated ∨ ∃ r ∈ out.batch.reqs, r ∈ e.scheduler.runningReqs ∧
        r.DonatesNext e.config.pageSize ∧ s ∈ r.seat.tracks) ∧
      ∀ s ∈ e.donated, s ∈ e'.donated ↔
        ∀ r ∈ e.donors, dictGet (e.history r.tableIdx) e.mambaAnchorSnapshots ≠ some s := by
  have hl := hr.toLinearBooks
  obtain ⟨hnew, hdonor⟩ := h.donated_slots hb hl
  have hfresh : ∀ s ∈ (e.donors.map e.donation).map Prod.snd, s ∉ e.donated := by
    intro s hs
    obtain ⟨r, -, hrun, hdon, htrack⟩ := hdonor s hs
    exact hr.running r hrun hdon.2.1 s htrack
  obtain ⟨hn, hsub, hlost⟩ := foldl_dictSet_values hr.donated_nodup hnew hfresh
  rw [← h.snapshots_foldl hb hl] at hn hsub hlost
  refine ⟨hn, fun s hs => (hsub s hs).imp_right (hdonor s), fun s hs => ?_⟩
  rw [donated, hlost s hs, List.forall_mem_map]
  rfl

theorem mem_liveTracks (hs : e.scheduler.Ok) (s : Slot) : s ∈ e.liveTracks ↔
    s ∈ e'.liveTracks ∨ s ∈ (out.finished.map Req.seat).flatMap Seat.tracks := by
  have hseats := (h.seats_perm hs).flatMap_right Seat.tracks
  rw [List.flatMap_append] at hseats
  rw [liveTracks, hseats.mem_iff, List.mem_append, ← liveTracks]

omit h in
theorem mem_leaves (s : Slot) : s ∈ out.leaves e'.donated ↔
    s ∈ (out.finished.map Req.seat).flatMap Seat.tracks ∧ s ∈ e'.donated := by
  simp only [StepOutput.leaves, Seat.donated, List.mem_flatMap, List.mem_filter,
    decide_eq_true_iff]
  constructor
  · rintro ⟨seat, hseat, htrack, hdon⟩
    exact ⟨⟨seat, hseat, htrack⟩, hdon⟩
  · rintro ⟨⟨seat, hseat, htrack⟩, hdon⟩
    exact ⟨seat, hseat, htrack, hdon⟩

/-- Whoever had not donated still has not, unless it is a donor. -/
theorem undonated_step (hb : Books e t orphans) (hr : Recording config e kept) {seat : Seat}
    (hseat : seat ∈ e.scheduler.seats) (hnot : ∀ s ∈ seat.tracks, s ∉ e.donated)
    (hne : ∀ r ∈ out.batch.reqs, r.DonatesNext e.config.pageSize → r.seat ≠ seat) :
    ∀ s ∈ seat.tracks, s ∉ e'.donated := by
  intro s hs hmem
  rcases (h.donated_step hb hr).2.1 s hmem with hold | ⟨r, hbatch, hrun, hdon, htrack⟩
  · exact hnot s hs hold
  · exact hne r hbatch hdon (Recording.seat_eq_of_mem_tracks hr.toLinearBooks
      (List.mem_append_right _ (List.mem_map_of_mem hrun)) hseat htrack hs)

theorem recording (hb : Books e t orphans) (hr : Recording config e kept) :
    Recording config e' (kept ++ out.leaves e'.donated) := by
  have hl := hr.toLinearBooks
  have hstep := h.stepped hb.sched
  obtain ⟨hn, hsub, -⟩ := h.donated_step hb hr
  constructor
  · exact h.linearBooks hb.sched hl
  · exact hn
  · intro s hs
    have hwas : s ∈ kept ∨ s ∈ e.liveTracks := by
      rcases hsub s hs with hold | ⟨r, -, hrun, -, htrack⟩
      · exact hr.held s hold
      · exact Or.inr (List.mem_flatMap.mpr
          ⟨r.seat, List.mem_append_right _ (List.mem_map_of_mem hrun), htrack⟩)
    rcases hwas with hkept | hmem
    · exact Or.inl (List.mem_append_left _ hkept)
    · rcases (h.mem_liveTracks hb.sched s).mp hmem with hmem | hmem
      · exact Or.inr hmem
      · exact Or.inl (List.mem_append_right _ ((mem_leaves s).mpr ⟨hmem, hs⟩))
  · intro p hp
    obtain ⟨p0, hp0, hseat⟩ : ∃ p0 ∈ e.scheduler.pendingList, p.seat = p0.seat := by
      rcases hstep.pending p hp with ⟨hp, -⟩ | ⟨p0, hp0, req, -, -, -, -, rfl⟩
      · exact ⟨p, hp, rfl⟩
      · exact ⟨p0, hp0, rfl⟩
    rw [hseat]
    refine h.undonated_step hb hr (List.mem_append_left _ (List.mem_map_of_mem hp0))
      (hr.pending p0 hp0) fun r hreq hdon heq => ?_
    -- a donor is running
    have hrun := (h.donor_running hb.sched hreq hdon).2
    have hrows := hb.sched.seat_rows_nodup
    rw [Scheduler.seats, List.map_append] at hrows
    exact (List.nodup_append'.mp hrows).2.2
      (List.mem_map.mpr ⟨p0.seat, List.mem_map_of_mem hp0, rfl⟩)
      (List.mem_map.mpr ⟨r.seat, List.mem_map_of_mem hrun, congrArg Seat.row heq⟩)
  · intro r hrun hlast
    rcases hstep.running r hrun with ⟨hrun, hrow⟩ | ⟨x, hx, rfl, hc, -⟩
    · refine h.undonated_step hb hr (List.mem_append_right _ (List.mem_map_of_mem hrun))
        (hr.running r hrun hlast) fun r' hr' _ heq => hrow ?_
      exact List.mem_map.mpr ⟨r', hr', congrArg Seat.row heq⟩
    · obtain ⟨z, hz, rfl⟩ := List.mem_map.mp hx
      have hround := rounded e out.batch.phase z
      have hbatch := h.mem_batch hz
      have hzc : z.2.chunked = false := hround.chunked_eq ▸ hc
      rw [hround.seat_eq]
      have hseated : z.2.seat ∈ e.scheduler.seats ∧
          (z.2.mambaLastTrackSeqlen = none → ∀ s ∈ z.2.seat.tracks, s ∉ e.donated) := by
        rcases hstep.origin z.2 hbatch with ⟨-, p, hp, hext⟩ | ⟨-, hrun⟩
        · rw [hext.seat_eq]
          exact ⟨List.mem_append_left _ (List.mem_map_of_mem hp), fun _ => hr.pending p hp⟩
        · exact ⟨List.mem_append_right _ (List.mem_map_of_mem hrun), hr.running z.2 hrun⟩
      obtain ⟨hnone, hnot⟩ := roundOf_last hl.pool_isSome (hl.seated _ hseated.1) hzc hlast
      refine h.undonated_step hb hr hseated.1 (hseated.2 hnone) fun r' hr' hdon heq => hnot ?_
      have hsame : r' = z.2 :=
        List.inj_on_of_nodup_map hstep.rows_nodup hr' hbatch (congrArg Seat.row heq)
      exact hsame ▸ hdon

/-- The kept slots stay recorded exactly when no donation takes one's key. -/
theorem owners_iff (hb : Books e t orphans) (ho : Owners config e kept) :
    (e'.LinearOwned ↔ e.KeepsOwners (.step sampled)) ∧
      (e.KeepsOwners (.step sampled) → Owners config e' (kept ++ out.leaves e'.donated)) := by
  have hl := ho.toLinearBooks
  have hrec := h.recording hb ho.toRecording
  obtain ⟨-, -, hlost⟩ := h.donated_step hb ho.toRecording
  have hkeeps : (∀ s ∈ kept ++ out.leaves e'.donated, s ∈ e'.donated) ↔
      e.KeepsOwners (.step sampled) := by
    constructor
    · intro hall r hr s hget
      have hold : s ∈ e.donated := mem_values_of_dictGet hget
      refine (ho.held s hold).resolve_left fun hkept => ?_
      have hmem := hall s (List.mem_append_left _ hkept)
      exact (hlost s hold).mp hmem r hr hget
    · intro hkeep s hs
      rcases List.mem_append.mp hs with hkept | hleft
      · refine (hlost s (ho.kept_donated s hkept)).mpr fun r hr hget => ?_
        exact Recording.notMem_kept hl (hkeep r hr s hget) hkept
      · exact ((mem_leaves s).mp hleft).2
  constructor
  · rw [hrec.owned_iff, hkeeps]
    exact ⟨fun hall => hall.2.2, fun hkeep => ⟨hrec.donated_nodup, hrec.held, hkeep⟩⟩
  · exact fun hkeep => ⟨hrec, hkeeps.mpr hkeep⟩

end StepRun

/-! ### Runs -/

theorem Owners.call (h : Owners config e kept) (hb : Books e t orphans) {c : Call}
    (hcall : e.call c = some e') :
    (e'.LinearOwned ↔ e.KeepsOwners c) ∧
      (e.KeepsOwners c → ∃ kept', Owners config e' kept') := by
  cases c with
  | addRequest args =>
      obtain rfl := Option.some.inj hcall
      have h' := h.addRequest hb args
      exact ⟨iff_of_true h'.owned trivial, fun _ => ⟨kept, h'⟩⟩
  | step sampled =>
      simp only [Engine.call] at hcall
      split at hcall
      · rename_i out e1 hstep
        obtain rfl := Option.some.inj hcall
        rcases step_cases hstep with ⟨hidle, -, rfl⟩ | ⟨s1, e2, hrun⟩
        · have hdonors : e1.donors = [] := by rw [donors, hidle]
          have hkeep : e1.KeepsOwners (.step sampled) := by
            rw [KeepsOwners, hdonors]
            exact fun r hr => absurd hr List.not_mem_nil
          exact ⟨iff_of_true h.owned hkeep, fun _ => ⟨kept, h⟩⟩
        · obtain ⟨hiff, hkeep⟩ := hrun.owners_iff hb h
          exact ⟨hiff, fun hk => ⟨_, hkeep hk⟩⟩
      · cases hcall
  | abortRequest uid =>
      rcases hb.abort_cases uid with ⟨hfind, heq⟩ | ⟨seat, e1, hfind, -, heq, hseat, hab⟩
      · simp only [Engine.call, heq, Option.some.injEq] at hcall
        obtain rfl := hcall
        have hkeep : e.KeepsOwners (.abortRequest uid) := by
          rw [KeepsOwners, hfind]
          exact fun seat hseat => absurd hseat (Option.not_mem_none seat)
        exact ⟨iff_of_true h.owned hkeep, fun _ => ⟨kept, h⟩⟩
      · simp only [Engine.call, heq, Option.some.injEq] at hcall
        obtain rfl := hcall
        obtain ⟨hiff, hkeep⟩ := h.aborted hseat hab
        have hsame : e.KeepsOwners (.abortRequest uid) ↔ ∀ s ∈ seat.tracks, s ∉ e.donated := by
          rw [KeepsOwners, hfind]
          simp only [Option.mem_def, Option.some.injEq, forall_eq']
        exact ⟨hiff.trans hsame.symm, fun hk => ⟨kept, hkeep (hsame.mp hk)⟩⟩

/-- In a run of a hybrid engine with the prefix cache, every slot has one owner throughout
exactly when no call aborts a request that has donated, and no donation takes the key of a
slot that only the map has. -/
theorem owned_throughout_iff (hh : HybridCached config) {calls : List Call}
    (h : runs config calls = some e) :
    Run.Throughout call LinearOwned (init config) calls ↔
      Run.AllSteps call KeepsOwners (init config) calls := by
  refine Run.throughout_iff
    (fun e => (∃ kept, Owners config e kept) ∧ ∃ t orphans, Books e t orphans) ?_ ?_
    ⟨⟨[], owners_init hh⟩, fun _ => [], [], books_init config _⟩ h
  · rintro e ⟨⟨kept, ho⟩, -⟩
    exact ho.owned
  · rintro e c e' ⟨⟨kept, ho⟩, t, orphans, hb⟩ hcall
    obtain ⟨hiff, hkeep⟩ := ho.call hb hcall
    exact ⟨hiff, fun hk => ⟨hkeep hk, hb.call hcall⟩⟩

/-- One request at a time on a hybrid model; token 9 opens a tool call. -/
def hybridRow : EngineConfig := { singleRow with hybrid := true, toolcallAnchorId := some 9 }

/-- A tool call is opened, its snapshot taken, and the request is aborted or goes on. -/
def toolcall (c : Call) : List Call :=
  [.addRequest { uid := 0, inputIds := [7], samplingParams := { maxTokens := 3 } },
    .step fun _ => 9, .step fun _ => 5, c]

/-- The abort frees the slot that the snapshot of `[7, 9]` still names. -/
theorem abort_frees_snapshot : HybridCached hybridRow ∧
    ∃ e, runs hybridRow (toolcall (.abortRequest 0)) = some e ∧ e.scheduler.seats = [] ∧
      e.mambaAnchorSnapshots = [([7, 9], 2)] ∧ e.linearFree = [3, 2, 1] ∧ ¬ e.LinearOwned :=
  ⟨by decide, _, rfl, by decide, by decide, by decide,
    fun h : List.Perm _ _ => absurd h.length_eq (by decide)⟩

/-- When it finishes the snapshot keeps the slot. -/
theorem finish_keeps_snapshot : ∃ e, runs hybridRow (toolcall (.step fun _ => 5)) = some e ∧
    Run.Throughout call LinearOwned (init hybridRow) (toolcall (.step fun _ => 5)) :=
  have hh : HybridCached hybridRow := by decide
  have hrun : runs hybridRow (toolcall (.step fun _ => 5)) = some _ := rfl
  ⟨_, hrun, (owned_throughout_iff hh hrun).mpr (by decide)⟩

end Engine

end FreeToken
