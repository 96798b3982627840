import FreeToken.Moe.OffloadCacheSpec
import FreeToken.Lib.Except

/-!
# Runs of the expert cache

From the constructor on, every call that comes back leaves a coherent cache, with the experts
it asked for in slots of their own, and has displaced the least recently used only, and no
expert as long as a slot was free. `history` are the requests since the last `reset` or
`rebuild`, the last one first.
-/

namespace FreeToken

open StampedPool StampedPool.Pool

namespace OffloadMoeCache

variable {ρ : Type}

/-! ### The experts asked for -/

theorem mem_foldl_seen (ids seen : List Nat) (e : Nat) :
    e ∈ ids.foldl (fun seen e => if e ∈ seen then seen else seen ++ [e]) seen ↔
      e ∈ seen ∨ e ∈ ids := by
  induction ids generalizing seen with
  | nil => simp
  | cons id ids ih =>
      rw [List.foldl_cons, ih]
      by_cases hid : id ∈ seen
      · rw [if_pos hid]
        constructor
        · rintro (hs | hs)
          · exact Or.inl hs
          · exact Or.inr (List.mem_cons_of_mem id hs)
        · rintro (hs | hs)
          · exact Or.inl hs
          · rcases List.mem_cons.mp hs with rfl | hs
            · exact Or.inl hid
            · exact Or.inr hs
      · rw [if_neg hid, List.mem_append, List.mem_singleton, List.mem_cons, or_assoc]

theorem nodup_foldl_seen (ids : List Nat) {seen : List Nat} (h : seen.Nodup) :
    (ids.foldl (fun seen e => if e ∈ seen then seen else seen ++ [e]) seen).Nodup := by
  induction ids generalizing seen with
  | nil => exact h
  | cons id ids ih =>
      rw [List.foldl_cons]
      apply ih
      split
      · exact h
      · rename_i hid
        exact List.nodup_append.mpr ⟨h, List.nodup_singleton id, fun a ha b hb heq =>
          hid (List.mem_singleton.mp hb ▸ heq ▸ ha)⟩

theorem mem_firstSeen {ids : List Nat} {e : Nat} : e ∈ firstSeen ids ↔ e ∈ ids := by
  rw [firstSeen, mem_foldl_seen]
  simp

theorem nodup_firstSeen (ids : List Nat) : (firstSeen ids).Nodup :=
  nodup_foldl_seen ids List.nodup_nil

/-! ### One call of a run -/

theorem bind_toOption {c : Except Raised (OffloadMoeCache ρ)}
    {f : OffloadMoeCache ρ → Except Raised (OffloadMoeCache ρ)} {c' : OffloadMoeCache ρ}
    (h : (c >>= f).toOption = some c') : ∃ c1, c = .ok c1 ∧ f c1 = .ok c' := by
  cases c with
  | error e => cases h
  | ok c1 =>
      refine ⟨c1, rfl, ?_⟩
      cases hf : f c1 with
      | error e =>
          have hnone : ((Except.ok c1 >>= f)).toOption = none := congrArg Except.toOption hf
          rw [hnone] at h
          cases h
      | ok c2 =>
          have hsome : ((Except.ok c1 >>= f)).toOption = some c2 := congrArg Except.toOption hf
          rw [hsome] at h
          rw [Option.some.inj h]

/-- A request, as the calls make it: distinct experts of a layer, a choice of victims and an
order of the misses. -/
structure Request (c : OffloadMoeCache ρ) (call : Call) (layer : Nat) (experts : List Nat)
    (pick : OffloadMoeCache ρ → Option Nat) (order : List Nat → List Nat) (asked : List Nat) :
    Prop where
  leastPick : LeastPick pick
  order_perm : ∀ l, (order l).Perm l
  nodup : asked.Nodup
  mem_asked : ∀ e, e ∈ asked ↔ e ∈ experts
  placements_eq : c.callPlacements call =
    placements pick layer (c.hits layer asked) (order (c.missing layer asked))

/-- A call that asks for experts and comes back has served them. -/
theorem served_of_next [Zero ρ] {c c' : OffloadMoeCache ρ} (h : c.Coherent) {call : Call}
    {layer : Nat} {experts : List Nat} (hasked : c.asked call = some (layer, experts))
    (hnext : next c call = some c') :
    layer < c.numLayers ∧ (∀ e ∈ experts, e < c.numExperts) ∧
      ∃ pick order asked, Request c call layer experts pick order asked ∧
        Served c c' layer asked (c.hits layer asked).pool
          ((order (c.missing layer asked)).map (c.flatId layer)) := by
  cases call with
  | materialize l =>
      cases hasked
      obtain ⟨c1, hserve, hcopy⟩ := bind_toOption hnext
      rw [materializeLayer] at hserve
      split at hserve
      · cases hserve
      · rename_i hl
        rw [if_neg (Nat.not_lt.mpr c.numExperts_le)] at hserve
        have hlayer := Nat.lt_of_not_le hl
        have hlt : ∀ e ∈ List.range c.numExperts, e < c.numExperts := fun e he =>
          List.mem_range.mp he
        have horder : ∀ l : List Nat, (id l).Perm l := fun l => List.Perm.refl l
        exact ⟨hlayer, hlt, freeOrLru, id, List.range c.numExperts,
          ⟨freeOrLru_leastPick, horder, List.nodup_range, fun e => Iff.rfl, rfl⟩,
          serve_served h freeOrLru_leastPick horder hlayer List.nodup_range hlt hserve hcopy⟩
  | ensure l ids =>
      cases hasked
      obtain ⟨c1, hserve, hcopy⟩ := bind_toOption hnext
      rw [ensureExperts] at hserve
      split at hserve
      · cases hserve
      · split at hserve
        · cases hserve
        · rename_i hids
          split at hserve
          · cases hserve
          · rename_i hl
            have hlayer := Nat.lt_of_not_le hl
            have hlt : ∀ e ∈ firstSeen experts, e < c.numExperts := fun e he =>
              Nat.lt_of_not_le fun hle => hids ⟨e, he, hle⟩
            have horder : ∀ l : List Nat, (l.insertionSort (· ≤ ·)).Perm l := fun l =>
              List.perm_insertionSort _ l
            exact ⟨hlayer, fun e he => hlt e (mem_firstSeen.mpr he), lruSlot,
              List.insertionSort (· ≤ ·), firstSeen experts,
              ⟨lruSlot_leastPick, horder, nodup_firstSeen experts, fun e => mem_firstSeen, rfl⟩,
              serve_served h lruSlot_leastPick horder hlayer (nodup_firstSeen experts) hlt hserve
                hcopy⟩
  | rebuild size => cases hasked
  | reset => cases hasked

/-- With valid experts the loop over the misses comes through, and the copy after it. -/
theorem serve_comesBack {c : OffloadMoeCache ρ} (h : c.Coherent) (hbanks : c.banks.length ≠ 0)
    (hsize : 0 < c.cacheSize) {pick : OffloadMoeCache ρ → Option Nat} (hpick : LeastPick pick)
    {order : List Nat → List Nat} (horder : ∀ l, (order l).Perm l) {layer : Nat}
    {asked : List Nat} (hnodup : asked.Nodup) (hlt : ∀ e ∈ asked, e < c.numExperts) :
    ∃ c', (serve pick order c layer asked >>= copyMissing).toOption = some c' := by
  have hlen : (c.hits layer asked).plan.length + (order (c.missing layer asked)).length ≤
      (c.hits layer asked).planSlots := by
    have hsub : asked ⊆ List.range c.numExperts := fun e he => List.mem_range.mpr (hlt e he)
    have hall := (hnodup.subperm hsub).length_le
    rw [List.length_range] at hall
    have hfilter : (c.missing layer asked).length ≤ asked.length := List.length_filter_le _ _
    have hplan : (c.hits layer asked).plan.length = 0 := rfl
    have hslots : c.numExperts ≤ (c.hits layer asked).planSlots := Nat.le_max_left _ _
    rw [(horder _).length_eq]
    omega
  have hpos : 0 < (c.hits layer asked).cacheSize := hsize
  obtain ⟨c1, hplace⟩ : ∃ c1, placeAll pick layer (c.hits layer asked)
      (order (c.missing layer asked)) = .ok c1 := placeAll_isOk hpick hpos hlen
  have hserving : Serving (c.hits layer asked).pool (c.hits layer asked).step
      (asked.map (c.flatId layer))
      ((order (c.missing layer asked)).map ((c.hits layer asked).flatId layer)) :=
    hits_serving h horder hnodup hlt
  obtain ⟨new, hplaced⟩ := placeAll_placed hpick hserving hplace
  have hsome : c1.banks.length ≠ 0 := by
    rw [hplaced.banks_eq]
    exact hbanks
  have hserve : serve pick order c layer asked =
      .ok (resync { c1 with pendingSrcLayer := some layer }) := by
    rw [serve, hplace]
    rfl
  have hcopy : ∃ c', copyMissing (resync { c1 with pendingSrcLayer := some layer }) = .ok c' := by
    rw [copyMissing]
    exact ⟨_, if_neg hsome⟩
  obtain ⟨c', hc'⟩ := hcopy
  refine ⟨c', ?_⟩
  rw [hserve]
  exact congrArg Except.toOption hc'

/-- With two slots and valid arguments, a call comes back. -/
theorem next_isSome [Zero ρ] {c : OffloadMoeCache ρ} (h : c.Coherent) (hbanks : c.banks.length ≠ 0)
    (hsize : 2 ≤ c.cacheSize) {call : Call} {layer : Nat} {experts : List Nat}
    (hasked : c.asked call = some (layer, experts)) (hlayer : layer < c.numLayers)
    (hlt : ∀ e ∈ experts, e < c.numExperts) : ∃ c', next c call = some c' := by
  have hpos : 0 < c.cacheSize := Nat.zero_lt_of_lt hsize
  cases call with
  | materialize l =>
      cases hasked
      have hhere : c.materializeLayer layer =
          serve freeOrLru id c layer (List.range c.numExperts) := by
        rw [materializeLayer, if_neg (Nat.not_le.mpr hlayer), if_neg (Nat.not_lt.mpr c.numExperts_le)]
      rw [next, hhere]
      exact serve_comesBack h hbanks hpos freeOrLru_leastPick (fun l => List.Perm.refl l)
        List.nodup_range hlt
  | ensure l ids =>
      cases hasked
      have hsmall : ¬ (c.banks.length ≠ 0 ∧ c.cacheSize < 2) := fun hboth =>
        Nat.not_lt.mpr hsize hboth.2
      have hids : ¬ ∃ e ∈ firstSeen experts, c.numExperts ≤ e := by
        rintro ⟨e, he, hle⟩
        exact Nat.not_lt.mpr hle (hlt e (mem_firstSeen.mp he))
      have hhere : c.ensureExperts layer experts =
          serve lruSlot (List.insertionSort (· ≤ ·)) c layer (firstSeen experts) := by
        rw [ensureExperts, if_neg hsmall, if_neg hids, if_neg (Nat.not_le.mpr hlayer)]
      rw [next, hhere]
      exact serve_comesBack h hbanks hpos lruSlot_leastPick (fun l => List.perm_insertionSort _ l)
        (nodup_firstSeen experts) fun e he => hlt e (mem_firstSeen.mp he)
  | rebuild size => cases hasked
  | reset => cases hasked

/-- Each victim of a call is no expert asked for, and an expert only where no slot is free. -/
theorem placements_victims {pick : OffloadMoeCache ρ → Option Nat} (hpick : LeastPick pick)
    {layer : Nat} {asked : List Nat} :
    ∀ {experts : List Nat} {c : OffloadMoeCache ρ},
      Serving c.pool c.step asked (experts.map (c.flatId layer)) →
      ∀ p ∈ placements pick layer c experts, ∀ id, p.1.idOfSlot p.2 = some id →
        id ∉ asked ∧ ∀ s < c.cacheSize, p.1.idOfSlot s ≠ none
  | [], _, _, _, hp, _, _ => by cases hp
  | e :: experts, c, hserving, p, hp, id, hid => by
      rw [placements] at hp
      split at hp
      · cases hp
      · rename_i v hv
        have hleast := hpick.least c v hserving.ok hv
        rcases List.mem_cons.mp hp with rfl | hp
        · exact ⟨hserving.displaced_notMem hleast hid, hleast.full hserving.ok hid⟩
        · have hnext : Serving (c.place layer e v).pool (c.place layer e v).step asked
              (experts.map ((c.place layer e v).flatId layer)) := hserving.put hleast
          exact placements_victims hpick hnext p hp id hid

/-! ### Coherence -/

theorem coherent_of_empty {c : OffloadMoeCache ρ} (hids : ∀ s, c.idOfSlot s = none)
    (hslots : ∀ id, c.slotForId id = none) (husage : ∀ s, c.usage s = 0) : c.Coherent := by
  have hno : ∀ s id, c.idOfSlot s ≠ some id := by
    intro s id hs
    rw [hids s] at hs
    cases hs
  refine ⟨⟨?_, ?_, ?_, ?_, ?_⟩, ?_, ?_, ?_⟩
  · intro s id hs
    exact absurd hs (hno s id)
  · intro s s' id hs
    exact absurd hs (hno s id)
  · intro s _ _
    exact husage s
  · intro s id hs
    exact absurd hs (hno s id)
  · intro s _
    exact Nat.le_trans (Nat.le_of_eq (husage s)) (Nat.zero_le _)
  · intro s id hs
    exact absurd hs (hno s id)
  · intro id s
    rw [hslots id, hids s]
    constructor <;> intro hs <;> cases hs
  · intro b _ s id hs
    exact absurd hs (hno s id)

theorem new_coherent [Zero ρ] {numLayers numExperts cacheSize : Nat}
    {sources : List (String × (Nat → Nat → ρ))} {c : OffloadMoeCache ρ}
    (h : new numLayers numExperts cacheSize sources = .ok c) : c.Coherent := by
  rw [new] at h
  split at h
  · cases h
  · obtain rfl := Except.ok.inj h
    exact coherent_of_empty (fun _ => rfl) (fun _ => rfl) fun _ => rfl

theorem rebuild_coherent [Zero ρ] {c c' : OffloadMoeCache ρ} {size : Nat}
    (h : c.rebuild size = .ok c') : c'.Coherent := by
  rw [rebuild] at h
  split at h
  · cases h
  · obtain rfl := Except.ok.inj h
    exact coherent_of_empty (fun _ => rfl) (fun _ => rfl) fun _ => rfl

/-- Every call keeps it. -/
theorem next_coherent [Zero ρ] {c c' : OffloadMoeCache ρ} (h : c.Coherent) {call : Call}
    (hnext : next c call = some c') : c'.Coherent := by
  cases call with
  | materialize l =>
      obtain ⟨_, _, _, _, _, _, hserved⟩ := served_of_next h rfl hnext
      exact hserved.coherent
  | ensure l ids =>
      obtain ⟨_, _, _, _, _, _, hserved⟩ := served_of_next h rfl hnext
      exact hserved.coherent
  | rebuild size => exact rebuild_coherent (toOption_eq_some.mp hnext)
  | reset =>
      obtain rfl := Option.some.inj hnext
      exact coherent_of_empty (fun _ => rfl) (fun _ => rfl) fun _ => rfl

/-- Every expert asked for has a slot afterwards. -/
theorem resident_of_next [Zero ρ] {c c' : OffloadMoeCache ρ} (h : c.Coherent) {call : Call}
    {layer : Nat} {experts : List Nat} (hasked : c.asked call = some (layer, experts))
    (hnext : next c call = some c') :
    ∀ e ∈ experts, ∃ s, c'.slotForId (c.flatId layer e) = some s := by
  intro e he
  obtain ⟨-, -, pick, order, asked, hreq, hserved⟩ := served_of_next h hasked hnext
  have hend := hserved.puts.serving hserved.serving
  have hmem : c.flatId layer e ∈ asked.map (c.flatId layer) :=
    List.mem_map_of_mem ((hreq.mem_asked e).mpr he)
  obtain ⟨s, hs, -⟩ := hend.present _ hmem List.not_mem_nil
  exact ⟨s, (hserved.coherent.inverse _ s).mpr hs⟩

/-- What the cache is built for. -/
structure Fits (c : OffloadMoeCache ρ) (numLayers numExperts : Nat)
    (sources : List (String × (Nat → Nat → ρ))) : Prop where
  numLayers_eq : c.numLayers = numLayers
  numExperts_eq : c.numExperts = numExperts
  sources_eq : c.sources = sources

section Runs

variable [Zero ρ] {numLayers numExperts cacheSize : Nat}
  {sources : List (String × (Nat → Nat → ρ))} {c0 c c' : OffloadMoeCache ρ} {calls : List Call}

theorem new_fits (h : new numLayers numExperts cacheSize sources = .ok c) :
    c.Fits numLayers numExperts sources := by
  rw [new] at h
  split at h
  · cases h
  · obtain rfl := Except.ok.inj h
    refine ⟨rfl, rfl, ?_⟩
    rw [OffloadMoeCache.sources, List.map_map]
    exact List.map_id _

theorem cleared_sources (c : OffloadMoeCache ρ) :
    (c.banks.map fun b => { b with cache := fun _ => 0 }).map (fun b => (b.name, b.host)) =
      c.sources := by
  rw [List.map_map]
  rfl

/-- No call changes it. -/
theorem next_fits (hfits : c.Fits numLayers numExperts sources) (h : c.Coherent) {call : Call}
    (hnext : next c call = some c') : c'.Fits numLayers numExperts sources := by
  obtain ⟨hlayers, hexperts, hsources⟩ := hfits
  have hserved : ∀ {layer asked p rest}, Served c c' layer asked p rest →
      c'.Fits numLayers numExperts sources := fun hserved =>
    ⟨hserved.numLayers_eq.trans hlayers, hserved.numExperts_eq.trans hexperts,
      hserved.sources_eq.trans hsources⟩
  cases call with
  | materialize l =>
      obtain ⟨_, _, _, _, _, _, hs⟩ := served_of_next h rfl hnext
      exact hserved hs
  | ensure l ids =>
      obtain ⟨_, _, _, _, _, _, hs⟩ := served_of_next h rfl hnext
      exact hserved hs
  | rebuild size =>
      have hrebuild := toOption_eq_some.mp hnext
      rw [rebuild] at hrebuild
      split at hrebuild
      · cases hrebuild
      · obtain rfl := Except.ok.inj hrebuild
        exact ⟨hlayers, hexperts, (cleared_sources c).trans hsources⟩
  | reset =>
      obtain rfl := Option.some.inj hnext
      exact ⟨hlayers, hexperts, (cleared_sources c).trans hsources⟩

theorem run_coherent (hnew : new numLayers numExperts cacheSize sources = .ok c0)
    (hrun : Run.exec next c0 calls = some c) :
    c.Coherent ∧ c.Fits numLayers numExperts sources := by
  have hstep : ∀ c call c', c.Coherent ∧ c.Fits numLayers numExperts sources →
      next c call = some c' → c'.Coherent ∧ c'.Fits numLayers numExperts sources := by
    rintro c call c' ⟨hc, hfits⟩ hnext
    exact ⟨next_coherent hc hnext, next_fits hfits hc hnext⟩
  exact Run.invariant_of_all (fun c : OffloadMoeCache ρ => c.Coherent ∧
    c.Fits numLayers numExperts sources) hstep ⟨new_coherent hnew, new_fits hnew⟩ hrun

/-- In every state that a run reaches the cache is coherent; and a call there that asks for
experts comes back when its arguments are valid and there are two slots, and when it does,
each of its experts has a slot of its own, and none of them was displaced on the way. -/
theorem experts_coherent (hnew : new numLayers numExperts cacheSize sources = .ok c0)
    (hrun : Run.exec next c0 calls = some c) :
    c.Coherent ∧
      ∀ call layer experts, c.asked call = some (layer, experts) →
        (sources ≠ [] → 2 ≤ c.cacheSize → layer < numLayers → (∀ e ∈ experts, e < numExperts) →
          ∃ c', next c call = some c') ∧
        ∀ c', next c call = some c' →
          (∀ e ∈ experts, ∃ s, c'.slotForId (c.flatId layer e) = some s ∧
            ∀ id, c'.slotForId id = some s → id = c.flatId layer e) ∧
          ∀ p ∈ c.callPlacements call, ∀ e ∈ experts,
            p.1.idOfSlot p.2 ≠ some (c.flatId layer e) := by
  obtain ⟨hc, hlayers, hexperts, hsources⟩ := run_coherent hnew hrun
  refine ⟨hc, ?_⟩
  intro call layer experts hasked
  constructor
  · intro hne hsize hlayer hlt
    have hbanks : c.banks.length ≠ 0 := by
      intro hzero
      apply hne
      rw [← hsources, OffloadMoeCache.sources, List.length_eq_zero_iff.mp hzero, List.map_nil]
    rw [← hlayers] at hlayer
    rw [← hexperts] at hlt
    exact next_isSome hc hbanks hsize hasked hlayer hlt
  · intro c' hnext
    obtain ⟨-, hlt, pick, order, asked, hreq, -⟩ := served_of_next hc hasked hnext
    have hcoherent := next_coherent hc hnext
    constructor
    · intro e he
      obtain ⟨s, hs⟩ := resident_of_next hc hasked hnext e he
      refine ⟨s, hs, ?_⟩
      intro id hid
      have hown := (hcoherent.inverse _ s).mp hs
      have hid' := (hcoherent.inverse id s).mp hid
      exact Option.some.inj (hid'.symm.trans hown)
    · intro p hp e he heq
      rw [hreq.placements_eq] at hp
      have hserving : Serving (c.hits layer asked).pool (c.hits layer asked).step
          (asked.map (c.flatId layer))
          ((order (c.missing layer asked)).map ((c.hits layer asked).flatId layer)) :=
        hits_serving hc hreq.order_perm hreq.nodup fun e he => hlt e ((hreq.mem_asked e).mp he)
      have hvictim := placements_victims hreq.leastPick hserving p hp _ heq
      exact hvictim.1 (List.mem_map_of_mem ((hreq.mem_asked e).mpr he))

/-- A row of one number. -/
structure NumberRow where
  number : Nat

instance : Zero NumberRow := ⟨⟨0⟩⟩

/-- Two layers of two experts, with three slots. -/
def twoLayers : Except Raised (OffloadMoeCache NumberRow) :=
  new 2 2 3 [("gate_up", fun layer expert => ⟨10 * layer + expert⟩)]

/-- The second layer displaces the first one, but for one expert. -/
def prefillBoth : List Call := [.materialize 0, .materialize 1]

theorem prefillBoth_coherent : ∃ c0 c, twoLayers = .ok c0 ∧ Run.exec next c0 prefillBoth = some c ∧
    c.Coherent := by
  have hsome : (twoLayers.toOption.bind fun c => Run.exec next c prefillBoth).isSome := by
    decide +kernel
  obtain ⟨c, hbind⟩ := Option.isSome_iff_exists.mp hsome
  obtain ⟨c0, hc0, hrun⟩ := Option.bind_eq_some_iff.mp hbind
  have hnew := toOption_eq_some.mp hc0
  exact ⟨c0, c, hnew, hrun, (experts_coherent hnew hrun).1⟩

/-! ### Recency -/

/-- The request of a call is added to the history, which begins again with an empty pool. -/
def record (history : List (Nat × List Nat)) (_ : OffloadMoeCache ρ) (_ : Call) :
    Option (Nat × List Nat) → List (Nat × List Nat)
  | none => []
  | some request => request :: history

/-- A run beside its history. -/
def recorded : List (Nat × List Nat) × OffloadMoeCache ρ → Call →
    Option (List (Nat × List Nat) × OffloadMoeCache ρ) :=
  Run.watch (fun c call => (next c call).map fun c' => (c.asked call, c')) record

/-- The number of the last request for the expert, `0` when there was none. -/
def lastCall (layer expert : Nat) : List (Nat × List Nat) → Nat
  | [] => 0
  | request :: history =>
      if request.1 = layer ∧ expert ∈ request.2 then history.length + 1
      else lastCall layer expert history

/-- The expert has a slot. -/
def Resident (c : OffloadMoeCache ρ) (layer expert : Nat) : Prop :=
  ∃ s, c.slotForId (c.flatId layer expert) = some s

/-- The stamps are the numbers of the last requests. -/
structure Recent (history : List (Nat × List Nat)) (c : OffloadMoeCache ρ) : Prop where
  coherent : c.Coherent
  step_eq : c.step = history.length
  lru : Lru (fun id => lastCall (id / c.numExperts) (id % c.numExperts) history) c.pool c.step

omit [Zero ρ] in
theorem recent_of_empty (h : c.Coherent) (hids : ∀ s, c.idOfSlot s = none) (hstep : c.step = 0) :
    Recent [] c := by
  have hno : ∀ s id, c.pool.owner s ≠ some id := by
    intro s id hs
    have hnone := hids s
    rw [show c.idOfSlot s = some id from hs] at hnone
    cases hnone
  refine ⟨h, hstep, h.ok, ?_, ?_, ?_⟩
  · intro s id hs
    exact absurd hs (hno s id)
  · rintro id id' - ⟨s, hs⟩
    exact absurd hs (hno s id')
  · intro id
    exact Nat.zero_le _

theorem new_recent (h : new numLayers numExperts cacheSize sources = .ok c) : Recent [] c := by
  have hc := new_coherent h
  rw [new] at h
  split at h
  · cases h
  · obtain rfl := Except.ok.inj h
    exact recent_of_empty hc (fun _ => rfl) rfl

omit [Zero ρ] in
/-- A call that asks for experts. -/
theorem Recent.served {history : List (Nat × List Nat)} (h : Recent history c) {layer : Nat}
    {experts asked : List Nat} {p : Pool Nat} {rest : List Nat}
    (hlt : ∀ e ∈ experts, e < c.numExperts) (hmem : ∀ e, e ∈ asked ↔ e ∈ experts)
    (hserved : Served c c' layer asked p rest) : Recent ((layer, experts) :: history) c' := by
  have hstep : c'.step = history.length + 1 := by
    rw [hserved.step_eq, h.step_eq]
  refine ⟨hserved.coherent, hstep, ?_⟩
  have hgrow : c.step < c'.step := by
    rw [hserved.step_eq]
    exact Nat.lt_succ_self _
  apply h.lru.serve hgrow hserved.touched hserved.serving hserved.puts
  · intro id hid
    obtain ⟨e, he, rfl⟩ := List.mem_map.mp hid
    have he' := (hmem e).mp he
    rw [hserved.numExperts_eq, flatId_div (hlt e he'), flatId_mod (hlt e he'), lastCall,
      if_pos ⟨rfl, he'⟩, hstep]
  · intro id hid
    rw [hserved.numExperts_eq, lastCall, if_neg]
    rintro ⟨hlayer, he⟩
    apply hid
    have hflat : c.flatId layer (id % c.numExperts) = id := by
      change layer = _ at hlayer
      rw [flatId, hlayer, Nat.mul_comm]
      exact Nat.div_add_mod id c.numExperts
    rw [← hflat]
    exact List.mem_map_of_mem ((hmem _).mpr he)

theorem recorded_recent {history history' : List (Nat × List Nat)} (h : Recent history c)
    {call : Call} (hnext : recorded (history, c) call = some (history', c')) :
    Recent history' c' := by
  obtain ⟨⟨request, c1⟩, hr, heq⟩ := Option.map_eq_some_iff.mp hnext
  obtain ⟨c2, hc2, hr⟩ := Option.map_eq_some_iff.mp hr
  cases hr
  cases heq
  have hcoherent := next_coherent h.coherent hc2
  cases call with
  | materialize l =>
      obtain ⟨-, hlt, _, _, _, hreq, hserved⟩ := served_of_next h.coherent rfl hc2
      exact h.served hlt hreq.mem_asked hserved
  | ensure l ids =>
      obtain ⟨-, hlt, _, _, _, hreq, hserved⟩ := served_of_next h.coherent rfl hc2
      exact h.served hlt hreq.mem_asked hserved
  | rebuild size =>
      have hrebuild := toOption_eq_some.mp hc2
      rw [rebuild] at hrebuild
      split at hrebuild
      · cases hrebuild
      · obtain rfl := Except.ok.inj hrebuild
        exact recent_of_empty hcoherent (fun _ => rfl) rfl
  | reset =>
      obtain rfl := Option.some.inj hc2
      exact recent_of_empty hcoherent (fun _ => rfl) rfl

/-- In every state that a run reaches, an expert with a slot was last asked for no earlier
than one that has none; and a further call that comes back displaces no expert while a slot
is free. -/
theorem experts_leastRecent (hnew : new numLayers numExperts cacheSize sources = .ok c0)
    {history : List (Nat × List Nat)}
    (hrun : Run.exec recorded ([], c0) calls = some (history, c)) :
    (∀ layer expert layer' expert', expert < numExperts → expert' < numExperts →
        c.Resident layer expert → ¬ c.Resident layer' expert' →
        lastCall layer' expert' history ≤ lastCall layer expert history) ∧
      ∀ call c', next c call = some c' → ∀ p ∈ c.callPlacements call,
        p.1.idOfSlot p.2 ≠ none → ∀ s < c.cacheSize, p.1.idOfSlot s ≠ none := by
  have hplain : Run.exec next c0 calls = some c := by
    have hwatch := Run.exec_watch.mp ⟨history, hrun⟩
    have hnext : (fun (c : OffloadMoeCache ρ) (call : Call) =>
        ((next c call).map fun c' => (c.asked call, c')).map Prod.snd) = next := by
      funext c call
      rw [Option.map_map]
      exact Option.map_id'
    rw [hnext] at hwatch
    exact hwatch
  obtain ⟨hc, -, hexperts, -⟩ := run_coherent hnew hplain
  have hrecent : Recent history c := Run.invariant_of_all
    (fun x : List (Nat × List Nat) × OffloadMoeCache ρ => Recent x.1 x.2)
    (fun _ _ _ hx hnext => recorded_recent hx hnext) (new_recent hnew) hrun
  constructor
  · intro layer expert layer' expert' he he' hres hgone
    rw [← hexperts] at he he'
    have hholds : c.pool.Holds (c.flatId layer expert) :=
      hres.imp fun s hs => (hc.inverse _ s).mp hs
    have hnot : ¬ c.pool.Holds (c.flatId layer' expert') := fun hh =>
      hgone (hh.imp fun s hs => (hc.inverse _ s).mpr hs)
    have hle := hrecent.lru.recent _ _ hnot hholds
    simp only [flatId_div he, flatId_div he', flatId_mod he, flatId_mod he'] at hle
    exact hle
  · intro call c' hnext p hp howner
    have hasked : ∃ request, c.asked call = some request := by
      cases call with
      | materialize l => exact ⟨_, rfl⟩
      | ensure l ids => exact ⟨_, rfl⟩
      | rebuild size => cases hp
      | reset => cases hp
    obtain ⟨⟨layer, experts⟩, hasked⟩ := hasked
    obtain ⟨-, hlt, pick, order, asked, hreq, -⟩ := served_of_next hc hasked hnext
    rw [hreq.placements_eq] at hp
    have hserving : Serving (c.hits layer asked).pool (c.hits layer asked).step
        (asked.map (c.flatId layer))
        ((order (c.missing layer asked)).map ((c.hits layer asked).flatId layer)) :=
      hits_serving hc hreq.order_perm hreq.nodup fun e he => hlt e ((hreq.mem_asked e).mp he)
    obtain ⟨id, hid⟩ := Option.ne_none_iff_exists'.mp howner
    exact (placements_victims hreq.leastPick hserving p hp id hid).2

theorem prefillBoth_leastRecent : ∃ c0 history c, twoLayers = .ok c0 ∧
    Run.exec recorded ([], c0) prefillBoth = some (history, c) ∧
    (c.Resident 1 0 → ¬ c.Resident 0 0 → lastCall 0 0 history ≤ lastCall 1 0 history) := by
  have hsome : (twoLayers.toOption.bind fun c => Run.exec recorded ([], c) prefillBoth).isSome := by
    decide +kernel
  obtain ⟨⟨history, c⟩, hbind⟩ := Option.isSome_iff_exists.mp hsome
  obtain ⟨c0, hc0, hrun⟩ := Option.bind_eq_some_iff.mp hbind
  have hnew := toOption_eq_some.mp hc0
  have hpos : 0 < 2 := by decide
  exact ⟨c0, history, c, hnew, hrun,
    (experts_leastRecent hnew hrun).1 1 0 0 0 hpos hpos⟩

end Runs

end OffloadMoeCache

end FreeToken
