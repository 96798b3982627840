import FreeToken.Server.AnthropicApi

/-!
# Streams of `/v1/messages`

Whatever the deltas are, the events hold the same thinking and the same text as the message, and each
delta follows the start of its block. But the block of an index is started whenever the type of the
deltas changes to it. So a stream is one for the message exactly when the types change once at most.
-/

namespace FreeToken.Anthropic

/-! ### The loop over pieces -/

/-- The deltas that are not empty. -/
def pieces (ds : List Delta) : List Block :=
  ds.flatMap fun d =>
    (if d.reasoning = [] then [] else [⟨.thinking, d.reasoning⟩]) ++
      (if d.content = [] then [] else [⟨.text, d.content⟩])

theorem pieces_cons (d : Delta) (ds : List Delta) :
    pieces (d :: ds) = (if d.reasoning = [] then [] else [⟨.thinking, d.reasoning⟩]) ++
      (if d.content = [] then [] else [⟨.text, d.content⟩]) ++ pieces ds :=
  rfl

def pieceEvents (cursor : Cursor) : List Block → List Event
  | [] => []
  | b :: bs => (blockEvents cursor b.type b.body).1 ++ pieceEvents (blockEvents cursor b.type b.body).2 bs

theorem loopEvents_eq (cursor : Cursor) (ds : List Delta) :
    loopEvents cursor ds = pieceEvents cursor (pieces ds) := by
  induction ds generalizing cursor with
  | nil => rfl
  | cons d ds ih =>
      rw [loopEvents, ih, pieces_cons, deltaEvents]
      by_cases hr : d.reasoning = [] <;> by_cases hc : d.content = [] <;>
        simp [hr, hc, pieceEvents]

theorem types_pieces (ds : List Delta) : (pieces ds).map Block.type = deltaTypes ds := by
  rw [pieces, List.map_flatMap, deltaTypes]
  apply List.flatMap_congr
  intro d _
  split_ifs <;> rfl

/-- The cursor inside the block of a type. -/
def inBlock (type : BlockType) : Cursor := ⟨true, type.index⟩

theorem blockEvents_same (type : BlockType) (delta : List Char) :
    blockEvents (inBlock type) type delta =
      ([.contentBlockDelta type.index ⟨type, delta⟩], inBlock type) :=
  if_neg (by simp [inBlock])

theorem blockEvents_other {cursor : Cursor} {type : BlockType}
    (h : cursor.blockOpened = false ∨ cursor.blockIndex ≠ type.index) (delta : List Char) :
    blockEvents cursor type delta =
      ([.contentBlockStart type.index ⟨type, []⟩, .contentBlockDelta type.index ⟨type, delta⟩],
        inBlock type) :=
  if_pos h

theorem pieceEvents_same (b : Block) (bs : List Block) :
    pieceEvents (inBlock b.type) (b :: bs) =
      .contentBlockDelta b.type.index b :: pieceEvents (inBlock b.type) bs := by
  rw [pieceEvents, blockEvents_same]
  rfl

theorem pieceEvents_other {cursor : Cursor} {b : Block}
    (h : cursor.blockOpened = false ∨ cursor.blockIndex ≠ b.type.index) (bs : List Block) :
    pieceEvents cursor (b :: bs) = .contentBlockStart b.type.index ⟨b.type, []⟩ ::
      .contentBlockDelta b.type.index b :: pieceEvents (inBlock b.type) bs := by
  rw [pieceEvents, blockEvents_other h]
  rfl

theorem pieceEvents_turn {type : BlockType} {b : Block} (h : b.type ≠ type) (bs : List Block) :
    pieceEvents (inBlock type) (b :: bs) = .contentBlockStart b.type.index ⟨b.type, []⟩ ::
      .contentBlockDelta b.type.index b :: pieceEvents (inBlock b.type) bs :=
  pieceEvents_other (.inr fun heq => h (BlockType.index_inj heq).symm) bs

/-! ### Deltas and their blocks -/

theorem streamedDeltas_pieceEvents (cursor : Cursor) (bs : List Block) :
    streamedDeltas (pieceEvents cursor bs) = bs := by
  induction bs generalizing cursor with
  | nil => rfl
  | cons b bs ih =>
      by_cases h : cursor.blockOpened = false ∨ cursor.blockIndex ≠ b.type.index
      · rw [pieceEvents_other h]
        exact congrArg (b :: ·) (ih _)
      · rw [pieceEvents, blockEvents, if_neg h]
        exact congrArg (b :: ·) (ih _)

theorem streamedDeltas_append (es es' : List Event) :
    streamedDeltas (es ++ es') = streamedDeltas es ++ streamedDeltas es' := by
  induction es with
  | nil => rfl
  | cons e es ih =>
      cases e with
      | contentBlockDelta index delta => exact congrArg (delta :: ·) ih
      | _ => exact ih

/-- The bodies of one type, whether or not the empty ones are left out. -/
theorem flatten_filter_ne_nil (ls : List (List Char)) :
    (ls.filter (· ≠ [])).flatten = ls.flatten := by
  induction ls with
  | nil => rfl
  | cons l ls ih =>
      cases l with
      | nil => simpa using ih
      | cons a l => simpa using ih

theorem bodyOf_append (type : BlockType) (bs bs' : List Block) :
    bodyOf type (bs ++ bs') = bodyOf type bs ++ bodyOf type bs' := by
  simp [bodyOf]

theorem bodyOf_pieces (ds : List Delta) :
    bodyOf .thinking (pieces ds) = (reasoningParts ds).flatten ∧
      bodyOf .text (pieces ds) = (contentParts ds).flatten := by
  rw [reasoningParts, contentParts, flatten_filter_ne_nil, flatten_filter_ne_nil]
  induction ds with
  | nil => exact ⟨rfl, rfl⟩
  | cons d ds ih =>
      obtain ⟨hthinking, htext⟩ := ih
      simp only [pieces_cons, bodyOf_append, hthinking, htext]
      by_cases hr : d.reasoning = [] <;> by_cases hc : d.content = [] <;>
        simp [hr, hc, bodyOf]

/-- The message holds the deltas of each type. -/
theorem bodyOf_messageContent (type : BlockType) (ds : List Delta) :
    bodyOf type (messageContent ds) = bodyOf type (pieces ds) := by
  obtain ⟨hthinking, htext⟩ := bodyOf_pieces ds
  cases type with
  | thinking =>
      rw [hthinking]
      by_cases hr : reasoningParts ds = [] <;> by_cases hc : contentParts ds = [] <;>
        simp [hr, hc, messageContent, bodyOf]
  | text =>
      rw [htext]
      by_cases hr : reasoningParts ds = [] <;> by_cases hc : contentParts ds = [] <;>
        simp [hr, hc, messageContent, bodyOf]

theorem deltasOpened_loop {cursor : Cursor} {opened : List (Nat × BlockType)} (bs : List Block)
    (h : cursor.blockOpened = true → ∃ type, cursor = inBlock type ∧ (type.index, type) ∈ opened) :
    DeltasOpened opened (pieceEvents cursor bs ++ [.messageStop]) := by
  induction bs generalizing cursor opened with
  | nil => exact True.intro
  | cons b bs ih =>
      by_cases hother : cursor.blockOpened = false ∨ cursor.blockIndex ≠ b.type.index
      · rw [pieceEvents_other hother]
        exact ⟨List.mem_cons_self, ih fun _ => ⟨b.type, rfl, List.mem_cons_self⟩⟩
      · rw [not_or, Bool.not_eq_false, not_not] at hother
        obtain ⟨type, rfl, hmem⟩ := h hother.1
        obtain rfl := BlockType.index_inj hother.2
        rw [pieceEvents_same]
        exact ⟨hmem, ih fun _ => ⟨b.type, rfl, hmem⟩⟩

/-! ### Starts -/

@[simp] theorem starts_start (index i : Nat) (block : Block) (es : List Event) :
    starts index (.contentBlockStart i block :: es) = (if i = index then 1 else 0) + starts index es := by
  rw [starts, starts, List.countP_cons, Nat.add_comm]
  simp

@[simp] theorem starts_delta (index i : Nat) (delta : Block) (es : List Event) :
    starts index (.contentBlockDelta i delta :: es) = starts index es := by
  simp [starts]

theorem starts_pos {type k : BlockType} (h : type ≠ k) {bs : List Block} {b : Block} (hb : b ∈ bs)
    (htype : b.type = type) : 0 < starts type.index (pieceEvents (inBlock k) bs) := by
  induction bs generalizing k with
  | nil => cases hb
  | cons b' bs ih =>
      by_cases hk : b'.type = k
      · subst hk
        rw [pieceEvents_same, starts_delta]
        apply ih h
        obtain rfl | hb := List.mem_cons.mp hb
        · exact absurd htype.symm h
        · exact hb
      · rw [pieceEvents_turn hk, starts_start]
        by_cases htype' : b'.type = type
        · rw [if_pos (congrArg BlockType.index htype')]
          exact Nat.add_pos_left Nat.one_pos _
        · rw [starts_delta]
          apply Nat.add_pos_right
          apply ih (Ne.symm htype')
          obtain rfl | hb := List.mem_cons.mp hb
          · exact absurd htype htype'
          · exact hb

theorem starts_zero {k : BlockType} {bs : List Block} (h : ∀ b ∈ bs, b.type = k) (index : Nat) :
    starts index (pieceEvents (inBlock k) bs) = 0 := by
  induction bs with
  | nil => rfl
  | cons b bs ih =>
      obtain rfl := h b List.mem_cons_self
      rw [pieceEvents_same, starts_delta]
      exact ih fun b' hb' => h b' (List.mem_cons_of_mem _ hb')

theorem first_cons {type k : BlockType} {types : List BlockType} :
    First type (k :: types) ↔ (type ∈ types → k = type) ∧ First type types := by
  rw [First, List.pairwise_cons]
  exact and_congr_left fun _ => ⟨fun h hmem => h type hmem rfl, fun h k' hk' heq => h (heq ▸ hk')⟩

theorem first_of_notMem {type : BlockType} {types : List BlockType} (h : type ∉ types) :
    First type types := by
  induction types with
  | nil => exact List.Pairwise.nil
  | cons k types ih =>
      rw [List.mem_cons, not_or] at h
      exact first_cons.mpr ⟨fun hmem => absurd hmem h.2, ih h.2⟩

theorem other_type {k type b : BlockType} (hk : k ≠ type) (hb : b ≠ type) : b = k := by
  cases k <;> cases type <;> cases b <;> first | rfl | exact absurd rfl hk | exact absurd rfl hb

/-- Inside the block of a type, no index is started twice exactly when the type does not come back. -/
theorem starts_le_iff (type : BlockType) (bs : List Block) :
    (∀ index, (if type.index = index then 1 else 0) + starts index (pieceEvents (inBlock type) bs) ≤ 1) ↔
      First type (bs.map Block.type) := by
  induction bs generalizing type with
  | nil =>
      refine ⟨fun _ => List.Pairwise.nil, fun _ index => ?_⟩
      change (if type.index = index then 1 else 0) ≤ 1
      split_ifs <;> decide
  | cons b bs ih =>
      rw [List.map_cons, first_cons]
      by_cases hb : b.type = type
      · subst hb
        simp only [pieceEvents_same, starts_delta]
        rw [ih]
        exact ⟨fun h => ⟨fun _ => trivial, h⟩, And.right⟩
      · simp only [pieceEvents_turn hb, starts_start, starts_delta]
        constructor
        · intro h
          have hnot : type ∉ bs.map Block.type := by
            intro hmem
            obtain ⟨b', hb', htype⟩ := List.mem_map.mp hmem
            have hpos := starts_pos (Ne.symm hb) hb' htype
            have hle := h type.index
            rw [if_pos rfl] at hle
            omega
          exact ⟨fun hmem => absurd hmem hnot, first_of_notMem hnot⟩
        · rintro ⟨hnot, -⟩ index
          have hall : ∀ b' ∈ bs, b'.type = b.type := fun b' hb' =>
            other_type hb fun heq => hb (hnot (List.mem_map.mpr ⟨b', hb', heq⟩))
          rw [starts_zero hall]
          have hindex : type.index ≠ b.type.index := fun heq => hb (BlockType.index_inj heq).symm
          split_ifs <;> omega

theorem starts_events_iff (bs : List Block) :
    (∀ index, starts index (pieceEvents {} bs) ≤ 1) ↔ ∃ type, First type (bs.map Block.type) := by
  cases bs with
  | nil => exact ⟨fun _ => ⟨.text, List.Pairwise.nil⟩, fun _ _ => Nat.zero_le 1⟩
  | cons b bs =>
      simp only [@pieceEvents_other {} _ (.inl rfl), starts_start, starts_delta]
      rw [starts_le_iff]
      constructor
      · intro h
        exact ⟨b.type, first_cons.mpr ⟨fun _ => rfl, h⟩⟩
      · rintro ⟨type, h⟩
        rw [List.map_cons, first_cons] at h
        by_cases hb : b.type = type
        · exact hb ▸ h.2
        · have hnot : type ∉ bs.map Block.type := fun hmem => hb (h.1 hmem)
          have hall : ∀ k ∈ bs.map Block.type, k = b.type :=
            fun k hk => other_type hb fun heq => hnot (heq ▸ hk)
          exact List.pairwise_of_forall_mem_list fun k hk k' hk' _ => hall k hk

/-! ### The client -/

/-- The deltas of an index. -/
def deltasAt (index : Nat) : List Event → List Char
  | [] => []
  | .contentBlockDelta i delta :: es => (if i = index then delta.body else []) ++ deltasAt index es
  | _ :: es => deltasAt index es

theorem deltasAt_pieceEvents (type : BlockType) (cursor : Cursor) (bs : List Block) :
    deltasAt type.index (pieceEvents cursor bs ++ [.messageStop]) = bodyOf type bs := by
  induction bs generalizing cursor with
  | nil => rfl
  | cons b bs ih =>
      have hbody : bodyOf type (b :: bs) =
          (if b.type.index = type.index then b.body else []) ++ bodyOf type bs := by
        by_cases hb : b.type = type
        · simp [bodyOf, hb]
        · rw [if_neg fun heq => hb (BlockType.index_inj heq)]
          simp [bodyOf, hb]
      rw [hbody]
      by_cases h : cursor.blockOpened = false ∨ cursor.blockIndex ≠ b.type.index
      · rw [pieceEvents_other h]
        exact congrArg (_ ++ ·) (ih _)
      · rw [pieceEvents, blockEvents, if_neg h]
        exact congrArg (_ ++ ·) (ih _)

/-- A block that is not started again grows by the deltas of its index. -/
theorem assemble_grows {index : Nat} {es : List Event} {c : Client} {block : Block}
    (hstarts : starts index es = 0) (hc : c index = some block) :
    c.assemble es index = some { block with body := block.body ++ deltasAt index es } := by
  induction es generalizing c block with
  | nil => simpa [Client.assemble, deltasAt] using hc
  | cons e es ih =>
      cases e with
      | contentBlockStart i b =>
          rw [starts_start, Nat.add_eq_zero_iff] at hstarts
          have hne : i ≠ index := fun heq => by simp [heq] at hstarts
          apply ih hstarts.2
          exact (Function.update_of_ne (Ne.symm hne) _ _).trans hc
      | contentBlockDelta i delta =>
          rw [starts_delta] at hstarts
          by_cases hi : i = index
          · subst hi
            have hgrown : (c.receive (.contentBlockDelta i delta)) i =
                some { block with body := block.body ++ delta.body } := by
              rw [Client.receive, Function.update_self, hc]
              rfl
            refine (ih hstarts hgrown).trans ?_
            simp [deltasAt]
          · have hsame : (c.receive (.contentBlockDelta i delta)) index = some block :=
              (Function.update_of_ne (Ne.symm hi) _ _).trans hc
            refine (ih hstarts hsame).trans ?_
            simp [deltasAt, hi]
      | error body => exact ih (by simpa [starts] using hstarts) hc
      | messageStart head => exact ih (by simpa [starts] using hstarts) hc
      | messageStop => exact ih (by simpa [starts] using hstarts) hc

/-- Blocks are started empty. -/
def StartsEmpty (es : List Event) : Prop :=
  ∀ index block, .contentBlockStart index block ∈ es → block.body = []

/-- A block that is started once holds the deltas of its index. -/
theorem assemble_once {index : Nat} {es : List Event} {c : Client}
    {opened : List (Nat × BlockType)} (hstarts : starts index es ≤ 1) (hempty : StartsEmpty es)
    (hopened : DeltasOpened opened es) (hnone : ∀ type, (index, type) ∉ opened)
    (hc : c index = none) : ((c.assemble es index).map Block.body).getD [] = deltasAt index es := by
  induction es generalizing c opened with
  | nil =>
      rw [Client.assemble, List.foldl_nil, hc]
      rfl
  | cons e es ih =>
      have hrest : StartsEmpty es := fun i b hmem => hempty i b (List.mem_cons_of_mem _ hmem)
      cases e with
      | contentBlockStart i b =>
          rw [starts_start] at hstarts
          by_cases hi : i = index
          · subst hi
            rw [if_pos rfl] at hstarts
            have hset : c.receive (.contentBlockStart i b) i = some b := Function.update_self ..
            have hzero : starts i es = 0 := by omega
            have hgrows := assemble_grows hzero hset
            have hbody : b.body = [] := hempty i b List.mem_cons_self
            refine (congrArg (fun o => (o.map Block.body).getD []) hgrows).trans ?_
            simp [hbody, deltasAt]
          · rw [if_neg hi, Nat.zero_add] at hstarts
            apply ih hstarts hrest hopened
            · intro type hmem
              obtain heq | hmem := List.mem_cons.mp hmem
              · exact hi (congrArg Prod.fst heq).symm
              · exact hnone type hmem
            · exact (Function.update_of_ne (Ne.symm hi) _ _).trans hc
      | contentBlockDelta i delta =>
          rw [starts_delta] at hstarts
          have hi : i ≠ index := fun heq => hnone delta.type (heq ▸ hopened.1)
          refine (ih hstarts hrest hopened.2 hnone ?_).trans ?_
          · exact (Function.update_of_ne (Ne.symm hi) _ _).trans hc
          · simp [deltasAt, hi]
      | error body => exact ih (by simpa [starts] using hstarts) hrest hopened hnone hc
      | messageStart head => exact ih (by simpa [starts] using hstarts) hrest hopened hnone hc
      | messageStop => exact ih (by simpa [starts] using hstarts) hrest hopened hnone hc

theorem startsEmpty_pieceEvents (cursor : Cursor) (bs : List Block) :
    StartsEmpty (pieceEvents cursor bs) := by
  induction bs generalizing cursor with
  | nil => exact fun _ _ hmem => by cases hmem
  | cons b bs ih =>
      intro index block hmem
      by_cases h : cursor.blockOpened = false ∨ cursor.blockIndex ≠ b.type.index
      · rw [pieceEvents_other h, List.mem_cons, List.mem_cons] at hmem
        obtain hstart | hdelta | hrest := hmem
        · obtain ⟨-, rfl⟩ := Event.contentBlockStart.inj hstart
          rfl
        · cases hdelta
        · exact ih _ index block hrest
      · rw [pieceEvents, blockEvents, if_neg h, List.mem_append, List.mem_singleton] at hmem
        obtain hdelta | hrest := hmem
        · cases hdelta
        · exact ih _ index block hrest

theorem starts_messageEvents (head : Head) (ds : List Delta) (index : Nat) :
    starts index (messageEvents head (.ok ds)) = starts index (pieceEvents {} (pieces ds)) := by
  rw [messageEvents, loopEvents_eq]
  simp [starts]

/-- The events of an answer are a stream for its message exactly when all of its thinking comes
before all of its text, or after it. -/
theorem messageEvents_streams_iff (head : Head) (ds : List Delta) :
    (∃ message, messageResponse head (.ok ds) = .ok message ∧
      Streams (messageEvents head (.ok ds)) message) ↔ ∃ type, First type (deltaTypes ds) := by
  rw [← types_pieces, ← starts_events_iff]
  constructor
  · rintro ⟨message, -, hstreams⟩ index
    exact starts_messageEvents head ds index ▸ hstreams.starts_le index
  · intro hstarts
    refine ⟨_, rfl, ?_⟩
    have hevents : messageEvents head (.ok ds) =
        .messageStart head :: (pieceEvents {} (pieces ds) ++ [.messageStop]) := by
      rw [messageEvents, loopEvents_eq]
    have hopened : DeltasOpened [] (messageEvents head (.ok ds)) := by
      rw [hevents]
      exact deltasOpened_loop (pieces ds) fun h => by cases h
    have hle : ∀ index, starts index (messageEvents head (.ok ds)) ≤ 1 := fun index =>
      (starts_messageEvents head ds index).symm ▸ hstarts index
    refine ⟨hle, hopened, fun type => ?_, fun type => ?_⟩
    · rw [hevents]
      change bodyOf type (streamedDeltas (pieceEvents {} (pieces ds) ++ [.messageStop])) = _
      rw [streamedDeltas_append, streamedDeltas_pieceEvents]
      exact (congrArg (bodyOf type) (List.append_nil _)).trans (bodyOf_messageContent type ds).symm
    · have hempty : StartsEmpty (messageEvents head (.ok ds)) := by
        rw [hevents]
        intro index block hmem
        simp only [List.mem_cons, List.mem_append, List.not_mem_nil, or_false, reduceCtorEq,
          false_or] at hmem
        exact startsEmpty_pieceEvents _ _ index block hmem
      refine (assemble_once (hle type.index) hempty hopened (fun _ => List.not_mem_nil) rfl).trans ?_
      rw [hevents]
      exact (deltasAt_pieceEvents type {} (pieces ds)).trans (bodyOf_messageContent type ds).symm

/-- Two spans of thinking in one token. -/
theorem secondThought_restarts :
    (ReasoningParser.thinkTag.streamChat [] ["<think>a</think>b<think>c</think>".toList]).1 =
        [{ reasoning := ['a'] }, { content := ['b'] }, { reasoning := ['c'] }] ∧
      ∀ head message, messageResponse head (.ok
          (ReasoningParser.thinkTag.streamChat [] ["<think>a</think>b<think>c</think>".toList]).1) =
            .ok message →
        ¬ Streams (messageEvents head (.ok
          (ReasoningParser.thinkTag.streamChat [] ["<think>a</think>b<think>c</think>".toList]).1))
          message := by
  have hdeltas :
      (ReasoningParser.thinkTag.streamChat [] ["<think>a</think>b<think>c</think>".toList]).1 =
        [{ reasoning := ['a'] }, { content := ['b'] }, { reasoning := ['c'] }] := by
    decide +kernel
  refine ⟨hdeltas, fun head message _ hstreams => ?_⟩
  rw [hdeltas] at hstreams
  have htwice := hstreams.starts_le 0
  rw [starts_messageEvents] at htwice
  exact absurd htwice (by decide)

end FreeToken.Anthropic
