import FreeToken.Tokenizer.Detokenize
import FreeToken.Lib.Views
import Mathlib.Data.List.Flatten

/-!
# What the deltas come to

With a byte-level tokenizer a context of `DetokenizeManager` sees the decoded beginnings of a
text, and sends it as the sender of `Lib.Views` does. So the deltas are the decoded text
exactly when no update that ends inside a character, or at a U+FFFD of the text, shows more
than the text has there, and `_stop_prefix_holdback` keeps nothing of the whole text back.
-/

namespace FreeToken

/-- The text decoded from the first `n` pieces. -/
def decodedAfter (decode : List Token → List Char) (pieces : List (List Token)) (n : Nat) :
    List Char :=
  decode (pieces.take n).flatten

def holdbackOf (stopStrs : List (List Char)) (text : List Char) : Nat :=
  stopPrefixHoldback text stopStrs

/-- The deltas of the pieces come to the decoding of all of them. After each update whose text
    ends in U+FFFD, because a character is cut or the text has one there, either all text
    since the last update that did not end so is kept back as the beginning of a stop string,
    or that text begins with no character of `_NON_PRINTABLE_RE` and its U+FFFD is kept back
    or stands in the text. At the end no character of `_NON_PRINTABLE_RE` is dropped, and the
    text has no suffix that a stop string begins with. -/
def ShownWhole (decode : List Token → List Char) (stopStrs : List (List Char))
    (pieces : List (List Token)) : Prop :=
  let views := decodedAfter decode pieces
  let text := decode pieces.flatten
  (∀ n < pieces.length, Views.Open Utf8.replacement (views (n + 1)) →
    Views.Harmless Utf8.replacement nonPrintable (holdbackOf stopStrs) text
      (Views.settled Utf8.replacement views n) (views (n + 1))) ∧
  (text.drop (Views.settled Utf8.replacement views pieces.length).length).dropWhile
      nonPrintable = text.drop (Views.settled Utf8.replacement views pieces.length).length ∧
  holdbackOf stopStrs text = 0

instance (decode : List Token → List Char) (stopStrs : List (List Char))
    (pieces : List (List Token)) : Decidable (ShownWhole decode stopStrs pieces) :=
  inferInstanceAs (Decidable (_ ∧ _))

/-- The updates of one context, piece by piece. -/
def DecodeState.run (decode : List Token → List Char) (stopStrs : List (List Char))
    (s : DecodeState) : List (List Token) → List Char × DecodeState
  | [] => ([], s)
  | ids :: pieces =>
      let (delta, s) := s.update decode stopStrs ids
      let (rest, s) := s.run decode stopStrs pieces
      (delta ++ rest, s)

theorem DecodeState.run_cons (decode : List Token → List Char) (stopStrs : List (List Char))
    (s : DecodeState) (ids : List Token) (pieces : List (List Token)) :
    s.run decode stopStrs (ids :: pieces) =
      ((s.update decode stopStrs ids).1 ++
        ((s.update decode stopStrs ids).2.run decode stopStrs pieces).1,
        ((s.update decode stopStrs ids).2.run decode stopStrs pieces).2) := rfl

theorem DecodeState.run_append (decode : List Token → List Char)
    (stopStrs : List (List Char)) (s : DecodeState) (before after : List (List Token)) :
    s.run decode stopStrs (before ++ after) =
      ((s.run decode stopStrs before).1 ++
        ((s.run decode stopStrs before).2.run decode stopStrs after).1,
        ((s.run decode stopStrs before).2.run decode stopStrs after).2) := by
  induction before generalizing s with
  | nil => rfl
  | cons ids before ih => simp only [List.cons_append, run_cons, ih, List.append_assoc]

/-- What `update` takes the text to have grown by. -/
def DecodeState.newText (decode : List Token → List Char) (s : DecodeState)
    (ids : List Token) : List Char :=
  (decode ((s.decodedIds ++ ids).drop s.surrOffset)).drop
    (decode (((s.decodedIds ++ ids).take s.readOffset).drop s.surrOffset)).length

theorem length_visible (stopStrs : List (List Char)) (text : List Char) :
    (Views.visible (holdbackOf stopStrs) text).length =
      text.length - holdbackOf stopStrs text := by
  rw [Views.visible, List.length_take]
  exact Nat.min_eq_left (Nat.sub_le _ _)

/-- What `update` sends of the text, with and without stop strings. -/
theorem emit_eq (stopStrs : List (List Char)) (text : List Char) (prevSent : Nat) :
    (if prevSent < (if stopStrs ≠ [] then text.length - stopPrefixHoldback text stopStrs
        else text.length) then
      (text.take (if stopStrs ≠ [] then text.length - stopPrefixHoldback text stopStrs
        else text.length)).drop prevSent else []) =
      (Views.visible (holdbackOf stopStrs) text).drop prevSent ∧
    max prevSent (if stopStrs ≠ [] then text.length - stopPrefixHoldback text stopStrs
        else text.length) =
      max prevSent (Views.visible (holdbackOf stopStrs) text).length := by
  have hend : (if stopStrs ≠ [] then text.length - stopPrefixHoldback text stopStrs
      else text.length) = text.length - holdbackOf stopStrs text := by
    by_cases hstops : stopStrs = []
    · rw [if_neg (not_not.mpr hstops), holdbackOf, stopPrefixHoldback, if_pos (.inl hstops),
        Nat.sub_zero]
    · rw [if_pos hstops, holdbackOf]
  rw [hend, length_visible]
  refine ⟨?_, rfl⟩
  split
  · rfl
  · rw [List.drop_eq_nil_of_le]
    rw [length_visible]
    omega

/-- An update whose new text is complete. -/
theorem DecodeState.update_complete {decode : List Token → List Char}
    {stopStrs : List (List Char)} {s : DecodeState} {ids : List Token}
    (hne : 0 < (s.newText decode ids).length)
    (hlast : ¬ Views.Open Utf8.replacement (s.newText decode ids)) :
    s.update decode stopStrs ids =
      ((Views.visible (holdbackOf stopStrs) (s.decodedStr ++ s.newText decode ids)).drop
          s.sentOffset,
        { decodedIds := s.decodedIds ++ ids
          decodedStr := s.decodedStr ++ s.newText decode ids
          readOffset := (s.decodedIds ++ ids).length
          surrOffset := s.readOffset
          sentOffset := max s.sentOffset
            (Views.visible (holdbackOf stopStrs)
              (s.decodedStr ++ s.newText decode ids)).length }) := by
  have hemit := emit_eq stopStrs (s.decodedStr ++ s.newText decode ids) s.sentOffset
  have hcomplete : 0 < (s.newText decode ids).length ∧
      (s.newText decode ids).getLast? ≠ some Utf8.replacement := ⟨hne, hlast⟩
  rw [← hemit.1, ← hemit.2]
  unfold newText at hcomplete ⊢
  simp only [update, if_pos hcomplete]

/-- An update whose new text is empty or ends in U+FFFD. -/
theorem DecodeState.update_incomplete {decode : List Token → List Char}
    {stopStrs : List (List Char)} {s : DecodeState} {ids : List Token}
    (h : s.newText decode ids = [] ∨ Views.Open Utf8.replacement (s.newText decode ids)) :
    s.update decode stopStrs ids =
      ((Views.visible (holdbackOf stopStrs)
          (s.decodedStr ++ findPrintableText (s.newText decode ids))).drop s.sentOffset,
        { s with
          decodedIds := s.decodedIds ++ ids
          sentOffset := max s.sentOffset
            (Views.visible (holdbackOf stopStrs)
              (s.decodedStr ++ findPrintableText (s.newText decode ids))).length }) := by
  have hemit := emit_eq stopStrs (s.decodedStr ++ findPrintableText (s.newText decode ids))
    s.sentOffset
  have hcomplete : ¬ (0 < (s.newText decode ids).length ∧
      (s.newText decode ids).getLast? ≠ some Utf8.replacement) := by
    rintro ⟨hne, hlast⟩
    obtain hnil | hopen := h
    · rw [hnil] at hne
      cases hne
    · exact hlast hopen
  rw [← hemit.1, ← hemit.2]
  unfold newText at hcomplete ⊢
  simp only [update, if_neg hcomplete]

/-! ### One context among many -/

namespace DetokenizeManager

theorem get?_create (m : DetokenizeManager) (uid : String) :
    (m.create uid).decodeMap.get? uid = some {} := by
  rw [create, Dict.get?_set, if_pos rfl]

theorem update_eq {m : DetokenizeManager} {uid : String} {s : DecodeState}
    (hs : m.decodeMap.get? uid = some s) (ids : List Token) :
    m.update uid ids = .ok ((s.update m.decode m.stopStrs ids).1,
      { m with decodeMap := m.decodeMap.set uid (s.update m.decode m.stopStrs ids).2 }) := by
  rw [update, hs]

theorem call_update {m : DetokenizeManager} {uid : String} {s : DecodeState}
    (hs : m.decodeMap.get? uid = some s) (ids : List Token) :
    m.call (.update uid ids) =
      { m with decodeMap := m.decodeMap.set uid (s.update m.decode m.stopStrs ids).2 } := by
  rw [call, update_eq hs]

/-- A call changes neither the tokenizer nor the stop strings. -/
theorem call_params (m : DetokenizeManager) (c : Call) :
    (m.call c).decode = m.decode ∧ (m.call c).stopStrs = m.stopStrs := by
  cases c with
  | create uid => exact ⟨rfl, rfl⟩
  | delete uid => exact ⟨rfl, rfl⟩
  | update uid ids =>
      cases hs : m.decodeMap.get? uid with
      | none => simp only [call, update, hs, and_self]
      | some s => rw [call_update hs]; exact ⟨rfl, rfl⟩

/-- A call for another context leaves this one alone. -/
theorem get?_call_of_ne (m : DetokenizeManager) {c : Call} {uid : String} (h : c.uid ≠ uid) :
    (m.call c).decodeMap.get? uid = m.decodeMap.get? uid := by
  cases c with
  | create other => exact (Dict.get?_set _ _ _ _).trans (if_neg h)
  | delete other => exact (Dict.get?_erase _ _ _).trans (if_neg h)
  | update other ids =>
      cases hs : m.decodeMap.get? other with
      | none => simp only [call, update, hs]
      | some s =>
          rw [call_update hs]
          exact (Dict.get?_set _ _ _ _).trans (if_neg h)

theorem delta_of_ne (m : DetokenizeManager) {c : Call} {uid : String} (h : c.uid ≠ uid) :
    m.delta uid c = [] := by
  cases c with
  | create other => rfl
  | delete other => rfl
  | update other ids => exact if_neg h

theorem pieces_of_ne {c : Call} {uid : String} (h : c.uid ≠ uid) (calls : List Call) :
    pieces uid (c :: calls) = pieces uid calls := by
  cases c with
  | create other => rfl
  | delete other => rfl
  | update other ids => exact if_neg h

/-- The deltas of a context depend on its own pieces alone. -/
theorem deltas_eq_run {m : DetokenizeManager} {uid : String} {s : DecodeState}
    (hs : m.decodeMap.get? uid = some s) {calls : List Call}
    (hcalls : ∀ c ∈ calls, c.uid = uid → ∃ ids, c = .update uid ids) :
    m.deltas uid calls = (s.run m.decode m.stopStrs (pieces uid calls)).1 := by
  induction calls generalizing m s with
  | nil => rfl
  | cons c calls ih =>
      obtain ⟨hdecode, hstops⟩ := m.call_params c
      have hrest : ∀ c ∈ calls, c.uid = uid → ∃ ids, c = .update uid ids :=
        fun c hc => hcalls c (List.mem_cons_of_mem _ hc)
      by_cases huid : c.uid = uid
      · obtain ⟨ids, rfl⟩ := hcalls c List.mem_cons_self huid
        have hnext : (m.call (.update uid ids)).decodeMap.get? uid =
            some (s.update m.decode m.stopStrs ids).2 := by
          rw [call_update hs]
          exact (Dict.get?_set _ _ _ _).trans (if_pos rfl)
        rw [deltas, ih hnext hrest, hdecode, hstops, delta, if_pos rfl, update_eq hs, pieces,
          if_pos rfl, DecodeState.run_cons]
      · rw [deltas, delta_of_ne m huid, List.nil_append, pieces_of_ne huid,
          ih ((get?_call_of_ne m huid).trans hs) hrest, hdecode, hstops]

end DetokenizeManager

/-- The deltas that a stream yields are those of a context fed one id at a time. -/
theorem decodeStream_flatten {m : DetokenizeManager} {uid : String} {s : DecodeState}
    (hs : m.decodeMap.get? uid = some s) (tokenIds : List Token) :
    ∃ yielded, decodeStream m uid tokenIds = .ok yielded ∧ [] ∉ yielded ∧
      yielded.flatten =
        (s.run m.decode m.stopStrs (tokenIds.map fun tokenId => [tokenId])).1 := by
  induction tokenIds generalizing m s with
  | nil => exact ⟨[], rfl, List.not_mem_nil, rfl⟩
  | cons tokenId tokenIds ih =>
      have hnext : (m.decodeMap.set uid (s.update m.decode m.stopStrs [tokenId]).2).get? uid =
          some (s.update m.decode m.stopStrs [tokenId]).2 :=
        (Dict.get?_set _ _ _ _).trans (if_pos rfl)
      obtain ⟨rest, hrest, hmem, hflat⟩ := ih (m := { m with
        decodeMap := m.decodeMap.set uid (s.update m.decode m.stopStrs [tokenId]).2 }) hnext
      rw [List.map_cons, DecodeState.run_cons, decodeStream, DetokenizeManager.update_eq hs]
      refine ⟨if (s.update m.decode m.stopStrs [tokenId]).1 = [] then rest
        else (s.update m.decode m.stopStrs [tokenId]).1 :: rest,
        by simp only [bind, Except.bind, hrest, pure, Except.pure], ?_⟩
      by_cases hdelta : (s.update m.decode m.stopStrs [tokenId]).1 = []
      · rw [if_pos hdelta]
        exact ⟨hmem, by rw [hflat, hdelta, List.nil_append]⟩
      · rw [if_neg hdelta]
        refine ⟨?_, by rw [List.flatten_cons, hflat]⟩
        rw [List.mem_cons, not_or]
        exact ⟨Ne.symm hdelta, hmem⟩

/-! ### The context follows the views -/

section Stream

variable {tokenBytes : Token → List UInt8} {stopStrs : List (List Char)}
  {pieces : List (List Token)} {text : List Char}

/-- The bytes of the first `n` pieces. -/
def bytesAfter (tokenBytes : Token → List UInt8) (pieces : List (List Token)) (n : Nat) :
    List UInt8 :=
  (pieces.take n).flatten.flatMap tokenBytes

theorem decodedAfter_byteLevel (n : Nat) :
    decodedAfter (byteLevel tokenBytes) pieces n = Utf8.lossy (bytesAfter tokenBytes pieces n) :=
  rfl

theorem bytesAfter_mono {n m : Nat} (h : n ≤ m) :
    bytesAfter tokenBytes pieces n <+: bytesAfter tokenBytes pieces m := by
  obtain ⟨rest, hrest⟩ := List.take_prefix_take_left (l := pieces) h
  rw [bytesAfter, bytesAfter, ← hrest, List.flatten_append, List.flatMap_append]
  exact List.prefix_append _ _

/-- **The decoded beginnings approach the text.** -/
theorem approaches (hvalid : pieces.flatten.flatMap tokenBytes = Utf8.encode text) :
    Views.Approaches Utf8.replacement text (decodedAfter (byteLevel tokenBytes) pieces)
      pieces.length (fun n => Utf8.wholeChars text (bytesAfter tokenBytes pieces n))
      (fun n => decide (Utf8.CutIn text (bytesAfter tokenBytes pieces n))) := by
  have hlast : bytesAfter tokenBytes pieces pieces.length = Utf8.encode text := by
    rw [bytesAfter, List.take_length, hvalid]
  have hpre : ∀ n ≤ pieces.length, bytesAfter tokenBytes pieces n <+: Utf8.encode text :=
    fun n hn => hlast ▸ bytesAfter_mono hn
  constructor
  · intro n hn
    simp only [decide_eq_true_eq]
    exact (Utf8.lossy_of_begins (hpre n hn)).1
  · exact fun n _ => Utf8.wholeChars_le _ _
  · intro n hn hcut
    exact (Utf8.lossy_of_begins (hpre n hn)).2 (of_decide_eq_true hcut)
  · exact fun n _ => Utf8.wholeChars_mono text (bytesAfter_mono (Nat.le_succ n))
  · intro n _ heq hcut
    exact decide_eq_true ((of_decide_eq_true hcut).mono (bytesAfter_mono (Nat.le_succ n)) heq)
  · rfl
  · rw [decodedAfter_byteLevel, hlast, Utf8.lossy_encode]

/-- A context after the first `n` pieces. -/
structure Follows (tokenBytes : Token → List UInt8) (stopStrs : List (List Char))
    (pieces : List (List Token)) (s : DecodeState) (n : Nat) : Prop where
  ids : s.decodedIds = (pieces.take n).flatten
  str : s.decodedStr =
    Views.settled Utf8.replacement (decodedAfter (byteLevel tokenBytes) pieces) n
  sent : s.sentOffset = Views.sent Utf8.replacement nonPrintable (holdbackOf stopStrs)
    (decodedAfter (byteLevel tokenBytes) pieces) n
  surr_le : s.surrOffset ≤ s.readOffset
  read_le : s.readOffset ≤ s.decodedIds.length
  read : (s.decodedIds.take s.readOffset).flatMap tokenBytes = Utf8.encode s.decodedStr
  surr : ∃ before, (s.decodedIds.take s.surrOffset).flatMap tokenBytes = Utf8.encode before

/-- Ids behind a point where whole characters end decode to the rest of the text. -/
theorem byteLevel_drop {ids : List Token} {n : Nat} {before : List Char}
    (h : (ids.take n).flatMap tokenBytes = Utf8.encode before) :
    byteLevel tokenBytes ids = before ++ byteLevel tokenBytes (ids.drop n) := by
  have hsplit := congrArg (List.flatMap tokenBytes) (List.take_append_drop n ids)
  rw [List.flatMap_append, h] at hsplit
  rw [byteLevel, ← hsplit, Utf8.lossy_encode_append, byteLevel]

/-- What the text has grown by since it was last settled. -/
theorem newText_eq {s : DecodeState} {n : Nat} (hf : Follows tokenBytes stopStrs pieces s n)
    {ids : List Token} (hids : (pieces.take (n + 1)).flatten = s.decodedIds ++ ids) :
    s.newText (byteLevel tokenBytes) ids =
      (decodedAfter (byteLevel tokenBytes) pieces (n + 1)).drop s.decodedStr.length := by
  obtain ⟨before, hbefore⟩ := hf.surr
  have hsurr : ((s.decodedIds ++ ids).take s.surrOffset).flatMap tokenBytes =
      Utf8.encode before := by
    rw [List.take_append_of_le_length (hf.surr_le.trans hf.read_le), hbefore]
  have hread : (s.decodedIds ++ ids).take s.readOffset = s.decodedIds.take s.readOffset :=
    List.take_append_of_le_length hf.read_le
  have hstr : byteLevel tokenBytes (s.decodedIds.take s.readOffset) = s.decodedStr := by
    rw [byteLevel, hf.read, Utf8.lossy_encode]
  have hboth : ((s.decodedIds.take s.readOffset).take s.surrOffset).flatMap tokenBytes =
      Utf8.encode before := by
    rw [List.take_take, Nat.min_eq_left hf.surr_le, hbefore]
  have hsplit := byteLevel_drop hboth
  rw [hstr] at hsplit
  rw [decodedAfter, hids, byteLevel_drop hsurr, DecodeState.newText, hread, hsplit,
    List.length_append, List.drop_length_add_append]

/-- Where the text does not end in U+FFFD, its bytes end with a character. -/
theorem bytesAfter_of_not_open (hvalid : pieces.flatten.flatMap tokenBytes = Utf8.encode text)
    {n : Nat} (hn : n ≤ pieces.length)
    (ho : ¬ Views.Open Utf8.replacement (decodedAfter (byteLevel tokenBytes) pieces n)) :
    bytesAfter tokenBytes pieces n =
      Utf8.encode (decodedAfter (byteLevel tokenBytes) pieces n) := by
  have happ := approaches hvalid
  have hcut : ¬ Utf8.CutIn text (bytesAfter tokenBytes pieces n) := by
    intro hcut
    apply ho
    rw [happ.view n hn, if_pos (decide_eq_true hcut)]
    exact Views.open_append_mark _
  rw [happ.prefix_of_not_open hn ho]
  exact not_not.mp hcut

/-- **An update does what the sender of the views does.** -/
theorem follows_update (hvalid : pieces.flatten.flatMap tokenBytes = Utf8.encode text)
    {s : DecodeState} {n : Nat} (hn : n < pieces.length)
    (hf : Follows tokenBytes stopStrs pieces s n) :
    (s.update (byteLevel tokenBytes) stopStrs pieces[n]).1 =
        (Views.seen Utf8.replacement nonPrintable (holdbackOf stopStrs)
          (decodedAfter (byteLevel tokenBytes) pieces) n).drop s.sentOffset ∧
      Follows tokenBytes stopStrs pieces
        (s.update (byteLevel tokenBytes) stopStrs pieces[n]).2 (n + 1) := by
  have happ := approaches hvalid
  have hids : (pieces.take (n + 1)).flatten = s.decodedIds ++ pieces[n] := by
    rw [← List.take_append_getElem hn, List.flatten_append, ← hf.ids, List.flatten_singleton]
  have hnew := newText_eq hf hids
  have hgrown := Views.settled_append happ hn
  rw [← hf.str] at hgrown
  have hread : (((s.decodedIds ++ pieces[n]).take s.readOffset)).flatMap tokenBytes =
      Utf8.encode s.decodedStr := by
    rw [List.take_append_of_le_length hf.read_le, hf.read]
  obtain ⟨before, hbefore⟩ := hf.surr
  have hsurr : (((s.decodedIds ++ pieces[n]).take s.surrOffset)).flatMap tokenBytes =
      Utf8.encode before := by
    rw [List.take_append_of_le_length (hf.surr_le.trans hf.read_le), hbefore]
  have hlen : s.readOffset ≤ (s.decodedIds ++ pieces[n]).length := by
    rw [List.length_append]
    exact hf.read_le.trans (Nat.le_add_right _ _)
  by_cases ho : Views.Open Utf8.replacement (decodedAfter (byteLevel tokenBytes) pieces (n + 1))
  · -- The text ends in U+FFFD: nothing is settled.
    have hlt := Views.length_settled_lt happ hn ho
    rw [← hf.str] at hlt
    have hopen := Views.open_drop ho hlt
    rw [← hnew] at hopen
    have hshown := @Views.seen_open _ _ nonPrintable (holdbackOf stopStrs) _ _ _ ho
    rw [← hf.str, ← hnew] at hshown
    rw [DecodeState.update_incomplete (.inr hopen), hshown, findPrintableText]
    refine ⟨rfl, hids.symm, ?_, ?_, hf.surr_le, hlen, hread, before, hsurr⟩
    · rw [Views.settled_succ_open ho]
      exact hf.str
    · rw [Views.sent, ← hf.sent, hshown]
  · have hshown := @Views.seen_not_open _ _ nonPrintable (holdbackOf stopStrs) _ _ _ ho
    by_cases hnil : s.newText (byteLevel tokenBytes) pieces[n] = []
    · -- No text has come: the text is the settled one.
      have hsame : s.decodedStr = decodedAfter (byteLevel tokenBytes) pieces (n + 1) := by
        rw [← hgrown, ← hnew, hnil, List.append_nil]
      rw [DecodeState.update_incomplete (.inl hnil), hnil, hshown, ← hsame]
      refine ⟨by rw [findPrintableText, List.dropWhile_nil, List.append_nil], hids.symm, ?_, ?_,
        hf.surr_le, hlen, hread, before, hsurr⟩
      · rw [Views.settled_succ ho]
        exact hsame
      · rw [Views.sent, ← hf.sent, hshown, ← hsame, findPrintableText, List.dropWhile_nil,
          List.append_nil]
    · have hclosed : ¬ Views.Open Utf8.replacement
          (s.newText (byteLevel tokenBytes) pieces[n]) := by
        intro hopen
        apply ho
        rw [← hgrown, ← hnew, Views.Open, List.getLast?_append_of_ne_nil _ hnil]
        exact hopen
      have hall : (s.decodedIds ++ pieces[n]).flatMap tokenBytes =
          Utf8.encode (decodedAfter (byteLevel tokenBytes) pieces (n + 1)) := by
        rw [← hids]
        exact bytesAfter_of_not_open hvalid hn ho
      rw [DecodeState.update_complete (List.length_pos_iff.mpr hnil) hclosed, hnew, hgrown, hshown]
      refine ⟨rfl, hids.symm, ?_, ?_, hlen, Nat.le_refl _, ?_, s.decodedStr, hread⟩
      · rw [Views.settled_succ ho]
      · rw [Views.sent, ← hf.sent, hshown]
      · rw [List.take_length, hall]

theorem follows_run (hvalid : pieces.flatten.flatMap tokenBytes = Utf8.encode text) {n : Nat}
    (hn : n ≤ pieces.length) :
    (({} : DecodeState).run (byteLevel tokenBytes) stopStrs (pieces.take n)).1 =
        Views.output Utf8.replacement nonPrintable (holdbackOf stopStrs)
          (decodedAfter (byteLevel tokenBytes) pieces) n ∧
      Follows tokenBytes stopStrs pieces
        (({} : DecodeState).run (byteLevel tokenBytes) stopStrs (pieces.take n)).2 n := by
  induction n with
  | zero =>
      refine ⟨rfl, rfl, rfl, rfl, Nat.le_refl _, Nat.le_refl _, rfl, [], rfl⟩
  | succ n ih =>
      obtain ⟨hout, hf⟩ := ih (Nat.le_of_succ_le hn)
      obtain ⟨hdelta, hnext⟩ := follows_update hvalid hn hf
      rw [← List.take_append_getElem hn, DecodeState.run_append, DecodeState.run_cons,
        DecodeState.run, hout, hdelta, hf.sent, List.append_nil]
      exact ⟨rfl, hnext⟩

theorem nonPrintable_replacement : nonPrintable Utf8.replacement = false := by decide

theorem holdbackOf_nil (stopStrs : List (List Char)) : holdbackOf stopStrs [] = 0 :=
  if_pos (.inr rfl)

/-- One context sends the whole text exactly when it shows it whole. -/
theorem run_eq_text_iff (stopStrs : List (List Char))
    (hvalid : pieces.flatten.flatMap tokenBytes = Utf8.encode text) :
    (({} : DecodeState).run (byteLevel tokenBytes) stopStrs pieces).1 = text ↔
      ShownWhole (byteLevel tokenBytes) stopStrs pieces := by
  obtain ⟨hrun, -⟩ := @follows_run _ stopStrs _ _ hvalid _ (Nat.le_refl _)
  have htext : byteLevel tokenBytes pieces.flatten = text := by
    rw [byteLevel, hvalid, Utf8.lossy_encode]
  rw [List.take_length] at hrun
  rw [hrun, ShownWhole, htext]
  exact Views.output_eq_iff (approaches hvalid) (holdbackOf_nil _) nonPrintable_replacement

/-- **Incremental decoding is decoding at once** exactly when no update shows text that the
    whole text does not have there, and nothing of the whole text is kept back. The calls may
    serve other contexts in between. -/
theorem deltas_eq_text_iff {m : DetokenizeManager} (hm : m.decode = byteLevel tokenBytes)
    {uid : String} {calls : List DetokenizeManager.Call}
    (hcalls : ∀ c ∈ calls, c.uid = uid → ∃ ids, c = .update uid ids)
    (hvalid : (FreeToken.pieces uid calls).flatten.flatMap tokenBytes = Utf8.encode text) :
    (m.create uid).deltas uid calls = text ↔
      ShownWhole (byteLevel tokenBytes) m.stopStrs (FreeToken.pieces uid calls) := by
  rw [DetokenizeManager.deltas_eq_run (m.get?_create uid) hcalls]
  change (({} : DecodeState).run m.decode m.stopStrs _).1 = text ↔ _
  rw [hm]
  exact run_eq_text_iff m.stopStrs hvalid

/-- A character that comes in two pieces, one after each byte. -/
theorem detokenize_cut_character :
    ¬ ∀ (tokenBytes : Token → List UInt8) (m : DetokenizeManager) (uid : String)
      (calls : List DetokenizeManager.Call) (text : List Char),
      m.decode = byteLevel tokenBytes →
      (∀ c ∈ calls, c.uid = uid → ∃ ids, c = .update uid ids) →
      (FreeToken.pieces uid calls).flatten.flatMap tokenBytes = Utf8.encode text →
      (∀ stop ∈ m.stopStrs, ¬ stop <:+: text) →
      (m.create uid).deltas uid calls = text := by
  intro h
  let tokenBytes : Token → List UInt8 := fun token => if token = 0 then [0xC3] else [0xA9]
  have heq := h tokenBytes ⟨byteLevel tokenBytes, [], .empty⟩ "r"
    [.update "r" [0], .update "r" [1]] ['é'] rfl
    (by
      intro c hc _
      simp only [List.mem_cons, List.not_mem_nil, or_false] at hc
      obtain rfl | rfl := hc
      · exact ⟨[0], rfl⟩
      · exact ⟨[1], rfl⟩)
    (by decide +kernel) (by simp)
  revert heq
  decide +kernel

/-- The same character in one piece, and another after it. -/
theorem deltas_eq_text_iff_two_pieces :
    ((⟨byteLevel fun token => if token = 0 then [0xC3, 0xA9] else [0x41], [], .empty⟩ :
        DetokenizeManager).create "r").deltas "r" [.update "r" [0], .update "r" [1]] =
      ['é', 'A'] :=
  (deltas_eq_text_iff rfl
    (by
      intro c hc _
      simp only [List.mem_cons, List.not_mem_nil, or_false] at hc
      obtain rfl | rfl := hc
      · exact ⟨[0], rfl⟩
      · exact ⟨[1], rfl⟩)
    (by decide +kernel)).mpr (by decide +kernel)

/-- The server feeds one id at a time. -/
theorem decodeStream_eq_text_iff {m : DetokenizeManager} (hm : m.decode = byteLevel tokenBytes)
    (uid : String) {tokenIds : List Token} (hvalid : tokenIds.flatMap tokenBytes = Utf8.encode text) :
    ∃ yielded, decodeStream (m.create uid) uid tokenIds = .ok yielded ∧
      (yielded.flatten = text ↔ ShownWhole (byteLevel tokenBytes) m.stopStrs
        (tokenIds.map fun tokenId => [tokenId])) := by
  obtain ⟨yielded, hok, -, hflat⟩ := decodeStream_flatten (m.get?_create uid) tokenIds
  have hids : (tokenIds.map fun tokenId => [tokenId]).flatten = tokenIds := by
    rw [← List.flatMap_def, List.flatMap_singleton']
  refine ⟨yielded, hok, ?_⟩
  rw [hflat]
  change (({} : DecodeState).run m.decode m.stopStrs _).1 = text ↔ _
  rw [hm]
  apply run_eq_text_iff
  rw [hids, hvalid]

end Stream

/-! ### Texts without U+FFFD -/

theorem holdbackFrom_eq_zero_iff (text : List Char) (stopStrs : List (List Char)) (n : Nat) :
    holdbackFrom text stopStrs n = 0 ↔ ∀ k < n, ∀ stop ∈ stopStrs, k + 1 < stop.length →
      ¬ text.drop (text.length - (k + 1)) <+: stop := by
  induction n with
  | zero => simp [holdbackFrom]
  | succ n ih =>
      rw [holdbackFrom]
      constructor
      · intro h
        split at h
        · cases h
        · next hany =>
            intro k hk
            obtain hk | rfl := Nat.lt_succ_iff_lt_or_eq.mp hk
            · exact ih.mp h k hk
            · intro stop hstop hlen hpre
              apply hany
              rw [List.any_eq_true]
              exact ⟨stop, hstop, by simp [hlen, hpre]⟩
      · intro h
        rw [if_neg]
        · exact ih.mpr (fun k hk => h k (Nat.lt_succ_of_lt hk))
        · rw [List.any_eq_true]
          rintro ⟨stop, hstop, hboth⟩
          simp only [Bool.and_eq_true, decide_eq_true_eq, List.isPrefixOf_iff_prefix] at hboth
          exact h n (Nat.lt_succ_self n) stop hstop hboth.1 hboth.2

/-- Nothing is kept back exactly when no suffix of the text begins a longer stop string. -/
theorem holdbackOf_eq_zero_iff (stopStrs : List (List Char)) (text : List Char) :
    holdbackOf stopStrs text = 0 ↔ ∀ stop ∈ stopStrs, ∀ suffix, suffix ≠ [] →
      suffix <:+ text → suffix <+: stop → suffix = stop := by
  rw [holdbackOf, stopPrefixHoldback]
  split
  · next hempty =>
      refine ⟨fun _ stop hstop suffix hne hsuf _ => ?_, fun _ => rfl⟩
      obtain rfl | rfl := hempty
      · cases hstop
      · exact absurd (List.suffix_nil.mp hsuf) hne
  · rw [holdbackFrom_eq_zero_iff]
    constructor
    · intro h stop hstop suffix hne hsuf hpre
      by_contra hproper
      have hlen : suffix.length < stop.length := by
        apply Nat.lt_of_le_of_ne hpre.length_le
        intro heq
        exact hproper (hpre.eq_of_length heq)
      have hmax : stop.length ≤ (stopStrs.map List.length).max?.getD 0 :=
        List.le_max?_getD_of_mem (List.mem_map_of_mem hstop)
      have hpos := List.length_pos_iff.mpr hne
      have hle := hsuf.length_le
      apply h (suffix.length - 1) (by omega) stop hstop (by omega)
      rw [Nat.sub_add_cancel hpos, ← List.suffix_iff_eq_drop.mp hsuf]
      exact hpre
    · intro h k hk stop hstop hlen hpre
      have hle : k + 1 ≤ text.length := by omega
      have hlength : (text.drop (text.length - (k + 1))).length = k + 1 := by
        rw [List.length_drop]
        omega
      have heq := h stop hstop _ (by rintro heq; simp [heq] at hlength) (List.drop_suffix _ _) hpre
      rw [heq] at hlength
      omega

/-- What is kept back of a text that ends in U+FFFD begins a stop string with U+FFFD in it. -/
theorem holdbackOf_of_open {stopStrs : List (List Char)} {text : List Char}
    (ho : Views.Open Utf8.replacement text)
    (hstops : ∀ stop ∈ stopStrs, Utf8.replacement ∉ stop) : holdbackOf stopStrs text = 0 := by
  rw [holdbackOf_eq_zero_iff]
  rintro stop hstop suffix hne ⟨before, rfl⟩ hpre
  rw [Views.Open, List.getLast?_append_of_ne_nil _ hne] at ho
  exact absurd (hpre.subset (List.mem_of_getLast? ho)) (hstops stop hstop)

/-- Of a text without U+FFFD, with stop strings without it, all arrives exactly when every
    update ends with a whole character and no suffix of the text begins a longer stop string. -/
theorem shownWhole_iff {tokenBytes : Token → List UInt8} {stopStrs : List (List Char)}
    {pieces : List (List Token)} {text : List Char}
    (hvalid : pieces.flatten.flatMap tokenBytes = Utf8.encode text)
    (htext : Utf8.replacement ∉ text) (hstops : ∀ stop ∈ stopStrs, Utf8.replacement ∉ stop) :
    ShownWhole (byteLevel tokenBytes) stopStrs pieces ↔
      (∀ n < pieces.length, ¬ Utf8.CutIn text (bytesAfter tokenBytes pieces (n + 1))) ∧
        holdbackOf stopStrs text = 0 := by
  have happ := approaches hvalid
  have hall : byteLevel tokenBytes pieces.flatten = text := by
    rw [byteLevel, hvalid, Utf8.lossy_encode]
  have hopen : ∀ n ≤ pieces.length,
      Views.Open Utf8.replacement (decodedAfter (byteLevel tokenBytes) pieces n) ↔
        Utf8.CutIn text (bytesAfter tokenBytes pieces n) := by
    intro n hn
    rw [happ.view n hn]
    by_cases hcut : Utf8.CutIn text (bytesAfter tokenBytes pieces n)
    · rw [if_pos (decide_eq_true hcut)]
      exact ⟨fun _ => hcut, fun _ => Views.open_append_mark _⟩
    · rw [if_neg (by simpa using hcut), List.append_nil]
      refine ⟨fun ho => absurd (List.mem_of_getLast? ho) ?_, fun h => absurd h hcut⟩
      exact fun hmem => htext (List.mem_of_mem_take hmem)
  simp only [ShownWhole, hall]
  constructor
  · rintro ⟨hharm, -, hkept⟩
    refine ⟨fun n hn hcut => ?_, hkept⟩
    have ho := (hopen (n + 1) hn).mpr hcut
    have hlt := Views.length_settled_lt happ hn ho
    have hpend := Views.open_drop ho hlt
    have hleft := Views.open_dropWhile nonPrintable_replacement hpend
    have hpos := List.length_pos_iff.mpr (Views.ne_nil_of_open hleft)
    have hshown : Views.Open Utf8.replacement
        (Views.settled Utf8.replacement (decodedAfter (byteLevel tokenBytes) pieces) n ++
          ((decodedAfter (byteLevel tokenBytes) pieces (n + 1)).drop (Views.settled
            Utf8.replacement (decodedAfter (byteLevel tokenBytes) pieces) n).length).dropWhile
              nonPrintable) := by
      rw [Views.Open, List.getLast?_append_of_ne_nil _ (Views.ne_nil_of_open hleft)]
      exact hleft
    have hzero := holdbackOf_of_open hshown hstops
    obtain hheld | ⟨-, hheld | hmark⟩ := hharm n hn ho
    · rw [hzero] at hheld
      omega
    · rw [hzero] at hheld
      cases hheld
    · exact htext (List.mem_of_getElem? hmark)
  · rintro ⟨hwhole, hkept⟩
    refine ⟨fun n hn ho => absurd ((hopen (n + 1) hn).mp ho) (hwhole n hn), ?_, hkept⟩
    have hend : ¬ Views.Open Utf8.replacement
        (decodedAfter (byteLevel tokenBytes) pieces pieces.length) := by
      rw [happ.whole]
      exact fun ho => htext (List.mem_of_getLast? ho)
    rw [Views.settled_eq_of_not_open happ hend, happ.whole, List.drop_length]
    rfl

end FreeToken
