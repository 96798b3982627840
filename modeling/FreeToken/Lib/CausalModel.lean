import Mathlib.Data.List.Induction
import Mathlib.Logic.Function.Basic
import Mathlib.Order.Nat

/-!
# Causal models over a paged memory

A model that computes a value for each token from the values of the tokens before it, and the next
token from the values so far. The values are kept in a memory, one place for each position, which
a row of a page table names. As long as the places that are written were not those of an earlier
position, the row holds the values of its own tokens.
-/

structure CausalModel (Tok V : Type) where
  /-- The value of a token after these values. -/
  value : List V → Tok → V
  /-- The token that follows these values. -/
  next : List V → Tok

namespace CausalModel

variable {Tok V S : Type} (m : CausalModel Tok V)

/-- The values of a sequence of tokens. -/
def values (ids : List Tok) : List V := ids.foldl (fun vs tok => vs ++ [m.value vs tok]) []

@[simp] theorem values_nil : m.values [] = [] := rfl

@[simp] theorem values_concat (ids : List Tok) (tok : Tok) :
    m.values (ids ++ [tok]) = m.values ids ++ [m.value (m.values ids) tok] := by
  simp [values]

@[simp] theorem length_values (ids : List Tok) : (m.values ids).length = ids.length := by
  induction ids using List.reverseRecOn with
  | nil => rfl
  | append_singleton ids tok ih => simp [ih]

/-- The values of the first tokens come first. -/
theorem values_append (ids rest : List Tok) : m.values ids <+: m.values (ids ++ rest) := by
  induction rest using List.reverseRecOn with
  | nil => simp
  | append_singleton rest tok ih =>
      rw [← List.append_assoc, values_concat]
      exact ih.trans (List.prefix_append _ _)

theorem values_take (ids : List Tok) (n : Nat) : (m.values ids).take n = m.values (ids.take n) := by
  rcases Nat.lt_or_ge n ids.length with hn | hn
  · have hpre := m.values_append (ids.take n) (ids.drop n)
    rw [List.take_append_drop] at hpre
    rw [List.prefix_iff_eq_take.mp hpre, length_values, List.length_take, Nat.min_eq_left hn.le]
  · rw [List.take_of_length_le hn, List.take_of_length_le (by simpa using hn)]

/-- The value of a token is the last one of the tokens up to it. -/
theorem getLast?_values_take {ids : List Tok} {j : Nat} (hj : j < ids.length) :
    (m.values (ids.take (j + 1))).getLast? = (m.values ids)[j]? := by
  have hlt : j < (m.values ids).length := by rwa [length_values]
  rw [← values_take, List.getLast?_take, if_neg (Nat.succ_ne_zero j), Nat.add_sub_cancel,
    List.getElem?_eq_getElem hlt, Option.some_or]

/-! ### Greedy continuations -/

/-- Each token is the one that follows the prompt and the tokens before it. -/
def Greedy (prompt tokens : List Tok) : Prop :=
  ∀ j tok, tokens[j]? = some tok → tok = m.next (m.values (prompt ++ tokens.take j))

variable {m} {prompt tokens tokens' : List Tok}

theorem Greedy.nil : m.Greedy prompt [] := fun _ _ h => by cases h

theorem Greedy.concat (h : m.Greedy prompt tokens) :
    m.Greedy prompt (tokens ++ [m.next (m.values (prompt ++ tokens))]) := by
  intro j tok hj
  rcases Nat.lt_trichotomy j tokens.length with hlt | rfl | hgt
  · rw [List.getElem?_append_left hlt] at hj
    rw [List.take_append_of_le_length hlt.le]
    exact h j tok hj
  · rw [List.getElem?_concat_length, Option.some.injEq] at hj
    rw [List.take_left, hj]
  · rw [List.getElem?_eq_none (by simp; omega)] at hj
    cases hj

/-- Two continuations of a prompt agree as far as both go. -/
theorem Greedy.take_eq (h : m.Greedy prompt tokens) (h' : m.Greedy prompt tokens') :
    ∀ {n : Nat}, n ≤ tokens.length → n ≤ tokens'.length → tokens.take n = tokens'.take n
  | 0, _, _ => rfl
  | n + 1, hn, hn' => by
      have ih := h.take_eq h' (n := n) (by omega) (by omega)
      have hget := List.getElem?_eq_getElem (show n < tokens.length by omega)
      have hget' := List.getElem?_eq_getElem (show n < tokens'.length by omega)
      rw [List.take_add_one, List.take_add_one, hget, hget', ih, h n _ hget, h' n _ hget', ih]

/-! ### A paged memory -/

variable {row : Nat → S} {mem : S → V} {ids : List Tok} {n : Nat}

/-- The values at the first positions of a row. -/
def read (row : Nat → S) (mem : S → V) (n : Nat) : List V := (List.range n).map fun j => mem (row j)

variable (m) in
/-- The first `n` positions of the row hold the values of the first `n` tokens. -/
def Holds (row : Nat → S) (mem : S → V) (ids : List Tok) (n : Nat) : Prop :=
  ∀ j < n, (m.values ids)[j]? = some (mem (row j))

theorem Holds.length_le (h : m.Holds row mem ids n) : n ≤ ids.length := by
  rcases Nat.eq_zero_or_pos n with rfl | hpos
  · exact Nat.zero_le _
  · have hlast := List.getElem?_eq_some_iff.mp (h (n - 1) (by omega))
    rcases hlast with ⟨hlt, -⟩
    rw [length_values] at hlt
    omega

theorem Holds.read_eq (h : m.Holds row mem ids n) : read row mem n = m.values (ids.take n) := by
  rw [← values_take]
  refine List.ext_getElem? fun j => ?_
  rcases Nat.lt_or_ge j n with hj | hj
  · rw [List.getElem?_take_of_lt hj, h j hj]
    simp [read, hj]
  · rw [List.getElem?_eq_none (by simpa [read] using hj),
      List.getElem?_eq_none (by rw [List.length_take]; omega)]

theorem Holds.congr {mem' : S → V} (h : m.Holds row mem ids n)
    (hmem : ∀ j < n, mem' (row j) = mem (row j)) : m.Holds row mem' ids n := by
  intro j hj
  rw [hmem j hj]
  exact h j hj

/-- What holds of the tokens holds of every sequence that starts with them. -/
theorem Holds.of_take {ids' : List Tok} (h : m.Holds row mem ids n)
    (htake : ids'.take n = ids.take n) : m.Holds row mem ids' n := by
  intro j hj
  have hvalues : (m.values ids').take n = (m.values ids).take n := by
    rw [values_take, values_take, htake]
  rw [← List.getElem?_take_of_lt hj, hvalues, List.getElem?_take_of_lt hj]
  exact h j hj

variable [DecidableEq S]

variable (m) in
/-- The values of tokens, from a position on, into their places: each is computed from what the
row holds before it. -/
def write (row : Nat → S) : (S → V) → Nat → List Tok → S → V
  | mem, _, [] => mem
  | mem, start, tok :: toks =>
      write row (Function.update mem (row start) (m.value (read row mem start) tok)) (start + 1) toks

/-- Other places stay as they were. -/
theorem write_of_notMem {s : S} : ∀ {toks : List Tok} {mem : S → V} {start : Nat},
    (∀ p, start ≤ p → p < start + toks.length → row p ≠ s) → m.write row mem start toks s = mem s
  | [], _, _, _ => rfl
  | tok :: toks, mem, start, h => by
      have hne : s ≠ row start := (h start (Nat.le_refl _) (by simp)).symm
      rw [write, write_of_notMem fun p hp hlt => h p (by omega) (by rw [List.length_cons]; omega),
        Function.update_of_ne hne]

/-- A write goes on where the row holds its own values. -/
theorem Holds.write : ∀ {toks : List Tok} {mem : S → V} {start : Nat}, m.Holds row mem ids start →
    toks = (ids.take (start + toks.length)).drop start →
    (∀ p, start ≤ p → p < start + toks.length → ∀ j < p, row j ≠ row p) →
    m.Holds row (m.write row mem start toks) ids (start + toks.length)
  | [], _, _, h, _, _ => h
  | tok :: toks, mem, start, h, htoks, hfresh => by
      rw [List.length_cons] at htoks hfresh
      have hlt : start < ids.length := by
        by_contra hge
        rw [List.drop_eq_nil_of_le (by rw [List.length_take]; omega)] at htoks
        cases htoks
      rw [List.drop_eq_getElem_cons (by rw [List.length_take]; omega), List.getElem_take,
        List.cons.injEq] at htoks
      have hvalue : (m.values ids)[start]? = some (m.value (read row mem start) tok) := by
        have hconcat : ids.take (start + 1) = ids.take start ++ [tok] := by
          rw [List.take_succ_eq_append_getElem hlt, htoks.1]
        have hlen : (m.values (ids.take start)).length = start := by
          rw [length_values, List.length_take, Nat.min_eq_left hlt.le]
        rw [← List.getElem?_take_of_lt (Nat.lt_succ_self start), values_take, hconcat, values_concat,
          h.read_eq, List.getElem?_append_right hlen.le, hlen, Nat.sub_self]
        rfl
      have hnext : m.Holds row (Function.update mem (row start) (m.value (read row mem start) tok)) ids
          (start + 1) := by
        intro j hj
        rcases Nat.lt_or_ge j start with hjlt | hjge
        · rw [Function.update_of_ne (hfresh start (Nat.le_refl _) (by omega) j hjlt)]
          exact h j hjlt
        · obtain rfl : j = start := by omega
          rw [Function.update_self, hvalue]
      have hdrop : toks = (ids.take (start + 1 + toks.length)).drop (start + 1) := by
        rw [Nat.add_right_comm, Nat.add_assoc]
        exact htoks.2
      have hrest := hnext.write hdrop fun p hp hplt => hfresh p (by omega) (by omega)
      rw [Nat.add_right_comm, Nat.add_assoc] at hrest
      exact hrest

/-! ### Batches -/

/-- Tokens for the positions of a row from `start` on. -/
structure Share (Tok S : Type) where
  row : Nat → S
  start : Nat
  toks : List Tok

namespace Share

/-- Where the next share of the row starts. -/
def stop (x : Share Tok S) : Nat := x.start + x.toks.length

/-- Neither share writes where the other reads. -/
def Apart (x y : Share Tok S) : Prop :=
  ∀ p < x.stop, ∀ j < y.stop, x.start ≤ p ∨ y.start ≤ j → x.row p ≠ y.row j

variable (m) in
/-- The row holds what comes before, and the tokens are the next of the sequence. -/
structure Ready (mem : S → V) (x : Share Tok S) (ids : List Tok) : Prop where
  holds : m.Holds x.row mem ids x.start
  toks_eq : x.toks = (ids.take x.stop).drop x.start
  fresh : ∀ p, x.start ≤ p → p < x.stop → ∀ j < p, x.row j ≠ x.row p

end Share

variable (m) in
/-- A forward over the shares of a batch: the memory, and for each share the token that follows
its last one. -/
def forward : (S → V) → List (Share Tok S) → (S → V) × List Tok
  | mem, [] => (mem, [])
  | mem, x :: xs =>
      let mem := m.write x.row mem x.start x.toks
      let res := forward mem xs
      (res.1, m.next (read x.row mem x.stop) :: res.2)

variable {x : Share Tok S}

/-- Places that no share is put to stay as they were. -/
theorem forward_of_notMem {s : S} : ∀ {xs : List (Share Tok S)} {mem : S → V},
    (∀ x ∈ xs, ∀ p, x.start ≤ p → p < x.stop → x.row p ≠ s) → (m.forward mem xs).1 s = mem s
  | [], _, _ => rfl
  | x :: xs, mem, h => by
      rw [forward, forward_of_notMem fun y hy => h y (List.mem_cons_of_mem _ hy),
        write_of_notMem (h x List.mem_cons_self)]

theorem Share.Ready.write {mem : S → V} {y : Share Tok S} (h : x.Ready m mem ids)
    (hapart : y.Apart x) : x.Ready m (m.write y.row mem y.start y.toks) ids where
  holds := h.holds.congr fun j hj => write_of_notMem fun p hp hlt =>
    hapart p hlt j (Nat.lt_of_lt_of_le hj (Nat.le_add_right _ _)) (Or.inl hp)
  toks_eq := h.toks_eq
  fresh := h.fresh

/-- Every share of a batch goes on with its own sequence, whatever the others are. -/
theorem forward_ready : ∀ {xs : List (Share Tok S)} {mem : S → V}, xs.Pairwise Share.Apart →
    ∀ {i : Nat}, xs[i]? = some x → x.Ready m mem ids →
      m.Holds x.row (m.forward mem xs).1 ids x.stop ∧
        (m.forward mem xs).2[i]? = some (m.next (m.values (ids.take x.stop)))
  | y :: xs, mem, hapart, 0, hi, h => by
      simp only [List.getElem?_cons_zero, Option.some.injEq] at hi
      subst hi
      rw [List.pairwise_cons] at hapart
      have hwritten : m.Holds y.row (m.write y.row mem y.start y.toks) ids y.stop :=
        h.holds.write h.toks_eq h.fresh
      refine ⟨hwritten.congr fun j hj => forward_of_notMem fun z hz p hp hlt =>
        (hapart.1 z hz j hj p hlt (Or.inr hp)).symm, ?_⟩
      rw [forward, List.getElem?_cons_zero, hwritten.read_eq]
  | y :: xs, mem, hapart, i + 1, hi, h => by
      rw [List.getElem?_cons_succ] at hi
      rw [List.pairwise_cons] at hapart
      exact forward_ready hapart.2 hi (h.write (hapart.1 x (List.mem_of_getElem? hi)))

/-! ### A sequence on its own -/

variable (m) in
/-- The tokens that follow a prompt: up to the first that stops, at most `n`. -/
def decode (stop : Tok → Bool) : List Tok → Nat → List Tok
  | _, 0 => []
  | prompt, n + 1 =>
      let tok := m.next (m.values prompt)
      tok :: if stop tok then [] else decode stop (prompt ++ [tok]) n

/-- What was continued greedily until it had to stop is what the prompt gives on its own. -/
theorem Greedy.eq_decode {stop : Tok → Bool} : ∀ {n : Nat} {tokens prompt : List Tok},
    m.Greedy prompt tokens → tokens.length ≤ n → (∀ tok ∈ tokens.dropLast, stop tok = false) →
    (tokens.length = n ∨ ∃ tok, tokens.getLast? = some tok ∧ stop tok = true) →
    tokens = m.decode stop prompt n
  | n, [], prompt, _, _, _, hends => by
      rcases hends with rfl | ⟨tok, hlast, -⟩
      · rfl
      · cases hlast
  | n + 1, tok :: tokens, prompt, h, hle, hopen, hends => by
      have htok := h 0 tok rfl
      rw [List.take_zero, List.append_nil] at htok
      have hrest : m.Greedy (prompt ++ [tok]) tokens := by
        intro j tok' hj
        have hnext := h (j + 1) tok' hj
        rwa [List.take_succ_cons, List.append_cons] at hnext
      rw [decode, ← htok]
      cases tokens with
      | nil =>
          rcases hends with hn | ⟨tok', hlast, hstop⟩
          · obtain rfl : n = 0 := by simpa using hn.symm
            simp [decode]
          · obtain rfl : tok = tok' := by simpa using hlast
            simp [hstop]
      | cons tok2 tokens =>
          have hgo : stop tok = false := hopen tok (by simp)
          rw [hgo, if_neg Bool.false_ne_true]
          congr 1
          refine hrest.eq_decode (by simpa using hle) (fun tok' hmem => hopen tok' ?_) ?_
          · rw [List.dropLast_cons_of_ne_nil (List.cons_ne_nil _ _)]
            exact List.mem_cons_of_mem _ hmem
          · rcases hends with hn | hlast
            · exact Or.inl (by simpa using hn)
            · right
              rwa [List.getLast?_cons_cons] at hlast

end CausalModel
