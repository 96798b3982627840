import Mathlib.Data.List.Forall2
import Mathlib.Tactic.Common

/-!
# Tensors as functions of an index

A tensor has a shape and a value at each index list within it. What it returns outside its shape
means nothing: two tensors are the same when their shapes are and they agree within it.
-/

structure Tensor (α : Type) where
  shape : List Nat
  get : List Nat → α

namespace Tensor

variable {α β : Type}

def dim (t : Tensor α) : Nat := t.shape.length

/-- `size(d)`, 0 where there is no such dimension. -/
def size (t : Tensor α) (d : Nat) : Nat := t.shape.getD d 0

def InRange (t : Tensor α) (idx : List Nat) : Prop := List.Forall₂ (· < ·) idx t.shape

def Same (t u : Tensor α) : Prop :=
  t.shape = u.shape ∧ ∀ idx, t.InRange idx → t.get idx = u.get idx

theorem Same.refl (t : Tensor α) : t.Same t := ⟨rfl, fun _ _ => rfl⟩

theorem Same.symm {t u : Tensor α} (h : t.Same u) : u.Same t := by
  refine ⟨h.1.symm, ?_⟩
  intro idx hidx
  rw [InRange, ← h.1] at hidx
  exact (h.2 idx hidx).symm

theorem Same.trans {t u v : Tensor α} (h : t.Same u) (h' : u.Same v) : t.Same v := by
  refine ⟨h.1.trans h'.1, ?_⟩
  intro idx hidx
  rw [h.2 idx hidx]
  apply h'.2
  rwa [InRange, ← h.1]

def map (f : α → β) (t : Tensor α) : Tensor β := ⟨t.shape, fun idx => f (t.get idx)⟩

/-- All index lists within a shape, the last index running fastest. -/
def indices : List Nat → List (List Nat)
  | [] => [[]]
  | n :: shape => (List.range n).flatMap fun i => (indices shape).map (i :: ·)

theorem mem_indices {shape idx : List Nat} :
    idx ∈ indices shape ↔ List.Forall₂ (· < ·) idx shape := by
  induction shape generalizing idx with
  | nil => simp [indices]
  | cons n shape ih =>
      cases idx with
      | nil => simp [indices]
      | cons i idx =>
          simp only [indices, List.mem_flatMap, List.mem_range, List.mem_map, List.cons.injEq,
            List.forall₂_cons]
          constructor
          · rintro ⟨j, hj, idx', hidx, rfl, rfl⟩
            exact ⟨hj, ih.mp hidx⟩
          · rintro ⟨hi, hidx⟩
            exact ⟨i, hi, idx, ih.mpr hidx, rfl, rfl⟩

/-- `torch.equal`. -/
def equal [DecidableEq α] (t u : Tensor α) : Bool :=
  t.shape = u.shape && (indices t.shape).all fun idx => t.get idx = u.get idx

theorem equal_iff [DecidableEq α] {t u : Tensor α} : t.equal u = true ↔ t.Same u := by
  simp [equal, Same, InRange, mem_indices]

/-- `t[i]`. -/
def select (t : Tensor α) (i : Nat) : Tensor α := ⟨t.shape.tail, fun idx => t.get (i :: idx)⟩

/-- `unsqueeze(0)`. -/
def unsqueeze (t : Tensor α) : Tensor α := ⟨1 :: t.shape, fun idx => t.get idx.tail⟩

/-- What `copy_` makes of `t` in a tensor of the given shape: a dimension of size 1 is repeated, and
missing ones are added in front. -/
def broadcastTo (shape : List Nat) (t : Tensor α) : Option (Tensor α) :=
  let added := shape.length - t.dim
  if t.dim ≤ shape.length ∧ ((shape.drop added).zip t.shape).all fun p => p.2 = p.1 || p.2 = 1 then
    some ⟨shape, fun idx =>
      t.get (List.zipWith (fun i n => if n = 1 then 0 else i) (idx.drop added) t.shape)⟩
  else none

theorem zipWith_unit {idx shape : List Nat} (h : List.Forall₂ (· < ·) idx shape) :
    List.zipWith (fun i n => if n = 1 then 0 else i) idx shape = idx := by
  induction h with
  | nil => rfl
  | @cons i n idx shape hi _ ih =>
      rw [List.zipWith_cons_cons, ih]
      split
      · next hone =>
          subst hone
          rw [Nat.lt_one_iff.mp hi]
      · rfl

/-- A tensor of the shape that is asked for is copied as it is. -/
theorem broadcastTo_shape (t : Tensor α) : ∃ u, t.broadcastTo t.shape = some u ∧ t.Same u := by
  have hall : (t.shape.zip t.shape).all (fun p => p.2 = p.1 || p.2 = 1) = true := by
    rw [List.all_eq_true]
    intro p hp
    obtain ⟨i, hi⟩ := List.mem_iff_getElem?.mp hp
    obtain ⟨hleft, hright⟩ := List.getElem?_zip_eq_some.mp hi
    simp [Option.some.inj (hright.symm.trans hleft)]
  rw [broadcastTo]
  simp only [dim, Nat.sub_self, List.drop_zero, Nat.le_refl, hall, and_self, if_true]
  refine ⟨_, rfl, rfl, ?_⟩
  intro idx hidx
  exact congrArg t.get (zipWith_unit hidx).symm

/-! ### Concatenation -/

/-- `a`, then `b`, along dimension `d`. -/
def join (d : Nat) (a b : Tensor α) : Tensor α where
  shape := a.shape.set d (a.size d + b.size d)
  get := fun idx =>
    if idx.getD d 0 < a.size d then a.get idx else b.get (idx.set d (idx.getD d 0 - a.size d))

/-- Every dimension but `d` is the same. -/
def Joinable (d : Nat) (a b : Tensor α) : Prop :=
  d < a.dim ∧ d < b.dim ∧ a.shape.eraseIdx d = b.shape.eraseIdx d

instance (d : Nat) (a b : Tensor α) : Decidable (Joinable d a b) :=
  inferInstanceAs (Decidable (_ ∧ _ ∧ _))

/-- Two tensors of a `torch.cat`, which passes over vectors of length 0. -/
def cat₂ (d : Nat) (a b : Tensor α) : Option (Tensor α) :=
  if b.shape = [0] then some a
  else if a.shape = [0] then some b
  else if Joinable d a b then some (join d a b)
  else none

/-- `torch.cat(ts, dim=d)`. -/
def cat (d : Nat) : List (Tensor α) → Option (Tensor α)
  | [] => none
  | t :: ts => (ts.foldlM (cat₂ d) t).filter fun u => u.shape = [0] || d < u.dim

/-- What the concatenation of two tensors is, element by element. -/
def Joins (d : Nat) (a b t : Tensor α) : Prop :=
  (b.shape = [0] ∧ t.Same a) ∨ (a.shape = [0] ∧ t.Same b) ∨
    (Joinable d a b ∧ t.shape = a.shape.set d (a.size d + b.size d) ∧
      ∀ idx, t.InRange idx → t.get idx =
        if idx.getD d 0 < a.size d then a.get idx
        else b.get (idx.set d (idx.getD d 0 - a.size d)))

theorem joins_of_cat {d : Nat} {a b t : Tensor α} (h : cat d [a, b] = some t) : Joins d a b t := by
  rw [cat, Option.filter_eq_some_iff, List.foldlM_cons, Option.bind_eq_bind,
    Option.bind_eq_some_iff] at h
  obtain ⟨⟨u, hu, hut⟩, -⟩ := h
  cases hut
  rw [cat₂] at hu
  split at hu
  · next hb =>
      cases hu
      exact .inl ⟨hb, Same.refl _⟩
  · split at hu
    · next ha =>
        cases hu
        exact .inr (.inl ⟨ha, Same.refl _⟩)
    · split at hu
      · next hj =>
          cases hu
          exact .inr (.inr ⟨hj, rfl, fun _ _ => rfl⟩)
      · cases hu

theorem Joins.same {d : Nat} {a b t u : Tensor α} (h : Joins d a b t) (htu : t.Same u) :
    Joins d a b u := by
  rcases h with ⟨hb, ha⟩ | ⟨ha, hb⟩ | ⟨hj, hshape, hget⟩
  · exact .inl ⟨hb, htu.symm.trans ha⟩
  · exact .inr (.inl ⟨ha, htu.symm.trans hb⟩)
  · refine .inr (.inr ⟨hj, htu.1.symm.trans hshape, ?_⟩)
    intro idx hidx
    rw [← hget idx (by rwa [InRange, htu.1])]
    exact htu.symm.2 idx hidx

theorem Same.map {t u : Tensor α} (h : t.Same u) (f : α → β) : (t.map f).Same (u.map f) :=
  ⟨h.1, fun idx hidx => congrArg f (h.2 idx hidx)⟩

theorem Joins.map {d : Nat} {a b t : Tensor α} (h : Joins d a b t) (f : α → β) :
    Joins d (a.map f) (b.map f) (t.map f) := by
  rcases h with ⟨hb, ha⟩ | ⟨ha, hb⟩ | ⟨hj, hshape, hget⟩
  · exact .inl ⟨hb, ha.map f⟩
  · exact .inr (.inl ⟨ha, hb.map f⟩)
  · refine .inr (.inr ⟨hj, hshape, ?_⟩)
    intro idx hidx
    change f (t.get idx) = if idx.getD d 0 < a.size d then f (a.get idx) else f (b.get _)
    rw [hget idx hidx]
    split <;> rfl

/-- An index of a joint that lies in the first part. -/
theorem inRange_left {d : Nat} : ∀ {idx shape : List Nat} {n : Nat},
    List.Forall₂ (· < ·) idx (shape.set d n) → idx.getD d 0 < shape.getD d 0 →
      List.Forall₂ (· < ·) idx shape := by
  induction d with
  | zero =>
      intro idx shape n h hlt
      cases shape with
      | nil => exact h
      | cons m shape =>
          cases h with
          | cons hi hidx => exact .cons hlt hidx
  | succ d ih =>
      intro idx shape n h hlt
      cases shape with
      | nil => exact h
      | cons m shape =>
          cases h with
          | cons hi hidx => exact .cons hi (ih hidx hlt)

/-- An index of a joint that lies in the second part. -/
theorem inRange_right {d : Nat} : ∀ {idx a b : List Nat},
    List.Forall₂ (· < ·) idx (a.set d (a.getD d 0 + b.getD d 0)) → d < a.length → d < b.length →
      a.eraseIdx d = b.eraseIdx d → ¬ idx.getD d 0 < a.getD d 0 →
      List.Forall₂ (· < ·) (idx.set d (idx.getD d 0 - a.getD d 0)) b := by
  induction d with
  | zero =>
      intro idx a b h ha hb heq hge
      cases a with
      | nil => cases ha
      | cons m a =>
          cases b with
          | nil => cases hb
          | cons n b =>
              cases h with
              | cons hi hidx =>
                  simp only [List.eraseIdx_zero, List.tail_cons] at heq
                  subst heq
                  simp only [List.getD_cons_zero] at hi hge
                  refine .cons ?_ hidx
                  simp only [List.getD_cons_zero]
                  omega
  | succ d ih =>
      intro idx a b h ha hb heq hge
      cases a with
      | nil => cases ha
      | cons m a =>
          cases b with
          | nil => cases hb
          | cons n b =>
              cases h with
              | cons hi hidx =>
                  simp only [List.eraseIdx_cons_succ, List.cons.injEq] at heq
                  obtain ⟨rfl, heq⟩ := heq
                  refine .cons hi ?_
                  exact ih hidx (Nat.lt_of_succ_lt_succ ha) (Nat.lt_of_succ_lt_succ hb) heq hge

theorem Joins.congr {d : Nat} {a b t a' b' : Tensor α} (h : Joins d a b t) (ha : a.Same a')
    (hb : b.Same b') : Joins d a' b' t := by
  rcases h with ⟨hb0, hat⟩ | ⟨ha0, hbt⟩ | ⟨hj, hshape, hget⟩
  · exact .inl ⟨hb.1.symm.trans hb0, hat.trans ha⟩
  · exact .inr (.inl ⟨ha.1.symm.trans ha0, hbt.trans hb⟩)
  · refine .inr (.inr ⟨?_, ?_, ?_⟩)
    · rw [Joinable, dim, dim, ← ha.1, ← hb.1]
      exact hj
    · rw [hshape, size, size, size, size, ha.1, hb.1]
    · intro idx hidx
      rw [hget idx hidx, size, size, ← ha.1]
      rw [InRange, hshape] at hidx
      split
      · next hlt => exact ha.2 idx (inRange_left hidx hlt)
      · next hge => exact hb.2 _ (inRange_right hidx hj.1 hj.2.1 hj.2.2 hge)

/-- A joint along a later dimension joins every row. -/
theorem Joins.select {d n e : Nat} {a b t : Tensor α} {rest : List Nat} (h : Joins (d + 1) a b t)
    (ha : a.shape = n :: rest) (hrest : rest ≠ []) (hb : b.shape ≠ [0]) (he : e < n) :
    Joins d (a.select e) (b.select e) (t.select e) := by
  rcases h with ⟨hb0, -⟩ | ⟨ha0, -⟩ | ⟨hj, hshape, hget⟩
  · exact absurd hb0 hb
  · rw [ha] at ha0
    cases ha0
    exact absurd rfl hrest
  · obtain ⟨m, rest', hb'⟩ : ∃ m rest', b.shape = m :: rest' := by
      have hd := hj.2.1
      rw [dim] at hd
      cases hbs : b.shape with
      | nil => rw [hbs] at hd; cases hd
      | cons m rest' => exact ⟨m, rest', rfl⟩
    have hj' := hj
    rw [Joinable, dim, dim, ha, hb', List.eraseIdx_cons_succ, List.eraseIdx_cons_succ,
      List.cons.injEq] at hj'
    obtain ⟨hda, hdb, rfl, heq⟩ := hj'
    refine .inr (.inr ⟨⟨?_, ?_, ?_⟩, ?_, ?_⟩)
    · rw [dim, Tensor.select, ha]
      exact Nat.lt_of_succ_lt_succ hda
    · rw [dim, Tensor.select, hb']
      exact Nat.lt_of_succ_lt_succ hdb
    · rw [Tensor.select, Tensor.select, ha, hb']
      exact heq
    · simp [Tensor.select, hshape, size, ha, hb']
    · intro idx hidx
      have hidx' : t.InRange (e :: idx) := by
        rw [InRange, hshape, ha]
        refine .cons he ?_
        rw [InRange, Tensor.select, hshape, ha] at hidx
        exact hidx
      have hg := hget (e :: idx) hidx'
      simpa [Tensor.select, size, ha, hb'] using hg

/-- A joint of at least two dimensions is what `cat` makes. -/
theorem exists_cat_of_joins {d : Nat} {a b t : Tensor α} (h : Joins d a b t) (hd : d < t.dim)
    (hdim : 1 < t.dim) : ∃ u, cat d [a, b] = some u ∧ t.Same u := by
  have hpass : ∀ u : Tensor α, d < u.dim → (some u).filter (fun u => u.shape = [0] || d < u.dim) =
      some u := by
    intro u hu
    simp [hu]
  have hvector : ∀ u : Tensor α, 1 < u.dim → u.shape ≠ [0] := by
    intro u hu h0
    simp [dim, h0] at hu
  have hsame : ∀ u : Tensor α, t.Same u → u.dim = t.dim := fun u hu => congrArg List.length hu.1.symm
  rw [cat, List.foldlM_cons, cat₂]
  rcases h with ⟨hb, ha⟩ | ⟨ha, hb⟩ | ⟨hj, hshape, hget⟩
  · rw [if_pos hb]
    exact ⟨a, hpass a (by rwa [hsame a ha]), ha⟩
  · rw [if_neg (hvector b (by rwa [hsame b hb])), if_pos ha]
    exact ⟨b, hpass b (by rwa [hsame b hb]), hb⟩
  · have hadim : a.dim = t.dim := by
      rw [dim, dim, hshape, List.length_set]
    have hbdim : b.dim = t.dim := by
      have hlen := congrArg List.length hj.2.2
      rw [List.length_eraseIdx_of_lt hj.1, List.length_eraseIdx_of_lt hj.2.1] at hlen
      have ha := hj.1
      have hb := hj.2.1
      simp only [dim] at *
      omega
    rw [if_neg (hvector b (by rwa [hbdim])), if_neg (hvector a (by rwa [hadim])), if_pos hj]
    refine ⟨join d a b, hpass _ ?_, hshape, hget⟩
    rw [dim, join, List.length_set]
    exact hj.1

/-- Rows of one shape are appended below an `acc` that has `k` of them. -/
theorem foldlM_cat₂_rows {shape : List Nat} :
    ∀ (rows : List (Tensor α)) (acc : Tensor α) (k : Nat), (∀ r ∈ rows, r.shape = shape) →
      acc.shape = (k + 1) :: shape →
      ∃ t, (rows.map unsqueeze).foldlM (cat₂ 0) acc = some t ∧
        t.shape = (k + 1 + rows.length) :: shape ∧
        (∀ i, i < k + 1 → ∀ idx, t.get (i :: idx) = acc.get (i :: idx)) ∧
        ∀ i r, rows[i]? = some r → ∀ idx, t.get ((k + 1 + i) :: idx) = r.get idx
  | [], acc, k, _, hacc => ⟨acc, rfl, hacc, fun _ _ _ => rfl, fun i r h => by simp at h⟩
  | row :: rows, acc, k, hrows, hacc => by
      have hrow : row.shape = shape := hrows row List.mem_cons_self
      have hjoin : cat₂ 0 acc row.unsqueeze = some (join 0 acc row.unsqueeze) := by
        rw [cat₂, if_neg, if_neg, if_pos]
        · simp [Joinable, dim, unsqueeze, hacc, hrow]
        · simp [hacc]
        · simp [unsqueeze]
      have hshape : (join 0 acc row.unsqueeze).shape = (k + 1 + 1) :: shape := by
        simp [join, size, unsqueeze, hacc]
      obtain ⟨t, ht, htshape, hold, hnew⟩ := foldlM_cat₂_rows rows _ (k + 1)
        (fun r hr => hrows r (List.mem_cons_of_mem row hr)) hshape
      refine ⟨t, ?_, ?_, ?_, ?_⟩
      · rw [List.map_cons, List.foldlM_cons, hjoin]
        exact ht
      · rw [htshape, List.length_cons]
        congr 1
        omega
      · intro i hi idx
        rw [hold i (by omega) idx]
        change (if i < acc.size 0 then _ else _) = _
        rw [size, hacc, List.getD_cons_zero, if_pos hi]
      · intro i r hi idx
        cases i with
        | zero =>
            cases hi
            rw [hold (k + 1 + 0) (by omega) idx]
            simp [join, size, hacc, unsqueeze]
        | succ i =>
            have h := hnew i r hi idx
            rw [show k + 1 + (i + 1) = k + 1 + 1 + i by omega]
            exact h

/-- Rows of one shape, stacked along a new dimension 0. -/
theorem cat_unsqueeze {shape : List Nat} {rows : List (Tensor α)} (hne : rows ≠ [])
    (hrows : ∀ r ∈ rows, r.shape = shape) :
    ∃ t, cat 0 (rows.map unsqueeze) = some t ∧ t.shape = rows.length :: shape ∧
      ∀ i r, rows[i]? = some r → ∀ idx, t.get (i :: idx) = r.get idx := by
  cases rows with
  | nil => exact absurd rfl hne
  | cons row rows =>
      have hrow : row.shape = shape := hrows row List.mem_cons_self
      obtain ⟨t, ht, htshape, hold, hnew⟩ := foldlM_cat₂_rows rows row.unsqueeze 0
        (fun r hr => hrows r (List.mem_cons_of_mem row hr)) (by simp [unsqueeze, hrow])
      refine ⟨t, ?_, ?_, ?_⟩
      · rw [List.map_cons, cat, ht]
        simp [dim, htshape]
      · rw [htshape, List.length_cons]
        congr 1
        omega
      · intro i r hi idx
        cases i with
        | zero =>
            cases hi
            exact hold 0 (by omega) idx
        | succ i =>
            have h := hnew i r hi idx
            rw [show i + 1 = 0 + 1 + i by omega]
            exact h

/-! ### Flat values -/

/-- The number of elements. -/
def numel (shape : List Nat) : Nat := shape.foldl (· * ·) 1

theorem foldl_mul (shape : List Nat) : ∀ n : Nat, shape.foldl (· * ·) n = n * numel shape := by
  induction shape with
  | nil => exact fun n => (Nat.mul_one n).symm
  | cons k shape ih =>
      intro n
      rw [numel, List.foldl_cons, List.foldl_cons, ih, ih, Nat.one_mul, Nat.mul_assoc]

@[simp]
theorem numel_nil : numel [] = 1 := rfl

@[simp]
theorem numel_cons (n : Nat) (shape : List Nat) : numel (n :: shape) = n * numel shape := by
  rw [numel, List.foldl_cons, foldl_mul, Nat.one_mul]

/-- The place of an index among the flat values, the last index running fastest. -/
def ravel : List Nat → List Nat → Nat
  | _ :: shape, i :: idx => i * numel shape + ravel shape idx
  | _, _ => 0

theorem ravel_lt {shape idx : List Nat} (h : List.Forall₂ (· < ·) idx shape) :
    ravel shape idx < numel shape := by
  induction h with
  | nil => exact Nat.one_pos
  | @cons i n idx shape hi _ ih =>
      rw [numel_cons, ravel]
      calc i * numel shape + ravel shape idx < i * numel shape + numel shape :=
            Nat.add_lt_add_left ih _
        _ = (i + 1) * numel shape := by rw [Nat.add_mul, Nat.one_mul]
        _ ≤ n * numel shape := Nat.mul_le_mul_right _ hi

/-- `reshape` of flat values; outside the shape there is `fill`. -/
def ofFlat (shape : List Nat) (fill : α) (flat : List α) : Tensor α :=
  ⟨shape, fun idx => flat.getD (ravel shape idx) fill⟩

/-- Values past the shape do not count. -/
theorem ofFlat_take {shape idx : List Nat} (h : List.Forall₂ (· < ·) idx shape) (fill : α)
    (flat : List α) :
    (ofFlat shape fill (flat.take (numel shape))).get idx = flat.getD (ravel shape idx) fill := by
  change (flat.take (numel shape)).getD (ravel shape idx) fill = _
  rw [List.getD_eq_getElem?_getD, List.getD_eq_getElem?_getD,
    List.getElem?_take_of_lt (ravel_lt h)]

end Tensor
