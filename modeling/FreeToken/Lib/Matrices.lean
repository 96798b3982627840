import FreeToken.Lib.Tensor

/-!
# Matrices

A matrix is a tensor with two dimensions. It is known by its numbers of rows and columns and by the
values at pairs of indices; so are a range of its rows, its transpose, and the joint of two matrices.
-/

namespace Tensor

variable {α : Type} {a b t u : Tensor α} {m m' n n' : Nat}

/-- `t[start:stop]`. -/
def rows (start stop : Nat) (t : Tensor α) : Tensor α where
  shape := (min stop (t.size 0) - start) :: t.shape.tail
  get := fun idx => t.get ((start + idx.headD 0) :: idx.tail)

/-- `t.T`. -/
def transpose (t : Tensor α) : Tensor α := ⟨t.shape.reverse, fun idx => t.get idx.reverse⟩

theorem inRange_matrix (ht : t.shape = [m, n]) {idx : List Nat} :
    t.InRange idx ↔ ∃ i j, idx = [i, j] ∧ i < m ∧ j < n := by
  rw [InRange, ht]
  constructor
  · intro h
    cases h with
    | cons hi h =>
        cases h with
        | cons hj h =>
            cases h
            exact ⟨_, _, rfl, hi, hj⟩
  · rintro ⟨i, j, rfl, hi, hj⟩
    exact .cons hi (.cons hj .nil)

theorem same_of_matrix (ht : t.shape = [m, n]) (hu : u.shape = [m, n])
    (h : ∀ i j, i < m → j < n → t.get [i, j] = u.get [i, j]) : t.Same u := by
  refine ⟨ht.trans hu.symm, ?_⟩
  intro idx hidx
  obtain ⟨i, j, rfl, hi, hj⟩ := (inRange_matrix ht).mp hidx
  exact h i j hi hj

theorem Same.get_matrix (h : t.Same u) (ht : t.shape = [m, n]) {i j : Nat} (hi : i < m) (hj : j < n) :
    t.get [i, j] = u.get [i, j] :=
  h.2 [i, j] ((inRange_matrix ht).mpr ⟨i, j, rfl, hi, hj⟩)

theorem Same.get_vector (h : t.Same u) (ht : t.shape = [n]) {i : Nat} (hi : i < n) :
    t.get [i] = u.get [i] := by
  apply h.2
  rw [InRange, ht]
  exact .cons hi .nil

/-- What `Joins` says of matrices, where no part is a vector that is passed over. -/
theorem joins_matrix_iff {d : Nat} (ha : a.shape = [m, n]) (hb : b.shape = [m', n']) :
    Joins d a b t ↔ Joinable d a b ∧ t.shape = a.shape.set d (a.size d + b.size d) ∧
      ∀ idx, t.InRange idx → t.get idx = if idx.getD d 0 < a.size d then a.get idx
        else b.get (idx.set d (idx.getD d 0 - a.size d)) := by
  constructor
  · rintro (⟨hvector, -⟩ | ⟨hvector, -⟩ | h)
    · rw [hb] at hvector
      cases hvector
    · rw [ha] at hvector
      cases hvector
    · exact h
  · exact fun h => .inr (.inr h)

/-- One matrix below another. -/
theorem joins_rows_iff (ha : a.shape = [m, n]) (hb : b.shape = [m', n']) :
    Joins 0 a b t ↔ n = n' ∧ t.shape = [m + m', n] ∧
      (∀ i j, i < m → j < n → t.get [i, j] = a.get [i, j]) ∧
      ∀ i j, i < m' → j < n → t.get [m + i, j] = b.get [i, j] := by
  rw [joins_matrix_iff ha hb]
  simp only [Joinable, dim, size, ha, hb, List.eraseIdx_zero, List.tail_cons, List.cons.injEq,
    List.set_cons_zero, List.getD_cons_zero, List.length_cons, Nat.zero_lt_succ, true_and, and_true]
  constructor
  · rintro ⟨rfl, hshape, hget⟩
    refine ⟨rfl, hshape, ?_, ?_⟩
    · intro i j hi hj
      have hidx := (inRange_matrix hshape).mpr ⟨i, j, rfl, Nat.lt_add_right m' hi, hj⟩
      rw [hget _ hidx, List.getD_cons_zero, if_pos hi]
    · intro i j hi hj
      have hidx := (inRange_matrix hshape).mpr ⟨m + i, j, rfl, Nat.add_lt_add_left hi m, hj⟩
      rw [hget _ hidx, List.getD_cons_zero, if_neg (Nat.not_lt.mpr (Nat.le_add_right m i)),
        Nat.add_sub_cancel_left, List.set_cons_zero]
  · rintro ⟨rfl, hshape, hleft, hright⟩
    refine ⟨rfl, hshape, ?_⟩
    intro idx hidx
    obtain ⟨i, j, rfl, hi, hj⟩ := (inRange_matrix hshape).mp hidx
    rw [List.getD_cons_zero, List.set_cons_zero]
    split
    · next hlt => exact hleft i j hlt hj
    · next hge =>
        obtain ⟨k, rfl⟩ := Nat.exists_eq_add_of_le (Nat.not_lt.mp hge)
        rw [hright k j (Nat.lt_of_add_lt_add_left hi) hj, Nat.add_sub_cancel_left]

/-- One matrix beside another. -/
theorem joins_columns_iff (ha : a.shape = [m, n]) (hb : b.shape = [m', n']) :
    Joins 1 a b t ↔ m = m' ∧ t.shape = [m, n + n'] ∧
      (∀ i j, i < m → j < n → t.get [i, j] = a.get [i, j]) ∧
      ∀ i j, i < m → j < n' → t.get [i, n + j] = b.get [i, j] := by
  rw [joins_matrix_iff ha hb]
  simp only [Joinable, dim, size, ha, hb, List.eraseIdx_cons_succ, List.eraseIdx_zero,
    List.tail_cons, List.cons.injEq, List.set_cons_zero, List.set_cons_succ, List.getD_cons_zero,
    List.getD_cons_succ, List.length_cons, List.length_nil, Nat.zero_add, Nat.lt_add_one, true_and,
    and_true]
  constructor
  · rintro ⟨rfl, hshape, hget⟩
    refine ⟨rfl, hshape, ?_, ?_⟩
    · intro i j hi hj
      have hidx := (inRange_matrix hshape).mpr ⟨i, j, rfl, hi, Nat.lt_add_right n' hj⟩
      rw [hget _ hidx, List.getD_cons_succ, List.getD_cons_zero, if_pos hj]
    · intro i j hi hj
      have hidx := (inRange_matrix hshape).mpr ⟨i, n + j, rfl, hi, Nat.add_lt_add_left hj n⟩
      rw [hget _ hidx, List.getD_cons_succ, List.getD_cons_zero,
        if_neg (Nat.not_lt.mpr (Nat.le_add_right n j)), Nat.add_sub_cancel_left,
        List.set_cons_succ, List.set_cons_zero]
  · rintro ⟨rfl, hshape, hleft, hright⟩
    refine ⟨rfl, hshape, ?_⟩
    intro idx hidx
    obtain ⟨i, j, rfl, hi, hj⟩ := (inRange_matrix hshape).mp hidx
    rw [List.getD_cons_succ, List.getD_cons_zero, List.set_cons_succ, List.set_cons_zero]
    split
    · next hlt => exact hleft i j hi hlt
    · next hge =>
        obtain ⟨k, rfl⟩ := Nat.exists_eq_add_of_le (Nat.not_lt.mp hge)
        rw [hright i k hi (Nat.lt_of_add_lt_add_left hj), Nat.add_sub_cancel_left]

/-- An index of a tensor with a last dimension. -/
theorem inRange_last {rest : List Nat} (ht : t.shape = rest ++ [n]) {idx : List Nat} :
    t.InRange idx ↔ ∃ pre j, idx = pre ++ [j] ∧ List.Forall₂ (· < ·) pre rest ∧ j < n := by
  rw [InRange, ht]
  constructor
  · intro h
    have htake := List.forall₂_take_append idx rest [n] h
    have hdrop := List.forall₂_drop_append idx rest [n] h
    obtain ⟨j, _, hj, hnil, hidx⟩ := List.forall₂_cons_right_iff.mp hdrop
    cases hnil
    refine ⟨_, j, ?_, htake, hj⟩
    rw [← hidx, List.take_append_drop]
  · rintro ⟨pre, j, rfl, hpre, hj⟩
    exact List.rel_append hpre (.cons hj .nil)

theorem transpose_shape (ht : t.shape = [m, n]) : t.transpose.shape = [n, m] := by
  rw [transpose, ht]
  rfl

theorem Same.transpose (h : t.Same u) (ht : t.shape = [m, n]) : t.transpose.Same u.transpose := by
  apply same_of_matrix (transpose_shape ht) (transpose_shape (h.1.symm.trans ht))
  intro i j hi hj
  exact h.get_matrix ht hj hi

theorem Joins.transpose (h : Joins 1 a b t) (ha : a.shape = [m, n]) (hb : b.shape = [m', n']) :
    Joins 0 a.transpose b.transpose t.transpose := by
  obtain ⟨rfl, ht, hleft, hright⟩ := (joins_columns_iff ha hb).mp h
  apply (joins_rows_iff (transpose_shape ha) (transpose_shape hb)).mpr
  refine ⟨rfl, transpose_shape ht, ?_, ?_⟩
  · exact fun i j hi hj => hleft j i hj hi
  · exact fun i j hi hj => hright j i hj hi

theorem rows_shape {start stop : Nat} (ht : t.shape = [m, n]) :
    (t.rows start stop).shape = [min stop m - start, n] := by
  rw [rows, size, ht]
  rfl

theorem Same.rows (h : t.Same u) (ht : t.shape = [m, n]) (start stop : Nat) :
    (t.rows start stop).Same (u.rows start stop) := by
  apply same_of_matrix (rows_shape ht) (rows_shape (h.1.symm.trans ht))
  intro i j hi hj
  apply h.get_matrix ht _ hj
  change start + i < m
  have hm := Nat.min_le_right stop m
  omega

/-- The first of two matrices, cut out of their joint. -/
theorem Joins.rows_left (h : Joins 0 a b t) (ha : a.shape = [m, n]) (hb : b.shape = [m', n']) :
    (t.rows 0 m).Same a := by
  obtain ⟨rfl, ht, hleft, -⟩ := (joins_rows_iff ha hb).mp h
  apply same_of_matrix (m := m) (n := n) _ ha
  · intro i j hi hj
    change t.get [0 + i, j] = _
    rw [Nat.zero_add]
    exact hleft i j hi hj
  · rw [rows_shape ht, Nat.min_eq_left (Nat.le_add_right m m'), Nat.sub_zero]

/-- The second of two matrices, cut out of their joint. -/
theorem Joins.rows_right (h : Joins 0 a b t) (ha : a.shape = [m, n]) (hb : b.shape = [m', n'])
    {stop : Nat} (hstop : m + m' ≤ stop) : (t.rows m stop).Same b := by
  obtain ⟨rfl, ht, -, hright⟩ := (joins_rows_iff ha hb).mp h
  apply same_of_matrix (m := m') (n := n) _ hb
  · exact fun i j hi hj => hright i j hi hj
  · rw [rows_shape ht, Nat.min_eq_right hstop, Nat.add_sub_cancel_left]

end Tensor
