import Mathlib.Data.List.FinRange
import Mathlib.Data.List.Perm.Subperm
import Mathlib.Logic.Function.Basic

/-!
# Pools of slots with time stamps

A pool has slots, each free or owned by a key, and each with the time it was last asked
for, `0` for a free one. A call asks for some keys: the slots of those that have one are
stamped, and the others are put, one after the other, where the stamp is least. As long as
a call asks for no more keys than there are slots, none of its keys is displaced by
another one; and the keys that have a slot are the ones asked for most recently.
-/

namespace StampedPool

structure Pool (κ : Type) where
  size : Nat
  owner : Nat → Option κ
  stamp : Nat → Nat

variable {κ : Type}

namespace Pool

/-- The key has a slot. -/
def Holds (p : Pool κ) (k : κ) : Prop := ∃ s, p.owner s = some k

/-- No slot has an earlier stamp. -/
def Least (p : Pool κ) (v : Nat) : Prop := v < p.size ∧ ∀ s < p.size, p.stamp v ≤ p.stamp s

/-- The slot is given to the key. -/
def put (p : Pool κ) (now : Nat) (k : κ) (v : Nat) : Pool κ where
  size := p.size
  owner := Function.update p.owner v (some k)
  stamp := Function.update p.stamp v now

@[simp] theorem put_size (p : Pool κ) (now : Nat) (k : κ) (v : Nat) :
    (p.put now k v).size = p.size := rfl

@[simp] theorem put_owner_self (p : Pool κ) (now : Nat) (k : κ) (v : Nat) :
    (p.put now k v).owner v = some k := Function.update_self _ _ _

@[simp] theorem put_stamp_self (p : Pool κ) (now : Nat) (k : κ) (v : Nat) :
    (p.put now k v).stamp v = now := Function.update_self _ _ _

theorem put_owner_of_ne (p : Pool κ) (now : Nat) (k : κ) {v s : Nat} (h : s ≠ v) :
    (p.put now k v).owner s = p.owner s := Function.update_of_ne h _ _

theorem put_stamp_of_ne (p : Pool κ) (now : Nat) (k : κ) {v s : Nat} (h : s ≠ v) :
    (p.put now k v).stamp s = p.stamp s := Function.update_of_ne h _ _

theorem put_owner_cases {p : Pool κ} {now v s : Nat} {k k' : κ}
    (h : (p.put now k v).owner s = some k') : s = v ∧ k' = k ∨ s ≠ v ∧ p.owner s = some k' := by
  by_cases hsv : s = v
  · subst hsv
    rw [put_owner_self] at h
    exact Or.inl ⟨rfl, (Option.some.inj h).symm⟩
  · rw [put_owner_of_ne p now k hsv] at h
    exact Or.inr ⟨hsv, h⟩

/-- Between two calls. -/
structure Ok (p : Pool κ) (now : Nat) : Prop where
  owner_lt : ∀ s k, p.owner s = some k → s < p.size
  unique : ∀ s s' k, p.owner s = some k → p.owner s' = some k → s = s'
  free : ∀ s < p.size, p.owner s = none → p.stamp s = 0
  used : ∀ s k, p.owner s = some k → 0 < p.stamp s
  stamp_le : ∀ s < p.size, p.stamp s ≤ now

/-- As long as a slot is free, a free one is least. -/
theorem Least.full {p : Pool κ} {now v : Nat} {k : κ} (hv : p.Least v) (h : p.Ok now)
    (hk : p.owner v = some k) : ∀ s < p.size, p.owner s ≠ none := by
  intro s hs hnone
  have hle := hv.2 s hs
  rw [h.free s hs hnone] at hle
  have hpos := h.used v k hk
  omega

theorem least_of_free {p : Pool κ} {now v : Nat} (h : p.Ok now) (hv : v < p.size)
    (hnone : p.owner v = none) : p.Least v := by
  refine ⟨hv, ?_⟩
  intro s _
  rw [h.free v hv hnone]
  exact Nat.zero_le _

end Pool

open Pool

/-! ### One call -/

/-- The slots of the keys asked for are stamped. -/
structure Touched (p q : Pool κ) (now : Nat) (asked : List κ) : Prop where
  size_eq : q.size = p.size
  owner_eq : q.owner = p.owner
  hit : ∀ s k, p.owner s = some k → k ∈ asked → q.stamp s = now
  miss : ∀ s, (∀ k ∈ asked, p.owner s ≠ some k) → q.stamp s = p.stamp s

/-- The keys are put into least slots, one after the other. -/
inductive Puts (now : Nat) : Pool κ → List κ → Pool κ → Prop
  | nil (p : Pool κ) : Puts now p [] p
  | cons {p q : Pool κ} {k : κ} {ks : List κ} {v : Nat} (hv : p.Least v)
      (h : Puts now (p.put now k v) ks q) : Puts now p (k :: ks) q

/-- In a call: `rest` are the keys that still wait for a slot. -/
structure Serving (p : Pool κ) (now : Nat) (asked rest : List κ) : Prop where
  ok : p.Ok now
  now_pos : 0 < now
  room : asked.length ≤ p.size
  nodup : rest.Nodup
  sub : ∀ k ∈ rest, k ∈ asked
  absent : ∀ k ∈ rest, ¬ p.Holds k
  present : ∀ k ∈ asked, k ∉ rest → ∃ s, p.owner s = some k ∧ p.stamp s = now
  stamped : ∀ s < p.size, p.stamp s = now → ∃ k ∈ asked, k ∉ rest ∧ p.owner s = some k

section Call

variable {p q : Pool κ} {now v s : Nat} {asked rest : List κ} {k k' : κ}

theorem Touched.serving {t : Nat} (h : Touched p q now asked) (hp : p.Ok t) (ht : t < now)
    (hroom : asked.length ≤ p.size) (hnodup : rest.Nodup)
    (hrest : ∀ k, k ∈ rest ↔ k ∈ asked ∧ ¬ p.Holds k) : Serving q now asked rest := by
  have hstamp : ∀ s, q.stamp s = now ∨ q.stamp s = p.stamp s := by
    intro s
    by_cases hhit : ∃ k ∈ asked, p.owner s = some k
    · obtain ⟨k, hk, hs⟩ := hhit
      exact Or.inl (h.hit s k hs hk)
    · exact Or.inr (h.miss s fun k hk hs => hhit ⟨k, hk, hs⟩)
  refine ⟨⟨?_, ?_, ?_, ?_, ?_⟩, Nat.zero_lt_of_lt ht, ?_, hnodup, ?_, ?_, ?_, ?_⟩
  · rw [h.owner_eq, h.size_eq]
    exact hp.owner_lt
  · rw [h.owner_eq]
    exact hp.unique
  · rw [h.owner_eq, h.size_eq]
    intro s hs hnone
    rw [h.miss s fun k _ hk => by rw [hnone] at hk; cases hk]
    exact hp.free s hs hnone
  · rw [h.owner_eq]
    intro s k hs
    rcases hstamp s with heq | heq
    · rw [heq]
      exact Nat.zero_lt_of_lt ht
    · rw [heq]
      exact hp.used s k hs
  · rw [h.size_eq]
    intro s hs
    rcases hstamp s with heq | heq
    · exact Nat.le_of_eq heq
    · rw [heq]
      exact Nat.le_trans (hp.stamp_le s hs) (Nat.le_of_lt ht)
  · rw [h.size_eq]
    exact hroom
  · intro k hk
    exact ((hrest k).mp hk).1
  · intro k hk
    rw [Holds, h.owner_eq]
    exact ((hrest k).mp hk).2
  · intro k hk hnot
    have hholds : p.Holds k := by
      by_contra hno
      exact hnot ((hrest k).mpr ⟨hk, hno⟩)
    obtain ⟨s, hs⟩ := hholds
    refine ⟨s, ?_, h.hit s k hs hk⟩
    rw [h.owner_eq]
    exact hs
  · rw [h.size_eq, h.owner_eq]
    intro s hs heq
    by_contra hno
    have hmiss : q.stamp s = p.stamp s := by
      apply h.miss
      intro k hk hown
      exact hno ⟨k, hk, fun hr => ((hrest k).mp hr).2 ⟨s, hown⟩, hown⟩
    have hle := hp.stamp_le s hs
    omega

/-- As long as a key waits, there is a slot that this call has not stamped: each stamped one
has a key of its own among the others. -/
theorem Serving.exists_lt (h : Serving p now asked (k :: rest)) :
    ∃ s < p.size, p.stamp s < now := by
  by_contra hno
  have hall : ∀ s, s < p.size → p.stamp s = now := by
    intro s hs
    have hle := h.ok.stamp_le s hs
    have hnot : ¬ p.stamp s < now := fun hlt => hno ⟨s, hs, hlt⟩
    omega
  choose key hasked hrest hown using fun s : Fin p.size => h.stamped s s.2 (hall s s.2)
  have hinj : Function.Injective key := by
    intro s s' heq
    apply Fin.ext
    apply h.ok.unique s s' (key s) (hown s)
    rw [heq]
    exact hown s'
  have hnodup : (k :: List.ofFn key).Nodup := by
    refine List.nodup_cons.mpr ⟨?_, List.nodup_ofFn_ofInjective hinj⟩
    intro hmem
    obtain ⟨s, hs⟩ := List.mem_ofFn.mp hmem
    apply hrest s
    rw [hs]
    exact List.mem_cons_self
  have hsub : (k :: List.ofFn key) ⊆ asked := by
    intro k' hk'
    rcases List.mem_cons.mp hk' with rfl | hk'
    · exact h.sub k' List.mem_cons_self
    · obtain ⟨s, rfl⟩ := List.mem_ofFn.mp hk'
      exact hasked s
  have hlen := (hnodup.subperm hsub).length_le
  rw [List.length_cons, List.length_ofFn] at hlen
  have hroom := h.room
  omega

theorem Serving.stamp_lt (h : Serving p now asked (k :: rest)) (hv : p.Least v) :
    p.stamp v < now := by
  obtain ⟨s, hs, hlt⟩ := h.exists_lt
  exact Nat.lt_of_le_of_lt (hv.2 s hs) hlt

/-- The key that makes room is not one of those asked for. -/
theorem Serving.displaced_notMem (h : Serving p now asked (k :: rest)) (hv : p.Least v)
    (hk' : p.owner v = some k') : k' ∉ asked := by
  intro hasked
  have hnot : k' ∉ k :: rest := fun hmem => h.absent k' hmem ⟨v, hk'⟩
  obtain ⟨s, hs, hstamp⟩ := h.present k' hasked hnot
  have hlt := h.stamp_lt hv
  rw [h.ok.unique v s k' hk' hs, hstamp] at hlt
  exact Nat.lt_irrefl now hlt

theorem Serving.put (h : Serving p now asked (k :: rest)) (hv : p.Least v) :
    Serving (p.put now k v) now asked rest := by
  have hlt := h.stamp_lt hv
  have habsent := h.absent k List.mem_cons_self
  obtain ⟨hk, hnodup⟩ := List.nodup_cons.mp h.nodup
  refine ⟨⟨?_, ?_, ?_, ?_, ?_⟩, h.now_pos, h.room, hnodup, ?_, ?_, ?_, ?_⟩
  · intro s k' hs
    rcases put_owner_cases hs with ⟨rfl, -⟩ | ⟨-, hs⟩
    · exact hv.1
    · exact h.ok.owner_lt s k' hs
  · intro s s' k' hs hs'
    rcases put_owner_cases hs with ⟨hsv, hkk⟩ | ⟨-, hs⟩
    · rcases put_owner_cases hs' with ⟨hsv', -⟩ | ⟨-, hs'⟩
      · exact hsv.trans hsv'.symm
      · exact absurd ⟨s', hkk ▸ hs'⟩ habsent
    · rcases put_owner_cases hs' with ⟨-, hkk⟩ | ⟨-, hs'⟩
      · exact absurd ⟨s, hkk ▸ hs⟩ habsent
      · exact h.ok.unique s s' k' hs hs'
  · intro s hs hnone
    by_cases hsv : s = v
    · subst hsv
      rw [put_owner_self] at hnone
      cases hnone
    · rw [put_owner_of_ne p now k hsv] at hnone
      rw [put_stamp_of_ne p now k hsv]
      exact h.ok.free s hs hnone
  · intro s k' hs
    rcases put_owner_cases hs with ⟨rfl, -⟩ | ⟨hsv, hs⟩
    · rw [put_stamp_self]
      exact h.now_pos
    · rw [put_stamp_of_ne p now k hsv]
      exact h.ok.used s k' hs
  · intro s hs
    by_cases hsv : s = v
    · subst hsv
      exact Nat.le_of_eq (put_stamp_self p now k s)
    · rw [put_stamp_of_ne p now k hsv]
      exact h.ok.stamp_le s hs
  · intro k' hk'
    exact h.sub k' (List.mem_cons_of_mem k hk')
  · rintro k' hk' ⟨s, hs⟩
    rcases put_owner_cases hs with ⟨-, rfl⟩ | ⟨-, hs⟩
    · exact hk hk'
    · exact h.absent k' (List.mem_cons_of_mem k hk') ⟨s, hs⟩
  · intro k' hasked hnot
    by_cases hkk : k' = k
    · subst hkk
      exact ⟨v, put_owner_self p now k' v, put_stamp_self p now k' v⟩
    · obtain ⟨s, hs, hstamp⟩ := h.present k' hasked fun hmem =>
        (List.mem_cons.mp hmem).elim hkk hnot
      have hsv : s ≠ v := by
        rintro rfl
        omega
      exact ⟨s, (put_owner_of_ne p now k hsv).trans hs, (put_stamp_of_ne p now k hsv).trans hstamp⟩
  · intro s hs hstamp
    by_cases hsv : s = v
    · subst hsv
      exact ⟨k, h.sub k List.mem_cons_self, hk, put_owner_self p now k s⟩
    · rw [put_stamp_of_ne p now k hsv] at hstamp
      obtain ⟨k', hasked, hnot, hown⟩ := h.stamped s hs hstamp
      exact ⟨k', hasked, fun hmem => hnot (List.mem_cons_of_mem k hmem),
        (put_owner_of_ne p now k hsv).trans hown⟩

theorem Puts.serving (h : Puts now p rest q) : Serving p now asked rest → Serving q now asked [] := by
  induction h with
  | nil p => exact id
  | cons hv _ ih => exact fun hs => ih (hs.put hv)

theorem Puts.size_eq (h : Puts now p rest q) : q.size = p.size := by
  induction h with
  | nil p => rfl
  | cons _ _ ih => exact ih

/-- A slot either is left as it was or was given to one of the keys. -/
theorem Puts.frame (h : Puts now p rest q) (s : Nat) :
    q.owner s = p.owner s ∧ q.stamp s = p.stamp s ∨
      ∃ k ∈ rest, q.owner s = some k ∧ q.stamp s = now := by
  induction h with
  | nil p => exact Or.inl ⟨rfl, rfl⟩
  | @cons p q k ks v _ _ ih =>
      rcases ih with ⟨hown, hstamp⟩ | ⟨k', hk', hlater⟩
      · by_cases hsv : s = v
        · subst hsv
          refine Or.inr ⟨k, List.mem_cons_self, ?_, ?_⟩
          · rw [hown, put_owner_self]
          · rw [hstamp, put_stamp_self]
        · refine Or.inl ⟨?_, ?_⟩
          · rw [hown, put_owner_of_ne p now k hsv]
          · rw [hstamp, put_stamp_of_ne p now k hsv]
      · exact Or.inr ⟨k', List.mem_cons_of_mem k hk', hlater⟩

/-- A slot that this call has stamped is not given away. -/
theorem Puts.keeps (h : Puts now p rest q) (hserving : Serving p now asked rest)
    (hs : p.owner s = some k) (hstamp : p.stamp s = now) :
    q.owner s = some k ∧ q.stamp s = now := by
  induction h with
  | nil p => exact ⟨hs, hstamp⟩
  | @cons p q k' ks v hv _ ih =>
      have hsv : s ≠ v := by
        rintro rfl
        have hlt := hserving.stamp_lt hv
        omega
      apply ih (hserving.put hv)
      · rw [put_owner_of_ne p now k' hsv, hs]
      · rw [put_stamp_of_ne p now k' hsv, hstamp]

theorem Puts.stamp_le (h : Puts now p rest q) (hp : ∀ s < p.size, p.stamp s ≤ now)
    (hs : s < p.size) : p.stamp s ≤ q.stamp s := by
  rcases h.frame s with ⟨-, hstamp⟩ | ⟨-, -, -, hstamp⟩
  · exact Nat.le_of_eq hstamp.symm
  · rw [hstamp]
    exact hp s hs

/-- What was displaced was stamped no later than anything that is there in the end, and no
slot is free then. -/
theorem Puts.displaced (h : Puts now p rest q) (hserving : Serving p now asked rest)
    (hs : p.owner s = some k) (hgone : ¬ q.Holds k) :
    ∀ s' < p.size, p.stamp s ≤ q.stamp s' := by
  induction h with
  | nil p => exact absurd ⟨s, hs⟩ hgone
  | @cons p q k' ks v hv hputs ih =>
      have hnext := hserving.put hv
      by_cases hsv : s = v
      · subst hsv
        intro s' hs'
        have hgrow : p.stamp s' ≤ (p.put now k' s).stamp s' := by
          by_cases heq : s' = s
          · subst heq
            rw [put_stamp_self]
            exact hserving.ok.stamp_le s' hs'
          · rw [put_stamp_of_ne p now k' heq]
        exact Nat.le_trans (hv.2 s' hs') (Nat.le_trans hgrow (hputs.stamp_le hnext.ok.stamp_le hs'))
      · have hown : (p.put now k' v).owner s = some k := by
          rw [put_owner_of_ne p now k' hsv, hs]
        have hlater := ih hnext hown hgone
        rw [put_stamp_of_ne p now k' hsv] at hlater
        exact hlater

end Call

/-! ### The least recently used -/

/-- `last` is the time at which a key was last asked for, `0` when it never was: it is what
its slot is stamped with, and the keys without a slot were asked for no later than those
with one. -/
structure Lru (last : κ → Nat) (p : Pool κ) (now : Nat) : Prop where
  ok : p.Ok now
  stamp_eq : ∀ s k, p.owner s = some k → p.stamp s = last k
  recent : ∀ k k', ¬ p.Holds k → p.Holds k' → last k ≤ last k'
  last_le : ∀ k, last k ≤ now

/-- A call keeps it. -/
theorem Lru.serve {last last' : κ → Nat} {p p' q : Pool κ} {t now : Nat} {asked rest : List κ}
    (h : Lru last p t) (ht : t < now) (htouched : Touched p p' now asked)
    (hserving : Serving p' now asked rest) (hputs : Puts now p' rest q)
    (hasked : ∀ k ∈ asked, last' k = now) (hother : ∀ k, k ∉ asked → last' k = last k) :
    Lru last' q now := by
  have hend := hputs.serving hserving
  have hholds : ∀ k ∈ asked, q.Holds k := fun k hk =>
    (hend.present k hk List.not_mem_nil).imp fun s hs => hs.1
  have hstamp : ∀ s k, q.owner s = some k → q.stamp s = last' k := by
    intro s k hs
    by_cases hk : k ∈ asked
    · obtain ⟨s', hs', hnow⟩ := hend.present k hk List.not_mem_nil
      rw [hasked k hk, hend.ok.unique s s' k hs hs', hnow]
    · rcases hputs.frame s with ⟨hown, heq⟩ | ⟨k', hk', hown, -⟩
      · rw [hown, htouched.owner_eq] at hs
        rw [heq, hother k hk, ← h.stamp_eq s k hs]
        apply htouched.miss
        intro k' hk' hs'
        rw [hs] at hs'
        exact hk (Option.some.inj hs' ▸ hk')
      · rw [hown] at hs
        exact absurd (Option.some.inj hs ▸ hserving.sub k' hk') hk
  have hlast : ∀ k, last' k ≤ now := by
    intro k
    by_cases hk : k ∈ asked
    · exact Nat.le_of_eq (hasked k hk)
    · rw [hother k hk]
      exact Nat.le_trans (h.last_le k) (Nat.le_of_lt ht)
  refine ⟨hend.ok, hstamp, ?_, hlast⟩
  intro k k' hgone hthere
  have hk : k ∉ asked := fun hmem => hgone (hholds k hmem)
  rw [hother k hk]
  by_cases hk' : k' ∈ asked
  · rw [hasked k' hk']
    exact Nat.le_trans (h.last_le k) (Nat.le_of_lt ht)
  · obtain ⟨s', hs'⟩ := hthere
    have hs'lt := hend.ok.owner_lt s' k' hs'
    rw [hputs.size_eq] at hs'lt
    by_cases hwas : p.Holds k
    · obtain ⟨s, hs⟩ := hwas
      have hown : p'.owner s = some k := by
        rw [htouched.owner_eq]
        exact hs
      have hle := hputs.displaced hserving hown hgone s' hs'lt
      rw [hstamp s' k' hs'] at hle
      refine Nat.le_trans (Nat.le_of_eq ?_) hle
      rw [← h.stamp_eq s k hs]
      symm
      apply htouched.miss
      intro j hj hsj
      rw [hs] at hsj
      exact hk (Option.some.inj hsj ▸ hj)
    · rw [hother k' hk']
      apply h.recent k k' hwas
      rcases hputs.frame s' with ⟨hown, -⟩ | ⟨j, hj, hown, -⟩
      · rw [hown, htouched.owner_eq] at hs'
        exact ⟨s', hs'⟩
      · rw [hown] at hs'
        exact absurd (Option.some.inj hs' ▸ hserving.sub j hj) hk'

end StampedPool
