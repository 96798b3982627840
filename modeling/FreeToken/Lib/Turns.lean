import FreeToken.Lib.Run
import Mathlib.Data.List.Induction
import Mathlib.Logic.Function.Basic

/-!
# Agents that take turns at one store

An action reads the store, answers, and leaves a store behind. Agents interleave their
actions at one and the same store. As long as every turn finds the store as the agent's own
last turn left it, each agent is answered as if it had the store for itself.
-/

namespace Turns

variable {ι σ α β : Type} [DecidableEq ι]

/-- The store, what the last turn of each agent left there, and what each agent was
answered. -/
structure Play (ι σ β : Type) where
  store : σ
  left : ι → σ
  answers : ι → List β

/-- No turn was taken. -/
def start (store : σ) : Play ι σ β where
  store := store
  left := fun _ => store
  answers := fun _ => []

variable (act : σ → α → List β × σ)

/-- One turn. -/
def turn (p : Play ι σ β) (t : ι × α) : Play ι σ β where
  store := (act p.store t.2).2
  left := Function.update p.left t.1 (act p.store t.2).2
  answers := Function.update p.answers t.1 (p.answers t.1 ++ (act p.store t.2).1)

/-- The turns, one after the other. -/
def playAll (p : Play ι σ β) (turns : List (ι × α)) : Play ι σ β := turns.foldl (turn act) p

/-- The actions of one agent. -/
def actionsOf (i : ι) (turns : List (ι × α)) : List α :=
  (turns.filter fun t => t.1 = i).map Prod.snd

/-- The answers to one agent that has the store for itself. -/
def alone (store : σ) : List α → List β
  | [] => []
  | a :: as => (act store a).1 ++ alone (act store a).2 as

/-- The turn finds the store as the agent's own last turn left it. -/
def FindsOwn (p : Play ι σ β) (t : ι × α) : Prop := p.store = p.left t.1

instance [DecidableEq σ] (p : Play ι σ β) (t : ι × α) : Decidable (FindsOwn p t) :=
  inferInstanceAs (Decidable (_ = _))

/-- Every turn does. -/
def AllOwn (p : Play ι σ β) (turns : List (ι × α)) : Prop :=
  Run.AllSteps (fun p t => some (turn act p t)) FindsOwn p turns

instance [DecidableEq σ] (p : Play ι σ β) (turns : List (ι × α)) : Decidable (AllOwn act p turns) :=
  inferInstanceAs (Decidable (Run.AllSteps _ _ _ _))

variable {act}

theorem actionsOf_self {i : ι} {a : α} {turns : List (ι × α)} :
    actionsOf i ((i, a) :: turns) = a :: actionsOf i turns := by
  simp [actionsOf]

theorem actionsOf_of_ne {i : ι} {t : ι × α} {turns : List (ι × α)} (h : t.1 ≠ i) :
    actionsOf i (t :: turns) = actionsOf i turns := by
  simp [actionsOf, h]

/-- From where an agent's last turn left the store, its further turns are answered as if
they were the only ones. -/
theorem answers_playAll {turns : List (ι × α)} {p : Play ι σ β} (h : AllOwn act p turns) (i : ι) :
    (playAll act p turns).answers i =
      p.answers i ++ alone act (p.left i) (actionsOf i turns) := by
  induction turns generalizing p with
  | nil => exact (List.append_nil _).symm
  | cons t turns ih =>
      obtain ⟨hown, hlater⟩ := h
      have hrest := ih (hlater (turn act p t) rfl)
      refine hrest.trans ?_
      obtain ⟨j, a⟩ := t
      by_cases hji : j = i
      · subst hji
        have hstore : p.store = p.left j := hown
        simp only [turn, Function.update_self]
        rw [actionsOf_self, alone, hstore, List.append_assoc]
      · have hij : i ≠ j := fun heq => hji heq.symm
        simp only [turn, Function.update_of_ne hij]
        rw [actionsOf_of_ne hji]

/-! ### Handing the store over -/

variable (act) in
/-- The store after actions that are taken alone. -/
def storeAfter (store : σ) (actions : List α) : σ := actions.foldl (fun s a => (act s a).2) store

theorem alone_append (store : σ) (as bs : List α) :
    alone act store (as ++ bs) = alone act store as ++ alone act (storeAfter act store as) bs := by
  induction as generalizing store with
  | nil => rfl
  | cons a as ih => simp [alone, storeAfter, ih]

theorem playAll_concat (p : Play ι σ β) (turns : List (ι × α)) (t : ι × α) :
    playAll act p (turns ++ [t]) = turn act (playAll act p turns) t := by
  simp [playAll]

theorem actionsOf_concat_self (i : ι) (a : α) (turns : List (ι × α)) :
    actionsOf i (turns ++ [(i, a)]) = actionsOf i turns ++ [a] := by
  simp [actionsOf]

theorem allOwn_concat {turns : List (ι × α)} {p : Play ι σ β} {t : ι × α} :
    AllOwn act p (turns ++ [t]) ↔ AllOwn act p turns ∧ FindsOwn (playAll act p turns) t := by
  induction turns generalizing p with
  | nil => simp [AllOwn, Run.AllSteps, playAll]
  | cons t' turns ih =>
      have hrest := @ih (turn act p t')
      simp only [AllOwn, List.cons_append, Run.AllSteps, Option.some.injEq, forall_eq'] at hrest ⊢
      rw [hrest, and_assoc]
      exact Iff.rfl

/-- The agent of the last turn. -/
def lastOf (turns : List (ι × α)) : Option ι := turns.getLast?.map Prod.fst

omit [DecidableEq ι] in
@[simp] theorem lastOf_concat (turns : List (ι × α)) (t : ι × α) : lastOf (turns ++ [t]) = some t.1 := by
  simp [lastOf]

variable (act) in
/-- Every turn is taken by the agent of the turn before it, or finds the store as it was at
the start. -/
def HandedOver (store : σ) (turns : List (ι × α)) : Prop :=
  ∀ before t, before ++ [t] <+: turns → lastOf before = some t.1 ∨
    (playAll act (start store : Play ι σ β) before).store = store

theorem handedOver_concat {store : σ} {turns : List (ι × α)} {t : ι × α} :
    HandedOver act store (turns ++ [t]) ↔ HandedOver act store turns ∧
      (lastOf turns = some t.1 ∨ (playAll act (start store : Play ι σ β) turns).store = store) := by
  constructor
  · intro h
    exact ⟨fun before t' hpre => h before t' (hpre.trans (List.prefix_append _ _)),
      h turns t (List.prefix_refl _)⟩
  · rintro ⟨hbefore, hlast⟩ before t' hpre
    obtain heq | hpre' := List.prefix_concat_iff.mp hpre
    · obtain ⟨rfl, rfl⟩ := List.append_singleton_inj.mp heq
      exact hlast
    · exact hbefore before t' hpre'

/-- Then only the agent of the last turn has left anything but that. -/
theorem HandedOver.left_eq {store : σ} {turns : List (ι × α)} (h : HandedOver act store turns) :
    AllOwn act (start store) turns ∧ ∀ i, (playAll act (start store) turns).left i =
      if lastOf turns = some i then (playAll act (start store : Play ι σ β) turns).store else store := by
  induction turns using List.reverseRecOn with
  | nil => exact ⟨trivial, fun _ => rfl⟩
  | append_singleton turns t ih =>
      obtain ⟨hbefore, hlast⟩ := handedOver_concat.mp h
      obtain ⟨hown, hleft⟩ := ih hbefore
      have hfinds : FindsOwn (playAll act (start store) turns) t := by
        rw [FindsOwn, hleft t.1]
        split
        · rfl
        · rename_i hother
          exact hlast.resolve_left hother
      refine ⟨allOwn_concat.mpr ⟨hown, hfinds⟩, fun i => ?_⟩
      rw [playAll_concat, lastOf_concat]
      by_cases hi : i = t.1
      · subst hi
        simp [turn]
      · have hnow : some t.1 ≠ some i := fun heq => hi (Option.some.inj heq).symm
        have hfind := hleft i
        rw [if_neg hnow]
        simp only [turn, Function.update_of_ne hi]
        rw [hfind]
        split
        · rename_i hwas
          exact hlast.resolve_left fun hsame => hnow (hsame.symm.trans hwas)
        · rfl

/-- What an agent's turns leave is what they leave when it has the store for itself. -/
theorem left_playAll {turns : List (ι × α)} {p : Play ι σ β} (h : AllOwn act p turns) (i : ι) :
    (playAll act p turns).left i = storeAfter act (p.left i) (actionsOf i turns) := by
  induction turns using List.reverseRecOn with
  | nil => rfl
  | append_singleton turns t ih =>
      obtain ⟨hbefore, hown⟩ := allOwn_concat.mp h
      have hleft := ih hbefore
      obtain ⟨j, a⟩ := t
      rw [playAll_concat]
      by_cases hij : i = j
      · subst hij
        have hstore : (playAll act p turns).store = (playAll act p turns).left i := hown
        simp [turn, actionsOf_concat_self, storeAfter, hstore, hleft]
      · have hnot : actionsOf i (turns ++ [(j, a)]) = actionsOf i turns := by
          simp [actionsOf, Ne.symm hij]
        simp [turn, Function.update_of_ne hij, hnot, hleft]

end Turns
