import Mathlib.Logic.Relation
import Mathlib.Data.List.Basic

/-!
# Values that come later

A deferred value gets its outcome at most once. Whoever waits for it is registered, and is told the
outcome when it is there. The outcome is given by whoever holds the right to give it, of which there
is one.

`Sound` is what every run of moves keeps (`Moves.sound`): a right is left exactly as long as the
outcome is open, and what was delivered is the outcome, to everyone who was registered, once and in
the order of registration.
-/

namespace Protocol

open Relation

/-- A deferred value of type `V`, with those of type `W` who wait for it. -/
structure Deferred (V W : Type*) where
  outcome : Option V
  /-- The rights to give the outcome that are held. -/
  rights : ℕ
  waiting : List W
  delivered : List (W × V)
  /-- All that ever registered, in order. -/
  registered : List W

namespace Deferred

variable {V W : Type*} {d d' : Deferred V W}

/-- A value of which nothing is known yet, and one right. -/
def fresh : Deferred V W := ⟨none, 1, [], [], []⟩

/-- One more waits, or is told at once. -/
def register (d : Deferred V W) (w : W) : Deferred V W :=
  match d.outcome with
  | none => { d with waiting := d.waiting ++ [w], registered := d.registered ++ [w] }
  | some v => { d with delivered := d.delivered ++ [(w, v)], registered := d.registered ++ [w] }

/-- A right is used. An outcome that is there already stays. -/
def settle (d : Deferred V W) (v : V) : Deferred V W :=
  match d.outcome with
  | none =>
    ⟨some v, d.rights - 1, [], d.delivered ++ d.waiting.map fun w => (w, v), d.registered⟩
  | some _ => { d with rights := d.rights - 1 }

/-- What may happen. -/
inductive Move : Deferred V W → Deferred V W → Prop
  | register (d : Deferred V W) (w : W) : Move d (d.register w)
  | settle (d : Deferred V W) (v : V) : 0 < d.rights → Move d (d.settle v)

/-- One move after the other. -/
def Moves : Deferred V W → Deferred V W → Prop := ReflTransGen Move

/-- What holds of every deferred value that was made by moves. -/
structure Sound (d : Deferred V W) : Prop where
  pending : d.outcome = none → d.rights = 1 ∧ d.waiting = d.registered ∧ d.delivered = []
  settled : ∀ v, d.outcome = some v →
    d.rights = 0 ∧ d.waiting = [] ∧ d.delivered = d.registered.map fun w => (w, v)

/-- A fresh value is pending, with one right. -/
theorem sound_fresh : (fresh : Deferred V W).Sound :=
  ⟨fun _ => ⟨rfl, rfl, rfl⟩, fun _ h => by cases h⟩

/-- Who holds a right meets an open outcome. -/
theorem Sound.outcome_eq_none (hd : d.Sound) (hr : 0 < d.rights) : d.outcome = none := by
  cases h : d.outcome with
  | none => rfl
  | some v =>
    rw [(hd.settled v h).1] at hr
    exact absurd hr (Nat.lt_irrefl 0)

/-- Who registers with a pending value waits. -/
theorem register_of_none (h : d.outcome = none) (w : W) : d.register w =
    { d with waiting := d.waiting ++ [w], registered := d.registered ++ [w] } := by
  simp [register, h]

/-- Who registers with a settled value is told at once. -/
theorem register_of_some {v : V} (h : d.outcome = some v) (w : W) : d.register w =
    { d with delivered := d.delivered ++ [(w, v)], registered := d.registered ++ [w] } := by
  simp [register, h]

/-- Settling tells all who wait, and uses a right. -/
theorem settle_of_none (h : d.outcome = none) (v : V) : d.settle v =
    ⟨some v, d.rights - 1, [], d.delivered ++ d.waiting.map fun w => (w, v), d.registered⟩ := by
  simp [settle, h]

/-- No move makes a deferred value unsound. -/
theorem Move.sound (hm : Move d d') (hd : d.Sound) : d'.Sound := by
  cases hm with
  | register w =>
    cases h : d.outcome with
    | none =>
      obtain ⟨hr, hw, hdel⟩ := hd.pending h
      rw [register_of_none h]
      refine ⟨fun _ => ⟨hr, ?_, hdel⟩, fun v hv => ?_⟩
      · rw [hw]
      · cases h.symm.trans hv
    | some v =>
      obtain ⟨hr, hw, hdel⟩ := hd.settled v h
      rw [register_of_some h]
      refine ⟨fun hv => ?_, fun v' hv => ⟨hr, hw, ?_⟩⟩
      · cases h.symm.trans hv
      · cases h.symm.trans hv
        simp [hdel]
  | settle v hpos =>
    have h := hd.outcome_eq_none hpos
    obtain ⟨hr, hw, hdel⟩ := hd.pending h
    rw [settle_of_none h]
    refine ⟨fun hv => ?_, fun v' hv => ?_⟩
    · cases hv
    · cases hv
      simp [hr, hw, hdel]

/-- Neither do many. -/
theorem Moves.sound (hm : Moves d d') (hd : d.Sound) : d'.Sound := by
  induction hm with
  | refl => exact hd
  | tail _ hm ih => exact hm.sound ih

/-- A settled value keeps its outcome. -/
theorem Move.outcome (hm : Move d d') {v : V} (h : d.outcome = some v) :
    d'.outcome = some v := by
  cases hm with
  | register w => simp [Deferred.register, h]
  | settle v' _ => simp [Deferred.settle, h]

/-- An outcome stays. -/
theorem Moves.outcome (hm : Moves d d') {v : V} (h : d.outcome = some v) :
    d'.outcome = some v := by
  induction hm with
  | refl => exact h
  | tail _ hm ih => exact hm.outcome ih

end Deferred

end Protocol
