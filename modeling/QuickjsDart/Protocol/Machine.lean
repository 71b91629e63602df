import Mathlib.Data.List.Basic

/-!
# Machines that answer

An operation on a state gives an answer and the next state, or is not possible. A machine refines
another when a relation between the states is kept by every operation that the other has, with the
same answer; then it is kept by every run, with the same answers (`run_refines`).
-/

namespace Protocol

variable {S T Op Answer : Type*}

/-- One operation after the other, with all answers. -/
def run (step : S → Op → Option (Answer × S)) : S → List Op → Option (List Answer × S)
  | s, [] => some ([], s)
  | s, op :: ops =>
    match step s op with
    | none => none
    | some (a, s) => (run step s ops).map fun r => (a :: r.1, r.2)

/-- What the first machine does, the second does too. -/
def Refines (stepS : S → Op → Option (Answer × S)) (stepT : T → Op → Option (Answer × T))
    (R : S → T → Prop) : Prop :=
  ∀ s t op a s', R s t → stepS s op = some (a, s') → ∃ t', stepT t op = some (a, t') ∧ R s' t'

/-- A run is refined where each step is: the other machine gives the same answers. -/
theorem run_refines {stepS : S → Op → Option (Answer × S)} {stepT : T → Op → Option (Answer × T)}
    {R : S → T → Prop} (href : Refines stepS stepT R) {ops : List Op} {s s' : S} {t : T}
    {answers : List Answer} (hR : R s t) (hrun : run stepS s ops = some (answers, s')) :
    ∃ t', run stepT t ops = some (answers, t') ∧ R s' t' := by
  induction ops generalizing s t answers with
  | nil =>
    cases hrun
    exact ⟨t, rfl, hR⟩
  | cons op ops ih =>
    rw [run] at hrun
    cases hstep : stepS s op with
    | none => simp [hstep] at hrun
    | some r =>
      obtain ⟨a, s₁⟩ := r
      simp only [hstep, Option.map_eq_some_iff] at hrun
      obtain ⟨⟨answers', s''⟩, hrest, heq⟩ := hrun
      cases heq
      obtain ⟨t₁, hstepT, hR₁⟩ := href s t op a s₁ hR hstep
      obtain ⟨t', hrunT, hR'⟩ := ih hR₁ hrest
      exact ⟨t', by simp [run, hstepT, hrunT], hR'⟩

end Protocol
