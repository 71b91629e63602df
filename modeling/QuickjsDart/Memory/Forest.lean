import Mathlib

/-!
# Forests by parent pointers

A function that gives each node its parent, if it has one. `Acyclic` says that every way up ends.
`Chain` is the way up from a node as a list; it has no repetitions, so that it is no longer than the
nodes are many (`Chain.length_le`), and a walk with that much fuel sees all of it.

A node may get a parent whose chain it is not on (`Acyclic.setParent`), and a new node may get an
old one (`Acyclic.extend`).
-/

namespace Memory

/-- `p` is the parent of a node. -/
def ParentOf (parent : ℕ → Option ℕ) (p x : ℕ) : Prop := parent x = some p

/-- Every way up ends. -/
def Acyclic (parent : ℕ → Option ℕ) : Prop := WellFounded (ParentOf parent)

/-- The way up from a node, with the node. -/
inductive Chain (parent : ℕ → Option ℕ) : Option ℕ → List ℕ → Prop
  | nil : Chain parent none []
  | cons {x : ℕ} {l : List ℕ} : Chain parent (parent x) l → Chain parent (some x) (x :: l)

section

variable {parent parent' : ℕ → Option ℕ} {start : Option ℕ} {l l' : List ℕ}

/-- Where there is no cycle every chain ends. The induction is well founded on the parent
relation. -/
theorem Acyclic.exists_chain (h : Acyclic parent) (start : Option ℕ) :
    ∃ l, Chain parent start l := by
  have hnode : ∀ x, ∃ l, Chain parent (some x) l := by
    intro x
    induction x using h.induction with
    | h x ih =>
      cases hp : parent x with
      | none => exact ⟨[x], .cons (by rw [hp]; exact .nil)⟩
      | some p =>
        obtain ⟨l, hl⟩ := ih p hp
        exact ⟨x :: l, .cons (by rw [hp]; exact hl)⟩
  cases start with
  | none => exact ⟨[], .nil⟩
  | some x => exact hnode x

/-- What is on the way up from a node is above it. -/
theorem Chain.above (hc : Chain parent start l) :
    ∀ x, start = some x → ∀ y ∈ l, y = x ∨ Relation.TransGen (ParentOf parent) y x := by
  induction hc with
  | nil => intro x hx; cases hx
  | @cons x l hrest ih =>
    intro x' hx' y hy
    cases hx'
    rcases List.mem_cons.1 hy with rfl | hy
    · exact .inl rfl
    · cases hp : parent x with
      | none =>
        rw [hp] at hrest
        cases hrest
        cases hy
      | some p =>
        rcases ih p hp y hy with rfl | habove
        · exact .inr (.single hp)
        · exact .inr (habove.tail hp)

/-- A chain in an acyclic graph comes to no node twice. -/
theorem Chain.nodup (h : Acyclic parent) (hc : Chain parent start l) : l.Nodup := by
  induction hc with
  | nil => exact .nil
  | @cons x l hrest ih =>
    refine List.nodup_cons.2 ⟨fun hmem => ?_, ih⟩
    cases hp : parent x with
    | none =>
      rw [hp] at hrest
      cases hrest
      cases hmem
    | some p =>
      -- the node would be above itself
      have hself : Relation.TransGen (ParentOf parent) x x := by
        rcases hrest.above p hp x hmem with rfl | habove
        · exact .single hp
        · exact habove.tail hp
      exact (WellFounded.transGen h).irrefl.irrefl x hself

/-- A chain of nodes below a bound. -/
theorem Chain.lt {n : ℕ} (hparent : ∀ x p, parent x = some p → p < n) (hc : Chain parent start l)
    (hstart : ∀ x, start = some x → x < n) : ∀ x ∈ l, x < n := by
  induction hc with
  | nil => intro x hx; cases hx
  | @cons x l _ ih =>
    intro y hy
    rcases List.mem_cons.1 hy with rfl | hy
    · exact hstart y rfl
    · exact ih (fun p hp => hparent x p hp) y hy

/-- A chain is no longer than there are nodes. -/
theorem Chain.length_le {n : ℕ} (h : Acyclic parent) (hparent : ∀ x p, parent x = some p → p < n)
    (hc : Chain parent start l) (hstart : ∀ x, start = some x → x < n) : l.length ≤ n := by
  have hsub : l ⊆ List.range n := fun x hx => List.mem_range.2 (hc.lt hparent hstart x hx)
  have hle := (List.subperm_of_subset (hc.nodup h) hsub).length_le
  rwa [List.length_range] at hle

/-! ## Changes -/

/-- The node is on no chain that a change of its parent leaves as it was. -/
theorem Chain.acc_update {r : ℕ} {q : Option ℕ} (hc : Chain parent start l) (hr : r ∉ l) :
    ∀ x, start = some x → Acc (ParentOf (Function.update parent r q)) x := by
  induction hc with
  | nil => intro x hx; cases hx
  | @cons x l _ ih =>
    intro x' hx'
    cases hx'
    have hne : x ≠ r := fun hx => hr (hx ▸ List.mem_cons_self)
    refine .intro _ fun p hp => ?_
    rw [ParentOf, Function.update_of_ne hne] at hp
    exact ih (fun hmem => hr (List.mem_cons_of_mem _ hmem)) p hp

/-- A new parent that is not below the node. -/
theorem Acyclic.setParent {r : ℕ} {q : Option ℕ} (h : Acyclic parent) (hc : Chain parent q l)
    (hr : r ∉ l) : Acyclic (Function.update parent r q) := by
  have haccr : Acc (ParentOf (Function.update parent r q)) r := by
    refine .intro _ fun p hp => ?_
    rw [ParentOf, Function.update_self] at hp
    exact hc.acc_update hr p hp
  refine ⟨fun x => ?_⟩
  induction x using h.induction with
  | h x ih =>
    by_cases hx : x = r
    · exact hx ▸ haccr
    · refine .intro _ fun p hp => ?_
      rw [ParentOf, Function.update_of_ne hx] at hp
      exact ih p hp

/-- A node that was nobody's parent gets one. -/
theorem Acyclic.extend {n : ℕ} {q : Option ℕ} (h : Acyclic parent)
    (hparent : ∀ x p, parent x = some p → p < n) (hq : ∀ p, q = some p → p < n) :
    Acyclic (Function.update parent n q) := by
  obtain ⟨l, hl⟩ := h.exists_chain q
  refine h.setParent hl fun hmem => ?_
  exact lt_irrefl n (hl.lt hparent hq n hmem)

end

end Memory
