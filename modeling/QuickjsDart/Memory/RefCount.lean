import Mathlib

/-!
# Reference counting

A store of cells, each with a reference count and a body that refers to other cells. A reference is
the cell's index. `release` drops references: a cell whose count reaches zero drops those its body
holds, and so on. Bodies stay where they are, so a cell is destroyed when its count is not positive.

`Owned` is the ownership invariant: the count of a cell is at least the number of its owners outside
the store plus the number of references that live cells hold to it. It is stated for the cells from
a bound on, so that it can also be kept of what was added to a store. The rules `Owned.alloc`,
`Owned.bump`, `Owned.update` and `Owned.release` say what each operation does to the owners.
-/

namespace Memory

/-- A cell: its count and its body. -/
structure Cell (β : Type) where
  refCount : ℤ
  body : β

/-- A store: the cells allocated so far. -/
abbrev Store (β : Type) := List (Cell β)

section

variable {β : Type}

/-- The body of a cell. -/
def body? (s : Store β) (r : ℕ) : Option β := s[r]?.map Cell.body

/-- The count of a cell, and zero where there is none. -/
def count (s : Store β) (r : ℕ) : ℤ := s[r]?.elim 0 Cell.refCount

/-- Allocate a cell, with one reference to it. Its reference is the store's size. -/
def alloc (s : Store β) (b : β) : Store β := s ++ [⟨1, b⟩]

/-- Change a count. -/
def bump (s : Store β) (r : ℕ) (d : ℤ) : Store β :=
  s.modify r fun c => { c with refCount := c.refCount + d }

/-- Change a body. -/
def update (s : Store β) (r : ℕ) (f : β → β) : Store β :=
  s.modify r fun c => { c with body := f c.body }

variable (refs : β → List ℕ)

/-- The references a cell's body holds. -/
def children (s : Store β) (r : ℕ) : List ℕ := (body? s r).elim [] refs

/-- Drop the references of a worklist, with fuel for each of them. -/
def releaseFuel : ℕ → List ℕ → Store β → Store β
  | 0, _, s => s
  | _ + 1, [], s => s
  | fuel + 1, r :: rest, s =>
    let s' := bump s r (-1)
    if count s' r = 0 then releaseFuel fuel (children refs s' r ++ rest) s'
    else releaseFuel fuel rest s'

/-- Drop references. A cell drops its own at most once, so their number bounds the turns. -/
def release (rs : List ℕ) (s : Store β) : Store β :=
  releaseFuel refs (rs.length + (s.map fun c => (refs c.body).length).sum + 1) rs s

/-- What a cell contributes to the references held to `r`: a destroyed one holds none. -/
def holds (c : Cell β) (r : ℕ) : ℕ := if 0 < c.refCount then (refs c.body).count r else 0

/-- The references that live cells hold to `r`. -/
def held (s : Store β) (r : ℕ) : ℕ := (s.map fun c => holds refs c r).sum

/-- **The ownership invariant**, for the cells from `n` on: each count covers the owners outside the
store and the references of live cells. -/
def Owned (n : ℕ) (s : Store β) (owners : ℕ → ℕ) : Prop :=
  ∀ r, n ≤ r → (owners r + held refs (s.drop n) r : ℕ) ≤ count s r

/-- The cells from `n` on refer to each other only. -/
def Closed (n : ℕ) (s : Store β) : Prop := ∀ r, n ≤ r → ∀ x ∈ children refs s r, n ≤ x

/-! ## Bodies and counts -/

/-- A new cell is one more. -/
@[simp] theorem length_alloc (s : Store β) (b : β) : (alloc s b).length = s.length + 1 := by
  simp [alloc]

/-- A count is no cell. -/
@[simp] theorem length_bump (s : Store β) (r : ℕ) (d : ℤ) : (bump s r d).length = s.length := by
  simp [bump]

/-- A body is changed in place. -/
@[simp] theorem length_update (s : Store β) (r : ℕ) (f : β → β) :
    (update s r f).length = s.length := by
  simp [update]

/-- Counts are not part of bodies. -/
@[simp] theorem body?_bump (s : Store β) (r : ℕ) (d : ℤ) (x : ℕ) :
    body? (bump s r d) x = body? s x := by
  simp only [body?, bump, List.getElem?_modify]
  split_ifs <;> cases s[x]? <;> rfl

/-- The body of the changed cell. -/
theorem body?_update (s : Store β) (r : ℕ) (f : β → β) (x : ℕ) :
    body? (update s r f) x = if r = x then (body? s x).map f else body? s x := by
  simp only [body?, update, List.getElem?_modify]
  split_ifs <;> cases s[x]? <;> rfl

/-- The body of the new cell. -/
theorem body?_alloc (s : Store β) (b : β) (x : ℕ) :
    body? (alloc s b) x = if x = s.length then some b else body? s x := by
  simp only [body?, alloc]
  rcases lt_trichotomy x s.length with h | h | h
  · rw [List.getElem?_append_left h, if_neg h.ne]
  · rw [h, List.getElem?_concat_length, if_pos rfl]
    rfl
  · rw [if_neg h.ne', List.getElem?_eq_none (by simp; omega), List.getElem?_eq_none (by omega)]

/-- Bodies are not part of counts. -/
@[simp] theorem count_update (s : Store β) (r : ℕ) (f : β → β) (x : ℕ) :
    count (update s r f) x = count s x := by
  simp only [count, update, List.getElem?_modify]
  split_ifs <;> cases s[x]? <;> rfl

/-- One count is changed, where the cell exists. -/
theorem count_bump (s : Store β) (r : ℕ) (d : ℤ) (x : ℕ) :
    count (bump s r d) x = if r = x ∧ x < s.length then count s x + d else count s x := by
  simp only [count, bump, List.getElem?_modify]
  by_cases hx : x < s.length
  · rw [List.getElem?_eq_getElem hx]
    split_ifs <;> simp_all
  · rw [List.getElem?_eq_none (by omega)]
    split_ifs <;> simp_all

/-- A new cell starts with the count 1. -/
theorem count_alloc (s : Store β) (b : β) (x : ℕ) :
    count (alloc s b) x = if x = s.length then 1 else count s x := by
  simp only [count, alloc]
  rcases lt_trichotomy x s.length with h | h | h
  · rw [List.getElem?_append_left h, if_neg h.ne]
  · rw [h, List.getElem?_concat_length, if_pos rfl]
    rfl
  · rw [if_neg h.ne', List.getElem?_eq_none (by simp; omega), List.getElem?_eq_none (by omega)]

/-- A cell that is not there has the count 0. -/
theorem count_eq_zero_of_le {s : Store β} {r : ℕ} (h : s.length ≤ r) : count s r = 0 := by
  rw [count, List.getElem?_eq_none h]
  rfl

/-- A cell with a body is there. -/
theorem lt_length_of_body? {s : Store β} {r : ℕ} {b : β} (h : body? s r = some b) :
    r < s.length := by
  obtain ⟨c, hc, -⟩ := Option.map_eq_some_iff.1 h
  exact (List.getElem?_eq_some_iff.1 hc).1

/-- A release deletes no cell. The induction is on its fuel. -/
@[simp] theorem length_releaseFuel (fuel : ℕ) (rs : List ℕ) (s : Store β) :
    (releaseFuel refs fuel rs s).length = s.length := by
  induction fuel generalizing rs s with
  | zero => rfl
  | succ fuel ih =>
    cases rs with
    | nil => rfl
    | cons r rest =>
      rw [releaseFuel]
      split_ifs <;> rw [ih, length_bump]

/-- Releasing changes counts only. -/
@[simp] theorem body?_releaseFuel (fuel : ℕ) (rs : List ℕ) (s : Store β) (x : ℕ) :
    body? (releaseFuel refs fuel rs s) x = body? s x := by
  induction fuel generalizing rs s with
  | zero => rfl
  | succ fuel ih =>
    cases rs with
    | nil => rfl
    | cons r rest =>
      rw [releaseFuel]
      split_ifs <;> rw [ih, body?_bump]

/-- Neither does it with the fuel that it takes. -/
@[simp] theorem length_release (rs : List ℕ) (s : Store β) :
    (release refs rs s).length = s.length :=
  length_releaseFuel refs _ rs s

/-- A release changes no body. -/
@[simp] theorem body?_release (rs : List ℕ) (s : Store β) (x : ℕ) :
    body? (release refs rs s) x = body? s x :=
  body?_releaseFuel refs _ rs s x

/-! ## Ownership -/

/-- A change of one cell, in the references held. -/
theorem held_modify {s : Store β} {r : ℕ} {c : Cell β} (h : s[r]? = some c)
    (f : Cell β → Cell β) (x : ℕ) :
    held refs (s.modify r f) x + holds refs c x = held refs s x + holds refs (f c) x := by
  induction s generalizing r with
  | nil => simp at h
  | cons a s ih =>
    cases r with
    | zero =>
      rw [List.getElem?_cons_zero, Option.some_inj] at h
      subst h
      simp only [held, List.modify_zero_cons, List.map_cons, List.sum_cons]
      omega
    | succ r =>
      rw [List.getElem?_cons_succ] at h
      have := ih h
      simp only [held, List.modify_succ_cons, List.map_cons, List.sum_cons] at this ⊢
      omega

/-- The same for the cells from `n` on. -/
theorem held_drop_modify {n : ℕ} {s : Store β} {r : ℕ} {c : Cell β} (hn : n ≤ r)
    (h : s[r]? = some c) (f : Cell β → Cell β) (x : ℕ) :
    held refs ((s.modify r f).drop n) x + holds refs c x
      = held refs (s.drop n) x + holds refs (f c) x := by
  rw [List.drop_modify_of_ge f r n s hn]
  refine held_modify refs ?_ f x
  rw [List.getElem?_drop, Nat.add_sub_cancel' hn, h]

/-- A live cell holds what its body refers to. -/
theorem holds_of_pos {c : Cell β} (h : 0 < c.refCount) (x : ℕ) :
    holds refs c x = (refs c.body).count x := if_pos h

/-- A destroyed cell holds nothing. -/
theorem holds_of_not_pos {c : Cell β} (h : ¬ 0 < c.refCount) (x : ℕ) : holds refs c x = 0 :=
  if_neg h

variable {refs}

/-- What is counted is there. -/
theorem getElem?_of_count_pos {s : Store β} {r : ℕ} (h : 0 < count s r) :
    ∃ c, s[r]? = some c ∧ count s r = c.refCount := by
  cases hc : s[r]? with
  | none =>
    rw [count, hc] at h
    exact absurd h (lt_irrefl _)
  | some c =>
    rw [count, hc]
    exact ⟨c, rfl, rfl⟩

section

variable {n : ℕ} {s : Store β} {own own' : ℕ → ℕ}

/-- Fewer owners are covered too. -/
theorem Owned.mono (h : Owned refs n s own) (hle : ∀ r, n ≤ r → own' r ≤ own r) :
    Owned refs n s own' := by
  intro r hn
  have := h r hn
  have := hle r hn
  omega

/-- What is owned or held is live. -/
theorem Owned.pos (h : Owned refs n s own) {r : ℕ} (hn : n ≤ r)
    (hr : 0 < own r + held refs (s.drop n) r) : 0 < count s r := by
  have := h r hn
  omega

/-- Nothing is owned where there are no cells yet. -/
theorem owned_length (s : Store β) : Owned refs s.length s fun _ => 0 := by
  intro r hn
  rw [List.drop_length, count_eq_zero_of_le hn]
  rfl

/-- A new cell has one owner, and the owners give it what it refers to. -/
theorem Owned.alloc {b : β} (hn : n ≤ s.length)
    (h : Owned refs n s fun r => own r + (refs b).count r) :
    Owned refs n (alloc s b) fun r => own r + if r = s.length then 1 else 0 := by
  intro r hr
  have hold := h r hr
  have hheld : held refs ((Memory.alloc s b).drop n) r
      = held refs (s.drop n) r + (refs b).count r := by
    rw [Memory.alloc, List.drop_append_of_le_length hn]
    simp [held, holds]
  rw [count_alloc, hheld]
  beta_reduce at hold ⊢
  split_ifs with he
  · subst he
    rw [count_eq_zero_of_le le_rfl] at hold
    omega
  · omega

/-- The references of a live cell are among those held. -/
theorem holds_le_held {r : ℕ} {c : Cell β} (hn : n ≤ r) (h : s[r]? = some c) (x : ℕ) :
    holds refs c x ≤ held refs (s.drop n) x := by
  refine List.single_le_sum (fun _ _ => Nat.zero_le _) _ (List.mem_map.2 ⟨c, ?_, rfl⟩)
  refine List.mem_of_getElem? (i := r - n) ?_
  rw [List.getElem?_drop, Nat.add_sub_cancel' hn, h]

/-- A live cell refers to live cells. -/
theorem Owned.pos_of_mem (h : Owned refs n s own) {r x : ℕ} {b : β} (hn : n ≤ r) (hx : n ≤ x)
    (hb : body? s r = some b) (hr : 0 < count s r) (hmem : x ∈ refs b) : 0 < count s x := by
  obtain ⟨c, hc, hcr⟩ := getElem?_of_count_pos hr
  obtain ⟨c', hc', rfl⟩ := Option.map_eq_some_iff.1 hb
  cases hc.symm.trans hc'
  have hle : holds refs c x ≤ held refs (s.drop n) x := holds_le_held hn hc x
  have hpos : 0 < (refs c.body).count x := List.count_pos_iff.2 hmem
  rw [holds_of_pos refs (hcr ▸ hr)] at hle
  exact h.pos hx (by omega)

/-- A reference added to a live cell is one more owner. -/
theorem Owned.bump (h : Owned refs n s own) {r : ℕ} (hn : n ≤ r) (hr : 0 < count s r) :
    Owned refs n (bump s r 1) fun x => own x + if x = r then 1 else 0 := by
  obtain ⟨c, hc, hcr⟩ := getElem?_of_count_pos hr
  intro x hx
  have hold := h x hx
  have hheld := held_drop_modify refs hn hc (fun c => { c with refCount := c.refCount + 1 }) x
  rw [holds_of_pos refs (hcr ▸ hr), holds_of_pos refs (show 0 < c.refCount + 1 by omega)] at hheld
  rw [count_bump]
  unfold Memory.bump
  have hlt : r < s.length := (List.getElem?_eq_some_iff.1 hc).1
  dsimp only at hheld ⊢
  split_ifs <;> omega

/-- A body changed: the owners give what its references take, and get what they give up. -/
theorem Owned.update (h : Owned refs n s own) {r : ℕ} {b : β} (hn : n ≤ r)
    (hb : body? s r = some b) (hr : 0 < count s r) {f : β → β}
    (hown : ∀ x, n ≤ x → own' x + (refs (f b)).count x ≤ own x + (refs b).count x) :
    Owned refs n (update s r f) own' := by
  obtain ⟨c, hc, hcr⟩ := getElem?_of_count_pos hr
  obtain ⟨c', hc', rfl⟩ := Option.map_eq_some_iff.1 hb
  cases hc.symm.trans hc'
  intro x hx
  have hold := h x hx
  have hle := hown x hx
  have hheld := held_drop_modify refs hn hc (fun c => { c with body := f c.body }) x
  rw [holds_of_pos refs (hcr ▸ hr), holds_of_pos refs (hcr ▸ hr)] at hheld
  rw [count_update]
  unfold Memory.update
  dsimp only at hheld
  omega

/-- A destroyed cell holds nothing, whatever its body. -/
theorem Owned.update_destroyed (h : Owned refs n s own) {r : ℕ} (hn : n ≤ r) (hr : ¬ 0 < count s r)
    (f : β → β) : Owned refs n (Memory.update s r f) own := by
  intro x hx
  have hold := h x hx
  rw [count_update]
  cases hc : s[r]? with
  | none =>
    have hsame : Memory.update s r f = s := by
      rw [Memory.update, List.modify_eq_self (by simpa using hc)]
    rwa [hsame]
  | some c =>
    have hcr : ¬ 0 < c.refCount := by simpa [count, hc] using hr
    have hheld := held_drop_modify refs hn hc (fun c => { c with body := f c.body }) x
    rw [holds_of_not_pos refs hcr,
      holds_of_not_pos refs (show ¬ 0 < ({ c with body := f c.body } : Cell β).refCount from hcr)]
      at hheld
    unfold Memory.update
    omega

/-- The last reference is dropped: what the cell held is its owners' to drop. -/
theorem Owned.drop_last {r : ℕ} (hn : n ≤ r)
    (h : Owned refs n s fun x => own x + if x = r then 1 else 0) (hr : count s r = 1) :
    Owned refs n (Memory.bump s r (-1)) fun x => own x + (children refs s r).count x := by
  obtain ⟨c, hc, hcr⟩ := getElem?_of_count_pos (s := s) (r := r) (by omega)
  intro x hx
  have hold := h x hx
  have hheld := held_drop_modify refs hn hc (fun c => { c with refCount := c.refCount + -1 }) x
  rw [holds_of_pos refs (by omega), holds_of_not_pos refs (show ¬ 0 < c.refCount + -1 by omega)]
    at hheld
  have hchildren : children refs s r = refs c.body := by rw [children, body?, hc]; rfl
  have hlt : r < s.length := (List.getElem?_eq_some_iff.1 hc).1
  rw [count_bump, hchildren]
  unfold Memory.bump
  dsimp only at hold hheld ⊢
  split_ifs at hold ⊢ <;> omega

/-- Another reference than the last one is dropped. -/
theorem Owned.drop {r : ℕ} (hn : n ≤ r) (h : Owned refs n s fun x => own x + if x = r then 1 else 0)
    (hr : count s r ≠ 1) : Owned refs n (Memory.bump s r (-1)) own := by
  have hcount : 0 < count s r := h.pos hn (by simp only [if_true]; omega)
  obtain ⟨c, hc, hcr⟩ := getElem?_of_count_pos (s := s) (r := r) (by omega)
  intro x hx
  have hold := h x hx
  have hheld := held_drop_modify refs hn hc (fun c => { c with refCount := c.refCount + -1 }) x
  rw [holds_of_pos refs (by omega), holds_of_pos refs (show 0 < c.refCount + -1 by omega)] at hheld
  have hlt : r < s.length := (List.getElem?_eq_some_iff.1 hc).1
  rw [count_bump]
  unfold Memory.bump
  dsimp only at hold hheld ⊢
  split_ifs at hold ⊢ <;> omega

end

/-- Counts are not references. -/
theorem children_bump (s : Store β) (r : ℕ) (d : ℤ) (x : ℕ) :
    children refs (bump s r d) x = children refs s x := by
  rw [children, body?_bump, children]

/-- Only bodies decide. -/
theorem Closed.congr {n : ℕ} {s s' : Store β} (h : Closed refs n s)
    (hb : ∀ x, body? s' x = body? s x) : Closed refs n s' := by
  intro x hx y hy
  rw [children, hb] at hy
  exact h x hx y hy

/-- Counts do not open a closed set. -/
theorem Closed.bump {n : ℕ} {s : Store β} (h : Closed refs n s) (r : ℕ) (d : ℤ) :
    Closed refs n (bump s r d) := h.congr fun x => body?_bump s r d x

/-- A body may be changed where what it refers to is above the bound again. -/
theorem Closed.update {n : ℕ} {s : Store β} (h : Closed refs n s) {r : ℕ} {f : β → β}
    (hf : ∀ b, body? s r = some b → ∀ x ∈ refs (f b), n ≤ x) : Closed refs n (update s r f) := by
  intro x hx y hy
  rw [children, body?_update] at hy
  split_ifs at hy with hr
  · subst hr
    cases hb : body? s r with
    | none => rw [hb] at hy; cases hy
    | some b => exact hf b hb y (by rw [hb] at hy; exact hy)
  · exact h x hx y hy

/-- References released are owners given up. The induction is on the turns of the worklist, of which
each is one reference dropped. -/
theorem Owned.releaseFuel {n : ℕ} {s : Store β} {own : ℕ → ℕ} {fuel : ℕ} {rs : List ℕ}
    (hclosed : Closed refs n s) (hrs : ∀ r ∈ rs, n ≤ r)
    (h : Owned refs n s fun x => own x + rs.count x) :
    Owned refs n (releaseFuel refs fuel rs s) own := by
  induction fuel generalizing rs s with
  | zero => exact h.mono fun x _ => Nat.le_add_right _ _
  | succ fuel ih =>
    cases rs with
    | nil => exact h.mono fun x _ => Nat.le_add_right _ _
    | cons r rest =>
      have hn : n ≤ r := hrs r List.mem_cons_self
      have hrest : ∀ x ∈ rest, n ≤ x := fun x hx => hrs x (List.mem_cons_of_mem _ hx)
      have hfirst : Owned refs n s fun x => (own x + rest.count x) + if x = r then 1 else 0 := by
        refine h.mono fun x _ => ?_
        rw [List.count_cons]
        simp only [beq_iff_eq, eq_comm (a := x)]
        omega
      have hpos : 0 < count s r := hfirst.pos hn (by rw [if_pos rfl]; omega)
      obtain ⟨c, hc, -⟩ := getElem?_of_count_pos hpos
      have hcount : count (Memory.bump s r (-1)) r = count s r + -1 := by
        rw [count_bump, if_pos ⟨rfl, (List.getElem?_eq_some_iff.1 hc).1⟩]
      rw [Memory.releaseFuel, hcount, children_bump]
      split_ifs with hzero
      · refine ih (hclosed.bump r _) (List.forall_mem_append.2 ⟨hclosed r hn, hrest⟩) ?_
        refine (hfirst.drop_last hn (by omega)).mono fun x _ => ?_
        rw [List.count_append]
        omega
      · exact ih (hclosed.bump r _) hrest (hfirst.drop hn (by omega))

/-- A release takes the references of an owner. -/
theorem Owned.release {n : ℕ} {s : Store β} {own : ℕ → ℕ} {rs : List ℕ} (hclosed : Closed refs n s)
    (hrs : ∀ r ∈ rs, n ≤ r) (h : Owned refs n s fun x => own x + rs.count x) :
    Owned refs n (release refs rs s) own :=
  Owned.releaseFuel hclosed hrs h

/-! ## Releases and the rest of the store -/

/-- A release stays in a region that is closed under references. -/
theorem count_releaseFuel_of_closed {S : ℕ → Prop} {fuel : ℕ} {rs : List ℕ} {s : Store β}
    (hS : ∀ r, S r → ∀ x ∈ children refs s r, S x) (hrs : ∀ r ∈ rs, S r) {x : ℕ} (hx : ¬ S x) :
    count (releaseFuel refs fuel rs s) x = count s x := by
  induction fuel generalizing rs s with
  | zero => rfl
  | succ fuel ih =>
    cases rs with
    | nil => rfl
    | cons r rest =>
      have hr : S r := hrs r List.mem_cons_self
      have hne : ¬ (r = x ∧ x < s.length) := fun h => hx (h.1 ▸ hr)
      have hS' : ∀ y, S y → ∀ z ∈ children refs (Memory.bump s r (-1)) y, S z := by
        intro y hy z hz
        rw [children_bump] at hz
        exact hS y hy z hz
      have hrest : ∀ y ∈ rest, S y := fun y hy => hrs y (List.mem_cons_of_mem _ hy)
      rw [Memory.releaseFuel]
      split_ifs
      · rw [ih hS' (List.forall_mem_append.2 ⟨hS' r hr, hrest⟩), count_bump, if_neg hne]
      · rw [ih hS' hrest, count_bump, if_neg hne]

/-- A release stays in a closed set. -/
theorem count_release_of_closed {S : ℕ → Prop} {rs : List ℕ} {s : Store β}
    (hS : ∀ r, S r → ∀ x ∈ children refs s r, S x) (hrs : ∀ r ∈ rs, S r) {x : ℕ} (hx : ¬ S x) :
    count (release refs rs s) x = count s x :=
  count_releaseFuel_of_closed hS hrs hx

/-- Nothing is left to release. -/
theorem releaseFuel_nil (fuel : ℕ) (s : Store β) : releaseFuel refs fuel [] s = s := by
  cases fuel <;> rfl

/-- The last reference to a cell that refers to nothing. -/
theorem count_release_last {s : Store β} {r : ℕ} (h : count s r = 1) (hnil : children refs s r = [])
    (x : ℕ) : count (release refs [r] s) x = if x = r then 0 else count s x := by
  obtain ⟨c, hc, -⟩ := getElem?_of_count_pos (s := s) (r := r) (by omega)
  have hlt : r < s.length := (List.getElem?_eq_some_iff.1 hc).1
  have hcount : ∀ y, count (Memory.bump s r (-1)) y = if y = r then 0 else count s y := by
    intro y
    rw [count_bump]
    by_cases hy : y = r
    · subst hy
      rw [if_pos ⟨rfl, hlt⟩, if_pos rfl, h]
      rfl
    · rw [if_neg fun hr => hy hr.1.symm, if_neg hy]
  rw [Memory.release, Memory.releaseFuel, hcount r, if_pos rfl, if_pos rfl, children_bump, hnil,
    List.nil_append, releaseFuel_nil, hcount]

/-- A reference that was taken for a live cell and is dropped again. -/
theorem count_release_bump {s : Store β} {r : ℕ} (h : 0 < count s r) (x : ℕ) :
    count (release refs [r] (Memory.bump s r 1)) x = count s x := by
  have hlt : r < s.length := by
    by_contra hge
    rw [count_eq_zero_of_le (Nat.le_of_not_lt hge)] at h
    exact lt_irrefl _ h
  have hcount : ∀ y, count (Memory.bump (Memory.bump s r 1) r (-1)) y = count s y := by
    intro y
    rw [count_bump, count_bump, length_bump]
    split_ifs
    · exact Int.add_neg_cancel_right _ _
    · rfl
  rw [Memory.release, Memory.releaseFuel, hcount r, if_neg (ne_of_gt h), releaseFuel_nil, hcount]

end

end Memory
