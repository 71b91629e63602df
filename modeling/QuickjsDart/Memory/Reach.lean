import QuickjsDart.Memory.RefCount

/-!
# Exact accounts and reachability

`Owned` bounds the counts from below. `Counted` says that they are exact: the count of a cell is the
number of its owners outside the store plus the number of references that live cells hold to it.
Every store in which the counts cover the references is exact for the owners that are left over
(`Owned.counted`), so that a leaked reference is an owner like any other.

What the owners reach is live (`Counted.pos_of_reach`), and a store in which nothing else is live is
determined by the bodies and the owners (`Counted.collected_ext`). `Counted.release` says that a
release keeps exact accounts exact.
-/

namespace Memory

section

variable {β : Type} (refs : β → List ℕ)

/-- Each count is the number of owners outside the store and of references of live cells. -/
def Counted (s : Store β) (own : ℕ → ℕ) : Prop := ∀ r, count s r = (own r + held refs s r : ℕ)

/-- The owners outside the store, as the counts have them. -/
def outside (s : Store β) (r : ℕ) : ℕ := (count s r).toNat - held refs s r

/-- What is reached from the owners. -/
inductive Reach (s : Store β) (own : ℕ → ℕ) : ℕ → Prop
  | root {r : ℕ} : 0 < own r → Reach s own r
  | step {r x : ℕ} : Reach s own r → x ∈ children refs s r → Reach s own x

variable {refs} {s s' : Store β} {own own' : ℕ → ℕ}

/-- Covered counts are exact for the references from outside. -/
theorem Owned.counted (h : Owned refs 0 s own) : Counted refs s (outside refs s) := by
  intro r
  have hr := h r (Nat.zero_le r)
  rw [List.drop_zero] at hr
  unfold outside
  omega

/-- The owners of a cover are among those outside. -/
theorem Owned.le_outside (h : Owned refs 0 s own) (r : ℕ) : own r ≤ outside refs s r := by
  have hr := h r (Nat.zero_le r)
  rw [List.drop_zero] at hr
  unfold outside
  omega

/-- Exact counts cover the references. -/
theorem Counted.owned (h : Counted refs s own) : Owned refs 0 s own := by
  intro r _
  rw [List.drop_zero, h r]

/-! ## Reachability -/

/-- More owners reach more. -/
theorem Reach.mono (hown : ∀ r, own r ≤ own' r) {r : ℕ} (h : Reach refs s own r) :
    Reach refs s own' r := by
  induction h with
  | root hr => exact .root (hr.trans_le (hown _))
  | step _ hx ih => exact .step ih hx

/-- Only bodies and owners decide. -/
theorem Reach.congr (hb : ∀ x, body? s' x = body? s x) {r : ℕ} (h : Reach refs s own r) :
    Reach refs s' own r := by
  induction h with
  | root hr => exact .root hr
  | step _ hx ih =>
    refine .step ih ?_
    rw [children, hb]
    exact hx

/-- What is reached depends on bodies and owners. -/
theorem reach_congr (hb : ∀ x, body? s' x = body? s x) (r : ℕ) :
    Reach refs s' own r ↔ Reach refs s own r :=
  ⟨Reach.congr fun x => (hb x).symm, Reach.congr hb⟩

/-- What is reached from the owners is live. -/
theorem Counted.pos_of_reach (h : Counted refs s own) {r : ℕ} (hr : Reach refs s own r) :
    0 < count s r := by
  induction hr with
  | root hr =>
    rw [h]
    omega
  | @step r x _ hx ih =>
    cases hb : body? s r with
    | none =>
      rw [children, hb] at hx
      cases hx
    | some b =>
      rw [children, hb] at hx
      exact h.owned.pos_of_mem (Nat.zero_le _) (Nat.zero_le _) hb ih hx

/-! ## The references held, cell by cell -/

/-- What is counted is there. -/
theorem lt_of_count_pos {r : ℕ} (h : 0 < count s r) : r < s.length := by
  by_contra hge
  rw [count_eq_zero_of_le (Nat.le_of_not_lt hge)] at h
  exact lt_irrefl _ h

/-- Two heaps with the same bodies are of the same size. -/
theorem length_eq_of_body? (hb : ∀ r, body? s' r = body? s r) : s'.length = s.length := by
  have hiff : ∀ r, r < s'.length ↔ r < s.length := by
    intro r
    have hr := hb r
    unfold body? at hr
    rw [← not_iff_not, Nat.not_lt, Nat.not_lt, ← List.getElem?_eq_none_iff,
      ← List.getElem?_eq_none_iff, ← Option.map_eq_none_iff, hr, Option.map_eq_none_iff]
  refine le_antisymm (Nat.le_of_not_lt fun h => ?_) (Nat.le_of_not_lt fun h => ?_)
  · exact lt_irrefl _ ((hiff _).1 h)
  · exact lt_irrefl _ ((hiff _).2 h)

/-- What a cell contributes, by its reference. -/
theorem holds_getElem (s : Store β) (x : ℕ) {r : ℕ} (hr : r < s.length) :
    holds refs s[r] x = if 0 < count s r then (children refs s r).count x else 0 := by
  rw [holds, count, children, body?, List.getElem?_eq_getElem hr]
  rfl

/-- The references from live cells, as a sum. -/
theorem held_eq_sum (s : Store β) (x : ℕ) : held refs s x
    = ∑ r ∈ Finset.range s.length, if 0 < count s r then (children refs s r).count x else 0 := by
  rw [held, ← Fin.sum_univ_fun_getElem, Finset.sum_range]
  exact Finset.sum_congr rfl fun r _ => holds_getElem s x r.isLt

/-- A count in a concatenation, as a sum. -/
theorem count_flatMap_eq_sum {l : List ℕ} (hl : l.Nodup) (f : ℕ → List ℕ) (x : ℕ) :
    (l.flatMap f).count x = ∑ r ∈ l.toFinset, (f r).count x := by
  rw [List.count_flatMap, List.sum_toFinset _ hl]
  rfl

/-- The references held are those of a list of the live cells that hold any. -/
theorem held_eq_count {l : List ℕ} (hl : l.Nodup) (hlive : ∀ r ∈ l, 0 < count s r)
    (hall : ∀ r, 0 < count s r → children refs s r ≠ [] → r ∈ l) (x : ℕ) :
    held refs s x = (l.flatMap (children refs s)).count x := by
  rw [held_eq_sum, count_flatMap_eq_sum hl, ← Finset.sum_filter]
  symm
  refine Finset.sum_subset_zero_on_sdiff ?_ ?_ fun _ _ => rfl
  · intro r hr
    have hpos := hlive r (List.mem_toFinset.1 hr)
    rw [Finset.mem_filter, Finset.mem_range]
    exact ⟨lt_of_count_pos hpos, hpos⟩
  · intro r hr
    obtain ⟨hr, hout⟩ := Finset.mem_sdiff.1 hr
    have hnil : children refs s r = [] := by
      by_contra hne
      exact hout (List.mem_toFinset.2 (hall r (Finset.mem_filter.1 hr).2 hne))
    rw [hnil, List.count_nil]

/-! ## Stores without garbage -/

/-- The bodies and the counts are all there is. -/
theorem store_ext (hb : ∀ r, body? s' r = body? s r) (hc : ∀ r, count s' r = count s r) :
    s' = s := by
  refine List.ext_getElem? fun r => ?_
  have hbr := hb r
  have hcr := hc r
  unfold body? at hbr
  unfold count at hcr
  cases h : s[r]? with
  | none => simpa [h] using hbr
  | some c =>
    obtain ⟨c', hc', hbody⟩ := Option.map_eq_some_iff.1 (hbr.trans (by rw [h]; rfl))
    rw [hc', h] at hcr
    rw [hc']
    cases c
    cases c'
    simp_all

/-- Where only what the owners reach is live, the bodies and the owners determine the counts. -/
theorem Counted.collected_ext (h : Counted refs s own) (h' : Counted refs s' own)
    (hb : ∀ r, body? s' r = body? s r) (hlive : ∀ r, 0 < count s r ↔ Reach refs s own r)
    (hlive' : ∀ r, 0 < count s' r ↔ Reach refs s own r) : s' = s := by
  refine store_ext hb fun r => ?_
  have hlen : s'.length = s.length := length_eq_of_body? hb
  rw [h, h', held_eq_sum, held_eq_sum, hlen]
  congr 2
  refine Finset.sum_congr rfl fun x _ => ?_
  have hiff : 0 < count s' x ↔ 0 < count s x := (hlive' x).trans (hlive x).symm
  rw [children, hb, children]
  simp only [hiff]

/-! ## Releases -/

variable (refs) in
/-- The references that live cells hold, to any cell. -/
def weight (s : Store β) : ℕ :=
  (s.map fun c => if 0 < c.refCount then (refs c.body).length else 0).sum

/-- One summand is changed. -/
theorem sum_map_modify {α : Type} (f : α → ℕ) {l : List α} {r : ℕ} {c : α} (h : l[r]? = some c)
    (g : α → α) : ((l.modify r g).map f).sum + f c = (l.map f).sum + f (g c) := by
  induction l generalizing r with
  | nil => simp at h
  | cons a l ih =>
    cases r with
    | zero =>
      rw [List.getElem?_cons_zero, Option.some_inj] at h
      subst h
      simp only [List.modify_zero_cons, List.map_cons, List.sum_cons]
      omega
    | succ r =>
      rw [List.getElem?_cons_succ] at h
      have hl := ih h
      simp only [List.modify_succ_cons, List.map_cons, List.sum_cons] at hl ⊢
      omega

/-- The last reference is dropped: what the cell held is its owners' to drop. -/
theorem Counted.drop_last {r : ℕ} (h : Counted refs s fun x => own x + if x = r then 1 else 0)
    (hr : count s r = 1) :
    Counted refs (bump s r (-1)) (fun x => own x + (children refs s r).count x) ∧
      weight refs (bump s r (-1)) + (children refs s r).length = weight refs s := by
  obtain ⟨c, hc, hcr⟩ := getElem?_of_count_pos (s := s) (r := r) (by omega)
  have hlt : r < s.length := (List.getElem?_eq_some_iff.1 hc).1
  have hchildren : children refs s r = refs c.body := by rw [children, body?, hc]; rfl
  constructor
  · intro x
    have hold := h x
    have hheld := held_modify refs hc (fun c => { c with refCount := c.refCount + -1 }) x
    rw [holds_of_pos refs (by omega), holds_of_not_pos refs (show ¬ 0 < c.refCount + -1 by omega)]
      at hheld
    rw [count_bump, hchildren]
    unfold Memory.bump
    dsimp only at hold hheld ⊢
    split_ifs at hold ⊢ <;> omega
  · have hsum := sum_map_modify
      (fun c : Cell β => if 0 < c.refCount then (refs c.body).length else 0) hc
      (fun c => { c with refCount := c.refCount + -1 })
    dsimp only at hsum
    rw [if_pos (by omega), if_neg (by omega)] at hsum
    rw [weight, weight, hchildren]
    exact hsum

/-- Another reference than the last one is dropped. -/
theorem Counted.drop {r : ℕ} (h : Counted refs s fun x => own x + if x = r then 1 else 0)
    (hr : count s r ≠ 1) :
    Counted refs (bump s r (-1)) own ∧ weight refs (bump s r (-1)) = weight refs s := by
  have hcount : count s r = ((own r + 1) + held refs s r : ℕ) := by simpa using h r
  obtain ⟨c, hc, hcr⟩ := getElem?_of_count_pos (s := s) (r := r) (by omega)
  have hlt : r < s.length := (List.getElem?_eq_some_iff.1 hc).1
  constructor
  · intro x
    have hold := h x
    have hheld := held_modify refs hc (fun c => { c with refCount := c.refCount + -1 }) x
    rw [holds_of_pos refs (by omega), holds_of_pos refs (show 0 < c.refCount + -1 by omega)]
      at hheld
    rw [count_bump]
    unfold Memory.bump
    dsimp only at hold hheld ⊢
    split_ifs at hold ⊢ <;> omega
  · have hsum := sum_map_modify
      (fun c : Cell β => if 0 < c.refCount then (refs c.body).length else 0) hc
      (fun c => { c with refCount := c.refCount + -1 })
    dsimp only at hsum
    rw [if_pos (by omega), if_pos (by omega)] at hsum
    rw [weight, weight]
    exact Nat.add_right_cancel hsum

/-- The first reference of a worklist is an owner of its cell. -/
theorem Counted.first {r : ℕ} {rest : List ℕ}
    (h : Counted refs s fun x => own x + (r :: rest).count x) :
    Counted refs s fun x => (own x + rest.count x) + if x = r then 1 else 0 := by
  intro x
  rw [h x]
  simp only [List.count_cons, beq_iff_eq, eq_comm (a := x)]
  omega

/-- A worklist that runs to its end. Each turn takes one reference from the worklist or from the
cells that are left. -/
theorem Counted.releaseFuel {fuel : ℕ} {rs : List ℕ}
    (h : Counted refs s fun x => own x + rs.count x) (hfuel : rs.length + weight refs s < fuel) :
    Counted refs (releaseFuel refs fuel rs s) own := by
  induction fuel generalizing rs s with
  | zero => omega
  | succ fuel ih =>
    cases rs with
    | nil => exact h
    | cons r rest =>
      have hfirst := h.first
      rw [List.length_cons] at hfuel
      have hr : count s r = ((own r + rest.count r + 1) + held refs s r : ℕ) := by
        simpa using hfirst r
      have hcount : count (bump s r (-1)) r = count s r + -1 := by
        rw [count_bump, if_pos ⟨rfl, lt_of_count_pos (by omega)⟩]
      rw [Memory.releaseFuel, hcount, children_bump]
      split_ifs with hzero
      · obtain ⟨hcounted, hweight⟩ := hfirst.drop_last (by omega)
        refine ih (fun x => ?_) ?_
        · rw [hcounted x]
          simp only [List.count_append]
          omega
        · rw [List.length_append]
          omega
      · obtain ⟨hcounted, hweight⟩ := hfirst.drop (by omega)
        exact ih hcounted (by omega)

/-- A release takes the owners it releases, and keeps the account exact. -/
theorem Counted.release {rs : List ℕ} (h : Counted refs s fun x => own x + rs.count x) :
    Counted refs (release refs rs s) own := by
  refine Counted.releaseFuel h ?_
  have hle : weight refs s ≤ (s.map fun c => (refs c.body).length).sum := by
    refine List.sum_le_sum fun c _ => ?_
    split_ifs <;> omega
  omega

/-! ## Cycles -/

/-- Cells that refer to each other, all of them live: each is referred to by another one. -/
structure Supported (refs : β → List ℕ) (s : Store β) (C : ℕ → Prop) : Prop where
  live : ∀ r, C r → 0 < count s r
  held : ∀ r, C r → ∃ x, C x ∧ r ∈ children refs s x

/-- What is supported is referred to. -/
theorem Supported.held_pos {C : ℕ → Prop} (hC : Supported refs s C) {r : ℕ} (hr : C r) :
    0 < Memory.held refs s r := by
  obtain ⟨x, hx, hmem⟩ := hC.held r hr
  obtain ⟨c, hc, hcr⟩ := getElem?_of_count_pos (hC.live x hx)
  have hchildren : children refs s x = refs c.body := by rw [children, body?, hc]; rfl
  have hle : holds refs c r ≤ Memory.held refs (s.drop 0) r :=
    holds_le_held (Nat.zero_le x) hc r
  rw [holds_of_pos refs (hcr ▸ hC.live x hx), ← hchildren, List.drop_zero] at hle
  have := List.count_pos_iff.2 hmem
  omega

/-- An owner that goes leaves the last reference to such a cell with another one of them. -/
theorem Supported.bump {C : ℕ → Prop} (hC : Supported refs s C) {r : ℕ}
    (h : Counted refs s fun x => own x + if x = r then 1 else 0) :
    Supported refs (bump s r (-1)) C := by
  refine ⟨fun x hx => ?_, fun x hx => ?_⟩
  · have hheld := hC.held_pos hx
    have hcount := h x
    rw [count_bump]
    by_cases hxr : x = r
    · subst hxr
      rw [if_pos ⟨rfl, lt_of_count_pos (hC.live x hx)⟩, hcount]
      simp only [if_true]
      omega
    · rw [if_neg fun hr => hxr hr.1.symm]
      exact hC.live x hx
  · obtain ⟨y, hy, hmem⟩ := hC.held x hx
    exact ⟨y, hy, by rwa [children_bump]⟩

/-- A release destroys no cell of a cycle. -/
theorem Supported.releaseFuel {C : ℕ → Prop} {fuel : ℕ} {rs : List ℕ} (hC : Supported refs s C)
    (h : Counted refs s fun x => own x + rs.count x) :
    Supported refs (releaseFuel refs fuel rs s) C := by
  induction fuel generalizing rs s with
  | zero => exact hC
  | succ fuel ih =>
    cases rs with
    | nil => exact hC
    | cons r rest =>
      have hfirst := h.first
      have hr : count s r = ((own r + rest.count r + 1) + Memory.held refs s r : ℕ) := by
        simpa using hfirst r
      have hcount : count (Memory.bump s r (-1)) r = count s r + -1 := by
        rw [count_bump, if_pos ⟨rfl, lt_of_count_pos (by omega)⟩]
      rw [Memory.releaseFuel, hcount, children_bump]
      split_ifs with hzero
      · refine ih (hC.bump hfirst) fun x => ?_
        rw [(hfirst.drop_last (by omega)).1 x]
        simp only [List.count_append]
        omega
      · exact ih (hC.bump hfirst) (hfirst.drop (by omega)).1

end

end Memory
