import QuickjsDart.Shapes

/-!
# The table of a shape

A shape is a list of names with flags. Its hash table finds the entry of every name (`TableOK`), and
the operations on it are those of the list: a name is appended, taken out, and the deleted entries
are dropped.
-/

namespace QuickjsDart

namespace Shapes

open Memory

/-! ## The table -/

/-- The link of an entry. -/
def nextOf (prop : List ShapeProperty) (i : ℕ) : ℕ := ((prop[i]?).map ShapeProperty.hashNext).getD 0

/-- The place of an entry in a table with `size` heads. -/
def hashOf (size : ℕ) (prop : List ShapeProperty) (i : ℕ) : Option ℕ :=
  (prop[i]?).bind fun pr => if pr.atom = 0 then none else some (pr.atom &&& (size - 1))

/-- The table has the entries that are not free. -/
structure TableOK (t : List ShapeProperty × List ℕ) : Prop where
  pos : 0 < t.2.length
  hashed : Hashed t.2 (nextOf t.1) (hashOf t.2.length t.1) t.1.length

/-- The name and the flags of an entry. -/
def ShapeProperty.content (pr : ShapeProperty) : ℕ × ℕ := (pr.atom, pr.flags)

variable {t : List ShapeProperty × List ℕ} {prop : List ShapeProperty}

/-- A new property leaves the links of the others. -/
theorem nextOf_append_left {i : ℕ} (l : List ShapeProperty) (hi : i < prop.length) :
    nextOf (prop ++ l) i = nextOf prop i := by
  rw [nextOf, List.getElem?_append_left hi, nextOf]

/-- The link of the new property. -/
theorem nextOf_append_length (pr : ShapeProperty) :
    nextOf (prop ++ [pr]) prop.length = pr.hashNext := by
  simp [nextOf]

/-- It leaves their buckets too. -/
theorem hashOf_append_left {i : ℕ} (size : ℕ) (l : List ShapeProperty) (hi : i < prop.length) :
    hashOf size (prop ++ l) i = hashOf size prop i := by
  rw [hashOf, List.getElem?_append_left hi, hashOf]

/-- The bucket of the new property. -/
theorem hashOf_append_length (size : ℕ) (pr : ShapeProperty) :
    hashOf size (prop ++ [pr]) prop.length =
      if pr.atom = 0 then none else some (pr.atom &&& (size - 1)) := by
  simp [hashOf]

/-- A bucket is one of the table. -/
theorem land_lt {size : ℕ} (hpos : 0 < size) (atom : ℕ) : atom &&& (size - 1) < size :=
  Nat.and_le_right.trans_lt (Nat.sub_lt hpos Nat.one_pos)

/-- A head is the number of an entry plus one, or zero. -/
theorem TableOK.head_le (ht : TableOK t) {b hd : ℕ} (hb : t.2[b]? = some hd) :
    hd ≤ t.1.length := by
  have hl := ht.hashed.links b hd hb
  generalize hm : members _ _ b = l at hl
  cases hl with
  | nil => exact Nat.zero_le _
  | @cons i l _ => exact (mem_members.1 (hm ▸ List.mem_cons_self)).1

/-- An empty table. -/
theorem tableOK_replicate {size : ℕ} (hpos : 0 < size) :
    TableOK (([] : List ShapeProperty), List.replicate size 0) :=
  ⟨by simpa using hpos, hashed_zero _ _ size⟩

/-- A property is linked into the table, which keeps its size. -/
@[simp] theorem length_insertHashed_snd (atom flags : ℕ) (t : List ShapeProperty × List ℕ) :
    (insertHashed atom flags t).2.length = t.2.length := by
  simp [insertHashed]

/-- The properties are one more. -/
@[simp] theorem length_insertHashed_fst (atom flags : ℕ) (t : List ShapeProperty × List ℕ) :
    (insertHashed atom flags t).1.length = t.1.length + 1 := by
  simp [insertHashed]

/-- The new property is the last one. -/
@[simp] theorem content_insertHashed (atom flags : ℕ) (t : List ShapeProperty × List ℕ) :
    (insertHashed atom flags t).1.map ShapeProperty.content =
      t.1.map ShapeProperty.content ++ [(atom, flags)] := by
  simp [insertHashed, ShapeProperty.content]

/-- `insertHashed` puts a new property in front of its chain. -/
theorem TableOK.insertHashed (ht : TableOK t) {atom : ℕ} (hatom : atom ≠ 0) (flags : ℕ)
    (hlen : t.1.length < 2 ^ 26) : TableOK (insertHashed atom flags t) := by
  refine ⟨by simpa using ht.pos, ?_⟩
  have hlt := land_lt ht.pos atom
  have hb := List.getElem?_eq_getElem hlt
  have hmod : t.2.getD (atom &&& (t.2.length - 1)) 0 % 2 ^ 26 = t.2[atom &&& (t.2.length - 1)] := by
    rw [List.getD_eq_getElem?_getD, hb]
    exact Nat.mod_eq_of_lt ((ht.head_le hb).trans_lt hlen)
  rw [length_insertHashed_snd, length_insertHashed_fst, Shapes.insertHashed]
  refine ht.hashed.push hb (fun i hi => nextOf_append_left _ hi) ?_
    (fun i hi => hashOf_append_left _ _ hi) ?_
  · rw [nextOf_append_length]
    exact hmod
  · rw [hashOf_append_length]
    exact if_neg hatom

/-- A free entry changes nothing. -/
theorem TableOK.skip (ht : TableOK t) {pr : ShapeProperty} (hpr : pr.atom = 0) :
    TableOK (t.1 ++ [pr], t.2) := by
  refine ⟨ht.pos, ?_⟩
  have hs := ht.hashed.skip (fun i hi => nextOf_append_left [pr] hi)
    (fun i hi => hashOf_append_left t.2.length [pr] hi)
    ((hashOf_append_length t.2.length pr).trans (if_pos hpr))
  simpa using hs

/-- The loop of `resize_properties` makes a table for the same entries. -/
theorem tableOK_rehash {size : ℕ} (prop : List ShapeProperty) (hpos : 0 < size)
    (hlen : prop.length ≤ 2 ^ 26) :
    TableOK (rehash size prop) ∧ (rehash size prop).2.length = size ∧
      (rehash size prop).1.map ShapeProperty.content = prop.map ShapeProperty.content := by
  have hloop : ∀ (l : List ShapeProperty) (t : List ShapeProperty × List ℕ), TableOK t →
      t.1.length + l.length ≤ 2 ^ 26 →
      let t' := l.foldl (fun t pr => if pr.atom = 0 then (t.1 ++ [pr], t.2)
        else insertHashed pr.atom pr.flags t) t
      TableOK t' ∧ t'.2.length = t.2.length ∧
        t'.1.map ShapeProperty.content =
          t.1.map ShapeProperty.content ++ l.map ShapeProperty.content := by
    intro l
    induction l with
    | nil => intro t ht _; exact ⟨ht, rfl, by simp⟩
    | cons pr l ih =>
      intro t ht hle
      rw [List.foldl_cons]
      split_ifs with hpr
      · obtain ⟨hok, hsize, hcont⟩ := ih _ (ht.skip hpr) (by simp at hle ⊢; omega)
        exact ⟨hok, hsize, by rw [hcont]; simp⟩
      · obtain ⟨hok, hsize, hcont⟩ := ih _ (ht.insertHashed hpr pr.flags (by simp at hle; omega))
          (by simp at hle ⊢; omega)
        refine ⟨hok, hsize.trans (length_insertHashed_snd _ _ _), ?_⟩
        rw [hcont, content_insertHashed]
        simp [ShapeProperty.content]
  have h := hloop prop _ (tableOK_replicate hpos) (by simpa using hlen)
  simpa [rehash] using h

/-! ## The search -/

/-- The search finds the entry with a name, and where it is in its chain. -/
theorem Shape.search_cases {sh : Shape} (ht : TableOK (sh.prop, sh.propHash)) {atom : ℕ}
    (hatom : atom ≠ 0) :
    (sh.search atom = some none ∧ ∀ pr ∈ sh.prop, pr.atom ≠ atom) ∨
      ∃ l₁ i l₂ pr, sh.search atom = some (some (l₁.getLast?, i)) ∧ sh.prop[i]? = some pr ∧
        pr.atom = atom ∧ members (hashOf sh.propHash.length sh.prop) sh.prop.length
          (atom &&& (sh.propHash.length - 1)) = l₁ ++ i :: l₂ := by
  have hlt := land_lt ht.pos atom
  have hb := List.getElem?_eq_getElem hlt
  have hl := ht.hashed.links _ _ hb
  have hentry : ∀ i ∈ members (hashOf sh.propHash.length sh.prop) sh.prop.length
      (atom &&& (sh.propHash.length - 1)),
      (sh.prop[i]?).map (fun pr => (decide (pr.atom = atom), pr.hashNext)) =
        some (decide (((sh.prop[i]?).map ShapeProperty.atom).getD 0 = atom), nextOf sh.prop i) := by
    intro i hi
    have hi' := List.getElem?_eq_getElem (mem_members.1 hi).1
    simp [nextOf, hi']
  unfold Shape.search
  rw [hb]
  rcases hl.locate_cases hentry length_members_le none with
    ⟨hnone, hall⟩ | ⟨l₁, i, l₂, hl, hp, hsome⟩
  · refine .inl ⟨hnone, fun pr hpr heq => ?_⟩
    obtain ⟨i, hi⟩ := List.getElem?_of_mem hpr
    have hmem : i ∈ members (hashOf sh.propHash.length sh.prop) sh.prop.length
        (atom &&& (sh.propHash.length - 1)) := by
      refine mem_members.2 ⟨(List.getElem?_eq_some_iff.1 hi).1, ?_⟩
      simp [hashOf, hi, heq, hatom]
    have hno := hall i hmem
    simp [hi, heq] at hno
  · have hmem : i ∈ members (hashOf sh.propHash.length sh.prop) sh.prop.length
        (atom &&& (sh.propHash.length - 1)) := by
      rw [hl]
      simp
    have hi := List.getElem?_eq_getElem (mem_members.1 hmem).1
    refine .inr ⟨l₁, i, l₂, _, ?_, hi, ?_, hl⟩
    · simpa using hsome
    · simpa [hi] using hp

/-! ## Deleted entries -/

/-- A deleted entry is in no bucket. -/
theorem hashOf_set {i : ℕ} {pr : ShapeProperty} (size : ℕ) (hpr : pr.atom = 0) :
    hashOf size (prop.set i pr) i = none := by
  rw [hashOf, List.getElem?_set_self']
  cases prop[i]? <;> simp [hpr]

/-- The other entries stay in theirs. -/
theorem hashOf_set_ne {i j : ℕ} (size : ℕ) (pr : ShapeProperty) (hij : i ≠ j) :
    hashOf size (prop.set i pr) j = hashOf size prop j := by
  rw [hashOf, List.getElem?_set_ne hij, hashOf]

/-- An entry that is replaced with its link keeps the links. -/
theorem nextOf_set {i : ℕ} (pr : ShapeProperty) (hi : nextOf prop i = pr.hashNext) (j : ℕ) :
    nextOf (prop.set i pr) j = nextOf prop j := by
  by_cases hij : i = j
  · subst hij
    rw [hi, nextOf, List.getElem?_set_self']
    cases h : prop[i]? with
    | none => simpa [nextOf, h] using hi
    | some q => rfl
  · rw [nextOf, List.getElem?_set_ne hij, nextOf]

/-- A change of a link. -/
theorem hashOf_modify (size a next j : ℕ) :
    hashOf size (prop.modify a fun q => { q with hashNext := next }) j = hashOf size prop j := by
  rw [hashOf, List.getElem?_modify, hashOf]
  cases prop[j]? with
  | none => simp
  | some q => by_cases haj : a = j <;> simp [haj]

/-- One link is changed, and no other. -/
theorem nextOf_modify_ne {a j : ℕ} (next : ℕ) (hja : j ≠ a) :
    nextOf (prop.modify a fun q => { q with hashNext := next }) j = nextOf prop j := by
  rw [nextOf, List.getElem?_modify, nextOf]
  simp [Ne.symm hja]

/-- The changed link. -/
theorem nextOf_modify {a : ℕ} (next : ℕ) (ha : a < prop.length) :
    nextOf (prop.modify a fun q => { q with hashNext := next }) a = next := by
  rw [nextOf, List.getElem?_modify, List.getElem?_eq_getElem ha]
  simp

/-- A deletion takes no space back. -/
theorem Shape.length_remove (sh : Shape) (last : Option ℕ) (i : ℕ) (pr : ShapeProperty) :
    (sh.remove last i pr).prop.length = sh.prop.length ∧
      (sh.remove last i pr).propHash.length = sh.propHash.length := by
  cases last <;> simp [Shape.remove]

/-- The entry that the search found is taken out. -/
theorem TableOK.remove {sh : Shape} (ht : TableOK (sh.prop, sh.propHash)) {l₁ l₂ : List ℕ} {i : ℕ}
    {pr : ShapeProperty} (hi : sh.prop[i]? = some pr)
    (hl : members (hashOf sh.propHash.length sh.prop) sh.prop.length
      (pr.atom &&& (sh.propHash.length - 1)) = l₁ ++ i :: l₂) :
    TableOK ((sh.remove l₁.getLast? i pr).prop, (sh.remove l₁.getLast? i pr).propHash) := by
  have hlen := sh.length_remove l₁.getLast? i pr
  refine ⟨hlen.2 ▸ ht.pos, ?_⟩
  dsimp only
  rw [hlen.1, hlen.2]
  have hnext : nextOf sh.prop i = pr.hashNext := by simp [nextOf, hi]
  have hlt := land_lt ht.pos pr.atom
  rcases List.eq_nil_or_concat l₁ with rfl | ⟨l, a, rfl⟩
  · have hb := List.getElem?_eq_getElem hlt
    have hchain := ht.hashed.links _ _ hb
    dsimp only at hchain
    rw [hl] at hchain
    rw [hchain.tail.1] at hb
    have hfree : hashOf sh.propHash.length (sh.prop.set i ⟨pr.hashNext, 0, 0⟩) i = none :=
      hashOf_set _ rfl
    have hrem := ht.hashed.remove_head hb hfree fun j hj => hashOf_set_ne _ _ (Ne.symm hj)
    dsimp only at hrem
    rw [hnext] at hrem
    exact hrem.congr (fun j _ => nextOf_set ⟨pr.hashNext, 0, 0⟩ hnext j) fun _ _ => rfl
  · rw [List.concat_eq_append] at hl
    have ha : a < sh.prop.length := by
      have hmem : a ∈ members (hashOf sh.propHash.length sh.prop) sh.prop.length
          (pr.atom &&& (sh.propHash.length - 1)) := by
        rw [hl]
        simp
      exact (mem_members.1 hmem).1
    have hai : a ≠ i := by
      rintro rfl
      have hnodup : (l ++ [a] ++ a :: l₂).Nodup := hl ▸ nodup_members
      simp [List.nodup_append] at hnodup
    rw [List.append_assoc] at hl
    have hlast : (l ++ [a]).getLast? = some a := by simp
    simp only [Shape.remove, List.concat_eq_append, hlast]
    have hnext' : nextOf (sh.prop.modify a fun q => { q with hashNext := pr.hashNext }) i =
        pr.hashNext := (nextOf_modify_ne _ (Ne.symm hai)).trans hnext
    refine ht.hashed.remove_behind hlt hl ?_ (fun j hj => ?_) (hashOf_set _ rfl) fun j hj => ?_
    · rw [nextOf_set ⟨pr.hashNext, 0, 0⟩ hnext', nextOf_modify _ ha, hnext]
    · rw [nextOf_set ⟨pr.hashNext, 0, 0⟩ hnext', nextOf_modify_ne _ hj]
    · rw [hashOf_set_ne _ _ (Ne.symm hj), hashOf_modify]

/-- A deleted entry is empty, and the others stay where they are. -/
theorem Shape.content_remove (sh : Shape) (last : Option ℕ) (i : ℕ) (pr : ShapeProperty) :
    (sh.remove last i pr).prop.map ShapeProperty.content =
      (sh.prop.map ShapeProperty.content).set i (0, 0) := by
  have hmodify : ∀ a, (sh.prop.modify a fun q => { q with hashNext := pr.hashNext }).map
      ShapeProperty.content = sh.prop.map ShapeProperty.content := by
    intro a
    refine List.ext_getElem? fun j => ?_
    rw [List.getElem?_map, List.getElem?_modify, List.getElem?_map]
    cases sh.prop[j]? with
    | none => simp
    | some q => by_cases haj : a = j <;> simp [haj, ShapeProperty.content]
  cases last with
  | none => simp [Shape.remove, List.map_set, ShapeProperty.content]
  | some a => simp [Shape.remove, List.map_set, hmodify, ShapeProperty.content]

/-! ## Properties as a list -/

section

variable {V : Type} {cs : List (ℕ × ℕ)} {vals vals' : List (Option V)}

/-- The property of an entry with its slot. -/
def entryOf (c : ℕ × ℕ) (v : Option V) : Option (ℕ × ℕ × V) :=
  if c.1 = 0 then none else v.map fun v => (c.1, c.2, v)

/-- The properties: names, flags and values, in the order of the shape. -/
def entries : List (ℕ × ℕ) → List (Option V) → List (ℕ × ℕ × V)
  | c :: cs, v :: vals => (entryOf c v).toList ++ entries cs vals
  | _, _ => []

/-- The names. -/
def names (cs : List (ℕ × ℕ)) : List ℕ := (cs.map Prod.fst).filter (· ≠ 0)

/-- The slot of every entry was written. -/
def Written (cs : List (ℕ × ℕ)) (vals : List (Option V)) : Prop :=
  ∀ (i : ℕ) (c : ℕ × ℕ), cs[i]? = some c → c.1 ≠ 0 → ∃ v, vals[i]? = some (some v)

/-- The names of a layout are those of the entries that were not deleted. -/
theorem mem_names {atom : ℕ} : atom ∈ names cs ↔ atom ≠ 0 ∧ ∃ flags, (atom, flags) ∈ cs := by
  simp [names, and_comm]

/-- Only the slots of the shape count. -/
theorem entries_congr (h : ∀ i < cs.length, vals'[i]? = vals[i]?) :
    entries cs vals' = entries cs vals := by
  induction cs generalizing vals vals' with
  | nil => rfl
  | cons c cs ih =>
    have h0 := h 0 (by simp)
    cases vals with
    | nil =>
      cases vals' with
      | nil => rfl
      | cons v' vals' => simp at h0
    | cons v vals =>
      cases vals' with
      | nil => simp at h0
      | cons v' vals' =>
        have hv : v' = v := by simpa using h0
        rw [entries, entries, hv, ih fun i hi => by simpa using h (i + 1) (by simpa using hi)]

/-- A property has an entry in the shape. -/
theorem mem_entries {e : ℕ × ℕ × V} (he : e ∈ entries cs vals) :
    e.1 ≠ 0 ∧ (e.1, e.2.1) ∈ cs := by
  induction cs generalizing vals with
  | nil => simp [entries] at he
  | cons c cs ih =>
    cases vals with
    | nil => simp [entries] at he
    | cons v vals =>
      rw [entries, List.mem_append] at he
      rcases he with he | he
      · simp only [entryOf, Option.mem_toList] at he
        split_ifs at he with hc
        obtain ⟨v', -, rfl⟩ := Option.map_eq_some_iff.1 he
        exact ⟨hc, List.mem_cons_self⟩
      · exact ⟨(ih he).1, List.mem_cons_of_mem _ (ih he).2⟩

/-- An entry has one of the names. -/
theorem entries_fst_mem {e : ℕ × ℕ × V} (he : e ∈ entries cs vals) : e.1 ∈ names cs :=
  mem_names.2 ⟨(mem_entries he).1, _, (mem_entries he).2⟩

/-- One more entry, with what is written to its slot. -/
theorem entries_append (c : ℕ × ℕ) (v : Option V) (hlt : cs.length < vals.length) :
    entries (cs ++ [c]) (vals.set cs.length v) = entries cs vals ++ (entryOf c v).toList := by
  induction cs generalizing vals with
  | nil =>
    cases vals with
    | nil => simp at hlt
    | cons w vals => simp [entries]
  | cons d cs ih =>
    cases vals with
    | nil => simp at hlt
    | cons w vals =>
      have hrest : entries (cs ++ [c]) (vals.set cs.length v) = _ := ih (by simpa using hlt)
      simp [entries, hrest]

/-- A value that is written goes with the new property. -/
theorem Written.append (h : Written cs vals) (c : ℕ × ℕ) (v : V) (hlt : cs.length < vals.length) :
    Written (cs ++ [c]) (vals.set cs.length (some v)) := by
  intro i d hd hd0
  rw [List.getElem?_set]
  split_ifs with hi
  · exact ⟨v, rfl⟩
  · have hi' : i < cs.length := by
      have := (List.getElem?_eq_some_iff.1 hd).1
      simp only [List.length_append, List.length_singleton] at this
      omega
    rw [List.getElem?_append_left hi'] at hd
    exact h i d hd hd0

/-- A change at one entry, which all others do not see. -/
theorem entries_change {i : ℕ} {c c' : ℕ × ℕ} {v : V} {v' : Option V}
    (hi : cs[i]? = some c) (hv : vals[i]? = some (some v)) (hc : c.1 ≠ 0)
    (hnodup : (names cs).Nodup) (f : ℕ × ℕ × V → Option (ℕ × ℕ × V))
    (hf : f (c.1, c.2, v) = entryOf c' v') (hother : ∀ e, e.1 ≠ c.1 → f e = some e) :
    entries (cs.set i c') (vals.set i v') = (entries cs vals).filterMap f := by
  induction cs generalizing vals i with
  | nil => simp at hi
  | cons d cs ih =>
    cases vals with
    | nil => simp at hv
    | cons w vals =>
      cases i with
      | zero =>
        have hd : d = c := by simpa using hi
        have hw : w = some v := by simpa using hv
        subst hd hw
        have hrest : (entries cs vals).filterMap f = entries cs vals := by
          rw [List.filterMap_congr (g := some), List.filterMap_some]
          intro e he
          refine hother e fun heq => ?_
          have hmem := entries_fst_mem he
          rw [names, List.map_cons, List.filter_cons, if_pos (by simpa using hc)] at hnodup
          exact (List.nodup_cons.1 hnodup).1 (heq ▸ hmem)
        have hhead : entryOf d (some v) = some (d.1, d.2, v) := by simp [entryOf, hc]
        rw [List.set_cons_zero, List.set_cons_zero, entries, entries, List.filterMap_append, hrest,
          hhead, ← hf]
        cases hfd : f (d.1, d.2, v) <;> simp [hfd]
      | succ i =>
        have hi' : cs[i]? = some c := by simpa using hi
        have hnodup' : (names cs).Nodup := by
          rw [names, List.map_cons, List.filter_cons] at hnodup
          split_ifs at hnodup
          · exact (List.nodup_cons.1 hnodup).2
          · exact hnodup
        rw [List.set_cons_succ, List.set_cons_succ, entries, entries, List.filterMap_append,
          ih hi' (by simpa using hv) hnodup']
        congr 1
        cases hd : entryOf d w with
        | none => rfl
        | some e =>
          have he : f e = some e := by
            refine hother e fun heq => ?_
            simp only [entryOf] at hd
            split_ifs at hd with hd0
            obtain ⟨x, -, rfl⟩ := Option.map_eq_some_iff.1 hd
            have hmem : c.1 ∈ names cs :=
              mem_names.2 ⟨hc, c.2, List.mem_of_getElem? hi'⟩
            rw [names, List.map_cons, List.filter_cons, if_pos (by simpa using hd0)] at hnodup
            exact (List.nodup_cons.1 hnodup).1 (heq ▸ hmem)
          simp [he]

/-- The entry of a name, through its number. -/
theorem find_entries {i : ℕ} {c : ℕ × ℕ} {v : V} (hi : cs[i]? = some c)
    (hv : vals[i]? = some (some v)) (hc : c.1 ≠ 0) (hnodup : (names cs).Nodup) :
    (entries cs vals).find? (fun e => e.1 = c.1) = some (c.1, c.2, v) := by
  induction cs generalizing vals i with
  | nil => simp at hi
  | cons d cs ih =>
    cases vals with
    | nil => simp at hv
    | cons w vals =>
      cases i with
      | zero =>
        have hd : d = c := by simpa using hi
        have hw : w = some v := by simpa using hv
        subst hd hw
        simp [entries, entryOf, hc]
      | succ i =>
        have hi' : cs[i]? = some c := by simpa using hi
        rw [names, List.map_cons, List.filter_cons] at hnodup
        rw [entries, List.find?_append]
        have hhead : (entryOf d w).toList.find? (fun e => e.1 = c.1) = none := by
          cases hd : entryOf d w with
          | none => rfl
          | some e =>
            simp only [entryOf] at hd
            split_ifs at hd with hd0
            obtain ⟨x, -, rfl⟩ := Option.map_eq_some_iff.1 hd
            rw [if_pos (by simpa using hd0)] at hnodup
            have hmem : c.1 ∈ names cs :=
              mem_names.2 ⟨hc, c.2, List.mem_of_getElem? hi'⟩
            have hne : d.1 ≠ c.1 := fun heq => (List.nodup_cons.1 hnodup).1 (heq ▸ hmem)
            simp [hne]
        rw [hhead, Option.none_or]
        refine ih hi' (by simpa using hv) ?_
        split_ifs at hnodup
        · exact (List.nodup_cons.1 hnodup).2
        · exact hnodup

/-- The entries from an index on, the first of them and the rest. -/
theorem entries_drop {i : ℕ} {c : ℕ × ℕ} {v : Option V} (hv : vals[i]? = some v) :
    entries (c :: cs) (vals.drop i) = (entryOf c v).toList ++ entries cs (vals.drop (i + 1)) := by
  obtain ⟨hlt, rfl⟩ := List.getElem?_eq_some_iff.1 hv
  rw [List.drop_eq_getElem_cons hlt, entries]

/-- The loop of `compact_properties`: the entries that are left move to the front with their
values. -/
theorem compactLoop_spec (rest : List ShapeProperty) (vals : List (Option V)) {i : ℕ}
    {t : List ShapeProperty × List ℕ} (ht : TableOK t) (hle : t.1.length ≤ i)
    (hvals : i + rest.length ≤ vals.length) (hlen : t.1.length + rest.length ≤ 2 ^ 26)
    (hwritten : Written (t.1.map ShapeProperty.content) vals)
    (hrest : ∀ k pr, rest[k]? = some pr → pr.atom ≠ 0 → ∃ x, vals[i + k]? = some (some x)) :
    ∃ t' vals', compactLoop rest i t vals = some (t', vals') ∧ TableOK t' ∧
      t'.2.length = t.2.length ∧ vals'.length = vals.length ∧
      t'.1.map ShapeProperty.content = t.1.map ShapeProperty.content ++
        (rest.map ShapeProperty.content).filter (fun c => c.1 ≠ 0) ∧
      Written (t'.1.map ShapeProperty.content) vals' ∧
      entries (t'.1.map ShapeProperty.content) vals' =
        entries (t.1.map ShapeProperty.content) vals ++
          entries (rest.map ShapeProperty.content) (vals.drop i) := by
  induction rest generalizing i t vals with
  | nil => exact ⟨t, vals, rfl, ht, rfl, rfl, by simp, hwritten, by simp [entries]⟩
  | cons pr rest ih =>
    simp only [List.length_cons] at hvals hlen
    have hi : i < vals.length := by omega
    have hnext : ∀ k q, rest[k]? = some q → q.atom ≠ 0 →
        ∃ x, vals[i + 1 + k]? = some (some x) := fun k q hk hq => by
      obtain ⟨x, hx⟩ := hrest (k + 1) q (by simpa using hk) hq
      exact ⟨x, by rwa [add_right_comm, add_assoc]⟩
    rw [compactLoop, List.map_cons, entries_drop (List.getElem?_eq_getElem hi)]
    split_ifs with hpr
    · obtain ⟨t', vals', hrun, hok, hsize, hlen', hcont, hwr, hent⟩ :=
        ih _ ht (hle.trans (Nat.le_succ i)) (by omega) (by omega) hwritten hnext
      refine ⟨t', vals', hrun, hok, hsize, hlen', ?_, hwr, ?_⟩
      · rw [hcont]
        simp [ShapeProperty.content, hpr]
      · rw [hent]
        simp [entryOf, ShapeProperty.content, hpr]
    · obtain ⟨x, hx⟩ := hrest 0 pr rfl hpr
      have hvi : vals[i] = some x := by
        rw [add_zero, List.getElem?_eq_getElem hi] at hx
        exact Option.some_inj.1 hx
      rw [List.getElem?_eq_getElem hi]
      dsimp only
      rw [hvi]
      have hj : t.1.length < vals.length := by omega
      have hj' : (t.1.map ShapeProperty.content).length < vals.length := by simpa using hj
      have happ := hwritten.append (pr.atom, pr.flags) x hj'
      rw [List.length_map, ← content_insertHashed] at happ
      have hset : ∀ k, i < k → (vals.set t.1.length (some x))[k]? = vals[k]? := fun k hk =>
        List.getElem?_set_ne (by omega)
      obtain ⟨t', vals', hrun, hok, hsize, hlen', hcont, hwr, hent⟩ :=
        ih _ (i := i + 1) (ht.insertHashed hpr pr.flags (by omega)) (by simpa using hle)
          (by simp; omega) (by simp; omega) happ (fun k q hk hq => by
            rw [hset _ (by omega)]
            exact hnext k q hk hq)
      refine ⟨t', vals', hrun, hok, hsize.trans (length_insertHashed_snd _ _ _),
        hlen'.trans (by simp), ?_, hwr, ?_⟩
      · rw [hcont, content_insertHashed]
        simp [ShapeProperty.content, hpr]
      · have hfront := entries_append (pr.atom, pr.flags) (some x) hj'
        rw [List.length_map] at hfront
        have hdrop : (vals.set t.1.length (some x)).drop (i + 1) = vals.drop (i + 1) := by
          rw [List.drop_set, if_pos (by omega)]
        rw [hent, content_insertHashed, hfront, hdrop, List.append_assoc]
        rfl

end

/-! ## Shapes -/

/-- Names and flags of a shape. -/
def Shape.contents (sh : Shape) : List (ℕ × ℕ) := sh.prop.map ShapeProperty.content

/-- The layout of a shape: its table is right, no name comes twice, the table has at least as many
heads as there is room for entries, and the flags and counts tell the truth. -/
structure Shape.Laid (sh : Shape) : Prop where
  table : TableOK (sh.prop, sh.propHash)
  nodup : (names sh.contents).Nodup
  size : sh.prop.length ≤ sh.propSize
  load : sh.propSize ≤ sh.propHash.length
  deleted : sh.deletedPropCount = sh.contents.countP fun c => c.1 = 0
  whole : sh.isHashed = true → sh.deletedPropCount = 0
  small : sh.hasSmallArrayIndex = false → ∀ c ∈ sh.contents, isTaggedInt c.1 = false
  bound : sh.prop.length < 2 ^ 26

/-- A shape as the operations leave it: deleted entries are few, or half of the others at most. -/
structure Shape.WellFormed (sh : Shape) : Prop extends sh.Laid where
  few : sh.deletedPropCount < 8 ∨ sh.deletedPropCount < sh.prop.length / 2

/-- The fields that are not about the layout. -/
theorem Shape.WellFormed.withHeader {sh : Shape} (h : sh.WellFormed) {isHashed : Bool}
    (hhash : isHashed = true → sh.isHashed = true) (hash : UInt32) (refCount : ℕ)
    (proto : Option Ref) : { sh with isHashed, hash, refCount, proto }.WellFormed :=
  ⟨⟨h.table, h.nodup, h.size, h.load, h.deleted, fun hh => h.whole (hhash hh), h.small, h.bound⟩,
    h.few⟩

/-- A shape is well formed also where it left the table. -/
theorem Shape.WellFormed.unhashed {sh : Shape} (h : sh.WellFormed) :
    { sh with isHashed := false }.WellFormed :=
  h.withHeader (by simp) sh.hash sh.refCount sh.proto

/-- A new property has a name. -/
theorem names_append (cs : List (ℕ × ℕ)) {c : ℕ × ℕ} (hc : c.1 ≠ 0) :
    names (cs ++ [c]) = names cs ++ [c.1] := by
  simp [names, hc]

/-- The table grows until the new size fits. -/
theorem le_growHashSize {fuel size newSize : ℕ} (h : newSize ≤ size * 2 ^ fuel) :
    newSize ≤ growHashSize fuel size newSize := by
  induction fuel generalizing size with
  | zero => simpa [growHashSize] using h
  | succ fuel ih =>
    rw [growHashSize]
    split_ifs with hlt
    · exact ih (by rw [pow_succ] at h; linarith)
    · exact not_lt.1 hlt

/-- The table does not shrink by growing. -/
theorem size_le_growHashSize (fuel size newSize : ℕ) : size ≤ growHashSize fuel size newSize := by
  induction fuel generalizing size with
  | zero => exact le_rfl
  | succ fuel ih =>
    rw [growHashSize]
    split_ifs
    · exact (Nat.le_mul_of_pos_left size two_pos).trans (ih _)
    · exact le_rfl

/-- The table shrinks no further than the properties that it holds. -/
theorem le_shrinkHashSize {fuel size newSize : ℕ} (h : newSize ≤ size) :
    newSize ≤ shrinkHashSize fuel size newSize := by
  induction fuel generalizing size with
  | zero => exact h
  | succ fuel ih =>
    rw [shrinkHashSize]
    split_ifs with hle
    · exact ih hle
    · exact h

/-- A property is appended at the end. -/
theorem Shape.contents_append (sh : Shape) (atom flags : ℕ) :
    (sh.append atom flags).contents = sh.contents ++ [(atom, flags)] := by
  simp [Shape.contents, Shape.append]

/-- Appending a new name keeps a shape well formed where there is room. -/
theorem Shape.WellFormed.append {sh : Shape} (h : sh.WellFormed) {atom : ℕ} (hatom : atom ≠ 0)
    (flags : ℕ) (hnew : atom ∉ names sh.contents) (hroom : sh.prop.length < sh.propSize)
    (hbound : sh.prop.length + 1 < 2 ^ 26) : (sh.append atom flags).WellFormed := by
  have hlen : (sh.append atom flags).prop.length = sh.prop.length + 1 := by simp [Shape.append]
  refine ⟨⟨?_, ?_, ?_, ?_, ?_, h.whole, ?_, hlen ▸ hbound⟩, ?_⟩
  · exact h.table.insertHashed hatom flags h.bound
  · rw [sh.contents_append, names_append _ hatom]
    exact h.nodup.append (List.nodup_singleton _) (by simpa using hnew)
  · rw [hlen]
    exact hroom
  · simpa [Shape.append] using h.load
  · rw [sh.contents_append]
    simpa [hatom, Shape.append] using h.deleted
  · intro hsmall c hc
    have hs : sh.hasSmallArrayIndex = false ∧ isTaggedInt atom = false := by
      simpa [Shape.append] using hsmall
    rw [sh.contents_append] at hc
    rcases List.mem_append.1 hc with hc | hc
    · exact h.small hs.1 c hc
    · rw [List.mem_singleton.1 hc]
      exact hs.2
  · have hdel : (sh.append atom flags).deletedPropCount = sh.deletedPropCount := rfl
    have hfew := h.few
    omega

/-- More room. -/
theorem Shape.WellFormed.resize {sh : Shape} (h : sh.WellFormed) (newSize : ℕ)
    (hle : sh.prop.length ≤ newSize) : (sh.resize newSize).WellFormed ∧
      (sh.resize newSize).contents = sh.contents ∧ (sh.resize newSize).propSize = newSize := by
  have hpos : 0 < sh.propHash.length := h.table.pos
  have hgrow : newSize ≤ growHashSize newSize sh.propHash.length newSize :=
    le_growHashSize ((Nat.lt_two_pow_self).le.trans (Nat.le_mul_of_pos_left _ hpos))
  unfold Shape.resize
  dsimp only
  split_ifs with hsize
  · obtain ⟨hok, hlen, hcont⟩ := tableOK_rehash sh.prop
      (hpos.trans_le (size_le_growHashSize newSize _ newSize)) h.bound.le
    have hlen' : (rehash (growHashSize newSize sh.propHash.length newSize) sh.prop).1.length =
        sh.prop.length := by simpa using congrArg List.length hcont
    refine ⟨⟨⟨hok, ?_, ?_, ?_, ?_, h.whole, ?_, ?_⟩, ?_⟩, hcont, rfl⟩
    · rw [Shape.contents, hcont]
      exact h.nodup
    · exact hlen'.trans_le hle
    · exact hgrow.trans_eq hlen.symm
    · rw [Shape.contents, hcont]
      exact h.deleted
    · intro hsmall c hc
      rw [Shape.contents, hcont] at hc
      exact h.small hsmall c hc
    · exact hlen'.trans_lt h.bound
    · rw [hlen']
      exact h.few
  · refine ⟨⟨⟨h.table, h.nodup, hle, ?_, h.deleted, h.whole, h.small, h.bound⟩, h.few⟩, rfl, rfl⟩
    exact hgrow.trans_eq (not_not.1 hsize)

/-- A deleted entry takes its name with it. -/
theorem names_set_zero {cs : List (ℕ × ℕ)} {i : ℕ} :
    (names (cs.set i (0, 0))).Sublist (names cs) := by
  induction cs generalizing i with
  | nil => simp
  | cons c cs ih =>
    cases i with
    | zero =>
      rw [List.set_cons_zero]
      simp only [names, List.map_cons, List.filter_cons]
      split_ifs
      · simp_all
      · simp_all
      · exact List.sublist_cons_self _ _
      · exact List.Sublist.refl _
    | succ i =>
      rw [List.set_cons_succ]
      have := ih (i := i)
      simp only [names, List.map_cons, List.filter_cons] at this ⊢
      split_ifs
      · exact this.cons_cons _
      · exact this

/-- An entry is deleted. -/
theorem Shape.Laid.remove {sh : Shape} (h : sh.Laid) (hhashed : sh.isHashed = false)
    {l₁ l₂ : List ℕ} {i : ℕ} {pr : ShapeProperty} (hi : sh.prop[i]? = some pr) (hatom : pr.atom ≠ 0)
    (hl : members (hashOf sh.propHash.length sh.prop) sh.prop.length
      (pr.atom &&& (sh.propHash.length - 1)) = l₁ ++ i :: l₂) :
    (sh.remove l₁.getLast? i pr).Laid := by
  obtain ⟨hlen, hlenh⟩ := sh.length_remove l₁.getLast? i pr
  have hcont : (sh.remove l₁.getLast? i pr).contents = sh.contents.set i (0, 0) :=
    sh.content_remove l₁.getLast? i pr
  have hlt : i < sh.contents.length := by
    simpa [Shape.contents] using (List.getElem?_eq_some_iff.1 hi).1
  have hget : sh.contents[i] = pr.content := by
    have := (List.getElem?_eq_some_iff.1 hi).2
    simp [Shape.contents, this]
  refine ⟨h.table.remove hi hl, ?_, ?_, ?_, ?_, ?_, ?_, ?_⟩
  · rw [hcont]
    exact h.nodup.sublist names_set_zero
  · rw [hlen]
    exact h.size
  · rw [hlenh]
    exact h.load
  · rw [hcont, List.countP_set hlt, hget]
    simp [ShapeProperty.content, hatom, Shape.remove, h.deleted]
  · intro hh
    rw [show (sh.remove l₁.getLast? i pr).isHashed = sh.isHashed from rfl, hhashed] at hh
    cases hh
  · intro hsmall c hc
    rw [hcont] at hc
    rcases List.mem_or_eq_of_mem_set hc with hc | rfl
    · exact h.small hsmall c hc
    · rfl
  · rw [hlen]
    exact h.bound

/-- A property gets other flags. -/
theorem Shape.WellFormed.setFlags {sh : Shape} (h : sh.WellFormed) (i flags : ℕ) :
    let sh' := { sh with prop := sh.prop.modify i fun pr => { pr with flags } }
    sh'.WellFormed ∧ sh'.contents = sh.contents.modify i fun c => (c.1, flags) := by
  intro sh'
  have hcont : sh'.contents = sh.contents.modify i fun c => (c.1, flags) := by
    refine List.ext_getElem? fun j => ?_
    simp only [sh', Shape.contents, List.getElem?_map, List.getElem?_modify]
    cases sh.prop[j]? with
    | none => simp
    | some q => by_cases hij : i = j <;> simp [hij, ShapeProperty.content]
  have hfst : sh'.contents.map Prod.fst = sh.contents.map Prod.fst := by
    rw [hcont]
    refine List.ext_getElem? fun j => ?_
    simp only [List.getElem?_map, List.getElem?_modify]
    cases sh.contents[j]? with
    | none => simp
    | some q => by_cases hij : i = j <;> simp [hij]
  have hlen : sh'.prop.length = sh.prop.length := by simp [sh']
  have hentry : ∀ j, nextOf sh'.prop j = nextOf sh.prop j ∧
      ∀ size, hashOf size sh'.prop j = hashOf size sh.prop j := by
    intro j
    simp only [sh', nextOf, hashOf, List.getElem?_modify]
    cases sh.prop[j]? with
    | none => simp
    | some q => by_cases hij : i = j <;> simp [hij]
  refine ⟨⟨⟨⟨h.table.pos, ?_⟩, ?_, ?_, h.load, ?_, h.whole, ?_, ?_⟩, ?_⟩, hcont⟩
  · dsimp only
    rw [hlen]
    exact h.table.hashed.congr (fun j _ => (hentry j).1) fun j _ => (hentry j).2 _
  · rw [names, hfst]
    exact h.nodup
  · rw [hlen]
    exact h.size
  · have hcount : ∀ cs : List (ℕ × ℕ), cs.countP (fun c => c.1 = 0) =
        (cs.map Prod.fst).countP (· = 0) := fun cs => by rw [List.countP_map]; rfl
    rw [hcount, hfst, ← hcount]
    exact h.deleted
  · intro hsmall c hc
    have hmem : c.1 ∈ sh.contents.map Prod.fst := hfst ▸ List.mem_map_of_mem hc
    obtain ⟨d, hd, hdc⟩ := List.mem_map.1 hmem
    rw [← hdc]
    exact h.small hsmall d hd
  · rw [hlen]
    exact h.bound
  · rw [hlen]
    exact h.few

end Shapes

end QuickjsDart
