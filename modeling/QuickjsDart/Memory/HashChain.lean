import Mathlib.Data.List.Nodup
import Mathlib.Data.List.Range
import Mathlib.Tactic.SplitIfs

/-!
# Hash tables with chained entries

The entries lie in an array in the order in which they came. A table has for each hash value the
head of a chain: the number of its newest entry plus one, or zero. Each entry links to the next
older one of its chain in the same way.

`Hashed` says that the chain of a hash value has all entries with it, the newest first. Entries are
put in front (`Hashed.push`), passed over (`Hashed.skip`) and taken out (`Hashed.remove_head`,
`Hashed.remove_behind`), and a search along the chain finds what is there (`Links.locate_cases`).
-/

namespace Memory

/-- The chain that starts at a link. -/
inductive Links (next : ℕ → ℕ) : ℕ → List ℕ → Prop
  | nil : Links next 0 []
  | cons {i : ℕ} {l : List ℕ} : Links next (next i) l → Links next (i + 1) (i :: l)

/-- The search along a chain. An entry says whether it is the one, and which is next; the result has
the entry before it as well. `none` is a search without end, or one that leaves the array. -/
def locate (entry : ℕ → Option (Bool × ℕ)) : ℕ → Option ℕ → ℕ → Option (Option (Option ℕ × ℕ))
  | _, _, 0 => some none
  | 0, _, _ + 1 => none
  | fuel + 1, last, i + 1 =>
    match entry i with
    | none => none
    | some (true, _) => some (some (last, i))
    | some (false, next) => locate entry fuel (some i) next

section

variable {next next' : ℕ → ℕ} {h : ℕ} {l : List ℕ}

/-- The search ends. It finds the first entry of the chain that is the one, or there is none. -/
theorem Links.locate_cases (hl : Links next h l) {p : ℕ → Bool} {entry : ℕ → Option (Bool × ℕ)}
    (hentry : ∀ i ∈ l, entry i = some (p i, next i)) {fuel : ℕ} (hf : l.length ≤ fuel)
    (last : Option ℕ) :
    (locate entry fuel last h = some none ∧ ∀ i ∈ l, p i = false) ∨
      ∃ l₁ i l₂, l = l₁ ++ i :: l₂ ∧ p i = true ∧
        locate entry fuel last h = some (some (l₁.getLast?.or last, i)) := by
  induction hl generalizing fuel last with
  | nil =>
    refine .inl ⟨?_, fun i hi => absurd hi List.not_mem_nil⟩
    cases fuel <;> rfl
  | @cons i l _ ih =>
    cases fuel with
    | zero => simp at hf
    | succ fuel =>
      rw [locate, hentry i List.mem_cons_self]
      cases hp : p i with
      | true => exact .inr ⟨[], i, l, rfl, hp, by simp⟩
      | false =>
        dsimp only
        have hrest : ∀ j ∈ l, entry j = some (p j, next j) := fun j hj =>
          hentry j (List.mem_cons_of_mem i hj)
        rcases ih hrest (by simpa using hf) (some i) with ⟨hnone, hall⟩ | ⟨l₁, j, l₂, hl, hj, hsome⟩
        · refine .inl ⟨hnone, fun j hj => ?_⟩
          rcases List.mem_cons.1 hj with rfl | hj
          · exact hp
          · exact hall j hj
        · refine .inr ⟨i :: l₁, j, l₂, by rw [hl, List.cons_append], hj, ?_⟩
          rw [hsome]
          cases l₁ with
          | nil => rfl
          | cons k l₁ => simp [List.getLast?_cons]

/-- A chain depends on its own links only. -/
theorem Links.congr (hl : Links next h l) (hnext : ∀ i ∈ l, next' i = next i) :
    Links next' h l := by
  induction hl with
  | nil => exact .nil
  | @cons i l _ ih =>
    refine .cons ?_
    rw [hnext i List.mem_cons_self]
    exact ih fun j hj => hnext j (List.mem_cons_of_mem i hj)

/-- What follows the head of a chain is a chain. -/
theorem Links.tail {i : ℕ} (hl : Links next h (i :: l)) : h = i + 1 ∧ Links next (next i) l := by
  cases hl with
  | cons hrest => exact ⟨rfl, hrest⟩

/-- The entry behind `a` is taken out. -/
theorem Links.unlink {a i : ℕ} {l₁ l₂ : List ℕ} (hl : Links next h (l₁ ++ a :: i :: l₂))
    (hnodup : (l₁ ++ a :: i :: l₂).Nodup) (hset : next' a = next i)
    (hnext : ∀ j, j ≠ a → next' j = next j) : Links next' h (l₁ ++ a :: l₂) := by
  induction l₁ generalizing h with
  | nil =>
    obtain ⟨rfl, hrest⟩ := hl.tail
    refine .cons ?_
    rw [hset]
    refine hrest.tail.2.congr fun j hj => hnext j ?_
    rintro rfl
    exact (List.nodup_cons.1 hnodup).1 (List.mem_cons_of_mem i hj)
  | cons j l₁ ih =>
    obtain ⟨rfl, hrest⟩ := hl.tail
    obtain ⟨hj, hnodup⟩ := List.nodup_cons.1 hnodup
    refine .cons ?_
    rw [hnext j fun hja => hj (by simp [hja])]
    exact ih hrest hnodup

end

/-! ## Tables -/

/-- The entries with a hash value, the newest first. -/
def members (hashOf : ℕ → Option ℕ) (n b : ℕ) : List ℕ :=
  ((List.range n).filter fun i => hashOf i = some b).reverse

section

variable {hashOf hashOf' : ℕ → Option ℕ} {n b : ℕ}

/-- The members of a bucket are the indices that hash to it. -/
theorem mem_members {i : ℕ} : i ∈ members hashOf n b ↔ i < n ∧ hashOf i = some b := by
  simp [members]

/-- No index is in a bucket twice. -/
theorem nodup_members : (members hashOf n b).Nodup :=
  List.nodup_reverse.2 (List.nodup_range.filter _)

/-- A bucket has no more members than there are indices. -/
theorem length_members_le : (members hashOf n b).length ≤ n := by
  rw [members, List.length_reverse]
  exact (List.length_filter_le _ _).trans_eq List.length_range

/-- A bucket depends on the hashes only. -/
theorem members_congr (hhash : ∀ i < n, hashOf' i = hashOf i) :
    members hashOf' n b = members hashOf n b := by
  rw [members, members]
  congr 1
  refine List.filter_congr fun i hi => ?_
  rw [hhash i (List.mem_range.1 hi)]

/-- A new index is a member of its own bucket only. -/
theorem members_succ :
    members hashOf (n + 1) b = if hashOf n = some b then n :: members hashOf n b
      else members hashOf n b := by
  rw [members, List.range_succ, List.filter_append, List.reverse_append]
  split_ifs with hn <;> simp [hn, members]

/-- One entry less. -/
theorem members_free {i : ℕ} (hi : hashOf' i = none)
    (hhash : ∀ j, j ≠ i → hashOf' j = hashOf j) :
    members hashOf' n b = (members hashOf n b).filter (· ≠ i) := by
  rw [members, members, List.filter_reverse, List.filter_filter]
  congr 1
  refine List.filter_congr fun j _ => ?_
  by_cases hj : j = i
  · simp [hj, hi]
  · simp [hj, hhash j hj]

end

/-- The table has every entry that has a hash value, and no other. -/
structure Hashed (heads : List ℕ) (next : ℕ → ℕ) (hashOf : ℕ → Option ℕ) (n : ℕ) : Prop where
  links : ∀ b hd, heads[b]? = some hd → Links next hd (members hashOf n b)
  inside : ∀ i < n, ∀ b, hashOf i = some b → b < heads.length

section

variable {heads heads' : List ℕ} {next next' : ℕ → ℕ} {hashOf hashOf' : ℕ → Option ℕ} {n b hd : ℕ}

/-- A table of empty chains. -/
theorem hashed_zero (next : ℕ → ℕ) (hashOf : ℕ → Option ℕ) (size : ℕ) :
    Hashed (List.replicate size 0) next hashOf 0 := by
  refine ⟨fun b hd hb => ?_, fun i hi => absurd hi (Nat.not_lt_zero i)⟩
  rw [List.eq_of_mem_replicate (List.mem_of_getElem? hb)]
  exact .nil

/-- A table depends on the links and hashes of its indices only. -/
theorem Hashed.congr (hh : Hashed heads next hashOf n) (hnext : ∀ i < n, next' i = next i)
    (hhash : ∀ i < n, hashOf' i = hashOf i) : Hashed heads next' hashOf' n := by
  refine ⟨fun b hd hb => ?_, fun i hi b hb => hh.inside i hi b (hhash i hi ▸ hb)⟩
  rw [members_congr hhash]
  exact (hh.links b hd hb).congr fun i hi => hnext i (mem_members.1 hi).1

/-- A new entry at the head of its chain. -/
theorem Hashed.push (hh : Hashed heads next hashOf n) (hb : heads[b]? = some hd)
    (hnext : ∀ i < n, next' i = next i) (hnew : next' n = hd)
    (hhash : ∀ i < n, hashOf' i = hashOf i) (hkey : hashOf' n = some b) :
    Hashed (heads.set b (n + 1)) next' hashOf' (n + 1) := by
  have hlt : b < heads.length := (List.getElem?_eq_some_iff.1 hb).1
  refine ⟨fun b' hd' hb' => ?_, fun i hi b' hb' => ?_⟩
  · have hold : ∀ hd₀, heads[b']? = some hd₀ → Links next' hd₀ (members hashOf' n b') :=
      (hh.congr hnext hhash).links b'
    rw [List.getElem?_set] at hb'
    rw [members_succ, hkey]
    split_ifs at hb' with hbb
    · cases hb'
      rw [if_pos (by rw [hbb])]
      refine .cons ?_
      rw [hnew]
      exact hold hd (hbb ▸ hb)
    · rw [if_neg (by simpa using hbb)]
      exact hold hd' hb'
  · rw [List.length_set]
    rcases Nat.lt_succ_iff_lt_or_eq.1 hi with hi | rfl
    · exact hh.inside i hi b' (hhash i hi ▸ hb')
    · rw [hkey] at hb'
      cases hb'
      exact hlt

/-- A new entry that is free. -/
theorem Hashed.skip (hh : Hashed heads next hashOf n) (hnext : ∀ i < n, next' i = next i)
    (hhash : ∀ i < n, hashOf' i = hashOf i) (hkey : hashOf' n = none) :
    Hashed heads next' hashOf' (n + 1) := by
  have hold := hh.congr hnext hhash
  refine ⟨fun b' hd' hb' => ?_, fun i hi b' hb' => ?_⟩
  · rw [members_succ, hkey, if_neg (by simp)]
    exact hold.links b' hd' hb'
  · rcases Nat.lt_succ_iff_lt_or_eq.1 hi with hi | rfl
    · exact hold.inside i hi b' hb'
    · rw [hkey] at hb'
      cases hb'

/-- The entry at the head of a chain is taken out. -/
theorem Hashed.remove_head (hh : Hashed heads next hashOf n) {i : ℕ}
    (hb : heads[b]? = some (i + 1)) (hi : hashOf' i = none)
    (hhash : ∀ j, j ≠ i → hashOf' j = hashOf j) :
    Hashed (heads.set b (next i)) next hashOf' n := by
  have hlt : b < heads.length := (List.getElem?_eq_some_iff.1 hb).1
  have hchain := hh.links b _ hb
  obtain ⟨l, hl⟩ : ∃ l, members hashOf n b = i :: l := by
    generalize members hashOf n b = l at hchain
    cases hchain with
    | cons hrest => exact ⟨_, rfl⟩
  have hib : hashOf i = some b := (mem_members.1 (hl ▸ List.mem_cons_self)).2
  refine ⟨fun b' hd' hb' => ?_, fun j hj b' hb' => ?_⟩
  · rw [List.getElem?_set] at hb'
    rw [members_free hi hhash]
    split_ifs at hb' with hbb
    · cases hb'
      subst hbb
      have hnodup : (i :: l).Nodup := hl ▸ nodup_members
      have hrest : (members hashOf n b).filter (· ≠ i) = l := by
        rw [hl, List.filter_cons_of_neg (by simp)]
        exact List.filter_eq_self.2 fun j hj => by
          simpa using fun hji : j = i => (List.nodup_cons.1 hnodup).1 (hji ▸ hj)
      rw [hrest]
      rw [hl] at hchain
      exact hchain.tail.2
    · rw [List.filter_eq_self.2]
      · exact hh.links b' hd' hb'
      · intro j hj
        have hjb := (mem_members.1 hj).2
        simpa using fun hji : j = i => hbb (Option.some_inj.1 (hib.symm.trans (hji ▸ hjb)))
  · rw [List.length_set]
    have hji : j ≠ i := fun hji => by
      rw [hji, hi] at hb'
      cases hb'
    exact hh.inside j hj b' (hhash j hji ▸ hb')

/-- The entry behind `a` is taken out. -/
theorem Hashed.remove_behind (hh : Hashed heads next hashOf n) {a i : ℕ} {l₁ l₂ : List ℕ}
    (hb : b < heads.length) (hl : members hashOf n b = l₁ ++ a :: i :: l₂)
    (hset : next' a = next i) (hnext : ∀ j, j ≠ a → next' j = next j) (hi : hashOf' i = none)
    (hhash : ∀ j, j ≠ i → hashOf' j = hashOf j) : Hashed heads next' hashOf' n := by
  have hnodup : (l₁ ++ a :: i :: l₂).Nodup := hl ▸ nodup_members
  have hmem : ∀ j ∈ l₁ ++ a :: i :: l₂, hashOf j = some b := fun j hj =>
    (mem_members.1 (hl ▸ hj)).2
  refine ⟨fun b' hd' hb' => ?_, fun j hj b' hb' => ?_⟩
  · rw [members_free hi hhash]
    by_cases hbb : b' = b
    · subst hbb
      have hchain := hh.links b' hd' hb'
      rw [hl] at hchain ⊢
      have hrest : (l₁ ++ a :: i :: l₂).filter (· ≠ i) = l₁ ++ a :: l₂ := by
        have hperm : (l₁ ++ a :: i :: l₂).Nodup := hnodup
        simp only [List.nodup_append, List.nodup_cons, List.mem_cons] at hperm
        rw [List.filter_append, List.filter_cons_of_pos, List.filter_cons_of_neg,
          List.filter_eq_self.2, List.filter_eq_self.2]
        · intro j hj
          simpa using fun hji : j = i => hperm.2.1.2.1 (hji ▸ hj)
        · intro j hj
          simpa using hperm.2.2 j hj i (by simp)
        · simp
        · simpa using fun hai : a = i => hperm.2.1.1 (.inl hai)
      rw [hrest]
      exact hchain.unlink hnodup hset hnext
    · rw [List.filter_eq_self.2]
      · refine (hh.links b' hd' hb').congr fun j hj => hnext j ?_
        rintro rfl
        have hjb := (mem_members.1 hj).2
        exact hbb (Option.some_inj.1 (hjb.symm.trans (hmem j (by simp))))
      · intro j hj
        have hjb := (mem_members.1 hj).2
        simpa using fun hji : j = i =>
          hbb (Option.some_inj.1 (hjb.symm.trans (hji ▸ hmem i (by simp))))
  · have hji : j ≠ i := fun hji => by
      rw [hji, hi] at hb'
      cases hb'
    exact hh.inside j hj b' (hhash j hji ▸ hb')

end

end Memory
