import QuickjsDart.Marshal.Simulation

/-!
# Members and top-level values

`toJSVal` and the two loops of `createJSArray` and `createJSObject` each have their own type switch.
A member is converted as at top level exactly where it is `Uniform`: no `double`, which the loops
drop, and no `int` outside 32 bits, which they cut off. Where other keys of a map reach QuickJS
under the same name, the last entry that is not dropped decides (`toJSVal_member_iff`).
-/

namespace QuickjsDart

open Codec

/-! ## Reading a tree -/

/-- The tree of an own property. -/
def Node.get (n : Node Tree) (key : PropKey) : Option Tree := (findTree key n.props).map Prod.snd

/-- A member that was put is found, and the others as before. -/
theorem findTree_putTree (k key : PropKey) (p : Flags × Tree) (l : List (PropKey × Flags × Tree)) :
    findTree k (putTree key p l) = if k = key then some p else findTree k l := by
  induction l with
  | nil => simp [putTree, findTree, eq_comm]
  | cons q l ih =>
    obtain ⟨k', q⟩ := q
    rw [putTree]
    split_ifs with h₁ h₂ h₂
    · subst h₁; subst h₂
      simp [findTree]
    · subst h₁
      simp [findTree, Ne.symm h₂]
    · subst h₂
      simp [findTree, h₁, ih]
    · simp only [findTree, ih, if_neg h₂]

/-- The same of a node. -/
theorem Node.get_put (n : Node Tree) (k key : PropKey) (p : Flags × Tree) :
    (n.put key p).get k = if k = key then some p.2 else n.get k := by
  unfold Node.get Node.put
  rw [findTree_putTree]
  split_ifs <;> rfl

/-- An assignment reads back, but for that of `__proto__`. -/
theorem Node.get_set (n : Node Tree) {k : PropKey} (hk : k ≠ .name protoName) (key : PropKey)
    (t : Tree) : (n.set key t).get k = if k = key then some t else n.get k := by
  unfold Node.set
  split
  · exact n.get_put k key _
  · split_ifs with hproto he he
    · exact absurd (he.trans hproto) hk
    · cases t <;> rfl
    · rw [Node.get_put, if_pos he]
    · rw [Node.get_put, if_neg he]

/-- What a container holds for a member. -/
def memberTree : DartVal → Option Tree
  | .int k => some (.int (Int32.ofInt k.toInt))
  | .string s => some (.str (ffiString s))
  | .bool b => some (.bool b)
  | .list elems => (encodeElements .array 0 elems).map .node
  | .map entries => (encodeEntries .object entries).map .node
  | .handler h => some (.fn h)
  | _ => none

/-- One member changes one property. -/
theorem get_encodeMember {n n' : Node Tree} {name : PropName} {x : DartVal}
    (h : encodeMember n name x = some n') {k : PropKey} (hk : k ≠ .name protoName) :
    n'.get k = if k = name.key then (memberTree x).or (n.get k) else n.get k := by
  cases x with
  | int i => cases h; exact n.get_set hk _ _
  | string s => cases h; exact n.get_set hk _ _
  | bool b => cases h; exact n.get_set hk _ _
  | double d =>
    cases h
    simp [memberTree]
  | list elems =>
    obtain ⟨m, hm, rfl⟩ := Option.map_eq_some_iff.1 h
    rw [n.get_set hk, memberTree, hm]
    rfl
  | map entries =>
    obtain ⟨m, hm, rfl⟩ := Option.map_eq_some_iff.1 h
    rw [n.get_set hk, memberTree, hm]
    rfl
  | handler g =>
    rw [encodeMember] at h
    split_ifs at h
    cases h
    rw [n.get_put]
    rfl
  | _ => cases h

/-- The members of a container, one after the other. -/
def encodeMembers (n : Node Tree) (ms : List (PropName × DartVal)) : Option (Node Tree) :=
  ms.foldlM (fun n p => encodeMember n p.1 p.2) n

/-- The first member, then the rest. -/
theorem encodeMembers_cons (n : Node Tree) (p : PropName × DartVal)
    (ms : List (PropName × DartVal)) :
    encodeMembers n (p :: ms) = (encodeMember n p.1 p.2).bind fun n => encodeMembers n ms := by
  simp only [encodeMembers, List.foldlM_cons]
  rfl

/-- The members of a list, named by their indices. -/
def indexed (i : ℕ) : List DartVal → List (PropName × DartVal)
  | [] => []
  | x :: rest => (.int (Int64.ofNat i), x) :: indexed (i + 1) rest

/-- The members of a map, named by their keys. -/
def keyed (entries : List (Option Utf16 × DartVal)) : List (PropName × DartVal) :=
  entries.map fun p => (p.1.elim .null .string, p.2)

/-- The loop over elements is one over members. -/
theorem encodeElements_eq (n : Node Tree) (i : ℕ) (elems : List DartVal) :
    encodeElements n i elems = encodeMembers n (indexed i elems) := by
  induction elems generalizing n i with
  | nil => rw [encodeElements]; rfl
  | cons x rest ih =>
    rw [encodeElements, indexed, encodeMembers_cons]
    exact Option.bind_congr fun m _ => ih m (i + 1)

/-- The loop over entries is one over members. -/
theorem encodeEntries_eq (n : Node Tree) (entries : List (Option Utf16 × DartVal)) :
    encodeEntries n entries = encodeMembers n (keyed entries) := by
  induction entries generalizing n with
  | nil => rw [encodeEntries]; rfl
  | cons p rest ih =>
    obtain ⟨key, x⟩ := p
    rw [encodeEntries, keyed, List.map_cons, encodeMembers_cons]
    exact Option.bind_congr fun m _ => ih m

/-- Members of other names leave a property alone. -/
theorem get_encodeMembers_of_ne {n n' : Node Tree} {ms : List (PropName × DartVal)}
    (h : encodeMembers n ms = some n') {k : PropKey} (hk : k ≠ .name protoName)
    (hne : ∀ p ∈ ms, p.1.key ≠ k) : n'.get k = n.get k := by
  induction ms generalizing n with
  | nil => cases h; rfl
  | cons p ms ih =>
    rw [encodeMembers_cons] at h
    obtain ⟨m, hm, hrest⟩ := Option.bind_eq_some_iff.1 h
    rw [ih hrest fun q hq => hne q (List.mem_cons_of_mem _ hq), get_encodeMember hm hk,
      if_neg (hne p List.mem_cons_self).symm]

/-- The only member of a name is what the property holds. -/
theorem get_encodeMembers {n n' : Node Tree} {pre post : List (PropName × DartVal)}
    {p : PropName × DartVal} (h : encodeMembers n (pre ++ p :: post) = some n')
    (hk : p.1.key ≠ .name protoName) (hpre : ∀ q ∈ pre, q.1.key ≠ p.1.key)
    (hpost : ∀ q ∈ post, q.1.key ≠ p.1.key) (hn : n.get p.1.key = none) :
    n'.get p.1.key = memberTree p.2 := by
  obtain ⟨m, hm, h⟩ :
      ∃ m, encodeMembers n pre = some m ∧ encodeMembers m (p :: post) = some n' := by
    rw [encodeMembers, List.foldlM_append] at h
    exact Option.bind_eq_some_iff.1 h
  rw [encodeMembers_cons] at h
  obtain ⟨m', hm', h⟩ := Option.bind_eq_some_iff.1 h
  rw [get_encodeMembers_of_ne h hk hpost, get_encodeMember hm' hk, if_pos rfl,
    get_encodeMembers_of_ne hm hk hpre, hn, Option.or_none]

/-- What is no array does not become one. -/
theorem len_encodeMembers {n n' : Node Tree} {ms : List (PropName × DartVal)}
    (h : encodeMembers n ms = some n') (hn : n.len = none) : n'.len = none := by
  induction ms generalizing n with
  | nil => cases h; exact hn
  | cons p ms ih =>
    rw [encodeMembers_cons] at h
    obtain ⟨m, hm, hrest⟩ := Option.bind_eq_some_iff.1 h
    exact ih hrest (len_encodeMember hm hn)

/-! ## Names of members -/

/-- A member of a list has its index as name. -/
theorem mem_indexed {p : PropName × DartVal} {i : ℕ} {l : List DartVal} (h : p ∈ indexed i l) :
    ∃ j, i ≤ j ∧ j < i + l.length ∧ p.1 = .int (Int64.ofNat j) := by
  induction l generalizing i with
  | nil => cases h
  | cons x rest ih =>
    rcases List.mem_cons.1 h with rfl | h
    · exact ⟨i, le_rfl, by simp, rfl⟩
    · obtain ⟨j, hle, hlt, hj⟩ := ih h
      rw [List.length_cons]
      exact ⟨j, by omega, by omega, hj⟩

/-- Elements are indexed from where the first part ends. -/
theorem indexed_append (i : ℕ) (l m : List DartVal) :
    indexed i (l ++ m) = indexed i l ++ indexed (i + l.length) m := by
  induction l generalizing i with
  | nil => simp [indexed]
  | cons x rest ih =>
    simp only [List.cons_append, indexed, ih, List.length_cons]
    rw [Nat.add_right_comm, Nat.add_assoc]

/-- An index is truncated to 32 bits. -/
theorem toInt_ofNat_bmod {j : ℕ} (h : j < 2 ^ 32) :
    (Int32.ofInt (Int64.ofNat j).toInt).toInt = (j : ℤ).bmod (2 ^ 32) := by
  have h₁ : (Int64.ofNat j).toInt = j := by
    rw [Int64.toInt_ofNat', Int64.size, Int.bmod_eq_of_le (by omega) (by omega)]
  rw [h₁, Int32.toInt_ofInt]
  rfl

/-- An index that fits 31 bits is the element's. -/
theorem key_index {j : ℕ} (h : j < 2 ^ 31) : (PropName.int (Int64.ofNat j)).key = .index j := by
  have h₁ := toInt_ofNat_bmod (show j < 2 ^ 32 by omega)
  rw [Int.bmod_eq_of_le (by omega) (by omega)] at h₁
  rw [PropName.key, PropKey.ofInt32, h₁, if_pos (by omega), Int.toNat_natCast]

/-- A larger one comes out as a negative number. -/
theorem key_index_of_le {j : ℕ} (h : 2 ^ 31 ≤ j) (hlt : j < 2 ^ 32) :
    ∃ s, (PropName.int (Int64.ofNat j)).key = .name (0x2D :: s) := by
  have h₁ := toInt_ofNat_bmod hlt
  have h₂ : (j : ℤ).bmod (2 ^ 32) = j - 2 ^ 32 := by
    rw [Int.bmod_def, Int.emod_eq_of_lt (by omega) (by omega), if_neg (by omega)]
    rfl
  refine ⟨asciiUnits ((natDigits (j - 2 ^ 32 : ℤ).natAbs).map digitChar), ?_⟩
  rw [PropName.key, PropKey.ofInt32, h₁, h₂, if_neg (by omega)]
  rfl

/-- No other member of a list has an element's key. -/
theorem key_index_inj {i j : ℕ} (hj : j < 2 ^ 32) (hne : j ≠ i) :
    (PropName.int (Int64.ofNat j)).key ≠ .index i := by
  rcases Nat.lt_or_ge j (2 ^ 31) with h | h
  · rw [key_index h]
    rintro ⟨⟩
    exact hne rfl
  · obtain ⟨s, hs⟩ := key_index_of_le h hj
    rw [hs]
    exact nofun

/-- The text of a number has digits only. -/
theorem natText_ne {u : UInt16} (hu : u.toNat < 0x30 ∨ 0x39 < u.toNat) (n : ℕ) (s : Utf16) :
    natText n ≠ u :: s := by
  intro h
  have hmem : u ∈ natText n := h ▸ List.mem_cons_self
  obtain ⟨c, hc, rfl⟩ := List.mem_map.1 hmem
  obtain ⟨d, -, rfl⟩ := List.mem_map.1 hc
  have hd := d.isLt
  rw [digitChar, UInt16.toNat_ofNat', Nat.mod_eq_of_lt (by omega)] at hu
  omega

/-- Members of a list have no key of a large index. -/
theorem key_index_ne_ofNat {i j : ℕ} (hi : ¬ i < 2 ^ 31) (hj : j < 2 ^ 32) :
    (PropName.int (Int64.ofNat j)).key ≠ .ofNat i := by
  rw [PropKey.ofNat, if_neg hi]
  rcases Nat.lt_or_ge j (2 ^ 31) with h | h
  · rw [key_index h]
    exact nofun
  · obtain ⟨s, hs⟩ := key_index_of_le h hj
    rw [hs]
    intro h
    injection h with h
    exact natText_ne (.inl (by decide)) i s h.symm

/-- No index is `length`. -/
theorem PropKey.ofNat_ne_length (i : ℕ) : PropKey.ofNat i ≠ .name lengthName := by
  unfold PropKey.ofNat
  split_ifs
  · exact nofun
  · intro h
    injection h with h
    exact natText_ne (.inr (by decide)) i _ h

/-- No index is `__proto__`. -/
theorem PropKey.ofNat_ne_proto (i : ℕ) : PropKey.ofNat i ≠ .name protoName := by
  unfold PropKey.ofNat
  split_ifs
  · exact nofun
  · intro h
    injection h with h
    exact natText_ne (.inr (by decide)) i _ h

/-- An index has a text. -/
theorem PropKey.text_ofNat (i : ℕ) : (PropKey.ofNat i).text ≠ none := by
  unfold PropKey.ofNat
  split_ifs <;> exact nofun

/-- What a list's array holds at an index. -/
theorem get_encodeElements {l : List DartVal} {i : ℕ} {x : DartVal} {n : Node Tree}
    (hx : l[i]? = some x) (hlen : l.length ≤ 2 ^ 32) (h : encodeElements .array 0 l = some n) :
    n.get (.ofNat i) = if i < 2 ^ 31 then memberTree x else none := by
  rw [encodeElements_eq] at h
  obtain ⟨hi, hxi⟩ := List.getElem?_eq_some_iff.1 hx
  split_ifs with hlt
  · have hkey : (PropName.int (Int64.ofNat i)).key = .ofNat i := by
      rw [key_index hlt, PropKey.ofNat, if_pos hlt]
    have hl : l = l.take i ++ x :: l.drop (i + 1) := by
      rw [← hxi, List.getElem_cons_drop, List.take_append_drop]
    have htake : (l.take i).length = i := List.length_take_of_le hi.le
    rw [hl, indexed_append, htake, Nat.zero_add, indexed] at h
    rw [← hkey]
    refine get_encodeMembers h (by rw [hkey]; exact PropKey.ofNat_ne_proto i) ?_ ?_ rfl
    · intro q hq
      obtain ⟨j, -, hj, hq⟩ := mem_indexed hq
      rw [hq, key_index hlt]
      exact key_index_inj (by omega) (by omega)
    · intro q hq
      obtain ⟨j, hj₀, hj, hq⟩ := mem_indexed hq
      rw [List.length_drop] at hj
      rw [hq, key_index hlt]
      exact key_index_inj (by omega) (by omega)
  · refine get_encodeMembers_of_ne h (PropKey.ofNat_ne_proto i) ?_
    intro q hq
    obtain ⟨j, -, hj, hq⟩ := mem_indexed hq
    rw [hq]
    exact key_index_ne_ofNat hlt (by omega)

/-- The name under which a key reaches QuickJS. -/
def entryKey (key : Option Utf16) : PropKey := (key.elim PropName.null .string).key

/-- What a map's object holds under the name of one entry only. -/
theorem get_encodeEntries {m : List (Option Utf16 × DartVal)} {key : Option Utf16} {x : DartVal}
    {n : Node Tree} (hx : m.filter (fun p => entryKey p.1 = entryKey key) = [(key, x)])
    (hk : entryKey key ≠ .name protoName) (h : encodeEntries .object m = some n) :
    n.get (entryKey key) = memberTree x := by
  rw [encodeEntries_eq] at h
  obtain ⟨pre, post, rfl, hpre, hpost⟩ : ∃ pre post, m = pre ++ (key, x) :: post ∧
      (∀ p ∈ pre, entryKey p.1 ≠ entryKey key) ∧ ∀ p ∈ post, entryKey p.1 ≠ entryKey key := by
    obtain ⟨pre, post, hm, hpre, -, hpost⟩ := List.filter_eq_cons_iff.1 hx
    refine ⟨pre, post, hm, fun p hp => by simpa using hpre p hp, fun p hp => ?_⟩
    have := List.filter_eq_nil_iff.1 hpost p hp
    simpa using this
  rw [keyed, List.map_append, List.map_cons] at h
  refine get_encodeMembers h hk ?_ ?_ rfl
  · intro q hq
    obtain ⟨p, hp, rfl⟩ := List.mem_map.1 hq
    exact hpre p hp
  · intro q hq
    obtain ⟨p, hp, rfl⟩ := List.mem_map.1 hq
    exact hpost p hp

/-- The loops have no case for a `double`. -/
def DartVal.Dropped : DartVal → Bool
  | .double _ => true
  | _ => false

/-- The last entry under a name that is not dropped. -/
def lastWrite (key : PropKey) : List (Option Utf16 × DartVal) → Option DartVal
  | [] => none
  | (k, y) :: rest =>
    (lastWrite key rest).or (if entryKey k = key ∧ y.Dropped = false then some y else none)

/-- A member that is converted has a tree, unless it is dropped. -/
theorem memberTree_eq_none_iff {n n' : Node Tree} {name : PropName} {y : DartVal}
    (h : encodeMember n name y = some n') : memberTree y = none ↔ y.Dropped = true := by
  cases y with
  | int | string | bool | handler => exact iff_of_false nofun nofun
  | double => exact iff_of_true rfl rfl
  | list elems =>
    obtain ⟨m, hm, -⟩ := Option.map_eq_some_iff.1 h
    refine iff_of_false (fun hnone => ?_) nofun
    rw [memberTree, hm] at hnone
    cases hnone
  | map entries =>
    obtain ⟨m, hm, -⟩ := Option.map_eq_some_iff.1 h
    refine iff_of_false (fun hnone => ?_) nofun
    rw [memberTree, hm] at hnone
    cases hnone
  | _ => cases h

/-- What a map's object holds under a name: what the last entry gave it, or what was there. -/
theorem get_encodeEntries_lastWrite {m : List (Option Utf16 × DartVal)} {key : PropKey}
    {n n' : Node Tree} (hk : key ≠ .name protoName) (h : encodeEntries n m = some n') :
    n'.get key = ((lastWrite key m).bind memberTree).or (n.get key) ∧
      ∀ y, lastWrite key m = some y → memberTree y ≠ none := by
  induction m generalizing n with
  | nil =>
    cases h
    exact ⟨rfl, nofun⟩
  | cons p rest ih =>
    obtain ⟨k, y⟩ := p
    rw [encodeEntries] at h
    obtain ⟨n₁, hn₁, hrest⟩ := Option.bind_eq_some_iff.1 h
    obtain ⟨hget, htree⟩ := ih hrest
    have hone : n₁.get key = if entryKey k = key then (memberTree y).or (n.get key)
        else n.get key := by
      rw [get_encodeMember hn₁ hk]
      exact if_congr eq_comm rfl rfl
    rw [lastWrite]
    cases hlast : lastWrite key rest with
    | some z =>
      refine ⟨?_, fun w hw => htree w (hlast.trans hw)⟩
      obtain ⟨t, ht⟩ := Option.ne_none_iff_exists'.1 (htree z hlast)
      rw [hget, hlast, Option.some_or, Option.bind_some, ht, Option.some_or, Option.some_or]
    | none =>
      rw [hget, hlast, hone, Option.none_or, Option.bind_none, Option.none_or]
      have hdrop := memberTree_eq_none_iff hn₁
      by_cases hkey : entryKey k = key
      · rw [if_pos hkey]
        cases hd : y.Dropped with
        | true =>
          rw [if_neg (by simp), hdrop.2 hd]
          exact ⟨rfl, nofun⟩
        | false =>
          rw [if_pos ⟨hkey, rfl⟩]
          refine ⟨rfl, fun w hw => ?_⟩
          cases hw
          rw [Ne, hdrop, hd]
          exact nofun
      · rw [if_neg hkey, if_neg fun hboth => hkey hboth.1]
        exact ⟨rfl, nofun⟩

/-! ## One tree for a value -/

/-- The class tells the length. -/
theorem Node.len_eq_of_cls {n m : Node Tree} (h : n.cls = m.cls) : n.len = m.len := by
  unfold Node.cls at h
  cases hn : n.len with
  | none =>
    cases hm : m.len with
    | none => rfl
    | some _ => rw [hn, hm] at h; cases h
  | some _ =>
    cases hm : m.len with
    | none => rw [hn, hm] at h; cases h
    | some _ => rw [hn, hm] at h; cases h; rfl

/-- A container is no function. -/
theorem Node.cls_ne_function (n : Node Tree) (kind : FunKind) : n.cls ≠ .function kind := by
  unfold Node.cls
  cases n.len <;> exact nofun

/-- The prototype of a class is one of the first cells. -/
theorem Node.classProto_le (n : Node Tree) : n.classProto ≤ arrayPrototype := by
  unfold Node.classProto
  cases n.len
  · exact Nat.zero_le _
  · exact le_rfl

/-- Nodes with the same parts are one tree. -/
theorem Node.tree_congr {n m : Node Tree} (hlen : n.len = m.len) (hproto : n.proto = m.proto)
    (hprops : n.props = m.props) : Tree.node n = Tree.node m := by
  cases n; cases m
  cases hlen; cases hproto; cases hprops
  rfl

/-- What an object denotes begins at its cell. -/
theorem Denotes.le {vm : VM} {lo : ℕ} {r : Ref} {t : Tree} (h : Denotes vm lo (.object r) t) :
    lo ≤ r := by
  cases h <;> assumption

mutual

/-- A value above the built-in prototypes is one tree. -/
theorem Denotes.unique {vm : VM} (hreg : Registered vm) {lo lo' : ℕ} (hlo : arrayPrototype < lo)
    {v : JSValue} {t t' : Tree} : Denotes vm lo v t → Denotes vm lo' v t' → t = t'
  | .int, h => by cases h; rfl
  | .float64, h => by cases h; rfl
  | .bool, h => by cases h; rfl
  | .str, h => by cases h; rfl
  | .fn _ ho hc hg, h => by
    cases h with
    | fn _ _ _ hg' => exact congrArg Tree.fn (hreg _ hg _ hg' rfl)
    | plain _ ho' hc' | derived _ ho' hc' =>
      have heq := Option.some_inj.1 (ho'.symm.trans ho)
      rw [heq, hc] at hc'
      exact absurd hc'.symm (Node.cls_ne_function _ _)
  | @Denotes.plain _ _ r _ n hle ho hc _ hq hn hl, h => by
    have hlt : arrayPrototype < r + 1 := Nat.lt_succ_of_lt (hlo.trans_le hle)
    cases h with
    | fn _ ho' hc' =>
      have heq := Option.some_inj.1 (ho'.symm.trans ho)
      rw [heq, hc] at hc'
      exact absurd hc' (Node.cls_ne_function _ _)
    | plain _ ho' hc' _ _ hn' hl' =>
      have heq := Option.some_inj.1 (ho'.symm.trans ho)
      rw [heq] at hl' hc'
      exact Node.tree_congr (Node.len_eq_of_cls (hc.symm.trans hc')) (hn.trans hn'.symm)
        (hl.unique hreg hlt hl')
    | derived _ ho' _ _ hq' _ hd' _ =>
      have heq := Option.some_inj.1 (ho'.symm.trans ho)
      rw [heq, hq] at hq'
      have hle' := hd'.le
      have hproto := n.classProto_le
      rw [Option.some_inj.1 hq'] at hproto
      exact absurd (hle'.trans hproto) (Nat.not_le_of_lt hlt)
  | @Denotes.derived _ _ r _ n q m hle ho hc _ hq hn hd hl, h => by
    have hlt : arrayPrototype < r + 1 := Nat.lt_succ_of_lt (hlo.trans_le hle)
    cases h with
    | fn _ ho' hc' =>
      have heq := Option.some_inj.1 (ho'.symm.trans ho)
      rw [heq, hc] at hc'
      exact absurd hc' (Node.cls_ne_function _ _)
    | @plain _ _ _ n' _ ho' _ _ hq' _ _ =>
      have heq := Option.some_inj.1 (ho'.symm.trans ho)
      rw [heq, hq] at hq'
      have hle' := hd.le
      have hproto := n'.classProto_le
      rw [← Option.some_inj.1 hq'] at hproto
      exact absurd (hle'.trans hproto) (Nat.not_le_of_lt hlt)
    | derived _ ho' hc' _ hq' hn' hd' hl' =>
      have heq := Option.some_inj.1 (ho'.symm.trans ho)
      rw [heq] at hl' hc' hq'
      rw [← Option.some_inj.1 (hq.symm.trans hq')] at hd'
      refine Node.tree_congr (Node.len_eq_of_cls (hc.symm.trans hc')) ?_ (hl.unique hreg hlt hl')
      rw [hn, hn', hd.unique hreg hlt hd']

/-- Properties denote one list of members. The proof is by the derivation of the first. -/
theorem DenotesProps.unique {vm : VM} (hreg : Registered vm) {lo lo' : ℕ}
    (hlo : arrayPrototype < lo) {l : List (PropKey × Slot)} {m m' : List (PropKey × Flags × Tree)} :
    DenotesProps vm lo l m → DenotesProps vm lo' l m' → m = m'
  | .nil, h => by cases h; rfl
  | .cons _ _ hv hl, h => by
    cases h with
    | cons _ _ hv' hl' => rw [hv.unique hreg hlo hv', hl.unique hreg hlo hl']

end

/-! ## Agreement -/

/-- The value of an own property. -/
def ownValue (vm : VM) (v : JSValue) (key : PropKey) : Option JSValue :=
  match v with
  | .object r =>
    match (vm.heap.obj? r).bind fun o => o.getOwn key with
    | some (.data w _) => some w
    | _ => none
  | _ => none

/-- Two values, each in its state, are the same number, string or boolean, hooks of the same
handler, or structurally equal objects. -/
def SameValue (vm₁ : VM) (v₁ : JSValue) (vm₂ : VM) (v₂ : JSValue) : Prop :=
  ∃ t, Denotes vm₁ 0 v₁ t ∧ Denotes vm₂ 0 v₂ t

/-- The container has a member of that key, and it is the same value as `v`. -/
def SameMember (vm₁ : VM) (v : JSValue) (vm₂ : VM) (container : JSValue) (key : PropKey) : Prop :=
  ∃ w, ownValue vm₂ container key = some w ∧ SameValue vm₁ v vm₂ w

/-- The values that the three type switches convert alike. -/
def DartVal.Uniform : DartVal → Prop
  | .double _ => False
  | .int n => -2 ^ 31 ≤ n.toInt ∧ n.toInt < 2 ^ 31
  | _ => True

/-- Own properties of a converted object. -/
theorem ownValue_of_denotes {vm : VM} {lo : ℕ} {r : Ref} {n : Node Tree} {key : PropKey}
    (h : Denotes vm lo (.object r) (.node n)) (hkey : n.Takes key) :
    (n.get key = none ∧ ownValue vm (.object r) key = none) ∨
      ∃ t w, n.get key = some t ∧ ownValue vm (.object r) key = some w ∧ Denotes vm lo w t := by
  obtain ⟨hlo, o, ho, hcls, -, -, hl⟩ := denotes_node_iff.1 h
  have hown := Node.getOwn_eq hcls hkey
  cases hm : findTree key n.props with
  | none =>
    refine .inl ⟨by rw [Node.get, hm]; rfl, ?_⟩
    simp [ownValue, ho, hown, hl.find_eq_none.1 hm]
  | some p =>
    obtain ⟨w, hw, -, -, hd⟩ := hl.find hm
    refine .inr ⟨p.2, w, by rw [Node.get, hm]; rfl, ?_, hd.mono (hlo.trans (Nat.le_succ r))⟩
    simp [ownValue, ho, hown, hw]

/-- A uniform value has one tree, wherever it stands. -/
theorem memberTree_of_uniform {x : DartVal} {t : Tree} (hu : x.Uniform) (h : encode x = some t) :
    memberTree x = some t := by
  cases x with
  | int n =>
    rw [DartVal.Uniform] at hu
    rw [encode, intValue, if_pos hu] at h
    exact h
  | double d => exact hu.elim
  | string s => exact h
  | bool b => exact h
  | list elems => exact h
  | map entries => exact h
  | _ => cases h

variable (env : Env)

/-- A container that holds what its loop makes of `x` agrees with the conversion of `x` where that
is uniform. -/
theorem sameMember_iff {x : DartVal} {vm vm₁ vm₂ : VM} {v : JSValue} {lo : ℕ} {r : Ref}
    {n : Node Tree} {key : PropKey} (hi : Intact vm.heap vm.heap.length)
    (hx : toJSVal env x vm = .ok v vm₁) (hd : Denotes vm₂ lo (.object r) (.node n))
    (hkey : n.Takes key) (hget : n.get key = memberTree x) :
    SameMember vm₁ v vm₂ (.object r) key ↔ x.Uniform := by
  obtain ⟨t, ht, hv⟩ := denotes_of_toJSVal env hi hx
  constructor
  · rintro ⟨w, hw, t', hv', hw'⟩
    rcases ownValue_of_denotes hd hkey with ⟨-, hnone⟩ | ⟨u, w₁, hu, hw₁, hdw⟩
    · rw [hnone] at hw
      cases hw
    rw [hget] at hu
    rw [hw₁] at hw
    cases hw
    cases x with
    | double d => cases hu
    | int k =>
      -- the member is a 32-bit number, and `v` would be a float
      by_contra hne
      rw [DartVal.Uniform] at hne
      rw [toJSVal_int, intValue, if_neg hne] at hx
      cases hx
      cases hu
      cases hdw
      cases hv'
      cases hw'
    | _ => trivial
  · intro hu
    have hm := memberTree_of_uniform hu ht
    rcases ownValue_of_denotes hd hkey with ⟨hnone, -⟩ | ⟨u, w, hu, hw, hdw⟩
    · rw [hget, hm] at hnone
      cases hnone
    · rw [hget, hm] at hu
      cases hu
      exact ⟨w, hw, t, hv.mono (Nat.zero_le _), hdw.mono (Nat.zero_le _)⟩

/-- The loop makes of the first value what `toJSVal` makes of the second. -/
def DartVal.ConvertsAs (y x : DartVal) : Prop := memberTree y = encode x

/-- A member is the conversion of `x` exactly where it is the tree of it. -/
theorem sameMember_iff_encode {x : DartVal} {vm vm₁ vm₂ : VM} {v : JSValue} {lo : ℕ} {r : Ref}
    {n : Node Tree} {key : PropKey} (hi : Intact vm.heap vm.heap.length)
    (hx : toJSVal env x vm = .ok v vm₁) (hlo : arrayPrototype < lo)
    (hd : Denotes vm₂ lo (.object r) (.node n)) (hkey : n.Takes key) (hreg₁ : Registered vm₁)
    (hreg₂ : Registered vm₂) :
    SameMember vm₁ v vm₂ (.object r) key ↔ n.get key = encode x := by
  obtain ⟨t, ht, hv⟩ := denotes_of_toJSVal env hi hx
  rw [ht]
  constructor
  · rintro ⟨w, hw, t', hv', hw'⟩
    rcases ownValue_of_denotes hd hkey with ⟨-, hnone⟩ | ⟨u, w₁, hu, hw₁, hdw⟩
    · rw [hnone] at hw
      cases hw
    · rw [hw₁] at hw
      cases hw
      rw [hu, hv.unique hreg₁ hi.bound hv', hdw.unique hreg₂ hlo hw']
  · intro hget
    rcases ownValue_of_denotes hd hkey with ⟨hnone, -⟩ | ⟨u, w, hu, hw, hdw⟩
    · rw [hnone] at hget
      cases hget
    · rw [hu] at hget
      cases hget
      exact ⟨w, hw, t, hv.mono (Nat.zero_le _), hdw.mono (Nat.zero_le _)⟩

/-- The object that a container is converted to. -/
theorem exists_node_of_toJSVal {x : DartVal} {vm vm' : VM} {v : JSValue} {m : Option (Node Tree)}
    (hi : Intact vm.heap vm.heap.length) (h : toJSVal env x vm = .ok v vm')
    (hx : encode x = m.map .node) :
    ∃ r n, v = .object r ∧ m = some n ∧ Denotes vm' vm.heap.length (.object r) (.node n) := by
  obtain ⟨t, ht, hd⟩ := denotes_of_toJSVal env hi h
  rw [hx] at ht
  obtain ⟨n, hm, rfl⟩ := Option.map_eq_some_iff.1 ht
  obtain ⟨r, rfl⟩ : ∃ r, v = .object r := by cases hd <;> exact ⟨_, rfl⟩
  exact ⟨r, n, rfl, hm, hd⟩

/-- Another name without `U+0000` is not taken for `__proto__`. -/
theorem entryKey_ne_proto {k : Utf16} (hk : k ≠ protoName) (h₀ : 0 ∉ k) :
    entryKey (some k) ≠ .name protoName := by
  intro h
  have hname : ffiString k = protoName := by
    simp only [entryKey, Option.elim_some, PropName.key, PropKey.ofString] at h
    split at h
    · split_ifs at h
      injection h
    · injection h
  exact hk (eq_of_ffiString_eq hname h₀ (by decide))

/-- **Members and top-level values.** A member of a list or of a map is the value that `toJSVal`
makes of it alone exactly where it is uniform. In a list it also has to be at an index of 31 bits,
which `newInt32` leaves as it is. In a map this is so where no other key reaches QuickJS under the
same name; where there are others, the last entry under it that is not dropped has to be converted
to the same. -/
theorem toJSVal_member_iff {x : DartVal} {vm vm₁ : VM} {v : JSValue}
    (hi : Intact vm.heap vm.heap.length) (hx : toJSVal env x vm = .ok v vm₁) :
    (∀ (l : List DartVal) (i : ℕ) (vm' vm₂ : VM) (a : JSValue), l[i]? = some x →
      l.length ≤ 2 ^ 32 → Intact vm'.heap vm'.heap.length →
      toJSVal env (.list l) vm' = .ok a vm₂ →
      (SameMember vm₁ v vm₂ a (.ofNat i) ↔ x.Uniform ∧ i < 2 ^ 31)) ∧
    (∀ (m : List (Option Utf16 × DartVal)) (k : Utf16) (vm' vm₂ : VM) (a : JSValue),
      m.filter (fun p => entryKey p.1 = entryKey (some k)) = [(some k, x)] →
      k ≠ protoName → 0 ∉ k → Intact vm'.heap vm'.heap.length →
      toJSVal env (.map m) vm' = .ok a vm₂ →
      (SameMember vm₁ v vm₂ a (entryKey (some k)) ↔ x.Uniform)) ∧
    ∀ (m : List (Option Utf16 × DartVal)) (k : Utf16) (vm' vm₂ : VM) (a : JSValue),
      k ≠ protoName → 0 ∉ k → Intact vm'.heap vm'.heap.length →
      toJSVal env (.map m) vm' = .ok a vm₂ → Registered vm₁ → Registered vm₂ →
      (SameMember vm₁ v vm₂ a (entryKey (some k)) ↔
        ∃ y, lastWrite (entryKey (some k)) m = some y ∧ y.ConvertsAs x) := by
  refine ⟨?_, ?_, ?_⟩
  · intro l i vm' vm₂ a hl hlen hi' hrun
    obtain ⟨r, n, rfl, hn, hd⟩ := exists_node_of_toJSVal env hi' hrun rfl
    have hget := get_encodeElements hl hlen hn
    have hkey : n.Takes (.ofNat i) := ⟨PropKey.text_ofNat i, .inr (PropKey.ofNat_ne_length i)⟩
    by_cases hlt : i < 2 ^ 31
    · rw [if_pos hlt] at hget
      rw [sameMember_iff env hi hx hd hkey hget]
      exact (and_iff_left hlt).symm
    · rw [if_neg hlt] at hget
      refine ⟨?_, fun h => absurd h.2 hlt⟩
      rintro ⟨w, hw, -⟩
      rcases ownValue_of_denotes hd hkey with ⟨-, hnone⟩ | ⟨t, w₁, ht, -⟩
      · rw [hnone] at hw
        cases hw
      · rw [hget] at ht
        cases ht
  · intro m k vm' vm₂ a hm hk h₀ hi' hrun
    obtain ⟨r, n, rfl, hn, hd⟩ := exists_node_of_toJSVal env hi' hrun rfl
    have hget := get_encodeEntries hm (entryKey_ne_proto hk h₀) hn
    rw [encodeEntries_eq] at hn
    exact sameMember_iff env hi hx hd ⟨PropName.text_key _, .inl (len_encodeMembers hn rfl)⟩ hget
  · intro m k vm' vm₂ a hk h₀ hi' hrun hreg₁ hreg₂
    obtain ⟨r, n, rfl, hn, hd⟩ := exists_node_of_toJSVal env hi' hrun rfl
    have hget := (get_encodeEntries_lastWrite (entryKey_ne_proto hk h₀) hn).1
    rw [show Node.object.get (entryKey (some k)) = none from rfl, Option.or_none] at hget
    rw [encodeEntries_eq] at hn
    have htakes : n.Takes (entryKey (some k)) :=
      ⟨PropName.text_key _, .inl (len_encodeMembers hn rfl)⟩
    rw [sameMember_iff_encode env hi hx hi'.bound hd htakes hreg₁ hreg₂, hget]
    obtain ⟨t, ht, -⟩ := denotes_of_toJSVal env hi hx
    unfold DartVal.ConvertsAs
    cases lastWrite (entryKey (some k)) m with
    | none =>
      rw [Option.bind_none, ht]
      exact iff_of_false nofun nofun
    | some y => exact ⟨fun h => ⟨y, rfl, h⟩, fun ⟨z, hz, h⟩ => by cases hz; exact h⟩

/-- The number `1.5`. -/
def oneAndHalf : Binary64 := .fin false (3 * 2 ^ 51) (-52) (by decide)

/-- Members next to others, one of them dropped; and the entry of a key that reaches QuickJS under
the same name, which is the one that is read back. -/
theorem toJSVal_member_true :
    Intact VM.bare.heap VM.bare.heap.length ∧
      toJSVal Env.bare (.bool true) VM.bare = .ok (.bool true) VM.bare ∧
      (∃ a vm₂, toJSVal Env.bare (.list [.int 7, .double oneAndHalf, .bool true]) VM.bare
          = .ok a vm₂ ∧ SameMember VM.bare (.bool true) vm₂ a (.ofNat 2)) ∧
      (∃ a vm₂, toJSVal Env.bare (.map [(some [0x61], .bool true), (some [0x62], .int 2)]) VM.bare
          = .ok a vm₂ ∧ SameMember VM.bare (.bool true) vm₂ a (entryKey (some [0x61]))) ∧
      ∃ a vm₂, toJSVal Env.bare (.map [(some [0x61], .bool true), (some [0x61, 0], .int 2)]) VM.bare
          = .ok a vm₂ ∧ ¬ SameMember VM.bare (.bool true) vm₂ a (entryKey (some [0x61])) := by
  have h := toJSVal_member_iff Env.bare intact_bare (x := .bool true) rfl
  obtain ⟨l, vm₁, hrun₁, -⟩ :=
    exists_toJSVal Env.bare (x := .list [.int 7, .double oneAndHalf, .bool true]) intact_bare rfl
  obtain ⟨a, vm₂, hrun, -⟩ := exists_toJSVal Env.bare
    (x := .map [(some [0x61], .bool true), (some [0x62], .int 2)]) intact_bare rfl
  have hrun₃ : ∃ b vm₃, toJSVal Env.bare
      (.map [(some [0x61], .bool true), (some [0x61, 0], .int 2)]) VM.bare = .ok b vm₃ ∧
        vm₃.registrations = [] := by
    simp only [toJSVal, createJSObject, setEntries, setMember, Option.elim_some]
    exact ⟨_, _, rfl, rfl⟩
  obtain ⟨b, vm₃, hrun₃, hnone⟩ := hrun₃
  have hreg : ∀ {vm : VM}, vm.registrations = [] → Registered vm := by
    intro vm hvm g hg
    rw [hvm] at hg
    cases hg
  refine ⟨intact_bare, rfl, ⟨l, vm₁, hrun₁, ?_⟩, ⟨a, vm₂, hrun, ?_⟩, b, vm₃, hrun₃, ?_⟩
  · exact (h.1 _ 2 VM.bare vm₁ l rfl (by decide) intact_bare hrun₁).2 ⟨trivial, by decide⟩
  · exact (h.2.1 _ [0x61] VM.bare vm₂ a rfl (by decide) (by decide)
      intact_bare hrun).2 trivial
  · rw [h.2.2 _ [0x61] VM.bare vm₃ b (by decide) (by decide) intact_bare hrun₃ (hreg rfl)
      (hreg hnone)]
    rintro ⟨y, hy, hconv⟩
    cases hy
    cases hconv

/-- `toJSVal([1.5])` has no element. -/
theorem toJSVal_member_dropped :
    ∃ v vm₁ a vm₂, toJSVal Env.bare (.double oneAndHalf) VM.bare = .ok v vm₁ ∧
      toJSVal Env.bare (.list [.double oneAndHalf]) VM.bare = .ok a vm₂ ∧
      ¬ SameMember vm₁ v vm₂ a (.ofNat 0) := by
  obtain ⟨a, vm₂, hrun, -, hd⟩ :=
    exists_toJSVal Env.bare (x := .list [.double oneAndHalf]) (t := .node .array) intact_bare rfl
  refine ⟨_, _, a, vm₂, rfl, hrun, ?_⟩
  obtain ⟨r, rfl⟩ : ∃ r, a = .object r := by cases hd <;> exact ⟨_, rfl⟩
  rintro ⟨w, hw, -⟩
  rcases ownValue_of_denotes hd ⟨PropKey.text_ofNat 0, .inr (PropKey.ofNat_ne_length 0)⟩ with
    ⟨-, hnone⟩ | ⟨t, w₁, ht, -⟩
  · rw [hnone] at hw
    cases hw
  · cases ht

end QuickjsDart
