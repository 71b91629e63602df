import QuickjsDart.Marshal.Members
import QuickjsDart.Nested

/-!
# The round trip

Dart data of 32-bit integers, booleans, strings, lists and maps goes through `toJSVal` and comes
back from `fromJSVal` as it was, maps as finite maps (`toJSVal_fromJSVal`).

A conversion of such data builds a tree without handlers and with its members in order. The cells of
that tree are plain data, whose JSON value has the members of a map in the order of QuickJS: array
indices first. `Renders` says what is left of the Dart value in that JSON value.
-/

namespace QuickjsDart

open Codec

/-! ## Data -/

/-- A string that both ways of crossing leave alone. -/
def Clean (s : Utf16) : Prop := WellFormed s ∧ 0 ∉ s

/-- The values of the round trip. -/
inductive DartVal.Data : DartVal → Prop where
  | int {n : Int64} : -2 ^ 31 ≤ n.toInt → n.toInt < 2 ^ 31 → Data (.int n)
  | bool (b : Bool) : Data (.bool b)
  | string {s : Utf16} : Clean s → Data (.string s)
  | list {elems : List DartVal} : (∀ x ∈ elems, Data x) → Data (.list elems)
  | map {entries : List (Option Utf16 × DartVal)} : (entries.map Prod.fst).Nodup →
      (∀ p ∈ entries, ∃ k, p.1 = some k ∧ Clean k ∧ k ≠ protoName) →
      (∀ p ∈ entries, Data p.2) → Data (.map entries)

/-- Structural equality: lists in order, and maps as finite maps. -/
inductive DartVal.Equal : DartVal → DartVal → Prop where
  | int (n : Int64) : Equal (.int n) (.int n)
  | bool (b : Bool) : Equal (.bool b) (.bool b)
  | string (s : Utf16) : Equal (.string s) (.string s)
  | list {l l' : List DartVal} : l.length = l'.length →
      (∀ (i : ℕ) x y, l[i]? = some x → l'[i]? = some y → Equal x y) → Equal (.list l) (.list l')
  | map {m m' : List (Option Utf16 × DartVal)} : (m.map Prod.fst).Perm (m'.map Prod.fst) →
      (∀ k x y, (k, x) ∈ m → (k, y) ∈ m' → Equal x y) → Equal (.map m) (.map m')

mutual

/-- The JSON value of Dart data, with maps in their own order. -/
def DartVal.json : DartVal → Json
  | .int n => .num (intNumeral n.toInt)
  | .bool b => .bool b
  | .string s => .str s
  | .list elems => .arr (elementsJson elems)
  | .map entries => .obj (entriesJson entries)
  | _ => .null

/-- The elements of a list, as JSON. -/
def elementsJson : List DartVal → List Json
  | [] => []
  | x :: rest => x.json :: elementsJson rest

/-- The entries of a map, as JSON. A key that is no string does not occur in data. -/
def entriesJson : List (Option Utf16 × DartVal) → List (Utf16 × Json)
  | [] => []
  | (key, x) :: rest => (key.getD [], x.json) :: entriesJson rest

end

/-- Element by element. -/
theorem elementsJson_eq (l : List DartVal) : elementsJson l = l.map DartVal.json := by
  induction l with
  | nil => rw [elementsJson]; rfl
  | cons x rest ih => rw [elementsJson, ih]; rfl

/-- Entry by entry. -/
theorem entriesJson_eq (m : List (Option Utf16 × DartVal)) :
    entriesJson m = m.map fun p => (p.1.getD [], p.2.json) := by
  induction m with
  | nil => rw [entriesJson]; rfl
  | cons p rest ih => rw [entriesJson, ih]; rfl

/-! ## The length of a text -/

/-- The number of units of a JSON text. -/
def textSize (j : Json) : ℕ := (ofCodePoints j.write).length

/-- The number of units of a quoted name. -/
def nameSize (s : Utf16) : ℕ := (ofCodePoints (Json.quote s)).length

/-- A character of the basic plane is one unit. -/
theorem length_ofCodePoints_cons {c : ℕ} (hc : c < 0x10000) (cs : List ℕ) :
    (ofCodePoints (c :: cs)).length = 1 + (ofCodePoints cs).length := by
  rw [ofCodePoints_cons, List.length_append, units, if_pos hc]
  rfl

/-- Characters become units part by part. -/
theorem length_ofCodePoints_append (cs ds : List ℕ) :
    (ofCodePoints (cs ++ ds)).length = (ofCodePoints cs).length + (ofCodePoints ds).length := by
  rw [ofCodePoints_append, List.length_append]

/-- The units of the rest of an array, with its closing bracket. -/
theorem length_writeElems (es : List Json) :
    (ofCodePoints (Json.writeElems es)).length = 1 + (es.map fun e => textSize e + 1).sum := by
  induction es with
  | nil => rw [Json.writeElems]; rfl
  | cons e es ih =>
    rw [Json.writeElems, length_ofCodePoints_cons (by decide), length_ofCodePoints_append, ih,
      List.map_cons, List.sum_cons, textSize]
    omega

/-- The units of the rest of an object, with its closing bracket. -/
theorem length_writeMembers (ms : List (Utf16 × Json)) :
    (ofCodePoints (Json.writeMembers ms)).length
      = 1 + (ms.map fun m => nameSize m.1 + textSize m.2 + 2).sum := by
  induction ms with
  | nil => rw [Json.writeMembers]; rfl
  | cons m ms ih =>
    rw [Json.writeMembers, length_ofCodePoints_cons (by decide), length_ofCodePoints_append,
      length_ofCodePoints_cons (by decide), length_ofCodePoints_append, ih, List.map_cons,
      List.sum_cons, textSize, nameSize]
    omega

/-- The size of an array, by those of its elements. -/
theorem textSize_arr (es : List Json) :
    textSize (.arr es) = 1 + max 1 (es.map fun e => textSize e + 1).sum := by
  cases es with
  | nil => rw [textSize, Json.write]; rfl
  | cons e es =>
    rw [textSize, Json.write, length_ofCodePoints_cons (by decide), length_ofCodePoints_append,
      length_writeElems, List.map_cons, List.sum_cons, textSize]
    omega

/-- The size of an object, by those of its members. -/
theorem textSize_obj (ms : List (Utf16 × Json)) :
    textSize (.obj ms) = 1 + max 1 (ms.map fun m => nameSize m.1 + textSize m.2 + 2).sum := by
  cases ms with
  | nil => rw [textSize, Json.write]; rfl
  | cons m ms =>
    rw [textSize, Json.write, length_ofCodePoints_cons (by decide), length_ofCodePoints_append,
      length_ofCodePoints_cons (by decide), length_ofCodePoints_append, length_writeMembers,
      List.map_cons, List.sum_cons, textSize, nameSize]
    omega

/-- Elements of a text that fits fit. -/
theorem TextFits.elem {es : List Json} {e : Json} (h : TextFits (.arr es)) (he : e ∈ es) :
    TextFits e := by
  have hsum := List.le_sum_of_mem (List.mem_map_of_mem (f := fun e => textSize e + 1) he)
  have hsize := textSize_arr es
  unfold TextFits at h ⊢
  unfold textSize at hsize hsum
  omega

/-- So do members. -/
theorem TextFits.member {ms : List (Utf16 × Json)} {m : Utf16 × Json} (h : TextFits (.obj ms))
    (hm : m ∈ ms) : TextFits m.2 := by
  have hsum := List.le_sum_of_mem
    (List.mem_map_of_mem (f := fun m => nameSize m.1 + textSize m.2 + 2) hm)
  have hsize := textSize_obj ms
  unfold TextFits at h ⊢
  unfold textSize at hsize hsum
  omega

/-- There are not more elements than units. -/
theorem TextFits.length_le {es : List Json} (h : TextFits (.arr es)) :
    es.length ≤ stringLenMax := by
  have hsum : es.length ≤ (es.map fun e => textSize e + 1).sum := by
    simp
  have hsize := textSize_arr es
  unfold TextFits at h
  unfold textSize at hsize hsum
  omega

/-- Elements are as deep as the deepest. -/
theorem depthElems_le {es : List Json} {d : ℕ} (h : ∀ e ∈ es, e.depth ≤ d) :
    Json.depthElems es ≤ d := by
  induction es with
  | nil => rw [Json.depthElems]; exact Nat.zero_le d
  | cons e es ih =>
    rw [Json.depthElems]
    exact max_le (h e List.mem_cons_self) (ih fun e' he => h e' (List.mem_cons_of_mem _ he))

/-- Members are as deep as the deepest. -/
theorem depthMembers_le {ms : List (Utf16 × Json)} {d : ℕ} (h : ∀ m ∈ ms, m.2.depth ≤ d) :
    Json.depthMembers ms ≤ d := by
  induction ms with
  | nil => rw [Json.depthMembers]; exact Nat.zero_le d
  | cons m ms ih =>
    rw [Json.depthMembers]
    exact max_le (h m List.mem_cons_self) (ih fun m' hm => h m' (List.mem_cons_of_mem _ hm))

/-! ## The tree of data -/

/-- A new key goes to the end. -/
theorem putTree_of_findTree_eq_none {key : PropKey} {l : List (PropKey × Flags × Tree)}
    (h : findTree key l = none) (p : Flags × Tree) : putTree key p l = l ++ [(key, p)] := by
  induction l with
  | nil => rfl
  | cons q l ih =>
    obtain ⟨k, q⟩ := q
    rw [findTree] at h
    split_ifs at h with hk
    rw [putTree, if_neg hk, ih h, List.cons_append]

/-- A key is found in the first part, or in the second. -/
theorem findTree_append (k : PropKey) (l m : List (PropKey × Flags × Tree)) :
    findTree k (l ++ m) = (findTree k l).or (findTree k m) := by
  induction l with
  | nil => rfl
  | cons p l ih =>
    rw [List.cons_append, findTree, findTree]
    split_ifs
    · rfl
    · exact ih

/-- A new name goes to the end. -/
theorem Node.set_of_new {n : Node Tree} {key : PropKey} (hk : key ≠ .name protoName)
    (hf : findTree key n.props = none) (t : Tree) :
    n.set key t = ⟨growLen key n.len, n.proto, n.props ++ [(key, .cwe, t)]⟩ := by
  unfold Node.set Node.put
  rw [hf]
  dsimp only
  rw [if_neg hk, putTree_of_findTree_eq_none hf]
  rfl

/-- A member that is converted and assigned. -/
theorem encodeMember_eq_set {x : DartVal} {t : Tree} (h : memberTree x = some t)
    (hfn : ∀ g, t ≠ .fn g) (n : Node Tree) (name : PropName) :
    encodeMember n name x = some (n.set name.key t) := by
  cases x with
  | int k => cases h; rfl
  | string s => cases h; rw [encodeMember]
  | bool b => cases h; rfl
  | list elems =>
    obtain ⟨m, hm, rfl⟩ := Option.map_eq_some_iff.1 h
    rw [encodeMember, hm]
    rfl
  | map entries =>
    obtain ⟨m, hm, rfl⟩ := Option.map_eq_some_iff.1 h
    rw [encodeMember, hm]
    rfl
  | handler g => cases h; exact absurd rfl (hfn g)
  | _ => cases h

/-- Members that are taken one by one are taken all. -/
theorem exists_encodeMembers {ms : List (PropName × DartVal)}
    (h : ∀ p ∈ ms, ∃ t, memberTree p.2 = some t ∧ ∀ g, t ≠ .fn g) (n : Node Tree) :
    ∃ n', encodeMembers n ms = some n' := by
  induction ms generalizing n with
  | nil => exact ⟨n, rfl⟩
  | cons p ms ih =>
    obtain ⟨t, ht, hfn⟩ := h p List.mem_cons_self
    rw [encodeMembers_cons, encodeMember_eq_set ht hfn]
    exact ih (fun q hq => h q (List.mem_cons_of_mem _ hq)) _

/-- What is indexed is an element. -/
theorem mem_of_mem_indexed {p : PropName × DartVal} {i : ℕ} {l : List DartVal}
    (h : p ∈ indexed i l) : p.2 ∈ l := by
  induction l generalizing i with
  | nil => cases h
  | cons x rest ih =>
    rcases List.mem_cons.1 h with rfl | h
    · exact List.mem_cons_self
    · exact List.mem_cons_of_mem _ (ih h)

/-- Data is converted, and is no function. -/
theorem DartVal.Data.exists_memberTree {x : DartVal} (hx : x.Data) :
    ∃ t, memberTree x = some t ∧ ∀ g, t ≠ .fn g := by
  induction hx with
  | int hlo hhi => exact ⟨_, rfl, nofun⟩
  | bool b => exact ⟨_, rfl, nofun⟩
  | string hs => exact ⟨_, rfl, nofun⟩
  | @list elems h ih =>
    have hms : ∀ p ∈ indexed 0 elems, ∃ t, memberTree p.2 = some t ∧ ∀ g, t ≠ .fn g := by
      intro p hp
      exact ih p.2 (mem_of_mem_indexed hp)
    obtain ⟨n, hn⟩ := exists_encodeMembers hms .array
    exact ⟨.node n, by rw [memberTree, encodeElements_eq, hn]; rfl, nofun⟩
  | @map entries hnd hkeys h ih =>
    have hms : ∀ p ∈ keyed entries, ∃ t, memberTree p.2 = some t ∧ ∀ g, t ≠ .fn g := by
      intro p hp
      obtain ⟨q, hq, rfl⟩ := List.mem_map.1 hp
      exact ih q hq
    obtain ⟨n, hn⟩ := exists_encodeMembers hms .object
    exact ⟨.node n, by rw [memberTree, encodeEntries_eq, hn]; rfl, nofun⟩

/-- What the members of a container with different names come to, in order. -/
theorem encodeMembers_of_nodup {ms : List (PropName × DartVal)} (ts : PropName × DartVal → Tree)
    (ht : ∀ p ∈ ms, memberTree p.2 = some (ts p) ∧ ∀ g, ts p ≠ .fn g)
    (hk : ∀ p ∈ ms, p.1.key ≠ .name protoName) (hnd : (ms.map fun p => p.1.key).Nodup)
    {n : Node Tree} (hnew : ∀ p ∈ ms, findTree p.1.key n.props = none) :
    encodeMembers n ms = some ⟨(ms.map fun p => p.1.key).foldl (fun len k => growLen k len) n.len,
      n.proto, n.props ++ ms.map fun p => (p.1.key, .cwe, ts p)⟩ := by
  induction ms generalizing n with
  | nil => simp [encodeMembers]
  | cons p ms ih =>
    have hp : p ∈ p :: ms := List.mem_cons_self
    obtain ⟨hpt, hfn⟩ := ht p hp
    rw [List.map_cons, List.nodup_cons] at hnd
    rw [encodeMembers_cons, encodeMember_eq_set hpt hfn, Option.bind_some,
      Node.set_of_new (hk p hp) (hnew p hp)]
    rw [ih (fun q hq => ht q (List.mem_cons_of_mem _ hq))
      (fun q hq => hk q (List.mem_cons_of_mem _ hq)) hnd.2]
    · simp
    · intro q hq
      have hne : p.1.key ≠ q.1.key := fun h => hnd.1 (h ▸ List.mem_map_of_mem hq)
      rw [findTree_append, hnew q (List.mem_cons_of_mem _ hq), findTree, if_neg hne]
      rfl

/-! ## Names -/

/-- The text of a name is the name. -/
theorem PropKey.text_ofString_eq (s : Utf16) : (PropKey.ofString s).text = some s := by
  unfold PropKey.ofString
  cases hn : natOfText s with
  | none => rfl
  | some n =>
    dsimp only
    split_ifs
    · unfold natOfText at hn
      split at hn
      · split_ifs at hn with htext
        cases hn
        exact congrArg some htext
      · cases hn
    · rfl

/-- A clean key reaches QuickJS under its own name. -/
theorem entryKey_of_clean {k : Utf16} (hk : Clean k) : entryKey (some k) = .ofString k := by
  show PropKey.ofString (ffiString k) = _
  rw [ffiString_eq_self hk.1 hk.2]

/-- Clean names stay apart as keys. -/
theorem entryKey_injOn {k l : Utf16} (hk : Clean k) (hl : Clean l)
    (h : entryKey (some k) = entryKey (some l)) : k = l := by
  rw [entryKey_of_clean hk, entryKey_of_clean hl] at h
  have := congrArg PropKey.text h
  rwa [PropKey.text_ofString_eq, PropKey.text_ofString_eq, Option.some_inj] at this

/-! ## Containers of data -/

/-- The tree of a member that is data. -/
def dataTree (x : DartVal) : Tree := (memberTree x).getD (.bool false)

/-- Data becomes a tree, which is no function. -/
theorem DartVal.Data.memberTree_eq {x : DartVal} (hx : x.Data) :
    memberTree x = some (dataTree x) ∧ ∀ g, dataTree x ≠ .fn g := by
  obtain ⟨t, ht, hfn⟩ := hx.exists_memberTree
  rw [dataTree, ht]
  exact ⟨rfl, hfn⟩

/-- The keys of a list are the indices in order. -/
theorem keys_indexed {i : ℕ} {l : List DartVal} (h : i + l.length ≤ 2 ^ 31) :
    ((indexed i l).map fun p => p.1.key) = (List.range' i l.length).map PropKey.index := by
  induction l generalizing i with
  | nil => rfl
  | cons x rest ih =>
    rw [List.length_cons] at h
    rw [indexed, List.map_cons, key_index (by omega), ih (by omega), List.length_cons,
      List.range'_succ, List.map_cons]

/-- Indices in order give an array its length. -/
theorem foldl_growLen (i n : ℕ) :
    ((List.range' i n).map PropKey.index).foldl (fun len k => growLen k len) (some i)
      = some (i + n) := by
  induction n generalizing i with
  | zero => rfl
  | succ n ih =>
    have hgrow : growLen (.index i) (some i) = some (i + 1) := by
      simp [growLen, PropKey.arrayIndex]
    rw [List.range'_succ, List.map_cons, List.foldl_cons, hgrow, ih (i + 1)]
    congr 1
    omega

/-- The array of a list. -/
theorem encodeElements_data {elems : List DartVal} (hdata : ∀ x ∈ elems, x.Data)
    (hlen : elems.length ≤ 2 ^ 31) :
    ∃ props, encodeElements .array 0 elems = some ⟨some elems.length, none, props⟩ ∧
      findTree (.name toJSONName) props = none := by
  have hlen' : 0 + elems.length ≤ 2 ^ 31 := by omega
  have hkeys := keys_indexed hlen'
  have hindex : ∀ p ∈ indexed 0 elems, ∃ i, p.1.key = .index i := by
    intro p hp
    have hmem : p.1.key ∈ (List.range' 0 elems.length).map PropKey.index :=
      hkeys ▸ List.mem_map_of_mem (f := fun p => p.1.key) hp
    obtain ⟨i, -, hi⟩ := List.mem_map.1 hmem
    exact ⟨i, hi.symm⟩
  have hrun := encodeMembers_of_nodup (fun p => dataTree p.2) (n := .array)
    (fun p hp => (hdata p.2 (mem_of_mem_indexed hp)).memberTree_eq)
    (fun p hp => by obtain ⟨i, hi⟩ := hindex p hp; rw [hi]; exact nofun)
    (by rw [hkeys]; exact (List.nodup_range').map fun a b h => PropKey.index.inj h)
    (fun p hp => rfl)
  rw [hkeys] at hrun
  refine ⟨_, by rw [encodeElements_eq, hrun, Node.array, foldl_growLen, Nat.zero_add], ?_⟩
  have hget := get_encodeMembers_of_ne hrun (k := .name toJSONName) (by decide) fun p hp => by
    obtain ⟨i, hi⟩ := hindex p hp
    rw [hi]
    exact nofun
  exact Option.map_eq_none_iff.1 hget

/-- An object gets no length by its keys. -/
theorem foldl_growLen_none (ks : List PropKey) :
    ks.foldl (fun len k => growLen k len) none = none := by
  induction ks with
  | nil => rfl
  | cons k ks ih => exact ih

/-- The names of a map's entries are different for QuickJS, too. -/
theorem nodup_entryKey {entries : List (Option Utf16 × DartVal)}
    (hnd : (entries.map Prod.fst).Nodup)
    (hkeys : ∀ p ∈ entries, ∃ k, p.1 = some k ∧ Clean k ∧ k ≠ protoName) :
    (entries.map fun p => entryKey p.1).Nodup := by
  show (entries.map (entryKey ∘ Prod.fst)).Nodup
  rw [← List.map_map]
  refine hnd.map_on fun a ha b hb hab => ?_
  obtain ⟨p, hp, rfl⟩ := List.mem_map.1 ha
  obtain ⟨q, hq, rfl⟩ := List.mem_map.1 hb
  obtain ⟨k, hk, hkc, -⟩ := hkeys p hp
  obtain ⟨l, hl, hlc, -⟩ := hkeys q hq
  rw [hk, hl] at hab ⊢
  rw [entryKey_injOn hkc hlc hab]

/-- The object of a map. -/
theorem encodeEntries_data {entries : List (Option Utf16 × DartVal)}
    (hnd : (entries.map Prod.fst).Nodup)
    (hkeys : ∀ p ∈ entries, ∃ k, p.1 = some k ∧ Clean k ∧ k ≠ protoName)
    (htree : ∀ p ∈ entries, memberTree p.2 = some (dataTree p.2) ∧ ∀ g, dataTree p.2 ≠ .fn g) :
    encodeEntries .object entries
      = some ⟨none, none, entries.map fun p => (entryKey p.1, .cwe, dataTree p.2)⟩ := by
  have hms : ∀ p ∈ keyed entries, ∃ q ∈ entries, p = (q.1.elim .null .string, q.2) := by
    intro p hp
    obtain ⟨q, hq, rfl⟩ := List.mem_map.1 hp
    exact ⟨q, hq, rfl⟩
  have hrun := encodeMembers_of_nodup (fun p => dataTree p.2) (n := .object)
    (fun p hp => by obtain ⟨q, hq, rfl⟩ := hms p hp; exact htree q hq)
    (fun p hp => by
      obtain ⟨q, hq, rfl⟩ := hms p hp
      obtain ⟨k, hk, hkc, hkp⟩ := hkeys q hq
      have := entryKey_ne_proto hkp hkc.2
      rwa [← hk] at this)
    (by rw [keyed, List.map_map]; exact nodup_entryKey hnd hkeys)
    (fun p hp => rfl)
  rw [encodeEntries_eq, hrun, Node.object, foldl_growLen_none, keyed, List.map_map]
  rfl

/-- The tree of a key that occurs once. -/
theorem findTree_of_mem {l : List (PropKey × Flags × Tree)} (hnd : (l.map Prod.fst).Nodup)
    {p : PropKey × Flags × Tree} (hp : p ∈ l) : findTree p.1 l = some p.2 := by
  induction l with
  | nil => cases hp
  | cons q l ih =>
    rw [List.map_cons, List.nodup_cons] at hnd
    rcases List.mem_cons.1 hp with rfl | hp
    · rw [findTree, if_pos rfl]
    · have hne : q.1 ≠ p.1 := fun h => hnd.1 (h.symm ▸ List.mem_map_of_mem hp)
      rw [findTree, if_neg hne, ih hnd.2 hp]

/-! ## Own keys -/

/-- Own keys are the names of the properties, where all of these are enumerable strings. -/
theorem enumKeys_perm {o : Obj}
    (h : ∀ p ∈ o.props, p.2.flags.enumerable = true ∧ p.1.text.isSome = true) :
    o.enumKeys.Perm (o.props.map Prod.fst) := by
  have hall : (o.props.filter fun p => p.2.flags.enumerable && p.1.text.isSome) = o.props :=
    List.filter_eq_self.2 fun p hp => by simp [h p hp]
  unfold Obj.enumKeys
  rw [hall]
  dsimp only
  refine ((List.mergeSort_perm _ _).append_right _).trans ?_
  have hneg : ∀ k : PropKey, k.arrayIndex.isNone = !k.arrayIndex.isSome := fun k => by
    cases k.arrayIndex <;> rfl
  simp only [hneg]
  exact List.filter_append_perm _ _

/-- Slots and trees have the same names. -/
theorem DenotesProps.keys {vm : VM} {lo : ℕ} {l : List (PropKey × Slot)}
    {m : List (PropKey × Flags × Tree)} (h : DenotesProps vm lo l m) :
    l.map Prod.fst = m.map Prod.fst := by
  induction l generalizing m with
  | nil => cases h; rfl
  | cons p l ih =>
    cases h with
    | cons hw hc hv hl => rw [List.map_cons, List.map_cons, ih hl]

/-- And the same flags. -/
theorem DenotesProps.flags {vm : VM} {lo : ℕ} {l : List (PropKey × Slot)}
    {m : List (PropKey × Flags × Tree)} (h : DenotesProps vm lo l m) {p : PropKey × Slot}
    (hp : p ∈ l) : ∃ q ∈ m, q.1 = p.1 ∧ q.2.1 = p.2.flags := by
  induction l generalizing m with
  | nil => cases hp
  | cons a l ih =>
    cases h with
    | cons hw hc hv hl =>
      rcases List.mem_cons.1 hp with rfl | hp
      · exact ⟨_, List.mem_cons_self, rfl, rfl⟩
      · obtain ⟨q, hq, hrest⟩ := ih hl hp
        exact ⟨q, List.mem_cons_of_mem _ hq, hrest⟩

/-- The own keys of an object for a map are those of its entries. -/
theorem enumKeys_of_entries {vm : VM} {lo : ℕ} {o : Obj} {entries : List (Option Utf16 × DartVal)}
    (hl : DenotesProps vm lo o.props
      (entries.map fun p => (entryKey p.1, Flags.cwe, dataTree p.2))) :
    o.props.map Prod.fst = (entries.map fun p => entryKey p.1) ∧
      o.enumKeys.Perm (o.props.map Prod.fst) := by
  refine ⟨?_, enumKeys_perm fun s hs => ?_⟩
  · rw [hl.keys, List.map_map]
    rfl
  · obtain ⟨q, hq, hkey, hfl⟩ := hl.flags hs
    obtain ⟨p, -, rfl⟩ := List.mem_map.1 hq
    rw [← hfl, ← hkey]
    exact ⟨rfl, Option.isSome_iff_ne_none.2 (PropName.text_key _)⟩

/-! ## The data in the heap -/

/-- The value is plain data with the JSON value `j`, whose text is as long and not deeper than that
of the Dart value, and which comes back as the Dart value. -/
structure Renders (h : Heap) (v : JSValue) (x : DartVal) (j : Json) : Prop where
  jsonOf : JsonOf h v j
  size : textSize j = textSize x.json
  depth : j.depth ≤ x.json.depth
  equal : x.Equal (dartOfJson j)

/-- A value that renders data has a text that fits. -/
theorem Renders.textFits {h : Heap} {v : JSValue} {x : DartVal} {j : Json} (hr : Renders h v x j)
    (hfit : TextFits x.json) : TextFits j := by
  have hsize := hr.size
  unfold TextFits at hfit ⊢
  unfold textSize at hsize
  omega

/-- Plain data is not called. -/
theorem JsonOf.notCallable {h : Heap} {v : JSValue} {j : Json} (hj : JsonOf h v j) :
    NotCallable h v := by
  cases hj with
  | arr vals flags js ho hc =>
    intro o' ho'
    cases ho.symm.trans ho'
    rw [hc]
    rfl
  | obj vals flags js ho hc =>
    intro o' ho'
    cases ho.symm.trans ho'
    rw [hc]
    rfl
  | _ => trivial

/-- The built-in prototypes have no `toJSON`. -/
theorem Intact.getWalk_toJSON {h : Heap} {b : ℕ} (hi : Intact h b) (len : Option ℕ) (fuel : ℕ) :
    getWalk h (.name toJSONName) fuel (some (Node.classProto ⟨len, none, []⟩)) = .absent := by
  obtain ⟨o, ho, hc, hp, -⟩ := hi.object
  obtain ⟨a, n, ha, hac, hap, -⟩ := hi.array
  have hobj : ∀ fuel, getWalk h (.name toJSONName) fuel (some objectPrototype) = .absent := by
    intro fuel
    cases fuel with
    | zero => rfl
    | succ fuel =>
      simp only [getWalk, ho, hc, hi.toJSON _ (.inl rfl) o ho, hp]
      cases fuel <;> rfl
  cases len with
  | none => exact hobj fuel
  | some k =>
    cases fuel with
    | zero => rfl
    | succ fuel =>
      show getWalk h _ (fuel + 1) (some arrayPrototype) = _
      simp only [getWalk, ha, hac, hi.toJSON _ (.inr rfl) a ha, hap]
      exact hobj fuel

/-- An object of a conversion has no method `toJSON` where its own property of that name is none. -/
theorem noMethod_toJSON {h : Heap} {b : ℕ} (hi : Intact h b) {r : Ref} {o : Obj} (len : Option ℕ)
    (ho : h.obj? r = some o) (hc : o.cls = len.elim .object .array)
    (hp : o.proto = some (Node.classProto ⟨len, none, []⟩))
    (hown : o.getOwn (.name toJSONName) = none ∨
      ∃ v fl, o.getOwn (.name toJSONName) = some (.data v fl) ∧ NotCallable h v) :
    NoMethod h toJSONName r := by
  intro fuel
  cases fuel with
  | zero => exact .inl rfl
  | succ fuel =>
    have hcls : ∀ id, o.cls ≠ .exotic id := fun id => by rw [hc]; cases len <;> exact nofun
    rcases hown with hnone | ⟨v, fl, hsome, hv⟩
    · refine .inl ?_
      simp only [getWalk, ho, hnone, hp]
      exact hi.getWalk_toJSON len fuel
    · refine .inr ⟨v, ?_, hv⟩
      simp only [getWalk, ho, hsome]

/-- Wherever a conversion leaves the value as a member, it is plain data that comes back. -/
def Survives (x : DartVal) : Prop :=
  ∀ {vm : VM} {b lo : ℕ} {v : JSValue}, Intact vm.heap b → Denotes vm lo v (dataTree x) →
    ∃ j, Renders vm.heap v x j

/-- An integer of 32 bits survives. -/
theorem survives_int {n : Int64} (hlo : -2 ^ 31 ≤ n.toInt) (hhi : n.toInt < 2 ^ 31) :
    Survives (.int n) := by
  intro vm b lo v _ hd
  cases hd
  have hn : (Int32.ofInt n.toInt).toInt = n.toInt := Int32.toInt_ofInt_of_le (by omega) (by omega)
  refine ⟨.num (intNumeral n.toInt), ?_, by rw [DartVal.json], by rw [DartVal.json], ?_⟩
  · have hj : JsonOf vm.heap (.int (Int32.ofInt n.toInt)) _ := .int _
    rwa [hn] at hj
  · rw [dartOfJson, jsonNumber_intNumeral (by omega) (by omega), Int64.ofInt_toInt]
    exact .int n

/-- A boolean survives. -/
theorem survives_bool (c : Bool) : Survives (.bool c) := by
  intro vm b lo v _ hd
  cases hd
  refine ⟨.bool c, .bool c, by rw [DartVal.json], by rw [DartVal.json], ?_⟩
  rw [dartOfJson]
  exact .bool c

/-- A clean string survives. -/
theorem survives_string {s : Utf16} (hs : Clean s) : Survives (.string s) := by
  intro vm b lo v _ hd
  rw [dataTree, memberTree, Option.getD_some, ffiString_eq_self hs.1 hs.2] at hd
  cases hd
  refine ⟨.str s, .str _ s, by rw [DartVal.json], by rw [DartVal.json], ?_⟩
  rw [dartOfJson]
  exact .string s

/-- Element by element. -/
theorem dartOfElems_eq (js : List Json) : dartOfElems js = js.map dartOfJson := by
  induction js with
  | nil => rw [dartOfElems]; rfl
  | cons j js ih => rw [dartOfElems, ih]; rfl

/-- A list that is read by its indices. -/
theorem map_range_eq {α β : Type} {l : List α} {f : ℕ → β} {g : α → β}
    (h : ∀ i (hi : i < l.length), f i = g l[i]) : (List.range l.length).map f = l.map g := by
  refine List.ext_getElem (by simp) fun i h₁ h₂ => ?_
  rw [List.getElem_map, List.getElem_map, List.getElem_range, h i]

/-- An array of elements that come back. -/
theorem survives_list {elems : List DartVal} (hdata : ∀ x ∈ elems, x.Data)
    (hfit : TextFits (DartVal.list elems).json) (ih : ∀ x ∈ elems, Survives x) :
    Survives (.list elems) := by
  intro vm b lo v hi hd
  have hlen : elems.length ≤ 2 ^ 31 := by
    rw [DartVal.json] at hfit
    have := hfit.length_le
    rw [elementsJson_eq, List.length_map, stringLenMax] at this
    omega
  obtain ⟨props, henc, htoJSON⟩ := encodeElements_data hdata hlen
  rw [dataTree, memberTree, henc] at hd
  obtain ⟨r, rfl⟩ : ∃ r, v = .object r := by cases hd <;> exact ⟨_, rfl⟩
  obtain ⟨-, o, ho, hc, -, hproto, hl⟩ := denotes_node_iff.1 hd
  obtain ⟨hq, -⟩ | ⟨x, m, -, hm, -⟩ := hproto
  swap
  · cases hm
  have hcls : o.cls = .array elems.length := hc
  -- each element is read, and comes back
  have helem : ∀ i (hlt : i < elems.length), ∃ w fl j,
      o.getOwn (.ofNat i) = some (.data w fl) ∧ Renders vm.heap w elems[i] j := by
    intro i hlt
    have hmem : elems[i] ∈ elems := List.getElem_mem hlt
    have hget := get_encodeElements (List.getElem?_eq_getElem hlt) (by omega) henc
    rw [if_pos (by omega), (hdata _ hmem).memberTree_eq.1] at hget
    obtain ⟨⟨fl, t⟩, hfind, rfl⟩ := Option.map_eq_some_iff.1 hget
    obtain ⟨w, hw, -, -, hdw⟩ := hl.find hfind
    obtain ⟨j, hj⟩ := ih _ hmem hi hdw
    have hown := Node.getOwn_eq hc ⟨PropKey.text_ofNat i, .inr (PropKey.ofNat_ne_length i)⟩
    exact ⟨w, fl, j, hown.trans hw, hj⟩
  have : Nonempty JSValue := ⟨.null⟩
  have : Nonempty Flags := ⟨.cwe⟩
  have : Nonempty Json := ⟨.null⟩
  choose! ws fls js hown hren using helem
  have hno : NoMethod vm.heap toJSONName r := by
    refine noMethod_toJSON hi (some elems.length) ho hcls hq (.inl ?_)
    have htext : (PropKey.name toJSONName).text ≠ none := Option.some_ne_none _
    rw [Node.getOwn_eq hc ⟨htext, .inr (by decide)⟩]
    exact hl.find_eq_none.1 htoJSON
  refine ⟨.arr ((List.range elems.length).map js),
    .arr ws fls js ho hcls (by omega) hno hown fun i hlt => (hren i hlt).jsonOf, ?_, ?_, ?_⟩
  · have hmap := map_range_eq (f := fun i => textSize (js i) + 1)
      (g := fun x : DartVal => textSize x.json + 1) fun i hlt => by rw [(hren i hlt).size]
    rw [DartVal.json, textSize_arr, textSize_arr, elementsJson_eq, List.map_map, List.map_map]
    exact congrArg (fun l => 1 + max 1 (List.sum l)) hmap
  · rw [DartVal.json, Json.depth, Json.depth, Nat.add_le_add_iff_right]
    refine depthElems_le fun j hj => ?_
    obtain ⟨i, hi', rfl⟩ := List.mem_map.1 hj
    have hlt := List.mem_range.1 hi'
    refine (hren i hlt).depth.trans (Json.depth_le_depthElems ?_)
    rw [elementsJson_eq]
    exact List.mem_map_of_mem (List.getElem_mem hlt)
  · rw [dartOfJson, dartOfElems_eq, List.map_map]
    refine .list (by simp) fun i x y hx hy => ?_
    obtain ⟨hlt, rfl⟩ := List.getElem?_eq_some_iff.1 hx
    rw [List.getElem?_map, List.getElem?_range hlt] at hy
    cases hy
    exact (hren i hlt).equal

/-- A new key goes to the end of a map. -/
theorem putEntry_of_notMem {key : Utf16} {entries : List (Option Utf16 × DartVal)}
    (h : some key ∉ entries.map Prod.fst) (v : DartVal) :
    putEntry key v entries = entries ++ [(some key, v)] := by
  induction entries with
  | nil => rfl
  | cons p rest ih =>
    rw [List.map_cons, List.mem_cons, not_or] at h
    rw [putEntry, if_neg (Ne.symm h.1), ih h.2, List.cons_append]

/-- Members with different names are put one after the other. -/
theorem dartOfMembers_of_nodup {ms : List (Utf16 × Json)} (hnd : (ms.map Prod.fst).Nodup)
    {entries : List (Option Utf16 × DartVal)}
    (hnew : ∀ m ∈ ms, some m.1 ∉ entries.map Prod.fst) :
    dartOfMembers entries ms = entries ++ ms.map fun m => (some m.1, dartOfJson m.2) := by
  induction ms generalizing entries with
  | nil => rw [dartOfMembers]; simp
  | cons m ms ih =>
    rw [List.map_cons, List.nodup_cons] at hnd
    rw [dartOfMembers, putEntry_of_notMem (hnew m List.mem_cons_self), ih hnd.2, List.append_assoc]
    · rfl
    · intro m' hm' hmem
      rw [List.map_append, List.mem_append] at hmem
      rcases hmem with hmem | hmem
      · exact hnew m' (List.mem_cons_of_mem _ hm') hmem
      · have hname : m'.1 = m.1 := by simpa using hmem
        exact hnd.1 (hname ▸ List.mem_map_of_mem hm')

/-- A key that does not occur has no property. -/
theorem findSlot_eq_none_of_notMem {key : PropKey} {l : List (PropKey × Slot)}
    (h : key ∉ l.map Prod.fst) : findSlot key l = none := by
  induction l with
  | nil => rfl
  | cons p l ih =>
    rw [List.map_cons, List.mem_cons, not_or] at h
    rw [findSlot, if_neg (Ne.symm h.1), ih h.2]

/-- The own keys of an object for a map, with the entry that each of them stands for. -/
structure Arranges (entries : List (Option Utf16 × DartVal)) (keys : List PropKey)
    (entryOf : PropKey → Option Utf16 × DartVal) : Prop where
  perm : (keys.map entryOf).Perm entries
  name : ∀ k ∈ keys, some (k.text.getD []) = (entryOf k).1

/-- Keys that are the entries' in some order. -/
theorem exists_arranges {entries : List (Option Utf16 × DartVal)}
    (hnd : (entries.map Prod.fst).Nodup)
    (hkeys : ∀ p ∈ entries, ∃ k, p.1 = some k ∧ Clean k ∧ k ≠ protoName) {keys : List PropKey}
    (hperm : keys.Perm (entries.map fun p => entryKey p.1)) :
    ∃ entryOf, Arranges entries keys entryOf ∧
      ∀ k ∈ keys, entryOf k ∈ entries ∧ entryKey (entryOf k).1 = k := by
  have hentry : ∀ k ∈ keys, ∃ p, p ∈ entries ∧ entryKey p.1 = k := by
    intro k hk
    obtain ⟨p, hp, rfl⟩ := List.mem_map.1 (hperm.mem_iff.1 hk)
    exact ⟨p, hp, rfl⟩
  have : Nonempty (Option Utf16 × DartVal) := ⟨none, .null⟩
  choose! entryOf hmem hkey using hentry
  refine ⟨entryOf, ⟨?_, fun k hk => ?_⟩, fun k hk => ⟨hmem k hk, hkey k hk⟩⟩
  · -- back and forth between keys and entries
    have hinv : ∀ p ∈ entries, entryOf (entryKey p.1) = p := by
      intro p hp
      have hk : entryKey p.1 ∈ keys := hperm.mem_iff.2 (List.mem_map_of_mem hp)
      exact List.inj_on_of_nodup_map (nodup_entryKey hnd hkeys) (hmem _ hk) hp (hkey _ hk)
    have hmap := hperm.map entryOf
    rw [List.map_map] at hmap
    refine hmap.trans (.of_eq ?_)
    calc entries.map (entryOf ∘ fun p => entryKey p.1)
        = entries.map id := List.map_congr_left hinv
      _ = entries := List.map_id entries
  · obtain ⟨s, hs, hclean, -⟩ := hkeys _ (hmem k hk)
    have hks := hkey k hk
    rw [hs, entryKey_of_clean hclean] at hks
    rw [hs, ← hks, PropKey.text_ofString_eq, Option.getD_some]

section

variable {entries : List (Option Utf16 × DartVal)} {keys : List PropKey}
  {entryOf : PropKey → Option Utf16 × DartVal} {js : PropKey → Json}

/-- The names of an arrangement are those of the entries. -/
theorem Arranges.names (ha : Arranges entries keys entryOf) :
    (keys.map fun k => some (k.text.getD [])).Perm (entries.map Prod.fst) := by
  have hmap := ha.perm.map Prod.fst
  rw [List.map_map] at hmap
  exact (List.Perm.of_eq (List.map_congr_left ha.name)).trans hmap

/-- The text of an object does not depend on the order of its members. -/
theorem Arranges.textSize_eq (ha : Arranges entries keys entryOf)
    (hsize : ∀ k ∈ keys, textSize (js k) = textSize (entryOf k).2.json) :
    textSize (.obj (keys.map fun k => (k.text.getD [], js k)))
      = textSize (.obj (entriesJson entries)) := by
  have hsum := (ha.perm.map fun p => nameSize (p.1.getD []) + textSize p.2.json + 2).sum_eq
  have hmap : (keys.map fun k => nameSize (k.text.getD []) + textSize (js k) + 2)
      = (keys.map entryOf).map fun p => nameSize (p.1.getD []) + textSize p.2.json + 2 := by
    rw [List.map_map]
    refine List.map_congr_left fun k hk => ?_
    rw [Function.comp_apply, ← ha.name k hk, hsize k hk, Option.getD_some]
  rw [textSize_obj, textSize_obj, entriesJson_eq, List.map_map, List.map_map]
  exact congrArg (fun n => 1 + max 1 n) ((congrArg List.sum hmap).trans hsum)

/-- An arrangement is not deeper than its map. -/
theorem Arranges.depth_le (ha : Arranges entries keys entryOf)
    (hdepth : ∀ k ∈ keys, (js k).depth ≤ (entryOf k).2.json.depth) :
    (Json.obj (keys.map fun k => (k.text.getD [], js k))).depth
      ≤ (Json.obj (entriesJson entries)).depth := by
  rw [Json.depth, Json.depth, Nat.add_le_add_iff_right]
  refine depthMembers_le fun m hm => ?_
  obtain ⟨k, hk, rfl⟩ := List.mem_map.1 hm
  refine (hdepth k hk).trans (Json.depth_le_depthMembers (k := (entryOf k).1.getD []) ?_)
  rw [entriesJson_eq]
  exact List.mem_map.2 ⟨entryOf k, ha.perm.mem_iff.1 (List.mem_map_of_mem hk), rfl⟩

/-- An arrangement that is read back equals its map. -/
theorem Arranges.equal (ha : Arranges entries keys entryOf) (hnd : (entries.map Prod.fst).Nodup)
    (hequal : ∀ k ∈ keys, (entryOf k).2.Equal (dartOfJson (js k))) :
    (DartVal.map entries).Equal (dartOfJson (.obj (keys.map fun k => (k.text.getD [], js k)))) := by
  have hndm : ((keys.map fun k => (k.text.getD [], js k)).map Prod.fst).Nodup := by
    rw [List.map_map]
    refine List.Nodup.of_map some ?_
    rw [List.map_map]
    exact ha.names.nodup_iff.2 hnd
  rw [dartOfJson, dartOfMembers_of_nodup hndm fun m _ => List.not_mem_nil, List.nil_append,
    List.map_map]
  refine .map ?_ ?_
  · rw [List.map_map]
    exact ha.names.symm
  · intro name x y hx hy
    obtain ⟨k, hk, hky⟩ := List.mem_map.1 hy
    cases hky
    have hmem : entryOf k ∈ entries := ha.perm.mem_iff.1 (List.mem_map_of_mem hk)
    have hp : entryOf k = (some (k.text.getD []), x) :=
      List.inj_on_of_nodup_map hnd hmem hx (ha.name k hk).symm
    have := hequal k hk
    rwa [hp] at this

end

/-- An object of entries that come back. -/
theorem survives_map {entries : List (Option Utf16 × DartVal)} (hnd : (entries.map Prod.fst).Nodup)
    (hkeys : ∀ p ∈ entries, ∃ k, p.1 = some k ∧ Clean k ∧ k ≠ protoName)
    (hdata : ∀ p ∈ entries, p.2.Data) (ih : ∀ p ∈ entries, Survives p.2) :
    Survives (.map entries) := by
  intro vm b lo v hi hd
  rw [dataTree, memberTree,
    encodeEntries_data hnd hkeys fun p hp => (hdata p hp).memberTree_eq] at hd
  obtain ⟨r, rfl⟩ : ∃ r, v = .object r := by cases hd <;> exact ⟨_, rfl⟩
  obtain ⟨-, o, ho, hc, -, hproto, hl⟩ := denotes_node_iff.1 hd
  obtain ⟨hq, -⟩ | ⟨x, m, -, hm, -⟩ := hproto
  swap
  · cases hm
  have hcls : o.cls = .object := hc
  obtain ⟨hprops, hperm⟩ := enumKeys_of_entries hl
  obtain ⟨entryOf, ha, hentry⟩ := exists_arranges hnd hkeys (hprops ▸ hperm)
  -- each entry is read under its own name, and comes back
  have hmember : ∀ k ∈ o.enumKeys, ∃ w j,
      o.getOwn k = some (.data w .cwe) ∧ Renders vm.heap w (entryOf k).2 j := by
    intro k hk
    obtain ⟨hmem, hkey⟩ := hentry k hk
    have hfind := findTree_of_mem
      (l := entries.map fun p => (entryKey p.1, Flags.cwe, dataTree p.2))
      (by rw [List.map_map]; exact nodup_entryKey hnd hkeys) (List.mem_map_of_mem hmem)
    obtain ⟨w, hw, -, -, hdw⟩ := hl.find hfind
    obtain ⟨j, hj⟩ := ih _ hmem hi hdw
    refine ⟨w, j, ?_, hj⟩
    rw [← hkey]
    exact (Node.getOwn_eq hc ⟨PropName.text_key _, .inl rfl⟩).trans hw
  have : Nonempty JSValue := ⟨.null⟩
  have : Nonempty Json := ⟨.null⟩
  choose! ws js hown hren using hmember
  have hno : NoMethod vm.heap toJSONName r := by
    refine noMethod_toJSON hi none ho hcls hq ?_
    by_cases hmem : .name toJSONName ∈ o.enumKeys
    · exact .inr ⟨_, _, hown _ hmem, (hren _ hmem).jsonOf.notCallable⟩
    · have htext : (PropKey.name toJSONName).text ≠ none := Option.some_ne_none _
      rw [Node.getOwn_eq hc ⟨htext, .inl rfl⟩]
      exact .inl (findSlot_eq_none_of_notMem (mt hperm.mem_iff.2 hmem))
  refine ⟨.obj (o.enumKeys.map fun k => (k.text.getD [], js k)),
    .obj ws (fun _ => .cwe) js ho hcls hno hown fun k hk => (hren k hk).jsonOf, ?_, ?_, ?_⟩
  · rw [DartVal.json]
    exact ha.textSize_eq fun k hk => (hren k hk).size
  · rw [DartVal.json]
    exact ha.depth_le fun k hk => (hren k hk).depth
  · exact ha.equal hnd fun k hk => (hren k hk).equal

/-- Data survives, however it is nested. The induction is on its structure. -/
theorem DartVal.Data.survives {x : DartVal} (hx : x.Data) : TextFits x.json → Survives x := by
  induction hx with
  | int hlo hhi => exact fun _ => survives_int hlo hhi
  | bool c => exact fun _ => survives_bool c
  | string hs => exact fun _ => survives_string hs
  | list hdata ih =>
    intro hfit
    refine survives_list hdata hfit fun x hx => ih x hx ?_
    rw [DartVal.json, elementsJson_eq] at hfit
    exact hfit.elem (List.mem_map_of_mem hx)
  | map hnd hkeys hdata ih =>
    intro hfit
    refine survives_map hnd hkeys hdata fun p hp => ih p hp ?_
    rw [DartVal.json, entriesJson_eq] at hfit
    exact hfit.member (m := (p.1.getD [], p.2.json)) (List.mem_map.2 ⟨p, hp, rfl⟩)

/-! ## Coming back -/

variable (env : Env)

/-- Data is a value of its own as it is a member. -/
theorem DartVal.Data.encode_eq {x : DartVal} (hx : x.Data) : encode x = some (dataTree x) := by
  cases hx with
  | int hlo hhi =>
    rw [encode, intValue, if_pos ⟨hlo, hhi⟩]
    rfl
  | bool b => rfl
  | string hs => rfl
  | list h => exact (DartVal.Data.list h).memberTree_eq.1
  | map hnd hkeys h => exact (DartVal.Data.map hnd hkeys h).memberTree_eq.1

/-- What a conversion makes of data is read by its own branch as it is read from JSON. -/
theorem DartVal.Data.plain {x : DartVal} (hx : x.Data)
    (hbom : ∀ s, x = .string s → s.head? ≠ some 0xFEFF) {vm : VM} {lo : ℕ} {v : JSValue}
    (hd : Denotes vm lo v (dataTree x)) : v.Plain := by
  cases hx with
  | int hlo hhi =>
    cases hd
    trivial
  | bool b =>
    cases hd
    trivial
  | @string s hs =>
    rw [dataTree, memberTree, Option.getD_some, ffiString_eq_self hs.1 hs.2] at hd
    cases hd
    exact ⟨hs.1, hs.2, hbom s rfl⟩
  | list h =>
    obtain ⟨n, -, hn⟩ := Option.map_eq_some_iff.1 (DartVal.Data.list h).memberTree_eq.1
    rw [← hn] at hd
    cases hd <;> trivial
  | map hnd hkeys h =>
    obtain ⟨n, -, hn⟩ := Option.map_eq_some_iff.1 (DartVal.Data.map hnd hkeys h).memberTree_eq.1
    rw [← hn] at hd
    cases hd <;> trivial

/-- **The round trip.** With the built-in prototypes intact, data of any shape is converted without
an error, and what `fromJSVal` reads is structurally equal to it, given the stack for its nesting
and the memory for its text. -/
theorem toJSVal_fromJSVal {x : DartVal} {vm : VM} {depth : ℕ}
    (hi : Intact vm.heap vm.heap.length) (hx : x.Data)
    (hbom : ∀ s, x = .string s → s.head? ≠ some 0xFEFF) (hfit : TextFits x.json)
    (hdepth : x.json.depth < depth) :
    ∃ v vm₁ y vm₂, toJSVal env x vm = .ok v vm₁ ∧ fromJSVal env depth v vm₁ = .ok y vm₂ ∧
      x.Equal y := by
  obtain ⟨v, vm₁, hrun, hk, hd⟩ := exists_toJSVal env hi hx.encode_eq
  obtain ⟨j, hj⟩ := hx.survives hfit (hi.keeps hk fun _ _ => trivial) hd
  obtain ⟨vm₂, hread⟩ := (fromJSVal_eq_dartOfJson_iff env hj.jsonOf (lt_of_le_of_lt hj.depth hdepth)
    (hj.textFits hfit)).2 (hx.plain hbom hd)
  exact ⟨v, vm₁, _, vm₂, hrun, hread, hj.equal⟩

/-- The map `{"b": [true], "0": {}}`, whose members change places. -/
def nestedSample : DartVal :=
  .map [(some [0x62], .list [.bool true]), (some [0x30], .map [])]

/-- The sample below is data. -/
theorem data_nestedSample : nestedSample.Data := by
  refine .map (by decide) (fun p hp => ?_) fun p hp => ?_
  · have hkey : p.1 = some [0x62] ∨ p.1 = some [0x30] := by
      rcases List.mem_cons.1 hp with rfl | hp
      · exact .inl rfl
      · rw [List.mem_singleton] at hp
        exact .inr (hp ▸ rfl)
    rcases hkey with hkey | hkey
    · exact ⟨_, hkey, ⟨by decide, by decide⟩, by decide⟩
    · exact ⟨_, hkey, ⟨by decide, by decide⟩, by decide⟩
  · rcases List.mem_cons.1 hp with rfl | hp
    · refine .list fun x hx => ?_
      rw [List.mem_singleton] at hx
      exact hx ▸ .bool true
    · rw [List.mem_singleton] at hp
      rw [hp]
      exact .map List.nodup_nil nofun nofun

/-- A map with a list in it comes back. -/
theorem toJSVal_fromJSVal_nestedSample :
    ∃ v vm₁ y vm₂, toJSVal Env.bare nestedSample VM.bare = .ok v vm₁ ∧
      fromJSVal Env.bare 3 v vm₁ = .ok y vm₂ ∧ nestedSample.Equal y :=
  toJSVal_fromJSVal Env.bare intact_bare data_nestedSample nofun
    (by simp only [nestedSample, DartVal.json, entriesJson, elementsJson]; decide)
    (by simp only [nestedSample, DartVal.json, entriesJson, elementsJson]; decide)

/-! ## Integers -/

/-- What comes back for an `int` that a `double` holds exactly: its low 32 bits. -/
theorem fromJSVal_intValue {n : ℤ} (h : |n| < 2 ^ 53) (depth : ℕ) (vm : VM) :
    fromJSVal env depth (intValue n) vm = .ok (.int (Int64.ofInt (Int32.ofInt n).toInt)) vm := by
  unfold intValue
  split_ifs with hr
  · have hlo := (Int32.ofInt n).le_toInt
    have hhi := (Int32.ofInt n).toInt_lt
    rw [fromJSVal_int, topNumber_int, jsonNumber_intNumeral (by omega) (by omega)]
    rfl
  · rw [fromJSVal_float64, topNumber, toFloat64, toInt32, if_pos (Binary64.isInt_ofInt h),
      Binary64.trunc_ofInt h]

/-- **Integers.** An `int` that JavaScript represents exactly comes back exactly where it fits 32
bits. -/
theorem toJSVal_fromJSVal_int_iff {n : Int64} (h : |n.toInt| ≤ 2 ^ 53 - 1) (vm : VM) (depth : ℕ) :
    (∃ v vm₁ vm₂, toJSVal env (.int n) vm = .ok v vm₁ ∧
      fromJSVal env depth v vm₁ = .ok (.int n) vm₂) ↔ -2 ^ 31 ≤ n.toInt ∧ n.toInt < 2 ^ 31 := by
  have hread := fromJSVal_intValue env (show |n.toInt| < 2 ^ 53 by omega) depth vm
  have hlo := (Int32.ofInt n.toInt).le_toInt
  have hhi := (Int32.ofInt n.toInt).toInt_lt
  constructor
  · rintro ⟨v, vm₁, vm₂, hto, hfrom⟩
    rw [toJSVal_int] at hto
    cases hto
    rw [hread] at hfrom
    injection hfrom with hn
    injection hn with hn
    -- the result is a number of 32 bits
    have hval : n.toInt = (Int32.ofInt n.toInt).toInt := by
      have := congrArg Int64.toInt hn
      rwa [Int64.toInt_ofInt_of_le (by omega) (by omega), eq_comm] at this
    omega
  · rintro ⟨hn, hn'⟩
    refine ⟨_, vm, vm, toJSVal_int env n vm, ?_⟩
    rw [hread, Int32.toInt_ofInt_of_le (by omega) (by omega), Int64.ofInt_toInt]

/-- The integer 7 comes back. -/
theorem toJSVal_fromJSVal_int_true :
    |(7 : Int64).toInt| ≤ 2 ^ 53 - 1 ∧ ∃ v vm₁ vm₂, toJSVal Env.bare (.int 7) VM.bare = .ok v vm₁ ∧
      fromJSVal Env.bare 0 v vm₁ = .ok (.int 7) vm₂ :=
  ⟨by decide, (toJSVal_fromJSVal_int_iff Env.bare (by decide) VM.bare 0).2 (by decide)⟩

/-- `2147483648` comes back as `-2147483648`. -/
theorem toJSVal_fromJSVal_int_wraps :
    |(2147483648 : Int64).toInt| ≤ 2 ^ 53 - 1 ∧
      ¬ ∃ v vm₁ vm₂, toJSVal Env.bare (.int 2147483648) VM.bare = .ok v vm₁ ∧
        fromJSVal Env.bare 0 v vm₁ = .ok (.int 2147483648) vm₂ := by
  refine ⟨by decide, ?_⟩
  rintro ⟨v, vm₁, vm₂, hto, hfrom⟩
  rw [toJSVal_int] at hto
  cases hto
  rw [fromJSVal_intValue Env.bare (by decide)] at hfrom
  injection hfrom with hn
  injection hn with hn
  exact absurd hn (by decide)

end QuickjsDart
