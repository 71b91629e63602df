import QuickjsDart.Marshal.RoundTrip

/-!
# The keys of a converted map

`createJSObject` assigns each entry of a map under its key. The key crosses as a C string, and the
assignment may meet the setter of `__proto__`, so the object has the keys of the map exactly where
none of them has a `U+0000` or is `__proto__` (`createJSObject_keys_iff`).
-/

namespace QuickjsDart

open Codec

/-- The values that `createJSObject` assigns. -/
def DartVal.Assigned : DartVal → Prop
  | .int _ => True
  | .string _ => True
  | .bool _ => True
  | .list _ => True
  | .map _ => True
  | _ => False

variable (env : Env)

/-- What the `switch` of `createJSObject` makes of a value that it assigns. -/
def convertMember : DartVal → Dart JSValue
  | .int n => newInt32 n
  | .string s => newString s
  | .bool b => newBool b
  | .list elems => createJSArray env elems
  | .map entries => createJSObject env entries
  | v => throw (.throws (.notSupported v.runtimeType))

/-- The object has the keys of the map as its own enumerable ones, each with the conversion of its
value, and the prototype of a new object. -/
structure KeepsKeys (vm : VM) (m : List (Option Utf16 × DartVal)) (v : JSValue) (vm' : VM) :
    Prop where
  keys : ∃ r o, v = .object r ∧ vm'.heap.obj? r = some o ∧ o.proto = some objectPrototype ∧
    ∀ s, (∃ k ∈ o.enumKeys, k.text = some s) ↔ some s ∈ m.map Prod.fst
  values : ∀ k x w vm₁, (some k, x) ∈ m → convertMember env x vm = .ok w vm₁ →
    SameMember vm₁ w vm' v (.ofString k)

/-- A member is converted to its tree. -/
theorem denotes_convertMember {x : DartVal} {vm vm₁ : VM} {w : JSValue} (hx : x.Assigned)
    (hi : Intact vm.heap vm.heap.length) (hrun : convertMember env x vm = .ok w vm₁) :
    ∃ t, memberTree x = some t ∧ Denotes vm₁ 0 w t := by
  cases x with
  | int n => cases hrun; exact ⟨_, rfl, .int⟩
  | string s => cases hrun; exact ⟨_, rfl, .str⟩
  | bool b => cases hrun; exact ⟨_, rfl, .bool⟩
  | list elems =>
    obtain ⟨t, ht, hd⟩ := denotes_of_toJSVal env hi (x := .list elems) (by rw [toJSVal]; exact hrun)
    exact ⟨t, ht, hd.mono (Nat.zero_le _)⟩
  | map entries =>
    obtain ⟨t, ht, hd⟩ :=
      denotes_of_toJSVal env hi (x := .map entries) (by rw [toJSVal]; exact hrun)
    exact ⟨t, ht, hd.mono (Nat.zero_le _)⟩
  | _ => exact hx.elim

/-- What an object assigned its members has: a tree for each of them. -/
theorem memberTree_of_encodeMembers {n n' : Node Tree} {ms : List (PropName × DartVal)}
    (h : encodeMembers n ms = some n') {p : PropName × DartVal} (hp : p ∈ ms) (hx : p.2.Assigned) :
    memberTree p.2 = some (dataTree p.2) ∧ ∀ g, dataTree p.2 ≠ .fn g := by
  have hsome : ∃ m m', encodeMember m p.1 p.2 = some m' := by
    induction ms generalizing n with
    | nil => cases hp
    | cons q ms ih =>
      rw [encodeMembers_cons] at h
      obtain ⟨m, hm, hrest⟩ := Option.bind_eq_some_iff.1 h
      rcases List.mem_cons.1 hp with rfl | hp
      · exact ⟨n, m, hm⟩
      · exact ih hrest hp
  obtain ⟨m, m', hm⟩ := hsome
  unfold dataTree
  cases hx' : p.2 with
  | int k => exact ⟨rfl, fun g hg => by cases hg⟩
  | string s => exact ⟨rfl, fun g hg => by cases hg⟩
  | bool b => exact ⟨rfl, fun g hg => by cases hg⟩
  | list elems =>
    rw [hx', encodeMember] at hm
    obtain ⟨m, hm, -⟩ := Option.map_eq_some_iff.1 hm
    rw [memberTree, hm]
    exact ⟨rfl, fun g hg => by cases hg⟩
  | map entries =>
    rw [hx', encodeMember] at hm
    obtain ⟨m, hm, -⟩ := Option.map_eq_some_iff.1 hm
    rw [memberTree, hm]
    exact ⟨rfl, fun g hg => by cases hg⟩
  | _ => rw [hx'] at hx; exact hx.elim

/-- The keys after a member was put. -/
theorem mem_keys_putTree {k key : PropKey} {p : Flags × Tree} {l : List (PropKey × Flags × Tree)}
    (h : k ∈ (putTree key p l).map Prod.fst) : k = key ∨ k ∈ l.map Prod.fst := by
  induction l with
  | nil => exact .inl (List.mem_singleton.1 h)
  | cons q l ih =>
    rw [putTree] at h
    split_ifs at h
    · exact .inr h
    · rw [List.map_cons, List.mem_cons] at h ⊢
      rcases h with h | h
      · exact .inr (.inl h)
      · exact (ih h).imp id .inr

/-- What is found has a key. -/
theorem mem_keys_of_findTree {key : PropKey} {p : Flags × Tree} {l : List (PropKey × Flags × Tree)}
    (h : findTree key l = some p) : key ∈ l.map Prod.fst := by
  induction l with
  | nil => cases h
  | cons q l ih =>
    rw [findTree] at h
    split_ifs at h with hk
    · exact List.mem_cons.2 (.inl hk.symm)
    · exact List.mem_cons_of_mem _ (ih h)

/-- An assignment adds its own name at most, and not `__proto__`. -/
theorem keys_set {P : PropKey → Prop} {n : Node Tree} (hn : ∀ k ∈ n.props.map Prod.fst, P k)
    {key : PropKey} (hkey : key ≠ .name protoName → P key) (t : Tree) :
    ∀ k ∈ (n.set key t).props.map Prod.fst, P k := by
  intro k hk
  unfold Node.set at hk
  split at hk
  · next hfind =>
    rcases mem_keys_putTree hk with rfl | hk
    · exact hn _ (mem_keys_of_findTree hfind)
    · exact hn k hk
  · split_ifs at hk with hproto
    · cases t <;> exact hn k hk
    · rcases mem_keys_putTree hk with rfl | hk
      · exact hkey hproto
      · exact hn k hk

/-- A property of all keys that the members bring. -/
theorem keys_encodeMembers {P : PropKey → Prop} {n n' : Node Tree} {ms : List (PropName × DartVal)}
    (h : encodeMembers n ms = some n') (hx : ∀ p ∈ ms, p.2.Assigned)
    (hn : ∀ k ∈ n.props.map Prod.fst, P k) (hms : ∀ p ∈ ms, p.1.key ≠ .name protoName → P p.1.key) :
    ∀ k ∈ n'.props.map Prod.fst, P k := by
  induction ms generalizing n with
  | nil => cases h; exact hn
  | cons p ms ih =>
    have hp : p ∈ p :: ms := List.mem_cons_self
    obtain ⟨ht, hfn⟩ := memberTree_of_encodeMembers h hp (hx p hp)
    rw [encodeMembers_cons, encodeMember_eq_set ht hfn, Option.bind_some] at h
    exact ih h (fun q hq => hx q (List.mem_cons_of_mem _ hq)) (keys_set hn (hms p hp) _)
      fun q hq => hms q (List.mem_cons_of_mem _ hq)

/-- The names that an object can have after a conversion. -/
def OwnName (k : PropKey) : Prop := ∃ s, k.text = some s ∧ 0 ∉ s ∧ s ≠ protoName

/-- A key of an entry is a name of its own, unless it is `__proto__`. -/
theorem ownName_entryKey {key : Option Utf16} (h : entryKey key ≠ .name protoName) :
    OwnName (entryKey key) := by
  obtain ⟨s, hs, h₀⟩ : ∃ s, entryKey key = .ofString s ∧ 0 ∉ s := by
    cases key with
    | none => exact ⟨ffiString nullName, rfl, zero_notMem_ffiString _⟩
    | some k => exact ⟨ffiString k, rfl, zero_notMem_ffiString _⟩
  rw [hs] at h ⊢
  refine ⟨s, PropKey.text_ofString_eq s, h₀, ?_⟩
  rintro rfl
  exact h rfl

/-- What is enumerated is there. -/
theorem mem_keys_of_mem_enumKeys {o : Obj} {k : PropKey} (h : k ∈ o.enumKeys) :
    k ∈ o.props.map Prod.fst := by
  unfold Obj.enumKeys at h
  rw [List.mem_append, List.mem_mergeSort, List.mem_filter, List.mem_filter] at h
  have hk := h.elim And.left And.left
  obtain ⟨p, hp, rfl⟩ := List.mem_map.1 hk
  exact List.mem_map_of_mem (List.mem_of_mem_filter hp)

section

variable {vm vm' : VM} {m : List (Option Utf16 × DartVal)} {v : JSValue}

/-- Keys that QuickJS does not take as they are get lost. -/
theorem KeepsKeys.clean {lo : ℕ} {r : Ref} {n : Node Tree} (hk : KeepsKeys env vm m (.object r) vm')
    (hx : ∀ p ∈ m, p.2.Assigned) (henc : encodeEntries .object m = some n)
    (hd : Denotes vm' lo (.object r) (.node n)) :
    ∀ k, some k ∈ m.map Prod.fst → 0 ∉ k ∧ k ≠ protoName := by
  obtain ⟨r', o, hr, ho, -, hown⟩ := hk.keys
  cases hr
  obtain ⟨-, o', ho', -, -, -, hl⟩ := denotes_node_iff.1 hd
  cases ho.symm.trans ho'
  rw [encodeEntries_eq] at henc
  have hnames : ∀ k ∈ n.props.map Prod.fst, OwnName k := by
    refine keys_encodeMembers henc (fun p hp => ?_) nofun fun p hp hne => ?_
    · obtain ⟨q, hq, rfl⟩ := List.mem_map.1 hp
      exact hx q hq
    · obtain ⟨q, -, rfl⟩ := List.mem_map.1 hp
      exact ownName_entryKey hne
  intro k hmem
  obtain ⟨key, hkey, htext⟩ := (hown k).2 hmem
  have hprop := mem_keys_of_mem_enumKeys hkey
  rw [hl.keys] at hprop
  obtain ⟨s, hs, h₀, hproto⟩ := hnames key hprop
  cases hs.symm.trans htext
  exact ⟨h₀, hproto⟩

/-- Other keys are kept. -/
theorem keepsKeys_of_clean (hi : Intact vm.heap vm.heap.length) (hnd : (m.map Prod.fst).Nodup)
    (hkeys : ∀ p ∈ m, ∃ k, p.1 = some k ∧ Clean k ∧ k ≠ protoName) (hx : ∀ p ∈ m, p.2.Assigned)
    {lo : ℕ} {r : Ref} {n : Node Tree} (henc : encodeEntries .object m = some n)
    (hd : Denotes vm' lo (.object r) (.node n)) : KeepsKeys env vm m (.object r) vm' := by
  have htree : ∀ p ∈ m, memberTree p.2 = some (dataTree p.2) ∧ ∀ g, dataTree p.2 ≠ .fn g := by
    intro p hp
    rw [encodeEntries_eq] at henc
    exact memberTree_of_encodeMembers (p := (p.1.elim .null .string, p.2)) henc
      (List.mem_map.2 ⟨p, hp, rfl⟩) (hx p hp)
  rw [encodeEntries_data hnd hkeys htree] at henc
  cases henc
  obtain ⟨-, o, ho, hc, -, hproto, hl⟩ := denotes_node_iff.1 hd
  obtain ⟨hq, -⟩ | ⟨x, n, -, hn, -⟩ := hproto
  swap
  · cases hn
  obtain ⟨hprops, hperm⟩ := enumKeys_of_entries hl
  constructor
  · refine ⟨r, o, rfl, ho, hq, fun s => ?_⟩
    constructor
    · rintro ⟨k, hk, htext⟩
      have hmem := hperm.mem_iff.1 hk
      rw [hprops] at hmem
      obtain ⟨p, hp, rfl⟩ := List.mem_map.1 hmem
      obtain ⟨t, ht, hclean, -⟩ := hkeys p hp
      rw [ht, entryKey_of_clean hclean, PropKey.text_ofString_eq] at htext
      rw [← htext, ← ht]
      exact List.mem_map_of_mem hp
    · intro hs
      obtain ⟨p, hp, hps⟩ := List.mem_map.1 hs
      obtain ⟨t, ht, hclean, -⟩ := hkeys p hp
      cases hps.symm.trans ht
      refine ⟨.ofString s, hperm.mem_iff.2 ?_, PropKey.text_ofString_eq s⟩
      rw [hprops, ← entryKey_of_clean hclean]
      exact List.mem_map.2 ⟨p, hp, by rw [hps]⟩
  · intro k x w vm₁ hmem hrun
    obtain ⟨t, ht, hclean, -⟩ := hkeys _ hmem
    cases ht
    obtain ⟨t, ht, hw⟩ := denotes_convertMember env (hx _ hmem) hi hrun
    have hfind := findTree_of_mem
      (l := m.map fun p => (entryKey p.1, Flags.cwe, dataTree p.2))
      (by rw [List.map_map]; exact nodup_entryKey hnd hkeys) (List.mem_map_of_mem hmem)
    obtain ⟨u, hu, -, -, hdu⟩ := hl.find hfind
    rw [entryKey_of_clean hclean] at hu
    have htree' : dataTree x = t := by rw [dataTree, ht]; rfl
    refine ⟨u, ?_, t, hw, (htree' ▸ hdu).mono (Nat.zero_le _)⟩
    have hown : o.getOwn (.ofString k) = some (.data u .cwe) :=
      (Node.getOwn_eq hc ⟨PropKey.text_ofString k, .inl rfl⟩).trans hu
    simp [ownValue, ho, hown]

/-- **The keys of a map.** With the built-in prototypes intact, the object that `createJSObject`
makes of a map with well-formed keys has exactly the keys of the map, each with the conversion of
its value, and the prototype of a new object, where no key has a `U+0000` or is `__proto__`, and
nowhere else. -/
theorem createJSObject_keys_iff (hi : Intact vm.heap vm.heap.length) (hnd : (m.map Prod.fst).Nodup)
    (hkeys : ∀ p ∈ m, ∃ k, p.1 = some k ∧ WellFormed k) (hx : ∀ p ∈ m, p.2.Assigned)
    (hrun : createJSObject env m vm = .ok v vm') :
    KeepsKeys env vm m v vm' ↔ ∀ k, some k ∈ m.map Prod.fst → 0 ∉ k ∧ k ≠ protoName := by
  obtain ⟨r, n, rfl, henc, hd⟩ := exists_node_of_toJSVal env hi (x := .map m)
    (m := encodeEntries .object m) (by rw [toJSVal]; exact hrun) rfl
  constructor
  · exact fun hk => hk.clean env hx henc hd
  · intro hclean
    refine keepsKeys_of_clean env hi hnd (fun p hp => ?_) hx henc hd
    obtain ⟨k, hk, hwf⟩ := hkeys p hp
    obtain ⟨h₀, hproto⟩ := hclean k (hk ▸ List.mem_map_of_mem hp)
    exact ⟨k, hk, ⟨hwf, h₀⟩, hproto⟩

end

/-- A map whose entries are converted. -/
theorem exists_createJSObject {m : List (Option Utf16 × DartVal)} {n : Node Tree}
    (hn : encodeEntries .object m = some n) : ∃ v vm',
    createJSObject Env.bare m VM.bare = .ok v vm' ∧
      Denotes vm' VM.bare.heap.length v (.node n) := by
  obtain ⟨v, vm', hrun, -, hd⟩ := exists_toJSVal Env.bare intact_bare (x := .map m)
    (by rw [encode, hn]; rfl)
  rw [toJSVal] at hrun
  exact ⟨v, vm', hrun, hd⟩

/-- `{a: true, length: 2, 7: [3]}`, in which one key is the name of an array's own property and one
is an index. -/
def sampleEntries : List (Option Utf16 × DartVal) :=
  [(some [0x61], .bool true), (some lengthName, .int 2), (some [0x37], .list [.int 3])]

/-- Several keys come back, in their order. -/
theorem createJSObject_keys_true : ∃ v vm',
    createJSObject Env.bare sampleEntries VM.bare = .ok v vm' ∧
      KeepsKeys Env.bare VM.bare sampleEntries v vm' := by
  obtain ⟨n, hn⟩ : ∃ n, encodeEntries .object sampleEntries = some n := ⟨_, rfl⟩
  obtain ⟨v, vm', hrun, -⟩ := exists_createJSObject hn
  refine ⟨v, vm', hrun, (createJSObject_keys_iff Env.bare intact_bare ?_ ?_ ?_ hrun).2 ?_⟩
  · decide
  · simp only [sampleEntries, List.forall_mem_cons]
    exact ⟨⟨_, rfl, by decide⟩, ⟨_, rfl, by decide⟩, ⟨_, rfl, by decide⟩, nofun⟩
  · simp only [sampleEntries, List.forall_mem_cons]
    exact ⟨trivial, trivial, trivial, nofun⟩
  · intro k hk
    have hk' : k = [0x61] ∨ k = lengthName ∨ k = [0x37] := by simpa [sampleEntries] using hk
    rcases hk' with rfl | rfl | rfl
    · exact ⟨by decide, by decide⟩
    · exact ⟨by decide, by decide⟩
    · exact ⟨by decide, by decide⟩

/-- The key `__proto__` is not kept. -/
theorem createJSObject_proto_lost : ∃ v vm',
    createJSObject Env.bare [(some protoName, .bool true)] VM.bare = .ok v vm' ∧
      ¬ KeepsKeys Env.bare VM.bare [(some protoName, .bool true)] v vm' := by
  obtain ⟨n, henc⟩ : ∃ n, encodeEntries .object [(some protoName, .bool true)] = some n := ⟨_, rfl⟩
  obtain ⟨v, vm', hrun, hd⟩ := exists_createJSObject henc
  refine ⟨v, vm', hrun, fun hk => ?_⟩
  obtain ⟨r, rfl⟩ : ∃ r, v = .object r := by cases hd <;> exact ⟨_, rfl⟩
  have hx : ∀ p ∈ [(some protoName, DartVal.bool true)], p.2.Assigned := by
    intro p hp
    rw [List.mem_singleton] at hp
    rw [hp]
    trivial
  exact (hk.clean Env.bare hx henc hd protoName List.mem_cons_self).2 rfl

end QuickjsDart
