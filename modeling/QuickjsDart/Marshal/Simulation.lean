import QuickjsDart.Marshal.Tree

/-!
# The conversion builds its tree

Where script code has left the built-in prototypes alone (`Intact`), running `toJSVal` on the heap
succeeds exactly where `encode` does, and the value denotes that tree (`toJSVal_converts`).

An object under construction has only writable properties and a prototype chain of such objects that
ends at the built-in ones, so an assignment to it meets no setter but that of `__proto__`
(`Benign.setWalk`).
-/

namespace QuickjsDart

open Codec

/-! ## What a step keeps -/

section

variable {p : Ref → Prop}

/-- A new cell changes none that is there. -/
theorem Keeps.alloc (vm : VM) (b : Body) : Keeps p vm (vm.alloc b) := by
  refine ⟨fun {x o} _ ho => ?_, by simp [VM.alloc, VM.mapHeap], fun h => h⟩
  have hx := Heap.lt_length_of_obj? ho
  rw [VM.alloc, VM.mapHeap, Heap.obj?_alloc, if_neg hx.ne]
  exact ho

/-- A written object changes no other. -/
theorem Keeps.setObj {vm : VM} {r : Ref} {o : Obj} (ho : vm.heap.obj? r = some o) (o' : Obj) :
    Keeps (· ≠ r) vm (vm.setObj r o') := by
  refine ⟨fun {x q} hx hq => ?_, by simp [VM.setObj, VM.mapHeap], fun h => h⟩
  rw [VM.setObj, VM.mapHeap, Heap.obj?_setObj ho, if_neg hx]
  exact hq

/-- `JS_DupValue` changes no object. -/
theorem Keeps.dup (vm : VM) (v : JSValue) : Keeps p vm (vm.dup v) :=
  ⟨fun _ ho => by simpa [VM.dup, VM.mapHeap] using ho, by simp [VM.dup, VM.mapHeap], fun h => h⟩

/-- `JS_FreeValue` changes no object. -/
theorem Keeps.free (vm : VM) (v : JSValue) : Keeps p vm (vm.free v) :=
  ⟨fun _ ho => by simpa [VM.free, VM.mapHeap] using ho, by simp [VM.free, VM.mapHeap], fun h => h⟩

/-- A release changes counts only. -/
theorem Keeps.release (vm : VM) (rs : List Ref) :
    Keeps p vm (vm.mapHeap fun h => Memory.release Body.refs rs h) := by
  refine ⟨fun {x o} _ ho => ?_, by simp [VM.mapHeap], fun h => h⟩
  unfold Heap.obj? at ho ⊢
  simpa [VM.mapHeap] using ho

/-- The references of a shape change counts only. -/
theorem Keeps.dupRefs (vm : VM) (rs : List Ref) : Keeps p vm (vm.dupRefs rs) := by
  induction rs generalizing vm with
  | nil => exact .refl _ _
  | cons r rs ih => exact (Keeps.dup vm _).trans (ih _)

/-- A new prototype. -/
theorem Keeps.setProto {vm : VM} {r : Ref} {o : Obj} (ho : vm.heap.obj? r = some o)
    (proto : Option Ref) : Keeps (· ≠ r) vm (vm.setProto r o proto) := by
  have ho' : (vm.dupRefs (shapeRefs proto)).heap.obj? r = some o := by rw [VM.obj?_dupRefs, ho]
  exact ((Keeps.dupRefs vm _).trans (Keeps.setObj ho' _)).trans (Keeps.release _ _)

end

/-! ## The built-in prototypes -/

/-- An assignment passes the slot. -/
def Passes : Option Slot → Prop
  | none => True
  | some (.data _ fl) => fl.writable = true
  | some (.accessor _ _ _) => False

/-- The built-in prototypes as QuickJS makes them, with their cells below `b`: what can be written
is a value, but for the accessor `__proto__`, and there is no `toJSON`. -/
structure Intact (h : Heap) (b : ℕ) : Prop where
  object : ∃ o, h.obj? objectPrototype = some o ∧ o.cls = .object ∧ o.proto = none ∧
    (∀ key, key.text ≠ none → key ≠ .name protoName → Passes (o.getOwn key)) ∧
    ∃ g s fl, o.getOwn (.name protoName) = some (.accessor g (some s) fl) ∧ s < b ∧
      isProtoSetter h s = true
  array : ∃ o n, h.obj? arrayPrototype = some o ∧ o.cls = .array n ∧
    o.proto = some objectPrototype ∧ ∀ key, key.text ≠ none → Passes (o.getOwn key)
  toJSON : ∀ r, r = objectPrototype ∨ r = arrayPrototype →
    ∀ o, h.obj? r = some o → o.getOwn (.name toJSONName) = none
  bound : arrayPrototype < b

/-- A started engine has its intrinsic objects as they are. -/
theorem intact_bare : Intact VM.bare.heap VM.bare.heap.length := by
  refine ⟨⟨_, rfl, rfl, rfl, ?_, none, 7, ⟨false, false, true⟩, rfl, by decide, rfl⟩,
    ⟨_, 0, rfl, rfl, rfl, ?_⟩, ?_, by decide⟩
  · intro key _ hk
    simp [Obj.getOwn, findSlot, hk.symm, Passes]
  · intro key _
    unfold Obj.getOwn
    split_ifs
    · rfl
    · trivial
  · rintro r (rfl | rfl) o ⟨⟩ <;> rfl

/-- The intrinsic objects stay as long as the cells below the bound do. -/
theorem Intact.keeps {vm vm' : VM} {b : ℕ} (h : Intact vm.heap b) {p : Ref → Prop}
    (hk : Keeps p vm vm') (hp : ∀ x, x < b → p x) : Intact vm'.heap b := by
  have hb : arrayPrototype < b := h.bound
  have hb₀ : objectPrototype < b := lt_trans (by decide) hb
  obtain ⟨o, ho, hc, hp₀, hpass, g, s, fl, hg, hs, hset⟩ := h.object
  obtain ⟨a, n, ha, hac, hap, hapass⟩ := h.array
  refine ⟨⟨o, hk.obj (hp _ hb₀) ho, hc, hp₀, hpass, g, s, fl, hg, hs, ?_⟩,
    ⟨a, n, hk.obj (hp _ hb) ha, hac, hap, hapass⟩, ?_, hb⟩
  · unfold isProtoSetter at hset ⊢
    cases hso : vm.heap.obj? s with
    | none => rw [hso] at hset; cases hset
    | some q =>
      rw [hso] at hset
      rw [hk.obj (hp _ hs) hso]
      exact hset
  · rintro r (rfl | rfl) q hq
    · rw [hk.obj (hp _ hb₀) ho] at hq
      exact h.toJSON _ (.inl rfl) q (ho.trans hq)
    · rw [hk.obj (hp _ hb) ha] at hq
      exact h.toJSON _ (.inr rfl) q (ha.trans hq)

/-- A prototype chain that an assignment passes: objects of a conversion, at increasing cells, and
then the built-in prototypes. -/
inductive Benign (h : Heap) : ℕ → Option Ref → Prop where
  | object {lo} : Benign h lo (some objectPrototype)
  | array {lo} : Benign h lo (some arrayPrototype)
  | step {lo r o len} : lo ≤ r → h.obj? r = some o → o.cls = Option.elim len .object .array →
      (∀ key, Passes (o.getOwn key)) → Benign h (r + 1) o.proto → Benign h lo (some r)

/-- What the walk for an assignment comes to. -/
def Settles (h : Heap) (b : ℕ) (key : PropKey) (target : SetTarget) : Prop :=
  if key = .name protoName then
    ∃ s, target = .setter (some s) ∧ s < b ∧ isProtoSetter h s = true
  else target = .absent

/-- One object that lets an assignment pass: the walk goes on, or it ends at the element of a fast
array. -/
theorem setWalk_of_passes {h : Heap} (fast : Ref → Bool) {key : PropKey} {r : Ref} {o : Obj}
    (ho : h.obj? r = some o) (len : Option ℕ) (hc : o.cls = len.elim .object .array)
    (hp : Passes (o.getOwn key)) (fuel : ℕ) :
    setWalk h fast key (fuel + 1) (some r) = setWalk h fast key fuel o.proto ∨
      key.isIndex = true ∧ setWalk h fast key (fuel + 1) (some r) = .absent := by
  simp only [setWalk, ho]
  have hcls : ∀ id, o.cls ≠ .exotic id := by
    intro id
    rw [hc]
    cases len <;> exact nofun
  split
  · next id hid => exact absurd hid (hcls id)
  · cases hs : o.getOwn key with
    | none => exact .inl rfl
    | some s =>
      rw [hs] at hp
      cases s with
      | accessor g s fl => exact hp.elim
      | data v fl =>
        rw [Passes] at hp
        dsimp only
        split_ifs with hfast
        · exact .inr ⟨hfast.2.2, rfl⟩
        · exact .inl rfl

/-- An index is not `__proto__`. -/
theorem settles_absent {h : Heap} {b : ℕ} {key : PropKey} (hkey : key.isIndex = true) :
    Settles h b key .absent := by
  unfold Settles
  rw [if_neg]
  rintro rfl
  cases hkey

/-- Where an object lets an assignment pass, the walk settles as it does from the prototype. -/
theorem Settles.of_passes {h : Heap} {b : ℕ} (fast : Ref → Bool) {key : PropKey} {r : Ref} {o : Obj}
    (ho : h.obj? r = some o) (len : Option ℕ) (hc : o.cls = len.elim .object .array)
    (hp : Passes (o.getOwn key)) {fuel : ℕ}
    (hs : Settles h b key (setWalk h fast key fuel o.proto)) :
    Settles h b key (setWalk h fast key (fuel + 1) (some r)) := by
  rcases setWalk_of_passes fast ho len hc hp fuel with heq | ⟨hkey, heq⟩
  · rw [heq]
    exact hs
  · rw [heq]
    exact settles_absent hkey

/-- From `Object.prototype` an assignment is settled within two steps. -/
theorem Intact.setWalk_object {h : Heap} {b : ℕ} (hi : Intact h b) (fast : Ref → Bool)
    {key : PropKey} (hkey : key.text ≠ none) (fuel : ℕ) :
    Settles h b key (setWalk h fast key (fuel + 2) (some objectPrototype)) := by
  obtain ⟨o, ho, hc, hp, hpass, g, s, fl, hg, hs, hset⟩ := hi.object
  by_cases hk : key = .name protoName
  · unfold Settles
    rw [if_pos hk]
    refine ⟨s, ?_, hs, hset⟩
    rw [hk]
    simp only [setWalk, ho, hc, hg]
  · refine .of_passes fast ho none hc (hpass key hkey hk) ?_
    rw [hp]
    unfold Settles
    rw [if_neg hk]
    rfl

/-- From `Array.prototype` it is settled within three. -/
theorem Intact.setWalk_array {h : Heap} {b : ℕ} (hi : Intact h b) (fast : Ref → Bool)
    {key : PropKey} (hkey : key.text ≠ none) (fuel : ℕ) :
    Settles h b key (setWalk h fast key (fuel + 3) (some arrayPrototype)) := by
  obtain ⟨o, n, ho, hc, hp, hpass⟩ := hi.array
  refine .of_passes fast ho (some n) hc (hpass key hkey) ?_
  rw [hp]
  exact hi.setWalk_object fast hkey fuel

/-- The walk along a benign chain ends at the built-in prototypes, or at a fast array before. -/
theorem Benign.setWalk {h : Heap} {b lo : ℕ} {q : Option Ref} (hq : Benign h lo q)
    (hi : Intact h b) (fast : Ref → Bool) {key : PropKey} (hkey : key.text ≠ none)
    (hlo : lo ≤ h.length) {fuel : ℕ} (hfuel : h.length + 3 ≤ fuel + lo) :
    Settles h b key (setWalk h fast key fuel q) := by
  induction hq generalizing fuel with
  | object =>
    obtain ⟨n, rfl⟩ : ∃ n, fuel = n + 2 := ⟨fuel - 2, by omega⟩
    exact hi.setWalk_object fast hkey n
  | array =>
    obtain ⟨n, rfl⟩ : ∃ n, fuel = n + 3 := ⟨fuel - 3, by omega⟩
    exact hi.setWalk_array fast hkey n
  | @step lo r o len hr ho hc hpass _ ih =>
    have hlt := Heap.lt_length_of_obj? ho
    obtain ⟨n, rfl⟩ : ∃ n, fuel = n + 1 := ⟨fuel - 1, by omega⟩
    exact .of_passes fast ho _ hc (hpass key) (ih hlt (by grind))

/-- A cell below a benign chain is not on it. -/
theorem Benign.onChain_eq_false {h : Heap} {b lo : ℕ} {q : Option Ref} (hq : Benign h lo q)
    (hi : Intact h b) {r : Ref} (hb : b ≤ r) (hr : r < lo) (fuel : ℕ) :
    onChain h r fuel q = false := by
  have hbuiltin : ∀ fuel, onChain h r fuel (some objectPrototype) = false := by
    obtain ⟨o, ho, -, hp, -⟩ := hi.object
    have hne : objectPrototype ≠ r :=
      (lt_of_lt_of_le (lt_trans (show objectPrototype < arrayPrototype by decide) hi.bound) hb).ne
    intro fuel
    cases fuel with
    | zero => rfl
    | succ fuel => cases fuel <;> simp [onChain, hne, ho, hp]
  induction hq generalizing fuel with
  | object => exact hbuiltin fuel
  | array =>
    obtain ⟨o, n, ho, -, hp, -⟩ := hi.array
    have hne : arrayPrototype ≠ r := (lt_of_lt_of_le hi.bound hb).ne
    cases fuel with
    | zero => rfl
    | succ fuel => simp [onChain, hne, ho, hp, hbuiltin]
  | @step lo x o len hlo ho hc hpass _ ih =>
    cases fuel with
    | zero => rfl
    | succ fuel =>
      have hlt : r < x := lt_of_lt_of_le hr hlo
      simp [onChain, hlt.ne', ho, ih (Nat.lt_succ_of_lt hlt)]

/-! ## Objects of a conversion -/

/-- The prototype of an object and that of its tree. -/
def DenotesProto (vm : VM) (r : Ref) (q : Option Ref) (n : Node Tree) : Prop :=
  (q = some n.classProto ∧ n.proto = none) ∨
    ∃ x m, q = some x ∧ n.proto = some (.node m) ∧ Denotes vm (r + 1) (.object x) (.node m)

/-- An object denotes a node where its class, prototype and properties do. -/
theorem denotes_node_iff {vm : VM} {lo : ℕ} {r : Ref} {n : Node Tree} :
    Denotes vm lo (.object r) (.node n) ↔ lo ≤ r ∧ ∃ o, vm.heap.obj? r = some o ∧ o.cls = n.cls ∧
      o.extensible = true ∧ DenotesProto vm r o.proto n ∧
      DenotesProps vm (r + 1) o.props n.props := by
  constructor
  · intro h
    cases h with
    | plain hlo ho hc he hq hn hl => exact ⟨hlo, _, ho, hc, he, .inl ⟨hq, hn⟩, hl⟩
    | derived hlo ho hc he hq hn hd hl =>
      exact ⟨hlo, _, ho, hc, he, .inr ⟨_, _, hq, hn, hd⟩, hl⟩
  · rintro ⟨hlo, o, ho, hc, he, ⟨hq, hn⟩ | ⟨x, m, hq, hn, hd⟩, hl⟩
    · exact .plain hlo ho hc he hq hn hl
    · exact .derived hlo ho hc he hq hn hd hl

/-- What a prototype denotes does not depend on its object. -/
theorem DenotesProto.keeps {vm vm' : VM} {r : Ref} {q : Option Ref} {n : Node Tree}
    (h : DenotesProto vm r q n) (hk : Keeps (· ≠ r) vm vm') : DenotesProto vm' r q n := by
  rcases h with h | ⟨x, m, hq, hn, hd⟩
  · exact .inl h
  · exact .inr ⟨x, m, hq, hn, hd.keeps hk fun y hy => (Nat.lt_of_succ_le hy).ne'⟩

/-- The slots of a property list pass. -/
theorem DenotesProps.passes {vm : VM} {lo : ℕ} {l : List (PropKey × Slot)}
    {m : List (PropKey × Flags × Tree)} (h : DenotesProps vm lo l m) (key : PropKey) :
    Passes (findSlot key l) := by
  cases hm : findTree key m with
  | none => rw [h.find_eq_none.1 hm]; trivial
  | some p =>
    obtain ⟨v, hv, hw, -⟩ := h.find hm
    rw [hv]
    exact hw

/-- An object with only writable values lets every assignment pass. -/
theorem passes_getOwn {o : Obj} {len : Option ℕ} (hc : o.cls = len.elim .object .array)
    (hp : ∀ key, Passes (findSlot key o.props)) (key : PropKey) : Passes (o.getOwn key) := by
  unfold Obj.getOwn
  rw [hc]
  cases len with
  | none => exact hp key
  | some n =>
    simp only [Option.elim_some]
    split_ifs
    · rfl
    · exact hp key

/-- The prototype of a class is harmless to the objects of a conversion. -/
theorem benign_classProto {h : Heap} {lo : ℕ} (n : Node Tree) :
    Benign h lo (some n.classProto) := by
  unfold Node.classProto
  cases n.len with
  | none => exact .object
  | some k => exact .array

/-- The prototype chain of an object under construction is benign. -/
theorem Denotes.benign {vm : VM} {lo : ℕ} {v : JSValue} {t : Tree} (h : Denotes vm lo v t) :
    ∀ {r n}, v = .object r → t = .node n → Benign vm.heap lo (some r) := by
  induction h using Denotes.rec (motive_2 := fun _ _ _ _ => True) with
  | int => exact nofun
  | float64 => exact nofun
  | bool => exact nofun
  | str => exact nofun
  | fn => exact nofun
  | plain hlo ho hc he hq hn hl =>
    rintro _ _ ⟨⟩ ⟨⟩
    refine .step hlo ho hc (passes_getOwn hc hl.passes) ?_
    rw [hq]
    exact benign_classProto _
  | derived hlo ho hc he hq hn hd hl ih =>
    rintro _ _ ⟨⟩ ⟨⟩
    refine .step hlo ho hc (passes_getOwn hc hl.passes) ?_
    rw [hq]
    exact ih rfl rfl
  | nil => trivial
  | cons => trivial

/-- So is any prototype that a node has. -/
theorem DenotesProto.benign {vm : VM} {r : Ref} {q : Option Ref} {n : Node Tree}
    (h : DenotesProto vm r q n) : Benign vm.heap (r + 1) q := by
  rcases h with ⟨rfl, -⟩ | ⟨x, m, rfl, -, hd⟩
  · exact benign_classProto n
  · exact hd.benign rfl rfl

/-! ## Changing an object under construction -/

/-- Where the next member goes: an object under construction above the built-in cells. -/
structure Site (vm : VM) (b : ℕ) (r : Ref) (n : Node Tree) : Prop where
  intact : Intact vm.heap b
  above : b ≤ r
  denotes : Denotes vm r (.object r) (.node n)

/-- The keys that go to an object under construction: an array gets no `length`. -/
def Node.Takes (n : Node Tree) (key : PropKey) : Prop :=
  key.text ≠ none ∧ (n.len = none ∨ key ≠ .name lengthName)

/-- The class of a node grows as that of the object. -/
theorem Node.cls_grow (n : Node Tree) (key : PropKey) :
    (⟨growLen key n.len, n.proto, n.props⟩ : Node Tree).cls = n.cls.grow key := by
  unfold Node.cls growLen ObjClass.grow
  cases n.len with
  | none => rfl
  | some k => cases key.arrayIndex <;> rfl

/-- An object and its tree have the same keys, and so the same class after a write. -/
theorem Node.cls_put {vm : VM} {lo : ℕ} {n : Node Tree} {o : Obj} (hc : o.cls = n.cls)
    (hl : DenotesProps vm lo o.props n.props) (key : PropKey) (p : Flags × Tree) :
    (n.put key p).cls = o.clsWith key := by
  cases hm : findTree key n.props with
  | some q =>
    obtain ⟨old, hold, -⟩ := hl.find hm
    rw [Obj.clsWith_of_some hold, hc]
    unfold Node.put Node.cls
    rw [hm]
    rfl
  | none =>
    rw [Obj.clsWith_of_none (hl.find_eq_none.1 hm), hc, ← Node.cls_grow]
    unfold Node.put Node.cls
    rw [hm]
    rfl

/-- A property does not change the prototype that the class brings. -/
theorem Node.classProto_put (n : Node Tree) (key : PropKey) (p : Flags × Tree) :
    (n.put key p).classProto = n.classProto := by
  unfold Node.put Node.classProto growLen
  cases n.len <;> split_ifs <;> rfl

/-- A property that a node takes is stored among the others. -/
theorem Node.getOwn_eq {n : Node Tree} {o : Obj} {key : PropKey} (hc : o.cls = n.cls)
    (ht : n.Takes key) : o.getOwn key = findSlot key o.props := by
  unfold Obj.getOwn
  rw [hc]
  unfold Node.cls
  rcases hl : n.len with _ | k
  · rfl
  · rcases ht.2 with hn | hk
    · rw [hn] at hl; cases hl
    · simp [hk]

/-- A member put into the object's cell. -/
theorem Site.put {vm vm' : VM} {b : ℕ} {r : Ref} {n : Node Tree} {o : Obj} (hs : Site vm b r n)
    (ho : vm.heap.obj? r = some o) {key : PropKey} {fl : Flags} {v : JSValue} {t : Tree}
    (hw : fl.writable = true) (hc : fl.configurable = true) (hv : Denotes vm (r + 1) v t)
    (hk : Keeps (· ≠ r) vm vm') (ho' : vm'.heap.obj? r = some (o.putOwn key (.data v fl))) :
    Site vm' b r (n.put key (fl, t)) := by
  obtain ⟨hlo, o₁, ho₁, hcls, he, hp, hl⟩ := denotes_node_iff.1 hs.denotes
  rw [ho] at ho₁
  cases ho₁
  refine ⟨hs.intact.keeps hk fun x hx => (lt_of_lt_of_le hx hs.above).ne, hs.above, ?_⟩
  refine denotes_node_iff.2 ⟨hlo, _, ho', ?_, he, ?_, ?_⟩
  · rw [Node.cls_put hcls hl]
    rfl
  · have := hp.keeps hk
    unfold DenotesProto at this ⊢
    rw [Node.classProto_put]
    exact this
  · exact (hl.put hw hc hv).keeps hk fun x hx => (Nat.lt_of_succ_le hx).ne'

/-- An object with a new prototype has its other parts. -/
theorem obj?_setProto {vm : VM} {r : Ref} {o : Obj} (ho : vm.heap.obj? r = some o)
    (proto : Option Ref) :
    (vm.setProto r o proto).heap.obj? r = some { o with proto := proto } := by
  have ho' : (vm.dupRefs (shapeRefs proto)).heap.obj? r = some o := by rw [VM.obj?_dupRefs, ho]
  have hset := obj?_setObj_eq ho' { o with proto := proto }
  unfold Heap.obj? at hset ⊢
  simpa [VM.setProto, VM.mapHeap] using hset

/-- An object that is filled stays that while other cells change. -/
theorem Site.keeps {vm vm' : VM} {b : ℕ} {r : Ref} {n : Node Tree} (hs : Site vm b r n)
    (hk : Keeps (fun _ => True) vm vm') : Site vm' b r n :=
  ⟨hs.intact.keeps hk fun _ _ => trivial, hs.above, hs.denotes.keeps hk fun _ _ => trivial⟩

variable (env : Env)

/-- The setter of `__proto__` on an object under construction. -/
theorem Site.protoSet {vm : VM} {b : ℕ} {r : Ref} {n : Node Tree} (hs : Site vm b r n)
    {v : JSValue} {t : Tree} (hv : Denotes vm (r + 1) v t) (ht : ∀ h, t ≠ .fn h) :
    ∃ vm', protoSet (.object r) v vm = .ok .undefined vm' ∧ Keeps (· ≠ r) vm vm' ∧
      Site vm' b r (n.setProto t) := by
  cases t with
  | int => cases hv; exact ⟨vm, rfl, .refl _ _, hs⟩
  | float64 => cases hv; exact ⟨vm, rfl, .refl _ _, hs⟩
  | bool => cases hv; exact ⟨vm, rfl, .refl _ _, hs⟩
  | str => cases hv; exact ⟨vm, rfl, .refl _ _, hs⟩
  | fn h => exact absurd rfl (ht h)
  | node m =>
    obtain ⟨q, rfl⟩ : ∃ q, v = .object q := by cases hv <;> exact ⟨_, rfl⟩
    obtain ⟨hlo, o, ho, hcls, he, hp, hl⟩ := denotes_node_iff.1 hs.denotes
    have hchain : onChain vm.heap r (chainFuel vm.heap) (some q) = false :=
      (hv.benign rfl rfl).onChain_eq_false hs.intact hs.above (Nat.lt_succ_self r) _
    by_cases hq : o.proto = some q
    · refine ⟨vm, by simp [QuickjsDart.protoSet, ho, hq], .refl _ _, hs.intact, hs.above, ?_⟩
      exact denotes_node_iff.2 ⟨hlo, o, ho, hcls, he, .inr ⟨q, m, hq, rfl, hv⟩, hl⟩
    · have hk := Keeps.setProto ho (some q)
      have habove : ∀ x, r + 1 ≤ x → x ≠ r := fun x hx => (Nat.lt_of_succ_le hx).ne'
      refine ⟨_, by simp [QuickjsDart.protoSet, ho, hq, he, hchain], hk,
        hs.intact.keeps hk fun x hx => (lt_of_lt_of_le hx hs.above).ne, hs.above, ?_⟩
      exact denotes_node_iff.2 ⟨hlo, _, obj?_setProto ho (some q), hcls, he,
        .inr ⟨q, m, rfl, rfl, hv.keeps hk habove⟩, hl.keeps hk habove⟩

/-- `JS_SetPropertyInternal` on an object under construction. -/
theorem Site.set {vm : VM} {b : ℕ} {r : Ref} {n : Node Tree} (hs : Site vm b r n) {key : PropKey}
    (hkey : n.Takes key) {v : JSValue} {t : Tree} (hv : Denotes vm (r + 1) v t)
    (ht : ∀ h, t ≠ .fn h) :
    ∃ vm', jsSetPropertyInternal env (.object r) key v true vm = .ok true vm' ∧
      Keeps (· ≠ r) vm vm' ∧ Site vm' b r (n.set key t) := by
  obtain ⟨hlo, o, ho, hcls, he, hp, hl⟩ := denotes_node_iff.1 hs.denotes
  have hown := Node.getOwn_eq hcls hkey
  cases hm : findTree key n.props with
  | some p =>
    -- the object has the property
    obtain ⟨fl, t₀⟩ := p
    obtain ⟨old, hold, hw, hc, -⟩ := hl.find hm
    have hlen : ¬ (o.cls.isArray = true ∧ key = .name lengthName) := by
      rintro ⟨ha, rfl⟩
      rcases hkey.2 with hn | hne
      · rw [hcls, Node.cls, hn] at ha
        cases ha
      · exact hne rfl
    have hk : Keeps (· ≠ r) vm ((vm.setObj r (o.putOwn key (.data v fl))).free old) :=
      (Keeps.setObj ho _).trans (.free _ _)
    refine ⟨_, ?_, hk, ?_⟩
    · simp only [jsSetPropertyInternal, ho, hown, hold, hw, if_true, if_neg hlen]
    · rw [Node.set, hm]
      exact hs.put ho hw hc hv hk (by rw [VM.obj?_free, obj?_setObj_eq ho])
  | none =>
    have hold := hl.find_eq_none.1 hm
    have hlt := Heap.lt_length_of_obj? ho
    have hfuel : vm.heap.length + 3 ≤ chainFuel vm.heap + (r + 1) := by
      have := lt_of_lt_of_le hs.intact.bound hs.above
      simp only [chainFuel, arrayPrototype] at this ⊢
      grind
    have hwalk := hp.benign.setWalk hs.intact (env.fastArray vm.heap) hkey.1 hlt hfuel
    have hstep : jsSetPropertyInternal env (.object r) key v true vm
        = setAfterWalk env (setWalk vm.heap (env.fastArray vm.heap) key (chainFuel vm.heap) o.proto)
            (.object r) (some (r, o)) key v true vm := by
      simp only [jsSetPropertyInternal, ho, hown, hold, hcls]
      unfold Node.cls
      cases n.len <;> rfl
    rw [hstep, Node.set, hm]
    unfold Settles at hwalk
    by_cases hproto : key = .name protoName
    · -- the setter of `__proto__`
      simp only [if_pos hproto] at hwalk ⊢
      obtain ⟨s, htarget, -, hset⟩ := hwalk
      obtain ⟨vm₁, hrun, hk, hs₁⟩ := hs.protoSet hv ht
      refine ⟨(vm₁.free v).free .undefined, ?_, hk.trans ((Keeps.free _ _).trans (.free _ _)),
        hs₁.keeps ((Keeps.free _ _).trans (.free _ _))⟩
      simp only [htarget, setAfterWalk, callSetter, callAccessor, hset, if_true, List.headD_cons,
        hrun]
    · simp only [if_neg hproto] at hwalk ⊢
      rw [hwalk]
      have hk := Keeps.setObj ho (o.putOwn key (.data v .cwe))
      refine ⟨_, by simp only [setAfterWalk, he, if_true], hk, ?_⟩
      exact hs.put ho rfl rfl hv hk (obj?_setObj_eq ho _)

/-- `JS_DefinePropertyValue` on an object under construction. -/
theorem Site.define {vm : VM} {b : ℕ} {r : Ref} {n : Node Tree} (hs : Site vm b r n) {key : PropKey}
    (hkey : n.Takes key) {fl : Flags} (hw : fl.writable = true) (hc : fl.configurable = true)
    {v : JSValue} {t : Tree} (hv : Denotes vm (r + 1) v t) :
    ∃ vm', jsDefinePropertyValue env (.object r) key v fl vm = .ok true vm' ∧
      Keeps (· ≠ r) vm vm' ∧ Site vm' b r (n.put key (fl, t)) := by
  obtain ⟨hlo, o, ho, hcls, he, hp, hl⟩ := denotes_node_iff.1 hs.denotes
  have hown := Node.getOwn_eq hcls hkey
  have hk := Keeps.setObj ho (o.putOwn key (.data v fl))
  have hcls' : ∀ id, o.cls ≠ .exotic id := by
    intro id
    rw [hcls, Node.cls]
    cases n.len <;> exact nofun
  cases hm : findTree key n.props with
  | some p =>
    obtain ⟨fl₀, t₀⟩ := p
    obtain ⟨old, hold, -, hc₀, -⟩ := hl.find hm
    have hk' := hk.trans (Keeps.release _ (Slot.data old fl₀).refs)
    refine ⟨_, ?_, hk', hs.put ho hw hc hv hk' ?_⟩
    · simp only [jsDefinePropertyValue, ho, hown, hold, Slot.flags, hc₀, if_true]
    · unfold Heap.obj?
      simp only [VM.mapHeap, Memory.body?_release]
      exact obj?_setObj_eq ho _
  | none =>
    have hold := hl.find_eq_none.1 hm
    refine ⟨_, ?_, hk, hs.put ho hw hc hv hk (obj?_setObj_eq ho _)⟩
    simp only [jsDefinePropertyValue, ho, hown, hold, he, if_true]

/-! ## Members -/

/-- The handle of a name is made in a cell of its own. -/
theorem PropName.handle_keeps (name : PropName) (vm : VM) :
    ∃ v vm', name.handle vm = .ok v vm' ∧ Keeps (fun _ => True) vm vm' := by
  cases name with
  | int n => exact ⟨_, vm, rfl, .refl _ _⟩
  | string s => exact ⟨_, _, rfl, .alloc _ _⟩
  | null => exact ⟨_, _, rfl, .alloc _ _⟩

/-- A key made of a text has a text. -/
theorem PropKey.text_ofString (s : Utf16) : (PropKey.ofString s).text ≠ none := by
  unfold PropKey.ofString
  split
  · split_ifs <;> exact nofun
  · exact nofun

/-- A key made of a number has a text. -/
theorem PropKey.text_ofInt32 (n : Int32) : (PropKey.ofInt32 n).text ≠ none := by
  unfold PropKey.ofInt32
  split_ifs <;> exact nofun

/-- The key of a name has a text. -/
theorem PropName.text_key (name : PropName) : name.key.text ≠ none := by
  cases name with
  | int n => exact PropKey.text_ofInt32 _
  | string s => exact PropKey.text_ofString _
  | null => exact PropKey.text_ofString (ffiString nullName)

/-- The text of a negative number is no name of a property of arrays. -/
theorem PropKey.ofInt32_ne_length (n : Int32) : PropKey.ofInt32 n ≠ .name lengthName := by
  unfold PropKey.ofInt32
  split_ifs
  · exact nofun
  · intro h
    injection h with h
    simp [asciiUnits, lengthName] at h

/-- The names a conversion uses: an array's are its indices. -/
def Node.Fits (n : Node Tree) (name : PropName) : Prop := n.len = none ∨ ∃ i, name = .int i

/-- A node takes the names that fit it. -/
theorem Node.Fits.takes {n : Node Tree} {name : PropName} (h : n.Fits name) : n.Takes name.key := by
  refine ⟨name.text_key, ?_⟩
  rcases h with h | ⟨i, rfl⟩
  · exact .inl h
  · exact .inr (PropKey.ofInt32_ne_length _)

/-- `setProperty` on an object under construction. -/
theorem Site.setProperty {vm : VM} {b : ℕ} {r : Ref} {n : Node Tree} (hs : Site vm b r n)
    {name : PropName} (hname : n.Fits name) {v : JSValue} {t : Tree} (hv : Denotes vm (r + 1) v t)
    (ht : ∀ h, t ≠ .fn h) :
    ∃ vm', setProperty env (.object r) name v true vm = .ok () vm' ∧ Keeps (· ≠ r) vm vm' ∧
      Site vm' b r (n.set name.key t) := by
  obtain ⟨w, vm₁, hrun₁, hk₁⟩ := name.handle_keeps vm
  have hk₂ : Keeps (fun _ => True) vm (vm₁.dup v) := hk₁.trans (.dup _ _)
  obtain ⟨vm₂, hrun₂, hk₃, hs₂⟩ := (hs.keeps hk₂).set env hname.takes
    (hv.keeps hk₂ fun _ _ => trivial) ht
  refine ⟨vm₂, ?_, (hk₂.mono fun _ _ => trivial).trans hk₃, hs₂⟩
  unfold QuickjsDart.setProperty
  rw [bind_of_ok hrun₁]
  refine ffi_of_ok ?_
  unfold setProp
  rw [hrun₂]

/-- The tree of a new hook. -/
theorem denotes_newHook (vm : VM) (id : ℤ) (h : Handler) :
    Denotes (newHook id h vm) vm.heap.length (.object vm.heap.length) (.fn h) := by
  refine .fn le_rfl (o := hookObj id) ?_ rfl (List.mem_append_right _ (List.mem_singleton_self _))
  simp [newHook, VM.alloc, VM.mapHeap, Heap.obj?_alloc]

/-- A new hook is a new cell. -/
theorem keeps_newHook {p : Ref → Prop} (vm : VM) (id : ℤ) (h : Handler) :
    Keeps p vm (newHook id h vm) := by
  have := Keeps.alloc (p := p) vm (.obj (hookObj id))
  exact ⟨this.obj, this.length, fun hg => List.mem_append_left _ hg⟩

/-- `installDartHook` on an object under construction. -/
theorem Site.installDartHook {vm : VM} {b : ℕ} {r : Ref} {n : Node Tree} (hs : Site vm b r n)
    {key : PropKey} (hkey : n.Takes key) (id : ℤ) (h : Handler) :
    ∃ vm', installDartHook env (.object r) key id h vm = .ok () vm' ∧ Keeps (· ≠ r) vm vm' ∧
      Site vm' b r (n.put key (.cw, .fn h)) := by
  obtain ⟨-, o, ho, -⟩ := denotes_node_iff.1 hs.denotes
  have hlt := Heap.lt_length_of_obj? ho
  have hdup : Keeps (fun _ => True) (newHook id h vm)
      ((newHook id h vm).dup (.object vm.heap.length)) := .dup _ _
  have hk : Keeps (fun _ => True) vm ((newHook id h vm).dup (.object vm.heap.length)) :=
    (keeps_newHook vm id h).trans hdup
  have hfn : Denotes ((newHook id h vm).dup (.object vm.heap.length)) (r + 1)
      (.object vm.heap.length) (.fn h) :=
    ((denotes_newHook vm id h).keeps hdup fun _ _ => trivial).mono hlt
  obtain ⟨vm₁, hrun, hk₁, hs₁⟩ :=
    (hs.keeps hk).define env hkey (rfl : Flags.cw.writable = true) rfl hfn
  refine ⟨vm₁, ?_, (hk.mono fun _ _ => trivial).trans hk₁, hs₁⟩
  simp only [QuickjsDart.installDartHook, hrun]

/-- An id is taken outside of the heap. -/
theorem keeps_nextHandlerId {p : Ref → Prop} (vm : VM) (h : Handler) :
    ∃ id vm', nextHandlerId h vm = .ok id vm' ∧ Keeps p vm vm' :=
  ⟨_, _, rfl, fun _ ho => ho, le_rfl, fun hg => hg⟩

/-- `createNewFunction` on an object under construction. -/
theorem Site.createNewFunction {vm : VM} {b : ℕ} {r : Ref} {n : Node Tree} (hs : Site vm b r n)
    {name : PropName} (hname : n.Fits name) (hnull : name ≠ .null) (h : Handler) :
    ∃ vm', createNewFunction env name h (some (.object r)) vm = .ok () vm' ∧ Keeps (· ≠ r) vm vm' ∧
      Site vm' b r (n.put name.key (.cw, .fn h)) := by
  obtain ⟨w, vm₁, hrun₁, hk₁⟩ := name.handle_keeps vm
  obtain ⟨id, vm₂, hrun₂, hk₂⟩ := keeps_nextHandlerId (p := fun _ => True) vm₁ h
  obtain ⟨vm₃, hrun₃, hk₃, hs₃⟩ :=
    (hs.keeps (hk₁.trans hk₂)).installDartHook env hname.takes id h
  refine ⟨vm₃, ?_, ((hk₁.trans hk₂).mono fun _ _ => trivial).trans hk₃, hs₃⟩
  simp only [QuickjsDart.createNewFunction, if_neg hnull]
  rw [bind_of_ok hrun₁, bind_of_ok hrun₂]
  exact ffi_of_ok hrun₃

/-! ## Conversions -/

/-- What a computation that adds members comes to. -/
def Builds (vm : VM) (b : ℕ) (r : Ref) (run : Dart Unit) : Option (Node Tree) → Prop
  | some n => ∃ vm', run vm = .ok () vm' ∧ Keeps (· ≠ r) vm vm' ∧ Site vm' b r n
  | none => ∃ e vm', run vm = .error (.throws e) vm'

/-- What a conversion comes to: a value that denotes the tree, on new cells, or an error. -/
def Converts (vm : VM) (run : Dart JSValue) : Option Tree → Prop
  | some t => ∃ v vm', run vm = .ok v vm' ∧ Keeps (fun _ => True) vm vm' ∧
      Denotes vm' vm.heap.length v t
  | none => ∃ e vm', run vm = .error (.throws e) vm'

/-- One step after another. -/
theorem Builds.bind {vm : VM} {b : ℕ} {r : Ref} {run₁ run₂ : Dart Unit} {m : Option (Node Tree)}
    {f : Node Tree → Option (Node Tree)} (h₁ : Builds vm b r run₁ m)
    (h₂ : ∀ {vm' n'}, m = some n' → Site vm' b r n' → Builds vm' b r run₂ (f n')) :
    Builds vm b r (run₁ >>= fun _ => run₂) (m.bind f) := by
  cases m with
  | none =>
    obtain ⟨e, vm₁, hrun⟩ := h₁
    exact ⟨e, vm₁, bind_of_error hrun⟩
  | some n₁ =>
    obtain ⟨vm₁, hrun₁, hk₁, hs₁⟩ := h₁
    have h := h₂ rfl hs₁
    rw [Option.bind_some]
    cases hf : f n₁ with
    | none =>
      rw [hf] at h
      obtain ⟨e, vm₂, hrun₂⟩ := h
      exact ⟨e, vm₂, by rw [bind_of_ok hrun₁, hrun₂]⟩
    | some n₂ =>
      rw [hf] at h
      obtain ⟨vm₂, hrun₂, hk₂, hs₂⟩ := h
      exact ⟨vm₂, by rw [bind_of_ok hrun₁, hrun₂], hk₁.trans hk₂, hs₂⟩

/-- A value is converted, and then assigned. -/
theorem Site.setConverted {vm : VM} {b : ℕ} {r : Ref} {n : Node Tree} (hs : Site vm b r n)
    {name : PropName} (hname : n.Fits name) {run : Dart JSValue} {m : Option Tree}
    (hrun : Converts vm run m) (hm : ∀ h, m ≠ some (.fn h)) :
    Builds vm b r (run >>= fun v => QuickjsDart.setProperty env (.object r) name v true)
      (m.map fun t => n.set name.key t) := by
  cases m with
  | none =>
    obtain ⟨e, vm₁, hrun⟩ := hrun
    exact ⟨e, vm₁, bind_of_error hrun⟩
  | some t =>
    obtain ⟨v, vm₁, hrun, hk₁, hv⟩ := hrun
    obtain ⟨-, o, ho, -⟩ := denotes_node_iff.1 hs.denotes
    obtain ⟨vm₂, hrun₂, hk₂, hs₂⟩ := (hs.keeps hk₁).setProperty env hname
      (hv.mono (Heap.lt_length_of_obj? ho)) fun h ht => hm h (congrArg some ht)
    exact ⟨vm₂, by rw [bind_of_ok hrun, hrun₂], (hk₁.mono fun _ _ => trivial).trans hk₂, hs₂⟩

/-- A new object is made and filled. -/
theorem Builds.converts {vm : VM} {b : ℕ} {body : Body} (run : JSValue → Dart Unit)
    {m : Option (Node Tree)}
    (h : Builds (vm.alloc body) b vm.heap.length (run (.object vm.heap.length)) m) :
    Converts vm (newCell .object body >>= fun v => run v >>= fun _ => pure v) (m.map .node) := by
  have hnew : newCell .object body vm = .ok (.object vm.heap.length) (vm.alloc body) := rfl
  cases m with
  | none =>
    obtain ⟨e, vm₁, hrun⟩ := h
    exact ⟨e, vm₁, by rw [bind_of_ok hnew, bind_of_error hrun]⟩
  | some n =>
    obtain ⟨vm₁, hrun, hk, hs⟩ := h
    refine ⟨.object vm.heap.length, vm₁, by rw [bind_of_ok hnew, bind_of_ok hrun]; rfl, ?_,
      hs.denotes⟩
    have hk₀ : Keeps (fun _ => True) vm (vm.alloc body) := .alloc vm body
    refine ⟨fun {x o} _ ho => ?_, hk₀.length.trans hk.length,
      fun hg => hk.registered (hk₀.registered hg)⟩
    exact hk.obj (Heap.lt_length_of_obj? ho).ne (hk₀.obj trivial ho)

/-- A new object is a site. -/
theorem site_alloc {vm : VM} {b : ℕ} (hi : Intact vm.heap b) (hb : b ≤ vm.heap.length)
    (len : Option ℕ) :
    Site (vm.alloc (.obj (.fresh (Node.cls ⟨len, none, []⟩) (Node.classProto ⟨len, none, []⟩)))) b
      vm.heap.length ⟨len, none, []⟩ := by
  refine ⟨hi.keeps (.alloc (p := fun _ => True) _ _) fun _ _ => trivial, hb, ?_⟩
  refine .plain le_rfl
    (o := .fresh (Node.cls ⟨len, none, []⟩) (Node.classProto ⟨len, none, []⟩)) ?_ rfl rfl rfl rfl
    .nil
  simp [VM.alloc, VM.mapHeap, Heap.obj?_alloc]

/-- Members keep an object an object. -/
theorem len_encodeMember {n n' : Node Tree} {name : PropName} {x : DartVal}
    (h : encodeMember n name x = some n') (hn : n.len = none) : n'.len = none := by
  have hput : ∀ key p, (n.put key p).len = none := fun key p => by simp [Node.put, growLen, hn]
  have hset : ∀ key t, (n.set key t).len = none := by
    intro key t
    unfold Node.set Node.setProto
    split
    · exact hput _ _
    · split_ifs
      · split <;> exact hn
      · exact hput _ _
  cases x with
  | int k => cases h; exact hset _ _
  | string s => cases h; exact hset _ _
  | bool b => cases h; exact hset _ _
  | double d => cases h; exact hn
  | list elems =>
    obtain ⟨m, -, rfl⟩ := Option.map_eq_some_iff.1 h
    exact hset _ _
  | map entries =>
    obtain ⟨m, -, rfl⟩ := Option.map_eq_some_iff.1 h
    exact hset _ _
  | handler k =>
    rw [encodeMember] at h
    split_ifs at h
    cases h
    exact hput _ _
  | _ => cases h

/-- A container is no function. -/
theorem ne_fn_of_map_node {m : Option (Node Tree)} (h : Handler) :
    m.map Tree.node ≠ some (.fn h) := by
  cases m <;> exact nofun

/-- What is filled lies above the bound. -/
theorem Site.le_length {vm : VM} {b : ℕ} {r : Ref} {n : Node Tree} (hs : Site vm b r n) :
    b ≤ vm.heap.length := by
  obtain ⟨-, o, ho, -⟩ := denotes_node_iff.1 hs.denotes
  exact hs.above.trans (Heap.lt_length_of_obj? ho).le

mutual

/-- The loop over the elements builds what `encodeElements` gives. -/
theorem setElements_builds : ∀ (elems : List DartVal) {vm : VM} {b : ℕ} {r : Ref} {n : Node Tree}
    (i : ℕ), Site vm b r n →
    Builds vm b r (setElements env (.object r) i elems) (encodeElements n i elems)
  | [], vm, _, _, _, _, hs => by
    rw [setElements, encodeElements]
    exact ⟨vm, rfl, .refl _ _, hs⟩
  | x :: rest, _, _, _, _, i, hs => by
    rw [setElements, encodeElements]
    exact (setMember_builds x hs (.inr ⟨_, rfl⟩)).bind fun _ hs' =>
      setElements_builds rest (i + 1) hs'

/-- The loop over the entries builds what `encodeEntries` gives. -/
theorem setEntries_builds : ∀ (entries : List (Option Utf16 × DartVal)) {vm : VM} {b : ℕ} {r : Ref}
    {n : Node Tree}, n.len = none → Site vm b r n →
    Builds vm b r (setEntries env (.object r) entries) (encodeEntries n entries)
  | [], vm, _, _, _, _, hs => by
    rw [setEntries, encodeEntries]
    exact ⟨vm, rfl, .refl _ _, hs⟩
  | (key, x) :: rest, _, _, _, _, hn, hs => by
    rw [setEntries, encodeEntries]
    exact (setMember_builds x hs (.inl hn)).bind fun hm hs' =>
      setEntries_builds rest (len_encodeMember hm hn) hs'

/-- A member is stored as `encodeMember` stores it, or refused as that refuses it. -/
theorem setMember_builds : ∀ (x : DartVal) {vm : VM} {b : ℕ} {r : Ref} {n : Node Tree}
    {name : PropName}, Site vm b r n → n.Fits name →
    Builds vm b r (setMember env (.object r) name x) (encodeMember n name x)
  | .int k, vm, _, _, _, _, hs, hname => by
    rw [setMember, encodeMember]
    exact hs.setConverted env hname (m := some _) ⟨_, vm, rfl, .refl _ _, .int⟩ nofun
  | .string s, vm, _, _, _, _, hs, hname => by
    rw [setMember, encodeMember]
    exact hs.setConverted env hname (m := some _) ⟨_, _, rfl, .alloc _ _, .str⟩ nofun
  | .bool c, vm, _, _, _, _, hs, hname => by
    rw [setMember, encodeMember]
    exact hs.setConverted env hname (m := some _) ⟨_, vm, rfl, .refl _ _, .bool⟩ nofun
  | .double d, vm, _, _, _, _, hs, _ => by
    rw [setMember, encodeMember]
    exact ⟨vm, rfl, .refl _ _, hs⟩
  | .list elems, vm, _, _, n, name, hs, hname => by
    rw [setMember, encodeMember, createJSArray]
    have hnew := Builds.converts (fun v => setElements env v 0 elems)
      (setElements_builds elems 0 (site_alloc hs.intact hs.le_length (some 0)))
    have := hs.setConverted env hname hnew fun h => ne_fn_of_map_node h
    rwa [Option.map_map] at this
  | .map entries, vm, _, _, n, name, hs, hname => by
    rw [setMember, encodeMember, createJSObject]
    have hnew := Builds.converts (fun v => setEntries env v entries)
      (setEntries_builds entries rfl (site_alloc hs.intact hs.le_length none))
    have := hs.setConverted env hname hnew fun h => ne_fn_of_map_node h
    rwa [Option.map_map] at this
  | .handler h, vm, _, _, _, name, hs, hname => by
    rw [setMember, encodeMember]
    split_ifs with hnull
    · exact ⟨.funcName, vm, by rw [createNewFunction, if_pos hnull]; rfl⟩
    · exact hs.createNewFunction env hname hnull h
  | .otherMap t, vm, _, _, _, _, _, _ => by
    simp only [setMember, encodeMember]
    exact ⟨_, vm, rfl⟩
  | .null, vm, _, _, _, _, _, _ => by
    simp only [setMember, encodeMember]
    exact ⟨_, vm, rfl⟩
  | .jsValue v, vm, _, _, _, _, _, _ => by
    simp only [setMember, encodeMember]
    exact ⟨_, vm, rfl⟩
  | .future id, vm, _, _, _, _, _, _ => by
    simp only [setMember, encodeMember]
    exact ⟨_, vm, rfl⟩
  | .other t, vm, _, _, _, _, _, _ => by
    simp only [setMember, encodeMember]
    exact ⟨_, vm, rfl⟩

end

/-- The number that `toJSVal` makes of an `int`. -/
theorem toJSVal_int (n : Int64) (vm : VM) :
    toJSVal env (.int n) vm = .ok (intValue n.toInt) vm := by
  rw [toJSVal]
  split_ifs with h
  · rfl
  · rw [intValue, if_pos (by omega)]
    rfl

/-- A number denotes itself. -/
theorem denotes_intValue (vm : VM) (lo : ℕ) (n : ℤ) :
    Denotes vm lo (intValue n) (numberTree (intValue n)) := by
  unfold intValue
  split_ifs
  · exact .int
  · exact .float64

/-- A double denotes its number, whichever representation it gets. -/
theorem denotes_jsNewFloat64 (vm : VM) (lo : ℕ) (d : Binary64) :
    Denotes vm lo (jsNewFloat64 d) (numberTree (jsNewFloat64 d)) := by
  unfold jsNewFloat64
  split_ifs
  · exact .int
  · exact .float64

/-- **Conversion builds the tree.** With the built-in prototypes intact, `toJSVal` returns a value
that denotes the tree of `encode`, on new cells, and throws where there is none. -/
theorem toJSVal_converts (x : DartVal) {vm : VM} (hi : Intact vm.heap vm.heap.length) :
    Converts vm (toJSVal env x) (encode x) := by
  cases x with
  | int n => exact ⟨_, vm, toJSVal_int env n vm, .refl _ _, denotes_intValue vm _ _⟩
  | double d => exact ⟨_, vm, rfl, .refl _ _, denotes_jsNewFloat64 vm _ d⟩
  | string s => exact ⟨_, _, rfl, .alloc _ _, .str⟩
  | bool b => exact ⟨_, vm, rfl, .refl _ _, .bool⟩
  | list elems =>
    rw [toJSVal, encode, createJSArray]
    exact (setElements_builds env elems 0 (site_alloc hi le_rfl (some 0))).converts _
  | map entries =>
    rw [toJSVal, encode, createJSObject]
    exact (setEntries_builds env entries rfl (site_alloc hi le_rfl none)).converts _
  | null => exact ⟨_, vm, rfl⟩
  | otherMap t => exact ⟨_, vm, rfl⟩
  | handler h => exact ⟨_, vm, rfl⟩
  | jsValue v => exact ⟨_, vm, rfl⟩
  | future id => exact ⟨_, vm, rfl⟩
  | other t => exact ⟨_, vm, rfl⟩

/-- Where `encode` has a tree, `toJSVal` returns a value that denotes it. -/
theorem exists_toJSVal {x : DartVal} {vm : VM} {t : Tree} (hi : Intact vm.heap vm.heap.length)
    (h : encode x = some t) :
    ∃ v vm', toJSVal env x vm = .ok v vm' ∧ Keeps (fun _ => True) vm vm' ∧
      Denotes vm' vm.heap.length v t := by
  have hx := toJSVal_converts env x hi
  rwa [h] at hx

/-- A conversion that returns has built its tree. -/
theorem denotes_of_toJSVal {x : DartVal} {vm vm' : VM} {v : JSValue}
    (hi : Intact vm.heap vm.heap.length) (h : toJSVal env x vm = .ok v vm') :
    ∃ t, encode x = some t ∧ Denotes vm' vm.heap.length v t := by
  have hx := toJSVal_converts env x hi
  cases ht : encode x with
  | none =>
    rw [ht] at hx
    obtain ⟨e, vm₁, hrun⟩ := hx
    rw [h] at hrun
    cases hrun
  | some t =>
    rw [ht] at hx
    obtain ⟨w, vm₁, hrun, -, hd⟩ := hx
    rw [h] at hrun
    cases hrun
    exact ⟨t, rfl, hd⟩

end QuickjsDart
