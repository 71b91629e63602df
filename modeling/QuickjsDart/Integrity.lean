import QuickjsDart.Evolution
import QuickjsDart.Marshal.Counts
import QuickjsDart.Memory.Forest

/-!
# What stays true of objects

`ObjStep` lists what QuickJS lets anyone do to an object: the bridge, scripts, and the built-in
functions all go through the same checks of flags, of extensibility and of the prototype chain. A
`Change` of a heap is such a step, a new cell, or a change of counts.

`Heap.Sound` is kept by every change: keys are distinct as texts, and prototype chains end. The last
is why the loops of `JS_GetPropertyInternal`, `JS_SetPropertyInternal` and `JS_SetPrototypeInternal`
come to an end (`getWalk_chainFuel`).

`Obj.Kept` says what is left of an object after changes: what is not extensible gets no key and no
other prototype, and what is not configurable stays.
-/

namespace QuickjsDart

open Codec Relation

/-! ## Changes -/

/-- The prototype of a cell. -/
def Heap.protoOf (h : Heap) (r : Ref) : Option Ref := (h.obj? r).bind Obj.proto

/-- A key as QuickJS makes it: the one key with its text. -/
def PropKey.Canonical (key : PropKey) : Prop := ∀ s, key.text = some s → PropKey.ofString s = key

/-- What may be done to an object. -/
inductive ObjStep (h : Heap) (r : Ref) (o : Obj) : Obj → Prop
  | assign {key : PropKey} {old v : JSValue} {fl : Flags} :
      findSlot key o.props = some (.data old fl) → fl.writable = true →
      ObjStep h r o (o.putOwn key (.data v fl))
  | add {key : PropKey} {slot : Slot} : key.Canonical → o.getOwn key = none →
      o.extensible = true → ObjStep h r o (o.putOwn key slot)
  | redefine {key : PropKey} {old slot : Slot} : findSlot key o.props = some old →
      old.flags.configurable = true → ObjStep h r o (o.putOwn key slot)
  /-- A writable property becomes read-only, also where it is not configurable. -/
  | restrict {key : PropKey} {v : JSValue} {fl : Flags} :
      findSlot key o.props = some (.data v fl) →
      ObjStep h r o (o.putOwn key (.data v { fl with writable := false }))
  | remove {key : PropKey} {old : Slot} : findSlot key o.props = some old →
      old.flags.configurable = true →
      ObjStep h r o { o with props := o.props.filter fun p => p.1 ≠ key }
  /-- The length of an array changes, and elements that are configurable go. -/
  | cut {oldLen : ℕ} (len : ℕ) (gone : PropKey → Bool) : o.cls = .array oldLen →
      (∀ p ∈ o.props, gone p.1 = true → p.2.flags.configurable = true) →
      ObjStep h r o (o.cut len gone)
  /-- The bytes of a buffer are written. -/
  | bytes {bs : List UInt8} (bs' : List UInt8) : o.cls = .arrayBuffer bs →
      ObjStep h r o { o with cls := .arrayBuffer bs' }
  | setProto {q : Option Ref} : o.extensible = true → (∀ x, q = some x → x < h.length) →
      onChain h r (chainFuel h) q = false → ObjStep h r o { o with proto := q }
  | settle {state state' : PromiseState} {already already' : Bool} :
      o.cls = .promise state already → ObjStep h r o { o with cls := .promise state' already' }
  | preventExtensions : ObjStep h r o { o with extensible := false }

/-- An object with its own keys in order. -/
structure Obj.WellFormed (o : Obj) : Prop where
  nodup : (o.props.map Prod.fst).Nodup
  canonical : ∀ p ∈ o.props, p.1.Canonical
  noLength : o.cls.isArray = true → findSlot (.name lengthName) o.props = none

/-- What may happen to a heap. -/
inductive Change : Heap → Heap → Prop
  | counts {h h' : Heap} : (∀ r, h'.obj? r = h.obj? r) → h'.length = h.length → Change h h'
  | alloc {h : Heap} {b : Body} : (∀ o, b = .obj o → o.WellFormed) →
      (∀ o p, b = .obj o → o.proto = some p → p < h.length) → Change h (Memory.alloc h b)
  | write {h : Heap} {r : Ref} {o o' : Obj} : h.obj? r = some o → ObjStep h r o o' →
      Change h (h.setObj r o')

/-- One change after the other. -/
def Changes : Heap → Heap → Prop := ReflTransGen Change

/-! ## Slots -/

/-- A property that was stored is found, and every other as before. -/
theorem findSlot_putSlot (key k : PropKey) (slot : Slot) (l : List (PropKey × Slot)) :
    findSlot k (putSlot key slot l) = if k = key then some slot else findSlot k l := by
  induction l with
  | nil => simp only [putSlot, findSlot, eq_comm (a := k)]
  | cons p l ih =>
    obtain ⟨k', s⟩ := p
    rw [putSlot]
    by_cases hk : k' = key
    · subst hk
      rw [if_pos rfl, findSlot, findSlot]
      by_cases h : k = k'
      · rw [if_pos h.symm, if_pos h]
      · rw [if_neg (Ne.symm h), if_neg h, if_neg (Ne.symm h)]
    · rw [if_neg hk, findSlot, ih, findSlot]
      by_cases h : k' = k
      · rw [if_pos h, if_pos h, if_neg fun hkk => hk (h.trans hkk)]
      · rw [if_neg h, if_neg h]

/-- What is left after a deletion is found as before. -/
theorem findSlot_filter (p : PropKey → Bool) (k : PropKey) (l : List (PropKey × Slot)) :
    findSlot k (l.filter fun q => p q.1) = if p k then findSlot k l else none := by
  induction l with
  | nil => simp [findSlot]
  | cons q l ih =>
    obtain ⟨k', s⟩ := q
    rw [List.filter_cons]
    by_cases hk : k' = k
    · subst hk
      cases hp : p k' with
      | true => simp [findSlot]
      | false => simpa [hp] using ih
    · cases hp : p k' with
      | true => simpa [findSlot, hk] using ih
      | false => simpa [findSlot, hk] using ih

/-- A property is found where its key is among them. -/
theorem findSlot_isSome_iff {key : PropKey} {l : List (PropKey × Slot)} :
    (findSlot key l).isSome ↔ key ∈ l.map Prod.fst := by
  induction l with
  | nil => simp [findSlot]
  | cons p l ih =>
    obtain ⟨k, s⟩ := p
    by_cases hk : k = key
    · simp [findSlot, hk]
    · simp [findSlot, hk, Ne.symm hk, ih]

/-- Storing what is there changes nothing. -/
theorem putSlot_eq_self {key : PropKey} {slot : Slot} {l : List (PropKey × Slot)}
    (h : findSlot key l = some slot) : putSlot key slot l = l := by
  induction l with
  | nil => cases h
  | cons p l ih =>
    obtain ⟨k, s⟩ := p
    rw [findSlot] at h
    rw [putSlot]
    split_ifs at h ⊢ with hk
    · cases h
      rfl
    · rw [ih h]

/-- Where the key is there, the keys stay. -/
theorem keys_putSlot {key : PropKey} {l : List (PropKey × Slot)} {old : Slot}
    (h : findSlot key l = some old) (slot : Slot) :
    (putSlot key slot l).map Prod.fst = l.map Prod.fst := by
  induction l with
  | nil => cases h
  | cons p l ih =>
    obtain ⟨k, s⟩ := p
    rw [findSlot] at h
    rw [putSlot]
    split_ifs at h ⊢ with hk
    · rfl
    · rw [List.map_cons, List.map_cons, ih h]

/-! ## Well-formed objects -/

section

variable {h h' : Heap} {r : Ref} {o o' : Obj} {key : PropKey}

/-- An index does not make an array of what is none. -/
theorem grow_isArray (cls : ObjClass) (key : PropKey) : (cls.grow key).isArray = cls.isArray := by
  cases cls with
  | array len =>
    unfold ObjClass.grow
    cases key.arrayIndex <;> rfl
  | _ => rfl

/-- A stored property does not either. -/
theorem Obj.isArray_putOwn (o : Obj) (key : PropKey) (slot : Slot) :
    (o.putOwn key slot).cls.isArray = o.cls.isArray := by
  show (o.clsWith key).isArray = _
  rcases o.clsWith_cases key with h | h
  · rw [h]
  · rw [h, grow_isArray]

/-- A property put under a key that an object may have. -/
theorem Obj.WellFormed.putOwn (ho : o.WellFormed) (hkey : key.Canonical)
    (hlength : o.cls.isArray = true → key ≠ .name lengthName) (slot : Slot) :
    (o.putOwn key slot).WellFormed := by
  refine ⟨?_, fun p hp => ?_, fun harr => ?_⟩
  · show ((putSlot key slot o.props).map Prod.fst).Nodup
    cases hfind : findSlot key o.props with
    | some old =>
      rw [keys_putSlot hfind]
      exact ho.nodup
    | none =>
      rw [putSlot_of_findSlot_eq_none hfind, List.map_append, List.map_singleton]
      refine List.Nodup.append ho.nodup (List.nodup_singleton key) ?_
      rw [List.disjoint_singleton, ← findSlot_isSome_iff, hfind]
      simp
  · rcases mem_putSlot hp with rfl | hp
    · exact hkey
    · exact ho.canonical p hp
  · have harr' : o.cls.isArray = true := by rwa [← o.isArray_putOwn key slot]
    show findSlot (.name lengthName) (putSlot key slot o.props) = none
    rw [findSlot_putSlot, if_neg (Ne.symm (hlength harr')), ho.noLength harr']

/-- The keys of a well-formed object are canonical. -/
theorem Obj.WellFormed.canonical_of_find (ho : o.WellFormed) {slot : Slot}
    (h : findSlot key o.props = some slot) : key.Canonical :=
  ho.canonical (key, slot) (mem_of_findSlot h)

/-- An array has no property `length` besides its own length. -/
theorem Obj.WellFormed.ne_length (ho : o.WellFormed) {slot : Slot}
    (h : findSlot key o.props = some slot) (harr : o.cls.isArray = true) :
    key ≠ .name lengthName := by
  rintro rfl
  rw [ho.noLength harr] at h
  cases h

/-- Fewer properties. -/
theorem Obj.WellFormed.filter (ho : o.WellFormed) (p : PropKey × Slot → Bool) :
    ({ o with props := o.props.filter p } : Obj).WellFormed := by
  refine ⟨?_, fun q hq => ?_, fun harr => ?_⟩
  · exact ho.nodup.sublist (List.filter_sublist.map Prod.fst)
  · exact ho.canonical q (List.mem_of_mem_filter hq)
  · cases hfind : findSlot (.name lengthName) (o.props.filter p) with
    | none => rfl
    | some slot =>
      have hmem := List.mem_of_mem_filter (mem_of_findSlot hfind)
      have hsome := findSlot_isSome_iff.2 (List.mem_map_of_mem (f := Prod.fst) hmem)
      rw [ho.noLength harr] at hsome
      cases hsome

/-- A class of its own for an object that is no array. -/
theorem Obj.WellFormed.withCls (ho : o.WellFormed) {cls : ObjClass} (hcls : cls.isArray = false) :
    ({ o with cls := cls } : Obj).WellFormed := by
  refine ⟨ho.nodup, ho.canonical, fun harr => ?_⟩
  rw [show cls.isArray = true from harr] at hcls
  cases hcls

/-- The ways of `ObjStep` keep objects well formed. -/
theorem ObjStep.wellFormed (hs : ObjStep h r o o') (ho : o.WellFormed) : o'.WellFormed := by
  cases hs with
  | assign hfind _ => exact ho.putOwn (ho.canonical_of_find hfind) (ho.ne_length hfind) _
  | @add key slot hkey hnone _ =>
    refine ho.putOwn hkey (fun harr hname => ?_) slot
    subst hname
    unfold Obj.getOwn at hnone
    cases hcls : o.cls with
    | array len => simp [hcls] at hnone
    | _ => rw [hcls] at harr; cases harr
  | redefine hfind _ => exact ho.putOwn (ho.canonical_of_find hfind) (ho.ne_length hfind) _
  | restrict hfind => exact ho.putOwn (ho.canonical_of_find hfind) (ho.ne_length hfind) _
  | remove _ _ => exact ho.filter _
  | cut len gone harr _ =>
    have hfilter := ho.filter fun p => !gone p.1
    exact ⟨hfilter.nodup, hfilter.canonical, fun _ => hfilter.noLength (by rw [harr]; rfl)⟩
  | bytes bs' _ => exact ho.withCls rfl
  | setProto _ _ _ => exact ⟨ho.nodup, ho.canonical, ho.noLength⟩
  | settle _ => exact ho.withCls rfl
  | preventExtensions => exact ⟨ho.nodup, ho.canonical, ho.noLength⟩

/-! ## Sound heaps -/

/-- What holds of the objects of a heap in all states. -/
structure Heap.Sound (h : Heap) : Prop where
  objects : ∀ r o, h.obj? r = some o → o.WellFormed
  protos : ∀ r p, h.protoOf r = some p → p < h.length
  acyclic : Memory.Acyclic h.protoOf
  fixed : fixedCells ≤ h.length

/-- The chain that a walk follows. -/
theorem Heap.Sound.exists_chain (hs : h.Sound) {start : Option Ref}
    (hstart : ∀ x, start = some x → x < h.length) :
    ∃ l, Memory.Chain h.protoOf start l ∧ l.length < chainFuel h := by
  obtain ⟨l, hl⟩ := hs.acyclic.exists_chain start
  exact ⟨l, hl, Nat.lt_succ_of_le (hl.length_le hs.acyclic hs.protos hstart)⟩

/-- The check of `JS_SetPrototypeInternal` sees the whole chain. -/
theorem onChain_eq {start : Option Ref} {l : List Ref} (hc : Memory.Chain h.protoOf start l) {n : ℕ}
    (hn : l.length < n) (r : Ref) : onChain h r n start = decide (r ∈ l) := by
  induction hc generalizing n with
  | nil =>
    cases n with
    | zero => omega
    | succ n => simp [onChain]
  | @cons x l hrest ih =>
    cases n with
    | zero => omega
    | succ n =>
      rw [onChain, show (h.obj? x).bind Obj.proto = h.protoOf x from rfl,
        ih (by simpa using hn)]
      by_cases hx : x = r
      · simp [hx]
      · simp [hx, Ne.symm hx]

/-- The prototype of the written object is that of its new body. -/
theorem protoOf_setObj (ho : h.obj? r = some o) (o' : Obj) :
    (h.setObj r o').protoOf = Function.update h.protoOf r o'.proto := by
  funext x
  unfold Heap.protoOf
  rw [Heap.obj?_setObj ho]
  by_cases hx : x = r
  · simp [hx]
  · simp [hx]

/-- A new object brings its own prototype. -/
theorem protoOf_alloc (h : Heap) (b : Body) : Heap.protoOf (Memory.alloc h b)
    = Function.update h.protoOf h.length (match b with | .obj o => o.proto | .leaf => none) := by
  funext x
  unfold Heap.protoOf
  rw [Heap.obj?_alloc]
  by_cases hx : x = h.length
  · cases b <;> simp [hx]
  · simp [hx]

/-- Only a step that changes the prototype is a matter of the chain. -/
theorem ObjStep.proto_cases (hs : ObjStep h r o o') : o'.proto = o.proto ∨
    o.extensible = true ∧ (∀ x, o'.proto = some x → x < h.length) ∧
      onChain h r (chainFuel h) o'.proto = false := by
  cases hs with
  | setProto hext hin hchain => exact .inr ⟨hext, hin, hchain⟩
  | _ => exact .inl rfl

/-- A lawful change keeps the heap sound. A new prototype comes with a check for cycles. -/
theorem Change.sound (hc : Change h h') (hs : h.Sound) : h'.Sound := by
  cases hc with
  | counts hobj hlen =>
    have hproto : h'.protoOf = h.protoOf := funext fun r => by rw [Heap.protoOf, hobj, Heap.protoOf]
    refine ⟨fun r o ho => hs.objects r o (by rwa [← hobj]), fun r p hp => ?_, ?_, ?_⟩
    · rw [hlen]
      exact hs.protos r p (by rwa [← hproto])
    · rw [hproto]
      exact hs.acyclic
    · rw [hlen]
      exact hs.fixed
  | @alloc b hwf hproto =>
    have hparent : ∀ p, (match b with | .obj o => o.proto | .leaf => none) = some p →
        p < h.length := by
      intro p hp
      cases b with
      | leaf => cases hp
      | obj o => exact hproto o p rfl hp
    refine ⟨fun r o ho => ?_, fun r p hp => ?_, ?_, ?_⟩
    · rw [Heap.obj?_alloc] at ho
      split_ifs at ho with hr
      · cases b with
        | leaf => cases ho
        | obj o' =>
          cases ho
          exact hwf o rfl
      · exact hs.objects r o ho
    · rw [Memory.length_alloc]
      rw [protoOf_alloc, Function.update_apply] at hp
      split_ifs at hp with hr
      · exact (hparent p hp).trans (Nat.lt_succ_self _)
      · exact (hs.protos r p hp).trans (Nat.lt_succ_self _)
    · rw [protoOf_alloc]
      exact hs.acyclic.extend hs.protos hparent
    · rw [Memory.length_alloc]
      exact hs.fixed.trans (Nat.le_succ _)
  | @write r o o' ho hstep =>
    have hpo : h.protoOf r = o.proto := by rw [Heap.protoOf, ho]; rfl
    refine ⟨fun x q hq => ?_, fun x p hp => ?_, ?_, ?_⟩
    · rw [Heap.obj?_setObj ho] at hq
      split_ifs at hq with hx
      · cases hq
        exact hstep.wellFormed (hs.objects r o ho)
      · exact hs.objects x q hq
    · rw [Heap.length_setObj]
      rw [protoOf_setObj ho, Function.update_apply] at hp
      split_ifs at hp with hx
      · rcases hstep.proto_cases with hsame | ⟨-, hin, -⟩
        · exact hs.protos r p (by rw [hpo, ← hsame, hp])
        · exact hin p hp
      · exact hs.protos x p hp
    · rw [protoOf_setObj ho]
      rcases hstep.proto_cases with hsame | ⟨-, hin, hchain⟩
      · rw [hsame, ← hpo, Function.update_eq_self]
        exact hs.acyclic
      · obtain ⟨l, hl, hlen⟩ := hs.exists_chain hin
        rw [onChain_eq hl hlen, decide_eq_false_iff_not] at hchain
        exact hs.acyclic.setParent hl hchain
    · rw [Heap.length_setObj]
      exact hs.fixed

/-- So do any number of them. -/
theorem Changes.sound (hc : Changes h h') (hs : h.Sound) : h'.Sound := by
  induction hc with
  | refl => exact hs
  | tail _ hstep ih => exact hstep.sound ih

/-- No change deletes a cell. -/
theorem Change.length_le (hc : Change h h') : h.length ≤ h'.length := by
  cases hc with
  | counts _ hlen => rw [hlen]
  | alloc _ _ => rw [Memory.length_alloc]; exact Nat.le_succ _
  | write _ _ => rw [Heap.length_setObj]

/-- Any number of them deletes none. -/
theorem Changes.length_le (hc : Changes h h') : h.length ≤ h'.length := by
  induction hc with
  | refl => exact le_rfl
  | tail _ hstep ih => exact ih.trans hstep.length_le

/-! ## Walks -/

/-- More fuel than the chain is long makes no difference to a read. -/
theorem getWalk_eq {start : Option Ref} {l : List Ref} (hc : Memory.Chain h.protoOf start l)
    {n m : ℕ} (hn : l.length < n) (hm : l.length < m) (key : PropKey) :
    getWalk h key n start = getWalk h key m start := by
  induction hc generalizing n m with
  | nil =>
    cases n with
    | zero => omega
    | succ n =>
      cases m with
      | zero => omega
      | succ m => rfl
  | @cons x l _ ih =>
    cases n with
    | zero => omega
    | succ n =>
      cases m with
      | zero => omega
      | succ m =>
        have hrest := ih (n := n) (m := m) (by simpa using hn) (by simpa using hm)
        rw [getWalk, getWalk]
        cases ho : h.obj? x with
        | none => rfl
        | some o =>
          have hproto : h.protoOf x = o.proto := by rw [Heap.protoOf, ho]; rfl
          rw [hproto] at hrest
          dsimp only
          rw [hrest]

/-- Nor to an assignment. -/
theorem setWalk_eq {start : Option Ref} {l : List Ref} (hc : Memory.Chain h.protoOf start l)
    {n m : ℕ} (hn : l.length < n) (hm : l.length < m) (fast : Ref → Bool) (key : PropKey) :
    setWalk h fast key n start = setWalk h fast key m start := by
  induction hc generalizing n m with
  | nil =>
    cases n with
    | zero => omega
    | succ n =>
      cases m with
      | zero => omega
      | succ m => rfl
  | @cons x l _ ih =>
    cases n with
    | zero => omega
    | succ n =>
      cases m with
      | zero => omega
      | succ m =>
        have hrest := ih (n := n) (m := m) (by simpa using hn) (by simpa using hm)
        rw [setWalk, setWalk]
        cases ho : h.obj? x with
        | none => rfl
        | some o =>
          have hproto : h.protoOf x = o.proto := by rw [Heap.protoOf, ho]; rfl
          rw [hproto] at hrest
          dsimp only
          rw [hrest]

/-! ## What is left of an object -/

/-- What a property that is not configurable may become: an accessor stays, and so does a read-only
value. -/
inductive Slot.Pinned : Slot → Slot → Prop
  | same (slot : Slot) : Slot.Pinned slot slot
  | data (v v' : JSValue) (e w : Bool) :
      Slot.Pinned (.data v ⟨true, e, false⟩) (.data v' ⟨w, e, false⟩)

/-- The properties that are not configurable are there and stay, and an object that is not
extensible gets no key and no other prototype. -/
structure Obj.Kept (o o' : Obj) : Prop where
  pinned : ∀ key slot, findSlot key o.props = some slot → slot.flags.configurable = false →
    ∃ slot', findSlot key o'.props = some slot' ∧ slot.Pinned slot'
  closed : o.extensible = false → o'.extensible = false ∧ o'.proto = o.proto ∧
    ∀ key, findSlot key o.props = none → findSlot key o'.props = none

/-- What is pinned and not configurable stays so. -/
theorem Slot.Pinned.configurable {slot slot' : Slot} (hp : slot.Pinned slot')
    (hc : slot.flags.configurable = false) : slot'.flags.configurable = false := by
  cases hp with
  | same => exact hc
  | data => rfl

/-- What is pinned over two steps is pinned over both. -/
theorem Slot.Pinned.trans {s₁ s₂ s₃ : Slot} (h₁ : s₁.Pinned s₂) (h₂ : s₂.Pinned s₃) :
    s₁.Pinned s₃ := by
  cases h₁ with
  | same => exact h₂
  | data v v' e w =>
    cases h₂ with
    | same => exact .data _ _ _ _
    | data => exact .data _ _ _ _

/-- An object that is left alone. -/
theorem Obj.Kept.refl (o : Obj) : o.Kept o :=
  ⟨fun _ slot hfind _ => ⟨slot, hfind, .same slot⟩, fun hext => ⟨hext, rfl, fun _ h => h⟩⟩

/-- What two steps keep one by one they keep together. -/
theorem Obj.Kept.trans {o₁ o₂ o₃ : Obj} (h₁ : o₁.Kept o₂) (h₂ : o₂.Kept o₃) : o₁.Kept o₃ := by
  refine ⟨fun key slot hfind hc => ?_, fun hext => ?_⟩
  · obtain ⟨slot₂, hfind₂, hp₂⟩ := h₁.pinned key slot hfind hc
    obtain ⟨slot₃, hfind₃, hp₃⟩ := h₂.pinned key slot₂ hfind₂ (hp₂.configurable hc)
    exact ⟨slot₃, hfind₃, hp₂.trans hp₃⟩
  · obtain ⟨hext₂, hproto₂, hkeys₂⟩ := h₁.closed hext
    obtain ⟨hext₃, hproto₃, hkeys₃⟩ := h₂.closed hext₂
    exact ⟨hext₃, hproto₃.trans hproto₂, fun key hnone => hkeys₃ key (hkeys₂ key hnone)⟩

/-- A property put over one that may become it. -/
theorem Obj.Kept.putOwn {old slot : Slot} (hfind : findSlot key o.props = some old)
    (hslot : old.flags.configurable = false → old.Pinned slot) : o.Kept (o.putOwn key slot) := by
  refine ⟨fun k s hs hc => ?_, fun hext => ⟨hext, rfl, fun k hnone => ?_⟩⟩
  · show ∃ slot', findSlot k (putSlot key slot o.props) = some slot' ∧ s.Pinned slot'
    rw [findSlot_putSlot]
    by_cases hk : k = key
    · subst hk
      cases hfind.symm.trans hs
      exact ⟨slot, if_pos rfl, hslot hc⟩
    · exact ⟨s, by rw [if_neg hk, hs], .same s⟩
  · show findSlot k (putSlot key slot o.props) = none
    rw [findSlot_putSlot, if_neg, hnone]
    rintro rfl
    cases hfind.symm.trans hnone

/-- Properties that go are configurable. -/
theorem Obj.Kept.filter {p : PropKey → Bool} {cls : ObjClass} (hp : ∀ key slot,
      findSlot key o.props = some slot → slot.flags.configurable = false → p key = true) :
    o.Kept { o with cls := cls, props := o.props.filter fun q => p q.1 } := by
  refine ⟨fun k s hs hc => ⟨s, ?_, .same s⟩, fun hext => ⟨hext, rfl, fun k hnone => ?_⟩⟩
  · show findSlot k (o.props.filter fun q => p q.1) = some s
    rw [findSlot_filter, if_pos (hp k s hs hc), hs]
  · show findSlot k (o.props.filter fun q => p q.1) = none
    rw [findSlot_filter, hnone, ite_self]

/-- Each way of `ObjStep` keeps the properties that are not configurable, and a closed object
closed. -/
theorem ObjStep.kept (hs : ObjStep h r o o') : o.Kept o' := by
  cases hs with
  | @assign key old v fl hfind hw =>
    refine .putOwn hfind fun hc => ?_
    obtain ⟨w, e, c⟩ := fl
    cases (show w = true from hw)
    cases (show c = false from hc)
    exact .data old v e true
  | add hkey hnone hext =>
    have hfind := findSlot_of_getOwn_none hnone
    refine ⟨fun k s hs hc => ⟨s, ?_, .same s⟩, fun hclosed => ?_⟩
    · show findSlot k (putSlot _ _ o.props) = some s
      rw [findSlot_putSlot, if_neg, hs]
      rintro rfl
      cases hfind.symm.trans hs
    · rw [hext] at hclosed
      cases hclosed
  | redefine hfind hc => exact .putOwn hfind fun hc' => by rw [hc] at hc'; cases hc'
  | @restrict key v fl hfind =>
    refine .putOwn hfind fun hc => ?_
    obtain ⟨w, e, c⟩ := fl
    cases (show c = false from hc)
    cases w with
    | false => exact .same _
    | true => exact .data v v e false
  | @remove key old hfind hc =>
    refine .filter (p := fun k => decide (k ≠ key)) fun k s hs hc' => ?_
    rw [decide_eq_true_eq]
    rintro rfl
    cases hfind.symm.trans hs
    rw [hc] at hc'
    cases hc'
  | cut len gone harr hgone =>
    refine Obj.Kept.filter (p := fun k => !gone k) fun k s hs hc => ?_
    cases hk : gone k with
    | false => rfl
    | true =>
      rw [hgone (k, s) (mem_of_findSlot hs) hk] at hc
      cases hc
  | bytes _ _ => exact ⟨fun _ s hs _ => ⟨s, hs, .same s⟩, fun hext => ⟨hext, rfl, fun _ h => h⟩⟩
  | setProto hext _ _ =>
    refine ⟨fun _ s hs _ => ⟨s, hs, .same s⟩, fun hclosed => ?_⟩
    rw [hext] at hclosed
    cases hclosed
  | settle _ => exact ⟨fun _ s hs _ => ⟨s, hs, .same s⟩, fun hext => ⟨hext, rfl, fun _ h => h⟩⟩
  | preventExtensions =>
    exact ⟨fun _ s hs _ => ⟨s, hs, .same s⟩, fun _ => ⟨rfl, rfl, fun _ h => h⟩⟩

/-- So does a change of the heap, of each object. -/
theorem Change.kept (hc : Change h h') (ho : h.obj? r = some o) :
    ∃ o', h'.obj? r = some o' ∧ o.Kept o' := by
  cases hc with
  | counts hobj _ => exact ⟨o, by rw [hobj, ho], .refl o⟩
  | alloc _ _ =>
    refine ⟨o, ?_, .refl o⟩
    rw [Heap.obj?_alloc, if_neg (Heap.lt_length_of_obj? ho).ne, ho]
  | @write x p p' hp hstep =>
    rw [Heap.obj?_setObj hp]
    by_cases hx : r = x
    · subst hx
      cases hp.symm.trans ho
      exact ⟨p', if_pos rfl, hstep.kept⟩
    · exact ⟨o, by rw [if_neg hx, ho], .refl o⟩

/-- So do any number of changes. -/
theorem Changes.kept (hc : Changes h h') (ho : h.obj? r = some o) :
    ∃ o', h'.obj? r = some o' ∧ o.Kept o' := by
  induction hc with
  | refl => exact ⟨o, ho, .refl o⟩
  | tail _ hstep ih =>
    obtain ⟨o₁, ho₁, hk₁⟩ := ih
    obtain ⟨o₂, ho₂, hk₂⟩ := hstep.kept ho₁
    exact ⟨o₂, ho₂, hk₁.trans hk₂⟩

/-- `Object.freeze` was applied to it. The arrays whose `length` is read-only are exotic. -/
structure Obj.Frozen (o : Obj) : Prop where
  extensible : o.extensible = false
  fixed : ∀ p ∈ o.props, p.2.flags.configurable = false ∧
    ∀ v fl, p.2 = .data v fl → fl.writable = false

/-- What freezing does not reach, as it is no property: the state of a promise, the bytes of a
buffer, and a `length` that is writable. -/
inductive ObjClass.Alters : ObjClass → ObjClass → Prop
  | same (cls : ObjClass) : Alters cls cls
  | state (state state' : PromiseState) (already already' : Bool) :
      Alters (.promise state already) (.promise state' already')
  | bytes (bs bs' : List UInt8) : Alters (.arrayBuffer bs) (.arrayBuffer bs')
  | length (len len' : ℕ) : Alters (.array len) (.array len')

/-- The part that may still change is that of one class. -/
theorem ObjClass.Alters.trans {c₁ c₂ c₃ : ObjClass} (h₁ : c₁.Alters c₂) (h₂ : c₂.Alters c₃) :
    c₁.Alters c₃ := by
  cases h₁ with
  | same => exact h₂
  | state => cases h₂ <;> exact .state _ _ _ _
  | bytes => cases h₂ <;> exact .bytes _ _
  | length => cases h₂ <;> exact .length _ _

/-- Nothing else of it changes. -/
theorem ObjStep.frozen (hs : ObjStep h r o o') (hf : o.Frozen) :
    ∃ cls, o' = { o with cls := cls } ∧ o.cls.Alters cls := by
  cases hs with
  | assign hfind hw =>
    have hro := (hf.fixed _ (mem_of_findSlot hfind)).2 _ _ rfl
    rw [hw] at hro
    cases hro
  | add _ _ hext =>
    rw [hf.extensible] at hext
    cases hext
  | redefine hfind hc =>
    rw [(hf.fixed _ (mem_of_findSlot hfind)).1] at hc
    cases hc
  | @restrict key v fl hfind =>
    have hro := (hf.fixed _ (mem_of_findSlot hfind)).2 _ _ rfl
    have hfl : { fl with writable := false } = fl := by rw [← hro]
    refine ⟨o.cls, ?_, .same _⟩
    unfold Obj.putOwn
    rw [hfl, Obj.clsWith_of_some hfind, putSlot_eq_self hfind]
  | remove hfind hc =>
    rw [(hf.fixed _ (mem_of_findSlot hfind)).1] at hc
    cases hc
  | @cut oldLen len gone hcls hgone =>
    have hnone : ∀ p ∈ o.props, (!gone p.1) = true := fun p hp => by
      cases hk : gone p.1 with
      | false => rfl
      | true =>
        have hc := hgone p hp hk
        rw [(hf.fixed p hp).1] at hc
        cases hc
    refine ⟨.array len, ?_, by rw [hcls]; exact .length _ _⟩
    unfold Obj.cut
    rw [List.filter_eq_self.2 hnone]
  | bytes bs' hcls => exact ⟨.arrayBuffer bs', rfl, by rw [hcls]; exact .bytes _ _⟩
  | setProto hext _ _ =>
    rw [hf.extensible] at hext
    cases hext
  | @settle state state' already already' hcls =>
    exact ⟨.promise state' already', rfl, by rw [hcls]; exact .state _ _ _ _⟩
  | preventExtensions => exact ⟨o.cls, by rw [← hf.extensible], .same _⟩

/-- A frozen object keeps its properties, prototype and class over a change. -/
theorem Change.frozen (hc : Change h h') (ho : h.obj? r = some o) (hf : o.Frozen) :
    ∃ cls, h'.obj? r = some { o with cls := cls } ∧ o.cls.Alters cls := by
  cases hc with
  | counts hobj _ => exact ⟨o.cls, by rw [hobj, ho], .same _⟩
  | alloc _ _ =>
    refine ⟨o.cls, ?_, .same _⟩
    rw [Heap.obj?_alloc, if_neg (Heap.lt_length_of_obj? ho).ne, ho]
  | @write x p p' hp hwrite =>
    rw [Heap.obj?_setObj hp]
    by_cases hx : r = x
    · subst hx
      cases hp.symm.trans ho
      obtain ⟨cls, rfl, halters⟩ := hwrite.frozen hf
      exact ⟨cls, if_pos rfl, halters⟩
    · exact ⟨o.cls, by rw [if_neg hx, ho], .same _⟩

/-- Over any number of changes too. -/
theorem Changes.frozen (hc : Changes h h') (ho : h.obj? r = some o) (hf : o.Frozen) :
    ∃ cls, h'.obj? r = some { o with cls := cls } ∧ o.cls.Alters cls := by
  induction hc with
  | refl => exact ⟨o.cls, ho, .same _⟩
  | tail _ hstep ih =>
    obtain ⟨cls, ho', halters⟩ := ih
    obtain ⟨cls', ho'', halters'⟩ := hstep.frozen ho' ⟨hf.extensible, hf.fixed⟩
    exact ⟨cls', ho'', halters.trans halters'⟩

end

end QuickjsDart
