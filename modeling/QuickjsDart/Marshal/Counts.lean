import QuickjsDart.Conversion

/-!
# Reference counts during a conversion

`toJSVal` only adds cells. Where an assignment to a new object or array runs no script code
(`Region.old`), the cells below a bound `n` keep their bodies and their counts, and the cells from
there on refer to each other only, so that releasing the result leaves the others alone
(`toJSVal_free_count`). Nothing of it ends the process. The walk over the value is that of every
`Conversion`; assignments have rules of their own here (`Assigns`), since they run no code.
-/

namespace QuickjsDart

open Codec

/-- An assignment passes the object without running script code. -/
structure Tame (h : Heap) (n : ℕ) (o : Obj) : Prop where
  cls : ∀ id, o.cls ≠ .exotic id
  setter : ∀ key g s fl, o.getOwn key = some (.accessor g (some s) fl) →
    s < n ∧ isProtoSetter h s = true

/-- There is a plain object. -/
def PlainAt (h : Heap) (r : Ref) : Prop := ∃ o, h.obj? r = some o ∧ o.cls.isPlain = true

/-- There is a plain object that is no array. -/
def ObjectAt (h : Heap) (r : Ref) : Prop := ∃ o, h.obj? r = some o ∧ o.cls = .object

/-- The state of a conversion that started with `n` cells: `T` are the prototypes that an assignment
to one of its objects may come to. -/
structure Region (T : Ref → Prop) (n : ℕ) (h : Heap) : Prop where
  le : n ≤ h.length
  protos : T objectPrototype ∧ T arrayPrototype
  old : ∀ r, T r → r < n ∧ ∃ o, h.obj? r = some o ∧ Tame h n o ∧ ∀ p, o.proto = some p → T p
  refs : ∀ r, n ≤ r → ∀ x ∈ Memory.children Body.refs h r, n ≤ x
  plain : ∀ r o, n ≤ r → h.obj? r = some o → o.cls.isPlain = true →
    (∀ p ∈ o.props, ∃ v fl, p.2 = .data v fl) ∧ ∀ p, o.proto = some p → T p ∨ n ≤ p ∧ PlainAt h p

/-- The cells below `n` are left alone, and plain objects stay what they are. -/
structure Kept (n : ℕ) (h h' : Heap) : Prop where
  body : ∀ r < n, Memory.body? h' r = Memory.body? h r
  count : ∀ r < n, Memory.count h' r = Memory.count h r
  plain : ∀ r, n ≤ r → PlainAt h r → PlainAt h' r
  object : ∀ r, n ≤ r → ObjectAt h r → ObjectAt h' r

/-- A value of the conversion. -/
def Local (n : ℕ) (h : Heap) : JSValue → Prop
  | .object q => n ≤ q ∧ PlainAt h q
  | v => ∀ x, v.ref? = some x → n ≤ x

/-- One state of a conversion after another. -/
structure Stays (T : Ref → Prop) (n : ℕ) (vm vm' : VM) : Prop where
  region : Region T n vm'.heap
  kept : Kept n vm.heap vm'.heap

section

variable {T : Ref → Prop} {n : ℕ}

/-- Nothing was changed. -/
theorem Kept.refl (h : Heap) : Kept n h h :=
  ⟨fun _ _ => rfl, fun _ _ => rfl, fun _ _ hp => hp, fun _ _ ho => ho⟩

/-- What two steps keep one by one they keep together. -/
theorem Kept.trans {h₁ h₂ h₃ : Heap} (h₁₂ : Kept n h₁ h₂) (h₂₃ : Kept n h₂ h₃) : Kept n h₁ h₃ :=
  ⟨fun r hr => (h₂₃.body r hr).trans (h₁₂.body r hr),
    fun r hr => (h₂₃.count r hr).trans (h₁₂.count r hr),
    fun r hr hp => h₂₃.plain r hr (h₁₂.plain r hr hp),
    fun r hr ho => h₂₃.object r hr (h₁₂.object r hr ho)⟩

/-- A region stays where nothing happens. -/
theorem Stays.refl {vm : VM} (hr : Region T n vm.heap) : Stays T n vm vm := ⟨hr, .refl _⟩

/-- One step of a conversion after the other. -/
theorem Stays.trans {vm₁ vm₂ vm₃ : VM} (h₁₂ : Stays T n vm₁ vm₂) (h₂₃ : Stays T n vm₂ vm₃) :
    Stays T n vm₁ vm₃ := ⟨h₂₃.region, h₁₂.kept.trans h₂₃.kept⟩

/-- What a value of the conversion refers to is one of its cells. -/
theorem Local.refs {h : Heap} {v : JSValue} (hv : Local n h v) : ∀ x ∈ v.ref?.toList, n ≤ x := by
  intro x hx
  cases v with
  | object q =>
    cases Option.mem_toList.1 hx
    exact hv.1
  | _ => exact hv x (Option.mem_toList.1 hx)

/-- A value stays one of the conversion. -/
theorem Local.kept {h h' : Heap} {v : JSValue} (hk : Kept n h h') (hv : Local n h v) :
    Local n h' v := by
  cases v with
  | object q => exact ⟨hv.1, hk.plain q hv.1 hv.2⟩
  | _ => exact hv

/-- A cell with the same body holds the same object. -/
theorem obj?_eq_of_body? {h h' : Heap} {r : Ref} (hb : Memory.body? h' r = Memory.body? h r) :
    h'.obj? r = h.obj? r := by
  unfold Heap.obj?
  rw [hb]

/-- Whether a cell is the setter of `__proto__` is told by its body. -/
theorem isProtoSetter_of_body? {h h' : Heap} {s : Ref} (hb : Memory.body? h' s = Memory.body? h s) :
    isProtoSetter h' s = isProtoSetter h s := by
  unfold isProtoSetter
  rw [obj?_eq_of_body? hb]

/-- The prototypes stay as they are where the old cells do. -/
theorem Region.old_of_kept {h h' : Heap} (hr : Region T n h)
    (hb : ∀ r < n, Memory.body? h' r = Memory.body? h r) :
    ∀ r, T r → r < n ∧ ∃ o, h'.obj? r = some o ∧ Tame h' n o ∧ ∀ p, o.proto = some p → T p := by
  intro r ht
  obtain ⟨hlt, o, ho, htame, hproto⟩ := hr.old r ht
  refine ⟨hlt, o, (obj?_eq_of_body? (hb r hlt)).trans ho, ⟨htame.cls, ?_⟩, hproto⟩
  intro key g s fl hs
  obtain ⟨hsn, hset⟩ := htame.setter key g s fl hs
  exact ⟨hsn, (isProtoSetter_of_body? (hb s hsn)).trans hset⟩

/-! ## Changes of the heap -/

/-- A plain object is still that, so a prototype is still one. -/
theorem ownProto_mono {h h' : Heap} (hplain : ∀ x, PlainAt h x → PlainAt h' x) {o : Obj}
    (hproto : ∀ p, o.proto = some p → T p ∨ n ≤ p ∧ PlainAt h p) :
    ∀ p, o.proto = some p → T p ∨ n ≤ p ∧ PlainAt h' p := fun p hp =>
  (hproto p hp).imp_right fun hown => ⟨hown.1, hplain p hown.2⟩

/-- Only counts of the conversion's own cells change. -/
theorem Region.counts {h h' : Heap} (hr : Region T n h)
    (hb : ∀ x, Memory.body? h' x = Memory.body? h x) (hl : h'.length = h.length)
    (hc : ∀ r < n, Memory.count h' r = Memory.count h r) : Region T n h' ∧ Kept n h h' := by
  have hobj : ∀ x, h'.obj? x = h.obj? x := fun x => obj?_eq_of_body? (hb x)
  have hplain : ∀ x, PlainAt h x → PlainAt h' x := by
    rintro x ⟨o, ho, hcls⟩
    exact ⟨o, (hobj x).trans ho, hcls⟩
  have hobject : ∀ x, ObjectAt h x → ObjectAt h' x := by
    rintro x ⟨o, ho, hcls⟩
    exact ⟨o, (hobj x).trans ho, hcls⟩
  refine ⟨⟨hl ▸ hr.le, hr.protos, hr.old_of_kept fun r _ => hb r, ?_, ?_⟩,
    fun r _ => hb r, hc, fun r _ => hplain r, fun r _ => hobject r⟩
  · intro r hn x hx
    rw [Memory.children, hb] at hx
    exact hr.refs r hn x hx
  · intro r o hn ho hcls
    obtain ⟨hdata, hproto⟩ := hr.plain r o hn ((hobj r).symm.trans ho) hcls
    exact ⟨hdata, ownProto_mono hplain hproto⟩

/-- A value of the conversion gets a reference more. -/
theorem Region.dup {vm : VM} (hr : Region T n vm.heap) {v : JSValue}
    (hv : ∀ x ∈ v.ref?.toList, n ≤ x) : Stays T n vm (vm.dup v) := by
  have hmain : Region T n (vm.heap.dupValue v) ∧ Kept n vm.heap (vm.heap.dupValue v) := by
    refine hr.counts (fun x => ?_) (Heap.length_dupValue _ _) fun x hx => ?_
    · unfold Heap.dupValue
      cases v.ref? <;> simp
    · unfold Heap.dupValue
      cases hv' : v.ref? with
      | none => rfl
      | some r =>
        have hle := hv r (by rw [hv']; exact List.mem_singleton_self r)
        dsimp only
        rw [Memory.count_bump, if_neg]
        rintro ⟨rfl, -⟩
        exact absurd hle (Nat.not_le_of_lt hx)
  exact ⟨hmain.1, hmain.2⟩

/-- The conversion gives up references to its own cells. -/
theorem Region.release {vm : VM} (hr : Region T n vm.heap) {rs : List Ref} (hrs : ∀ x ∈ rs, n ≤ x) :
    Stays T n vm (vm.mapHeap fun h => Memory.release Body.refs rs h) := by
  have hmain := hr.counts (fun x => Memory.body?_release Body.refs rs vm.heap x)
    (Memory.length_release Body.refs rs vm.heap)
    fun x hx => Memory.count_release_of_closed hr.refs hrs (Nat.not_le_of_lt hx)
  exact ⟨hmain.1, hmain.2⟩

/-- The references of a shape are all to cells of the conversion. -/
theorem Region.dupRefs {vm : VM} (hr : Region T n vm.heap) {rs : List Ref} (hrs : ∀ x ∈ rs, n ≤ x) :
    Stays T n vm (vm.dupRefs rs) := by
  induction rs generalizing vm with
  | nil => exact .refl hr
  | cons r rs ih =>
    have hdup : Stays T n vm (vm.dup (.object r)) := by
      refine hr.dup fun x hx => ?_
      rw [List.mem_singleton.1 (show x ∈ [r] from hx)]
      exact hrs r List.mem_cons_self
    exact hdup.trans (ih hdup.region fun x hx => hrs x (List.mem_cons_of_mem _ hx))

/-- A value of the conversion is released. -/
theorem Region.free {vm : VM} (hr : Region T n vm.heap) {v : JSValue}
    (hv : ∀ x ∈ v.ref?.toList, n ≤ x) : Stays T n vm (vm.free v) := hr.release hv

/-- A cell that the conversion may have: what it refers to is its own, and a plain object has values
for properties and one of the prototypes. -/
structure OwnBody (T : Ref → Prop) (n : ℕ) (h : Heap) (b : Body) : Prop where
  refs : ∀ x ∈ b.refs, n ≤ x
  plain : ∀ o, b = .obj o → o.cls.isPlain = true →
    (∀ p ∈ o.props, ∃ v fl, p.2 = .data v fl) ∧ ∀ p, o.proto = some p → T p ∨ n ≤ p ∧ PlainAt h p

/-- A new cell, which refers to cells of the conversion only. -/
theorem Region.alloc {vm : VM} (hr : Region T n vm.heap) {b : Body} (hb : OwnBody T n vm.heap b) :
    Stays T n vm (vm.alloc b) := by
  have hobj : ∀ x, x < vm.heap.length → (vm.alloc b).heap.obj? x = vm.heap.obj? x := by
    intro x hx
    show Heap.obj? (Memory.alloc vm.heap b) x = _
    rw [Heap.obj?_alloc, if_neg (Nat.ne_of_lt hx)]
  have hplain : ∀ x, PlainAt vm.heap x → PlainAt (vm.alloc b).heap x := by
    rintro x ⟨o, ho, hcls⟩
    exact ⟨o, (hobj x (Heap.lt_length_of_obj? ho)).trans ho, hcls⟩
  have hobject : ∀ x, ObjectAt vm.heap x → ObjectAt (vm.alloc b).heap x := by
    rintro x ⟨o, ho, hcls⟩
    exact ⟨o, (hobj x (Heap.lt_length_of_obj? ho)).trans ho, hcls⟩
  have hbody : ∀ r < n, Memory.body? (vm.alloc b).heap r = Memory.body? vm.heap r := by
    intro r hlt
    show Memory.body? (Memory.alloc vm.heap b) r = _
    rw [Memory.body?_alloc, if_neg (Nat.ne_of_lt (Nat.lt_of_lt_of_le hlt hr.le))]
  refine ⟨⟨?_, hr.protos, hr.old_of_kept hbody, ?_, ?_⟩, hbody, ?_, fun r _ => hplain r,
    fun r _ => hobject r⟩
  · show n ≤ (Memory.alloc vm.heap b).length
    rw [Memory.length_alloc]
    exact Nat.le_succ_of_le hr.le
  · intro r hn x hx
    have hx' : x ∈ (Memory.body? (Memory.alloc vm.heap b) r).elim [] Body.refs := hx
    rw [Memory.body?_alloc] at hx'
    split_ifs at hx'
    · exact hb.refs x hx'
    · exact hr.refs r hn x hx'
  · intro r o hn ho hcls
    have ho' : Heap.obj? (Memory.alloc vm.heap b) r = some o := ho
    rw [Heap.obj?_alloc] at ho'
    split_ifs at ho'
    · cases b with
      | leaf => cases ho'
      | obj o₁ =>
        cases ho'
        obtain ⟨hdata, hproto⟩ := hb.plain o rfl hcls
        exact ⟨hdata, ownProto_mono hplain hproto⟩
    · obtain ⟨hdata, hproto⟩ := hr.plain r o hn ho' hcls
      exact ⟨hdata, ownProto_mono hplain hproto⟩
  · intro r hlt
    show Memory.count (Memory.alloc vm.heap b) r = _
    rw [Memory.count_alloc, if_neg (Nat.ne_of_lt (Nat.lt_of_lt_of_le hlt hr.le))]

/-- An object of the conversion is written. What it refers to has to be of the conversion again. -/
theorem Region.setObj {vm : VM} (hr : Region T n vm.heap) {r : Ref} {o o' : Obj} (hn : n ≤ r)
    (ho : vm.heap.obj? r = some o) (hb : OwnBody T n vm.heap (.obj o'))
    (hcls : o.cls.isPlain = true → o'.cls.isPlain = true)
    (hobject : o.cls = .object → o'.cls = .object) :
    Stays T n vm (vm.setObj r o') := by
  have hobj : ∀ x, (vm.setObj r o').heap.obj? x = if x = r then some o' else vm.heap.obj? x :=
    Heap.obj?_setObj ho o'
  have hplain : ∀ x, PlainAt vm.heap x → PlainAt (vm.setObj r o').heap x := by
    rintro x ⟨q, hq, hqcls⟩
    by_cases hx : x = r
    · subst hx
      cases ho.symm.trans hq
      exact ⟨o', by rw [hobj, if_pos rfl], hcls hqcls⟩
    · exact ⟨q, by rw [hobj, if_neg hx, hq], hqcls⟩
  have hobjects : ∀ x, ObjectAt vm.heap x → ObjectAt (vm.setObj r o').heap x := by
    rintro x ⟨q, hq, hqcls⟩
    by_cases hx : x = r
    · subst hx
      cases ho.symm.trans hq
      exact ⟨o', by rw [hobj, if_pos rfl], hobject hqcls⟩
    · exact ⟨q, by rw [hobj, if_neg hx, hq], hqcls⟩
  have hbody : ∀ x, Memory.body? (vm.setObj r o').heap x
      = if r = x then (Memory.body? vm.heap x).map fun _ => .obj o' else Memory.body? vm.heap x :=
    fun x => Memory.body?_update vm.heap r (fun _ => .obj o') x
  have hold : ∀ x < n, Memory.body? (vm.setObj r o').heap x = Memory.body? vm.heap x := by
    intro x hx
    rw [hbody, if_neg]
    rintro rfl
    exact absurd hn (Nat.not_le_of_lt hx)
  refine ⟨⟨?_, hr.protos, hr.old_of_kept hold, ?_, ?_⟩, hold, ?_, fun x _ => hplain x,
    fun x _ => hobjects x⟩
  · show n ≤ (vm.heap.setObj r o').length
    rw [Heap.length_setObj]
    exact hr.le
  · intro x hx y hy
    have hy' : y ∈ (Memory.body? (vm.setObj r o').heap x).elim [] Body.refs := hy
    rw [hbody] at hy'
    split_ifs at hy'
    · cases hbx : Memory.body? vm.heap x with
      | none => rw [hbx] at hy'; cases hy'
      | some b =>
        rw [hbx] at hy'
        exact hb.refs y hy'
    · exact hr.refs x hx y hy'
  · intro x q hx hq hqcls
    rw [hobj] at hq
    split_ifs at hq
    · cases hq
      obtain ⟨hdata, hproto⟩ := hb.plain _ rfl hqcls
      exact ⟨hdata, ownProto_mono hplain hproto⟩
    · obtain ⟨hdata, hproto⟩ := hr.plain x q hx hq hqcls
      exact ⟨hdata, ownProto_mono hplain hproto⟩
  · intro x _
    exact Memory.count_update vm.heap r (fun _ => .obj o') x

/-! ## Slots of plain objects -/

/-- Of an object with data properties every own property is one, also the `length` of an array. -/
theorem getOwn_data {o : Obj} (hdata : ∀ p ∈ o.props, ∃ v fl, p.2 = .data v fl) {key : PropKey}
    {slot : Slot} (h : o.getOwn key = some slot) : ∃ v fl, slot = .data v fl := by
  rcases getOwn_mem h with ⟨len, -, -, rfl⟩ | hmem
  · exact ⟨_, _, rfl⟩
  · exact hdata _ hmem

/-- A stored property is the new one, or was there. -/
theorem mem_putSlot {key : PropKey} {slot : Slot} {l : List (PropKey × Slot)} {p : PropKey × Slot}
    (h : p ∈ putSlot key slot l) : p = (key, slot) ∨ p ∈ l := by
  induction l with
  | nil => exact .inl (List.mem_singleton.1 h)
  | cons q l ih =>
    obtain ⟨k, s⟩ := q
    rw [putSlot] at h
    split_ifs at h with hk
    · rcases List.mem_cons.1 h with rfl | h
      · rw [hk]
        exact .inl rfl
      · exact .inr (List.mem_cons_of_mem _ h)
    · rcases List.mem_cons.1 h with rfl | h
      · exact .inr List.mem_cons_self
      · rcases ih h with rfl | h
        · exact .inl rfl
        · exact .inr (List.mem_cons_of_mem _ h)

/-- An object of the conversion refers to its cells only. -/
theorem Region.refs_obj {h : Heap} (hr : Region T n h) {r : Ref} {o : Obj} (hn : n ≤ r)
    (ho : h.obj? r = some o) : ∀ x ∈ (Body.obj o).refs, n ≤ x := by
  intro x hx
  refine hr.refs r hn x ?_
  unfold Heap.obj? at ho
  unfold Memory.children
  split at ho
  · next o' hb =>
    cases ho
    rw [hb]
    exact hx
  · cases ho

/-- An index may make an array longer, which is an array still. -/
theorem ObjClass.isPlain_grow (cls : ObjClass) (key : PropKey) :
    (cls.grow key).isPlain = cls.isPlain := by
  cases cls with
  | array len =>
    unfold ObjClass.grow
    cases key.arrayIndex <;> rfl
  | _ => rfl

/-- A write keeps a plain object plain. -/
theorem Obj.isPlain_clsWith (o : Obj) (key : PropKey) :
    (o.clsWith key).isPlain = o.cls.isPlain := by
  rcases o.clsWith_cases key with h | h
  · rw [h]
  · rw [h, ObjClass.isPlain_grow]

/-- An object that is no array keeps its class. -/
theorem Obj.clsWith_object {o : Obj} (h : o.cls = .object) (key : PropKey) :
    o.clsWith key = .object := by
  rcases o.clsWith_cases key with hk | hk
  · rw [hk, h]
  · rw [hk, h]
    rfl

/-- A plain class holds no references. -/
theorem ObjClass.refs_of_isPlain {cls : ObjClass} (h : cls.isPlain = true) : cls.refs = [] := by
  cases cls with
  | object => rfl
  | array len => rfl
  | _ => cases h

/-- A plain object with a value put in. -/
theorem Region.own_putOwn {h : Heap} (hr : Region T n h) {r : Ref} {o : Obj} (hn : n ≤ r)
    (ho : h.obj? r = some o) (hcls : o.cls.isPlain = true) (key : PropKey) {v : JSValue}
    (fl : Flags) (hv : ∀ x ∈ v.ref?.toList, n ≤ x) :
    OwnBody T n h (.obj (o.putOwn key (.data v fl))) := by
  obtain ⟨hdata, hproto⟩ := hr.plain r o hn ho hcls
  constructor
  · intro x hx
    rcases mem_refs_obj.1 hx with hx | hx | ⟨p, hp, hx⟩
    · exact hr.refs_obj hn ho x (mem_refs_obj.2 (.inl hx))
    · rw [show (o.putOwn key (.data v fl)).cls = o.clsWith key from rfl,
        ObjClass.refs_of_isPlain (by rw [Obj.isPlain_clsWith, hcls])] at hx
      cases hx
    · rcases mem_putSlot hp with rfl | hp
      · exact hv x hx
      · exact hr.refs_obj hn ho x (mem_refs_of_mem_props hp hx)
  · intro o' heq _
    cases heq
    refine ⟨fun p hp => ?_, hproto⟩
    rcases mem_putSlot hp with rfl | hp
    · exact ⟨v, fl, rfl⟩
    · exact hdata p hp

/-- A property of an object of the conversion is written. -/
theorem Region.putOwn {vm : VM} (hr : Region T n vm.heap) {r : Ref} {o : Obj} (hn : n ≤ r)
    (ho : vm.heap.obj? r = some o) (hcls : o.cls.isPlain = true) (key : PropKey) {v : JSValue}
    (fl : Flags) (hv : ∀ x ∈ v.ref?.toList, n ≤ x) :
    Stays T n vm (vm.setObj r (o.putOwn key (.data v fl))) :=
  hr.setObj hn ho (hr.own_putOwn hn ho hcls key fl hv)
    (fun h => (o.isPlain_clsWith key).trans h) fun h => Obj.clsWith_object h key

/-- What a property holds is of the conversion. -/
theorem Region.refs_slot {h : Heap} (hr : Region T n h) {r : Ref} {o : Obj} (hn : n ≤ r)
    (ho : h.obj? r = some o) {key : PropKey} {slot : Slot}
    (hslot : findSlot key o.props = some slot) : ∀ x ∈ slot.refs, n ≤ x := fun x hx =>
  hr.refs_obj hn ho x (mem_refs_of_mem_props (mem_of_findSlot hslot) hx)

/-! ## Assignments -/

/-- Where the walk of an assignment may come to: nothing that script code decides. -/
def Settled (n : ℕ) (h : Heap) : SetTarget → Prop
  | .readOnly => True
  | .absent => True
  | .setter none => True
  | .setter (some s) => s < n ∧ isProtoSetter h s = true
  | .exotic _ => False

/-- A plain object is not exotic. -/
theorem isPlain_ne_exotic {cls : ObjClass} (h : cls.isPlain = true) (id : ℕ) :
    cls ≠ .exotic id := by
  rintro rfl
  cases h

/-- The walk from a prototype of the conversion. The induction is on the walk's fuel. -/
theorem Region.setWalk {h : Heap} (hr : Region T n h) (fast : Ref → Bool) (key : PropKey)
    (fuel : ℕ) {p : Option Ref} (hp : ∀ r, p = some r → T r ∨ n ≤ r ∧ PlainAt h r) :
    Settled n h (setWalk h fast key fuel p) := by
  induction fuel generalizing p with
  | zero => trivial
  | succ fuel ih =>
    cases p with
    | none => trivial
    | some r =>
      rw [QuickjsDart.setWalk]
      rcases hp r rfl with ht | ⟨hn, o, ho, hcls⟩
      · obtain ⟨-, o, ho, htame, hproto⟩ := hr.old r ht
        have hnext := ih (p := o.proto) fun q hq => .inl (hproto q hq)
        rw [ho]
        dsimp only
        split
        · next id hid => exact absurd hid (htame.cls id)
        · split
          · next g s fl hs =>
            cases s with
            | none => trivial
            | some s => exact htame.setter key g s fl hs
          · split_ifs
            · trivial
            · exact hnext
            · trivial
          · exact hnext
      · obtain ⟨hdata, hproto⟩ := hr.plain r o hn ho hcls
        have hnext := ih (p := o.proto) hproto
        rw [ho]
        dsimp only
        split
        · next id hid => exact absurd hid (isPlain_ne_exotic hcls id)
        · split
          · next g s fl hs =>
            obtain ⟨v, fl', heq⟩ := getOwn_data hdata hs
            cases heq
          · split_ifs
            · trivial
            · exact hnext
            · trivial
          · exact hnext

/-- How a step of the conversion ends in C. Nothing of it ends the process. -/
abbrev JSEnds {α : Type} (T : Ref → Prop) (n : ℕ) (vm : VM) (Q : α → VM → Prop) :
    EStateM.Result JSFault VM α → Prop := EndsIn (Stays T n) (fun e => e ≠ .crash) vm Q

/-- How a step of the conversion ends in Dart. -/
abbrev Ends {α : Type} (T : Ref → Prop) (n : ℕ) (vm : VM) (Q : α → VM → Prop) :
    EStateM.Result Fault VM α → Prop := EndsIn (Stays T n) (fun e => e ≠ .crash) vm Q

/-- One step of the conversion after the other. -/
theorem Ends.bind {α β : Type} {vm : VM} {x : Dart α} {f : α → Dart β} {Q : α → VM → Prop}
    {R : β → VM → Prop} (hx : Ends T n vm Q (x vm))
    (hf : ∀ a vm₁, Stays T n vm vm₁ → Q a vm₁ → Ends T n vm₁ R (f a vm₁)) :
    Ends T n vm R ((x >>= f) vm) := EndsIn.bind hx Stays.trans hf

/-- A call from Dart into C, whose exception is left pending. -/
theorem JSEnds.ffi {α : Type} {vm : VM} {op : JS α} (h : JSEnds T n vm (fun _ _ => True) (op vm))
    (dflt : α) :
    Ends T n vm (fun _ _ => True) (ffi dflt op vm) := by
  unfold QuickjsDart.ffi
  cases hrun : op vm with
  | ok a vm₁ =>
    rw [hrun] at h
    exact h
  | error e vm₁ =>
    rw [hrun] at h
    obtain ⟨hstays, hne⟩ := h
    cases e with
    | crash => exact absurd rfl hne
    | error m => exact ⟨⟨hstays.region, hstays.kept⟩, trivial⟩
    | value v => exact ⟨⟨hstays.region, hstays.kept⟩, trivial⟩

/-- A refused assignment releases its value first. -/
theorem Region.throwOrFalse {vm : VM} (hr : Region T n vm.heap) {v : JSValue}
    (hv : Local n vm.heap v) (throwFlag : Bool) (m : String) :
    JSEnds T n vm (fun _ _ => True) (throwOrFalse throwFlag m (vm.free v)) := by
  unfold QuickjsDart.throwOrFalse
  cases throwFlag
  · exact ⟨hr.free hv.refs, trivial⟩
  · exact ⟨hr.free hv.refs, JSFault.noConfusion⟩

/-- The prototype of an object of the conversion is replaced. -/
theorem Region.setProto {vm : VM} (hr : Region T n vm.heap) {r : Ref} {o : Obj} (hn : n ≤ r)
    (ho : vm.heap.obj? r = some o) (hcls : o.cls.isPlain = true) {q : Option Ref}
    (hq : ∀ p, q = some p → n ≤ p ∧ PlainAt vm.heap p) : Stays T n vm (vm.setProto r o q) := by
  obtain ⟨hdata, -⟩ := hr.plain r o hn ho hcls
  have hshape : ∀ x ∈ shapeRefs q, n ≤ x := fun x hx => (hq x (mem_shapeRefs hx)).1
  have hdup := hr.dupRefs hshape
  have hown : OwnBody T n (vm.dupRefs (shapeRefs q)).heap (.obj { o with proto := q }) := by
    refine ⟨fun x hx => ?_, fun o' heq _ => ?_⟩
    · rcases mem_refs_obj.1 hx with hx | hx | hx
      · exact hshape x hx
      · exact hr.refs_obj hn ho x (mem_refs_obj.2 (.inr (.inl hx)))
      · exact hr.refs_obj hn ho x (mem_refs_obj.2 (.inr (.inr hx)))
    · cases heq
      refine ⟨hdata, fun p hp => .inr ⟨(hq p hp).1, hdup.kept.plain p (hq p hp).1 (hq p hp).2⟩⟩
  have ho' : (vm.dupRefs (shapeRefs q)).heap.obj? r = some o := by rw [VM.obj?_dupRefs, ho]
  have hput := hdup.trans (hdup.region.setObj hn ho' hown (fun h => h) fun h => h)
  exact hput.trans (hput.region.release fun x hx =>
    hr.refs_obj hn ho x (mem_refs_obj.2 (.inl hx)))

/-- The setter of `__proto__`, on an object of the conversion. -/
theorem Region.protoSet {vm : VM} (hr : Region T n vm.heap) {r : Ref} (hn : n ≤ r)
    (hplain : PlainAt vm.heap r) {v : JSValue} (hv : Local n vm.heap v) :
    JSEnds T n vm (fun ret _ => ret = .undefined) (protoSet (.object r) v vm) := by
  obtain ⟨o, ho, hcls⟩ := hplain
  rcases protoSet_cases (.object r) v vm with heq | ⟨m, heq⟩ | ⟨r', o', q, ⟨⟩, ho', hq, -, heq⟩
  · rw [heq]
    exact ⟨.refl hr, rfl⟩
  · rw [heq]
    exact ⟨.refl hr, JSFault.noConfusion⟩
  · cases ho.symm.trans ho'
    rw [heq]
    refine ⟨hr.setProto hn ho hcls fun p hp => ?_, rfl⟩
    rw [hq p hp] at hv
    exact hv

/-- What an assignment to an object of the conversion comes to. -/
inductive Assigns (vm : VM) (r : Ref) (o : Obj) (key : PropKey) (v : JSValue) :
    EStateM.Result JSFault VM Bool → Prop where
  | refused (throwFlag : Bool) (m : String) :
    Assigns vm r o key v (throwOrFalse throwFlag m (vm.free v))
  | added : findSlot key o.props = none →
    Assigns vm r o key v (.ok true (vm.setObj r (o.putOwn key (.data v .cwe))))
  | replaced {old : JSValue} {fl : Flags} : findSlot key o.props = some (.data old fl) →
    Assigns vm r o key v (.ok true ((vm.setObj r (o.putOwn key (.data v fl))).free old))
  | proto {vm' : VM} : protoSet (.object r) v vm = .ok .undefined vm' →
    Assigns vm r o key v (.ok true ((vm'.free v).free .undefined))
  | protoRaised (m : String) : Assigns vm r o key v (.error (.error m) (vm.free v))

variable (env : Env)

/-- The only setter that an assignment comes to is that of `__proto__`. -/
theorem Settled.callSetter {vm : VM} {setter : Option Ref}
    (hs : Settled n vm.heap (.setter setter)) (r : Ref) (o : Obj) (key : PropKey) (v : JSValue)
    (throwFlag : Bool) :
    Assigns vm r o key v (callSetter env setter (.object r) v throwFlag vm) := by
  unfold QuickjsDart.callSetter
  cases setter with
  | none => exact .refused throwFlag _
  | some f =>
    have hcall : callAccessor env f (.object r) [v] vm = QuickjsDart.protoSet (.object r) v vm := by
      unfold callAccessor
      rw [if_pos hs.2]
      rfl
    dsimp only
    rw [hcall]
    rcases protoSet_cases (.object r) v vm with heq | ⟨m, heq⟩ | ⟨r', o', q, -, -, -, -, heq⟩
    · rw [heq]
      exact .proto heq
    · rw [heq]
      exact .protoRaised m
    · rw [heq]
      exact .proto heq

/-- An assignment that is not to the `length` of an array. -/
theorem not_length_of {h : Heap} {r : Ref} {o : Obj} {key : PropKey} (ho : h.obj? r = some o)
    (hkey : ObjectAt h r ∨ key ≠ .name lengthName) :
    ¬ (o.cls.isArray = true ∧ key = .name lengthName) := by
  rintro ⟨harr, rfl⟩
  rcases hkey with ⟨q, hq, hcls⟩ | hne
  · cases ho.symm.trans hq
    rw [hcls] at harr
    cases harr
  · exact hne rfl

/-- An assignment to an object of the conversion runs no script code. -/
theorem Region.assigns {vm : VM} (hr : Region T n vm.heap) {r : Ref} {o : Obj} (hn : n ≤ r)
    (ho : vm.heap.obj? r = some o) (hcls : o.cls.isPlain = true) {key : PropKey}
    (hkey : ObjectAt vm.heap r ∨ key ≠ .name lengthName) (v : JSValue) (throwFlag : Bool) :
    Assigns vm r o key v (jsSetPropertyInternal env (.object r) key v throwFlag vm) := by
  obtain ⟨hdata, hproto⟩ := hr.plain r o hn ho hcls
  unfold QuickjsDart.jsSetPropertyInternal
  dsimp only
  rw [ho]
  dsimp only
  cases hown : o.getOwn key with
  | none =>
    have hsettled := hr.setWalk (env.fastArray vm.heap) key (chainFuel vm.heap) hproto
    dsimp only
    split
    · next id hid => exact absurd hid (isPlain_ne_exotic hcls id)
    · unfold setAfterWalk
      split
      · exact .refused throwFlag _
      · next s hwalk =>
        rw [hwalk] at hsettled
        exact hsettled.callSetter env r o key v throwFlag
      · next p hwalk =>
        rw [hwalk] at hsettled
        exact hsettled.elim
      · dsimp only
        split_ifs
        · exact .added (findSlot_of_getOwn_none hown)
        · exact .refused throwFlag _
  | some slot =>
    obtain ⟨old, fl, rfl⟩ := getOwn_data hdata hown
    have hlen := not_length_of ho hkey
    dsimp only
    rw [if_neg hlen]
    split_ifs
    · exact .replaced ((getOwn_eq_findSlot hlen).symm.trans hown)
    · exact .refused throwFlag _

/-- An assignment to an object of the conversion. -/
theorem Region.jsSetPropertyInternal {vm : VM} (hr : Region T n vm.heap) {r : Ref} (hn : n ≤ r)
    (hplain : PlainAt vm.heap r) {v : JSValue} (hv : Local n vm.heap v) {key : PropKey}
    (hkey : ObjectAt vm.heap r ∨ key ≠ .name lengthName) (throwFlag : Bool) :
    JSEnds T n vm (fun _ _ => True)
      (jsSetPropertyInternal env (.object r) key v throwFlag vm) := by
  obtain ⟨o, ho, hcls⟩ := hplain
  have hput := fun fl => hr.putOwn hn ho hcls key (v := v) fl hv.refs
  have hassigns := hr.assigns env hn ho hcls hkey v throwFlag
  generalize QuickjsDart.jsSetPropertyInternal env (.object r) key v throwFlag vm = res
    at hassigns ⊢
  cases hassigns with
  | refused throwFlag m => exact hr.throwOrFalse hv throwFlag m
  | added _ => exact ⟨hput .cwe, trivial⟩
  | replaced hold =>
    exact ⟨(hput _).trans ((hput _).region.free (hr.refs_slot hn ho hold)), trivial⟩
  | proto hrun =>
    have hset := hr.protoSet hn ⟨o, ho, hcls⟩ hv
    rw [hrun] at hset
    have hfree := hset.1.region.free (hv.kept hset.1.kept).refs
    exact ⟨hset.1.trans (hfree.trans (hfree.region.free (v := .undefined) nofun)), trivial⟩
  | protoRaised m => exact ⟨hr.free hv.refs, JSFault.noConfusion⟩

/-- What the definition of a property comes to on an object that is not exotic. -/
inductive Defines (vm : VM) (r : Ref) (o : Obj) (key : PropKey) (v : JSValue) (flags : Flags) :
    EStateM.Result JSFault VM Bool → Prop where
  | refused : Defines vm r o key v flags (.ok false (vm.free v))
  | added : findSlot key o.props = none →
    Defines vm r o key v flags (.ok true (vm.setObj r (o.putOwn key (.data v flags))))
  | replaced {slot : Slot} : findSlot key o.props = some slot →
    Defines vm r o key v flags (.ok true ((vm.setObj r (o.putOwn key (.data v flags))).mapHeap
      fun h => Memory.release Body.refs slot.refs h))

/-- `JS_DefinePropertyValue` on a plain object, case by case. -/
theorem defines_of_plain {vm : VM} {r : Ref} {o : Obj} (ho : vm.heap.obj? r = some o)
    (hcls : o.cls.isPlain = true) (key : PropKey) (v : JSValue) (flags : Flags) :
    Defines vm r o key v flags (jsDefinePropertyValue env (.object r) key v flags vm) := by
  unfold QuickjsDart.jsDefinePropertyValue
  dsimp only
  rw [ho]
  dsimp only
  split
  · next id hid => exact absurd hid (isPlain_ne_exotic hcls id)
  · cases hown : o.getOwn key with
    | none =>
      dsimp only
      split_ifs
      · exact .added (findSlot_of_getOwn_none hown)
      · exact .refused
    | some slot =>
      dsimp only
      split_ifs with hconf
      · exact .replaced (findSlot_of_configurable hown hconf)
      · exact .refused

/-- A property is defined on an object of the conversion. -/
theorem Region.jsDefinePropertyValue {vm : VM} (hr : Region T n vm.heap) {r : Ref} (hn : n ≤ r)
    (hplain : PlainAt vm.heap r) {v : JSValue} (hv : ∀ x ∈ v.ref?.toList, n ≤ x) (key : PropKey)
    (flags : Flags) :
    JSEnds T n vm (fun _ _ => True) (jsDefinePropertyValue env (.object r) key v flags vm) := by
  obtain ⟨o, ho, hcls⟩ := hplain
  have hput := hr.putOwn hn ho hcls key flags hv
  have hdefines := defines_of_plain env ho hcls key v flags
  generalize QuickjsDart.jsDefinePropertyValue env (.object r) key v flags vm = res at hdefines ⊢
  cases hdefines with
  | refused => exact ⟨hr.free hv, trivial⟩
  | added _ => exact ⟨hput, trivial⟩
  | replaced hold => exact ⟨hput.trans (hput.region.release (hr.refs_slot hn ho hold)), trivial⟩

/-! ## The bridge -/

/-- A string refers to nothing. -/
theorem ownBody_leaf {h : Heap} : OwnBody T n h .leaf := by
  constructor
  · intro x hx
    cases hx
  · intro o heq
    cases heq

/-- A new cell that is no object. -/
theorem Region.newLeaf {vm : VM} (hr : Region T n vm.heap) (mk : Ref → JSValue)
    (hmk : ∀ r, (mk r).ref? = some r) (hobj : ∀ r q, mk r ≠ .object q) :
    Ends T n vm (fun v vm' => Local n vm'.heap v) (newCell mk .leaf vm) := by
  refine ⟨hr.alloc ownBody_leaf, ?_⟩
  have hle := hr.le
  cases hv : mk vm.heap.length with
  | object q => exact absurd hv (hobj _ q)
  | _ =>
    intro x hx
    have := (hmk vm.heap.length).symm.trans (hv ▸ hx)
    cases this
    exact hle

/-- A new string is a value of the conversion. -/
theorem Region.newString {vm : VM} (hr : Region T n vm.heap) (s : Utf16) :
    Ends T n vm (fun v vm' => Local n vm'.heap v) (newString s vm) :=
  hr.newLeaf _ (fun _ => rfl) nofun

/-- A new object or array. -/
theorem Region.newPlain {vm : VM} (hr : Region T n vm.heap) {cls : ObjClass} {proto : Ref}
    (hcls : cls.isPlain = true) (hproto : T proto) (hfixed : proto < fixedCells) :
    Ends T n vm (fun v vm' => ∃ r, v = .object r ∧ Local n vm'.heap (.object r) ∧
        (cls = .object → ObjectAt vm'.heap r))
      (newCell .object (.obj (.fresh cls proto)) vm) := by
  have hown : OwnBody T n vm.heap (.obj (.fresh cls proto)) := by
    constructor
    · intro x hx
      rcases mem_refs_obj.1 hx with hx | hx | ⟨p, hp, -⟩
      · rw [show (Obj.fresh cls proto).proto = some proto from rfl, shapeRefs_fixed hfixed] at hx
        cases hx
      · rw [show (Obj.fresh cls proto).cls = cls from rfl, ObjClass.refs_of_isPlain hcls] at hx
        cases hx
      · cases hp
    · intro o heq _
      cases heq
      refine ⟨fun p hp => (by cases hp), ?_⟩
      rintro p ⟨⟩
      exact .inl hproto
  have hnew : (vm.alloc (.obj (.fresh cls proto))).heap.obj? vm.heap.length
      = some (.fresh cls proto) := by
    show Heap.obj? (Memory.alloc vm.heap _) vm.heap.length = some (.fresh cls proto)
    rw [Heap.obj?_alloc, if_pos rfl]
  exact ⟨hr.alloc hown, _, rfl, ⟨hr.le, _, hnew, hcls⟩, fun h => ⟨_, hnew, h⟩⟩

/-- The handle of a name is a string of the conversion, or none. -/
theorem Region.handle {vm : VM} (hr : Region T n vm.heap) (name : PropName) :
    Ends T n vm (fun _ _ => True) (name.handle vm) := by
  cases name with
  | int i => exact ⟨.refl hr, trivial⟩
  | string s => exact ⟨(hr.newString s).1, trivial⟩
  | null => exact ⟨(hr.newString nullName).1, trivial⟩

/-- `JSValue.setProperty` on an object of the conversion. -/
theorem Region.setProperty {vm : VM} (hr : Region T n vm.heap) {r : Ref} (hn : n ≤ r)
    (hplain : PlainAt vm.heap r) {name : PropName} {v : JSValue} (hv : Local n vm.heap v)
    (hkey : ObjectAt vm.heap r ∨ name.key ≠ .name lengthName) (throwFlag : Bool) :
    Ends T n vm (fun _ _ => True) (setProperty env (.object r) name v throwFlag vm) := by
  unfold QuickjsDart.setProperty
  refine (hr.handle name).bind fun _ vm₁ h₁ _ => JSEnds.ffi ?_ ()
  have hv₁ := hv.kept h₁.kept
  have hdup := h₁.region.dup hv₁.refs
  have hkept := h₁.kept.trans hdup.kept
  have hset := hdup.region.jsSetPropertyInternal env hn (hkept.plain r hn hplain)
    (hv₁.kept hdup.kept) (hkey.imp_left (hkept.object r hn)) throwFlag
  unfold setProp
  cases hrun :
    QuickjsDart.jsSetPropertyInternal env (.object r) name.key v throwFlag (vm₁.dup v) with
  | ok b vm₂ =>
    rw [hrun] at hset
    exact ⟨hdup.trans hset.1, trivial⟩
  | error e vm₂ =>
    rw [hrun] at hset
    exact ⟨hdup.trans hset.1, hset.2⟩

/-- The function object of a hook holds an id, which is a number. -/
theorem ownBody_hookObj {h : Heap} (id : ℤ) : OwnBody T n h (.obj (hookObj id)) := by
  constructor
  · intro x hx
    have hnil : (Body.obj (hookObj id)).refs = [] := by
      show (intValue id).ref?.toList ++ [] = []
      rw [refs_intValue]
      rfl
    rw [hnil] at hx
    cases hx
  · intro o heq hcls
    cases heq
    cases hcls

/-- A hook is made, and defined as a property of an object of the conversion. -/
theorem Region.installDartHook {vm : VM} (hr : Region T n vm.heap) {r : Ref} (hn : n ≤ r)
    (hplain : PlainAt vm.heap r) (key : PropKey) (id : ℤ) (h : Handler) :
    JSEnds T n vm (fun _ _ => True) (installDartHook env (.object r) key id h vm) := by
  have halloc := hr.alloc (ownBody_hookObj id)
  have hhook : Stays T n vm (newHook id h vm) := ⟨halloc.region, halloc.kept⟩
  have hfunc : ∀ x ∈ (JSValue.object vm.heap.length).ref?.toList, n ≤ x := by
    intro x hx
    rw [List.mem_singleton.1 hx]
    exact hr.le
  have hdup := hhook.region.dup hfunc
  have hstays := hhook.trans hdup
  have hdef :=
    hdup.region.jsDefinePropertyValue env hn (hstays.kept.plain r hn hplain) hfunc key .cw
  unfold QuickjsDart.installDartHook
  dsimp only
  cases hrun : QuickjsDart.jsDefinePropertyValue env (.object r) key (.object vm.heap.length) .cw
      ((newHook id h vm).dup (.object vm.heap.length)) with
  | ok b vm₂ =>
    rw [hrun] at hdef
    exact ⟨hstays.trans hdef.1, trivial⟩
  | error e vm₂ =>
    rw [hrun] at hdef
    exact ⟨hstays.trans hdef.1, hdef.2⟩

/-- `createNewFunction` on an object of the conversion. -/
theorem Region.createNewFunction {vm : VM} (hr : Region T n vm.heap) {r : Ref} (hn : n ≤ r)
    (hplain : PlainAt vm.heap r) (name : PropName) (h : Handler) :
    Ends T n vm (fun _ _ => True) (createNewFunction env name h (some (.object r)) vm) := by
  unfold QuickjsDart.createNewFunction
  by_cases hname : name = .null
  · rw [if_pos hname]
    exact ⟨.refl hr, Fault.noConfusion⟩
  · rw [if_neg hname]
    have hid : ∀ vm₁ : VM, Region T n vm₁.heap →
        Ends T n vm₁ (fun _ _ => True) (nextHandlerId h vm₁) :=
      fun vm₁ hr₁ => ⟨⟨hr₁, .refl _⟩, trivial⟩
    have hunit : Ends T n vm (fun _ _ => True) ((pure () : Dart Unit) vm) := ⟨.refl hr, trivial⟩
    refine hunit.bind fun _ vm₀ h₀ _ => (h₀.region.handle name).bind fun _ vm₁ h₁ _ =>
      (hid vm₁ h₁.region).bind fun id vm₂ h₂ _ => ?_
    have hthis : Ends T n vm₂ (fun v _ => v = .object r) ((pure (.object r) : Dart JSValue) vm₂) :=
      ⟨.refl h₂.region, rfl⟩
    refine hthis.bind fun v vm₃ h₃ hv => ?_
    subst hv
    have hkept := h₀.kept.trans (h₁.kept.trans (h₂.kept.trans h₃.kept))
    exact (h₃.region.installDartHook env hn (hkept.plain r hn hplain) name.key id h).ffi ()

/-- An index is not the name `length`. -/
theorem key_int_ne_length (i : Int64) : (PropName.int i).key ≠ .name lengthName := by
  show PropKey.ofInt32 (Int32.ofInt i.toInt) ≠ .name lengthName
  unfold PropKey.ofInt32
  split_ifs
  · exact PropKey.noConfusion
  · intro h
    have hhead : some (0x2D : UInt16) = some 0x6C := congrArg List.head? (PropKey.name.inj h)
    exact absurd hhead (by decide)

/-! ## The walk -/

/-- A value that refers to nothing, and a string. -/
theorem local_of_ref? {h : Heap} {v : JSValue} {o : Option Ref} (hv : v.ref? = o)
    (hobj : ∀ q, v ≠ .object q) (hle : ∀ x, o = some x → n ≤ x) : Local n h v := by
  cases v with
  | object q => exact absurd rfl (hobj q)
  | _ => exact fun x hx => hle x (hv.symm.trans hx)

/-- A property of an object of the conversion. Only an array has a `length` of its own. -/
def LocalSite (n : ℕ) (h : Heap) (t : JSValue) (name : PropName) : Prop :=
  ∃ r, t = .object r ∧ n ≤ r ∧ PlainAt h r ∧ (ObjectAt h r ∨ name.key ≠ .name lengthName)

/-- What a conversion does with its own cells is a walk. -/
def regionConversion (T : Ref → Prop) (n : ℕ) : Conversion env where
  Good vm := Region T n vm.heap
  To := Stays T n
  Val vm := Local n vm.heap
  Site vm := LocalSite n vm.heap
  Faulty e := e ≠ .crash
  refl := Stays.refl
  trans := Stays.trans
  good _ h := h.region
  valKept hv h := hv.kept h.kept
  siteKept ht h := by
    obtain ⟨r, rfl, hn, hplain, hkey⟩ := ht
    exact ⟨r, rfl, hn, h.kept.plain r hn hplain, hkey.imp_left (h.kept.object r hn)⟩
  scalar hv := local_of_ref? hv (by rintro q rfl; cases hv) fun x hx => by cases hx
  newString s hr := hr.newString s
  newObject hr hrun := by
    have hnew : Ends T n _ _ (QuickjsDart.newObject _) :=
      hr.newPlain rfl hr.protos.1 (by decide)
    cases hrun
    obtain ⟨hstays, r, ⟨⟩, hlocal, hobject⟩ := hnew
    exact ⟨hstays, hlocal, fun name => ⟨_, rfl, hlocal.1, hlocal.2, .inl (hobject rfl)⟩⟩
  newArray hr hrun := by
    have hnew : Ends T n _ _ (QuickjsDart.newArray _) :=
      hr.newPlain rfl hr.protos.2 (by decide)
    cases hrun
    obtain ⟨hstays, r, ⟨⟩, hlocal, -⟩ := hnew
    exact ⟨hstays, hlocal, fun i => ⟨_, rfl, hlocal.1, hlocal.2, .inr (key_int_ne_length i)⟩⟩
  throws _ := Fault.noConfusion
  store hr ht hv := by
    obtain ⟨r, rfl, hn, hplain, hkey⟩ := ht
    exact hr.setProperty env hn hplain hv hkey true
  handler h hr ht := by
    obtain ⟨r, rfl, hn, hplain, -⟩ := ht
    exact hr.createNewFunction env hn hplain _ h

/-- A list, by the walk of conversions. -/
theorem Region.createJSArray (elems : List DartVal) {vm : VM} (hr : Region T n vm.heap) :
    Ends T n vm (fun v vm' => Local n vm'.heap v) (createJSArray env elems vm) :=
  (regionConversion env T n).createJSArray elems hr

/-- The loop over its elements. -/
theorem Region.setElements (i : ℕ) (elems : List DartVal) {vm : VM} (hr : Region T n vm.heap)
    {r : Ref} (hn : n ≤ r) (hplain : PlainAt vm.heap r) :
    Ends T n vm (fun _ _ => True) (setElements env (.object r) i elems vm) :=
  (regionConversion env T n).setElements i elems hr fun j =>
    ⟨r, rfl, hn, hplain, .inr (key_int_ne_length j)⟩

/-- A map, by the walk of conversions. -/
theorem Region.createJSObject (entries : List (Option Utf16 × DartVal)) {vm : VM}
    (hr : Region T n vm.heap) :
    Ends T n vm (fun v vm' => Local n vm'.heap v) (createJSObject env entries vm) :=
  (regionConversion env T n).createJSObject entries hr

/-- The loop over its entries, which may be named `length`: the target is no array. -/
theorem Region.setEntries (entries : List (Option Utf16 × DartVal)) {vm : VM}
    (hr : Region T n vm.heap) {r : Ref} (hn : n ≤ r) (hplain : PlainAt vm.heap r)
    (hobject : ObjectAt vm.heap r) :
    Ends T n vm (fun _ _ => True) (setEntries env (.object r) entries vm) :=
  (regionConversion env T n).setEntries entries hr fun _ => ⟨r, rfl, hn, hplain, .inl hobject⟩

/-- A member of an object of the conversion is converted and stored. -/
theorem Region.setMember (x : DartVal) {vm : VM} (hr : Region T n vm.heap) {r : Ref} (hn : n ≤ r)
    (hplain : PlainAt vm.heap r) {name : PropName}
    (hkey : ObjectAt vm.heap r ∨ name.key ≠ .name lengthName) :
    Ends T n vm (fun _ _ => True) (setMember env (.object r) name x vm) :=
  (regionConversion env T n).setMember x hr ⟨r, rfl, hn, hplain, hkey⟩

/-- A conversion stays in its region, and so does its result. -/
theorem Region.toJSVal (x : DartVal) {vm : VM} (hr : Region T n vm.heap) :
    Ends T n vm (fun v vm' => Local n vm'.heap v) (toJSVal env x vm) :=
  (regionConversion env T n).toJSVal x hr

/-! ## The start of a conversion -/

/-- An assignment to a new object or array runs no script code: the prototypes it may come to are
ordinary objects, and their only setter is that of `__proto__`. -/
structure ScriptFree (h : Heap) (T : Ref → Prop) : Prop where
  protos : T objectPrototype ∧ T arrayPrototype
  old : ∀ r, T r → ∃ o, h.obj? r = some o ∧ Tame h h.length o ∧ ∀ p, o.proto = some p → T p

/-- A conversion starts with no cells of its own. -/
theorem ScriptFree.region {h : Heap} (hs : ScriptFree h T) : Region T h.length h := by
  refine ⟨le_rfl, hs.protos, fun r ht => ?_, fun r hle x hx => ?_, fun r o hle ho _ => ?_⟩
  · obtain ⟨o, ho, htame, hproto⟩ := hs.old r ht
    exact ⟨Heap.lt_length_of_obj? ho, o, ho, htame, hproto⟩
  · unfold Memory.children at hx
    cases hb : Memory.body? h r with
    | none => rw [hb] at hx; cases hx
    | some b => exact absurd (Memory.lt_length_of_body? hb) (Nat.not_lt_of_le hle)
  · exact absurd (Heap.lt_length_of_obj? ho) (Nat.not_lt_of_le hle)

/-- The prototypes of a started engine. -/
theorem scriptFree_bare :
    ScriptFree VM.bare.heap fun r => r = objectPrototype ∨ r = arrayPrototype := by
  refine ⟨⟨.inl rfl, .inr rfl⟩, ?_⟩
  rintro r (rfl | rfl)
  · refine ⟨_, rfl, ⟨nofun, fun key g s fl hs => ?_⟩, nofun⟩
    rcases getOwn_mem hs with ⟨len, hcls, -⟩ | hmem
    · cases hcls
    · cases List.mem_singleton.1 hmem
      exact ⟨by decide, rfl⟩
  · refine ⟨_, rfl, ⟨nofun, fun key g s fl hs => ?_⟩, ?_⟩
    · rcases getOwn_mem hs with ⟨len, -, -, heq⟩ | hmem
      · cases heq
      · cases hmem
    · rintro p ⟨⟩
      exact .inl rfl

/-- A conversion and the release of its result keep every count there was. -/
theorem toJSVal_free_count {x : DartVal} {vm vm' : VM} {v : JSValue} (hs : ScriptFree vm.heap T)
    (h : toJSVal env x vm = .ok v vm') {r : Ref} (hr : r < vm.heap.length) :
    Memory.count (vm'.free v).heap r = Memory.count vm.heap r := by
  have hend := hs.region.toJSVal env x
  rw [h] at hend
  obtain ⟨hstays, hlocal⟩ := hend
  exact (hstays.trans (hstays.region.free hlocal.refs)).kept.count r hr

end

end QuickjsDart
