import QuickjsDart.ShapeLayout

/-!
# Sharing of shapes is invisible

Each object has a list of properties of its own (`Runtime.view`), and an operation on one object
changes its list and no other: shapes that are shared are not changed, the table of shapes only
leads to shapes with the right properties, and no operation fails an assertion or reads freed
memory. The invariant holds with references in hand (`adj`) and with a shape that is out of the
table for a moment (`loose`), so that it passes from step to step of each operation.
-/

namespace QuickjsDart

namespace Shapes

variable {V : Type}

/-! ## The invariant -/

/-- The references to a shape. -/
def Runtime.users (rt : Runtime V) (id : ℕ) : ℕ :=
  rt.objs.countP (fun o => o.map PropObj.shape = some id) +
    rt.contexts.countP (fun c => c.map Prod.fst = some id)

/-- What a context relies on: its shape has the `length` of an array, and stays in the table. -/
def Runtime.ArrayShape (rt : Runtime V) (id : ℕ) (proto : Option Ref) : Prop :=
  ∃ sh, rt.shape? id = some sh ∧ sh.contents = [(atomLength, lengthFlags)] ∧ sh.proto = proto ∧
    sh.isHashed = true

/-- The invariant. `adj` are references that are not those of an object or a context, or objects
whose reference was dropped already; `loose` is a hashed shape that is not in the table. -/
structure Inv (adj : ℕ → ℤ) (loose : Option ℕ) (rt : Runtime V) : Prop where
  objs : ∀ p o, rt.obj? p = some o → ∃ sh, rt.shape? o.shape = some sh ∧
    o.prop.length = sh.propSize ∧ Written sh.contents o.prop
  shapes : ∀ id sh, rt.shape? id = some sh → sh.WellFormed ∧
    (sh.refCount : ℤ) = rt.users id + adj id ∧ 0 < sh.refCount ∧
    (sh.isHashed = false → sh.refCount = 1)
  contexts : ∀ id proto, some (id, proto) ∈ rt.contexts → rt.ArrayShape id proto
  linked : ∀ id sh, rt.shape? id = some sh → sh.isHashed = true → loose ≠ some id →
    ∃ bucket, rt.shapeHash[getShapeHash sh.hash rt.shapeHashBits]? = some bucket ∧ id ∈ bucket
  buckets : ∀ b bucket, rt.shapeHash[b]? = some bucket → bucket.Nodup ∧ ∀ id ∈ bucket,
    loose ≠ some id ∧ ∃ sh, rt.shape? id = some sh ∧ sh.isHashed = true ∧
      getShapeHash sh.hash rt.shapeHashBits = b
  tableSize : rt.shapeHash.length = 2 ^ rt.shapeHashBits

/-- An object as a script sees it. -/
structure AbsObj (V : Type) where
  proto : Option Ref
  props : List (ℕ × ℕ × V)

/-- What an object is to those who use it: its prototype and its entries. -/
def Runtime.view (rt : Runtime V) (p : ℕ) : Option (AbsObj V) := do
  let o ← rt.obj? p
  let sh ← rt.shape? o.shape
  some ⟨sh.proto, entries sh.contents o.prop⟩

/-- The contexts, and how many objects there were: what operations on one object keep. -/
def Runtime.frame (rt : Runtime V) : List (Option (ℕ × Option Ref)) × ℕ :=
  (rt.contexts, rt.objs.length)

/-- The rest of a runtime is told by its objects and contexts. -/
theorem Runtime.frame_eq {rt rt' : Runtime V} (hobjs : rt'.objs = rt.objs)
    (hctx : rt'.contexts = rt.contexts) : rt'.frame = rt.frame := by
  rw [Runtime.frame, hobjs, hctx, Runtime.frame]

/-- A written object is not part of it. -/
@[simp] theorem Runtime.frame_setObj (rt : Runtime V) (p : ℕ) (o : PropObj V) :
    (rt.setObj p o).frame = rt.frame := by
  simp [Runtime.frame, Runtime.setObj]

/-- One reference to a shape. -/
def one (id : ℕ) : ℕ → ℤ := Pi.single id 1

/-- One reference to a shape. -/
theorem one_apply (id i : ℕ) : one id i = if id = i then 1 else 0 := by
  rw [one, Pi.single_apply]
  simp [eq_comm]

variable {rt rt' : Runtime V} {adj : ℕ → ℤ} {loose loose' : Option ℕ} {id p : ℕ} {sh sh' : Shape}
  {o o' : PropObj V}

/-- An object is seen through its shape. -/
theorem Runtime.view_eq (ho : rt.obj? p = some o) (hsh : rt.shape? o.shape = some sh) :
    rt.view p = some ⟨sh.proto, entries sh.contents o.prop⟩ := by
  simp [Runtime.view, ho, hsh]

/-! ## Lookups -/

/-- A shape has an id of the runtime. -/
theorem Runtime.lt_of_shape? (h : rt.shape? id = some sh) : id < rt.shapes.length := by
  by_contra hge
  rw [Runtime.shape?, List.getElem?_eq_none (not_lt.1 hge)] at h
  cases h

/-- An object has an id of the runtime. -/
theorem Runtime.lt_of_obj? (h : rt.obj? p = some o) : p < rt.objs.length := by
  by_contra hge
  rw [Runtime.obj?, List.getElem?_eq_none (not_lt.1 hge)] at h
  cases h

/-- What is read after a write. -/
theorem join_getElem?_set {α : Type} {l : List (Option α)} {i : ℕ} (hi : i < l.length)
    (x : Option α) (j : ℕ) : (l.set i x)[j]?.join = if j = i then x else l[j]?.join := by
  rw [List.getElem?_set]
  by_cases hij : i = j
  · subst hij
    simp [hi]
  · simp [hij, Ne.symm hij]

/-- What is read after an addition. -/
theorem join_getElem?_append {α : Type} (l : List (Option α)) (x : Option α) (j : ℕ) :
    (l ++ [x])[j]?.join = if j = l.length then x else l[j]?.join := by
  rw [List.getElem?_append]
  split_ifs with h₁ h₂ h₂
  · omega
  · rfl
  · simp [h₂]
  · rw [List.getElem?_eq_none (by simp; omega), List.getElem?_eq_none (by omega)]

/-- A bucket is one of the table. -/
theorem getShapeHash_lt (h : UInt32) (bits : ℕ) : getShapeHash h bits < 2 ^ bits := by
  rw [getShapeHash, Nat.shiftRight_eq_div_pow, Nat.div_lt_iff_lt_mul (by positivity), ← pow_add]
  exact h.toNat_lt.trans_le (Nat.pow_le_pow_right two_pos (by omega))

/-- Every shape has its list in the table. -/
theorem Inv.bucket (hinv : Inv adj loose rt) (h : UInt32) :
    ∃ bucket, rt.shapeHash[getShapeHash h rt.shapeHashBits]? = some bucket :=
  ⟨_, List.getElem?_eq_getElem (hinv.tableSize ▸ getShapeHash_lt h _)⟩

/-- A change of what the shapes and objects are, which keeps the table. -/
theorem Inv.of_lookups (hinv : Inv adj loose rt) {adj' : ℕ → ℤ}
    (hobjs : ∀ p o, rt'.obj? p = some o → ∃ sh, rt'.shape? o.shape = some sh ∧
      o.prop.length = sh.propSize ∧ Written sh.contents o.prop)
    (hshapes : ∀ id sh, rt'.shape? id = some sh → sh.WellFormed ∧
      (sh.refCount : ℤ) = rt'.users id + adj' id ∧ 0 < sh.refCount ∧
      (sh.isHashed = false → sh.refCount = 1))
    (hcontexts : ∀ id proto, some (id, proto) ∈ rt'.contexts → rt'.ArrayShape id proto)
    (hkept : ∀ id sh, loose ≠ some id → rt.shape? id = some sh → sh.isHashed = true →
      ∃ sh', rt'.shape? id = some sh' ∧ sh'.isHashed = true ∧ sh'.hash = sh.hash)
    (hnew : ∀ id sh', loose ≠ some id → rt'.shape? id = some sh' → sh'.isHashed = true →
      ∃ sh, rt.shape? id = some sh ∧ sh.isHashed = true ∧ sh'.hash = sh.hash)
    (htable : rt'.shapeHash = rt.shapeHash) (hbits : rt'.shapeHashBits = rt.shapeHashBits) :
    Inv adj' loose rt' := by
  refine ⟨hobjs, hshapes, hcontexts, fun id sh' hsh' hh hl => ?_, fun b bucket hb => ?_, ?_⟩
  · obtain ⟨sh, hsh, hhash, heq⟩ := hnew id sh' hl hsh' hh
    rw [htable, hbits, heq]
    exact hinv.linked id sh hsh hhash hl
  · rw [htable] at hb
    obtain ⟨hnodup, hmem⟩ := hinv.buckets b bucket hb
    refine ⟨hnodup, fun id hid => ?_⟩
    obtain ⟨hl, sh, hsh, hhash, hbit⟩ := hmem id hid
    obtain ⟨sh', hsh', hhash', heq⟩ := hkept id sh hl hsh hhash
    exact ⟨hl, sh', hsh', hhash', by rw [hbits, heq, hbit]⟩
  · rw [htable, hbits]
    exact hinv.tableSize

/-- Objects look the same where their shapes do. -/
theorem view_congr (hobj : rt'.obj? p = rt.obj? p) (hshape : ∀ o, rt.obj? p = some o →
    (rt'.shape? o.shape).map (fun sh => (sh.proto, sh.contents)) =
      (rt.shape? o.shape).map fun sh => (sh.proto, sh.contents)) : rt'.view p = rt.view p := by
  unfold Runtime.view
  rw [hobj]
  cases ho : rt.obj? p with
  | none => rfl
  | some o =>
    have h := hshape o ho
    cases h₁ : rt.shape? o.shape <;> cases h₂ : rt'.shape? o.shape <;> simp_all

/-- Objects are read from the list of objects. -/
theorem Runtime.obj?_congr (hobjs : rt'.objs = rt.objs) (p : ℕ) : rt'.obj? p = rt.obj? p := by
  rw [Runtime.obj?, hobjs, Runtime.obj?]

/-- Shapes are read from the list of shapes. -/
theorem Runtime.shape?_congr (hshapes : rt'.shapes = rt.shapes) (id : ℕ) :
    rt'.shape? id = rt.shape? id := by
  rw [Runtime.shape?, hshapes, Runtime.shape?]

/-- The table of shapes is not seen. -/
theorem Runtime.view_unlinked (hshapes : rt'.shapes = rt.shapes) (hobjs : rt'.objs = rt.objs)
    (p : ℕ) : rt'.view p = rt.view p :=
  view_congr (Runtime.obj?_congr hobjs p) fun o _ => by
    rw [Runtime.shape?_congr hshapes o.shape]

/-- The slots of an object, as its shape says. -/
theorem Inv.slots (hinv : Inv adj loose rt) (ho : rt.obj? p = some o)
    (hsh : rt.shape? o.shape = some sh) :
    o.prop.length = sh.propSize ∧ Written sh.contents o.prop := by
  obtain ⟨sh₀, hsh₀, hslots⟩ := hinv.objs p o ho
  cases hsh.symm.trans hsh₀
  exact hslots

/-- An object that uses a shape is counted. -/
theorem users_pos (ho : rt.obj? p = some o) : 0 < rt.users o.shape := by
  have ho' := Option.join_eq_some_iff.1 ho
  refine Nat.add_pos_left (List.countP_pos_iff.2 ⟨some o, List.mem_of_getElem? ho', ?_⟩) _
  simp

/-- The shape of a context is used. -/
theorem users_of_context {proto : Option Ref} (h : some (id, proto) ∈ rt.contexts) :
    0 < rt.users id :=
  Nat.add_pos_right _ (List.countP_pos_iff.2 ⟨_, h, by simp⟩)

/-! ## References -/

/-- The count of a shape changes. -/
theorem Inv.setRefCount (hinv : Inv adj loose rt) (hsh : rt.shape? id = some sh) (n : ℕ)
    (adj' : ℕ → ℤ) (hn : 0 < n) (hhash : sh.isHashed = true)
    (hcount : (n : ℤ) = rt.users id + adj' id)
    (hadj : ∀ i, i ≠ id → adj' i = adj i) :
    Inv adj' loose (rt.setShape id { sh with refCount := n }) ∧
      ∀ q, (rt.setShape id { sh with refCount := n }).view q = rt.view q := by
  set rt' := rt.setShape id { sh with refCount := n } with hrt'
  have hshape : ∀ i, rt'.shape? i = if i = id then some { sh with refCount := n }
      else rt.shape? i := fun i => join_getElem?_set (Runtime.lt_of_shape? hsh) _ i
  have hcore : ∀ i, (rt'.shape? i).map (fun sh => (sh.proto, sh.contents)) =
      (rt.shape? i).map fun sh => (sh.proto, sh.contents) := by
    intro i
    rw [hshape]
    split_ifs with hi
    · rw [hi, hsh]
      rfl
    · rfl
  refine ⟨hinv.of_lookups (fun q o' ho' => ?_) (fun i sh' hsh' => ?_) (fun i proto hi => ?_)
    (fun i sh₀ hl h₀ hh => ?_) (fun i sh' hl h' hh => ?_) rfl rfl,
    fun q => view_congr rfl fun o' _ => hcore _⟩
  · obtain ⟨sh₀, hsh₀, hprop⟩ := hinv.objs q o' ho'
    rw [hshape]
    split_ifs with hi
    · rw [hi, hsh] at hsh₀
      cases hsh₀
      exact ⟨_, rfl, hprop⟩
    · exact ⟨sh₀, hsh₀, hprop⟩
  · rw [hshape] at hsh'
    split_ifs at hsh' with hi
    · cases hsh'
      subst hi
      exact ⟨(hinv.shapes i sh hsh).1.withHeader (fun h => h) sh.hash n sh.proto, hcount, hn,
        fun h => by cases hhash.symm.trans h⟩
    · obtain ⟨hwf, hc, hpos⟩ := hinv.shapes i sh' hsh'
      exact ⟨hwf, by rw [hadj i hi]; exact hc, hpos⟩
  · obtain ⟨sh₀, hsh₀, hlen⟩ := hinv.contexts i proto hi
    rw [Runtime.ArrayShape, hshape]
    split_ifs with h
    · rw [h, hsh] at hsh₀
      cases hsh₀
      exact ⟨_, rfl, hlen⟩
    · exact ⟨sh₀, hsh₀, hlen⟩
  · rw [hshape]
    split_ifs with h
    · rw [h, hsh] at h₀
      cases h₀
      exact ⟨_, rfl, hh, rfl⟩
    · exact ⟨sh₀, h₀, hh, rfl⟩
  · rw [hshape] at h'
    split_ifs at h' with h
    · cases h'
      exact ⟨sh, h ▸ hsh, hh, rfl⟩
    · exact ⟨sh', h', hh, rfl⟩

/-- `js_dup_shape`: one more reference in hand. -/
theorem Inv.dupShape (hinv : Inv adj loose rt) (hsh : rt.shape? id = some sh)
    (hhash : sh.isHashed = true) :
    ∃ rt', rt.dupShape id = some rt' ∧ Inv (adj + one id) loose rt' ∧
      (∀ q, rt'.view q = rt.view q) ∧ rt'.objs = rt.objs ∧ rt'.contexts = rt.contexts ∧
      ∀ i, rt'.shape? i = if i = id then some { sh with refCount := sh.refCount + 1 }
        else rt.shape? i := by
  obtain ⟨-, hc, -⟩ := hinv.shapes id sh hsh
  obtain ⟨hinv', hview⟩ := hinv.setRefCount hsh (sh.refCount + 1) (adj + one id)
    (Nat.succ_pos _) hhash (by simp [one, hc, add_assoc]) fun i hi => by simp [one, hi]
  refine ⟨_, ?_, hinv', hview, rfl, rfl, fun i => join_getElem?_set (Runtime.lt_of_shape? hsh) _ i⟩
  simp [Runtime.dupShape, hsh]

/-! ## The table -/

/-- Only the hash counts. -/
theorem Runtime.unlink_congr (rt : Runtime V) (id : ℕ) (h : sh'.hash = sh.hash) :
    rt.unlink id sh' = rt.unlink id sh := by
  unfold Runtime.unlink
  rw [h]

/-- `js_shape_hash_unlink` finds the shape. -/
theorem Inv.unlink (hinv : Inv adj none rt) (hsh : rt.shape? id = some sh)
    (hhash : sh.isHashed = true) :
    ∃ rt', rt.unlink id sh = some rt' ∧ Inv adj (some id) rt' ∧ rt'.shapes = rt.shapes ∧
      rt'.objs = rt.objs ∧ rt'.contexts = rt.contexts := by
  obtain ⟨bucket, hb, hmem⟩ := hinv.linked id sh hsh hhash (by simp)
  have hlt := (List.getElem?_eq_some_iff.1 hb).1
  have hrun : rt.unlink id sh = some { rt with
      shapeHash := rt.shapeHash.set (getShapeHash sh.hash rt.shapeHashBits) (bucket.erase id)
      shapeHashCount := rt.shapeHashCount - 1 } := by
    simp [Runtime.unlink, hb, hmem]
  refine ⟨_, hrun, ?_, rfl, rfl, rfl⟩
  have hset : ∀ b,
      (rt.shapeHash.set (getShapeHash sh.hash rt.shapeHashBits) (bucket.erase id))[b]? =
      if getShapeHash sh.hash rt.shapeHashBits = b then some (bucket.erase id)
      else rt.shapeHash[b]? := by
    intro b
    rw [List.getElem?_set]
    simp [hlt]
  refine ⟨hinv.objs, hinv.shapes, hinv.contexts, fun i sh' hsh' hh hl => ?_, fun b bk hbk => ?_, ?_⟩
  · obtain ⟨bk, hbk, hi⟩ := hinv.linked i sh' hsh' hh (by simp)
    dsimp only
    rw [hset]
    split_ifs with heq
    · rw [← heq, hb] at hbk
      cases hbk
      have hne : i ≠ id := fun h => hl (by rw [h])
      exact ⟨_, rfl, (List.mem_erase_of_ne hne).2 hi⟩
    · exact ⟨bk, hbk, hi⟩
  · dsimp only at hbk
    rw [hset] at hbk
    split_ifs at hbk with heq
    · cases hbk
      obtain ⟨hnodup, hall⟩ := hinv.buckets _ bucket hb
      refine ⟨hnodup.erase id, fun i hi => ?_⟩
      obtain ⟨hne, hi⟩ := hnodup.mem_erase_iff.1 hi
      obtain ⟨-, hex⟩ := hall i hi
      exact ⟨by simpa using Ne.symm hne, heq ▸ hex⟩
    · obtain ⟨hnodup, hall⟩ := hinv.buckets b bk hbk
      refine ⟨hnodup, fun i hi => ?_⟩
      obtain ⟨-, sh', hsh', hh, hbit⟩ := hall i hi
      refine ⟨fun h => heq ?_, sh', hsh', hh, hbit⟩
      cases h
      cases hsh.symm.trans hsh'
      exact hbit
  · simpa using hinv.tableSize

/-- `js_shape_hash_link`. -/
theorem Inv.link (hinv : Inv adj (some id) rt) (hsh : rt.shape? id = some sh)
    (hhash : sh.isHashed = true) : Inv adj none (rt.link id sh) := by
  obtain ⟨bucket, hb⟩ := hinv.bucket sh.hash
  have hmod : ∀ b, (rt.shapeHash.modify (getShapeHash sh.hash rt.shapeHashBits) (id :: ·))[b]? =
      if getShapeHash sh.hash rt.shapeHashBits = b then some (id :: bucket)
      else rt.shapeHash[b]? := by
    intro b
    rw [List.getElem?_modify]
    split_ifs with h
    · rw [← h, hb]
      rfl
    · simp
  refine ⟨hinv.objs, hinv.shapes, hinv.contexts, fun i sh' hsh' hh _ => ?_, fun b bk hbk => ?_, ?_⟩
  · simp only [Runtime.link, hmod]
    by_cases hi : i = id
    · subst hi
      cases hsh.symm.trans hsh'
      exact ⟨_, if_pos rfl, List.mem_cons_self⟩
    · obtain ⟨bk, hbk, hmem⟩ := hinv.linked i sh' hsh' hh (by simpa using Ne.symm hi)
      split_ifs with heq
      · rw [← heq, hb] at hbk
        cases hbk
        exact ⟨_, rfl, List.mem_cons_of_mem id hmem⟩
      · exact ⟨bk, hbk, hmem⟩
  · simp only [Runtime.link, hmod] at hbk
    split_ifs at hbk with heq
    · cases hbk
      obtain ⟨hnodup, hall⟩ := hinv.buckets _ bucket hb
      refine ⟨List.nodup_cons.2 ⟨fun hmem => (hall id hmem).1 rfl, hnodup⟩, fun i hi => ?_⟩
      refine ⟨by simp, ?_⟩
      rcases List.mem_cons.1 hi with rfl | hi
      · exact ⟨sh, hsh, hhash, heq⟩
      · exact heq ▸ (hall i hi).2
    · obtain ⟨hnodup, hall⟩ := hinv.buckets b bk hbk
      exact ⟨hnodup, fun i hi => ⟨by simp, (hall i hi).2⟩⟩
  · simpa [Runtime.link] using hinv.tableSize

/-- A shape that nobody uses, and that is not in the table, is freed. -/
theorem Inv.drop (hinv : Inv adj loose rt) (adj' : ℕ → ℤ) (loose' : Option ℕ)
    (hsh : rt.shape? id = some sh) (hhash : sh.isHashed = true → loose = some id)
    (hl : ∀ i, i ≠ id → (loose' = some i ↔ loose = some i)) (husers : rt.users id = 0)
    (hadj : ∀ i, i ≠ id → adj' i = adj i) :
    Inv adj' loose' { rt with shapes := rt.shapes.set id none } ∧
      ∀ q, { rt with shapes := rt.shapes.set id none }.view q = rt.view q := by
  set rt' : Runtime V := { rt with shapes := rt.shapes.set id none }
  have hshape : ∀ i, rt'.shape? i = if i = id then none else rt.shape? i := fun i =>
    join_getElem?_set (Runtime.lt_of_shape? hsh) _ i
  have huse : ∀ q o', rt.obj? q = some o' → o'.shape ≠ id := fun q o' ho' h => by
    have hpos := users_pos ho'
    rw [h, husers] at hpos
    exact absurd hpos (Nat.lt_irrefl 0)
  refine ⟨⟨fun q o' ho' => ?_, fun i sh' hsh' => ?_, fun i proto hi => ?_,
    fun i sh' hsh' hh hl' => ?_, fun b bk hbk => ?_, hinv.tableSize⟩,
    fun q => view_congr rfl fun o' ho' => ?_⟩
  · obtain ⟨sh₀, hsh₀, hprop⟩ := hinv.objs q o' ho'
    exact ⟨sh₀, by rw [hshape, if_neg (huse q o' ho')]; exact hsh₀, hprop⟩
  · rw [hshape] at hsh'
    split_ifs at hsh' with hi
    obtain ⟨hwf, hc, hpos⟩ := hinv.shapes i sh' hsh'
    exact ⟨hwf, by rw [hadj i hi]; exact hc, hpos⟩
  · obtain ⟨sh₀, hsh₀, hlen⟩ := hinv.contexts i proto hi
    have hne : i ≠ id := fun h => by
      have hpos : 0 < rt.users i := users_of_context hi
      rw [h, husers] at hpos
      exact absurd hpos (Nat.lt_irrefl 0)
    exact ⟨sh₀, by rw [hshape, if_neg hne]; exact hsh₀, hlen⟩
  · rw [hshape] at hsh'
    split_ifs at hsh' with hi
    exact hinv.linked i sh' hsh' hh (mt (hl i hi).2 hl')
  · obtain ⟨hnodup, hall⟩ := hinv.buckets b bk hbk
    refine ⟨hnodup, fun i hi => ?_⟩
    obtain ⟨hne, sh', hsh', hh, hbit⟩ := hall i hi
    have hne' : i ≠ id := fun h => by
      subst h
      cases hsh.symm.trans hsh'
      exact hne (hhash hh)
    exact ⟨mt (hl i hne').1 hne, sh', by rw [hshape, if_neg hne']; exact hsh', hh, hbit⟩
  · rw [hshape, if_neg (huse q o' ho')]

/-- `js_free_shape`. -/
theorem Inv.freeShape (hinv : Inv adj none rt) (id : ℕ) (hsh : rt.shape? id = some sh)
    (hlast : sh.refCount = 1 → rt.users id = 0) :
    ∃ rt', rt.freeShape id = some rt' ∧ Inv (adj - one id) none rt' ∧
      (∀ q, rt'.view q = rt.view q) ∧ rt'.objs = rt.objs ∧ rt'.contexts = rt.contexts ∧
      ∀ i, i ≠ id → rt'.shape? i = rt.shape? i := by
  obtain ⟨-, hc, hpos, hsingle⟩ := hinv.shapes id sh hsh
  have hadj : ∀ i, i ≠ id → (adj - one id) i = adj i := fun i hi => by simp [one, hi]
  have hset : ∀ rt₁ : Runtime V, rt₁.shapes = rt.shapes → ∀ i, i ≠ id →
      ({ rt₁ with shapes := rt₁.shapes.set id none } : Runtime V).shape? i = rt.shape? i := by
    intro rt₁ h₁ i hi
    have hlt : id < rt₁.shapes.length := h₁ ▸ Runtime.lt_of_shape? hsh
    rw [Runtime.shape?, join_getElem?_set hlt, if_neg hi, h₁, Runtime.shape?]
  unfold Runtime.freeShape
  simp only [hsh, Option.bind_eq_bind, Option.bind_some]
  by_cases hone : sh.refCount = 1
  · rw [if_pos (by omega)]
    cases hh : sh.isHashed with
    | true =>
      obtain ⟨rt₁, hrun, hinv₁, hs, ho, hctx⟩ := hinv.unlink hsh hh
      have hsh₁ := (Runtime.shape?_congr hs id).trans hsh
      have husers : rt₁.users id = 0 := by
        rw [Runtime.users, ho, hctx]
        exact hlast hone
      obtain ⟨hinv₂, hview⟩ := hinv₁.drop (adj - one id) none hsh₁ (fun _ => rfl)
        (fun i hi => by simpa using Ne.symm hi) husers hadj
      refine ⟨_, ?_, hinv₂, fun q => (hview q).trans (Runtime.view_unlinked hs ho q), ho, hctx,
        hset rt₁ hs⟩
      have hrun' : ∀ sh' : Shape, sh'.hash = sh.hash → rt.unlink id sh' = some rt₁ :=
        fun sh' h => (rt.unlink_congr id h).trans hrun
      rw [if_pos rfl, hrun']
      · rfl
      · rfl
    | false =>
      obtain ⟨hinv₂, hview⟩ :=
        hinv.drop (adj - one id) none hsh (fun h => by rw [hh] at h; cases h)
          (fun _ _ => Iff.rfl) (hlast hone) hadj
      exact ⟨_, rfl, hinv₂, hview, rfl, rfl, hset rt rfl⟩
  · rw [if_neg (by omega)]
    obtain ⟨hinv', hview⟩ := hinv.setRefCount hsh (sh.refCount - 1) (adj - one id)
      (by omega) (Bool.not_eq_false _ ▸ fun h => hone (hsingle h))
      (by simp only [Pi.sub_apply, one, Pi.single_eq_same]; omega) hadj
    refine ⟨_, rfl, hinv', hview, rfl, rfl, fun i hi => ?_⟩
    exact (join_getElem?_set (Runtime.lt_of_shape? hsh) _ i).trans (if_neg hi)

/-! ## New shapes and new places -/

/-- The shape of an object is there. -/
theorem Inv.shape_lt (hinv : Inv adj loose rt) (ho : rt.obj? p = some o) :
    o.shape < rt.shapes.length := by
  obtain ⟨sh, hsh, -⟩ := hinv.objs p o ho
  exact Runtime.lt_of_shape? hsh

/-- Nobody uses what is not there. -/
theorem Inv.users_eq_zero (hinv : Inv adj loose rt) (hid : rt.shape? id = none) :
    rt.users id = 0 := by
  refine Nat.add_eq_zero_iff.2 ⟨List.countP_eq_zero.2 fun x hx => ?_,
    List.countP_eq_zero.2 fun c hc => ?_⟩
  · obtain ⟨q, hq⟩ := List.getElem?_of_mem hx
    cases x with
    | none => simp
    | some o =>
      have ho : rt.obj? q = some o := by rw [Runtime.obj?, hq]; rfl
      obtain ⟨sh, hsh, -⟩ := hinv.objs q o ho
      simp only [Option.map_some, Option.some_inj, decide_eq_true_eq]
      rintro rfl
      cases hid.symm.trans hsh
  · cases c with
    | none => simp
    | some c =>
      obtain ⟨sh, hsh, -⟩ := hinv.contexts c.1 c.2 hc
      simp only [Option.map_some, Option.some_inj, decide_eq_true_eq]
      rintro rfl
      cases hid.symm.trans hsh

/-- A new shape, with the reference to it in hand. -/
theorem Inv.allocShape (hinv : Inv adj loose rt) (loose' : Option ℕ) (sh : Shape)
    (hwf : sh.WellFormed) (hcount : sh.refCount = 1)
    (hadj : adj rt.shapes.length = 0) (hhash : sh.isHashed = true → loose' = some rt.shapes.length)
    (hl : ∀ i, i ≠ rt.shapes.length → (loose' = some i ↔ loose = some i)) :
    Inv (adj + one rt.shapes.length) loose' { rt with shapes := rt.shapes ++ [some sh] } ∧
      (∀ q, { rt with shapes := rt.shapes ++ [some sh] }.view q = rt.view q) ∧
      ∀ i, { rt with shapes := rt.shapes ++ [some sh] }.shape? i =
        if i = rt.shapes.length then some sh else rt.shape? i := by
  set rt' : Runtime V := { rt with shapes := rt.shapes ++ [some sh] }
  have hshape : ∀ i, rt'.shape? i = if i = rt.shapes.length then some sh else rt.shape? i :=
    fun i => join_getElem?_append rt.shapes (some sh) i
  have hold : ∀ i sh₀, rt.shape? i = some sh₀ → i ≠ rt.shapes.length := fun i sh₀ h =>
    (Runtime.lt_of_shape? h).ne
  have hkeep : ∀ i sh₀, rt.shape? i = some sh₀ → rt'.shape? i = some sh₀ := fun i sh₀ h => by
    rw [hshape, if_neg (hold i sh₀ h), h]
  have hnew : rt.shape? rt.shapes.length = none := by
    rw [Runtime.shape?, List.getElem?_eq_none le_rfl]
    rfl
  refine ⟨⟨fun q o' ho' => ?_, fun i sh' hsh' => ?_, fun i proto hi => ?_,
    fun i sh' hsh' hh hl' => ?_, fun b bk hbk => ?_, hinv.tableSize⟩,
    fun q => view_congr rfl fun o' ho' => ?_, hshape⟩
  · obtain ⟨sh₀, hsh₀, hprop⟩ := hinv.objs q o' ho'
    exact ⟨sh₀, hkeep _ _ hsh₀, hprop⟩
  · rw [hshape] at hsh'
    split_ifs at hsh' with hi
    · cases hsh'
      have husers : rt'.users i = 0 := by
        rw [hi]
        exact hinv.users_eq_zero hnew
      refine ⟨hwf, ?_, by omega, fun _ => hcount⟩
      rw [husers, hcount, hi]
      simp [one, hadj]
    · obtain ⟨hwf', hc, hpos⟩ := hinv.shapes i sh' hsh'
      refine ⟨hwf', hc.trans ?_, hpos⟩
      simp [one, hi, rt', Runtime.users]
  · obtain ⟨sh₀, hsh₀, hlen⟩ := hinv.contexts i proto hi
    exact ⟨sh₀, hkeep _ _ hsh₀, hlen⟩
  · rw [hshape] at hsh'
    split_ifs at hsh' with hi
    · cases hsh'
      exact absurd (hi ▸ hhash hh) hl'
    · exact hinv.linked i sh' hsh' hh (mt (hl i hi).2 hl')
  · obtain ⟨hnodup, hall⟩ := hinv.buckets b bk hbk
    refine ⟨hnodup, fun i hi => ?_⟩
    obtain ⟨hne, sh', hsh', hh, hbit⟩ := hall i hi
    exact ⟨mt (hl i (hold i sh' hsh')).1 hne, sh', hkeep _ _ hsh', hh, hbit⟩
  · rw [hshape, if_neg (hinv.shape_lt ho').ne]

/-- The written object is read back, and the others as before. -/
theorem Runtime.obj?_setObj (hp : p < rt.objs.length) (o' : PropObj V) (q : ℕ) :
    (rt.setObj p o').obj? q = if q = p then some o' else rt.obj? q :=
  join_getElem?_set hp (some o') q

/-- How a count changes when one entry of a list does. -/
theorem countP_set_option {α : Type} (f : α → ℕ) {l : List (Option α)} {a : α}
    (ha : l[p]? = some (some a)) (x : Option α) (i : ℕ) :
    ((l.set p x).countP (fun y => y.map f = some i) : ℤ) =
      l.countP (fun y => y.map f = some i) - one (f a) i + if x.map f = some i then 1 else 0 := by
  obtain ⟨hlt, hget⟩ := List.getElem?_eq_some_iff.1 ha
  have hpos : f a = i → 0 < l.countP fun y => decide (y.map f = some i) := fun h =>
    List.countP_pos_iff.2 ⟨some a, List.mem_of_getElem? ha, by simp [h]⟩
  rw [List.countP_set hlt, hget]
  simp only [Option.map_some, Option.some_inj, decide_eq_true_eq, one_apply]
  split_ifs with h₁ h₂ h₂
  · have := hpos h₁
    omega
  · have := hpos h₁
    omega
  · omega
  · omega

/-- An object goes over to another shape. -/
theorem users_setObj (ho : rt.obj? p = some o) (o' : PropObj V) (i : ℕ) :
    ((rt.setObj p o').users i : ℤ) = rt.users i - one o.shape i + one o'.shape i := by
  have hcount := countP_set_option PropObj.shape (Option.join_eq_some_iff.1 ho) (some o') i
  simp only [Option.map_some, Option.some_inj, ← one_apply] at hcount
  simp only [Runtime.users, Runtime.setObj, Nat.cast_add, hcount]
  ring

/-- An object may go over to another shape that describes its values. No other object sees it. -/
theorem Inv.setObj (hinv : Inv adj loose rt) (ho : rt.obj? p = some o) (o' : PropObj V)
    (hsh : rt.shape? o'.shape = some sh) (hlen : o'.prop.length = sh.propSize)
    (hwritten : Written sh.contents o'.prop) :
    Inv (adj + one o.shape - one o'.shape) loose (rt.setObj p o') ∧
      (∀ q, q ≠ p → (rt.setObj p o').view q = rt.view q) ∧
      (rt.setObj p o').view p = some ⟨sh.proto, entries sh.contents o'.prop⟩ := by
  have hobj := Runtime.obj?_setObj (Runtime.lt_of_obj? ho) o'
  refine ⟨hinv.of_lookups (fun q x hx => ?_) (fun i sh' hsh' => ?_) hinv.contexts
    (fun i sh₀ _ h₀ hh => ⟨sh₀, h₀, hh, rfl⟩) (fun i sh₀ _ h₀ hh => ⟨sh₀, h₀, hh, rfl⟩) rfl rfl,
    fun q hq => view_congr ((hobj q).trans (if_neg hq)) fun _ _ => rfl,
    Runtime.view_eq ((hobj p).trans (if_pos rfl)) hsh⟩
  · rw [hobj] at hx
    split_ifs at hx with hq
    · cases hx
      exact ⟨sh, hsh, hlen, hwritten⟩
    · exact hinv.objs q x hx
  · obtain ⟨hwf, hc, hpos⟩ := hinv.shapes i sh' hsh'
    refine ⟨hwf, ?_, hpos⟩
    rw [users_setObj ho o', hc]
    simp only [Pi.add_apply, Pi.sub_apply]
    ring

/-! ## Shapes of one object -/

/-- A shape with one reference, that of an object, is used by no other. -/
theorem Inv.unshared (hinv : Inv 0 loose rt) (ho : rt.obj? p = some o)
    (hsh : rt.shape? o.shape = some sh) (hone : sh.refCount = 1) :
    (∀ q o', rt.obj? q = some o' → q ≠ p → o'.shape ≠ o.shape) ∧
      ∀ proto, some (o.shape, proto) ∉ rt.contexts := by
  have hc := (hinv.shapes _ _ hsh).2.1
  -- without the object there is no user
  have hzero : (rt.setObj p ⟨o.shape + 1, []⟩).users o.shape = 0 := by
    have := users_setObj ho ⟨o.shape + 1, []⟩ o.shape
    simp only [one_apply, if_true, Nat.succ_ne_self, if_false, Pi.zero_apply] at this hc
    omega
  refine ⟨fun q o' ho' hq heq => ?_, fun proto hmem => ?_⟩
  · have ho'' : (rt.setObj p ⟨o.shape + 1, []⟩).obj? q = some o' := by
      rw [Runtime.obj?_setObj (Runtime.lt_of_obj? ho), if_neg hq, ho']
    have hpos := users_pos ho''
    rw [heq, hzero] at hpos
    exact absurd hpos (Nat.lt_irrefl 0)
  · have hpos : 0 < (rt.setObj p ⟨o.shape + 1, []⟩).users o.shape := users_of_context hmem
    rw [hzero] at hpos
    exact absurd hpos (Nat.lt_irrefl 0)

/-- The shape is out of the table, where it is hashed. -/
def looseIf (hashed : Bool) (id : ℕ) : Option ℕ := if hashed then some id else none

/-- Only one shape is loose. -/
theorem looseIf_ne {hashed : Bool} {i : ℕ} (hi : i ≠ id) : looseIf hashed id ≠ some i := by
  cases hashed <;> simp [looseIf, Ne.symm hi]

/-- The shape of one object is changed where it is, and the slots with it. -/
theorem Inv.replace (hinv : Inv 0 (looseIf sh.isHashed o.shape) rt) (ho : rt.obj? p = some o)
    (hsh : rt.shape? o.shape = some sh) (hone : sh.refCount = 1) (hwf : sh'.WellFormed)
    (hcount : sh'.refCount = 1) (vals : List (Option V)) (hlen : vals.length = sh'.propSize)
    (hwritten : Written sh'.contents vals) :
    Inv 0 (looseIf sh'.isHashed o.shape) ((rt.setShape o.shape sh').setObj p ⟨o.shape, vals⟩) ∧
      (∀ q, q ≠ p → ((rt.setShape o.shape sh').setObj p ⟨o.shape, vals⟩).view q = rt.view q) ∧
      ((rt.setShape o.shape sh').setObj p ⟨o.shape, vals⟩).view p =
        some ⟨sh'.proto, entries sh'.contents vals⟩ := by
  obtain ⟨hother, hctx⟩ := hinv.unshared ho hsh hone
  set rt' := (rt.setShape o.shape sh').setObj p ⟨o.shape, vals⟩ with hrt'
  have hobj : ∀ q, rt'.obj? q = if q = p then some ⟨o.shape, vals⟩ else rt.obj? q := fun q =>
    Runtime.obj?_setObj (by exact Runtime.lt_of_obj? ho) _ q
  have hshape : ∀ i, rt'.shape? i = if i = o.shape then some sh' else rt.shape? i := fun i =>
    join_getElem?_set (Runtime.lt_of_shape? hsh) _ i
  have husers : ∀ i, rt'.users i = rt.users i := by
    intro i
    have := users_setObj (show (rt.setShape o.shape sh').obj? p = some o from ho) ⟨o.shape, vals⟩ i
    simp only [sub_add_cancel] at this
    exact_mod_cast this
  refine ⟨⟨fun q x hx => ?_, fun i sh₁ h₁ => ?_, fun i proto hi => ?_, fun i sh₁ h₁ hh hl => ?_,
    fun b bk hbk => ?_, hinv.tableSize⟩, fun q hq => ?_, ?_⟩
  · rw [hobj] at hx
    split_ifs at hx with hq
    · cases hx
      exact ⟨sh', by rw [hshape, if_pos rfl], hlen, hwritten⟩
    · obtain ⟨sh₀, hsh₀, hprop⟩ := hinv.objs q x hx
      exact ⟨sh₀, by rw [hshape, if_neg (hother q x hx hq)]; exact hsh₀, hprop⟩
  · rw [hshape] at h₁
    rw [husers]
    split_ifs at h₁ with hi
    · cases h₁
      refine ⟨hwf, ?_, by omega, fun _ => hcount⟩
      rw [hcount, hi, ← (hinv.shapes _ _ hsh).2.1, hone]
    · exact hinv.shapes i sh₁ h₁
  · obtain ⟨sh₀, hsh₀, hlen₀⟩ := hinv.contexts i proto hi
    have hne : i ≠ o.shape := fun h => hctx proto (h ▸ hi)
    exact ⟨sh₀, by rw [hshape, if_neg hne]; exact hsh₀, hlen₀⟩
  · rw [hshape] at h₁
    split_ifs at h₁ with hi
    · cases h₁
      exact absurd (by rw [hi, hh]; rfl) hl
    · exact hinv.linked i sh₁ h₁ hh (looseIf_ne hi)
  · obtain ⟨hnodup, hall⟩ := hinv.buckets b bk hbk
    refine ⟨hnodup, fun i hi => ?_⟩
    obtain ⟨hne, sh₁, h₁, hh, hbit⟩ := hall i hi
    have hi' : i ≠ o.shape := fun h => by
      subst h
      cases hsh.symm.trans h₁
      exact hne (by rw [hh]; rfl)
    exact ⟨looseIf_ne hi', sh₁, by rw [hshape, if_neg hi']; exact h₁, hh, hbit⟩
  · refine view_congr (by rw [hobj, if_neg hq]) fun x hx => ?_
    rw [hshape, if_neg (hother q x hx hq)]
  · exact Runtime.view_eq (by rw [hobj, if_pos rfl]) (by rw [hshape, if_pos rfl])

/-- The shape of one object is allocated anew. -/
theorem Inv.move (hinv : Inv 0 (looseIf sh.isHashed o.shape) rt) (ho : rt.obj? p = some o)
    (hsh : rt.shape? o.shape = some sh) (hone : sh.refCount = 1) (hwf : sh'.WellFormed)
    (hcount : sh'.refCount = 1) (vals : List (Option V)) (hlen : vals.length = sh'.propSize)
    (hwritten : Written sh'.contents vals) :
    let rt' := (rt.moveShape o.shape sh').2.setObj p ⟨rt.shapes.length, vals⟩
    Inv 0 (looseIf sh'.isHashed rt.shapes.length) rt' ∧
      (∀ q, q ≠ p → rt'.view q = rt.view q) ∧
      rt'.view p = some ⟨sh'.proto, entries sh'.contents vals⟩ ∧
      rt'.shape? rt.shapes.length = some sh' := by
  intro rt'
  have hlt := Runtime.lt_of_shape? hsh
  obtain ⟨hlen₀, hwr₀⟩ := hinv.slots ho hsh
  -- the old shape leaves the table, the new one comes, the object goes over, the old one is freed
  obtain ⟨hinv₀, hview₀, -⟩ := hinv.replace ho hsh hone
    ((hinv.shapes _ _ hsh).1.unhashed) hone _ hlen₀ hwr₀
  set rt₀ := (rt.setShape o.shape { sh with isHashed := false }).setObj p ⟨o.shape, o.prop⟩
  have hlen₁ : rt₀.shapes.length = rt.shapes.length := by
    simp [rt₀, Runtime.setShape, Runtime.setObj]
  have ho₀ : rt₀.obj? p = some ⟨o.shape, o.prop⟩ :=
    (Runtime.obj?_setObj (by exact Runtime.lt_of_obj? ho) _ p).trans (if_pos rfl)
  have hsh₀ : rt₀.shape? o.shape = some { sh with isHashed := false } :=
    (join_getElem?_set hlt _ _).trans (if_pos rfl)
  obtain ⟨hinv₁, hview₁, hshape₁⟩ := hinv₀.allocShape
    (looseIf sh'.isHashed rt.shapes.length) sh' hwf hcount rfl
    (fun h => by rw [h, hlen₁]; rfl) fun i hi => by
      rw [hlen₁] at hi
      simp [looseIf, Ne.symm hi]
  set rt₁ : Runtime V := { rt₀ with shapes := rt₀.shapes ++ [some sh'] }
  obtain ⟨hinv₂, hview₂, hviewp⟩ := hinv₁.setObj (p := p) ho₀ ⟨rt.shapes.length, vals⟩
    (by rw [hshape₁, if_pos hlen₁.symm]) hlen hwritten
  set rt₂ := rt₁.setObj p ⟨rt.shapes.length, vals⟩
  have hsh₂ : rt₂.shape? o.shape = some { sh with isHashed := false } := by
    refine (hshape₁ o.shape).trans ?_
    rw [hlen₁, if_neg hlt.ne, hsh₀]
  have husers : rt₂.users o.shape = 0 := by
    have hc := (hinv₂.shapes _ _ hsh₂).2.1
    simp only [Pi.sub_apply, Pi.add_apply, Pi.zero_apply, one_apply, hlen₁, hlt.ne', if_true,
      if_false, hone] at hc
    omega
  obtain ⟨hinv₃, hview₃⟩ := hinv₂.drop 0
    (looseIf sh'.isHashed rt.shapes.length) hsh₂ (fun h => by cases h)
    (fun _ _ => Iff.rfl) husers fun i hi => by
      simp only [Pi.sub_apply, Pi.add_apply, Pi.zero_apply, one_apply, hlen₁, if_neg (Ne.symm hi)]
      ring
  have heq : { rt₂ with shapes := rt₂.shapes.set o.shape none } = rt' := by
    have hshapes : (rt.shapes.set o.shape (some { sh with isHashed := false }) ++
        [some sh']).set o.shape none = rt.shapes.set o.shape none ++ [some sh'] := by
      rw [List.set_append_left _ _ (by simpa using hlt), List.set_set]
    simp only [rt₂, rt₁, rt₀, rt', Runtime.setObj, Runtime.setShape, Runtime.moveShape, hshapes,
      List.set_set]
  rw [heq] at hinv₃ hview₃
  refine ⟨hinv₃, fun q hq => ?_, (hview₃ p).trans hviewp, ?_⟩
  · rw [hview₃, hview₂ q hq, hview₁, hview₀ q hq]
  · refine (join_getElem?_append (rt.shapes.set o.shape none) (some sh') _).trans (if_pos ?_)
    simp

end Shapes

end QuickjsDart
