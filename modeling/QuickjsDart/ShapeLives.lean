import QuickjsDart.ShapeEdits

/-!
# Objects that come and go

New shapes, with more room in the table of shapes; new objects, arrays and contexts; and the end of
objects and contexts, where a shape that nobody has a reference to is freed.
-/

namespace QuickjsDart

namespace Shapes

variable {V : Type} {rt rt' : Runtime V} {p id : ℕ} {o : PropObj V} {sh sh' : Shape}
  {adj : ℕ → ℤ}

/-! ## More room in the table of shapes -/

/-- Entries are put in front of the lists of their hash values. -/
theorem getElem?_foldl_modify (key : ℕ → ℕ) (l : List ℕ) (table : List (List ℕ)) (b : ℕ) :
    (l.foldl (fun table id => table.modify (key id) (id :: ·)) table)[b]? =
      (table[b]?).map fun bucket => (l.filter fun id => key id = b).reverse ++ bucket := by
  induction l generalizing table with
  | nil => cases h : table[b]? <;> simp [h]
  | cons id l ih =>
    rw [List.foldl_cons, ih, List.getElem?_modify, List.filter_cons]
    by_cases hb : key id = b
    · cases h : table[b]? <;> simp [hb]
    · simp [hb]

/-- A loop whose turns never fail is a fold. -/
theorem foldlM_eq_some {f : List (List ℕ) → ℕ → Option (List (List ℕ))}
    {g : List (List ℕ) → ℕ → List (List ℕ)} {l : List ℕ} (h : ∀ t, ∀ id ∈ l, f t id = some (g t id))
    (t : List (List ℕ)) : l.foldlM f t = some (l.foldl g t) := by
  induction l generalizing t with
  | nil => rfl
  | cons id l ih =>
    rw [List.foldlM_cons, h t id List.mem_cons_self]
    exact ih (fun t i hi => h t i (List.mem_cons_of_mem id hi)) _

/-- A shape is in one list, once. -/
theorem Inv.nodup_flatten (hinv : Inv adj none rt) : rt.shapeHash.flatten.Nodup := by
  refine List.nodup_flatten.2 ⟨fun bucket hb => ?_, List.pairwise_iff_getElem.2 ?_⟩
  · obtain ⟨b, hb⟩ := List.getElem?_of_mem hb
    exact (hinv.buckets b bucket hb).1
  · intro i j hi hj hij id hid hjd
    obtain ⟨-, sh, hsh, -, hbi⟩ := (hinv.buckets i _ (List.getElem?_eq_getElem hi)).2 id hid
    obtain ⟨-, sh', hsh', -, hbj⟩ := (hinv.buckets j _ (List.getElem?_eq_getElem hj)).2 id hjd
    cases hsh.symm.trans hsh'
    omega

/-- `resize_shape_hash`. -/
theorem Inv.resizeShapeHash (hinv : Inv adj none rt) (bits : ℕ) :
    ∃ table, rt.resizeShapeHash bits =
        some { rt with shapeHash := table, shapeHashBits := bits } ∧
      Inv adj none { rt with shapeHash := table, shapeHashBits := bits } := by
  -- the new place of a shape
  set key : ℕ → ℕ := fun id => (rt.shape? id).elim 0 fun sh => getShapeHash sh.hash bits with hkey
  have hlive : ∀ id ∈ rt.shapeHash.flatten, ∃ sh, rt.shape? id = some sh ∧ sh.isHashed = true := by
    intro id hid
    obtain ⟨bucket, hb, hmem⟩ := List.mem_flatten.1 hid
    obtain ⟨b, hb⟩ := List.getElem?_of_mem hb
    obtain ⟨-, sh, hsh, hh, -⟩ := (hinv.buckets b bucket hb).2 id hmem
    exact ⟨sh, hsh, hh⟩
  set table := rt.shapeHash.flatten.foldl (fun table id => table.modify (key id) (id :: ·))
    (List.replicate (2 ^ bits) []) with htable
  have hlookup : ∀ b, table[b]? = if b < 2 ^ bits then
      some (rt.shapeHash.flatten.filter fun id => key id = b).reverse else none := by
    intro b
    rw [htable, getElem?_foldl_modify, List.getElem?_replicate]
    split_ifs <;> simp
  refine ⟨table, ?_, hinv.objs, hinv.shapes, hinv.contexts, fun i sh' hsh' hh _ => ?_,
    fun b bucket hb => ?_, ?_⟩
  · have hfold := foldlM_eq_some (l := rt.shapeHash.flatten) (f := fun table id => do
        let sh ← rt.shape? id
        pure (table.modify (getShapeHash sh.hash bits) (id :: ·)))
      (g := fun table id => table.modify (key id) (id :: ·)) (fun t id hid => by
        obtain ⟨sh, hsh, -⟩ := hlive id hid
        simp [hsh, hkey]) (List.replicate (2 ^ bits) [])
    rw [Runtime.resizeShapeHash, hfold]
    rfl
  · have hold : rt.shape? i = some sh' := hsh'
    obtain ⟨bucket, hb, hmem⟩ := hinv.linked i sh' hold hh (by simp)
    refine ⟨_, (hlookup _).trans (if_pos (getShapeHash_lt _ _)), ?_⟩
    rw [List.mem_reverse, List.mem_filter]
    exact ⟨List.mem_flatten.2 ⟨bucket, List.mem_of_getElem? hb, hmem⟩, by simp [hkey, hold]⟩
  · dsimp only at hb
    rw [hlookup] at hb
    split_ifs at hb
    cases hb
    refine ⟨List.nodup_reverse.2 (hinv.nodup_flatten.filter _), fun i hi => ⟨by simp, ?_⟩⟩
    obtain ⟨hi, hbit⟩ := List.mem_filter.1 (List.mem_reverse.1 hi)
    obtain ⟨sh, hsh, hh⟩ := hlive i hi
    refine ⟨sh, hsh, hh, ?_⟩
    simpa [hkey, hsh] using hbit
  · have hsize : ∀ (l : List ℕ) (t : List (List ℕ)),
        (l.foldl (fun table id => table.modify (key id) (id :: ·)) t).length = t.length := by
      intro l
      induction l with
      | nil => intro t; rfl
      | cons id l ih => intro t; rw [List.foldl_cons, ih, List.length_modify]
    exact (hsize _ _).trans List.length_replicate

/-! ## New shapes and objects -/

/-- A shape with room for properties and none yet. -/
theorem Shape.wellFormed_new (hashSize propSize : ℕ) (hpos : 0 < hashSize)
    (hle : propSize ≤ hashSize) (isHashed : Bool) (hash : UInt32) (refCount : ℕ)
    (proto : Option Ref) :
    (Shape.mk (List.replicate hashSize 0) [] propSize 0 isHashed false hash refCount
      proto).WellFormed :=
  ⟨⟨tableOK_replicate hpos, List.nodup_nil, Nat.zero_le _, by simpa using hle, rfl, fun _ => rfl,
    fun _ c hc => by simp [Shape.contents] at hc, by simp⟩, .inl (by simp)⟩

/-- The table is made larger where it is full, and the shapes stay as they are. -/
theorem Inv.makeRoom (hinv : Inv adj none rt) :
    ∃ rt', rt.makeRoom = some rt' ∧ Inv adj none rt' ∧ rt'.shapes = rt.shapes ∧
      rt'.objs = rt.objs ∧ rt'.contexts = rt.contexts := by
  unfold Runtime.makeRoom
  split_ifs
  · obtain ⟨table, hrun, hinv'⟩ := hinv.resizeShapeHash (rt.shapeHashBits + 1)
    exact ⟨_, hrun, hinv', rfl, rfl, rfl⟩
  · exact ⟨rt, rfl, hinv, rfl, rfl, rfl⟩

/-- A new shape in the table, with the reference to it in hand. -/
theorem Inv.allocLinked (hinv : Inv 0 none rt) (hwf : sh.WellFormed) (hcount : sh.refCount = 1)
    (hhash : sh.isHashed = true) :
    let rt' := { rt with shapes := rt.shapes ++ [some sh] }.link rt.shapes.length sh
    Inv (one rt.shapes.length) none rt' ∧ (∀ q, rt'.view q = rt.view q) ∧
      rt'.shape? rt.shapes.length = some sh := by
  intro rt'
  obtain ⟨hinv₁, hview₁, hshape₁⟩ := hinv.allocShape (some rt.shapes.length) sh hwf hcount rfl
    (fun _ => rfl) fun i hi => by simpa using Ne.symm hi
  have hsh₁ := (hshape₁ rt.shapes.length).trans (if_pos rfl)
  rw [zero_add] at hinv₁
  exact ⟨hinv₁.link hsh₁ hhash, hview₁, hsh₁⟩

/-- `js_new_shape2`. -/
theorem Inv.newShape (hinv : Inv 0 none rt) (initialHash : UInt32) (proto : Option Ref)
    (hashSize propSize : ℕ) (hpos : 0 < hashSize) (hle : propSize ≤ hashSize) :
    ∃ id rt', rt.newShape initialHash proto hashSize propSize = some (id, rt') ∧
      Inv (one id) none rt' ∧ (∀ q, rt'.view q = rt.view q) ∧ rt'.objs = rt.objs ∧
      rt'.contexts = rt.contexts ∧ rt'.shape? id = some ⟨List.replicate hashSize 0, [], propSize, 0,
        true, false, initialHash, 1, proto⟩ := by
  obtain ⟨rt₁, hrun, hinv₁, hshapes, hobjs, hctx⟩ := hinv.makeRoom
  have hview₁ := Runtime.view_unlinked hshapes hobjs
  obtain ⟨hinv₂, hview₂, hsh₂⟩ := hinv₁.allocLinked
    (Shape.wellFormed_new _ _ hpos hle true initialHash 1 proto) rfl rfl
  refine ⟨rt₁.shapes.length, _, ?_, hinv₂, fun q => (hview₂ q).trans (hview₁ q), hobjs, hctx, hsh₂⟩
  simp [Runtime.newShape, hrun]

/-- `JS_NewObjectFromShape`, with what is written into the slots. -/
theorem Inv.addObj (hinv : Inv (one id) none rt) (hsh : rt.shape? id = some sh)
    (vals : List (Option V)) (hlen : vals.length = sh.propSize)
    (hwritten : Written sh.contents vals) :
    let rt' : Runtime V := { rt with objs := rt.objs ++ [some ⟨id, vals⟩] }
    Inv 0 none rt' ∧ (∀ q, q ≠ rt.objs.length → rt'.view q = rt.view q) ∧
      rt'.view rt.objs.length = some ⟨sh.proto, entries sh.contents vals⟩ := by
  intro rt'
  have hobj : ∀ q, rt'.obj? q = if q = rt.objs.length then some ⟨id, vals⟩ else rt.obj? q :=
    fun q => join_getElem?_append rt.objs _ q
  refine ⟨hinv.of_lookups (fun q x hx => ?_) (fun i sh' hsh' => ?_) hinv.contexts
    (fun i sh₀ _ h₀ hh => ⟨sh₀, h₀, hh, rfl⟩) (fun i sh₀ _ h₀ hh => ⟨sh₀, h₀, hh, rfl⟩) rfl rfl,
    fun q hq => view_congr ((hobj q).trans (if_neg hq)) fun _ _ => rfl,
    Runtime.view_eq ((hobj _).trans (if_pos rfl)) hsh⟩
  · rw [hobj] at hx
    split_ifs at hx with hq
    · cases hx
      exact ⟨sh, hsh, hlen, hwritten⟩
    · exact hinv.objs q x hx
  · obtain ⟨hwf, hc, hpos⟩ := hinv.shapes i sh' hsh'
    refine ⟨hwf, ?_, hpos⟩
    rw [hc, one_apply]
    simp only [rt', Runtime.users, List.countP_append, List.countP_singleton, Option.map_some,
      Option.some_inj, decide_eq_true_eq, Pi.zero_apply]
    split_ifs <;> push_cast <;> ring

/-- What an operation that makes an object does. -/
structure Creates (rt rt' : Runtime V) (x : AbsObj V) : Prop where
  inv : Inv 0 none rt'
  other : ∀ q, q ≠ rt.objs.length → rt'.view q = rt.view q
  new : rt'.view rt.objs.length = some x
  size : rt'.objs.length = rt.objs.length + 1
  contexts : rt'.contexts = rt.contexts

/-- A reference to a shape becomes an object. -/
theorem Inv.creates (hinv : Inv (one id) none rt') (hsh : rt'.shape? id = some sh)
    (hview : ∀ q, rt'.view q = rt.view q) (hobjs : rt'.objs = rt.objs)
    (hctx : rt'.contexts = rt.contexts) (vals : List (Option V)) (hlen : vals.length = sh.propSize)
    {proto : Option Ref} {cs : List (ℕ × ℕ)} (hproto : sh.proto = proto) (hcont : sh.contents = cs)
    (hwritten : Written cs vals) :
    Creates rt { rt' with objs := rt'.objs ++ [some ⟨id, vals⟩] } ⟨proto, entries cs vals⟩ := by
  subst hproto hcont
  obtain ⟨hinv', hview', hnew⟩ := hinv.addObj hsh vals hlen hwritten
  rw [hobjs] at hinv' hview' hnew
  exact ⟨by rwa [hobjs], fun q hq => by rw [hobjs, hview' q hq, hview], by rw [hobjs, hnew],
    by simp [hobjs], hctx⟩

/-- `JS_NewObjectProtoClass`. -/
theorem Inv.newObject (hinv : Inv 0 none rt) (initialHash : UInt32) (proto : Option Ref) :
    ∃ rt', rt.newObject initialHash proto = some (rt.objs.length, rt') ∧
      Creates rt rt' ⟨proto, []⟩ := by
  obtain ⟨r, hfind, hr⟩ := hinv.findHashedShapeProto initialHash proto
  unfold Runtime.newObject
  rw [hfind]
  cases r with
  | some id =>
    obtain ⟨sh, hsh, hhash, hproto, hcont⟩ := hr id rfl
    obtain ⟨rt₁, hdup, hinv₁, hview₁, hobjs, hctx, hshape₁⟩ := hinv.dupShape hsh hhash
    have hsh₁ := (hshape₁ id).trans (if_pos rfl)
    rw [zero_add] at hinv₁
    have hnew := hinv₁.creates hsh₁ hview₁ hobjs hctx (List.replicate sh.propSize none)
      List.length_replicate hproto hcont fun i c hc => by simp at hc
    refine ⟨_, ?_, hnew⟩
    simp [hdup, Runtime.newFromShape, hsh₁, hobjs]
  | none =>
    obtain ⟨id, rt₁, hrun, hinv₁, hview₁, hobjs, hctx, hsh₁⟩ :=
      hinv.newShape initialHash proto 4 2 (by simp) (by simp)
    have hnew := hinv₁.creates hsh₁ hview₁ hobjs hctx (List.replicate 2 none)
      List.length_replicate rfl rfl fun i c hc => by simp [Shape.contents] at hc
    refine ⟨_, ?_, hnew⟩
    simp [hrun, Runtime.newFromShape, hsh₁, hobjs]

/-- `JS_NewArray`. -/
theorem Inv.newArray (hinv : Inv 0 none rt) {c : ℕ} {proto : Option Ref}
    (hc : rt.contexts[c]?.join = some (id, proto)) (length : V) :
    ∃ rt', rt.newArray c length = some (rt.objs.length, rt') ∧
      Creates rt rt' ⟨proto, [(atomLength, lengthFlags, length)]⟩ := by
  have hmem := List.mem_of_getElem? (Option.join_eq_some_iff.1 hc)
  obtain ⟨sh, hsh, hcont, hproto, hhash⟩ := hinv.contexts id proto hmem
  obtain ⟨rt₁, hdup, hinv₁, hview₁, hobjs, hctx, hshape₁⟩ := hinv.dupShape hsh hhash
  have hsh₁ := (hshape₁ id).trans (if_pos rfl)
  rw [zero_add] at hinv₁
  obtain ⟨n, hn⟩ : ∃ n, sh.propSize = n + 1 := by
    have hsize := (hinv.shapes id sh hsh).1.size
    have hlen : sh.prop.length = 1 := by simpa [Shape.contents] using congrArg List.length hcont
    exact ⟨sh.propSize - 1, by omega⟩
  have hnew := hinv₁.creates hsh₁ hview₁ hobjs hctx (some length :: List.replicate n none)
    (by simp [hn]) hproto hcont fun i c hc _ => by
      cases i with
      | zero => exact ⟨length, rfl⟩
      | succ i => simp at hc
  refine ⟨_, ?_, hnew⟩
  simp only [Runtime.newArray, hc, hdup, Runtime.newFromShape, hsh₁, hn, hobjs, Runtime.obj?,
    Option.bind_eq_bind, Option.bind_some, List.getElem?_concat_length, Option.join_some,
    Runtime.setObj, List.replicate_succ, List.set_cons_zero]
  simp

/-! ## Contexts -/

/-- A shape that was put into the table is taken out again. -/
theorem Runtime.unlink_link (hsize : rt.shapeHash.length = 2 ^ rt.shapeHashBits) (id : ℕ)
    (sh : Shape) : (rt.link id sh).unlink id sh = some rt := by
  have hb := List.getElem?_eq_getElem (hsize ▸ getShapeHash_lt sh.hash rt.shapeHashBits)
  have hmodify := List.modify_eq_set_getElem? (id :: ·) (getShapeHash sh.hash rt.shapeHashBits)
    rt.shapeHash
  rw [hb] at hmodify
  simp only [Option.map_eq_map, Option.map_some, Option.getD_some] at hmodify
  have hlt := (List.getElem?_eq_some_iff.1 hb).1
  simp only [Runtime.unlink, Runtime.link, hmodify, List.getElem?_set_self hlt, Option.bind_eq_bind,
    Option.bind_some, List.mem_cons_self, if_true, List.erase_cons_head, List.set_set,
    set_getElem?_self hb, Nat.add_sub_cancel]

/-- A context takes a shape, with the reference to it. -/
theorem Inv.addContext (hinv : Inv (one id) none rt) {proto : Option Ref}
    (hshape : rt.ArrayShape id proto) :
    Inv 0 none { rt with contexts := rt.contexts ++ [some (id, proto)] } := by
  refine hinv.of_lookups hinv.objs (fun i sh' hsh' => ?_) (fun i proto' hi => ?_)
    (fun i sh₀ _ h₀ hh => ⟨sh₀, h₀, hh, rfl⟩) (fun i sh₀ _ h₀ hh => ⟨sh₀, h₀, hh, rfl⟩) rfl rfl
  · obtain ⟨hwf, hc, hpos⟩ := hinv.shapes i sh' hsh'
    refine ⟨hwf, ?_, hpos⟩
    rw [hc, one_apply]
    simp only [Runtime.users, List.countP_append, List.countP_singleton, Option.map_some,
      Option.some_inj, decide_eq_true_eq, Pi.zero_apply]
    split_ifs <;> push_cast <;> ring
  · rcases List.mem_append.1 hi with hi | hi
    · exact hinv.contexts i proto' hi
    · cases List.mem_singleton.1 hi
      exact hshape

/-- A new context. -/
theorem Inv.newContext (hinv : Inv 0 none rt) (initialHash : UInt32) (proto : Option Ref) :
    ∃ rt' id, rt.newContext initialHash proto = some rt' ∧ Inv 0 none rt' ∧
      (∀ q, rt'.view q = rt.view q) ∧ rt'.objs = rt.objs ∧
      rt'.contexts = rt.contexts ++ [some (id, proto)] := by
  obtain ⟨rt₁, hrun, hinv₁, hshapes, hobjs, hctx⟩ := hinv.makeRoom
  have hview₁ := Runtime.view_unlinked hshapes hobjs
  have hnew := Shape.wellFormed_new 4 1 (by simp) (by simp) true
    initialHash 1 proto
  set sh : Shape := ⟨List.replicate 4 0, [], 1, 0, true, false, initialHash, 1, proto⟩ with hsh
  set sh' := { sh with hash := sh.nextHash atomLength lengthFlags }.append atomLength lengthFlags
    with hsh'
  have hwf' : sh'.WellFormed := (hnew.withHeader (fun h => h) _ _ _).append (by simp [atomLength]) _
    (by simp [names, Shape.contents, sh]) (by simp [sh]) (by simp [sh])
  obtain ⟨hinv₂, hview₂, hsh₂⟩ := hinv₁.allocLinked hwf' rfl rfl
  have hcont : sh'.contents = [(atomLength, lengthFlags)] := Shape.contents_append _ _ _
  -- the shape is in the table with its first hash, and then with the second
  set rt₂ : Runtime V := { rt₁ with shapes := rt₁.shapes ++ [some sh] } with hrt₂
  have hcreate : rt.newShape initialHash proto 4 1 =
      some (rt₁.shapes.length, rt₂.link rt₁.shapes.length sh) := by
    simp [Runtime.newShape, hrun, hrt₂, hsh]
  have hget : (rt₂.link rt₁.shapes.length sh).shape? rt₁.shapes.length = some sh :=
    (join_getElem?_append rt₁.shapes (some sh) _).trans (if_pos rfl)
  have hunlink : (rt₂.link rt₁.shapes.length sh).unlink rt₁.shapes.length sh = some rt₂ :=
    Runtime.unlink_link (by exact hinv₁.tableSize) _ _
  have hset : rt₂.setShape rt₁.shapes.length sh' =
      { rt₁ with shapes := rt₁.shapes ++ [some sh'] } := by
    simp [Runtime.setShape, hrt₂]
  refine ⟨_, rt₁.shapes.length, ?_, hinv₂.addContext ⟨sh', hsh₂, hcont, rfl, rfl⟩,
    fun q => (hview₂ q).trans (hview₁ q), hobjs, by rw [← hctx]; rfl⟩
  simp only [Runtime.newContext, hcreate, hget, hunlink, Option.bind_eq_bind, Option.bind_some]
  rw [← hsh', hset]
  rfl

/-! ## The end of objects and contexts -/

/-- An object goes, and its reference is in hand. -/
theorem Inv.dropObj (hinv : Inv 0 none rt) (ho : rt.obj? p = some o) :
    Inv (one o.shape) none (rt.mapUsers (·.set p none) fun c => c) ∧
      (∀ q, q ≠ p → (rt.mapUsers (·.set p none) fun c => c).view q = rt.view q) ∧
      (rt.mapUsers (·.set p none) fun c => c).view p = none := by
  have hobj : ∀ q, (rt.mapUsers (·.set p none) fun c => c).obj? q =
      if q = p then none else rt.obj? q := fun q => join_getElem?_set (Runtime.lt_of_obj? ho) none q
  refine ⟨hinv.of_lookups (fun q x hx => ?_) (fun i sh' hsh' => ?_) hinv.contexts
    (fun i sh₀ _ h₀ hh => ⟨sh₀, h₀, hh, rfl⟩) (fun i sh₀ _ h₀ hh => ⟨sh₀, h₀, hh, rfl⟩) rfl rfl,
    fun q hq => view_congr ((hobj q).trans (if_neg hq)) fun _ _ => rfl, ?_⟩
  · rw [hobj] at hx
    split_ifs at hx
    exact hinv.objs q x hx
  · obtain ⟨hwf, hc, hpos⟩ := hinv.shapes i sh' hsh'
    refine ⟨hwf, ?_, hpos⟩
    have hcount := countP_set_option PropObj.shape (Option.join_eq_some_iff.1 ho) none i
    simp only [Option.map_none, reduceCtorEq, if_false] at hcount
    rw [hc]
    simp only [Runtime.users, Runtime.mapUsers, Nat.cast_add, hcount, Pi.zero_apply]
    ring
  · simp [Runtime.view, hobj]

/-- A context goes, and its reference is in hand. -/
theorem Inv.dropContext (hinv : Inv 0 none rt) {c : ℕ} {proto : Option Ref}
    (hc : rt.contexts[c]?.join = some (id, proto)) :
    Inv (one id) none (rt.mapUsers (fun o => o) (·.set c none)) := by
  refine hinv.of_lookups hinv.objs (fun i sh' hsh' => ?_) (fun i proto' hi => ?_)
    (fun i sh₀ _ h₀ hh => ⟨sh₀, h₀, hh, rfl⟩) (fun i sh₀ _ h₀ hh => ⟨sh₀, h₀, hh, rfl⟩) rfl rfl
  · obtain ⟨hwf, hcount, hpos⟩ := hinv.shapes i sh' hsh'
    refine ⟨hwf, ?_, hpos⟩
    have hset := countP_set_option Prod.fst (Option.join_eq_some_iff.1 hc) none i
    simp only [Option.map_none, reduceCtorEq, if_false] at hset
    rw [hcount]
    simp only [Runtime.users, Runtime.mapUsers, Nat.cast_add, hset, Pi.zero_apply]
    ring
  · rcases List.mem_or_eq_of_mem_set hi with hi | hi
    · exact hinv.contexts i proto' hi
    · cases hi

/-- The reference in hand is given back. -/
theorem Inv.giveBack (hinv : Inv (one id) none rt) (hsh : rt.shape? id = some sh) :
    ∃ rt', rt.freeShape id = some rt' ∧ Inv 0 none rt' ∧ (∀ q, rt'.view q = rt.view q) ∧
      rt'.objs = rt.objs ∧ rt'.contexts = rt.contexts := by
  obtain ⟨rt', hrun, hinv', hview, hobjs, hctx, -⟩ := hinv.freeShape id hsh fun hone => by
    have hc := (hinv.shapes _ _ hsh).2.1
    rw [hone, one_apply, if_pos rfl] at hc
    omega
  rw [sub_self] at hinv'
  exact ⟨rt', hrun, hinv', hview, hobjs, hctx⟩

/-- `free_object`. -/
theorem Inv.freeObject (hinv : Inv 0 none rt) (ho : rt.obj? p = some o) :
    ∃ rt', rt.freeObject p = some rt' ∧ Updates rt rt' p none := by
  obtain ⟨sh, hsh, -⟩ := hinv.objs p o ho
  obtain ⟨hinv₁, hother, hself⟩ := hinv.dropObj ho
  obtain ⟨rt₂, hfree, hinv₂, hview₂, hobjs, hctx⟩ := hinv₁.giveBack hsh
  have hframe : rt₂.frame = rt.frame :=
    (Runtime.frame_eq hobjs hctx).trans (by simp [Runtime.frame, Runtime.mapUsers])
  rw [Runtime.freeShape_mapUsers, Option.map_eq_some_iff] at hfree
  obtain ⟨rt₃, hfree, rfl⟩ := hfree
  refine ⟨_, ?_, hinv₂, fun q hq => (hview₂ q).trans (hother q hq), (hview₂ p).trans hself, hframe⟩
  simp [Runtime.freeObject, ho, hfree, Runtime.mapUsers]

/-- `JS_FreeContext`. -/
theorem Inv.freeContext (hinv : Inv 0 none rt) {c : ℕ} {proto : Option Ref}
    (hc : rt.contexts[c]?.join = some (id, proto)) :
    ∃ rt', rt.freeContext c = some rt' ∧ Inv 0 none rt' ∧ (∀ q, rt'.view q = rt.view q) ∧
      rt'.objs = rt.objs ∧ rt'.contexts = rt.contexts.set c none := by
  have hmem := List.mem_of_getElem? (Option.join_eq_some_iff.1 hc)
  obtain ⟨sh, hsh, -⟩ := hinv.contexts id proto hmem
  obtain ⟨rt₂, hfree, hinv₂, hview₂, hobjs, hctx⟩ := (hinv.dropContext hc).giveBack hsh
  rw [Runtime.freeShape_mapUsers, Option.map_eq_some_iff] at hfree
  obtain ⟨rt₃, hfree, rfl⟩ := hfree
  refine ⟨_, ?_, hinv₂, hview₂, hobjs, hctx⟩
  simp [Runtime.freeContext, hc, hfree, Runtime.mapUsers]

end Shapes

end QuickjsDart
