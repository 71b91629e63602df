import QuickjsDart.Sharing

/-!
# Objects with shared shapes

What each operation on an object with a shape does: it does not fail, it keeps the invariant, and on
the properties that scripts see (`Runtime.view`) it is the operation on a list, for this object and
no other. So the same holds in every run (`shapes_refine`).
-/

namespace QuickjsDart

namespace Shapes

variable {V : Type} {rt rt' : Runtime V} {p id : ℕ} {o : PropObj V} {sh sh' : Shape}

/-! ## Slots -/

/-- `js_realloc` gives the size that was asked for. -/
@[simp] theorem length_realloc (vals : List (Option V)) (n : ℕ) : (realloc vals n).length = n := by
  simp only [realloc, List.length_append, List.length_take, List.length_replicate]
  omega

/-- What was there stays there. -/
theorem getElem?_realloc {vals : List (Option V)} {n i : ℕ} (hn : i < n) (hi : i < vals.length) :
    (realloc vals n)[i]? = vals[i]? := by
  rw [realloc, List.getElem?_append_left (by simp; omega), List.getElem?_take_of_lt hn]

/-- Only the slots that the shape describes have to be written. -/
theorem Written.congr {cs : List (ℕ × ℕ)} {vals vals' : List (Option V)} (h : Written cs vals)
    (heq : ∀ i < cs.length, vals'[i]? = vals[i]?) : Written cs vals' := by
  intro i c hc hc0
  rw [heq i (List.getElem?_eq_some_iff.1 hc).1]
  exact h i c hc hc0

/-- One more property, whose slot is written in an array that begins as the old one. -/
theorem Written.extend {cs : List (ℕ × ℕ)} {vals vals' : List (Option V)} (h : Written cs vals)
    (heq : ∀ i < cs.length, vals'[i]? = vals[i]?) (hlt : cs.length < vals'.length) {atom : ℕ}
    (hatom : atom ≠ 0) (flags : ℕ) (v : V) :
    Written (cs ++ [(atom, flags)]) (vals'.set cs.length (some v)) ∧
      entries (cs ++ [(atom, flags)]) (vals'.set cs.length (some v)) =
        entries cs vals ++ [(atom, flags, v)] := by
  refine ⟨(h.congr heq).append (atom, flags) v hlt, ?_⟩
  rw [entries_append (atom, flags) (some v) hlt, entries_congr heq]
  simp [entryOf, hatom]

/-- Writing what is there changes nothing. -/
theorem Runtime.setObj_self (ho : rt.obj? p = some o) : rt.setObj p o = rt := by
  have hget := Option.join_eq_some_iff.1 ho
  have hset : rt.objs.set p (some o) = rt.objs := by
    refine List.ext_getElem? fun q => ?_
    rw [List.getElem?_set]
    split_ifs with hq
    · rw [← hq, hget]
    · exact hq ▸ (List.getElem?_eq_none (not_lt.1 (by assumption))).symm
    · rfl
  rw [Runtime.setObj, hset]

/-! ## Shapes that may be changed -/

/-- The shape of one object is changed, and the slots are not. -/
theorem Inv.replaceShape (hinv : Inv 0 (looseIf sh.isHashed o.shape) rt) (ho : rt.obj? p = some o)
    (hsh : rt.shape? o.shape = some sh) (hone : sh.refCount = 1) (hwf : sh'.WellFormed)
    (hcount : sh'.refCount = 1) (hsize : sh'.propSize = sh.propSize)
    (hwritten : Written sh'.contents o.prop) :
    Inv 0 (looseIf sh'.isHashed o.shape) (rt.setShape o.shape sh') ∧
      (∀ q, q ≠ p → (rt.setShape o.shape sh').view q = rt.view q) ∧
      (rt.setShape o.shape sh').view p = some ⟨sh'.proto, entries sh'.contents o.prop⟩ ∧
      (rt.setShape o.shape sh').shape? o.shape = some sh' := by
  obtain ⟨hlen, -⟩ := hinv.slots ho hsh
  obtain ⟨hinv', hview, hviewp⟩ :=
    hinv.replace ho hsh hone hwf hcount o.prop (hlen.trans hsize.symm) hwritten
  have hself : (rt.setShape o.shape sh').setObj p ⟨o.shape, o.prop⟩ = rt.setShape o.shape sh' :=
    Runtime.setObj_self ho
  rw [hself] at hinv' hview hviewp
  exact ⟨hinv', hview, hviewp,
    (join_getElem?_set (Runtime.lt_of_shape? hsh) _ _).trans (if_pos rfl)⟩

/-- An object leaves a shape that others have too, for one with the same entries whose reference is
in hand. -/
theorem Inv.goOver (hinv : Inv (one id) none rt) (ho : rt.obj? p = some o)
    (hsh : rt.shape? o.shape = some sh) (hshared : sh.refCount ≠ 1)
    (hsh' : rt.shape? id = some sh') (hne : id ≠ o.shape) (hcont : sh'.contents = sh.contents)
    (hsize : sh'.propSize = sh.propSize) (hproto : sh'.proto = sh.proto) :
    ∃ rt₁, rt.freeShape o.shape = some rt₁ ∧
      let rt' := rt₁.setObj p ⟨id, o.prop⟩
      Inv 0 none rt' ∧ (∀ q, rt'.view q = rt.view q) ∧ rt'.frame = rt.frame ∧
        rt'.obj? p = some ⟨id, o.prop⟩ ∧ rt'.shape? id = some sh' := by
  obtain ⟨hlen, hwritten⟩ := hinv.slots ho hsh
  obtain ⟨rt₁, hfree, hinv₁, hview₁, hobjs, hctx, hshape₁⟩ :=
    hinv.freeShape o.shape hsh fun h => absurd h hshared
  have ho₁ := (Runtime.obj?_congr hobjs p).trans ho
  have hsh₁ := (hshape₁ id hne).trans hsh'
  obtain ⟨hinv₂, hview₂, hviewp⟩ := hinv₁.setObj ho₁ ⟨id, o.prop⟩ hsh₁ (hlen.trans hsize.symm)
    (by rw [hcont]; exact hwritten)
  have hadj : (one id - one o.shape + one o.shape - one id : ℕ → ℤ) = 0 := by ring
  rw [hadj] at hinv₂
  refine ⟨rt₁, hfree, hinv₂, fun q => ?_, ?_, ?_, hsh₁⟩
  · by_cases hq : q = p
    · rw [hq, hviewp, hcont, hproto, Runtime.view_eq ho hsh]
    · rw [hview₂ q hq, hview₁]
  · exact (rt₁.frame_setObj _ _).trans (Runtime.frame_eq hobjs hctx)
  · exact (Runtime.obj?_setObj (Runtime.lt_of_obj? ho₁) _ p).trans (if_pos rfl)

/-- `js_shape_prepare_update`: the object has a shape of its own afterwards, with the same
entries. -/
theorem Inv.prepareUpdate (hinv : Inv 0 none rt) (ho : rt.obj? p = some o)
    (hsh : rt.shape? o.shape = some sh) :
    ∃ rt' id, rt.prepareUpdate p = some rt' ∧ Inv 0 none rt' ∧ (∀ q, rt'.view q = rt.view q) ∧
      rt'.frame = rt.frame ∧ rt'.obj? p = some ⟨id, o.prop⟩ ∧
      rt'.shape? id = some { sh with isHashed := false, refCount := 1 } := by
  obtain ⟨hwf, -, -, hsingle⟩ := hinv.shapes _ _ hsh
  obtain ⟨-, hwritten⟩ := hinv.slots ho hsh
  unfold Runtime.prepareUpdate
  simp only [ho, hsh, Option.bind_eq_bind, Option.bind_some]
  cases hh : sh.isHashed with
  | false =>
    refine ⟨rt, o.shape, rfl, hinv, fun _ => rfl, rfl, ho, ?_⟩
    rw [hsh, ← hh, ← hsingle hh]
  | true =>
    by_cases hone : sh.refCount = 1
    · obtain ⟨rt₁, hrun, hinv₁, hs, hob, hctx⟩ := hinv.unlink hsh hh
      have ho₁ := (Runtime.obj?_congr hob p).trans ho
      have hsh₁ := (Runtime.shape?_congr hs o.shape).trans hsh
      have hinv₁' : Inv 0 (looseIf sh.isHashed o.shape) rt₁ := by rwa [hh]
      obtain ⟨hinv₂, hview₂, hviewp, hsh₂⟩ :=
        hinv₁'.replaceShape ho₁ hsh₁ hone hwf.unhashed hone rfl hwritten
      refine ⟨_, o.shape, ?_, hinv₂, fun q => ?_, Runtime.frame_eq hob hctx, ho₁, ?_⟩
      · simp [hone, hrun]
      · by_cases hq : q = p
        · rw [hq, hviewp, Runtime.view_eq ho hsh]
          rfl
        · rw [hview₂ q hq, Runtime.view_unlinked hs hob]
      · rw [hsh₂, ← hone]
    · have hne : rt.shapes.length ≠ o.shape := (Runtime.lt_of_shape? hsh).ne'
      obtain ⟨hinv₁, hview₁, hshape₁⟩ := hinv.allocShape none
        { sh with refCount := 1, isHashed := false }
        (hwf.unhashed.withHeader (fun h => h) sh.hash 1 sh.proto) rfl rfl (by simp)
        fun _ _ => Iff.rfl
      rw [zero_add] at hinv₁
      obtain ⟨rt₂, hfree, hinv₂, hview₂, hframe, ho₂, hsh₂⟩ := hinv₁.goOver ho
        ((hshape₁ _).trans ((if_neg hne.symm).trans hsh)) hone ((hshape₁ _).trans (if_pos rfl)) hne
        rfl rfl rfl
      refine ⟨_, rt.shapes.length, ?_, hinv₂, fun q => (hview₂ q).trans (hview₁ q), hframe, ho₂,
        hsh₂⟩
      simp only [Runtime.cloneShape, hone, ne_eq, not_false_eq_true, if_true]
      rw [hfree]
      rfl

/-! ## New properties -/

/-- The last write counts. -/
@[simp] theorem Runtime.setObj_setObj (rt : Runtime V) (p : ℕ) (o o' : PropObj V) :
    (rt.setObj p o).setObj p o' = rt.setObj p o' := by
  simp [Runtime.setObj]

/-- A resize changes neither flag, count nor prototype. -/
theorem Shape.resize_fields (sh : Shape) (n : ℕ) :
    (sh.resize n).isHashed = sh.isHashed ∧ (sh.resize n).refCount = sh.refCount ∧
      (sh.resize n).proto = sh.proto := by
  unfold Shape.resize
  dsimp only
  split_ifs <;> exact ⟨rfl, rfl, rfl⟩

/-- The shape of one object gets a property, and the value is written then. -/
theorem Inv.growShape (hinv : Inv 0 (looseIf sh.isHashed o.shape) rt) (ho : rt.obj? p = some o)
    (hsh : rt.shape? o.shape = some sh) (hone : sh.refCount = 1) {atom : ℕ} (hatom : atom ≠ 0)
    (flags : ℕ) (hnew : atom ∉ names sh.contents) (hbound : sh.prop.length + 1 < 2 ^ 26)
    (hash : UInt32) (v : V) :
    ∃ id sh' rt' vals, rt.growShape p o sh hash atom flags = (id, sh', rt') ∧
      rt'.obj? p = some ⟨id, vals⟩ ∧ rt'.shape? id = some sh' ∧ sh'.isHashed = sh.isHashed ∧
      sh'.prop.length = sh.prop.length + 1 ∧ sh.prop.length < vals.length ∧ rt'.frame = rt.frame ∧
      let rt₁ := rt'.setObj p ⟨id, vals.set sh.prop.length (some v)⟩
      Inv 0 (looseIf sh.isHashed id) rt₁ ∧ (∀ q, q ≠ p → rt₁.view q = rt.view q) ∧
        rt₁.view p = some ⟨sh.proto, entries sh.contents o.prop ++ [(atom, flags, v)]⟩ := by
  obtain ⟨hwf, -⟩ := hinv.shapes _ _ hsh
  obtain ⟨hlen, hwritten⟩ := hinv.slots ho hsh
  have hclen : sh.contents.length = sh.prop.length := by simp [Shape.contents]
  unfold Runtime.growShape
  dsimp only
  split_ifs with hfull
  · set newSize := max (sh.prop.length + 1) (sh.propSize * 3 / 2) with hnewSize
    have hle : sh.prop.length + 1 ≤ newSize := le_max_left _ _
    obtain ⟨hwf₁, hcont₁, hsize₁⟩ := hwf.resize newSize (by omega)
    obtain ⟨hhash₁, hcount₁, hproto₁⟩ := sh.resize_fields newSize
    have hlen₁ : (sh.resize newSize).prop.length = sh.prop.length := by
      rw [← hclen, ← hcont₁, Shape.contents, List.length_map]
    set sh₁ : Shape := { sh.resize newSize with hash } with hsh₁
    have hwf₂ : (sh₁.append atom flags).WellFormed := by
      refine (hwf₁.withHeader (fun h => h) hash _ _).append hatom flags ?_ ?_ ?_
      · exact hcont₁ ▸ hnew
      · exact hlen₁.trans_lt (hle.trans_eq hsize₁.symm)
      · exact hlen₁ ▸ hbound
    have hcont₂ : (sh₁.append atom flags).contents = sh.contents ++ [(atom, flags)] :=
      (sh₁.contents_append atom flags).trans (congrArg (· ++ _) hcont₁)
    have hcongr : ∀ i < sh.contents.length, (realloc o.prop newSize)[i]? = o.prop[i]? :=
      fun i hi => getElem?_realloc (by omega) (by have := hwf.size; omega)
    have hlt : sh.contents.length < (realloc o.prop newSize).length := by
      rw [length_realloc]
      omega
    obtain ⟨hwritten₁, hent⟩ := hwritten.extend hcongr hlt hatom flags v
    rw [hclen] at hwritten₁ hent
    obtain ⟨hinv₂, hview₂, hviewp, hsh₂⟩ := hinv.move ho hsh hone hwf₂
      (hcount₁.trans hone) ((realloc o.prop newSize).set sh.prop.length (some v))
      (by simpa [Shape.append] using hsize₁.symm) (by rw [hcont₂]; exact hwritten₁)
    refine ⟨_, _, _, realloc o.prop newSize, rfl, ?_, hsh₂, hhash₁, ?_, ?_, ?_, ?_⟩
    · exact (Runtime.obj?_setObj (by exact Runtime.lt_of_obj? ho) _ p).trans (if_pos rfl)
    · simp [Shape.append, sh₁, hlen₁]
    · exact hclen ▸ hlt
    · exact Runtime.frame_setObj _ _ _
    · rw [Runtime.setObj_setObj]
      refine ⟨?_, hview₂, ?_⟩
      · rw [← hhash₁]
        exact hinv₂
      · rw [hcont₂, hent] at hviewp
        rw [← hproto₁]
        exact hviewp
  · have hwf₂ : ({ sh with hash }.append atom flags).WellFormed :=
      (hwf.withHeader (fun h => h) hash _ _).append hatom flags hnew (not_le.1 hfull) hbound
    have hcont₂ : ({ sh with hash }.append atom flags).contents =
        sh.contents ++ [(atom, flags)] := Shape.contents_append _ atom flags
    have hlt : sh.contents.length < o.prop.length := by omega
    obtain ⟨hwritten₁, hent⟩ := hwritten.extend (fun _ _ => rfl) hlt hatom flags v
    rw [hclen] at hwritten₁ hent
    obtain ⟨hinv₂, hview₂, hviewp⟩ := hinv.replace ho hsh hone hwf₂ hone
      (o.prop.set sh.prop.length (some v)) (by simpa [Shape.append] using hlen)
      (by rw [hcont₂]; exact hwritten₁)
    refine ⟨_, _, _, o.prop, rfl, ho, ?_, rfl, ?_, ?_, rfl, hinv₂, hview₂, ?_⟩
    · exact (join_getElem?_set (Runtime.lt_of_shape? hsh) _ _).trans (if_pos rfl)
    · simp [Shape.append]
    · exact hclen ▸ hlt
    · rw [hviewp, hcont₂, hent]
      rfl

/-- `add_shape_property`, and the value that is written then. -/
theorem Inv.addShapeProperty (hinv : Inv 0 none rt) (ho : rt.obj? p = some o)
    (hsh : rt.shape? o.shape = some sh) (hone : sh.refCount = 1) {atom : ℕ} (hatom : atom ≠ 0)
    (flags : ℕ) (hnew : atom ∉ names sh.contents) (hbound : sh.prop.length + 1 < 2 ^ 26) (v : V) :
    ∃ rt' id vals sh', rt.addShapeProperty p atom flags = some rt' ∧
      rt'.obj? p = some ⟨id, vals⟩ ∧ rt'.shape? id = some sh' ∧
      sh'.prop.length = sh.prop.length + 1 ∧ sh.prop.length < vals.length ∧ rt'.frame = rt.frame ∧
      let rt₁ := rt'.setObj p ⟨id, vals.set sh.prop.length (some v)⟩
      Inv 0 none rt₁ ∧ (∀ q, q ≠ p → rt₁.view q = rt.view q) ∧
        rt₁.view p = some ⟨sh.proto, entries sh.contents o.prop ++ [(atom, flags, v)]⟩ := by
  unfold Runtime.addShapeProperty
  simp only [ho, hsh, Option.bind_eq_bind, Option.bind_some]
  cases hh : sh.isHashed with
  | true =>
    obtain ⟨rt₁, hrun, hinv₁, hs, hob, hctx⟩ := hinv.unlink hsh hh
    have ho₁ := (Runtime.obj?_congr hob p).trans ho
    have hsh₁ := (Runtime.shape?_congr hs o.shape).trans hsh
    have hinv₁' : Inv 0 (looseIf sh.isHashed o.shape) rt₁ := by rwa [hh]
    obtain ⟨id, sh', rt₂, vals, hgrow, ho₂, hsh₂, hhash, hlen, hlt, hframe, hinv₂, hview₂,
        hviewp⟩ :=
      hinv₁'.growShape ho₁ hsh₁ hone hatom flags hnew hbound (sh.nextHash atom flags) v
    rw [hh] at hinv₂ hhash
    refine ⟨rt₂.link id sh', id, vals, sh', ?_, ho₂, hsh₂, hlen, hlt,
      hframe.trans (Runtime.frame_eq hob hctx), hinv₂.link hsh₂ hhash,
      fun q hq => (hview₂ q hq).trans (Runtime.view_unlinked hs hob q), hviewp⟩
    simp [hrun, hgrow]
  | false =>
    have hinv₁ : Inv 0 (looseIf sh.isHashed o.shape) rt := by rwa [hh]
    obtain ⟨id, sh', rt₂, vals, hgrow, ho₂, hsh₂, -, hlen, hlt, hframe, hinv₂, hview₂, hviewp⟩ :=
      hinv₁.growShape ho hsh hone hatom flags hnew hbound sh.hash v
    rw [hh] at hinv₂
    refine ⟨rt₂, id, vals, sh', ?_, ho₂, hsh₂, hlen, hlt, hframe, hinv₂, hview₂, hviewp⟩
    simp [hgrow]

/-! ## Shapes that are found -/

/-- A search whose test never fails finds what the pure search finds. -/
theorem findM?_eq_some {α : Type} {f : α → Option Bool} {g : α → Bool} {l : List α}
    (h : ∀ a ∈ l, f a = some (g a)) : l.findM? f = some (l.find? g) := by
  induction l with
  | nil => rfl
  | cons a l ih =>
    rw [List.findM?, h a List.mem_cons_self, List.find?_cons]
    cases g a with
    | true => rfl
    | false => exact ih fun b hb => h b (List.mem_cons_of_mem a hb)

/-- A search in the list of a hash value: what is found is a shape of the table. -/
theorem Inv.searchTable {adj : ℕ → ℤ} (hinv : Inv adj none rt) (h : UInt32) (test : Shape → Bool) :
    ∃ bucket r, rt.shapeHash[getShapeHash h rt.shapeHashBits]? = some bucket ∧
      (bucket.findM? fun id => do
        let sh ← rt.shape? id
        some (test sh)) = some r ∧
      ∀ id, r = some id → ∃ sh, rt.shape? id = some sh ∧ sh.isHashed = true ∧ test sh = true := by
  obtain ⟨bucket, hb⟩ := hinv.bucket h
  obtain ⟨-, hall⟩ := hinv.buckets _ bucket hb
  have htest : ∀ id ∈ bucket, (do
      let sh ← rt.shape? id
      some (test sh)) = some ((rt.shape? id).elim false test) := by
    intro id hid
    obtain ⟨-, sh, hsh, -⟩ := hall id hid
    simp [hsh]
  refine ⟨bucket, _, hb, findM?_eq_some htest, fun id hid => ?_⟩
  obtain ⟨-, sh, hsh, hh, -⟩ := hall id (List.mem_of_find?_eq_some hid)
  refine ⟨sh, hsh, hh, ?_⟩
  simpa [hsh] using List.find?_some hid

/-- `find_hashed_shape_prop`. -/
theorem Inv.findHashedShapeProp {adj : ℕ → ℤ} (hinv : Inv adj none rt) (sh : Shape)
    (atom flags : ℕ) :
    ∃ r, rt.findHashedShapeProp sh atom flags = some r ∧
      ∀ id, r = some id → ∃ sh₁, rt.shape? id = some sh₁ ∧ sh₁.isHashed = true ∧
        sh₁.proto = sh.proto ∧ sh₁.contents = sh.contents ++ [(atom, flags)] := by
  obtain ⟨bucket, r, hb, hrun, hr⟩ := hinv.searchTable (sh.nextHash atom flags)
    fun sh₁ => sh₁.extends sh (sh.nextHash atom flags) atom flags
  refine ⟨r, ?_, fun id hid => ?_⟩
  · rw [Runtime.findHashedShapeProp, hb]
    exact hrun
  · obtain ⟨sh₁, hsh₁, hh, htest⟩ := hr id hid
    simp only [Shape.extends, decide_eq_true_eq] at htest
    exact ⟨sh₁, hsh₁, hh, htest.2.1, htest.2.2⟩

/-- `find_hashed_shape_proto`. -/
theorem Inv.findHashedShapeProto {adj : ℕ → ℤ} (hinv : Inv adj none rt) (initialHash : UInt32)
    (proto : Option Ref) :
    ∃ r, rt.findHashedShapeProto initialHash proto = some r ∧
      ∀ id, r = some id → ∃ sh₁, rt.shape? id = some sh₁ ∧ sh₁.isHashed = true ∧
        sh₁.proto = proto ∧ sh₁.contents = [] := by
  obtain ⟨bucket, r, hb, hrun, hr⟩ := hinv.searchTable initialHash fun sh₁ =>
    sh₁.hash = initialHash ∧ sh₁.proto = proto ∧ sh₁.prop.length = 0
  refine ⟨r, ?_, fun id hid => ?_⟩
  · rw [Runtime.findHashedShapeProto, hb]
    exact hrun
  · obtain ⟨sh₁, hsh₁, hh, htest⟩ := hr id hid
    simp only [decide_eq_true_eq] at htest
    refine ⟨sh₁, hsh₁, hh, htest.2.1, ?_⟩
    simp [Shape.contents, List.length_eq_zero_iff.1 htest.2.2]

/-- Objects and contexts are changed, and no shape. -/
def Runtime.mapUsers (rt : Runtime V)
    (f : List (Option (PropObj V)) → List (Option (PropObj V)))
    (g : List (Option (ℕ × Option Ref)) → List (Option (ℕ × Option Ref))) : Runtime V :=
  { rt with objs := f rt.objs, contexts := g rt.contexts }

/-- Whether the users of a shape or the shape are written first does not matter. -/
theorem Runtime.freeShape_mapUsers (rt : Runtime V)
    (f : List (Option (PropObj V)) → List (Option (PropObj V)))
    (g : List (Option (ℕ × Option Ref)) → List (Option (ℕ × Option Ref))) (id : ℕ) :
    (rt.mapUsers f g).freeShape id = (rt.freeShape id).map (·.mapUsers f g) := by
  have hunlink : ∀ sh, (rt.mapUsers f g).unlink id sh = (rt.unlink id sh).map (·.mapUsers f g) := by
    intro sh
    simp only [Runtime.unlink, Runtime.mapUsers]
    cases rt.shapeHash[getShapeHash sh.hash rt.shapeHashBits]? with
    | none => rfl
    | some bucket =>
      simp only [Option.bind_eq_bind, Option.bind_some]
      split_ifs <;> rfl
  have hshape : (rt.mapUsers f g).shape? id = rt.shape? id := rfl
  unfold Runtime.freeShape
  rw [hshape]
  cases rt.shape? id with
  | none => rfl
  | some sh =>
    simp only [Option.bind_eq_bind, Option.bind_some, hunlink]
    split_ifs
    · cases rt.unlink id { sh with refCount := sh.refCount - 1 } <;> rfl
    · rfl
    · rfl

/-- A shape is freed the same before and after a write to an object. -/
theorem Runtime.freeShape_setObj (rt : Runtime V) (p : ℕ) (o : PropObj V) (id : ℕ) :
    (rt.setObj p o).freeShape id = (rt.freeShape id).map (·.setObj p o) :=
  rt.freeShape_mapUsers (·.set p (some o)) (fun c => c) id

/-! ## `add_property` -/

/-- What an operation on an object does: all is in order afterwards, the object is as it should be,
and every other object is as it was. -/
structure Updates (rt rt' : Runtime V) (p : ℕ) (x : Option (AbsObj V)) : Prop where
  inv : Inv 0 none rt'
  other : ∀ q, q ≠ p → rt'.view q = rt.view q
  self : rt'.view p = x
  frame : rt'.frame = rt.frame

/-- An object is updated by what it is already. -/
theorem Inv.updates_self {x : Option (AbsObj V)} (hinv : Inv 0 none rt) (hx : rt.view p = x) :
    Updates rt rt p x :=
  ⟨hinv, fun _ _ => rfl, hx, rfl⟩

/-- One update after the other. -/
theorem Updates.trans {rt₁ rt₂ : Runtime V} {x y : Option (AbsObj V)} (h₁ : Updates rt rt₁ p x)
    (h₂ : Updates rt₁ rt₂ p y) : Updates rt rt₂ p y :=
  ⟨h₂.inv, fun q hq => (h₂.other q hq).trans (h₁.other q hq), h₂.self, h₂.frame.trans h₁.frame⟩

/-- The object takes the shape that was found. -/
theorem Inv.joinShape (hinv : Inv 0 none rt) (ho : rt.obj? p = some o)
    (hsh : rt.shape? o.shape = some sh) {sh₁ : Shape} (hsh₁ : rt.shape? id = some sh₁)
    (hhash₁ : sh₁.isHashed = true) (hproto : sh₁.proto = sh.proto) {atom flags : ℕ}
    (hatom : atom ≠ 0) (hcont : sh₁.contents = sh.contents ++ [(atom, flags)]) (v : V) :
    ∃ rt', rt.joinShape p o sh id v = some rt' ∧
      Updates rt rt' p (some ⟨sh.proto, entries sh.contents o.prop ++ [(atom, flags, v)]⟩) := by
  obtain ⟨hwf, -⟩ := hinv.shapes _ _ hsh
  obtain ⟨hwf₁, -⟩ := hinv.shapes _ _ hsh₁
  obtain ⟨hlen, hwritten⟩ := hinv.slots ho hsh
  have hcount : sh₁.prop.length = sh.contents.length + 1 := by
    simpa [Shape.contents] using congrArg List.length hcont
  have hclen : sh.contents.length = sh.prop.length := by simp [Shape.contents]
  have hne : o.shape ≠ id := fun h => by
    rw [h, hsh₁] at hsh
    cases hsh
    omega
  set prop := if sh₁.propSize ≠ sh.propSize then realloc o.prop sh₁.propSize else o.prop with hprop
  have hlen₁ : prop.length = sh₁.propSize := by
    rw [hprop]
    split_ifs with hsize
    · exact length_realloc _ _
    · rw [hlen, not_not.1 hsize]
  have hcongr : ∀ i < sh.contents.length, prop[i]? = o.prop[i]? := by
    intro i hi
    rw [hprop]
    split_ifs with hsize
    · exact getElem?_realloc (by have := hwf₁.size; omega) (by have := hwf.size; omega)
    · rfl
  have hlt : sh.contents.length < prop.length := by
    have := hwf₁.size
    omega
  obtain ⟨hwritten₁, hent⟩ := hwritten.extend hcongr hlt hatom flags v
  rw [← hcont] at hwritten₁ hent
  -- the new shape gets its reference, the object goes over, and the old shape loses its own
  obtain ⟨rt₁, hdup, hinv₁, hview₁, hob₁, hctx₁, hshape₁⟩ := hinv.dupShape hsh₁ hhash₁
  have ho₁ := (Runtime.obj?_congr hob₁ p).trans ho
  obtain ⟨hinv₂, hview₂, hviewp⟩ :=
    hinv₁.setObj ho₁ ⟨id, prop.set sh.contents.length (some v)⟩
      ((hshape₁ id).trans (if_pos rfl)) (by simpa using hlen₁) hwritten₁
  have hadj : (0 + one id + one o.shape - one id : ℕ → ℤ) = one o.shape := by ring
  rw [hadj] at hinv₂
  have hsh₂ : (rt₁.setObj p ⟨id, prop.set sh.contents.length (some v)⟩).shape? o.shape = some sh :=
    (hshape₁ _).trans ((if_neg hne).trans hsh)
  obtain ⟨rt₃, hfree, hinv₃, hview₃, hob₃, hctx₃, -⟩ := hinv₂.freeShape _ hsh₂ fun hone => by
    have hc := (hinv₂.shapes _ _ hsh₂).2.1
    rw [hone, one_apply, if_pos rfl] at hc
    omega
  rw [sub_self] at hinv₃
  have hframe : rt₃.frame = rt.frame := by
    rw [Runtime.frame_eq hob₃ hctx₃, Runtime.frame_setObj, Runtime.frame_eq hob₁ hctx₁]
  refine ⟨rt₃, ?_, hinv₃, fun q hq => ?_, ?_, hframe⟩
  · rw [Runtime.freeShape_setObj, Option.map_eq_some_iff] at hfree
    obtain ⟨rt₄, hfree, rfl⟩ := hfree
    simp only [Runtime.joinShape, hsh₁, hdup, ← hprop, Option.bind_eq_bind, Option.bind_some,
      Runtime.freeShape_setObj, hfree, Option.map_some, Runtime.setObj_setObj]
    rw [hcount, Nat.add_sub_cancel, if_pos hlt]
  · rw [hview₃, hview₂ q hq, hview₁]
  · rw [← hproto, ← hent, hview₃]
    exact hviewp

/-- A shape that is shared is cloned before the property comes. -/
theorem Inv.ownShape (hinv : Inv 0 none rt) (ho : rt.obj? p = some o)
    (hsh : rt.shape? o.shape = some sh) :
    ∃ rt' id sh', rt.ownShape p o sh = some rt' ∧ Inv 0 none rt' ∧
      (∀ q, rt'.view q = rt.view q) ∧ rt'.frame = rt.frame ∧ rt'.obj? p = some ⟨id, o.prop⟩ ∧
      rt'.shape? id = some sh' ∧ sh'.refCount = 1 ∧ sh'.prop = sh.prop ∧ sh'.proto = sh.proto := by
  obtain ⟨hwf, -, -, hsingle⟩ := hinv.shapes _ _ hsh
  unfold Runtime.ownShape
  split_ifs with hshared
  · obtain ⟨hhash, hcount⟩ := hshared
    have hne : rt.shapes.length ≠ o.shape := (Runtime.lt_of_shape? hsh).ne'
    obtain ⟨hinv₁, hview₁, hshape₁⟩ := hinv.allocShape (some rt.shapes.length)
      { sh with refCount := 1, isHashed := true }
      (hwf.withHeader (fun _ => hhash) sh.hash 1 sh.proto) rfl rfl (fun _ => rfl)
      fun i hi => by simpa using Ne.symm hi
    have hsh₁ := (hshape₁ rt.shapes.length).trans (if_pos rfl)
    rw [zero_add] at hinv₁
    obtain ⟨rt₂, hfree, hinv₂, hview₂, hframe, ho₂, hsh₂⟩ := (hinv₁.link hsh₁ rfl).goOver ho
      ((hshape₁ _).trans ((if_neg hne.symm).trans hsh)) hcount hsh₁ hne rfl rfl rfl
    refine ⟨_, _, _, ?_, hinv₂, fun q => (hview₂ q).trans (hview₁ q), hframe, ho₂, hsh₂, rfl, rfl,
      rfl⟩
    have hset : (rt.cloneShape sh).2.setShape rt.shapes.length
        { sh with refCount := 1, isHashed := true } = { rt with shapes := rt.shapes ++
          [some { sh with refCount := 1, isHashed := true }] } := by
      simp [Runtime.cloneShape, Runtime.setShape]
    have hid : (rt.cloneShape sh).1 = rt.shapes.length := rfl
    simp only [hid, hset, hfree, Option.bind_eq_bind, Option.bind_some]
  · refine ⟨rt, o.shape, sh, rfl, hinv, fun _ => rfl, rfl, ho, hsh, ?_, rfl, rfl⟩
    cases hh : sh.isHashed with
    | true => exact not_not.1 fun hc => hshared ⟨hh, hc⟩
    | false => exact hsingle hh

/-- The property is added to the shape of the object itself. -/
theorem Inv.extendShape (hinv : Inv 0 none rt) (ho : rt.obj? p = some o)
    (hsh : rt.shape? o.shape = some sh) {atom : ℕ} (hatom : atom ≠ 0) (flags : ℕ)
    (hnew : atom ∉ names sh.contents) (hbound : sh.prop.length + 1 < 2 ^ 26) (v : V) :
    ∃ rt', rt.extendShape p o sh atom flags v = some rt' ∧
      Updates rt rt' p (some ⟨sh.proto, entries sh.contents o.prop ++ [(atom, flags, v)]⟩) := by
  obtain ⟨rt₁, id, sh₁, hown, hinv₁, hview₁, hframe₁, ho₁, hsh₁, hone, hprop, hproto⟩ :=
    hinv.ownShape ho hsh
  have hcont : sh₁.contents = sh.contents := by rw [Shape.contents, hprop, Shape.contents]
  obtain ⟨rt₂, id₂, vals, sh₂, hadd, ho₂, hsh₂, hlen₂, hlt, hframe₂, hinv₂, hview₂, hviewp⟩ :=
    hinv₁.addShapeProperty ho₁ hsh₁ hone hatom flags (hcont ▸ hnew) (hprop ▸ hbound) v
  refine ⟨_, ?_, hinv₂, fun q hq => (hview₂ q hq).trans (hview₁ q), ?_,
    (rt₂.frame_setObj _ _).trans (hframe₂.trans hframe₁)⟩
  · simp only [Runtime.extendShape, hown, ho₁, hsh₁, hone, hadd, ho₂, hsh₂, hlen₂, ne_eq,
      not_true_eq_false, if_false, Option.bind_eq_bind, Option.bind_some, Nat.add_sub_cancel,
      if_pos hlt]
  · rw [hviewp, hcont, hproto]

/-- `add_property`. -/
theorem Inv.addProperty (hinv : Inv 0 none rt) (ho : rt.obj? p = some o)
    (hsh : rt.shape? o.shape = some sh) {atom : ℕ} (hatom : atom ≠ 0) (flags : ℕ)
    (hnew : atom ∉ names sh.contents) (hbound : sh.prop.length + 1 < 2 ^ 26) (v : V) :
    ∃ rt', rt.addProperty p atom flags v = some rt' ∧
      Updates rt rt' p (some ⟨sh.proto, entries sh.contents o.prop ++ [(atom, flags, v)]⟩) := by
  have hext := hinv.extendShape ho hsh hatom flags hnew hbound v
  unfold Runtime.addProperty
  simp only [ho, hsh, Option.bind_eq_bind, Option.bind_some]
  split_ifs with hhash
  · obtain ⟨r, hfind, hr⟩ := hinv.findHashedShapeProp sh atom flags
    rw [hfind, Option.bind_some]
    cases r with
    | none => exact hext
    | some id =>
      obtain ⟨sh₁, hsh₁, hhash₁, hproto, hcont⟩ := hr id rfl
      exact hinv.joinShape ho hsh hsh₁ hhash₁ hproto hatom hcont v
  · exact hext

end Shapes

end QuickjsDart
