import QuickjsDart.SharedObjects

/-!
# Properties that change

Deleting a property, changing its flags or its value, and changing the prototype: on the list of an
object each is the operation of the same name on `AbsObj`.
-/

namespace QuickjsDart

namespace Shapes

open Memory

variable {V : Type} {rt rt' : Runtime V} {p id atom : ℕ} {o : PropObj V} {sh sh' : Shape}
  {x : AbsObj V}

/-! ## The operations on lists -/

/-- The flags and the value of a property. -/
def AbsObj.find? (x : AbsObj V) (atom : ℕ) : Option (ℕ × V) :=
  (x.props.find? fun e => e.1 = atom).map Prod.snd

/-- A property is added at the end. -/
def AbsObj.add (x : AbsObj V) (atom flags : ℕ) (v : V) : AbsObj V :=
  { x with props := x.props ++ [(atom, flags, v)] }

/-- A property that may be deleted is, and the answer says whether it is gone. -/
def AbsObj.delete (x : AbsObj V) (atom : ℕ) : Bool × AbsObj V :=
  match x.find? atom with
  | some (flags, _) =>
    if configurable flags then (true, { x with props := x.props.filter fun e => e.1 ≠ atom })
    else (false, x)
  | none => (true, x)

/-- The flags and the value of a property change. -/
def AbsObj.modify (x : AbsObj V) (atom : ℕ) (f : ℕ × V → ℕ × V) : AbsObj V :=
  { x with props := x.props.map fun e => if e.1 = atom then (e.1, f e.2) else e }

/-- The flags of a property are replaced. -/
def AbsObj.setFlags (x : AbsObj V) (atom flags : ℕ) : AbsObj V :=
  x.modify atom fun y => (flags, y.2)

/-- The value of a property is replaced. -/
def AbsObj.setValue (x : AbsObj V) (atom : ℕ) (v : V) : AbsObj V :=
  x.modify atom fun y => (y.1, v)

/-- What has no property of the name is left alone. -/
theorem AbsObj.modify_of_none (hx : x.find? atom = none) (f : ℕ × V → ℕ × V) :
    x.modify atom f = x := by
  rw [AbsObj.find?, Option.map_eq_none_iff, List.find?_eq_none] at hx
  have hmap : x.props.map (fun e => if e.1 = atom then (e.1, f e.2) else e) =
      x.props.map fun e => e :=
    List.map_congr_left fun e he => if_neg (by simpa using hx e he)
  rw [AbsObj.modify, hmap, List.map_id']

/-- The object and its shape, from what is seen. -/
theorem Inv.of_view {adj : ℕ → ℤ} {loose : Option ℕ} (hinv : Inv adj loose rt)
    (hx : rt.view p = some x) :
    ∃ o sh, rt.obj? p = some o ∧ rt.shape? o.shape = some sh ∧ sh.WellFormed ∧
      o.prop.length = sh.propSize ∧ Written sh.contents o.prop ∧
      x = ⟨sh.proto, entries sh.contents o.prop⟩ := by
  unfold Runtime.view at hx
  cases ho : rt.obj? p with
  | none => simp [ho] at hx
  | some o =>
    obtain ⟨sh, hsh, hlen, hwritten⟩ := hinv.objs p o ho
    refine ⟨o, sh, rfl, hsh, (hinv.shapes _ _ hsh).1, hlen, hwritten, ?_⟩
    simpa [ho, hsh] using hx.symm

/-- The search in the table of the shape is the search in the list. -/
theorem Shape.WellFormed.search_cases {vals : List (Option V)} (hwf : sh.WellFormed)
    (hwritten : Written sh.contents vals) (hatom : atom ≠ 0) (proto : Option Ref) :
    (sh.search atom = some none ∧ atom ∉ names sh.contents ∧
        (AbsObj.mk proto (entries sh.contents vals)).find? atom = none) ∨
      ∃ l₁ i l₂ pr v, sh.search atom = some (some (l₁.getLast?, i)) ∧ sh.prop[i]? = some pr ∧
        pr.atom = atom ∧ members (hashOf sh.propHash.length sh.prop) sh.prop.length
          (atom &&& (sh.propHash.length - 1)) = l₁ ++ i :: l₂ ∧ vals[i]? = some (some v) ∧
        (AbsObj.mk proto (entries sh.contents vals)).find? atom = some (pr.flags, v) := by
  rcases Shape.search_cases hwf.table hatom with ⟨hnone, hall⟩ | ⟨l₁, i, l₂, pr, hsome, hi, hpr, hl⟩
  · have hno : atom ∉ names sh.contents := fun hmem => by
      obtain ⟨-, flags, hmem⟩ := mem_names.1 hmem
      obtain ⟨pr, hpr, hc⟩ := List.mem_map.1 hmem
      exact hall pr hpr (congrArg Prod.fst hc)
    refine .inl ⟨hnone, hno, ?_⟩
    rw [AbsObj.find?, Option.map_eq_none_iff, List.find?_eq_none]
    intro e he heq
    exact hno (of_decide_eq_true heq ▸ entries_fst_mem he)
  · have hc : sh.contents[i]? = some pr.content := by simp [Shape.contents, hi]
    have hc0 : pr.content.1 ≠ 0 := by simpa [ShapeProperty.content, hpr] using hatom
    obtain ⟨v, hv⟩ := hwritten i _ hc hc0
    refine .inr ⟨l₁, i, l₂, pr, v, hsome, hi, hpr, hl, hv, ?_⟩
    have hfind := find_entries hc hv hc0 hwf.nodup
    simp only [ShapeProperty.content, hpr] at hfind
    simp [AbsObj.find?, hfind]

/-! ## Compaction -/

/-- Deleted entries have no name. -/
theorem names_filter (cs : List (ℕ × ℕ)) : names (cs.filter fun c => c.1 ≠ 0) = names cs := by
  induction cs with
  | nil => rfl
  | cons c cs ih =>
    by_cases hc : c.1 = 0
    · simpa [names, hc] using ih
    · simpa [names, hc] using ih

/-- Entries are in use or free. -/
theorem length_filter_free (cs : List (ℕ × ℕ)) :
    (cs.filter fun c => c.1 ≠ 0).length + cs.countP (fun c => c.1 = 0) = cs.length := by
  induction cs with
  | nil => rfl
  | cons c cs ih =>
    by_cases hc : c.1 = 0
    · simp only [hc, ne_eq, not_true_eq_false, decide_false, Bool.false_eq_true, not_false_eq_true,
        List.filter_cons_of_neg, decide_true, List.countP_cons_of_pos, List.length_cons] at ih ⊢
      omega
    · simp only [hc, ne_eq, not_false_eq_true, decide_true, List.filter_cons_of_pos, decide_false,
        Bool.false_eq_true, List.countP_cons_of_neg, List.length_cons] at ih ⊢
      omega

/-- `compact_properties` leaves the shape and the slots without the deleted entries. -/
theorem Runtime.compactProperties_eq (ho : rt.obj? p = some o) (hsh : rt.shape? o.shape = some sh)
    (hlaid : sh.Laid) (hhash : sh.isHashed = false) (hroom : 2 ≤ sh.propSize)
    (hlen : o.prop.length = sh.propSize) (hwritten : Written sh.contents o.prop) :
    ∃ sh' vals, rt.compactProperties p =
        some ((rt.moveShape o.shape sh').2.setObj p ⟨rt.shapes.length, vals⟩) ∧
      sh'.WellFormed ∧ sh'.refCount = sh.refCount ∧ sh'.isHashed = false ∧ sh'.proto = sh.proto ∧
      vals.length = sh'.propSize ∧ Written sh'.contents vals ∧
      entries sh'.contents vals = entries sh.contents o.prop ∧
      sh'.contents = sh.contents.filter fun c => c.1 ≠ 0 := by
  have hsize := hlaid.size
  set newSize := max 2 (sh.prop.length - sh.deletedPropCount) with hnewSize
  have hle : newSize ≤ sh.propSize := max_le hroom (by omega)
  set hashSize := shrinkHashSize sh.propHash.length sh.propHash.length newSize with hhashSize
  have hhashLe : newSize ≤ hashSize := le_shrinkHashSize (hle.trans hlaid.load)
  have hpos : 0 < hashSize := by omega
  obtain ⟨t, vals, hrun, hok, htable, hvals, hcont, hwr, hent⟩ := compactLoop_spec sh.prop o.prop
    (tableOK_replicate hpos) (Nat.zero_le 0) (by omega) (by simpa using hlaid.bound.le)
    (fun i c hc => by simp at hc) fun k pr hk hpr => by
      rw [Nat.zero_add]
      exact hwritten k pr.content (by simp [Shape.contents, hk]) hpr
  rw [List.map_nil, List.nil_append] at hcont
  have hcount : t.1.length = sh.prop.length - sh.deletedPropCount := by
    have hlength := congrArg List.length hcont
    have hsplit := length_filter_free sh.contents
    rw [← hlaid.deleted] at hsplit
    simp only [Shape.contents, List.length_map] at hlength hsplit
    omega
  set sh₁ : Shape := { sh with prop := t.1, propHash := t.2, propSize := newSize,
                               deletedPropCount := 0 } with hsh₁
  have hcont₁ : sh₁.contents = sh.contents.filter fun c => c.1 ≠ 0 := hcont
  have hlen₁ : t.1.length ≤ newSize := hcount.trans_le (le_max_right _ _)
  have hcongr : ∀ i < sh₁.contents.length, (realloc vals newSize)[i]? = vals[i]? := by
    intro i hi
    have hi' : i < t.1.length := by simpa [Shape.contents, sh₁] using hi
    exact getElem?_realloc (hi'.trans_le hlen₁) (by omega)
  refine ⟨sh₁, realloc vals newSize, ?_, ⟨⟨hok, ?_, hlen₁, ?_, ?_, fun _ => rfl, ?_, ?_⟩, .inl ?_⟩,
    rfl, hhash, rfl, length_realloc _ _, ?_, ?_, hcont₁⟩
  · unfold Runtime.compactProperties
    simp only [ho, hsh, Option.bind_eq_bind, Option.bind_some, hhash, ← hnewSize, ← hhashSize, hrun]
    simp [hcount, not_lt.2 hle, Runtime.moveShape, sh₁, hhash]
  · rw [hcont₁, names_filter]
    exact hlaid.nodup
  · simpa [sh₁, htable] using hhashLe
  · rw [hcont₁]
    exact (List.countP_eq_zero.2 fun c hc => by simpa using (List.mem_filter.1 hc).2).symm
  · intro hsmall c hc
    rw [hcont₁] at hc
    exact hlaid.small hsmall c (List.mem_of_mem_filter hc)
  · exact hcount.trans_lt (by have := hlaid.bound; omega)
  · simp [sh₁]
  · exact hwr.congr hcongr
  · rw [entries_congr hcongr]
    exact hent

/-! ## Reading and adding -/

/-- `find_own_property` finds what the list has. -/
theorem Inv.findOwnProperty {adj : ℕ → ℤ} (hinv : Inv adj none rt) (hx : rt.view p = some x)
    (hatom : atom ≠ 0) : rt.findOwnProperty p atom = some (x.find? atom) := by
  obtain ⟨o, sh, ho, hsh, hwf, -, hwritten, rfl⟩ := hinv.of_view hx
  unfold Runtime.findOwnProperty
  simp only [ho, hsh, Option.bind_eq_bind, Option.bind_some]
  rcases hwf.search_cases hwritten hatom sh.proto with
    ⟨hnone, -, hfind⟩ | ⟨l₁, i, l₂, pr, v, hsome, hi, -, -, hv, hfind⟩
  · rw [hfind, hnone]
    rfl
  · rw [hfind, hsome]
    simp [hi, hv]

/-- There is one property for each entry in use. -/
theorem length_entries {cs : List (ℕ × ℕ)} {vals : List (Option V)} (h : Written cs vals)
    (hle : cs.length ≤ vals.length) :
    (entries cs vals).length = (cs.filter fun c => c.1 ≠ 0).length := by
  induction cs generalizing vals with
  | nil => rfl
  | cons c cs ih =>
    cases vals with
    | nil => simp at hle
    | cons w vals =>
      have hrest : Written cs vals := fun i d hd hd0 => h (i + 1) d hd hd0
      rw [entries, List.length_append, ih hrest (by simpa using hle)]
      by_cases hc : c.1 = 0
      · simp [entryOf, hc]
      · obtain ⟨v, hv⟩ := h 0 c rfl hc
        have hw : w = some v := by simpa using hv
        simp [entryOf, hc, hw, add_comm]

/-- With deleted entries, a shape has at most twice as many entries as properties, and a few. -/
theorem Shape.WellFormed.length_le {vals : List (Option V)} (hwf : sh.WellFormed)
    (hwritten : Written sh.contents vals) (hlen : vals.length = sh.propSize) :
    sh.prop.length ≤ 2 * (entries sh.contents vals).length + 7 := by
  have hclen : sh.contents.length = sh.prop.length := by simp [Shape.contents]
  have hle : sh.contents.length ≤ vals.length := by
    rw [hclen, hlen]
    exact hwf.size
  have hsplit := length_filter_free sh.contents
  rw [← hwf.deleted, ← length_entries hwritten hle] at hsplit
  have hfew := hwf.few
  omega

/-- `add_property`, for a name that the object does not have. -/
theorem Inv.add (hinv : Inv 0 none rt) (hx : rt.view p = some x) (hatom : atom ≠ 0) (flags : ℕ)
    (hnew : x.find? atom = none) (hbound : x.props.length < 2 ^ 25 - 4) (v : V) :
    ∃ rt', rt.addProperty p atom flags v = some rt' ∧
      Updates rt rt' p (some (x.add atom flags v)) := by
  obtain ⟨o, sh, ho, hsh, hwf, hlen, hwritten, rfl⟩ := hinv.of_view hx
  have hle := hwf.length_le hwritten hlen
  rcases hwf.search_cases hwritten hatom sh.proto with
    ⟨-, hno, -⟩ | ⟨_, _, _, _, _, -, -, -, -, -, hfind⟩
  · exact hinv.addProperty ho hsh hatom flags hno (by dsimp only at hbound; omega) v
  · cases hnew.symm.trans hfind

/-! ## Deleting -/

/-- An entry is replaced with its value. -/
theorem Written.set {cs : List (ℕ × ℕ)} {vals : List (Option V)} (h : Written cs vals) {i : ℕ}
    {c : ℕ × ℕ} (hc : cs[i]? = some c) (hc0 : c.1 ≠ 0) (c' : ℕ × ℕ) (v : V) :
    Written (cs.set i c') (vals.set i (some v)) := by
  intro j d hd hd0
  rw [List.getElem?_set] at hd ⊢
  split_ifs at hd ⊢ with hij hlt
  · exact ⟨v, rfl⟩
  · obtain ⟨w, hw⟩ := h i c hc hc0
    exact absurd (List.getElem?_eq_some_iff.1 hw).1 hlt
  · exact h j d hd hd0

/-- What is left after the name is taken out. -/
theorem filterMap_eq_filter (l : List (ℕ × ℕ × V)) (atom : ℕ) :
    l.filterMap (fun e => if e.1 = atom then none else some e) = l.filter fun e => e.1 ≠ atom := by
  rw [← List.filterMap_eq_filter]
  refine List.filterMap_congr fun e _ => ?_
  by_cases he : e.1 = atom <;> simp [he, Option.guard]

/-- The entries after one was deleted: those that are left move up when many are deleted. -/
def dropEntry (cs : List (ℕ × ℕ)) (i : ℕ) : List (ℕ × ℕ) :=
  let cs' := cs.set i (0, 0)
  let free := cs'.countP fun c => c.1 = 0
  if 8 ≤ free ∧ cs'.length / 2 ≤ free then cs'.filter fun c => c.1 ≠ 0 else cs'

/-- A deletion compacts the entries, or leaves a hole. -/
theorem dropEntry_cases (cs : List (ℕ × ℕ)) (i : ℕ) :
    dropEntry cs i = (cs.set i (0, 0)).filter (fun c => c.1 ≠ 0) ∨
      dropEntry cs i = cs.set i (0, 0) := by
  unfold dropEntry
  dsimp only
  split_ifs
  · exact .inl rfl
  · exact .inr rfl

/-- An entry of the shape of one object is deleted, and the rest moves up when many are. -/
theorem Inv.removeEntry (hinv : Inv 0 none rt) (ho : rt.obj? p = some o)
    (hsh : rt.shape? o.shape = some sh) (hhash : sh.isHashed = false) (hone : sh.refCount = 1)
    {l₁ l₂ : List ℕ} {i : ℕ} {pr : ShapeProperty} (hi : sh.prop[i]? = some pr) (hpr : pr.atom ≠ 0)
    (hl : members (hashOf sh.propHash.length sh.prop) sh.prop.length
      (pr.atom &&& (sh.propHash.length - 1)) = l₁ ++ i :: l₂) (undefined : V) :
    let sh' := sh.remove l₁.getLast? i pr
    let rt₁ := (rt.setShape o.shape sh').setObj p { o with prop := o.prop.set i (some undefined) }
    ∃ rt', (if 8 ≤ sh'.deletedPropCount ∧ sh'.prop.length / 2 ≤ sh'.deletedPropCount then
        rt₁.compactProperties p else some rt₁) = some rt' ∧
      Updates rt rt' p
        (some ⟨sh.proto, (entries sh.contents o.prop).filter fun e => e.1 ≠ pr.atom⟩) ∧
      ∃ o₁ sh₁, rt'.obj? p = some o₁ ∧ rt'.shape? o₁.shape = some sh₁ ∧
        sh₁.contents = dropEntry sh.contents i := by
  intro sh' rt₁
  obtain ⟨hwf, -⟩ := hinv.shapes _ _ hsh
  obtain ⟨hlen, hwritten⟩ := hinv.slots ho hsh
  have hlaid : sh'.Laid := hwf.toLaid.remove hhash hi hpr hl
  have hc : sh.contents[i]? = some pr.content := by simp [Shape.contents, hi]
  have hcont : sh'.contents = sh.contents.set i (0, 0) := sh.content_remove _ i pr
  obtain ⟨v, hv⟩ := hwritten i _ hc hpr
  have hwritten' : Written sh'.contents (o.prop.set i (some undefined)) :=
    hcont ▸ hwritten.set hc hpr (0, 0) undefined
  have hent : entries sh'.contents (o.prop.set i (some undefined)) =
      (entries sh.contents o.prop).filter fun e => e.1 ≠ pr.atom := by
    rw [hcont, ← filterMap_eq_filter]
    refine entries_change hc hv hpr hwf.nodup _ ?_ fun e he => if_neg he
    simp [entryOf, ShapeProperty.content]
  have hlen' : (o.prop.set i (some undefined)).length = sh'.propSize := by
    rw [List.length_set]
    exact hlen
  have hloose : Inv 0 (looseIf sh.isHashed o.shape) rt := by rwa [hhash]
  have hclen : sh'.prop.length = sh'.contents.length := by simp [Shape.contents]
  rw [← hent]
  unfold dropEntry
  dsimp only
  rw [← hcont, ← hlaid.deleted, ← hclen]
  split_ifs with hmany
  · have ho₁ : rt₁.obj? p = some ⟨o.shape, o.prop.set i (some undefined)⟩ :=
      (Runtime.obj?_setObj (by exact Runtime.lt_of_obj? ho) _ p).trans (if_pos rfl)
    have hsh₁ : rt₁.shape? o.shape = some sh' :=
      (join_getElem?_set (Runtime.lt_of_shape? hsh) _ _).trans (if_pos rfl)
    have hroom : 2 ≤ sh'.propSize := by
      have hcount :=
        List.countP_le_length (p := fun c : ℕ × ℕ => decide (c.1 = 0)) (l := sh'.contents)
      have hsize := hlaid.size
      rw [← hlaid.deleted, Shape.contents, List.length_map] at hcount
      omega
    obtain ⟨sh₂, vals, hrun, hwf₂, hcount₂, hhash₂, hproto₂, hlen₂, hwritten₂, hent₂, hcont₂⟩ :=
      Runtime.compactProperties_eq ho₁ hsh₁ hlaid hhash hroom hlen' hwritten'
    obtain ⟨hinv₂, hview₂, hviewp, hsh₂⟩ :=
      hloose.move ho hsh hone hwf₂ (hcount₂.trans hone) vals hlen₂ hwritten₂
    have heq : (rt₁.moveShape o.shape sh₂).2.setObj p ⟨rt₁.shapes.length, vals⟩ =
        (rt.moveShape o.shape sh₂).2.setObj p ⟨rt.shapes.length, vals⟩ := by
      simp only [rt₁, Runtime.setObj, Runtime.setShape, Runtime.moveShape, List.set_set,
        List.length_set]
    rw [hhash₂] at hinv₂
    refine ⟨_, hrun.trans (congrArg some heq), ⟨hinv₂, hview₂, ?_, Runtime.frame_setObj _ _ _⟩,
      _, sh₂, (Runtime.obj?_setObj (by exact Runtime.lt_of_obj? ho) _ p).trans (if_pos rfl), hsh₂,
      hcont₂⟩
    rw [hviewp, hproto₂, hent₂]
    rfl
  · obtain ⟨hinv₁, hview₁, hviewp⟩ := hloose.replace ho hsh hone
      ⟨hlaid, by omega⟩ hone _ hlen' hwritten'
    rw [show sh'.isHashed = false from hhash] at hinv₁
    exact ⟨rt₁, rfl, ⟨hinv₁, hview₁, hviewp, Runtime.frame_setObj _ _ _⟩, _, sh',
      (Runtime.obj?_setObj (by exact Runtime.lt_of_obj? ho) _ p).trans (if_pos rfl),
      (join_getElem?_set (Runtime.lt_of_shape? hsh) _ _).trans (if_pos rfl), rfl⟩

/-- `delete_property`, once the property was found. -/
theorem Inv.deleteFound (hinv : Inv 0 none rt) (ho : rt.obj? p = some o)
    (hsh : rt.shape? o.shape = some sh) {l₁ l₂ : List ℕ} {i : ℕ} {pr : ShapeProperty}
    (hsome : sh.search pr.atom = some (some (l₁.getLast?, i))) (hi : sh.prop[i]? = some pr)
    (hatom : pr.atom ≠ 0) (hconf : configurable pr.flags = true)
    (hl : members (hashOf sh.propHash.length sh.prop) sh.prop.length
      (pr.atom &&& (sh.propHash.length - 1)) = l₁ ++ i :: l₂) (undefined : V) :
    ∃ rt', rt.deleteProperty undefined p pr.atom = some (true, rt') ∧
      Updates rt rt' p
        (some ⟨sh.proto, (entries sh.contents o.prop).filter fun e => e.1 ≠ pr.atom⟩) ∧
      ∃ o₁ sh₁, rt'.obj? p = some o₁ ∧ rt'.shape? o₁.shape = some sh₁ ∧
        sh₁.contents = dropEntry sh.contents i := by
  obtain ⟨rt₁, id, hprep, hinv₁, hview₁, hframe₁, ho₁, hsh₁⟩ := hinv.prepareUpdate ho hsh
  obtain ⟨rt₂, hrun, ⟨hinv₂, hother, hself, hframe₂⟩, hcont⟩ :=
    hinv₁.removeEntry ho₁ hsh₁ rfl rfl hi hatom hl undefined
  refine ⟨rt₂, ?_, ⟨hinv₂, fun q hq => (hother q hq).trans (hview₁ q), hself,
    hframe₂.trans hframe₁⟩, hcont⟩
  unfold Runtime.deleteProperty
  simp only [ho, hsh, hsome, hi, hconf, Bool.not_true, Bool.false_eq_true, if_false, hprep,
    Option.bind_eq_bind, Option.bind_some, ho₁, hsh₁]
  split_ifs at hrun ⊢
  · rw [hrun]
    rfl
  · cases hrun
    rfl

/-- The first entry stays when another is deleted. -/
theorem dropEntry_first {cs : List (ℕ × ℕ)} {i : ℕ} {c d : ℕ × ℕ} (hfirst : cs[0]? = some c)
    (hc : c.1 ≠ 0) (hi : cs[i]? = some d) (hne : c.1 ≠ d.1) : (dropEntry cs i)[0]? = some c := by
  cases cs with
  | nil => simp at hfirst
  | cons c' cs =>
    cases hfirst
    cases i with
    | zero => exact absurd (congrArg Prod.fst (Option.some_inj.1 hi)) hne
    | succ i =>
      rcases dropEntry_cases (c :: cs) (i + 1) with h | h
      · simp [h, hc]
      · simp [h]

/-- The first entry of the shape of an object. -/
def Runtime.first? (rt : Runtime V) (p : ℕ) : Option (ℕ × ℕ) := do
  let o ← rt.obj? p
  let sh ← rt.shape? o.shape
  sh.contents[0]?

/-- The first entry is that of the first property. -/
theorem Runtime.first?_eq (ho : rt.obj? p = some o) (hsh : rt.shape? o.shape = some sh) :
    rt.first? p = sh.contents[0]? := by
  simp [Runtime.first?, ho, hsh]

/-- `delete_property`. -/
theorem Inv.delete (hinv : Inv 0 none rt) (hx : rt.view p = some x) (hatom : atom ≠ 0)
    (undefined : V) :
    ∃ rt', rt.deleteProperty undefined p atom = some ((x.delete atom).1, rt') ∧
      Updates rt rt' p (some (x.delete atom).2) ∧
      ∀ c, rt.first? p = some c → c.1 ≠ 0 → c.1 ≠ atom → rt'.first? p = some c := by
  obtain ⟨o, sh, ho, hsh, hwf, hlen, hwritten, rfl⟩ := hinv.of_view hx
  rcases hwf.search_cases hwritten hatom sh.proto with
    ⟨hnone, -, hfind⟩ | ⟨l₁, i, l₂, pr, v, hsome, hi, rfl, hl, hv, hfind⟩
  · rw [AbsObj.delete, hfind]
    exact ⟨rt, by simp [Runtime.deleteProperty, ho, hsh, hnone], hinv.updates_self hx,
      fun _ h _ _ => h⟩
  · rw [AbsObj.delete, hfind]
    dsimp only
    split_ifs with hconf
    · obtain ⟨rt', hrun, hupd, o₁, sh₁, ho₁, hsh₁, hcont⟩ :=
        hinv.deleteFound ho hsh hsome hi hatom hconf hl undefined
      refine ⟨rt', hrun, hupd, fun c hfirst hc hne => ?_⟩
      rw [Runtime.first?_eq ho hsh] at hfirst
      rw [Runtime.first?_eq ho₁ hsh₁, hcont]
      have hci : sh.contents[i]? = some pr.content := by simp [Shape.contents, hi]
      exact dropEntry_first hfirst hc hci hne
    · exact ⟨rt, by simp [Runtime.deleteProperty, ho, hsh, hsome, hi, hconf],
        hinv.updates_self hx, fun _ h _ _ => h⟩

/-- No name comes twice, so the number of an entry is known from its name. -/
theorem names_index {cs : List (ℕ × ℕ)} {i j : ℕ} {c d : ℕ × ℕ} (hnodup : (names cs).Nodup)
    (hi : cs[i]? = some c) (hj : cs[j]? = some d) (hc : c.1 ≠ 0) (heq : c.1 = d.1) : i = j := by
  induction cs generalizing i j with
  | nil => simp at hi
  | cons e cs ih =>
    have hmem : ∀ {k : ℕ} {b : ℕ × ℕ}, cs[k]? = some b → b.1 ≠ 0 → b.1 ∈ names cs :=
      fun hk hb => mem_names.2 ⟨hb, _, List.mem_of_getElem? hk⟩
    rw [names, List.map_cons, List.filter_cons] at hnodup
    cases i with
    | zero =>
      cases j with
      | zero => rfl
      | succ j =>
        have he : e = c := by simpa using hi
        subst he
        rw [if_pos (by simpa using hc)] at hnodup
        exact absurd (heq ▸ hmem (by simpa using hj) (heq ▸ hc)) (List.nodup_cons.1 hnodup).1
    | succ i =>
      cases j with
      | zero =>
        have he : e = d := by simpa using hj
        subst he
        rw [if_pos (by simpa using heq ▸ hc)] at hnodup
        exact absurd (heq ▸ hmem (by simpa using hi) hc) (List.nodup_cons.1 hnodup).1
      | succ j =>
        refine congrArg Nat.succ (ih ?_ (by simpa using hi) (by simpa using hj))
        split_ifs at hnodup
        · exact (List.nodup_cons.1 hnodup).2
        · exact hnodup

/-- `delete_property` of the entry `i`. -/
theorem Inv.deleteAt (hinv : Inv 0 none rt) (ho : rt.obj? p = some o)
    (hsh : rt.shape? o.shape = some sh) {i : ℕ} {pr : ShapeProperty} (hi : sh.prop[i]? = some pr)
    (hatom : pr.atom ≠ 0) (hconf : configurable pr.flags = true) (undefined : V) :
    ∃ rt', rt.deleteProperty undefined p pr.atom = some (true, rt') ∧
      Updates rt rt' p
        (some ⟨sh.proto, (entries sh.contents o.prop).filter fun e => e.1 ≠ pr.atom⟩) ∧
      ∃ o₁ sh₁, rt'.obj? p = some o₁ ∧ rt'.shape? o₁.shape = some sh₁ ∧
        sh₁.contents = dropEntry sh.contents i := by
  obtain ⟨hwf, -⟩ := hinv.shapes _ _ hsh
  obtain ⟨-, hwritten⟩ := hinv.slots ho hsh
  have hc : sh.contents[i]? = some pr.content := by simp [Shape.contents, hi]
  rcases hwf.search_cases hwritten hatom sh.proto with
    ⟨-, hno, -⟩ | ⟨l₁, j, l₂, pr', v, hsome, hj, hpr, hl, -⟩
  · exact absurd (mem_names.2 ⟨hatom, _, List.mem_of_getElem? hc⟩) hno
  · have hcj : sh.contents[j]? = some pr'.content := by simp [Shape.contents, hj]
    have hij : i = j := names_index hwf.nodup hc hcj hatom hpr.symm
    subst hij
    exact hinv.deleteFound ho hsh hsome hi hatom hconf hl undefined

/-! ## Flags, values and prototypes -/

/-- Writing what is there changes nothing. -/
theorem set_getElem?_self {α : Type} {l : List α} {i : ℕ} {a : α} (h : l[i]? = some a) :
    l.set i a = l := by
  obtain ⟨hlt, rfl⟩ := List.getElem?_eq_some_iff.1 h
  exact List.set_getElem_self hlt

/-- One property is changed, in the shape and in its slot. -/
theorem entries_modify {cs : List (ℕ × ℕ)} {vals : List (Option V)} {i : ℕ} {c : ℕ × ℕ} {v : V}
    (hi : cs[i]? = some c) (hv : vals[i]? = some (some v)) (hc : c.1 ≠ 0)
    (hnodup : (names cs).Nodup) (f : ℕ × V → ℕ × V) :
    entries (cs.set i (c.1, (f (c.2, v)).1)) (vals.set i (some (f (c.2, v)).2)) =
      (entries cs vals).map fun e => if e.1 = c.1 then (e.1, f e.2) else e := by
  rw [← List.filterMap_eq_map]
  refine entries_change hi hv hc hnodup _ ?_ fun e he => ?_
  · simp [entryOf, hc]
  · simp [he]

/-- A slot is written. -/
theorem Inv.writeSlot (hinv : Inv 0 none rt) (ho : rt.obj? p = some o)
    (hsh : rt.shape? o.shape = some sh) {i : ℕ} {c : ℕ × ℕ} (hc : sh.contents[i]? = some c)
    (hc0 : c.1 ≠ 0) (v : V) :
    i < o.prop.length ∧ Updates rt (rt.setObj p { o with prop := o.prop.set i (some v) }) p
      (some (AbsObj.setValue ⟨sh.proto, entries sh.contents o.prop⟩ c.1 v)) := by
  obtain ⟨hwf, -⟩ := hinv.shapes _ _ hsh
  obtain ⟨hlen, hwritten⟩ := hinv.slots ho hsh
  obtain ⟨w, hv⟩ := hwritten i c hc hc0
  have hwritten' : Written sh.contents (o.prop.set i (some v)) := by
    have := hwritten.set hc hc0 c v
    rwa [set_getElem?_self hc] at this
  obtain ⟨hinv₁, hview₁, hviewp⟩ :=
    hinv.setObj ho ⟨o.shape, o.prop.set i (some v)⟩ hsh (by simpa using hlen) hwritten'
  refine ⟨(List.getElem?_eq_some_iff.1 hv).1, by simpa using hinv₁, hview₁, ?_,
    rt.frame_setObj _ _⟩
  have hent := entries_modify hc hv hc0 hwf.nodup fun y => (y.1, v)
  rw [set_getElem?_self hc] at hent
  rw [hviewp, hent]
  rfl

/-- A value is written. -/
theorem Inv.setValue (hinv : Inv 0 none rt) (hx : rt.view p = some x) (hatom : atom ≠ 0) (v : V) :
    ∃ rt', rt.setValue p atom v = some rt' ∧ Updates rt rt' p (some (x.setValue atom v)) := by
  obtain ⟨o, sh, ho, hsh, hwf, hlen, hwritten, rfl⟩ := hinv.of_view hx
  unfold Runtime.setValue
  simp only [ho, hsh, Option.bind_eq_bind, Option.bind_some]
  rcases hwf.search_cases hwritten hatom sh.proto with
    ⟨hnone, -, hfind⟩ | ⟨l₁, i, l₂, pr, w, hsome, hi, rfl, -, -, -⟩
  · rw [hnone, AbsObj.setValue, AbsObj.modify_of_none hfind]
    exact ⟨rt, rfl, hinv.updates_self hx⟩
  · have hc : sh.contents[i]? = some pr.content := by simp [Shape.contents, hi]
    obtain ⟨hlt, hupd⟩ := hinv.writeSlot ho hsh hc hatom v
    exact ⟨_, by simp [hsome, hlt], hupd⟩

/-- `js_update_property_flags`. -/
theorem Inv.setFlags (hinv : Inv 0 none rt) (hx : rt.view p = some x) (hatom : atom ≠ 0)
    (flags : ℕ) :
    ∃ rt', rt.updatePropertyFlags p atom flags = some rt' ∧
      Updates rt rt' p (some (x.setFlags atom flags)) := by
  obtain ⟨o, sh, ho, hsh, hwf, hlen, hwritten, rfl⟩ := hinv.of_view hx
  unfold Runtime.updatePropertyFlags
  simp only [ho, hsh, Option.bind_eq_bind, Option.bind_some]
  rcases hwf.search_cases hwritten hatom sh.proto with
    ⟨hnone, -, hfind⟩ | ⟨l₁, i, l₂, pr, v, hsome, hi, hpr, -, hv, -⟩
  · rw [hnone, AbsObj.setFlags, AbsObj.modify_of_none hfind]
    exact ⟨rt, rfl, hinv.updates_self hx⟩
  · have hc : sh.contents[i]? = some pr.content := by simp [Shape.contents, hi]
    have hc0 : pr.content.1 ≠ 0 := by simpa [ShapeProperty.content, hpr] using hatom
    have hent := entries_modify hc hv hc0 hwf.nodup fun y => (flags, y.2)
    rw [set_getElem?_self hv] at hent
    simp only [hsome, hi, Option.bind_some]
    split_ifs with hflags
    · obtain ⟨rt₁, id, hprep, hinv₁, hview₁, hframe₁, ho₁, hsh₁⟩ := hinv.prepareUpdate ho hsh
      have hwf₁ := (hinv₁.shapes _ _ hsh₁).1
      obtain ⟨hwf₂, hcont₂⟩ := hwf₁.setFlags i flags
      have hmodify : sh.contents.modify i (fun c => (c.1, flags)) =
          sh.contents.set i (pr.content.1, flags) := by
        rw [List.modify_eq_set_getElem?, hc]
        rfl
      have hold : ({ sh with isHashed := false, refCount := 1 } : Shape).contents = sh.contents :=
        rfl
      rw [hold, hmodify] at hcont₂
      have hwritten₂ := hwritten.set hc hc0 (pr.content.1, flags) v
      rw [set_getElem?_self hv] at hwritten₂
      obtain ⟨hinv₂, hview₂, hviewp, -⟩ := Inv.replaceShape (by exact hinv₁) ho₁ hsh₁ rfl hwf₂ rfl
        rfl (by rw [hcont₂]; exact hwritten₂)
      refine ⟨_, by simp [hprep, ho₁, hsh₁], hinv₂, fun q hq => (hview₂ q hq).trans (hview₁ q), ?_,
        hframe₁⟩
      rw [hviewp, hcont₂, hent, ← hpr]
      rfl
    · have hsame : (pr.content.1, flags) = pr.content := by rw [not_not.1 hflags]; rfl
      rw [hsame, set_getElem?_self hc] at hent
      refine ⟨rt, rfl, hinv.updates_self (hx.trans ?_)⟩
      rw [AbsObj.setFlags, AbsObj.modify, ← hpr]
      exact congrArg (fun l => some (AbsObj.mk sh.proto l)) hent

/-- `JS_SetPrototypeInternal`. -/
theorem Inv.setPrototype (hinv : Inv 0 none rt) (hx : rt.view p = some x) (proto : Option Ref) :
    ∃ rt', rt.setPrototype p proto = some rt' ∧ Updates rt rt' p (some { x with proto }) := by
  obtain ⟨o, sh, ho, hsh, hwf, hlen, hwritten, rfl⟩ := hinv.of_view hx
  obtain ⟨rt₁, id, hprep, hinv₁, hview₁, hframe₁, ho₁, hsh₁⟩ := hinv.prepareUpdate ho hsh
  obtain ⟨hinv₂, hview₂, hviewp, -⟩ := Inv.replaceShape (by exact hinv₁) ho₁ hsh₁ rfl
    (hwf.unhashed.withHeader (fun h => h) sh.hash 1 proto) rfl rfl hwritten
  exact ⟨_, by simp [Runtime.setPrototype, hprep, ho₁, hsh₁], hinv₂,
    fun q hq => (hview₂ q hq).trans (hview₁ q), hviewp, hframe₁⟩

end Shapes

end QuickjsDart
