import QuickjsDart.ShapeLives
import QuickjsDart.Protocol.Machine

/-!
# Runs of objects with shapes

A run of operations on shapes is a run on lists of properties, with the same answers
(`shapes_refine`), as long as no object gets more than `2 ^ 25 - 4` properties, which the links of
26 bits have room for. So nothing that a script can see depends on how shapes are shared, copied,
resized and compacted; and no run fails an assertion, reads freed memory or does not end. The
references to shapes are counted exactly (`shapes_counted`).
-/

namespace QuickjsDart

namespace Shapes

variable {V : Type} {rt rt' : Runtime V} {p id : ℕ}

/-! ## Operations -/

/-- What is done to objects: by the functions for properties, by the makers of objects, and by
contexts, which keep the shape that arrays start with. -/
inductive Op (V : Type)
  | newContext (initialHash : UInt32) (proto : Option Ref)
  | freeContext (c : ℕ)
  | newObject (initialHash : UInt32) (proto : Option Ref)
  | newArray (c : ℕ) (length : V)
  | find (p atom : ℕ)
  | add (p atom flags : ℕ) (v : V)
  | delete (p atom : ℕ)
  | setFlags (p atom flags : ℕ)
  | setValue (p atom : ℕ) (v : V)
  | setPrototype (p : ℕ) (proto : Option Ref)
  | freeObject (p : ℕ)

/-- What an operation answers. -/
inductive Answer (V : Type)
  | done
  | made (p : ℕ)
  | found (r : Option (ℕ × V))
  | deleted (gone : Bool)

/-- An operation of the code. `undefined` is what a deleted slot gets. -/
def Runtime.step (undefined : V) (rt : Runtime V) : Op V → Option (Answer V × Runtime V)
  | .newContext initialHash proto => (rt.newContext initialHash proto).map (.done, ·)
  | .freeContext c => (rt.freeContext c).map (.done, ·)
  | .newObject initialHash proto =>
    (rt.newObject initialHash proto).map fun r => (.made r.1, r.2)
  | .newArray c length => (rt.newArray c length).map fun r => (.made r.1, r.2)
  | .find p atom => (rt.findOwnProperty p atom).map fun r => (.found r, rt)
  | .add p atom flags v => (rt.addProperty p atom flags v).map (.done, ·)
  | .delete p atom => (rt.deleteProperty undefined p atom).map fun r => (.deleted r.1, r.2)
  | .setFlags p atom flags => (rt.updatePropertyFlags p atom flags).map (.done, ·)
  | .setValue p atom v => (rt.setValue p atom v).map (.done, ·)
  | .setPrototype p proto => (rt.setPrototype p proto).map (.done, ·)
  | .freeObject p => (rt.freeObject p).map (.done, ·)

/-! ## Lists of properties -/

/-- Objects as lists of properties, and the array prototypes of contexts. -/
structure Store (V : Type) where
  objs : List (Option (AbsObj V))
  contexts : List (Option (Option Ref))

/-- The object at a reference of the store. -/
def Store.obj? (s : Store V) (p : ℕ) : Option (AbsObj V) := s.objs[p]?.join

/-- An object is written, or taken out. -/
def Store.setObj (s : Store V) (p : ℕ) (x : Option (AbsObj V)) : Store V :=
  { s with objs := s.objs.set p x }

/-- What callers may do: objects and contexts that are there, names that are atoms, and a new
property only where there is none, with flags of 6 bits, on an object of less than `2 ^ 25 - 4`
properties: the table of a larger one would have indices of more than the 26 bits of a link. -/
def Store.step (s : Store V) : Op V → Option (Answer V × Store V)
  | .newContext _ proto => some (.done, { s with contexts := s.contexts ++ [some proto] })
  | .freeContext c =>
    (s.contexts[c]?.join).map fun _ => (.done, { s with contexts := s.contexts.set c none })
  | .newObject _ proto =>
    some (.made s.objs.length, { s with objs := s.objs ++ [some ⟨proto, []⟩] })
  | .newArray c length => (s.contexts[c]?.join).map fun proto =>
    (.made s.objs.length,
      { s with objs := s.objs ++ [some ⟨proto, [(atomLength, lengthFlags, length)]⟩] })
  | .find p atom =>
    if atom = 0 then none else (s.obj? p).map fun x => (.found (x.find? atom), s)
  | .add p atom flags v => (s.obj? p).bind fun x =>
    if atom ≠ 0 ∧ flags < 2 ^ 6 ∧ (x.find? atom).isNone ∧ x.props.length < 2 ^ 25 - 4 then
      some (.done, s.setObj p (some (x.add atom flags v)))
    else none
  | .delete p atom =>
    if atom = 0 then none
    else (s.obj? p).map fun x => (.deleted (x.delete atom).1, s.setObj p (some (x.delete atom).2))
  | .setFlags p atom flags =>
    if atom = 0 ∨ 2 ^ 6 ≤ flags then none
    else (s.obj? p).map fun x => (.done, s.setObj p (some (x.setFlags atom flags)))
  | .setValue p atom v =>
    if atom = 0 then none
    else (s.obj? p).map fun x => (.done, s.setObj p (some (x.setValue atom v)))
  | .setPrototype p proto =>
    (s.obj? p).map fun x => (.done, s.setObj p (some { x with proto }))
  | .freeObject p => (s.obj? p).map fun _ => (.done, s.setObj p none)

/-- The empty store. -/
def Store.start : Store V := ⟨[], []⟩

/-- The lists behind shapes. -/
def Runtime.store (rt : Runtime V) : Store V :=
  ⟨(List.range rt.objs.length).map rt.view, rt.contexts.map fun c => c.map Prod.snd⟩

/-- The store of a runtime has its objects as they are seen. -/
theorem Runtime.store_obj? (rt : Runtime V) (p : ℕ) : rt.store.obj? p = rt.view p := by
  simp only [Store.obj?, Runtime.store, List.getElem?_map]
  by_cases hp : p < rt.objs.length
  · simp [List.getElem?_range hp]
  · have hnone : rt.obj? p = none := by
      rw [Runtime.obj?, List.getElem?_eq_none (not_lt.1 hp)]
      rfl
    rw [List.getElem?_eq_none (by simpa using hp)]
    simp [Runtime.view, hnone]

/-- The store of a runtime has the prototypes of its contexts. -/
theorem Runtime.store_context? (rt : Runtime V) (c : ℕ) :
    rt.store.contexts[c]?.join = (rt.contexts[c]?.join).map Prod.snd := by
  simp only [Runtime.store, List.getElem?_map]
  cases rt.contexts[c]? <;> rfl

/-- An operation on one object, in the store. -/
theorem Updates.store {x : Option (AbsObj V)} (h : Updates rt rt' p x) :
    rt'.store = rt.store.setObj p x := by
  have hctx : rt'.contexts = rt.contexts := congrArg Prod.fst h.frame
  have hsize : rt'.objs.length = rt.objs.length := congrArg Prod.snd h.frame
  have hobjs : (List.range rt'.objs.length).map rt'.view =
      ((List.range rt.objs.length).map rt.view).set p x := by
    rw [hsize]
    refine List.ext_getElem? fun q => ?_
    simp only [List.getElem?_set, List.getElem?_map, List.length_map, List.length_range]
    by_cases hq : q < rt.objs.length
    · by_cases hpq : p = q
      · subst hpq
        simp [hq, h.self]
      · simp [hq, hpq, h.other q (Ne.symm hpq)]
    · have hnone : (List.range rt.objs.length)[q]? = none :=
        List.getElem?_eq_none (by simpa using hq)
      by_cases hpq : p = q
      · subst hpq
        simp [hq]
      · simp [hnone, hpq]
  rw [Runtime.store, hobjs, hctx]
  rfl

/-- A new object, in the store. -/
theorem Creates.store {x : AbsObj V} (h : Creates rt rt' x) :
    rt'.store = { rt.store with objs := rt.store.objs ++ [some x] } := by
  have hobjs : (List.range rt'.objs.length).map rt'.view =
      (List.range rt.objs.length).map rt.view ++ [some x] := by
    rw [h.size, List.range_succ, List.map_append, List.map_singleton, h.new]
    congr 1
    exact List.map_congr_left fun q hq => h.other q (List.mem_range.1 hq).ne
  rw [Runtime.store, hobjs, h.contexts]
  rfl

/-- A change of the contexts, in the store. -/
theorem Runtime.store_contexts (hview : ∀ q, rt'.view q = rt.view q) (hobjs : rt'.objs = rt.objs) :
    rt'.store = { rt.store with contexts := rt'.contexts.map fun c => c.map Prod.snd } := by
  have hmap : (List.range rt'.objs.length).map rt'.view =
      (List.range rt.objs.length).map rt.view := by
    rw [hobjs]
    exact List.map_congr_left fun q _ => hview q
  rw [Runtime.store, hmap]
  rfl

/-! ## Steps and runs -/

/-- In an empty runtime all is in order. -/
theorem inv_start : Inv 0 none (Runtime.start : Runtime V) := by
  have hobj : ∀ p, (Runtime.start : Runtime V).obj? p = none := fun p => rfl
  have hshape : ∀ id, (Runtime.start : Runtime V).shape? id = none := fun id => rfl
  refine ⟨fun p o ho => ?_, fun id sh hsh => ?_, fun id proto hid => ?_, fun id sh hsh => ?_,
    fun b bucket hb => ?_, rfl⟩
  · cases (hobj p).symm.trans ho
  · cases (hshape id).symm.trans hsh
  · cases hid
  · cases (hshape id).symm.trans hsh
  · rw [List.eq_of_mem_replicate (List.mem_of_getElem? hb)]
    exact ⟨List.nodup_nil, fun id hid => absurd hid List.not_mem_nil⟩

/-- The relation that every step keeps. -/
def Represents (s : Store V) (rt : Runtime V) : Prop := Inv 0 none rt ∧ rt.store = s

/-- An update of the runtime is one write to the store. -/
theorem Updates.represents {x : Option (AbsObj V)} (h : Updates rt rt' p x) :
    Represents (rt.store.setObj p x) rt' :=
  ⟨h.inv, h.store⟩

/-- Every operation on lists is what the code does with shapes. -/
theorem step_refines (undefined : V) :
    Protocol.Refines Store.step (Runtime.step undefined) Represents := by
  rintro s rt op a s' ⟨hinv, rfl⟩ hstep
  cases op with
  | newContext initialHash proto =>
    cases hstep
    obtain ⟨rt', id, hrun, hinv', hview, hobjs, hctx⟩ := hinv.newContext initialHash proto
    refine ⟨rt', by simp [Runtime.step, hrun], hinv', (rt.store_contexts hview hobjs).trans ?_⟩
    simp [hctx, Runtime.store]
  | freeContext c =>
    simp only [Store.step, Runtime.store_context?, Option.map_eq_some_iff] at hstep
    obtain ⟨-, ⟨⟨id, proto⟩, hc, -⟩, heq⟩ := hstep
    cases heq
    obtain ⟨rt', hrun, hinv', hview, hobjs, hctx⟩ := hinv.freeContext hc
    refine ⟨rt', by simp [Runtime.step, hrun], hinv', (rt.store_contexts hview hobjs).trans ?_⟩
    simp [hctx, Runtime.store]
  | newObject initialHash proto =>
    cases hstep
    obtain ⟨rt', hrun, hnew⟩ := hinv.newObject initialHash proto
    exact ⟨rt', by simp [Runtime.step, hrun, Runtime.store], hnew.inv, hnew.store⟩
  | newArray c length =>
    simp only [Store.step, Runtime.store_context?, Option.map_eq_some_iff] at hstep
    obtain ⟨_, ⟨⟨id, proto⟩, hc, rfl⟩, heq⟩ := hstep
    cases heq
    obtain ⟨rt', hrun, hnew⟩ := hinv.newArray hc length
    exact ⟨rt', by simp [Runtime.step, hrun, Runtime.store], hnew.inv, hnew.store⟩
  | find p atom =>
    simp only [Store.step, Runtime.store_obj?] at hstep
    split_ifs at hstep with hatom
    obtain ⟨x, hx, heq⟩ := Option.map_eq_some_iff.1 hstep
    cases heq
    exact ⟨rt, by simp [Runtime.step, hinv.findOwnProperty hx hatom], hinv, rfl⟩
  | add p atom flags v =>
    simp only [Store.step, Runtime.store_obj?, Option.bind_eq_some_iff] at hstep
    obtain ⟨x, hx, hstep⟩ := hstep
    split_ifs at hstep with hok
    cases hstep
    obtain ⟨rt', hrun, hupd⟩ :=
      hinv.add hx hok.1 flags (Option.isNone_iff_eq_none.1 hok.2.2.1) hok.2.2.2 v
    exact ⟨rt', by simp [Runtime.step, hrun], hupd.represents⟩
  | delete p atom =>
    simp only [Store.step, Runtime.store_obj?] at hstep
    split_ifs at hstep with hatom
    obtain ⟨x, hx, heq⟩ := Option.map_eq_some_iff.1 hstep
    cases heq
    obtain ⟨rt', hrun, hupd, -⟩ := hinv.delete hx hatom undefined
    exact ⟨rt', by simp [Runtime.step, hrun], hupd.represents⟩
  | setFlags p atom flags =>
    simp only [Store.step, Runtime.store_obj?] at hstep
    split_ifs at hstep with hatom
    obtain ⟨x, hx, heq⟩ := Option.map_eq_some_iff.1 hstep
    cases heq
    obtain ⟨rt', hrun, hupd⟩ := hinv.setFlags hx (fun h => hatom (.inl h)) flags
    exact ⟨rt', by simp [Runtime.step, hrun], hupd.represents⟩
  | setValue p atom v =>
    simp only [Store.step, Runtime.store_obj?] at hstep
    split_ifs at hstep with hatom
    obtain ⟨x, hx, heq⟩ := Option.map_eq_some_iff.1 hstep
    cases heq
    obtain ⟨rt', hrun, hupd⟩ := hinv.setValue hx hatom v
    exact ⟨rt', by simp [Runtime.step, hrun], hupd.represents⟩
  | setPrototype p proto =>
    simp only [Store.step, Runtime.store_obj?, Option.map_eq_some_iff] at hstep
    obtain ⟨x, hx, heq⟩ := hstep
    cases heq
    obtain ⟨rt', hrun, hupd⟩ := hinv.setPrototype hx proto
    exact ⟨rt', by simp [Runtime.step, hrun], hupd.represents⟩
  | freeObject p =>
    simp only [Store.step, Runtime.store_obj?, Option.map_eq_some_iff] at hstep
    obtain ⟨x, hx, heq⟩ := hstep
    cases heq
    obtain ⟨o, sh, ho, -⟩ := hinv.of_view hx
    obtain ⟨rt', hrun, hupd⟩ := hinv.freeObject ho
    exact ⟨rt', by simp [Runtime.step, hrun], hupd.represents⟩

/-- A run on lists of properties is a run of the code, which does not fail and gives the same
answers; after it the objects have the properties of the lists. The runs are those of `Store.step`,
in which an object has at most `2 ^ 25 - 4` properties. -/
theorem shapes_refine (undefined : V) {ops : List (Op V)} {answers : List (Answer V)} {s : Store V}
    (hrun : Protocol.run Store.step Store.start ops = some (answers, s)) :
    ∃ rt, Protocol.run (Runtime.step undefined) Runtime.start ops = some (answers, rt) ∧
      rt.store = s := by
  obtain ⟨rt, hrunT, -, hstore⟩ :=
    Protocol.run_refines (step_refines undefined) ⟨inv_start, rfl⟩ hrun
  exact ⟨rt, hrunT, hstore⟩

/-- Two objects share a shape; one of them loses its property and gets another, and the other keeps
its own. -/
theorem shapes_refine_shared :
    ∃ rt : Runtime ℕ, Protocol.run (Runtime.step 0) Runtime.start
        [.newObject 9 none, .newObject 9 none, .add 0 5 7 10, .add 1 5 7 20, .delete 0 5,
          .add 0 6 7 30, .find 1 5, .find 0 5] =
        some ([.made 0, .made 1, .done, .done, .deleted true, .done, .found (some (7, 20)),
          .found none], rt) ∧
      rt.store = ⟨[some ⟨none, [(6, 7, 30)]⟩, some ⟨none, [(5, 7, 20)]⟩], []⟩ :=
  shapes_refine 0 rfl

/-- Nobody uses a shape when there are no objects and no contexts. -/
theorem users_of_empty (hinv : Inv 0 none rt) (hobjs : ∀ x ∈ rt.store.objs, x = none)
    (hctx : ∀ c ∈ rt.store.contexts, c = none) : rt.users id = 0 := by
  refine Nat.add_eq_zero_iff.2 ⟨List.countP_eq_zero.2 fun x hx => ?_,
    List.countP_eq_zero.2 fun c hc => ?_⟩
  · obtain ⟨p, hp⟩ := List.getElem?_of_mem hx
    cases x with
    | none => simp
    | some o =>
      have ho : rt.obj? p = some o := by rw [Runtime.obj?, hp]; rfl
      obtain ⟨sh, hsh, -⟩ := hinv.objs p o ho
      have hmem : rt.view p ∈ rt.store.objs :=
        List.mem_map_of_mem (List.mem_range.2 (Runtime.lt_of_obj? ho))
      cases (hobjs _ hmem).symm.trans (Runtime.view_eq ho hsh)
  · cases c with
    | none => simp
    | some c => cases hctx _ (List.mem_map_of_mem hc)

/-- After a run the count of every shape is the number of objects and contexts that use it, and a
shape that nobody uses is freed and in no bucket of the runtime's table. When all objects and
contexts are gone, so are all shapes. -/
theorem shapes_counted (undefined : V) {ops : List (Op V)} {answers : List (Answer V)} {s : Store V}
    (hrun : Protocol.run Store.step Store.start ops = some (answers, s)) :
    ∃ rt, Protocol.run (Runtime.step undefined) Runtime.start ops = some (answers, rt) ∧
      (∀ id, (rt.shape? id).elim 0 Shape.refCount = rt.users id) ∧
      (∀ id, rt.users id = 0 → rt.shape? id = none ∧ ∀ bucket ∈ rt.shapeHash, id ∉ bucket) ∧
      ((∀ x ∈ s.objs, x = none) → (∀ c ∈ s.contexts, c = none) →
        (∀ id, rt.shape? id = none) ∧ ∀ bucket ∈ rt.shapeHash, bucket = []) := by
  obtain ⟨rt, hrunT, hinv, rfl⟩ :=
    Protocol.run_refines (step_refines undefined) ⟨inv_start, rfl⟩ hrun
  have hcount : ∀ id, (rt.shape? id).elim 0 Shape.refCount = rt.users id := by
    intro id
    cases hsh : rt.shape? id with
    | none => exact (hinv.users_eq_zero hsh).symm
    | some sh =>
      obtain ⟨-, hc, -⟩ := hinv.shapes id sh hsh
      rw [Pi.zero_apply, add_zero] at hc
      exact_mod_cast hc
  have hfreed : ∀ id, rt.users id = 0 → rt.shape? id = none := by
    intro id hid
    cases hsh : rt.shape? id with
    | none => rfl
    | some sh =>
      have hpos := (hinv.shapes id sh hsh).2.2.1
      have hc := hcount id
      rw [hsh, hid] at hc
      exact absurd hc hpos.ne'
  have hunlinked : ∀ id, rt.users id = 0 → ∀ bucket ∈ rt.shapeHash, id ∉ bucket := by
    intro id hid bucket hb hmem
    obtain ⟨b, hb⟩ := List.getElem?_of_mem hb
    obtain ⟨-, sh, hsh, -⟩ := (hinv.buckets b bucket hb).2 id hmem
    cases (hfreed id hid).symm.trans hsh
  refine ⟨rt, hrunT, hcount, fun id hid => ⟨hfreed id hid, hunlinked id hid⟩, fun hobjs hctx => ?_⟩
  have hnone : ∀ id, rt.users id = 0 := fun id => users_of_empty hinv hobjs hctx
  exact ⟨fun id => hfreed id (hnone id), fun bucket hb =>
    List.eq_nil_iff_forall_not_mem.2 fun id => hunlinked id (hnone id) bucket hb⟩

/-- Two contexts and an array come and go, and all shapes are freed. -/
theorem shapes_counted_freed :
    ∃ rt : Runtime ℕ, Protocol.run (Runtime.step 0) Runtime.start
        [.newContext 3 none, .newArray 0 0, .newContext 3 none, .freeContext 0, .add 0 5 7 1,
          .freeObject 0, .freeContext 1] =
        some ([.done, .made 0, .done, .done, .done, .done, .done], rt) ∧
      ∀ id, rt.shape? id = none := by
  have hlists : Protocol.run Store.step (Store.start : Store ℕ)
      [.newContext 3 none, .newArray 0 0, .newContext 3 none, .freeContext 0, .add 0 5 7 1,
        .freeObject 0, .freeContext 1] =
      some ([.done, .made 0, .done, .done, .done, .done, .done], ⟨[none], [none, none]⟩) := rfl
  obtain ⟨rt, hrun, -, -, hgone⟩ := shapes_counted 0 hlists
  exact ⟨rt, hrun, (hgone (by simp) (by simp)).1⟩

end Shapes

end QuickjsDart
