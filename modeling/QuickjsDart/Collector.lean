import QuickjsDart.Handles
import QuickjsDart.Memory.Reach

/-!
# The cycle collector

`JS_RunGC` takes the references of the objects to each other off the counts (`gcDecref`), puts those
back that are reached from what is left (`gcScan`), and frees the objects of which nothing is left
(`gcFreeCycles`). An assertion that fails and a count changed in freed memory are `none`.

The steps are those of the lists of the runtime, in the order of `gc_obj_list`, which is any order
here. `Decref`, `Scan` and `Sweep` are the invariants of the three passes: each says what was taken
off the counts or put back so far, and which list an object is in.

Of the six kinds of cells that QuickJS collects only JavaScript objects are cells of the heap, and
what is proved here is about heaps of objects. A shape is a part of its object, as if no two objects
shared one; the variables that closures capture, bytecode, the data of async functions and contexts
are left out. Of the classes with a `gc_mark` the heap has promises, their resolving functions, the
functions of `installDartHook` and boxed values. Objects of the other classes, among them closures,
bound functions, maps and sets, proxies, iterators and generators, hold nothing but their prototype
and properties. No object is referred to weakly: with a `WeakMap` or a `WeakSet` an object that dies
takes records of a live map with it (`reset_weak_ref`), and the collector is not exact.
-/

namespace QuickjsDart

/-- The state of the collector: the heap, the lists of the runtime, the objects whose `mark` is 1,
and the cells whose memory was given back. -/
structure Collector where
  heap : Heap
  gcObjList : List Ref
  tmpObjList : List Ref
  gcZeroRefCountList : List Ref
  marked : List Ref
  freed : List Ref

/-- What `mark_children` visits at an object: its prototype, which is what the mark of its shape
visits, its values, getters and setters, and what the `gc_mark` of its class does. `JS_MarkValue`
passes over strings, symbols and BigInts. The five kinds other than objects are not in a heap. -/
def Heap.markChildren (h : Heap) (r : Ref) : List Ref :=
  (Memory.children Body.refs h r).filter fun x => (h.obj? x).isSome

/-- `list_del` of an object of the collector. -/
def Collector.unlink (g : Collector) (r : Ref) : Collector :=
  { g with gcObjList := g.gcObjList.erase r, tmpObjList := g.tmpObjList.erase r }

/-- `list_del`, and `list_add_tail` to `tmp_obj_list`. -/
def Collector.toTmp (g : Collector) (r : Ref) : Collector :=
  { g.unlink r with tmpObjList := (g.unlink r).tmpObjList ++ [r] }

/-- `gc_decref_child`. -/
def gcDecrefChild (g : Collector) (x : Ref) : Option Collector :=
  if 0 < Memory.count g.heap x then
    let g' := { g with heap := Memory.bump g.heap x (-1) }
    some (if Memory.count g'.heap x = 0 ∧ x ∈ g.marked then g'.toTmp x else g')
  else none

/-- The turn of an object in `gc_decref`. -/
def gcDecrefTurn (g : Collector) (r : Ref) : Option Collector :=
  if r ∈ g.marked then none
  else do
    let g ← (g.heap.markChildren r).foldlM gcDecrefChild g
    let g := { g with marked := r :: g.marked }
    some (if Memory.count g.heap r = 0 then g.toTmp r else g)

/-- `gc_decref`. Only objects that had their turn leave the list, so that the turns are those of the
list as it was. -/
def gcDecref (g : Collector) : Option Collector :=
  g.gcObjList.foldlM gcDecrefTurn { g with tmpObjList := [] }

/-- `gc_scan_incref_child`. -/
def gcScanIncrefChild (g : Collector) (x : Ref) : Collector :=
  let g' := { g with heap := Memory.bump g.heap x 1 }
  if Memory.count g'.heap x = 1 then
    { g'.unlink x with
      gcObjList := (g'.unlink x).gcObjList ++ [x], marked := g.marked.filter (· ≠ x) }
  else g'

/-- `gc_scan_incref_child2`. -/
def gcScanIncrefChild2 (g : Collector) (x : Ref) : Collector :=
  { g with heap := Memory.bump g.heap x 1 }

/-- The first loop of `gc_scan`, from the object at an index on: the list grows while it runs. -/
def gcScanFrom : ℕ → ℕ → Collector → Option Collector
  | 0, _, _ => none
  | fuel + 1, i, g =>
    match g.gcObjList[i]? with
    | none => some g
    | some r =>
      if 0 < Memory.count g.heap r then
        gcScanFrom fuel (i + 1)
          ((g.heap.markChildren r).foldl gcScanIncrefChild
            { g with marked := g.marked.filter (· ≠ r) })
      else none

/-- `gc_scan`. -/
def gcScan (g : Collector) : Option Collector := do
  let g ← gcScanFrom (g.gcObjList.length + g.tmpObjList.length + 1) 0 g
  some (g.tmpObjList.foldl
    (fun g r => (g.heap.markChildren r).foldl gcScanIncrefChild2 g) g)

/-- `JS_FreeValueRT` in the phase `JS_GC_PHASE_REMOVE_CYCLES`: what is no object is freed with its
last reference, and an object is left to its turn. -/
def gcFreeChild (g : Collector) (x : Ref) : Option Collector :=
  if x ∈ g.freed ∨ Memory.count g.heap x ≤ 0 then none
  else
    let g' := { g with heap := Memory.bump g.heap x (-1) }
    some (if Memory.count g'.heap x = 0 ∧ (g.heap.obj? x).isNone then
      { g' with freed := x :: g.freed } else g')

/-- `free_object` in that phase: the memory of an object that is still referred to is kept. Nothing
refers to an object weakly, so that `first_weak_ref` is null and nothing is reset. -/
def gcFreeObject (g : Collector) (r : Ref) : Option Collector := do
  let g ← (Memory.children Body.refs g.heap r).foldlM gcFreeChild g
  let g := g.unlink r
  some (if Memory.count g.heap r ≠ 0 then
    { g with gcZeroRefCountList := g.gcZeroRefCountList ++ [r] }
    else { g with freed := r :: g.freed })

/-- The turn of the head of `tmp_obj_list` in `gc_free_cycles`: what is no object waits for the
objects that refer to it. -/
def gcFreeTurn (g : Collector) (r : Ref) : Option Collector :=
  if (g.heap.obj? r).isSome then gcFreeObject g r
  else some { g.unlink r with gcZeroRefCountList := g.gcZeroRefCountList ++ [r] }

/-- `gc_free_cycles`. Each turn takes the head of `tmp_obj_list`, and none is added. The assertion
is that only objects are left to give back. -/
def gcFreeCycles (g : Collector) : Option Collector := do
  let g ← g.tmpObjList.foldlM gcFreeTurn g
  if ∀ r ∈ g.gcZeroRefCountList, (g.heap.obj? r).isSome then
    some { g with freed := g.gcZeroRefCountList ++ g.freed, gcZeroRefCountList := [] }
  else none

/-- `JS_RunGC`, with the list of the objects. -/
def jsRunGC (h : Heap) (gcObjList : List Ref) : Option Collector := do
  let g ← gcDecref ⟨h, gcObjList, [], [], [], []⟩
  let g ← gcScan g
  gcFreeCycles g

/-- The list of the objects that were made and not freed, in some order. -/
structure GcObjList (h : Heap) (l : List Ref) : Prop where
  nodup : l.Nodup
  mem : ∀ r, r ∈ l ↔ 0 < Memory.count h r ∧ (h.obj? r).isSome

/-! ## Folds -/

/-- A loop that can fail: each turn keeps what holds of the turns before. -/
theorem foldlM_invariant {σ α : Type} {f : σ → α → Option σ} {l : List α} {s : σ}
    (inv : List α → σ → Prop) (hstart : inv [] s)
    (hturn : ∀ done x rest s, l = done ++ x :: rest → inv done s →
      ∃ s', f s x = some s' ∧ inv (done ++ [x]) s') :
    ∃ s', l.foldlM f s = some s' ∧ inv l s' := by
  induction l generalizing s inv with
  | nil => exact ⟨s, rfl, hstart⟩
  | cons x l ih =>
    obtain ⟨s₁, hs₁, hinv⟩ := hturn [] x l s rfl hstart
    obtain ⟨s', hs', hinv'⟩ := ih (s := s₁) (fun done => inv (x :: done)) hinv
      fun done y rest s hl h => hturn (x :: done) y rest s (by rw [hl]; rfl) h
    exact ⟨s', by rw [List.foldlM_cons, hs₁]; exact hs', hinv'⟩

/-- The same for a loop that does not fail. -/
theorem foldl_invariant {σ α : Type} {f : σ → α → σ} {l : List α} {s : σ}
    (inv : List α → σ → Prop) (hstart : inv [] s)
    (hturn : ∀ done x rest s, l = done ++ x :: rest → inv done s → inv (done ++ [x]) (f s x)) :
    inv l (l.foldl f s) := by
  induction l generalizing s inv with
  | nil => exact hstart
  | cons x l ih =>
    exact ih (s := f s x) (fun done => inv (x :: done)) (hturn [] x l s rfl hstart)
      fun done y rest s hl h => hturn (x :: done) y rest s (by rw [hl]; rfl) h

/-! ## The references between objects -/

section

variable {h h' : Heap} {l : List Ref} {own : Ref → ℕ} {g : Collector}

/-- The objects of a heap are told by its bodies. -/
theorem obj?_congr (hb : ∀ x, Memory.body? h' x = Memory.body? h x) (r : Ref) :
    h'.obj? r = h.obj? r := by
  unfold Heap.obj?
  rw [hb]

/-- So are the references of a cell. -/
theorem children_congr (hb : ∀ x, Memory.body? h' x = Memory.body? h x) (r : Ref) :
    Memory.children Body.refs h' r = Memory.children Body.refs h r := by
  rw [Memory.children, hb, Memory.children]

/-- So is what `mark_children` visits. -/
theorem markChildren_congr (hb : ∀ x, Memory.body? h' x = Memory.body? h x) (r : Ref) :
    h'.markChildren r = h.markChildren r := by
  unfold Heap.markChildren
  rw [children_congr hb]
  exact List.filter_congr fun x _ => by rw [obj?_congr hb]

/-- `mark_children` visits what is referred to and is an object. -/
theorem mem_markChildren {r x : Ref} : x ∈ h.markChildren r ↔
    x ∈ Memory.children Body.refs h r ∧ (h.obj? x).isSome := List.mem_filter

/-- What is no object refers to nothing. -/
theorem isSome_of_mem_children {r x : Ref} (hx : x ∈ Memory.children Body.refs h r) :
    (h.obj? r).isSome := by
  rw [Memory.children] at hx
  rw [Heap.obj?]
  cases hb : Memory.body? h r with
  | none => rw [hb] at hx; cases hx
  | some b =>
    rw [hb] at hx
    cases b with
    | leaf => cases hx
    | obj o => rfl

/-- The references from live cells are those of the cells in the list. -/
theorem GcObjList.held_eq (hl : GcObjList h l) (x : Ref) :
    Memory.held Body.refs h x = (l.flatMap (Memory.children Body.refs h)).count x := by
  refine Memory.held_eq_count hl.nodup (fun r hr => ((hl.mem r).1 hr).1) (fun r hr hne => ?_) x
  obtain ⟨y, hy⟩ := List.exists_mem_of_ne_nil _ hne
  exact (hl.mem r).2 ⟨hr, isSome_of_mem_children hy⟩

/-- An object is visited as often as it is referred to. -/
theorem count_markChildren {x : Ref} (hx : (h.obj? x).isSome) (rs : List Ref) :
    (rs.flatMap h.markChildren).count x
      = (rs.flatMap (Memory.children Body.refs h)).count x := by
  induction rs with
  | nil => rfl
  | cons r rs ih =>
    rw [List.flatMap_cons, List.flatMap_cons, List.count_append, List.count_append, ih,
      Heap.markChildren, List.count_filter (p := fun y => (h.obj? y).isSome) hx]

/-- The references to an object from the others are on its account. -/
theorem GcObjList.count_le (hl : GcObjList h l) (hc : Memory.Counted Body.refs h own) {x : Ref}
    (hx : x ∈ l) :
    (own x : ℤ) + (l.flatMap h.markChildren).count x = Memory.count h x := by
  rw [hc x, count_markChildren ((hl.mem x).1 hx).2, ← hl.held_eq]
  push_cast
  rfl

/-- A live object refers to live ones. -/
theorem GcObjList.mem_of_markChildren (hl : GcObjList h l)
    (hc : Memory.Counted Body.refs h own) {r x : Ref} (hr : r ∈ l) (hx : x ∈ h.markChildren r) :
    x ∈ l := by
  obtain ⟨hmem, hobj⟩ := mem_markChildren.1 hx
  refine (hl.mem x).2 ⟨?_, hobj⟩
  have hheld : 0 < Memory.held Body.refs h x := by
    rw [hl.held_eq]
    exact List.count_pos_iff.2 (List.mem_flatMap.2 ⟨r, hr, hmem⟩)
  rw [hc x]
  omega

/-! ## The first pass -/

/-- In `gc_decref`: the objects of `P` had their turn, and the references of `D` are off the counts.
An object that had its turn is in `tmp_obj_list` once nothing is left on its count, but for those of
`late`, which were not looked at yet. -/
structure Decref (h : Heap) (l P D late : List Ref) (g : Collector) : Prop where
  body : ∀ x, Memory.body? g.heap x = Memory.body? h x
  count : ∀ x, Memory.count g.heap x = Memory.count h x - D.count x
  marked : ∀ x, x ∈ g.marked ↔ x ∈ P
  mem_tmp : ∀ x, x ∈ g.tmpObjList ↔ x ∈ P ∧ Memory.count g.heap x = 0 ∧ x ∉ late
  mem_obj : ∀ x, x ∈ g.gcObjList ↔ x ∈ l ∧ x ∉ g.tmpObjList
  nodup_tmp : g.tmpObjList.Nodup
  nodup_obj : g.gcObjList.Nodup
  rest : g.gcZeroRefCountList = [] ∧ g.freed = []

variable {P D : List Ref}

/-- A cell whose count came to zero goes over to the other list. -/
theorem Decref.toTmp {x : Ref} (hd : Decref h l P D [x] g) (hx : x ∈ P)
    (hzero : Memory.count g.heap x = 0) : Decref h l P D [] (g.toTmp x) := by
  have htmp : x ∉ g.tmpObjList := fun hmem =>
    ((hd.mem_tmp x).1 hmem).2.2 (List.mem_singleton_self x)
  have herase : g.tmpObjList.erase x = g.tmpObjList := List.erase_of_not_mem htmp
  have hmem : ∀ y, y ∈ (g.toTmp x).tmpObjList ↔ y ∈ g.tmpObjList ∨ y = x := by
    intro y
    simp [Collector.toTmp, Collector.unlink, herase]
  refine ⟨hd.body, hd.count, hd.marked, fun y => ?_, fun y => ?_, ?_, hd.nodup_obj.erase x, hd.rest⟩
  · rw [hmem, hd.mem_tmp]
    by_cases hy : y = x
    · subst hy
      simp [hx, hzero, Collector.toTmp, Collector.unlink]
    · simp [hy, Collector.toTmp, Collector.unlink]
  · show y ∈ g.gcObjList.erase x ↔ _
    rw [hmem, hd.nodup_obj.mem_erase_iff, hd.mem_obj]
    tauto
  · show (g.tmpObjList.erase x ++ [x]).Nodup
    rw [herase]
    exact List.Nodup.append hd.nodup_tmp (List.nodup_singleton x) (by simpa using htmp)

/-- An object that was looked at is where it belongs. -/
theorem Decref.settle {x : Ref} (hd : Decref h l P D [x] g) :
    Decref h l P D [] (if Memory.count g.heap x = 0 ∧ x ∈ P then g.toTmp x else g) := by
  split_ifs with hmove
  · exact hd.toTmp hmove.2 hmove.1
  · refine { hd with mem_tmp := fun y => (hd.mem_tmp y).trans ?_ }
    by_cases hy : y = x
    · subst hy
      simp
      tauto
    · simp [hy]

/-- One child of the first phase. Its count was above zero, as references are covered. -/
theorem Decref.child {x : Ref} (hd : Decref h l P D [] g)
    (hlt : (D.count x : ℤ) < Memory.count h x) :
    ∃ g', gcDecrefChild g x = some g' ∧ Decref h l P (D ++ [x]) [] g' := by
  have hpos : 0 < Memory.count g.heap x := by
    rw [hd.count x]
    omega
  have hcount : ∀ y, Memory.count (Memory.bump g.heap x (-1)) y
      = Memory.count h y - (D ++ [x]).count y := by
    intro y
    rw [Memory.count_bump, List.count_append, List.count_singleton, hd.count]
    by_cases hy : x = y
    · subst hy
      simp only [true_and, beq_self_eq_true, if_true, if_pos (Memory.lt_of_count_pos hpos)]
      push_cast
      ring
    · simp [hy]
  have hlate : Decref h l P (D ++ [x]) [x] { g with heap := Memory.bump g.heap x (-1) } := by
    refine { hd with body := fun y => ?_, count := hcount, mem_tmp := fun y => ?_ }
    · rw [Memory.body?_bump, hd.body]
    · rw [hd.mem_tmp, Memory.count_bump]
      by_cases hy : y = x
      · subst hy
        simp [hpos.ne']
      · simp [hy, Ne.symm hy]
  rw [gcDecrefChild, if_pos hpos]
  refine ⟨_, rfl, ?_⟩
  simpa only [hd.marked] using hlate.settle

/-- The references that the objects had before a turn, and those of the turn so far, are a part of
all of them. -/
theorem count_flatMap_lt {f : Ref → List Ref} {before after done rest : List Ref} {r x : Ref}
    (hl : l = before ++ r :: after) (hr : f r = done ++ x :: rest) :
    (before.flatMap f ++ done).count x < (l.flatMap f).count x := by
  rw [hl, List.flatMap_append, List.flatMap_cons, hr]
  simp only [List.count_append, List.count_cons_self]
  omega

/-- One cell of the first phase. -/
theorem Decref.turn (hl : GcObjList h l) (hc : Memory.Counted Body.refs h own) {r : Ref}
    {after : List Ref} (hlist : l = P ++ r :: after)
    (hd : Decref h l P (P.flatMap h.markChildren) [] g) :
    ∃ g', gcDecrefTurn g r = some g' ∧
      Decref h l (P ++ [r]) ((P ++ [r]).flatMap h.markChildren) [] g' := by
  have hr : r ∈ l := by simp [hlist]
  have hfresh : r ∉ P := by
    have := hl.nodup
    rw [hlist, List.nodup_append] at this
    exact fun hmem => this.2.2 r hmem r List.mem_cons_self rfl
  obtain ⟨g₁, hg₁, hd₁⟩ := foldlM_invariant (f := gcDecrefChild) (l := h.markChildren r) (s := g)
    (fun done g => Decref h l P (P.flatMap h.markChildren ++ done) [] g)
    (by rwa [List.append_nil]) fun done x rest g hx hd => by
      have hxl : x ∈ l := hl.mem_of_markChildren hc hr (by simp [hx])
      have hle := hl.count_le hc hxl
      have hlt := count_flatMap_lt hlist hx
      rw [← List.append_assoc]
      exact hd.child (by omega)
  have hlate : Decref h l (P ++ [r]) ((P ++ [r]).flatMap h.markChildren) [r]
      { g₁ with marked := r :: g₁.marked } := by
    rw [List.flatMap_append, List.flatMap_singleton]
    refine { hd₁ with marked := fun x => ?_, mem_tmp := fun x => ?_ }
    · rw [List.mem_cons, hd₁.marked, List.mem_append, List.mem_singleton]
      tauto
    · rw [hd₁.mem_tmp, List.mem_append, List.mem_singleton]
      by_cases hx : x = r
      · subst hx
        simp [hfresh]
      · simp [hx]
  rw [gcDecrefTurn, if_neg (by rwa [hd.marked]), markChildren_congr hd.body, hg₁]
  refine ⟨_, rfl, ?_⟩
  simpa using hlate.settle

/-- The first phase takes the references of all cells from the counts, and never fails. -/
theorem decref_gcDecref (hl : GcObjList h l) (hc : Memory.Counted Body.refs h own) :
    ∃ g, gcDecref ⟨h, l, [], [], [], []⟩ = some g ∧
      Decref h l l (l.flatMap h.markChildren) [] g := by
  refine foldlM_invariant (fun P g => Decref h l P (P.flatMap h.markChildren) [] g) ?_
    fun P r after g hlist hd => hd.turn hl hc hlist
  exact ⟨fun _ => rfl, fun _ => by simp, fun _ => by simp, fun _ => by simp, fun _ => by simp,
    .nil, hl.nodup, rfl, rfl⟩

/-! ## The second pass -/

/-- In `gc_scan`: the objects of `S` had their turn, and the references of `D` are back on the
counts. An object is in `gc_obj_list` once something is on its count. -/
structure Scan (h : Heap) (l : List Ref) (own : Ref → ℕ) (S D : List Ref) (g : Collector) :
    Prop where
  body : ∀ x, Memory.body? g.heap x = Memory.body? h x
  count : ∀ x ∈ l, Memory.count g.heap x = own x + D.count x
  count_other : ∀ x, x ∉ l → Memory.count g.heap x = Memory.count h x
  mem_tmp : ∀ x, x ∈ g.tmpObjList ↔ x ∈ l ∧ Memory.count g.heap x = 0
  mem_obj : ∀ x, x ∈ g.gcObjList ↔ x ∈ l ∧ 0 < Memory.count g.heap x
  nodup_tmp : g.tmpObjList.Nodup
  nodup_obj : g.gcObjList.Nodup
  scanned : S <+: g.gcObjList
  reach : ∀ x ∈ g.gcObjList, Memory.Reach Body.refs h own x
  marked : ∀ x ∈ S, x ∉ g.marked
  rest : g.gcZeroRefCountList = [] ∧ g.freed = []

variable {S : List Ref}

/-- What is left of the counts after the first pass are the owners outside. -/
theorem Decref.scan (hl : GcObjList h l) (hc : Memory.Counted Body.refs h own)
    (hd : Decref h l l (l.flatMap h.markChildren) [] g) : Scan h l own [] [] g := by
  have hcount : ∀ x ∈ l, Memory.count g.heap x = own x := by
    intro x hx
    rw [hd.count, ← hl.count_le hc hx]
    omega
  have hmem : ∀ x, x ∈ g.gcObjList ↔ x ∈ l ∧ 0 < Memory.count g.heap x := by
    intro x
    rw [hd.mem_obj, hd.mem_tmp]
    refine and_congr_right fun hx => ?_
    have := hcount x hx
    simp only [hx, List.not_mem_nil, not_false_eq_true, and_true, true_and]
    omega
  refine ⟨hd.body, fun x hx => by simp [hcount x hx], fun x hx => ?_, fun x => ?_, hmem,
    hd.nodup_tmp, hd.nodup_obj, List.nil_prefix, fun x hx => ?_,
    fun x hx => absurd hx List.not_mem_nil, hd.rest⟩
  · have hout : (l.flatMap h.markChildren).count x = 0 := by
      refine List.count_eq_zero.2 fun hmem => ?_
      obtain ⟨r, hr, hxr⟩ := List.mem_flatMap.1 hmem
      exact hx (hl.mem_of_markChildren hc hr hxr)
    rw [hd.count, hout]
    simp
  · rw [hd.mem_tmp]
    simp
  · obtain ⟨hxl, hpos⟩ := (hmem x).1 hx
    rw [hcount x hxl] at hpos
    exact .root (by omega)

/-- A child that is reached is put back, once. -/
theorem Scan.child {x : Ref} (hs : Scan h l own S D g) (hx : x ∈ l) (hlive : 0 < Memory.count h x)
    (hreach : Memory.Reach Body.refs h own x) :
    Scan h l own S (D ++ [x]) (gcScanIncrefChild g x) := by
  have hlen : x < g.heap.length := by
    rw [Memory.length_eq_of_body? hs.body]
    exact Memory.lt_of_count_pos hlive
  have hcx := hs.count x hx
  have hbump : ∀ y, Memory.count (Memory.bump g.heap x 1) y
      = Memory.count g.heap y + if y = x then 1 else 0 := by
    intro y
    rw [Memory.count_bump]
    by_cases hy : y = x
    · subst hy
      simp [hlen]
    · simp [hy, Ne.symm hy]
  have hbody : ∀ y, Memory.body? (Memory.bump g.heap x 1) y = Memory.body? h y := by
    intro y
    rw [Memory.body?_bump, hs.body]
  have hcount : ∀ y ∈ l, Memory.count (Memory.bump g.heap x 1) y = own y + (D ++ [x]).count y := by
    intro y hy
    rw [hbump, hs.count y hy, List.count_append, List.count_singleton]
    by_cases hyx : y = x
    · simp [hyx, add_assoc]
    · simp [hyx, Ne.symm hyx]
  have hother : ∀ y, y ∉ l → Memory.count (Memory.bump g.heap x 1) y = Memory.count h y := by
    intro y hy
    have hyx : y ≠ x := fun hyx => hy (hyx ▸ hx)
    rw [hbump, if_neg hyx, hs.count_other y hy, add_zero]
  unfold gcScanIncrefChild
  dsimp only
  split_ifs with hone
  · -- the first reference: the object was in `tmp_obj_list`
    have hzero : Memory.count g.heap x = 0 := by
      rw [hbump, if_pos rfl] at hone
      omega
    have hnot : x ∉ g.gcObjList := fun hmem => by
      have := ((hs.mem_obj x).1 hmem).2
      omega
    refine ⟨hbody, hcount, hother, fun y => ?_, fun y => ?_, hs.nodup_tmp.erase x, ?_, ?_,
      fun y hy => ?_, fun y hy hmem => ?_, hs.rest⟩
    · show y ∈ g.tmpObjList.erase x ↔ _
      rw [hs.nodup_tmp.mem_erase_iff, hs.mem_tmp]
      show _ ↔ y ∈ l ∧ Memory.count (Memory.bump g.heap x 1) y = 0
      rw [hbump]
      by_cases hyx : y = x
      · subst hyx
        simp [hzero]
      · simp [hyx]
    · show y ∈ g.gcObjList.erase x ++ [x] ↔ y ∈ l ∧ 0 < Memory.count (Memory.bump g.heap x 1) y
      rw [List.erase_of_not_mem hnot, List.mem_append, List.mem_singleton, hs.mem_obj, hbump]
      by_cases hyx : y = x
      · subst hyx
        simp [hx, hzero]
      · simp [hyx]
    · show (g.gcObjList.erase x ++ [x]).Nodup
      rw [List.erase_of_not_mem hnot]
      exact List.Nodup.append hs.nodup_obj (List.nodup_singleton x) (by simpa using hnot)
    · show S <+: g.gcObjList.erase x ++ [x]
      rw [List.erase_of_not_mem hnot]
      exact hs.scanned.trans (List.prefix_append _ _)
    · have hy' : y ∈ g.gcObjList.erase x ++ [x] := hy
      rw [List.erase_of_not_mem hnot, List.mem_append, List.mem_singleton] at hy'
      rcases hy' with hy' | rfl
      · exact hs.reach y hy'
      · exact hreach
    · exact hs.marked y hy (List.mem_of_mem_filter hmem)
  · have hne : Memory.count g.heap x ≠ 0 := fun hzero => by
      rw [hbump, if_pos rfl, hzero] at hone
      exact hone rfl
    refine { hs with body := hbody, count := hcount, count_other := hother, mem_tmp := fun y => ?_,
                     mem_obj := fun y => ?_ }
    · rw [hs.mem_tmp, hbump]
      refine and_congr_right fun hy => ?_
      have := hs.count y hy
      split_ifs with hyx
      · subst hyx
        omega
      · rw [add_zero]
    · rw [hs.mem_obj, hbump]
      refine and_congr_right fun hy => ?_
      have := hs.count y hy
      split_ifs with hyx
      · subst hyx
        omega
      · rw [add_zero]

/-- One cell of the second phase. What it refers to is reached. -/
theorem Scan.turn (hl : GcObjList h l) (hc : Memory.Counted Body.refs h own) {r : Ref}
    (hs : Scan h l own S (S.flatMap h.markChildren) g) (hr : g.gcObjList[S.length]? = some r) :
    Scan h l own (S ++ [r]) ((S ++ [r]).flatMap h.markChildren)
      ((g.heap.markChildren r).foldl gcScanIncrefChild
        { g with marked := g.marked.filter (· ≠ r) }) := by
  have hmem : r ∈ g.gcObjList := List.mem_of_getElem? hr
  have hrl : r ∈ l := ((hs.mem_obj r).1 hmem).1
  have hscanned : S ++ [r] <+: g.gcObjList := by
    obtain ⟨rest, hrest⟩ := hs.scanned
    rw [← hrest, List.getElem?_append_right le_rfl, Nat.sub_self] at hr
    cases rest with
    | nil => cases hr
    | cons x rest =>
      cases hr
      exact ⟨rest, by rw [← hrest, List.append_assoc]; rfl⟩
  have hstart : Scan h l own (S ++ [r]) (S.flatMap h.markChildren)
      { g with marked := g.marked.filter (· ≠ r) } := by
    refine { hs with scanned := hscanned, marked := fun x hx hmark => ?_ }
    obtain ⟨hmark, hne⟩ := List.mem_filter.1 hmark
    rcases List.mem_append.1 hx with hx | hx
    · exact hs.marked x hx hmark
    · simp [List.mem_singleton.1 hx] at hne
  rw [List.flatMap_append, List.flatMap_singleton, markChildren_congr hs.body]
  refine foldl_invariant (l := h.markChildren r)
    (fun done g => Scan h l own (S ++ [r]) (S.flatMap h.markChildren ++ done) g)
    (by rwa [List.append_nil]) fun done x rest g hx hs₁ => ?_
  have hxr : x ∈ h.markChildren r := by simp [hx]
  have hxl : x ∈ l := hl.mem_of_markChildren hc hrl hxr
  rw [← List.append_assoc]
  exact hs₁.child hxl ((hl.mem x).1 hxl).1 (.step (hs.reach r hmem) (mem_markChildren.1 hxr).1)

/-- The loop runs to the end of the list, wherever that comes to be. -/
theorem Scan.run (hl : GcObjList h l) (hc : Memory.Counted Body.refs h own) {fuel : ℕ}
    (hs : Scan h l own S (S.flatMap h.markChildren) g) (hfuel : l.length < fuel + S.length) :
    ∃ g', gcScanFrom fuel S.length g = some g' ∧
      Scan h l own g'.gcObjList (g'.gcObjList.flatMap h.markChildren) g' := by
  induction fuel generalizing S g with
  | zero =>
    have hsub : S ⊆ l := fun x hx => ((hs.mem_obj x).1 (hs.scanned.subset hx)).1
    have hnodup : S.Nodup := hs.nodup_obj.sublist hs.scanned.sublist
    have := (List.subperm_of_subset hnodup hsub).length_le
    omega
  | succ fuel ih =>
    rw [gcScanFrom]
    cases hr : g.gcObjList[S.length]? with
    | none =>
      have heq : S = g.gcObjList :=
        hs.scanned.eq_of_length_le (List.getElem?_eq_none_iff.1 hr)
      exact ⟨g, rfl, heq ▸ hs⟩
    | some r =>
      have hpos := ((hs.mem_obj r).1 (List.mem_of_getElem? hr)).2
      have hnext := ih (hs.turn hl hc hr) (by simp; omega)
      rw [List.length_append, List.length_singleton] at hnext
      dsimp only
      rw [if_pos hpos]
      exact hnext

/-- What the scan ends with is closed under references and holds the owned objects. -/
theorem Scan.mem_iff_reach (hl : GcObjList h l) (hc : Memory.Counted Body.refs h own)
    (hs : Scan h l own g.gcObjList (g.gcObjList.flatMap h.markChildren) g) (x : Ref) :
    x ∈ g.gcObjList ↔ Memory.Reach Body.refs h own x ∧ (h.obj? x).isSome := by
  refine ⟨fun hx => ⟨hs.reach x hx, ((hl.mem x).1 ((hs.mem_obj x).1 hx).1).2⟩, ?_⟩
  rintro ⟨hx, hobj⟩
  induction hx with
  | @root r hr =>
    have hrl : r ∈ l := (hl.mem r).2 ⟨hc.pos_of_reach (.root hr), hobj⟩
    refine (hs.mem_obj r).2 ⟨hrl, ?_⟩
    rw [hs.count r hrl]
    omega
  | @step r x hr hx ih =>
    have hxl : x ∈ l := (hl.mem x).2 ⟨hc.pos_of_reach (.step hr hx), hobj⟩
    have hmem : x ∈ g.gcObjList.flatMap h.markChildren :=
      List.mem_flatMap.2 ⟨r, ih (isSome_of_mem_children hx), mem_markChildren.2 ⟨hx, hobj⟩⟩
    have hpos := List.count_pos_iff.2 hmem
    refine (hs.mem_obj x).2 ⟨hxl, ?_⟩
    rw [hs.count x hxl]
    omega

/-- After `gc_scan` the counts are what they were, and the objects are sorted. -/
structure Scanned (h : Heap) (l : List Ref) (own : Ref → ℕ) (g : Collector) : Prop where
  body : ∀ x, Memory.body? g.heap x = Memory.body? h x
  count : ∀ x, Memory.count g.heap x = Memory.count h x
  mem_obj : ∀ x, x ∈ g.gcObjList ↔ Memory.Reach Body.refs h own x ∧ (h.obj? x).isSome
  mem_tmp : ∀ x, x ∈ g.tmpObjList ↔ x ∈ l ∧ x ∉ g.gcObjList
  nodup_tmp : g.tmpObjList.Nodup
  nodup_obj : g.gcObjList.Nodup
  marked : ∀ x ∈ g.gcObjList, x ∉ g.marked
  rest : g.gcZeroRefCountList = [] ∧ g.freed = []

/-- References put back on the counts. -/
structure Restored (g₀ : Collector) (D : List Ref) (g : Collector) : Prop where
  same : g = { g₀ with heap := g.heap }
  body : ∀ x, Memory.body? g.heap x = Memory.body? g₀.heap x
  count : ∀ x < g₀.heap.length, Memory.count g.heap x = Memory.count g₀.heap x + D.count x

/-- One child of the last loop gets its count back. -/
theorem Restored.child {g₀ : Collector} (hr : Restored g₀ D g) (x : Ref) :
    Restored g₀ (D ++ [x]) (gcScanIncrefChild2 g x) := by
  refine ⟨?_, fun y => ?_, fun y hy => ?_⟩
  · rw [gcScanIncrefChild2, hr.same]
  · rw [gcScanIncrefChild2, Memory.body?_bump, hr.body]
  · have hlen := Memory.length_eq_of_body? hr.body
    rw [gcScanIncrefChild2, Memory.count_bump, hr.count y hy, List.count_append,
      List.count_singleton]
    by_cases hyx : y = x
    · subst hyx
      simp [hlen, hy, add_assoc]
    · simp [Ne.symm hyx]

/-- The last loop gives every count back that the first phase took. -/
theorem restored_foldl (g : Collector) (rs : List Ref) : Restored g (rs.flatMap g.heap.markChildren)
    (rs.foldl (fun g r => (g.heap.markChildren r).foldl gcScanIncrefChild2 g) g) := by
  refine foldl_invariant (fun done g' => Restored g (done.flatMap g.heap.markChildren) g')
    ⟨rfl, fun _ => rfl, fun _ _ => by simp⟩ fun done r rest g₁ _ hr => ?_
  rw [List.flatMap_append, List.flatMap_singleton, markChildren_congr hr.body]
  refine foldl_invariant (l := g.heap.markChildren r)
    (fun xs g' => Restored g (done.flatMap g.heap.markChildren ++ xs) g')
    (by rwa [List.append_nil]) fun xs x _ g₂ _ hr₂ => ?_
  rw [← List.append_assoc]
  exact hr₂.child x

/-- The lists of the second phase hold the same cells. -/
theorem Scan.perm (hs : Scan h l own S D g) (hl : GcObjList h l) :
    l.Perm (g.gcObjList ++ g.tmpObjList) := by
  refine (List.perm_ext_iff_of_nodup hl.nodup ?_).2 fun x => ?_
  · refine List.Nodup.append hs.nodup_obj hs.nodup_tmp fun x hx hx' => ?_
    have := ((hs.mem_obj x).1 hx).2
    have := ((hs.mem_tmp x).1 hx').2
    omega
  · rw [List.mem_append, hs.mem_obj, hs.mem_tmp]
    constructor
    · intro hx
      have := hs.count x hx
      rcases (show 0 < Memory.count g.heap x ∨ Memory.count g.heap x = 0 by omega) with h | h
      · exact .inl ⟨hx, h⟩
      · exact .inr ⟨hx, h⟩
    · rintro (hx | hx)
      · exact hx.1
      · exact hx.1

/-- The second phase ends, with what is reached in the one list and the rest in the other. -/
theorem scanned_gcScan (hl : GcObjList h l) (hc : Memory.Counted Body.refs h own)
    (hs : Scan h l own [] [] g) : ∃ g', gcScan g = some g' ∧ Scanned h l own g' := by
  have hlen : l.length = g.gcObjList.length + g.tmpObjList.length := by
    rw [← List.length_append]
    exact (hs.perm hl).length_eq
  have hfuel : l.length <
      g.gcObjList.length + g.tmpObjList.length + 1 + ([] : List Ref).length := by
    rw [hlen]
    exact Nat.lt_succ_self _
  obtain ⟨g₁, hg₁, hs₁⟩ := Scan.run hl hc hs hfuel
  have hr := restored_foldl g₁ g₁.tmpObjList
  have hsame := hr.same
  set g₂ := g₁.tmpObjList.foldl
    (fun g r => (g.heap.markChildren r).foldl gcScanIncrefChild2 g) g₁ with hg₂
  have hmc : g₁.heap.markChildren = h.markChildren := funext (markChildren_congr hs₁.body)
  have hobj : g₂.gcObjList = g₁.gcObjList := by rw [hsame]
  have htmp : g₂.tmpObjList = g₁.tmpObjList := by rw [hsame]
  refine ⟨g₂, ?_, fun x => (hr.body x).trans (hs₁.body x), fun x => ?_, fun x => ?_, fun x => ?_,
    ?_, ?_, fun x hx => ?_, ?_⟩
  · unfold gcScan
    rw [show gcScanFrom (g.gcObjList.length + g.tmpObjList.length + 1) 0 g = some g₁ from hg₁]
    rfl
  · by_cases hx : x ∈ l
    · have hlt : x < g₁.heap.length := by
        rw [Memory.length_eq_of_body? hs₁.body]
        exact Memory.lt_of_count_pos ((hl.mem x).1 hx).1
      have hperm := ((hs₁.perm hl).flatMap_right h.markChildren).count_eq x
      rw [List.flatMap_append, List.count_append] at hperm
      rw [hr.count x hlt, hs₁.count x hx, hmc, ← hl.count_le hc hx, hperm]
      push_cast
      ring
    · have hout : (g₁.tmpObjList.flatMap g₁.heap.markChildren).count x = 0 := by
        refine List.count_eq_zero.2 fun hmem => ?_
        obtain ⟨r, hr, hxr⟩ := List.mem_flatMap.1 hmem
        rw [hmc] at hxr
        exact hx (hl.mem_of_markChildren hc ((hs₁.mem_tmp r).1 hr).1 hxr)
      by_cases hlt : x < g₁.heap.length
      · rw [hr.count x hlt, hs₁.count_other x hx, hout]
        simp
      · have hlt' : ¬ x < g₂.heap.length := by rwa [Memory.length_eq_of_body? hr.body]
        have hlt'' : ¬ x < h.length := by rwa [← Memory.length_eq_of_body? hs₁.body]
        rw [Memory.count_eq_zero_of_le (Nat.le_of_not_lt hlt'),
          Memory.count_eq_zero_of_le (Nat.le_of_not_lt hlt'')]
  · rw [hobj]
    exact hs₁.mem_iff_reach hl hc x
  · rw [hobj, htmp, hs₁.mem_tmp, hs₁.mem_obj]
    refine and_congr_right fun hx => ?_
    have := hs₁.count x hx
    simp only [hx, true_and]
    omega
  · rw [htmp]
    exact hs₁.nodup_tmp
  · rw [hobj]
    exact hs₁.nodup_obj
  · rw [hobj] at hx
    rw [show g₂.marked = g₁.marked by rw [hsame]]
    exact hs₁.marked x hx
  · rw [hsame]
    exact hs₁.rest

/-! ## The third pass -/

/-- In `gc_free_cycles`: the objects of `P` were freed, those of `T` are left, and the references of
`D` are off the counts. Memory that was given back has no count left. -/
structure Sweep (h : Heap) (g₀ : Collector) (P T D : List Ref) (g : Collector) : Prop where
  body : ∀ x, Memory.body? g.heap x = Memory.body? h x
  count : ∀ x, Memory.count g.heap x = Memory.count h x - D.count x
  list : g.gcObjList = g₀.gcObjList
  marked : g.marked = g₀.marked
  tmp : g.tmpObjList = T
  gone : ∀ x, (h.obj? x).isSome → (x ∈ g.gcZeroRefCountList ++ g.freed ↔ x ∈ P)
  leaf : ∀ x, (h.obj? x).isNone →
    (x ∈ g.gcZeroRefCountList ++ g.freed ↔ x ∈ D ∧ Memory.count g.heap x = 0)
  nodup : (g.gcZeroRefCountList ++ g.freed).Nodup
  zero : ∀ x ∈ g.gcZeroRefCountList, (h.obj? x).isSome
  freed : ∀ x ∈ g.freed, Memory.count g.heap x = 0

variable {g₀ : Collector} {T : List Ref}

/-- One child of a cell that is freed loses a reference. -/
theorem Sweep.child {x : Ref} (hs : Sweep h g₀ P T D g)
    (hlt : (D.count x : ℤ) < Memory.count h x) :
    ∃ g', gcFreeChild g x = some g' ∧ Sweep h g₀ P T (D ++ [x]) g' := by
  have hpos : 0 < Memory.count g.heap x := by
    rw [hs.count x]
    omega
  have hnot : x ∉ g.freed := fun hmem => by
    have := hs.freed x hmem
    omega
  have hbump : ∀ y, Memory.count (Memory.bump g.heap x (-1)) y
      = Memory.count g.heap y - if y = x then 1 else 0 := by
    intro y
    rw [Memory.count_bump]
    by_cases hy : y = x
    · subst hy
      simp [Memory.lt_of_count_pos hpos, sub_eq_add_neg]
    · simp [hy, Ne.symm hy]
  have hbody : ∀ y, Memory.body? (Memory.bump g.heap x (-1)) y = Memory.body? h y := by
    intro y
    rw [Memory.body?_bump, hs.body]
  have hcount : ∀ y, Memory.count (Memory.bump g.heap x (-1)) y
      = Memory.count h y - (D ++ [x]).count y := by
    intro y
    rw [hbump, hs.count, List.count_append, List.count_singleton]
    by_cases hy : y = x
    · simp [hy, sub_sub]
    · simp [hy, Ne.symm hy]
  have hfreed : ∀ y ∈ g.freed, Memory.count (Memory.bump g.heap x (-1)) y = 0 := by
    intro y hy
    have hyx : y ≠ x := fun hyx => hnot (hyx ▸ hy)
    rw [hbump, hs.freed y hy, if_neg hyx, sub_zero]
  -- what is no object and was not freed has a count left
  have hleaf : ∀ y, y ≠ x → ((y ∈ D ++ [x] ∧ Memory.count (Memory.bump g.heap x (-1)) y = 0) ↔
      (y ∈ D ∧ Memory.count g.heap y = 0)) := by
    intro y hy
    rw [hbump, if_neg hy, sub_zero, List.mem_append, List.mem_singleton]
    simp [hy]
  rw [gcFreeChild, if_neg (by rintro (hf | hf); exacts [hnot hf, absurd hpos (by omega)])]
  refine ⟨_, rfl, ?_⟩
  dsimp only
  split_ifs with hlast
  · rw [obj?_congr hs.body] at hlast
    have hout : x ∉ g.gcZeroRefCountList ++ g.freed := by
      rw [hs.leaf x hlast.2]
      omega
    refine ⟨hbody, hcount, hs.list, hs.marked, hs.tmp, fun y hy => ?_, fun y hy => ?_, ?_,
      hs.zero, fun y hy => ?_⟩
    · have hyx : y ≠ x := by
        rintro rfl
        rw [Option.isNone_iff_eq_none.1 hlast.2] at hy
        cases hy
      rw [← hs.gone y hy]
      simp [hyx]
    · by_cases hyx : y = x
      · subst hyx
        simp [hlast.1]
      · rw [hleaf y hyx, ← hs.leaf y hy]
        simp [hyx]
    · exact (List.perm_middle.nodup_iff).2 (List.nodup_cons.2 ⟨hout, hs.nodup⟩)
    · rcases List.mem_cons.1 hy with rfl | hy
      · exact hlast.1
      · exact hfreed y hy
  · refine ⟨hbody, hcount, hs.list, hs.marked, hs.tmp, hs.gone, fun y hy => ?_, hs.nodup,
      hs.zero, hfreed⟩
    by_cases hyx : y = x
    · subst hyx
      rw [obj?_congr hs.body] at hlast
      rw [hs.leaf y hy]
      have hne : Memory.count (Memory.bump g.heap y (-1)) y ≠ 0 := fun hz => hlast ⟨hz, hy⟩
      constructor
      · rintro ⟨-, hz⟩
        omega
      · rintro ⟨-, hz⟩
        exact absurd hz hne
    · rw [hleaf y hyx, ← hs.leaf y hy]

/-- One cell of the third phase. -/
theorem Sweep.turn {r : Ref} {rest : List Ref}
    (hs : Sweep h g₀ P (r :: rest) (P.flatMap (Memory.children Body.refs h)) g)
    (hobj : (h.obj? r).isSome) (hfresh : r ∉ P) (hlist : r ∉ g₀.gcObjList)
    (hlt : ∀ done x after, Memory.children Body.refs h r = done ++ x :: after →
      ((P.flatMap (Memory.children Body.refs h) ++ done).count x : ℤ) < Memory.count h x) :
    ∃ g', gcFreeTurn g r = some g' ∧
      Sweep h g₀ (P ++ [r]) rest ((P ++ [r]).flatMap (Memory.children Body.refs h)) g' := by
  obtain ⟨g₁, hg₁, hs₁⟩ := foldlM_invariant (f := gcFreeChild)
    (l := Memory.children Body.refs h r) (s := g)
    (fun done g => Sweep h g₀ P (r :: rest) (P.flatMap (Memory.children Body.refs h) ++ done) g)
    (by rwa [List.append_nil]) fun done x after g hx hs => by
      rw [← List.append_assoc]
      exact hs.child (hlt done x after hx)
  have hout : r ∉ g₁.gcZeroRefCountList ++ g₁.freed := by rwa [hs₁.gone r hobj]
  have hP : ∀ x, x ∈ P ++ [r] ↔ x = r ∨ x ∈ P := by
    intro x
    rw [List.mem_append, List.mem_singleton, or_comm]
  have hnone : ∀ x, (h.obj? x).isNone → x ≠ r := by
    rintro x hx rfl
    rw [Option.isNone_iff_eq_none.1 hx] at hobj
    cases hobj
  have hunlink : g₁.gcObjList.erase r = g₀.gcObjList := by
    rw [hs₁.list, List.erase_of_not_mem hlist]
  have htmp : g₁.tmpObjList.erase r = rest := by rw [hs₁.tmp, List.erase_cons_head]
  rw [gcFreeTurn, obj?_congr hs.body, if_pos hobj, gcFreeObject, children_congr hs.body, hg₁]
  refine ⟨_, rfl, ?_⟩
  rw [List.flatMap_append, List.flatMap_singleton]
  split_ifs with hleft
  · refine ⟨hs₁.body, hs₁.count, hunlink, hs₁.marked, htmp, fun x hx => ?_, fun x hx => ?_, ?_,
      fun x hx => ?_, hs₁.freed⟩
    · rw [hP, ← hs₁.gone x hx]
      simp [Collector.unlink]
      tauto
    · refine Iff.trans ?_ (hs₁.leaf x hx)
      simp [Collector.unlink, hnone x hx]
    · show (g₁.gcZeroRefCountList ++ [r] ++ g₁.freed).Nodup
      rw [List.append_assoc]
      exact (List.perm_middle.nodup_iff).2 (List.nodup_cons.2 ⟨hout, hs₁.nodup⟩)
    · rcases List.mem_append.1 hx with hx | hx
      · exact hs₁.zero x hx
      · rwa [List.mem_singleton.1 hx]
  · refine ⟨hs₁.body, hs₁.count, hunlink, hs₁.marked, htmp, fun x hx => ?_, fun x hx => ?_, ?_,
      hs₁.zero, fun x hx => ?_⟩
    · rw [hP, ← hs₁.gone x hx]
      simp [Collector.unlink]
      tauto
    · refine Iff.trans ?_ (hs₁.leaf x hx)
      simp [Collector.unlink, hnone x hx]
    · exact (List.perm_middle.nodup_iff).2 (List.nodup_cons.2 ⟨hout, hs₁.nodup⟩)
    · rcases List.mem_cons.1 hx with rfl | hx
      · exact Decidable.not_not.1 hleft
      · exact hs₁.freed x hx

/-- The lists before the third phase hold the same cells. -/
theorem Scanned.perm (hs : Scanned h l own g) (hl : GcObjList h l)
    (hc : Memory.Counted Body.refs h own) : l.Perm (g.gcObjList ++ g.tmpObjList) := by
  have hsub : ∀ x ∈ g.gcObjList, x ∈ l := by
    intro x hx
    obtain ⟨hreach, hobj⟩ := (hs.mem_obj x).1 hx
    exact (hl.mem x).2 ⟨hc.pos_of_reach hreach, hobj⟩
  refine (List.perm_ext_iff_of_nodup hl.nodup ?_).2 fun x => ?_
  · exact List.Nodup.append hs.nodup_obj hs.nodup_tmp fun x hx hx' => ((hs.mem_tmp x).1 hx').2 hx
  · rw [List.mem_append, hs.mem_tmp]
    have := hsub x
    tauto

/-- The references of the objects that are kept and of those that go. -/
theorem Scanned.count_eq (hs : Scanned h l own g) (hl : GcObjList h l)
    (hc : Memory.Counted Body.refs h own) (x : Ref) : Memory.count h x
      = own x + (g.gcObjList.flatMap (Memory.children Body.refs h)).count x
        + (g.tmpObjList.flatMap (Memory.children Body.refs h)).count x := by
  have hperm := ((hs.perm hl hc).flatMap_right (Memory.children Body.refs h)).count_eq x
  rw [List.flatMap_append, List.count_append] at hperm
  rw [hc x, hl.held_eq, hperm]
  push_cast
  ring

/-- What a collection leaves: exactly what the owners reach is live, its counts are exact, and the
memory of the rest was given back once. -/
structure Collected (h : Heap) (own : Ref → ℕ) (g : Collector) : Prop where
  body : ∀ x, Memory.body? g.heap x = Memory.body? h x
  live : ∀ x, 0 < Memory.count g.heap x ↔ Memory.Reach Body.refs h own x
  counted : Memory.Counted Body.refs g.heap own
  list : GcObjList g.heap g.gcObjList
  marked : ∀ x ∈ g.gcObjList, x ∉ g.marked
  lists : g.tmpObjList = [] ∧ g.gcZeroRefCountList = []
  nodup : g.freed.Nodup
  freed : ∀ x, x ∈ g.freed ↔ 0 < Memory.count h x ∧ ¬ Memory.Reach Body.refs h own x

/-- One cell of the third phase, of those that the second left over. -/
theorem Scanned.freeTurn (hs : Scanned h l own g) (hl : GcObjList h l)
    (hc : Memory.Counted Body.refs h own) {r : Ref} {after : List Ref} {g₁ : Collector}
    (hlist : g.tmpObjList = P ++ r :: after)
    (hs₁ : Sweep h g P (r :: after) (P.flatMap (Memory.children Body.refs h)) g₁) :
    ∃ g₂, gcFreeTurn g₁ r = some g₂ ∧
      Sweep h g (P ++ [r]) after ((P ++ [r]).flatMap (Memory.children Body.refs h)) g₂ := by
  have hr : r ∈ g.tmpObjList := by simp [hlist]
  obtain ⟨hrl, hout⟩ := (hs.mem_tmp r).1 hr
  have hfresh : r ∉ P := by
    have hnodup := hs.nodup_tmp
    rw [hlist, List.nodup_append] at hnodup
    exact fun hmem => hnodup.2.2 r hmem r List.mem_cons_self rfl
  refine hs₁.turn ((hl.mem r).1 hrl).2 hfresh hout fun done x rest hx => ?_
  have hlt := count_flatMap_lt hlist hx
  have hle := hs.count_eq hl hc x
  omega

/-- The third phase frees what the second left over, and never fails. -/
theorem Scanned.sweep (hs : Scanned h l own g) (hl : GcObjList h l)
    (hc : Memory.Counted Body.refs h own) :
    ∃ g', g.tmpObjList.foldlM gcFreeTurn g = some g' ∧
      Sweep h g g.tmpObjList [] (g.tmpObjList.flatMap (Memory.children Body.refs h)) g' := by
  have hstart : Sweep h g [] g.tmpObjList [] g := by
    refine ⟨hs.body, fun x => by simp [hs.count x], rfl, rfl, rfl, ?_, ?_, ?_, ?_, ?_⟩ <;>
      simp [hs.rest]
  have hturns := foldlM_invariant (f := gcFreeTurn) (l := g.tmpObjList) (s := g)
    (fun P g' => ∃ rest, g.tmpObjList = P ++ rest ∧
      Sweep h g P rest (P.flatMap (Memory.children Body.refs h)) g')
    ⟨g.tmpObjList, rfl, hstart⟩ fun P r after g₁ hlist ⟨rest, hrest, hs₁⟩ => by
      have heq : rest = r :: after := List.append_cancel_left (hrest.symm.trans hlist)
      subst heq
      obtain ⟨g₂, hg₂, hs₂⟩ := hs.freeTurn hl hc hlist hs₁
      exact ⟨g₂, hg₂, after, by rw [hlist, List.append_assoc]; rfl, hs₂⟩
  obtain ⟨g', hg', rest, hrest, hs'⟩ := hturns
  have hnil : rest = [] := by simpa using hrest
  exact ⟨g', hg', hnil ▸ hs'⟩

/-- What the collector leaves is as it should be. -/
theorem Sweep.collected (hl : GcObjList h l) (hc : Memory.Counted Body.refs h own)
    (hg : Scanned h l own g₀) {g' : Collector}
    (hs : Sweep h g₀ g₀.tmpObjList []
      (g₀.tmpObjList.flatMap (Memory.children Body.refs h)) g')
    (hend : g = { g' with freed := g'.gcZeroRefCountList ++ g'.freed, gcZeroRefCountList := [] }) :
    Collected h own g := by
  subst hend
  have hcount : ∀ x, Memory.count g'.heap x
      = own x + (g₀.gcObjList.flatMap (Memory.children Body.refs h)).count x := by
    intro x
    rw [hs.count, hg.count_eq hl hc]
    ring
  have hlive : ∀ x, 0 < Memory.count g'.heap x ↔ Memory.Reach Body.refs h own x := by
    intro x
    rw [hcount]
    constructor
    · intro hpos
      rcases Nat.eq_zero_or_pos (own x) with hzero | hown
      · have hmem : x ∈ g₀.gcObjList.flatMap (Memory.children Body.refs h) :=
          List.count_pos_iff.1 (by omega)
        obtain ⟨r, hr, hx⟩ := List.mem_flatMap.1 hmem
        exact .step ((hg.mem_obj r).1 hr).1 hx
      · exact .root hown
    · intro hreach
      cases hreach with
      | root hown => omega
      | @step r _ hr hx =>
        have hmem := (hg.mem_obj r).2 ⟨hr, isSome_of_mem_children hx⟩
        have := List.count_pos_iff.2 (List.mem_flatMap.2 ⟨r, hmem, hx⟩)
        omega
  have hlist : GcObjList g'.heap g₀.gcObjList := by
    refine ⟨hg.nodup_obj, fun x => ?_⟩
    rw [hlive, hg.mem_obj, obj?_congr hs.body]
  refine ⟨hs.body, hlive, fun x => ?_, ?_, fun x hx => ?_, ⟨hs.tmp, rfl⟩, hs.nodup, fun x => ?_⟩
  · show Memory.count g'.heap x = (own x + Memory.held Body.refs g'.heap x : ℕ)
    rw [hlist.held_eq, hcount, funext (children_congr hs.body)]
    push_cast
    rfl
  · show GcObjList g'.heap g'.gcObjList
    rw [hs.list]
    exact hlist
  · have hx' : x ∈ g₀.gcObjList := by rwa [← hs.list]
    show x ∉ g'.marked
    rw [hs.marked]
    exact hg.marked x hx'
  · show x ∈ g'.gcZeroRefCountList ++ g'.freed ↔ _
    cases hobj : (h.obj? x).isSome with
    | true =>
      rw [hs.gone x hobj, hg.mem_tmp, hl.mem, hg.mem_obj]
      simp [hobj]
    | false =>
      rw [hs.leaf x (by simpa using hobj), ← hlive]
      have hsum := hg.count_eq hl hc x
      have hleft := hcount x
      rw [← List.count_pos_iff]
      omega

/-- **`JS_RunGC` destroys exactly what its owners do not reach.** -/
theorem collected_jsRunGC (hl : GcObjList h l) (hc : Memory.Counted Body.refs h own) :
    ∃ g, jsRunGC h l = some g ∧ Collected h own g := by
  obtain ⟨g₁, hg₁, hd⟩ := decref_gcDecref hl hc
  obtain ⟨g₂, hg₂, hs⟩ := scanned_gcScan hl hc (hd.scan hl hc)
  obtain ⟨g₃, hg₃, hs₃⟩ := hs.sweep hl hc
  have hassert : ∀ r ∈ g₃.gcZeroRefCountList, (g₃.heap.obj? r).isSome := by
    intro r hr
    rw [obj?_congr hs₃.body]
    exact hs₃.zero r hr
  refine ⟨_, ?_, hs₃.collected hl hc hs rfl⟩
  unfold jsRunGC gcFreeCycles
  rw [hg₁, Option.bind_eq_bind, Option.bind_some, hg₂, Option.bind_some, hg₃]
  exact if_pos hassert

/-- Every heap has such a list. -/
theorem gcObjList_range (h : Heap) : GcObjList h
    ((List.range h.length).filter fun r => 0 < Memory.count h r ∧ (h.obj? r).isSome) := by
  refine ⟨List.nodup_range.filter _, fun r => ?_⟩
  simp only [List.mem_filter, List.mem_range, decide_eq_true_eq, and_iff_right_iff_imp]
  exact fun hr => Memory.lt_of_count_pos hr.1

/-- **The collector is exact.** In a heap of objects whose counts cover its references, and in which
none is referred to weakly, the collector fails no assertion and touches no freed memory, whatever
the order of its list. It keeps the bodies and the owners; what is live afterwards is what was
reached from a cell with an owner outside the heap, and the memory of every other live cell is given
back once. -/
theorem jsRunGC_exact (hcov : h.Covers 0 []) (hl : GcObjList h l) :
    ∃ g, jsRunGC h l = some g ∧ Collected h (Memory.outside Body.refs h) g :=
  collected_jsRunGC hl (Memory.Owned.counted hcov)

/-- An object that is owned, and two that refer to each other. One of these shares a string with
it. -/
def ringHeap : Heap :=
  [⟨1, .obj ⟨.object, none, true, [(.index 0, .data (.string 3 []) .cwe)]⟩⟩,
    ⟨1, .obj ⟨.object, none, true, [(.index 0, .data (.object 2) .cwe)]⟩⟩,
    ⟨1, .obj ⟨.object, none, true,
      [(.index 0, .data (.object 1) .cwe), (.index 1, .data (.string 3 []) .cwe)]⟩⟩,
    ⟨2, .leaf⟩]

/-- All cells of the ring are objects. -/
theorem gcObjList_ringHeap : GcObjList ringHeap [0, 1, 2] := gcObjList_range ringHeap

/-- The counts of a heap, checked cell by cell. -/
theorem covers_of_check (hle : ∀ r < h.length, (Memory.held Body.refs h r : ℤ) ≤ Memory.count h r)
    (hrefs : ∀ c ∈ h, ∀ x ∈ Body.refs c.body, x < h.length) : h.Covers 0 [] := by
  intro r _
  simp only [List.drop_zero, List.count_nil, Nat.zero_add]
  by_cases hr : r < h.length
  · exact hle r hr
  · have hheld : Memory.held Body.refs h r = 0 := by
      refine List.sum_eq_zero fun k hk => ?_
      obtain ⟨c, hc, rfl⟩ := List.mem_map.1 hk
      rw [Memory.holds]
      split_ifs
      · exact List.count_eq_zero.2 fun hx => hr (hrefs c hc r hx)
      · rfl
    rw [hheld, Memory.count_eq_zero_of_le (Nat.le_of_not_lt hr)]
    rfl

/-- The counts of the ring are exact. -/
theorem covers_ringHeap : ringHeap.Covers 0 [] := covers_of_check (by decide) (by decide)

/-- The two objects go, and the string keeps the reference of the one that is owned. -/
theorem jsRunGC_exact_ringHeap : ∃ g, jsRunGC ringHeap [0, 1, 2] = some g ∧
    Collected ringHeap (Memory.outside Body.refs ringHeap) g ∧ g.freed = [1, 2] ∧
    g.heap.map Memory.Cell.refCount = [1, 0, 0, 1] := by
  obtain ⟨g, hg, hcollected⟩ := jsRunGC_exact covers_ringHeap gcObjList_ringHeap
  refine ⟨g, hg, hcollected, ?_⟩
  have hrun : (jsRunGC ringHeap [0, 1, 2]).map
      (fun g => (g.freed, g.heap.map Memory.Cell.refCount)) = some ([1, 2], [1, 0, 0, 1]) := by
    decide
  rw [hg, Option.map_some, Option.some_inj, Prod.mk.injEq] at hrun
  exact hrun

end

end QuickjsDart
