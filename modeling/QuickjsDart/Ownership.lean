import QuickjsDart.Engine

/-!
# Who owns references

QuickJS counts the references of its heap and of those who hold values outside of it. `Heap.Covers`
says that the counts of the cells from a bound on cover both, and the rules below what each change
of the heap does to the list of owners: `JS_DupValue` and a new cell add one, `JS_FreeValue` takes
one, and a property takes the reference of the value that is put in it.
-/

namespace QuickjsDart

open Codec

/-- The references of a value. -/
def JSValue.refs (v : JSValue) : List Ref := v.ref?.toList

/-- A double holds no reference. -/
theorem refs_jsNewFloat64 (d : Binary64) : (jsNewFloat64 d).refs = [] := by
  unfold jsNewFloat64
  split_ifs <;> rfl

/-- The counts of the cells from `n` on cover the references in the heap and those of a list. -/
def Heap.Covers (h : Heap) (n : ℕ) (rs : List Ref) : Prop :=
  Memory.Owned Body.refs n h fun r => rs.count r

section

variable {h : Heap} {n : ℕ} {rs rs' : List Ref}

/-- Counts that cover a list of owners cover a shorter one. -/
theorem Heap.Covers.mono (hc : h.Covers n rs) (hle : ∀ r, rs'.count r ≤ rs.count r) :
    h.Covers n rs' := Memory.Owned.mono hc fun r _ => hle r

/-- The order of the owners does not matter, and some may be forgotten. -/
theorem Heap.Covers.subperm (hc : h.Covers n rs) (hle : rs'.Subperm rs) : h.Covers n rs' :=
  hc.mono fun r => hle.count_le r

/-- What is owned is alive. -/
theorem Heap.Covers.pos (hc : h.Covers n rs) {r : Ref} (hn : n ≤ r) (hr : r ∈ rs) :
    0 < Memory.count h r :=
  Memory.Owned.pos hc hn (Nat.add_pos_left (List.count_pos_iff.2 hr) _)

/-- A new cell has one owner, and takes the references that its body holds. -/
theorem Heap.Covers.alloc {b : Body} (hn : n ≤ h.length) (hc : h.Covers n (b.refs ++ rs)) :
    Heap.Covers (Memory.alloc h b) n (h.length :: rs) := by
  have howned : Memory.Owned Body.refs n h fun r => rs.count r + b.refs.count r := by
    refine Memory.Owned.mono hc fun r _ => ?_
    rw [List.count_append]
    omega
  refine (Memory.Owned.alloc hn howned).mono fun r _ => ?_
  rw [List.count_cons]
  by_cases hr : r = h.length
  · simp [hr]
  · simp [hr, Ne.symm hr]

/-- `JS_DupValue` makes an owner of each cell that the value refers to. -/
theorem Heap.Covers.dup (hc : h.Covers n rs) {v : JSValue}
    (hv : ∀ r ∈ v.refs, n ≤ r ∧ 0 < Memory.count h r) : (h.dupValue v).Covers n (v.refs ++ rs) := by
  unfold Heap.dupValue
  unfold JSValue.refs at hv ⊢
  cases hr : v.ref? with
  | none => exact hc
  | some r =>
    have hlive := hv r (by rw [hr]; exact List.mem_singleton_self r)
    refine (Memory.Owned.bump hc hlive.1 hlive.2).mono fun x _ => ?_
    rw [Option.toList_some, List.count_append, List.count_singleton]
    by_cases hx : x = r
    · simp [hx, Nat.add_comm]
    · simp [hx, Ne.symm hx]

/-- A released reference is no longer owned. What its cells held goes with them. -/
theorem Heap.Covers.release {gone : List Ref} (hclosed : Memory.Closed Body.refs n h)
    (hgone : ∀ r ∈ gone, n ≤ r) (hc : h.Covers n (gone ++ rs)) :
    Heap.Covers (Memory.release Body.refs gone h) n rs := by
  refine Memory.Owned.release hclosed hgone (Memory.Owned.mono hc fun r _ => ?_)
  rw [List.count_append]
  omega

/-- `JS_FreeValue` gives up the reference of the value. -/
theorem Heap.Covers.free {v : JSValue} (hclosed : Memory.Closed Body.refs n h)
    (hv : ∀ r ∈ v.refs, n ≤ r) (hc : h.Covers n (v.refs ++ rs)) : (h.freeValue v).Covers n rs :=
  hc.release hclosed hv

/-- The body of an object is its cell's. -/
theorem body?_of_obj? {r : Ref} {o : Obj} (ho : h.obj? r = some o) :
    Memory.body? h r = some (.obj o) := by
  unfold Heap.obj? at ho
  split at ho
  · next o' hb =>
    cases ho
    exact hb
  · cases ho

/-- An object changed: the owners give what it takes, and get what it gives up. -/
theorem Heap.Covers.setObj (hc : h.Covers n rs) {r : Ref} {o o' : Obj} (hn : n ≤ r)
    (ho : h.obj? r = some o) (hr : 0 < Memory.count h r)
    (hle : ∀ x, rs'.count x + (Body.obj o').refs.count x ≤ rs.count x + (Body.obj o).refs.count x) :
    (h.setObj r o').Covers n rs' :=
  Memory.Owned.update hc hn (body?_of_obj? ho) hr fun x _ => hle x

/-- A new property takes the reference of its value. -/
theorem Heap.Covers.putNew {v : JSValue} (hc : h.Covers n (v.refs ++ rs)) {r : Ref} {o : Obj}
    (hn : n ≤ r) (ho : h.obj? r = some o) (hr : 0 < Memory.count h r) {key : PropKey}
    (hnone : findSlot key o.props = none) (fl : Flags) :
    (h.setObj r (o.putOwn key (.data v fl))).Covers n rs := by
  refine hc.setObj hn ho hr fun x => ?_
  have hput := count_putSlot_of_none hnone (.data v fl) x
  rw [count_refs_obj, count_refs_obj, List.count_append]
  show rs.count x + ((shapeRefs o.proto).count x + (o.clsWith key).refs.count x
    + ((putSlot key (.data v fl) o.props).flatMap fun p => p.2.refs).count x) ≤ _
  rw [hput, Obj.refs_clsWith, show (Slot.data v fl).refs = v.refs from rfl]
  omega

/-- A property that is replaced takes the reference of its value, and gives up what it held. -/
theorem Heap.Covers.putOld {v : JSValue} (hc : h.Covers n (v.refs ++ rs)) {r : Ref} {o : Obj}
    (hn : n ≤ r) (ho : h.obj? r = some o) (hr : 0 < Memory.count h r) {key : PropKey} {old : Slot}
    (hsome : findSlot key o.props = some old) (fl : Flags) :
    (h.setObj r (o.putOwn key (.data v fl))).Covers n (old.refs ++ rs) := by
  refine hc.setObj hn ho hr fun x => ?_
  have hput := count_putSlot_of_some hsome (.data v fl) x
  rw [show (Slot.data v fl).refs = v.refs from rfl] at hput
  rw [count_refs_obj, count_refs_obj, List.count_append, List.count_append]
  show old.refs.count x + rs.count x + ((shapeRefs o.proto).count x + (o.clsWith key).refs.count x
    + ((putSlot key (.data v fl) o.props).flatMap fun p => p.2.refs).count x) ≤ _
  rw [Obj.refs_clsWith]
  omega

end

/-! ## Prototypes -/

section

variable {vm : VM} {n : ℕ} {rs : List Ref}

/-- The references of a shape are duplicated one by one. -/
theorem covers_dupRefs {l : List Ref} (hl : ∀ x ∈ l, n ≤ x ∧ 0 < Memory.count vm.heap x)
    (hc : vm.heap.Covers n rs) : (vm.dupRefs l).heap.Covers n (l ++ rs) := by
  induction l generalizing vm rs with
  | nil => exact hc
  | cons r l ih =>
    have hdup : (vm.dup (.object r)).heap.Covers n (r :: rs) := by
      refine Heap.Covers.dup hc (v := .object r) fun x hx => ?_
      rw [List.mem_singleton.1 hx]
      exact hl r List.mem_cons_self
    refine (ih (fun x hx => ?_) hdup).subperm ?_
    · obtain ⟨hle, hpos⟩ := hl x (List.mem_cons_of_mem _ hx)
      refine ⟨hle, ?_⟩
      show 0 < Memory.count (Memory.bump vm.heap r 1) x
      rw [Memory.count_bump]
      split_ifs <;> omega
    · exact List.perm_middle.symm.subperm

/-- Only counts change. -/
theorem body?_dupRefs (vm : VM) (l : List Ref) (x : Ref) :
    Memory.body? (vm.dupRefs l).heap x = Memory.body? vm.heap x := by
  induction l generalizing vm with
  | nil => rfl
  | cons r l ih => exact (ih _).trans (Memory.body?_bump vm.heap r 1 x)

/-- Nothing of the engine but the heap changes. -/
theorem dupRefs_eq (vm : VM) (l : List Ref) :
    vm.dupRefs l = { vm with heap := (vm.dupRefs l).heap } := by
  induction l generalizing vm with
  | nil => rfl
  | cons r l ih => exact ih (vm.dup (.object r))

/-- Nothing of the engine but the heap changes with a prototype. -/
theorem setProto_eq (vm : VM) (r : Ref) (o : Obj) (q : Option Ref) :
    vm.setProto r o q = { vm with heap := (vm.setProto r o q).heap } := by
  unfold VM.setProto
  rw [dupRefs_eq]
  rfl

/-- What was alive is so still. -/
theorem count_pos_dupRefs {l : List Ref} {x : Ref} (h : 0 < Memory.count vm.heap x) :
    0 < Memory.count (vm.dupRefs l).heap x := by
  induction l generalizing vm with
  | nil => exact h
  | cons r l ih =>
    have hdup : 0 < Memory.count (vm.dup (.object r)).heap x := by
      show 0 < Memory.count (Memory.bump vm.heap r 1) x
      rw [Memory.count_bump]
      split_ifs <;> omega
    exact ih hdup

/-- A prototype replaced: the shape takes its reference to the new one and gives up that to the old
one. -/
theorem covers_setProto (hclosed : Memory.Closed Body.refs n vm.heap) (hc : vm.heap.Covers n rs)
    {r : Ref} {o : Obj} (hn : n ≤ r) (ho : vm.heap.obj? r = some o)
    (hr : 0 < Memory.count vm.heap r) {q : Option Ref}
    (hq : ∀ x ∈ shapeRefs q, n ≤ x ∧ 0 < Memory.count vm.heap x) :
    (vm.setProto r o q).heap.Covers n rs := by
  have hold : ∀ x ∈ (Body.obj o).refs, n ≤ x := by
    intro x hx
    refine hclosed r hn x ?_
    rw [Memory.children, body?_of_obj? ho]
    exact hx
  have ho' : (vm.dupRefs (shapeRefs q)).heap.obj? r = some o := by rw [VM.obj?_dupRefs, ho]
  have hput : ((vm.dupRefs (shapeRefs q)).heap.setObj r { o with proto := q }).Covers n
      (shapeRefs o.proto ++ rs) := by
    refine (covers_dupRefs hq hc).setObj hn ho' (count_pos_dupRefs hr) fun x => ?_
    rw [count_refs_obj, count_refs_obj, List.count_append, List.count_append]
    dsimp only
    omega
  have hclosed' : Memory.Closed Body.refs n
      ((vm.dupRefs (shapeRefs q)).heap.setObj r { o with proto := q }) := by
    refine Memory.Closed.update (hclosed.congr (body?_dupRefs vm _)) fun _ _ x hx => ?_
    rcases mem_refs_obj.1 hx with hx | hx | hx
    · exact (hq x hx).1
    · exact hold x (mem_refs_obj.2 (.inr (.inl hx)))
    · exact hold x (mem_refs_obj.2 (.inr (.inr hx)))
  exact hput.release hclosed' fun x hx => hold x (mem_refs_obj.2 (.inl hx))

/-- The setter of `__proto__` changes the heap only, and its arguments stay the caller's. -/
theorem protoSet_keeps (hclosed : Memory.Closed Body.refs n vm.heap) {this v : JSValue}
    (hthis : ∀ x ∈ this.refs, n ≤ x ∧ 0 < Memory.count vm.heap x)
    (hv : ∀ x ∈ v.refs, n ≤ x ∧ 0 < Memory.count vm.heap x) :
    (∃ h', protoSet this v vm = .ok .undefined { vm with heap := h' } ∧
      ∀ rs, vm.heap.Covers n rs → h'.Covers n rs) ∨
    ∃ m, protoSet this v vm = .error (.error m) vm := by
  rcases protoSet_cases this v vm with heq | ⟨m, heq⟩ | ⟨r, o, q, rfl, ho, hq, -, heq⟩
  · exact .inl ⟨vm.heap, heq, fun _ hc => hc⟩
  · exact .inr ⟨m, heq⟩
  · obtain ⟨hn, hr⟩ := hthis r (List.mem_singleton_self r)
    have hshape : ∀ x ∈ shapeRefs q, n ≤ x ∧ 0 < Memory.count vm.heap x := by
      intro x hx
      cases hq x (mem_shapeRefs hx)
      exact hv x (List.mem_singleton_self x)
    refine .inl ⟨_, heq.trans (congrArg _ (setProto_eq vm r o q)), fun rs hc => ?_⟩
    exact covers_setProto hclosed hc hn ho hr hshape

end

end QuickjsDart
