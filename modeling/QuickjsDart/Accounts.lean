import QuickjsDart.Discipline

/-!
# The account of the engine

`Accounts` says that the counts cover all references there are: those in the heap, those of the
context, of the pending exception and of the jobs, and those of the callers. An operation of QuickJS
keeps it where the references of its caller change as they should: a result or an exception is one
more, and `JS_SetPropertyInternal` takes that of its value. So it is a ledger (`accounting`).

Code outside the bridge keeps the same account (`Env.Balanced`).
-/

namespace QuickjsDart

open Codec

/-- The references of a job. -/
def Job.refs : Job → List Ref
  | reactions _ => []
  | thenable promise resolution thenFunc => promise :: (resolution.refs ++ thenFunc.refs)

/-- The references of the pending exception and of the jobs. -/
def VM.engineRefs (vm : VM) : List Ref :=
  vm.currentException.elim [] JSFault.refs ++ vm.jobs.flatMap Job.refs

/-- The counts cover the heap, the context, the engine and the owners of a list. -/
def Accounts (ctx : List Ref) (vm : VM) (own : List Ref) : Prop :=
  vm.heap.Covers 0 (own ++ (ctx ++ vm.engineRefs))

/-- The value refers to nothing that was destroyed. -/
def Alive (h : Heap) (v : JSValue) : Prop := ∀ r ∈ v.refs, 0 < Memory.count h r

/-- The account after a step: its result or its exception is the caller's. -/
def Balances {α : Type} (ctx : List Ref) (refs : α → List Ref) (own : List Ref) :
    EStateM.Result JSFault VM α → Prop
  | .ok a vm => Accounts ctx vm (refs a ++ own)
  | .error .crash _ => True
  | .error e vm => Accounts ctx vm (e.refs ++ own)

/-- The functions stay what they are. -/
def KeepsFunctions (vm vm' : VM) : Prop :=
  ∀ r o kind, vm.heap.obj? r = some o → o.cls = .function kind →
  ∃ o', vm'.heap.obj? r = some o' ∧ o'.cls = .function kind

section

variable {ctx own own' : List Ref} {vm : VM}

/-- Owners may forget references. -/
theorem Accounts.mono (h : Accounts ctx vm own) (hle : ∀ r, own'.count r ≤ own.count r) :
    Accounts ctx vm own' := by
  refine Heap.Covers.mono h fun r => ?_
  have hr := hle r
  simp only [List.count_append]
  omega

/-- What is owned is live. -/
theorem Accounts.pos (h : Accounts ctx vm own) {r : Ref} (hr : r ∈ own) :
    0 < Memory.count vm.heap r :=
  Heap.Covers.pos h (Nat.zero_le r) (List.mem_append_left _ hr)

/-- The references of the context are alive. -/
theorem Accounts.pos_ctx (h : Accounts ctx vm own) {r : Ref} (hr : r ∈ ctx) :
    0 < Memory.count vm.heap r :=
  Heap.Covers.pos h (Nat.zero_le r) (List.mem_append_right _ (List.mem_append_left _ hr))

/-- What the callers own is alive. -/
theorem Accounts.alive (h : Accounts ctx vm own) {v : JSValue} (hv : ∀ r ∈ v.refs, r ∈ own) :
    Alive vm.heap v := fun r hr => h.pos (hv r hr)

/-- The account is of all cells, so nothing is outside of it. -/
theorem closed_zero (h : Heap) : Memory.Closed Body.refs 0 h := fun _ _ x _ => Nat.zero_le x

/-- `JS_DupValue` gives the caller a reference. -/
theorem Accounts.dup (h : Accounts ctx vm own) {v : JSValue} (hv : Alive vm.heap v) :
    Accounts ctx (vm.dup v) (v.refs ++ own) := by
  have hdup := Heap.Covers.dup h fun r hr => ⟨Nat.zero_le r, hv r hr⟩
  rwa [← List.append_assoc] at hdup

/-- References of the caller are released one by one. -/
theorem Accounts.release {gone : List Ref} (h : Accounts ctx vm (gone ++ own)) :
    Accounts ctx (vm.mapHeap fun h => Memory.release Body.refs gone h) own := by
  have hcovers : vm.heap.Covers 0 (gone ++ (own ++ (ctx ++ vm.engineRefs))) := by
    rwa [← List.append_assoc]
  exact hcovers.release (closed_zero _) fun r _ => Nat.zero_le r

/-- `JS_FreeValue` takes the reference of the caller. -/
theorem Accounts.free {v : JSValue} (h : Accounts ctx vm (v.refs ++ own)) :
    Accounts ctx (vm.free v) own := h.release

/-- A new cell is the caller's, and takes the references of its body. -/
theorem Accounts.alloc {b : Body} (h : Accounts ctx vm (b.refs ++ own)) :
    Accounts ctx (vm.alloc b) (vm.heap.length :: own) := by
  have hcovers : vm.heap.Covers 0 (b.refs ++ (own ++ (ctx ++ vm.engineRefs))) := by
    rwa [← List.append_assoc]
  exact hcovers.alloc (Nat.zero_le _)

/-- A new cell that refers to nothing. -/
theorem Accounts.allocFree {b : Body} (h : Accounts ctx vm own) (hb : b.refs = []) :
    Accounts ctx (vm.alloc b) (vm.heap.length :: own) := Accounts.alloc (by rwa [hb])

/-- A live object is written, and the caller pays for what it refers to now. -/
theorem Accounts.setObj (h : Accounts ctx vm own) {r : Ref} {o o' : Obj}
    (ho : vm.heap.obj? r = some o) (hr : 0 < Memory.count vm.heap r)
    (hle : ∀ x,
      own'.count x + (Body.obj o').refs.count x ≤ own.count x + (Body.obj o).refs.count x) :
    Accounts ctx (vm.setObj r o') own' := by
  refine Heap.Covers.setObj h (Nat.zero_le r) ho hr fun x => ?_
  have hx := hle x
  rw [show (vm.setObj r o').engineRefs = vm.engineRefs from rfl]
  simp only [List.count_append]
  omega

/-- A change of an object that may have been destroyed: a destroyed one holds nothing. -/
theorem Accounts.setObj_any {gone : List Ref} (h : Accounts ctx vm (gone ++ own)) {r : Ref}
    {o o' : Obj} (ho : vm.heap.obj? r = some o)
    (hle : ∀ x, own.count x + (Body.obj o').refs.count x
      ≤ (gone ++ own).count x + (Body.obj o).refs.count x) : Accounts ctx (vm.setObj r o') own := by
  by_cases hr : 0 < Memory.count vm.heap r
  · exact h.setObj ho hr hle
  · have hown : Accounts ctx vm own := by
      refine h.mono fun x => ?_
      rw [List.count_append]
      exact Nat.le_add_left _ _
    have hsame := Memory.Owned.update_destroyed hown (Nat.zero_le r) hr fun _ => .obj o'
    exact hsame

/-- A job that takes references of the caller. -/
theorem Accounts.enqueue {job : Job} {l : List Ref} (h : Accounts ctx vm (l ++ own))
    (hjob : job.refs = l) : Accounts ctx (vm.enqueue job) own := by
  refine Heap.Covers.mono h fun r => ?_
  show (own ++ (ctx ++ (vm.currentException.elim [] JSFault.refs
    ++ (vm.jobs ++ [job]).flatMap Job.refs))).count r ≤ _
  rw [List.flatMap_append, List.flatMap_singleton, hjob]
  simp only [List.count_append, VM.engineRefs]
  omega

/-- A live object refers to live cells. -/
theorem Accounts.pos_of_mem (h : Accounts ctx vm own) {r x : Ref} {o : Obj}
    (ho : vm.heap.obj? r = some o) (hr : 0 < Memory.count vm.heap r) (hx : x ∈ (Body.obj o).refs) :
    0 < Memory.count vm.heap x :=
  Memory.Owned.pos_of_mem h (Nat.zero_le r) (Nat.zero_le x) (body?_of_obj? ho) hr hx

/-! ## Walks -/

/-- The context holds the fixed cells. -/
def HoldsFixed (ctx : List Ref) : Prop := ∀ r < fixedCells, r ∈ ctx

/-- The prototype of a live object is live. -/
theorem Accounts.pos_proto (h : Accounts ctx vm own) (hctx : HoldsFixed ctx) {r p : Ref} {o : Obj}
    (ho : vm.heap.obj? r = some o) (hr : 0 < Memory.count vm.heap r) (hp : o.proto = some p) :
    0 < Memory.count vm.heap p := by
  by_cases hfixed : p < fixedCells
  · exact h.pos_ctx (hctx p hfixed)
  · refine h.pos_of_mem ho hr (mem_refs_obj.2 (.inl ?_))
    rw [hp, shapeRefs, Option.toList_some, List.filter_cons_of_pos (by simpa using hfixed)]
    exact List.mem_cons_self

/-- The references of an own property of a live object are live. -/
theorem Accounts.pos_slot (h : Accounts ctx vm own) {r x : Ref} {o : Obj} {key : PropKey}
    {slot : Slot} (ho : vm.heap.obj? r = some o) (hr : 0 < Memory.count vm.heap r)
    (hslot : o.getOwn key = some slot) (hx : x ∈ slot.refs) : 0 < Memory.count vm.heap x := by
  rcases getOwn_mem hslot with ⟨len, -, -, rfl⟩ | hmem
  · rw [Slot.refs, refs_intValue] at hx
    cases hx
  · exact h.pos_of_mem ho hr (mem_refs_of_mem_props hmem hx)

end

/-! ## Code outside the bridge -/

/-- Script code, exotic objects and handlers keep the account: they are given live values, own what
they return or throw, and take nothing else. What a function object runs never changes. -/
structure Env.Balanced (env : Env) (ctx : List Ref) : Prop where
  fixed : HoldsFixed ctx
  primitive : ∀ v p, env.primitiveProto v = some p → p ∈ ctx
  call : ∀ f this args vm own, Accounts ctx vm own → 0 < Memory.count vm.heap f →
    Alive vm.heap this →
    (∀ a ∈ args, Alive vm.heap a) → Balances ctx JSValue.refs own (env.call f this args vm)
  handler : ∀ h this args vm own v vm', Accounts ctx vm own → Alive vm.heap this →
    (∀ l, args = some l → ∀ a ∈ l, Alive vm.heap a) → env.handler h this args vm = .ok v vm' →
    Accounts ctx vm' (v.refs ++ own)
  getExotic : ∀ r key this vm own, Accounts ctx vm own → 0 < Memory.count vm.heap r →
    Alive vm.heap this → Balances ctx JSValue.refs own (env.getExotic r key this vm)
  setExotic : ∀ r key v this vm own, Accounts ctx vm own → 0 < Memory.count vm.heap r →
    Alive vm.heap v → Alive vm.heap this → Balances ctx noRefs own (env.setExotic r key v this vm)
  toNumber : ∀ v vm own, Accounts ctx vm own → Alive vm.heap v →
    Balances ctx JSValue.refs own (env.toNumber v vm)
  call_functions : ∀ f this args vm, KeepsFunctions vm (endState (env.call f this args vm))
  getExotic_functions : ∀ r key this vm, KeepsFunctions vm (endState (env.getExotic r key this vm))

section

variable {ctx own : List Ref} {vm : VM} {env : Env}

/-! ## Assignments -/

/-- The properties of an array are those that stay and those that go. -/
theorem count_cut {o : Obj} {oldLen : ℕ} (harr : o.cls = .array oldLen) (len : ℕ)
    (gone : PropKey → Bool) (x : Ref) :
    (Body.obj (o.cut len gone)).refs.count x
        + ((o.props.filter fun p => gone p.1).flatMap fun p => p.2.refs).count x
      = (Body.obj o).refs.count x := by
  have hcls : o.cls.refs = [] := by
    rw [harr]
    rfl
  have hprops : ∀ l : List (PropKey × Slot),
      ((l.filter fun p => !gone p.1).flatMap fun p => p.2.refs).count x
        + ((l.filter fun p => gone p.1).flatMap fun p => p.2.refs).count x
      = (l.flatMap fun p => p.2.refs).count x := by
    intro l
    induction l with
    | nil => rfl
    | cons p l ih =>
      cases hp : gone p.1 with
      | true =>
        rw [List.filter_cons_of_neg (by simp [hp]), List.filter_cons_of_pos (by simp [hp])]
        simp only [List.flatMap_cons, List.count_append]
        omega
      | false =>
        rw [List.filter_cons_of_pos (by simp [hp]), List.filter_cons_of_neg (by simp [hp])]
        simp only [List.flatMap_cons, List.count_append]
        omega
  have hp := hprops o.props
  rw [count_refs_obj, count_refs_obj, hcls]
  show (shapeRefs o.proto).count x + ([] : List Ref).count x
    + ((o.props.filter fun p => !gone p.1).flatMap fun p => p.2.refs).count x + _ = _
  omega

/-- An array made shorter: the references of the elements that go are released. -/
theorem Accounts.cut (h : Accounts ctx vm own) {r : Ref} (hr : 0 < Memory.count vm.heap r) {o : Obj}
    {oldLen : ℕ} (ho : vm.heap.obj? r = some o) (hcls : o.cls = .array oldLen) (len : ℕ)
    (gone : PropKey → Bool) : Accounts ctx (vm.cutObj r o len gone) own := by
  refine Accounts.release (h.setObj ho hr fun x => ?_)
  have hx := count_cut hcls len gone x
  rw [List.count_append]
  omega

/-- A property that is new, or that was there, with the value put in. -/
theorem Accounts.putNew {v : JSValue} (h : Accounts ctx vm (v.refs ++ own)) {r : Ref} {o : Obj}
    (ho : vm.heap.obj? r = some o) (hr : 0 < Memory.count vm.heap r) {key : PropKey}
    (hnone : findSlot key o.props = none) (fl : Flags) :
    Accounts ctx (vm.setObj r (o.putOwn key (.data v fl))) own := by
  have hcovers : vm.heap.Covers 0 (v.refs ++ (own ++ (ctx ++ vm.engineRefs))) := by
    rwa [← List.append_assoc]
  exact hcovers.putNew (Nat.zero_le r) ho hr hnone fl

/-- A value replaces another in its property. The reference to the old one is the caller's then. -/
theorem Accounts.putOld {v : JSValue} (h : Accounts ctx vm (v.refs ++ own)) {r : Ref} {o : Obj}
    (ho : vm.heap.obj? r = some o) (hr : 0 < Memory.count vm.heap r) {key : PropKey} {old : Slot}
    (hsome : findSlot key o.props = some old) (fl : Flags) :
    Accounts ctx (vm.setObj r (o.putOwn key (.data v fl))) (old.refs ++ own) := by
  have hcovers : vm.heap.Covers 0 (v.refs ++ (own ++ (ctx ++ vm.engineRefs))) := by
    rwa [← List.append_assoc]
  have hput := hcovers.putOld (Nat.zero_le r) ho hr hsome fl
  rwa [← List.append_assoc] at hput

/-- A prototype replaced by a value of the caller. -/
theorem Accounts.setProto (h : Accounts ctx vm own) {r : Ref} {o : Obj} {v : JSValue}
    {q : Option Ref} (hr : 0 < Memory.count vm.heap r) (ho : vm.heap.obj? r = some o)
    (hv : Alive vm.heap v) (hq : ∀ x, q = some x → v = .object x) :
    Accounts ctx (vm.setProto r o q) own := by
  have hshape : ∀ x ∈ shapeRefs q, 0 ≤ x ∧ 0 < Memory.count vm.heap x := by
    intro x hx
    have hval := hq x (mem_shapeRefs hx)
    subst hval
    exact ⟨Nat.zero_le x, hv x (List.mem_singleton_self x)⟩
  have hcovers := covers_setProto (closed_zero vm.heap) h (Nat.zero_le r) ho hr hshape
  rw [setProto_eq]
  exact hcovers

/-! ## Promises -/

/-- A resolving function takes a reference to its promise. -/
theorem accounts_allocResolving {p r n : ℕ} {o : Obj} (h : Accounts ctx vm own) (hp : p ∈ own)
    (ho : vm.heap.obj? r = some o) (hl : vm.heap.length = n) (isReject : Bool) :
    Accounts ctx ((vm.dup (.object p)).alloc
        (.obj (.fresh (.function (.resolving p isReject)) functionPrototype))) (n :: own) ∧
      ((vm.dup (.object p)).alloc
        (.obj (.fresh (.function (.resolving p isReject)) functionPrototype))).heap.obj? r
          = some o ∧
      ((vm.dup (.object p)).alloc
        (.obj (.fresh (.function (.resolving p isReject)) functionPrototype))).heap.length
          = n + 1 := by
  have hdup : Accounts ctx (vm.dup (.object p)) ([p] ++ own) := by
    refine h.dup fun x hx => ?_
    rw [List.mem_singleton.1 hx]
    exact h.pos hp
  have hlen : (vm.dup (.object p)).heap.length = n := by rw [VM.length_dup, hl]
  have hobj : (vm.dup (.object p)).heap.obj? r = some o := by rw [VM.obj?_dup, ho]
  refine ⟨?_, obj?_alloc_of_some hobj, by rw [VM.length_alloc, hlen]⟩
  have halloc := Accounts.alloc
    (b := .obj (.fresh (.function (.resolving p isReject)) functionPrototype)) hdup
  rwa [hlen] at halloc

/-- `createPromise` gives a reference to the holder, which holds the rest. -/
theorem balances_createPromise (h : Accounts ctx vm own) :
    Balances ctx JSValue.refs own (createPromise vm) := by
  unfold createPromise
  dsimp only
  generalize hn : vm.heap.length = n
  -- the holder, and the promise that it will hold
  have h₁ := h.allocFree (b := .obj (holderObj .undefined .undefined .undefined)) rfl
  have ho₁ : (vm.alloc (.obj (holderObj .undefined .undefined .undefined))).heap.obj? n
      = some (holderObj .undefined .undefined .undefined) := by rw [VM.obj?_alloc, if_pos hn.symm]
  have hl₁ :
      (vm.alloc (.obj (holderObj .undefined .undefined .undefined))).heap.length = n + 1 := by
    rw [VM.length_alloc, hn]
  rw [hn] at h₁
  generalize vm.alloc (.obj (holderObj .undefined .undefined .undefined)) = vm₁ at *
  have h₂ := h₁.allocFree (b := .obj (.fresh (.promise .pending false) promisePrototype)) rfl
  rw [hl₁] at h₂
  have ho₂ : (vm₁.alloc (.obj (.fresh (.promise .pending false) promisePrototype))).heap.obj? n
      = some (holderObj .undefined .undefined .undefined) := obj?_alloc_of_some ho₁
  have hl₂ : (vm₁.alloc (.obj (.fresh (.promise .pending false) promisePrototype))).heap.length
      = n + 1 + 1 := by rw [VM.length_alloc, hl₁]
  generalize vm₁.alloc (.obj (.fresh (.promise .pending false) promisePrototype)) = vm₂ at *
  -- the two functions, each with a reference to the promise
  obtain ⟨h₃, ho₃, hl₃⟩ := accounts_allocResolving (p := n + 1) h₂ (by simp) ho₂ hl₂ false
  generalize (vm₂.dup (.object (n + 1))).alloc
    (.obj (.fresh (.function (.resolving (n + 1) false)) functionPrototype)) = vm₃ at *
  obtain ⟨h₄, ho₄, -⟩ := accounts_allocResolving (p := n + 1) h₃ (by simp) ho₃ hl₃ true
  generalize (vm₃.dup (.object (n + 1))).alloc
    (.obj (.fresh (.function (.resolving (n + 1) true)) functionPrototype)) = vm₄ at *
  refine h₄.setObj ho₄ (h₄.pos (by simp)) fun x => ?_
  show (n :: own).count x + [n + 2, n + 3, n + 1].count x
    ≤ ((n + 3) :: (n + 2) :: (n + 1) :: n :: own).count x + 0
  simp only [List.count_cons, List.count_nil]
  omega

/-- A settled promise takes a reference of its own. -/
theorem accounts_fulfillOrReject (h : Accounts ctx vm own) (promise : Ref) {v : JSValue}
    (hv : Alive vm.heap v) (isReject : Bool) :
    Accounts ctx (fulfillOrRejectPromise promise v isReject vm) own := by
  unfold fulfillOrRejectPromise
  cases ho : vm.heap.obj? promise with
  | none => exact h
  | some o =>
    dsimp only
    split
    · next already hcls =>
      have hdup := h.dup hv
      have ho' : (vm.dup v).heap.obj? promise = some o := (VM.obj?_dup vm v promise).trans ho
      have hset : ∀ cls : ObjClass, cls.refs = v.refs →
          Accounts ctx ((vm.dup v).setObj promise { o with cls := cls }) own := by
        intro cls hrefs
        refine hdup.setObj_any ho' fun x => ?_
        rw [count_refs_obj, count_refs_obj, List.count_append, hcls]
        dsimp only
        rw [hrefs]
        omega
      cases isReject with
      | true => exact Accounts.enqueue (l := []) (hset (.promise (.rejected v) already) rfl) rfl
      | false => exact Accounts.enqueue (l := []) (hset (.promise (.fulfilled v) already) rfl) rfl
    · exact h

/-- There is a resolving function of the promise that the caller owns. -/
def OwnsResolver (vm : VM) (own : List Ref) (promise : Ref) : Prop :=
  ∃ f o isReject,
    f ∈ own ∧ vm.heap.obj? f = some o ∧ o.cls = .function (.resolving promise isReject)

/-- The caller still owns a function of the promise. -/
theorem OwnsResolver.keep {vm' : VM} {promise : Ref} (h : OwnsResolver vm own promise)
    (hkeep : KeepsFunctions vm vm') : OwnsResolver vm' own promise := by
  obtain ⟨f, o, isReject, hf, ho, hcls⟩ := h
  obtain ⟨o', ho', hcls'⟩ := hkeep f o _ ho hcls
  exact ⟨f, o', isReject, hf, ho', hcls'⟩

/-- Its promise is live. -/
theorem OwnsResolver.pos {promise : Ref} (h : OwnsResolver vm own promise) {own' : List Ref}
    (hacc : Accounts ctx vm own') (hsub : own ⊆ own') : 0 < Memory.count vm.heap promise := by
  obtain ⟨f, o, isReject, hf, ho, hcls⟩ := h
  refine hacc.pos_of_mem ho (hacc.pos (hsub hf)) (mem_refs_obj.2 (.inr (.inl ?_)))
  rw [hcls]
  exact List.mem_cons_self

/-- The job of a thenable takes a reference to each of its arguments. -/
theorem accounts_thenable {promise : Ref} {resolution thenFunc : JSValue}
    (h : Accounts ctx vm (thenFunc.refs ++ own)) (hp : 0 < Memory.count vm.heap promise)
    (hres : ∀ r ∈ resolution.refs, r ∈ own) :
    Accounts ctx (((((vm.dup (.object promise)).dup resolution).dup thenFunc).enqueue
      (.thenable promise resolution thenFunc)).free thenFunc) own := by
  have h₁ : Accounts ctx (vm.dup (.object promise)) ([promise] ++ (thenFunc.refs ++ own)) := by
    refine h.dup fun x hx => ?_
    rw [List.mem_singleton.1 hx]
    exact hp
  have h₂ := h₁.dup (h₁.alive fun r hr =>
    List.mem_append_right [promise] (List.mem_append_right thenFunc.refs (hres r hr)))
  have h₃ := h₂.dup (v := thenFunc) (h₂.alive fun r hr =>
    List.mem_append_right _ (List.mem_append_right _ (List.mem_append_left _ hr)))
  refine Accounts.free
    (Accounts.enqueue (l := promise :: (resolution.refs ++ thenFunc.refs)) ?_ rfl)
  refine h₃.mono fun r => ?_
  simp only [List.cons_append, List.nil_append, List.count_cons, List.count_append]
  omega

/-- The flag of the functions of a promise is no reference. -/
theorem Accounts.flag (h : Accounts ctx vm own) {promise : Ref}
    (hp : 0 < Memory.count vm.heap promise) {o : Obj} {state : PromiseState}
    (ho : vm.heap.obj? promise = some o) (hcls : o.cls = .promise state false) :
    Accounts ctx (vm.setObj promise { o with cls := .promise state true }) own := by
  refine h.setObj ho hp fun x => ?_
  rw [count_refs_obj, count_refs_obj, hcls]
  have hrefs : (ObjClass.promise state true).refs = (ObjClass.promise state false).refs := by
    cases state <;> rfl
  dsimp only
  rw [hrefs]

/-- The functions of the promise stay. -/
theorem OwnsResolver.flag {promise : Ref} (h : OwnsResolver vm own promise) {o : Obj}
    {state : PromiseState} (ho : vm.heap.obj? promise = some o)
    (hcls : o.cls = .promise state false) :
    OwnsResolver (vm.setObj promise { o with cls := .promise state true }) own promise := by
  obtain ⟨f, q, isReject, hf, hq, hqcls⟩ := h
  refine ⟨f, q, isReject, hf, ?_, hqcls⟩
  show (vm.heap.setObj promise _).obj? f = some q
  rw [Heap.obj?_setObj ho, if_neg, hq]
  rintro rfl
  cases ho.symm.trans hq
  rw [hcls] at hqcls
  cases hqcls

/-! ## Calls -/

/-- A pending exception that is raised again leaves the engine. -/
theorem accounts_takeException (h : Accounts ctx vm own) :
    Balances ctx JSValue.refs own (.error (vm.currentException.getD (.value .undefined))
      { vm with currentException := none } : EStateM.Result JSFault VM JSValue) := by
  have hmove : ∀ e : JSFault, e.refs = vm.currentException.elim [] JSFault.refs →
      Accounts ctx { vm with currentException := none } (e.refs ++ own) := by
    intro e he
    refine Heap.Covers.mono h fun r => ?_
    rw [he]
    show _ ≤ (own ++ (ctx ++ (vm.currentException.elim [] JSFault.refs ++ _))).count r
    simp only [VM.engineRefs, Option.elim_none, List.nil_append, List.count_append]
    omega
  cases hexc : vm.currentException with
  | none => exact hmove (.value .undefined) (by rw [hexc]; rfl)
  | some e =>
    cases e with
    | crash => trivial
    | error m => exact hmove (.error m) (by rw [hexc]; rfl)
    | value v => exact hmove (.value v) (by rw [hexc]; rfl)

/-! ## Whatever code does -/

/-- The account as a ledger. -/
def accountsLedger (ctx : List Ref) : Ledger where
  Good own vm := Accounts ctx vm own
  To _ _ own' vm' := Accounts ctx vm' own'
  Lost _ _ := True
  drop h hle := h.mono hle
  trans _ h := h
  good _ h := h
  release h := h.release
  lost _ := trivial
  lost_trans _ _ := trivial
  lost_free _ _ := trivial

/-- An end in the ledger is a balance. -/
theorem ends_iff_balances {α : Type} {start : List Ref} {refs : α → List Ref}
    {res : EStateM.Result JSFault VM α} :
    (accountsLedger ctx).Ends start own refs vm res ↔ Balances ctx refs own res := by
  cases res with
  | ok a vm' => exact Iff.rfl
  | error e vm' => cases e <;> exact Iff.rfl

/-- Reads, and what they do to references. -/
def accountsReading (henv : env.Balanced ctx) : Reading env where
  toLedger := accountsLedger ctx
  Target vm v := Alive vm.heap v
  Given vm v := Alive vm.heap v
  Cell vm r := 0 < Memory.count vm.heap r
  scalar hv := fun r hr => by rw [hv] at hr; cases hr
  given hv := hv
  cell hv hr := hv _ hr
  owned h hr := h.pos hr
  primitive h hp := h.pos_ctx (henv.primitive _ _ hp)
  proto h ho hr hp := h.pos_proto henv.fixed ho hr hp
  slot h ho hr hslot hx := h.pos_slot ho hr hslot hx
  dup h hv := h.dup hv
  leaf h := h.allocFree rfl
  setProto h hthis hv ho _ hq _ := h.setProto (hthis _ (List.mem_singleton_self _)) ho hv hq
  call h hf hthis hargs := ends_iff_balances.2 (henv.call _ _ _ _ _ h hf hthis hargs)
  pend h := by
    refine Heap.Covers.mono h fun r => ?_
    simp only [VM.engineRefs, Option.elim_some, List.count_append]
    omega
  getExotic h hr hthis := ends_iff_balances.2 (henv.getExotic _ _ _ _ _ h hr hthis)

/-- Objects that stay as they are keep their class. -/
theorem keepsFunctions_of_obj? {vm' : VM}
    (h : ∀ r o, vm.heap.obj? r = some o → vm'.heap.obj? r = some o) : KeepsFunctions vm vm' :=
  fun r o _ ho hcls => ⟨o, h r o ho, hcls⟩

/-- Nothing happens. -/
theorem KeepsFunctions.refl (vm : VM) : KeepsFunctions vm vm :=
  keepsFunctions_of_obj? fun _ _ ho => ho

/-- A change that keeps the class. -/
theorem keepsFunctions_setObj {r : Ref} {o o' : Obj} (ho : vm.heap.obj? r = some o)
    (hcls : o'.cls = o.cls) : KeepsFunctions vm (vm.setObj r o') := by
  intro x q kind hq hqcls
  by_cases hx : x = r
  · subst hx
    cases ho.symm.trans hq
    exact ⟨o', obj?_setObj_eq ho o', hcls.trans hqcls⟩
  · exact ⟨q, obj?_setObj_of_ne ho hx hq, hqcls⟩

/-- One part of a run after the other. -/
theorem KeepsFunctions.trans {vm₁ vm₂ vm₃ : VM} (h₁ : KeepsFunctions vm₁ vm₂)
    (h₂ : KeepsFunctions vm₂ vm₃) : KeepsFunctions vm₁ vm₃ := by
  intro r o kind ho hcls
  obtain ⟨o', ho', hcls'⟩ := h₁ r o kind ho hcls
  exact h₂ r o' kind ho' hcls'

/-- A release changes counts only. -/
theorem keepsFunctions_release (gone : List Ref) :
    KeepsFunctions vm (vm.mapHeap fun h => Memory.release Body.refs gone h) :=
  keepsFunctions_of_obj? fun r o ho => by
    rw [← ho]
    simp [VM.mapHeap, Heap.obj?]

/-- An object with a new prototype is what it was. -/
theorem keepsFunctions_setProto {r : Ref} {o : Obj} (ho : vm.heap.obj? r = some o)
    (q : Option Ref) : KeepsFunctions vm (vm.setProto r o q) := by
  have ho' : (vm.dupRefs (shapeRefs q)).heap.obj? r = some o := by rw [VM.obj?_dupRefs, ho]
  have hdup : KeepsFunctions vm (vm.dupRefs (shapeRefs q)) :=
    keepsFunctions_of_obj? fun x p hp => by rw [VM.obj?_dupRefs, hp]
  have hset : KeepsFunctions (vm.dupRefs (shapeRefs q))
      ((vm.dupRefs (shapeRefs q)).setObj r { o with proto := q }) := keepsFunctions_setObj ho' rfl
  exact (hdup.trans hset).trans (keepsFunctions_release _)

/-- A read leaves the functions alone. -/
def functionsReading (henv : env.Balanced ctx) : Reading env where
  Good _ _ := True
  To _ vm _ vm' := KeepsFunctions vm vm'
  Lost := KeepsFunctions
  drop _ _ := .refl _
  trans := KeepsFunctions.trans
  good _ _ := trivial
  release _ := keepsFunctions_release _
  lost h := h
  lost_trans := KeepsFunctions.trans
  lost_free vm v := keepsFunctions_of_obj? fun r _ ho => (VM.obj?_free vm v r).trans ho
  Target _ _ := True
  Given _ _ := True
  Cell _ _ := True
  scalar _ := trivial
  given _ := trivial
  cell _ _ := trivial
  owned _ _ := trivial
  primitive _ _ := trivial
  proto _ _ _ _ := trivial
  slot _ _ _ _ _ := trivial
  dup _ _ := keepsFunctions_of_obj? fun r _ ho => (VM.obj?_dup _ _ r).trans ho
  leaf _ := keepsFunctions_of_obj? fun _ _ ho => obj?_alloc_of_some ho
  setProto _ _ _ ho _ _ _ := keepsFunctions_setProto ho _
  call _ _ _ _ := Ledger.ends_of_lost (fun h => h) (henv.call_functions _ _ _ _)
  pend _ := .refl _
  getExotic _ _ _ := Ledger.ends_of_lost (fun h => h) (henv.getExotic_functions _ _ _ _)

/-- Assignments, promises and calls, and what they do to references. -/
def accounting (henv : env.Balanced ctx) : Discipline env where
  toReading := accountsReading henv
  Held own _ v := ∀ r ∈ v.refs, r ∈ own
  Callee own _ v := ∀ r ∈ v.refs, r ∈ own
  Key _ := True
  Prom own vm p := OwnsResolver vm own p
  held hv _ hsub := fun r hr => hsub (hv r hr)
  scalarHeld hv := fun r hr => by rw [hv] at hr; cases hr
  target h hv := h.alive hv
  cut curLen h hr ho hcls _ := h.cut (h.pos (hr _ (List.mem_singleton_self _))) ho hcls curLen _
  add h hr _ ho hnone _ := h.putNew ho
    (h.pos (List.mem_append_right _ (hr _ (List.mem_singleton_self _))))
    (findSlot_of_getOwn_none hnone) _
  assign h hr ho hfind _ := h.putOld ho
    (h.pos (List.mem_append_right _ (hr _ (List.mem_singleton_self _)))) hfind _
  setExotic key h hr hv hthis :=
    ends_iff_balances.2 (henv.setExotic _ key _ _ _ _ h hr hv hthis)
  toNumber h hv := ends_iff_balances.2 (henv.toNumber _ _ _ h hv)
  error h := h.allocFree rfl
  callee h hf := h.pos (hf _ (List.mem_singleton_self _))
  promOf _ hf ho hcls := ⟨_, _, _, hf _ (List.mem_singleton_self _), ho, hcls⟩
  promKept hp hsub _ hobj _ := by
    obtain ⟨f, o, isReject, hf, ho, hcls⟩ := hp
    exact ⟨f, o, isReject, hsub hf, hobj f o ho, hcls⟩
  promRead {_ vm _ _} key _ _ hp := by
    have hg : (functionsReading henv).Good [] vm := trivial
    exact hp.keep ((functionsReading henv).jsGetProperty hg trivial key).lost
  flag h hp ho hcls := ⟨h.flag (hp.pos h (List.Subset.refl _)) ho hcls, hp.flag ho hcls⟩
  settle isReject h _ hv := accounts_fulfillOrReject h _ hv isReject
  thenable h hp hres := accounts_thenable h (hp.pos h (List.subset_append_right _ _)) hres
  createPromise h := ends_iff_balances.2 (balances_createPromise h)
  handler h hthis hargs := ⟨fun v vm' hrun => henv.handler _ _ _ _ _ v vm' h hthis
    (fun l hl a ha => hargs a (by rw [hl]; exact ha)) hrun, trivial⟩
  raise h := ends_iff_balances.2 (accounts_takeException h)

end

end QuickjsDart
