import QuickjsDart.Discipline

/-!
# What code does to the state

Every computation on the engine, of the bridge, of QuickJS or of a script, is a sequence of small
steps (`Micro`): counts change, cells are made and written, a handler is registered, and so on.
Invariants over whole runs are proved for these steps only.

The cells behind a returned future belong to its callbacks. `Micro P` is a step that leaves alone
the cells of the waiting calls with `P`, and `Moves P` says that a computation is made of such
steps. That all code is made of them is a ledger (`evolution`).
-/

namespace QuickjsDart

open Codec Relation

/-! ## Calls in flight -/

namespace AsyncCall

/-- The cells of a call: the holder, the promise, and its two functions. -/
def promise (c : AsyncCall) : Ref := c.holder + 1

/-- The function that fulfils the promise of the call. -/
def resolve (c : AsyncCall) : Ref := c.holder + 2

/-- The function that rejects it. -/
def reject (c : AsyncCall) : Ref := c.holder + 3

/-- The cell is known to the callbacks of the call only. -/
def Private (c : AsyncCall) (r : Ref) : Prop := r = c.holder ∨ r = c.resolve ∨ r = c.reject

/-- No callback of the call has run. -/
def Waiting (c : AsyncCall) : Prop :=
  c.due = none ∧ c.resolved = 0 ∧ c.rejected = 0 ∧ c.freed = 0 ∧ c.usedAfterFree = 0

/-- A call that starts, with the cell of its holder. -/
def start (future : ℕ) (holder : Ref) : AsyncCall := ⟨future, holder, none, 0, 0, 0, 0⟩

end AsyncCall

/-- The object resolves the promise at `p`. -/
def Obj.Resolves (o : Obj) (p : Ref) : Prop := ∃ isReject, o.cls = .function (.resolving p isReject)

/-- The cells of a call before its promise is settled, up to what a script may do to the promise. -/
structure InFlight (h : Heap) (c : AsyncCall) : Prop where
  holder : h.obj? c.holder
    = some (holderObj (.object c.resolve) (.object c.reject) (.object c.promise))
  resolve : ∃ o, h.obj? c.resolve = some o ∧ o.cls = .function (.resolving c.promise false)
  reject : ∃ o, h.obj? c.reject = some o ∧ o.cls = .function (.resolving c.promise true)
  promise : ∃ o already, h.obj? c.promise = some o ∧ o.cls = .promise .pending already
  only : ∀ r o, h.obj? r = some o → o.Resolves c.promise → c.Private r

/-- The call waits, and is one of those with `P`. -/
def Guarded (P : AsyncCall → Prop) (vm : VM) (c : AsyncCall) : Prop :=
  c ∈ vm.calls ∧ c.Waiting ∧ P c

/-- The waiting calls with `P` are in flight. All calls have cells of their own in the heap, and so
have the promises that functions resolve. -/
structure Guards (P : AsyncCall → Prop) (vm : VM) : Prop where
  inFlight : ∀ c, Guarded P vm c → InFlight vm.heap c
  bound : ∀ c ∈ vm.calls, c.reject < vm.heap.length
  apart : vm.calls.Pairwise fun c d => c.reject < d.holder
  inHeap : ∀ r o p, vm.heap.obj? r = some o → o.Resolves p → p < vm.heap.length

/-! ## Steps -/

/-- The state of `createPromise` before the holder gets its properties. -/
def promiseCells (vm : VM) : VM :=
  let promise := vm.heap.length + 1
  let vm := vm.alloc (.obj (holderObj .undefined .undefined .undefined))
  let vm := vm.alloc (.obj (.fresh (.promise .pending false) promisePrototype))
  let vm := (vm.dup (.object promise)).alloc
    (.obj (.fresh (.function (.resolving promise false)) functionPrototype))
  (vm.dup (.object promise)).alloc
    (.obj (.fresh (.function (.resolving promise true)) functionPrototype))

/-- The state that `createPromise` leaves. -/
def promiseState (vm : VM) : VM :=
  (promiseCells vm).setObj vm.heap.length (holderObj (.object (vm.heap.length + 2))
    (.object (vm.heap.length + 3)) (.object (vm.heap.length + 1)))

/-- `createPromise` runs no script code, so its result is told. -/
theorem createPromise_eq (vm : VM) :
    createPromise vm = .ok (.object vm.heap.length) (promiseState vm) := rfl

/-- The class of a written object: only an array's length changes. -/
def ObjClass.Like (cls cls' : ObjClass) : Prop :=
  cls' = cls ∨ cls.isArray = true ∧ cls'.isArray = true

/-- A call whose handler has returned a future: `createPromise`, then the callbacks of the
future. -/
def startCall (future : ℕ) (vm : VM) : VM :=
  { promiseState vm with calls := vm.calls ++ [.start future vm.heap.length] }

/-- The cell is private to no call with `P` that waits. -/
def Clear (P : AsyncCall → Prop) (vm : VM) (r : Ref) : Prop := ∀ c, Guarded P vm c → ¬ c.Private r

/-- A new cell resolves no promise of the waiting calls with `P`. -/
def Admits (P : AsyncCall → Prop) (vm : VM) (b : Body) : Prop :=
  ∀ o p, b = .obj o → o.Resolves p → p < vm.heap.length ∧ ∀ c, Guarded P vm c → p ≠ c.promise

/-- A step that leaves the cells of the waiting calls with `P` alone. -/
inductive Micro (P : AsyncCall → Prop) : VM → VM → Prop where
  | counts {vm : VM} {h : Heap} : h.obj? = vm.heap.obj? → h.length = vm.heap.length →
      Micro P vm { vm with heap := h }
  | alloc {vm : VM} {b : Body} : Admits P vm b → Micro P vm (vm.alloc b)
  | write {vm : VM} {r : Ref} {o o' : Obj} : vm.heap.obj? r = some o → Clear P vm r →
      o.cls.Like o'.cls → Micro P vm (vm.setObj r o')
  | settle {vm : VM} {r : Ref} {o o' : Obj} {state state' : PromiseState}
      {already already' : Bool} :
      vm.heap.obj? r = some o → o.cls = .promise state already →
      (∀ c, Guarded P vm c → r ≠ c.promise) → o'.cls = .promise state' already' →
      state = .pending ∨ state' = state → Micro P vm (vm.setObj r o')
  | exception (vm : VM) (e : Option JSFault) : Micro P vm { vm with currentException := e }
  | queue (vm : VM) (jobs : List Job) : Micro P vm { vm with jobs := jobs }
  | register (vm : VM) (h : Handler) : Micro P vm (register h vm)
  | started (vm : VM) (future : ℕ) : Micro P vm (startCall future vm)

/-- A sequence of steps. -/
def Evolves (P : AsyncCall → Prop) : VM → VM → Prop := ReflTransGen (Micro P)

section

variable {P : AsyncCall → Prop} {vm vm' : VM}

/-! ## The heap after a step -/

/-- The four cells of a new promise, before the holder is written. -/
theorem obj?_promiseCells (vm : VM) (r : Ref) : (promiseCells vm).heap.obj? r =
    if r = vm.heap.length + 3 then
      some (.fresh (.function (.resolving (vm.heap.length + 1) true)) functionPrototype)
    else if r = vm.heap.length + 2 then
      some (.fresh (.function (.resolving (vm.heap.length + 1) false)) functionPrototype)
    else if r = vm.heap.length + 1 then some (.fresh (.promise .pending false) promisePrototype)
    else if r = vm.heap.length then some (holderObj .undefined .undefined .undefined)
    else vm.heap.obj? r := by
  unfold promiseCells
  simp only [VM.obj?_alloc, VM.obj?_dup, VM.length_alloc, VM.length_dup]

/-- The holder is the first of them. -/
theorem obj?_promiseCells_holder (vm : VM) : (promiseCells vm).heap.obj? vm.heap.length
    = some (holderObj .undefined .undefined .undefined) := by
  simp [obj?_promiseCells]

/-- A new promise takes four cells. -/
@[simp] theorem length_promiseState (vm : VM) :
    (promiseState vm).heap.length = vm.heap.length + 4 := by
  unfold promiseState promiseCells
  simp

/-- The four cells of a promise, and the others. -/
theorem obj?_promiseState (vm : VM) (r : Ref) : (promiseState vm).heap.obj? r =
    if r = vm.heap.length then some (holderObj (.object (vm.heap.length + 2))
      (.object (vm.heap.length + 3)) (.object (vm.heap.length + 1)))
    else (promiseCells vm).heap.obj? r := by
  unfold promiseState
  rw [VM.setObj, VM.mapHeap, Heap.obj?_setObj (obj?_promiseCells_holder vm)]

/-- The cells that were there are not touched. -/
theorem obj?_promiseState_of_some {r : Ref} {o : Obj} (ho : vm.heap.obj? r = some o) :
    (promiseState vm).heap.obj? r = some o := by
  have hlt := Heap.lt_length_of_obj? ho
  rw [obj?_promiseState, if_neg hlt.ne, obj?_promiseCells, if_neg (Nat.lt_add_right 3 hlt).ne,
    if_neg (Nat.lt_add_right 2 hlt).ne, if_neg (Nat.lt_add_right 1 hlt).ne, if_neg hlt.ne, ho]

/-- What resolves a promise after `createPromise` is one of its functions, or an old one. -/
theorem resolves_promiseState {r p : Ref} {o : Obj} (ho : (promiseState vm).heap.obj? r = some o)
    (hres : o.Resolves p) :
    p = vm.heap.length + 1 ∧ (r = vm.heap.length + 2 ∨ r = vm.heap.length + 3) ∨
      vm.heap.obj? r = some o := by
  obtain ⟨b, hb⟩ := hres
  rw [obj?_promiseState, obj?_promiseCells] at ho
  split_ifs at ho with h₀ h₃ h₂ h₁
  · cases ho
    cases hb
  · cases ho
    cases hb
    exact .inl ⟨rfl, .inr h₃⟩
  · cases ho
    cases hb
    exact .inl ⟨rfl, .inl h₂⟩
  · cases ho
    cases hb
  · exact .inr ho

/-! ## What a step keeps -/

/-- A function that still resolves a promise resolved it before. -/
theorem Obj.Resolves.of_like {o o' : Obj} {p : Ref} (hlike : o.cls.Like o'.cls)
    (h : o'.Resolves p) : o.Resolves p := by
  obtain ⟨b, hb⟩ := h
  rcases hlike with heq | ⟨-, harr⟩
  · exact ⟨b, heq ▸ hb⟩
  · rw [hb] at harr
    cases harr

/-- A promise is no function. -/
theorem not_resolves_of_promise {o : Obj} {p : Ref} {state : PromiseState} {already : Bool}
    (h : o.cls = .promise state already) : ¬ o.Resolves p := by
  rintro ⟨b, hb⟩
  rw [h] at hb
  cases hb

/-- What a step does to the functions that resolve promises. -/
theorem Micro.resolves (hm : Micro P vm vm') {r p : Ref} {o : Obj} (ho : vm'.heap.obj? r = some o)
    (hres : o.Resolves p) :
    (∃ o', vm.heap.obj? r = some o' ∧ o'.Resolves p) ∨
      (p < vm.heap.length ∧ ∀ c, Guarded P vm c → p ≠ c.promise) ∨
      p = vm.heap.length + 1 ∧ ∃ future, vm' = startCall future vm := by
  cases hm with
  | @counts h hobj hlen =>
    refine .inl ⟨o, ?_, hres⟩
    rw [← hobj]
    exact ho
  | alloc hb =>
    rcases obj?_of_alloc ho with ⟨-, heq⟩ | hold
    · exact .inr (.inl (hb o p heq hres))
    · exact .inl ⟨o, hold, hres⟩
  | write hq hr hlike =>
    rcases obj?_of_setObj hq ho with ⟨rfl, rfl⟩ | hold
    · exact .inl ⟨_, hq, hres.of_like hlike⟩
    · exact .inl ⟨o, hold, hres⟩
  | settle hq hcls hr hcls' hst =>
    rcases obj?_of_setObj hq ho with ⟨rfl, rfl⟩ | hold
    · exact absurd hres (not_resolves_of_promise hcls')
    · exact .inl ⟨o, hold, hres⟩
  | exception e => exact .inl ⟨o, ho, hres⟩
  | queue jobs => exact .inl ⟨o, ho, hres⟩
  | register h =>
    rcases @obj?_of_alloc vm _ _ _ ho with ⟨-, heq⟩ | hold
    · cases heq
      obtain ⟨b, hb⟩ := hres
      cases hb
    · exact .inl ⟨o, hold, hres⟩
  | started future =>
    rcases resolves_promiseState ho hres with ⟨hp, -⟩ | hold
    · exact .inr (.inr ⟨hp, future, rfl⟩)
    · exact .inl ⟨o, hold, hres⟩

/-- No step deletes a cell. -/
theorem Micro.length_le (hm : Micro P vm vm') : vm.heap.length ≤ vm'.heap.length := by
  cases hm with
  | counts hobj hlen => exact hlen.ge
  | alloc hb => simp
  | write ho hr hlike => simp
  | settle ho hcls hr hcls' hst => simp
  | exception e => exact le_rfl
  | queue jobs => exact le_rfl
  | register h => simp [QuickjsDart.register, newHook, VM.alloc, VM.mapHeap]
  | started future => simp [startCall]

/-- Calls are only added, each with new cells. -/
theorem Micro.calls (hm : Micro P vm vm') :
    vm'.calls = vm.calls ∨ ∃ future, vm' = startCall future vm := by
  cases hm with
  | started future => exact .inr ⟨future, rfl⟩
  | _ => exact .inl rfl

/-- A call stays in flight where its private cells are kept, the class of its promise, and where no
further function resolves it. -/
theorem InFlight.of_obj {h h' : Heap} {c : AsyncCall} (hf : InFlight h c)
    (hpriv : ∀ r o, c.Private r → h.obj? r = some o → h'.obj? r = some o)
    (hprom : ∀ o state already, h.obj? c.promise = some o → o.cls = .promise state already →
      ∃ o', h'.obj? c.promise = some o' ∧ o'.cls = .promise state already)
    (honly : ∀ r o, h'.obj? r = some o → o.Resolves c.promise →
      ∃ o', h.obj? r = some o' ∧ o'.Resolves c.promise) : InFlight h' c := by
  obtain ⟨r, hr, hrc⟩ := hf.resolve
  obtain ⟨j, hj, hjc⟩ := hf.reject
  obtain ⟨p, already, hp, hpc⟩ := hf.promise
  obtain ⟨p', hp', hpc'⟩ := hprom p _ already hp hpc
  refine ⟨hpriv _ _ (.inl rfl) hf.holder, ⟨r, hpriv _ _ (.inr (.inl rfl)) hr, hrc⟩,
    ⟨j, hpriv _ _ (.inr (.inr rfl)) hj, hjc⟩, ⟨p', already, hp', hpc'⟩, fun x o ho hres => ?_⟩
  obtain ⟨o', ho', hres'⟩ := honly x o ho hres
  exact hf.only x o' ho' hres'

/-- The functions of a call are cells of the heap. -/
theorem InFlight.reject_lt {h : Heap} {c : AsyncCall} (hf : InFlight h c) :
    c.reject < h.length := by
  obtain ⟨o, ho, -⟩ := hf.reject
  exact Heap.lt_length_of_obj? ho

/-- A step leaves the private cells of a guarded call as they are. -/
theorem Micro.private (hm : Micro P vm vm') {c : AsyncCall} (hc : Guarded P vm c)
    (hf : InFlight vm.heap c) {r : Ref} {o : Obj} (hr : c.Private r)
    (ho : vm.heap.obj? r = some o) :
    vm'.heap.obj? r = some o := by
  cases hm with
  | @counts h hobj hlen =>
    show h.obj? r = some o
    rw [hobj, ho]
  | alloc hb => exact obj?_alloc_of_some ho
  | @write x q q' hq hx hlike =>
    refine obj?_setObj_of_ne hq ?_ ho
    rintro rfl
    exact hx c hc hr
  | @settle x q q' state state' already already' hq hcls hx hcls' hst =>
    refine obj?_setObj_of_ne hq ?_ ho
    -- a private cell is no promise
    rintro rfl
    obtain ⟨a, ha, hac⟩ := hf.resolve
    obtain ⟨b, hb, hbc⟩ := hf.reject
    rcases hr with rfl | rfl | rfl
    · cases hf.holder.symm.trans hq
      cases hcls
    · cases ha.symm.trans hq
      rw [hac] at hcls
      cases hcls
    · cases hb.symm.trans hq
      rw [hbc] at hcls
      cases hcls
  | exception e => exact ho
  | queue jobs => exact ho
  | register h => exact @obj?_alloc_of_some vm _ _ _ ho
  | started future => exact obj?_promiseState_of_some ho

/-- A step settles a promise only where it is no promise of a guarded call, and pending. -/
theorem Micro.promise (hm : Micro P vm vm') {r : Ref} {o : Obj} {state : PromiseState}
    {already : Bool} (ho : vm.heap.obj? r = some o) (hcls : o.cls = .promise state already) :
    (∃ o', vm'.heap.obj? r = some o' ∧ o'.cls = .promise state already) ∨
      (∀ c, Guarded P vm c → r ≠ c.promise) ∧
        ∃ o' state' already', vm'.heap.obj? r = some o' ∧ o'.cls = .promise state' already' ∧
          (state = .pending ∨ state' = state) := by
  cases hm with
  | @counts h hobj hlen =>
    refine .inl ⟨o, ?_, hcls⟩
    show h.obj? r = some o
    rw [hobj, ho]
  | alloc hb => exact .inl ⟨o, obj?_alloc_of_some ho, hcls⟩
  | @write x q q' hq hx hlike =>
    by_cases hr : r = x
    · subst hr
      cases ho.symm.trans hq
      refine .inl ⟨q', obj?_setObj_eq hq q', ?_⟩
      rcases hlike with heq | ⟨harr, -⟩
      · exact heq.trans hcls
      · rw [hcls] at harr
        cases harr
    · exact .inl ⟨o, obj?_setObj_of_ne hq hr ho, hcls⟩
  | @settle x q q' st st' al al' hq hqcls hx hcls' hst =>
    by_cases hr : r = x
    · subst hr
      cases ho.symm.trans hq
      rw [hcls] at hqcls
      cases hqcls
      exact .inr ⟨hx, q', st', al', obj?_setObj_eq hq q', hcls', hst⟩
    · exact .inl ⟨o, obj?_setObj_of_ne hq hr ho, hcls⟩
  | exception e => exact .inl ⟨o, ho, hcls⟩
  | queue jobs => exact .inl ⟨o, ho, hcls⟩
  | register h => exact .inl ⟨o, @obj?_alloc_of_some vm _ _ _ ho, hcls⟩
  | started future => exact .inl ⟨o, obj?_promiseState_of_some ho, hcls⟩

/-- The promise of a guarded call is left as it is. -/
theorem Micro.guardedPromise (hm : Micro P vm vm') {c : AsyncCall} (hc : Guarded P vm c) {o : Obj}
    {state : PromiseState} {already : Bool} (ho : vm.heap.obj? c.promise = some o)
    (hcls : o.cls = .promise state already) :
    ∃ o', vm'.heap.obj? c.promise = some o' ∧ o'.cls = .promise state already := by
  rcases hm.promise ho hcls with h | ⟨hne, -⟩
  · exact h
  · exact absurd rfl (hne c hc)

/-- One step keeps the calls it leaves alone in flight. -/
theorem InFlight.micro {c : AsyncCall} (hf : InFlight vm.heap c) (hm : Micro P vm vm')
    (hc : Guarded P vm c) : InFlight vm'.heap c := by
  refine hf.of_obj (fun r o hr ho => hm.private hc hf hr ho)
    (fun o state already ho hcls => hm.guardedPromise hc ho hcls) fun r o ho hres => ?_
  rcases hm.resolves ho hres with h | ⟨-, hne⟩ | ⟨hp, -⟩
  · exact h
  · exact absurd rfl (hne c hc)
  · have hlt : c.holder + 3 < vm.heap.length := hf.reject_lt
    unfold AsyncCall.promise at hp
    grind

/-- The cells of a call that starts. -/
theorem inFlight_startCall
    (hin : ∀ r o p, vm.heap.obj? r = some o → o.Resolves p → p < vm.heap.length) (future : ℕ) :
    InFlight (startCall future vm).heap (.start future vm.heap.length) := by
  refine ⟨?_,
    ⟨.fresh (.function (.resolving (vm.heap.length + 1) false)) functionPrototype, ?_, rfl⟩,
    ⟨.fresh (.function (.resolving (vm.heap.length + 1) true)) functionPrototype, ?_, rfl⟩,
    ⟨.fresh (.promise .pending false) promisePrototype, false, ?_, rfl⟩, fun r o ho hres => ?_⟩
  · exact (obj?_promiseState vm _).trans (if_pos rfl)
  · show (promiseState vm).heap.obj? (vm.heap.length + 2) = _
    simp [obj?_promiseState, obj?_promiseCells]
  · show (promiseState vm).heap.obj? (vm.heap.length + 3) = _
    simp [obj?_promiseState, obj?_promiseCells]
  · show (promiseState vm).heap.obj? (vm.heap.length + 1) = _
    simp [obj?_promiseState, obj?_promiseCells]
  · rcases resolves_promiseState ho hres with ⟨-, hr⟩ | hold
    · exact .inr hr
    · have hlt : vm.heap.length + 1 < vm.heap.length := hin r o _ hold hres
      omega

/-- A waiting call of a later state is an old one, or one that has just started. -/
theorem Micro.guarded (hm : Micro P vm vm') {c : AsyncCall} (hc : Guarded P vm' c) :
    Guarded P vm c ∨ ∃ future, vm' = startCall future vm ∧ c = .start future vm.heap.length := by
  obtain ⟨hmem, hw, hp⟩ := hc
  rcases hm.calls with heq | ⟨future, rfl⟩
  · exact .inl ⟨heq ▸ hmem, hw, hp⟩
  · rcases List.mem_append.1 hmem with hold | hnew
    · exact .inl ⟨hold, hw, hp⟩
    · exact .inr ⟨future, rfl, List.mem_singleton.1 hnew⟩

/-- One step keeps the guard. -/
theorem Guards.micro (hg : Guards P vm) (hm : Micro P vm vm') : Guards P vm' := by
  have hlen := hm.length_le
  refine ⟨fun c hc => ?_, fun d hd => ?_, ?_, fun r o p ho hres => ?_⟩
  · rcases hm.guarded hc with hold | ⟨future, rfl, rfl⟩
    · exact (hg.inFlight c hold).micro hm hold
    · exact inFlight_startCall hg.inHeap future
  · rcases hm.calls with heq | ⟨future, rfl⟩
    · exact lt_of_lt_of_le (hg.bound d (heq ▸ hd)) hlen
    · rcases List.mem_append.1 hd with hold | hnew
      · exact lt_of_lt_of_le (hg.bound d hold) hlen
      · rw [List.mem_singleton.1 hnew]
        exact (inFlight_startCall hg.inHeap future).reject_lt
  · rcases hm.calls with heq | ⟨future, rfl⟩
    · rw [heq]
      exact hg.apart
    · refine List.pairwise_append.2 ⟨hg.apart, List.pairwise_singleton _ _, fun c hc d hd => ?_⟩
      rw [List.mem_singleton.1 hd]
      exact hg.bound c hc
  · rcases hm.resolves ho hres with ⟨o', ho', hres'⟩ | ⟨hp, -⟩ | ⟨rfl, future, rfl⟩
    · exact lt_of_lt_of_le (hg.inHeap r o' p ho' hres') hlen
    · exact lt_of_lt_of_le hp hlen
    · simp [startCall]

/-- The cells of a guarded call stay as they are over any number of steps. -/
theorem Guards.evolves (hg : Guards P vm) (he : Evolves P vm vm') : Guards P vm' := by
  induction he with
  | refl => exact hg
  | tail _ hm ih => exact ih.micro hm

/-- A guarded call stays guarded, and its promise as it is. -/
theorem Evolves.guarded (he : Evolves P vm vm') {c : AsyncCall} (hc : Guarded P vm c) :
    Guarded P vm' c := by
  induction he with
  | refl => exact hc
  | tail _ hm ih =>
    obtain ⟨hmem, hw, hp⟩ := ih
    refine ⟨?_, hw, hp⟩
    rcases hm.calls with heq | ⟨future, rfl⟩
    · rwa [heq]
    · exact List.mem_append_left _ hmem

/-- The promise of a guarded call is neither settled nor flagged by the steps. -/
theorem Evolves.guardedPromise (he : Evolves P vm vm') {c : AsyncCall} (hc : Guarded P vm c)
    {o : Obj} {state : PromiseState} {already : Bool} (ho : vm.heap.obj? c.promise = some o)
    (hcls : o.cls = .promise state already) :
    ∃ o', vm'.heap.obj? c.promise = some o' ∧ o'.cls = .promise state already := by
  induction he with
  | refl => exact ⟨o, ho, hcls⟩
  | tail hab hm ih =>
    obtain ⟨o', ho', hcls'⟩ := ih
    exact hm.guardedPromise (Evolves.guarded hab hc) ho' hcls'

/-- A settled promise stays settled. -/
theorem Evolves.settled (he : Evolves P vm vm') {r : Ref} {o : Obj} {state : PromiseState}
    {already : Bool} (ho : vm.heap.obj? r = some o) (hcls : o.cls = .promise state already)
    (hst : state ≠ .pending) :
    ∃ o' already', vm'.heap.obj? r = some o' ∧ o'.cls = .promise state already' := by
  induction he with
  | refl => exact ⟨o, already, ho, hcls⟩
  | tail _ hm ih =>
    obtain ⟨o₁, al₁, ho₁, hcls₁⟩ := ih
    rcases hm.promise ho₁ hcls₁ with ⟨o₂, ho₂, hcls₂⟩ | ⟨-, o₂, st₂, al₂, ho₂, hcls₂, hor⟩
    · exact ⟨o₂, al₁, ho₂, hcls₂⟩
    · rcases hor with hpend | rfl
      · exact absurd hpend hst
      · exact ⟨o₂, al₂, ho₂, hcls₂⟩

/-- Fewer guarded calls. -/
theorem Guarded.mono {Q : AsyncCall → Prop} (h : ∀ c, Q c → P c) {c : AsyncCall}
    (hc : Guarded Q vm c) : Guarded P vm c := ⟨hc.1, hc.2.1, h c hc.2.2⟩

/-- Fewer calls are guarded. -/
theorem Guards.mono {Q : AsyncCall → Prop} (h : ∀ c, Q c → P c) (hg : Guards P vm) : Guards Q vm :=
  ⟨fun c hc => hg.inFlight c (hc.mono h), hg.bound, hg.apart, hg.inHeap⟩

/-- A step that leaves more calls alone leaves these alone. -/
theorem Micro.mono {Q : AsyncCall → Prop} (h : ∀ c, Q c → P c) (hm : Micro P vm vm') :
    Micro Q vm vm' := by
  cases hm with
  | counts hobj hlen => exact .counts hobj hlen
  | alloc hb =>
    refine .alloc fun o p heq hres => ?_
    obtain ⟨hp, hne⟩ := hb o p heq hres
    exact ⟨hp, fun c hc => hne c (hc.mono h)⟩
  | write ho hr hlike => exact .write ho (fun c hc => hr c (hc.mono h)) hlike
  | settle ho hcls hr hcls' hst =>
    exact .settle ho hcls (fun c hc => hr c (hc.mono h)) hcls' hst
  | exception e => exact .exception vm e
  | queue jobs => exact .queue vm jobs
  | register h => exact .register vm h
  | started future => exact .started vm future

/-- The same of any number of steps. -/
theorem Evolves.mono {Q : AsyncCall → Prop} (h : ∀ c, Q c → P c) (he : Evolves P vm vm') :
    Evolves Q vm vm' := by
  induction he with
  | refl => exact .refl
  | tail _ hm ih => exact ih.tail (hm.mono h)

/-- A value that is no private cell of a waiting call with `P`, now and later. -/
def Outside (P : AsyncCall → Prop) (vm : VM) : JSValue → Prop
  | .object r => Clear P vm r ∧ (r < vm.heap.length ∨ ∀ c, ¬ P c)
  | _ => True

/-- A value outside of the guarded calls stays outside. -/
theorem Outside.micro {v : JSValue} (h : Outside P vm v) (hm : Micro P vm vm') :
    Outside P vm' v := by
  cases v with
  | object r =>
    obtain ⟨hclear, hr⟩ := h
    refine ⟨fun c hc hpriv => ?_, hr.imp_left fun hlt => lt_of_lt_of_le hlt hm.length_le⟩
    rcases hm.guarded hc with hold | ⟨future, -, rfl⟩
    · exact hclear c hold hpriv
    · rcases hr with hlt | hnone
      · unfold AsyncCall.Private AsyncCall.resolve AsyncCall.reject AsyncCall.start at hpriv
        grind
      · exact hnone _ hc.2.2
  | _ => exact trivial

/-- The same after any number of steps. -/
theorem Outside.evolves {v : JSValue} (h : Outside P vm v) (he : Evolves P vm vm') :
    Outside P vm' v := by
  induction he with
  | refl => exact h
  | tail _ hm ih => exact ih.micro hm

/-- A cell behind the end of the heap belongs to no call. -/
theorem Guards.clear (hg : Guards P vm) {r : Ref} (hr : vm.heap.length ≤ r) : Clear P vm r := by
  intro c hc hpriv
  have hlt : c.holder + 3 < vm.heap.length := hg.bound c hc.1
  unfold AsyncCall.Private AsyncCall.resolve AsyncCall.reject at hpriv
  rcases hpriv with rfl | rfl | rfl <;> grind

/-- A new cell is no promise that is waited for. -/
theorem Guards.ne_promise (hg : Guards P vm) {r : Ref} (hr : vm.heap.length ≤ r) :
    ∀ c, Guarded P vm c → r ≠ c.promise := by
  intro c hc heq
  have hlt : c.holder + 3 < vm.heap.length := hg.bound c hc.1
  unfold AsyncCall.promise at heq
  grind

end

/-! ## Computations -/

section

variable {ε α β : Type} {P : AsyncCall → Prop}

/-- The computation is made of steps that leave the waiting calls with `P` alone. -/
def Moves (P : AsyncCall → Prop) (act : EStateM ε VM α) : Prop :=
  ∀ vm, Guards P vm → Evolves P vm (endState (act vm))

/-- What a computation that returns did. -/
theorem evolves_of_ok {act : EStateM ε VM α} {vm vm' : VM} {a : α}
    (h : Evolves P vm (endState (act vm))) (hrun : act vm = .ok a vm') : Evolves P vm vm' := by
  rwa [hrun] at h

/-- What a computation that throws did. -/
theorem evolves_of_error {act : EStateM ε VM α} {vm vm' : VM} {e : ε}
    (h : Evolves P vm (endState (act vm))) (hrun : act vm = .error e vm') : Evolves P vm vm' := by
  rwa [hrun] at h

/-- A value at hand. -/
theorem moves_pure (a : α) : Moves P (pure a : EStateM ε VM α) := fun _ _ => .refl

/-- An exception at hand. -/
theorem moves_throw (e : ε) : Moves P (throw e : EStateM ε VM α) := fun _ _ => .refl

/-- One computation after the other. -/
theorem evolves_bind {x : EStateM ε VM α} {f : α → EStateM ε VM β} {vm : VM}
    (hx : Evolves P vm (endState (x vm)))
    (hf : ∀ a vm', x vm = .ok a vm' → Evolves P vm vm' → Evolves P vm' (endState (f a vm'))) :
    Evolves P vm (endState ((x >>= f) vm)) := by
  cases hrun : x vm with
  | ok a vm₁ =>
    have he := evolves_of_ok hx hrun
    rw [bind_of_ok hrun]
    exact he.trans (hf a vm₁ hrun he)
  | error e vm₁ =>
    rw [bind_of_error hrun]
    exact evolves_of_error hx hrun

/-- One computation after the other. -/
theorem Moves.bind {x : EStateM ε VM α} {f : α → EStateM ε VM β} (hx : Moves P x)
    (hf : ∀ a, Moves P (f a)) : Moves P (x >>= f) := fun vm hg =>
  evolves_bind (hx vm hg) fun a vm' _ he => hf a vm' (hg.evolves he)

/-- A call from Dart into C. -/
theorem Evolves.ffi {dflt : α} {op : JS α} {vm vm₁ : VM} (h : Evolves P vm (endState (op vm₁))) :
    Evolves P vm (endState (ffi dflt op vm₁)) := by
  unfold QuickjsDart.ffi
  cases hrun : op vm₁ with
  | ok a vm₂ => rwa [hrun] at h
  | error e vm₂ =>
    rw [hrun] at h
    cases e with
    | crash => exact h
    | error m => exact h.tail (.exception vm₂ _)
    | value v => exact h.tail (.exception vm₂ _)

end

/-! ## QuickJS -/

section

variable {P : AsyncCall → Prop} {vm : VM}

/-- `JS_DupValue` changes a count. -/
theorem evolves_dup (vm : VM) (v : JSValue) : Evolves P vm (vm.dup v) :=
  .single (.counts (funext fun _ => Heap.obj?_dupValue _ _ _) (Heap.length_dupValue _ _))

/-- `JS_FreeValue` changes counts. -/
theorem evolves_free (vm : VM) (v : JSValue) : Evolves P vm (vm.free v) :=
  .single (.counts (funext fun _ => Heap.obj?_freeValue _ _ _) (Heap.length_freeValue _ _))

/-- References of the engine are released one by one. -/
theorem evolves_release (vm : VM) (rs : List Ref) :
    Evolves P vm (vm.mapHeap fun h => Memory.release Body.refs rs h) := by
  refine .single (.counts (funext fun x => ?_) (by simp))
  unfold Heap.obj?
  simp

/-- A cell that is no resolving function. -/
theorem evolves_alloc (vm : VM) {b : Body} (hb : ∀ o p, b = .obj o → ¬ o.Resolves p) :
    Evolves P vm (vm.alloc b) := .single (.alloc fun o p heq hres => absurd hres (hb o p heq))

/-- A cell that is no object. -/
theorem evolves_allocLeaf (vm : VM) : Evolves P vm (vm.alloc .leaf) :=
  evolves_alloc vm fun _ _ h => by cases h

/-- A write that keeps the class. -/
theorem evolves_setObj {r : Ref} {o o' : Obj} (ho : vm.heap.obj? r = some o) (hr : Clear P vm r)
    (hlike : o.cls.Like o'.cls) : Evolves P vm (vm.setObj r o') :=
  .single (.write ho hr hlike)

/-- What code outside the bridge does: it leaves the waiting calls with `P` alone. -/
structure Env.Confined (env : Env) (P : AsyncCall → Prop) : Prop where
  call : ∀ f this args, Moves P (env.call f this args)
  handler : ∀ h this args, Moves P (env.handler h this args)
  runJob : ∀ job, Moves P (env.runJob job)
  getExotic : ∀ r key this, Moves P (env.getExotic r key this)
  setExotic : ∀ r key v this, Moves P (env.setExotic r key v this)
  defineExotic : ∀ r key v flags, Moves P (env.defineExotic r key v flags)
  keysExotic : ∀ r, Moves P (env.keysExotic r)
  isArrayExotic : ∀ r, Moves P (env.isArrayExotic r)
  toNumber : ∀ v, Moves P (env.toNumber v)

/-- A class is like itself. -/
theorem ObjClass.Like.refl (cls : ObjClass) : cls.Like cls := .inl rfl

/-- An array stays an array. -/
theorem ObjClass.Like.like_grow (cls : ObjClass) (key : PropKey) : cls.Like (cls.grow key) := by
  cases cls with
  | array len =>
    refine .inr ⟨rfl, ?_⟩
    unfold ObjClass.grow
    cases key.arrayIndex <;> rfl
  | _ => exact .inl rfl

/-- A property makes an array longer at most. -/
theorem Obj.like_putOwn (o : Obj) (key : PropKey) (slot : Slot) :
    o.cls.Like (o.putOwn key slot).cls := by
  show o.cls.Like (o.clsWith key)
  rcases o.clsWith_cases key with h | h
  · rw [h]
    exact .refl _
  · rw [h]
    exact .like_grow _ key

/-- The references of a shape are duplicated. -/
theorem evolves_dupRefs (vm : VM) (rs : List Ref) : Evolves P vm (vm.dupRefs rs) := by
  induction rs generalizing vm with
  | nil => exact .refl
  | cons r rs ih => exact (evolves_dup vm _).trans (ih _)

/-- The waiting calls are not in the heap. -/
theorem calls_dupRefs (vm : VM) (rs : List Ref) : (vm.dupRefs rs).calls = vm.calls := by
  induction rs generalizing vm with
  | nil => rfl
  | cons r rs ih => exact ih _

/-- A new prototype. -/
theorem evolves_setProto {r : Ref} {o : Obj} (ho : vm.heap.obj? r = some o) (hr : Clear P vm r)
    (proto : Option Ref) : Evolves P vm (vm.setProto r o proto) := by
  have ho' : (vm.dupRefs (shapeRefs proto)).heap.obj? r = some o := by rw [VM.obj?_dupRefs, ho]
  have hr' : Clear P (vm.dupRefs (shapeRefs proto)) r := by
    intro c hc
    refine hr c ⟨?_, hc.2⟩
    rw [← calls_dupRefs vm (shapeRefs proto)]
    exact hc.1
  have hset : Evolves P (vm.dupRefs (shapeRefs proto))
      ((vm.dupRefs (shapeRefs proto)).setObj r { o with proto := proto }) :=
    evolves_setObj ho' hr' (.refl _)
  exact ((evolves_dupRefs vm _).trans hset).trans (evolves_release _ _)

variable {env : Env}

/-! ## Promises -/

/-- A new object that resolves no promise. -/
theorem evolves_allocFresh (vm : VM) {cls : ObjClass} {proto : Ref}
    (h : ∀ q b, cls ≠ .function (.resolving q b)) :
    Evolves P vm (vm.alloc (.obj (.fresh cls proto))) := by
  refine evolves_alloc vm fun o p heq => ?_
  cases heq
  rintro ⟨b, hb⟩
  exact h p b hb

/-- The holder resolves nothing. -/
theorem evolves_allocHolder (vm : VM) :
    Evolves P vm (vm.alloc (.obj (holderObj .undefined .undefined .undefined))) := by
  refine evolves_alloc vm fun o p heq => ?_
  cases heq
  rintro ⟨b, hb⟩
  cases hb

/-- `createPromise` works on new cells. -/
theorem moves_createPromise : Moves P createPromise := by
  intro vm hg
  rw [createPromise_eq]
  have hfun : ∀ (vm' : VM) (isReject : Bool), vm'.calls = vm.calls →
      vm.heap.length + 1 < vm'.heap.length → Evolves P vm' (vm'.alloc
        (.obj (.fresh (.function (.resolving (vm.heap.length + 1) isReject))
          functionPrototype))) := by
    intro vm' isReject hcalls hlt
    refine .single (.alloc fun o p heq hres => ?_)
    cases heq
    obtain ⟨b, hb⟩ := hres
    cases hb
    refine ⟨hlt, fun c hc => hg.ne_promise (Nat.le_succ _) c ?_⟩
    unfold Guarded at hc ⊢
    rwa [hcalls] at hc
  have hcells : Evolves P vm (promiseCells vm) := by
    refine .trans (.trans (.trans (evolves_allocHolder vm)
      (evolves_allocFresh _ fun _ _ h => by cases h)) (evolves_dup _ _))
      (.trans (.trans (hfun _ false rfl ?_) (evolves_dup _ _)) (hfun _ true rfl ?_))
    · simp
    · simp
  refine hcells.trans (evolves_setObj (obj?_promiseCells_holder vm) ?_ (.refl _))
  exact hg.clear le_rfl

/-- A promise that nobody waits for is settled, and its reactions queued. -/
theorem evolves_fulfillOrReject {promise : Ref} (hp : ∀ c, Guarded P vm c → promise ≠ c.promise)
    (v : JSValue) (isReject : Bool) :
    Evolves P vm (fulfillOrRejectPromise promise v isReject vm) := by
  unfold fulfillOrRejectPromise
  cases ho : vm.heap.obj? promise with
  | none => exact .refl
  | some o =>
    dsimp only
    cases hcls : o.cls with
    | promise state already =>
      cases state with
      | pending =>
        have hdup : (vm.dup v).heap.obj? promise = some o := by rw [VM.obj?_dup, ho]
        exact ((evolves_dup vm v).tail (.settle hdup hcls hp rfl (.inl rfl))).tail (.queue _ _)
      | _ => exact .refl
    | _ => exact .refl

/-- An error text becomes a new error object. -/
theorem evolves_getException (e : JSFault) (vm : VM) : Evolves P vm (jsGetException e vm).2 := by
  cases e with
  | value v => exact .refl
  | _ => exact evolves_allocFresh vm fun _ _ h => by cases h

/-- The promise of no waiting call with `P`, now and later. -/
def Foreign (P : AsyncCall → Prop) (vm : VM) (p : Ref) : Prop :=
  p < vm.heap.length ∧ ∀ c, Guarded P vm c → p ≠ c.promise

/-- A promise that nobody waits for stays one: a new call waits for a new promise. -/
theorem Foreign.micro {vm' : VM} {p : Ref} (h : Foreign P vm p) (hm : Micro P vm vm') :
    Foreign P vm' p := by
  refine ⟨lt_of_lt_of_le h.1 hm.length_le, fun c hc => ?_⟩
  rcases hm.guarded hc with hold | ⟨future, -, rfl⟩
  · exact h.2 c hold
  · exact (Nat.lt_add_right 1 h.1).ne

/-- The same after any number of steps. -/
theorem Foreign.evolves {vm' : VM} {p : Ref} (h : Foreign P vm p) (he : Evolves P vm vm') :
    Foreign P vm' p := by
  induction he with
  | refl => exact h
  | tail _ hm ih => exact ih.micro hm

/-- A settled promise takes a step of its own; the flag of its functions another. -/
theorem Foreign.flag {p : Ref} {o : Obj} {state : PromiseState} (h : Foreign P vm p)
    (ho : vm.heap.obj? p = some o) (hcls : o.cls = .promise state false) :
    Evolves P vm (vm.setObj p { o with cls := .promise state true }) :=
  .single (.settle ho hcls h.2 rfl (.inr rfl))

/-- Elements of an array are deleted, whose references are given up. -/
theorem evolves_cutObj {r : Ref} {o : Obj} {oldLen : ℕ} (ho : vm.heap.obj? r = some o)
    (hr : Clear P vm r) (hcls : o.cls = .array oldLen) (len : ℕ) (gone : PropKey → Bool) :
    Evolves P vm (vm.cutObj r o len gone) :=
  (evolves_setObj ho hr (.inr ⟨by rw [hcls]; rfl, rfl⟩)).trans (evolves_release _ _)

/-! ## Whatever code does -/

section

/-- What a state is after steps. -/
def evolutionLedger (P : AsyncCall → Prop) : Ledger where
  Good _ vm := Guards P vm
  To _ vm _ vm' := Evolves P vm vm'
  Lost := Evolves P
  drop _ _ := .refl
  trans := ReflTransGen.trans
  good hg he := hg.evolves he
  release _ := evolves_release _ _
  lost he := he
  lost_trans := ReflTransGen.trans
  lost_free := evolves_free

/-- Code that takes steps keeps the ledger. -/
theorem ends_of_evolves {α : Type} {start own : List Ref} {refs : α → List Ref}
    {res : EStateM.Result JSFault VM α} (h : Evolves P vm (endState res)) :
    (evolutionLedger P).Ends start own refs vm res := Ledger.ends_of_lost (fun he => he) h

/-- A value that refers to nothing is outside. -/
theorem outside_of_refs {v : JSValue} (hv : v.refs = []) : Outside P vm v := by
  cases v with
  | object r => cases hv
  | _ => trivial

/-- Reads. -/
def evolutionReading (henv : env.Confined P) : Reading env where
  toLedger := evolutionLedger P
  Target := Outside P
  Given _ _ := True
  Cell _ _ := True
  scalar := outside_of_refs
  given _ := trivial
  cell _ _ := trivial
  owned _ _ := trivial
  primitive _ _ := trivial
  proto _ _ _ _ := trivial
  slot _ _ _ _ _ := trivial
  dup _ _ := evolves_dup _ _
  leaf _ := evolves_allocLeaf _
  setProto _ hthis _ ho _ _ _ := evolves_setProto ho hthis.1 _
  call hg _ _ _ := ends_of_evolves (henv.call _ _ _ _ hg)
  pend _ := .single (.exception _ _)
  getExotic hg _ _ := ends_of_evolves (henv.getExotic _ _ _ _ hg)

/-- Everything else. -/
def evolution (henv : env.Confined P) : Registry env where
  toReading := evolutionReading henv
  Held _ := Outside P
  Callee _ := Outside P
  Key _ := True
  Prom _ := Foreign P
  held hv he _ := hv.evolves he
  scalarHeld := outside_of_refs
  target _ hv := hv
  cut _ _ hr ho hcls _ := evolves_cutObj ho hr.1 hcls _ _
  add _ hr _ ho _ _ := evolves_setObj ho hr.1 (Obj.like_putOwn _ _ _)
  assign _ hr ho _ _ := evolves_setObj ho hr.1 (Obj.like_putOwn _ _ _)
  setExotic _ hg _ _ _ := ends_of_evolves (henv.setExotic _ _ _ _ _ hg)
  toNumber hg _ := ends_of_evolves (henv.toNumber _ _ hg)
  error _ := evolves_allocFresh _ fun _ _ h => by cases h
  callee _ _ := trivial
  promOf {own vm r o p isReject} hg hf ho hcls :=
    -- whoever resolves the promise of a call is private to it
    ⟨hg.inHeap r o p ho ⟨isReject, hcls⟩, fun c hc heq =>
      hf.1 c hc ((hg.inFlight c hc).only r o ho ⟨isReject, heq ▸ hcls⟩)⟩
  promKept hp _ hcalls _ hlen := ⟨lt_of_lt_of_le hp.1 hlen, fun c hc =>
    hp.2 c ⟨hcalls ▸ hc.1, hc.2⟩⟩
  promRead key hg hthis hp :=
    hp.evolves ((evolutionReading henv).jsGetProperty hg hthis key).lost
  flag hg hp ho hcls := ⟨hp.flag ho hcls, hp.evolves (hp.flag ho hcls)⟩
  settle isReject _ hp _ := evolves_fulfillOrReject hp.2 _ isReject
  thenable _ _ _ := ((((evolves_dup _ _).trans (evolves_dup _ _)).trans
    (evolves_dup _ _)).tail (.queue _ _)).trans (evolves_free _ _)
  createPromise hg := ends_of_evolves (moves_createPromise _ hg)
  handler {own vm h this args} hg _ _ := by
    have he := henv.handler h this args vm hg
    exact ⟨fun v vm' hrun => evolves_of_ok he hrun, he⟩
  raise _ := ends_of_evolves (.single (.exception _ none))
  anyCell _ _ := trivial
  anyGood hg := hg
  anyHeld hv := hv
  found he := he
  givenKept _ _ := trivial
  newString _ _ := trivial
  keyOfName _ := trivial
  keyOfText _ := trivial
  fresh {own vm cls proto} hg hcls _ := by
    have he : Evolves P vm (vm.alloc (.obj (.fresh cls proto))) :=
      evolves_allocFresh vm fun _ _ h => by rw [h] at hcls; cases hcls
    have hclear : Clear P vm vm.heap.length := hg.clear le_rfl
    exact ⟨he, hclear, .inl (by simp)⟩
  redefine _ _ hr ho _ _ := evolves_setObj ho hr.1 (Obj.like_putOwn _ _ _)
  defineExotic _ _ _ hg _ := ends_of_evolves (henv.defineExotic _ _ _ _ _ hg)
  register _ := ⟨.single (.register _ _), trivial⟩

/-- A call of a function of a promise, which may be gone. -/
theorem evolves_resolveFunctionCall (henv : env.Confined P) (hg : Guards P vm) {promise : Ref}
    (hp : ∀ c, Guarded P vm c → promise ≠ c.promise) (isReject : Bool) {args : List JSValue}
    (hargs : ∀ v ∈ args, Outside P vm v) :
    Evolves P vm (endState (resolveFunctionCall env promise isReject args vm)) := by
  cases ho : vm.heap.obj? promise with
  | none =>
    unfold resolveFunctionCall
    rw [ho]
    exact .refl
  | some o =>
    have hforeign : Foreign P vm promise := ⟨Heap.lt_length_of_obj? ho, hp⟩
    exact ((evolution henv).resolveFunctionCall (show (evolution henv).Good [] vm from hg) hforeign
      isReject hargs).lost

/-- A loop of a conversion. -/
theorem evolves_setElements (henv : env.Confined P) (hg : Guards P vm) {jsArray : JSValue}
    (ha : Outside P vm jsArray) (elems : List DartVal) :
    Evolves P vm (endState (setElements env jsArray 0 elems vm)) :=
  (((evolution henv).conversion []).setElements 0 elems hg fun _ => ha).endState

/-- The loop over the entries of a map. -/
theorem evolves_setEntries (henv : env.Confined P) (hg : Guards P vm) {jsObj : JSValue}
    (ho : Outside P vm jsObj) (entries : List (Option Utf16 × DartVal)) :
    Evolves P vm (endState (setEntries env jsObj entries vm)) :=
  (((evolution henv).conversion []).setEntries entries hg fun _ => ho).endState

/-- `toJSVal`, also where it throws midway. -/
theorem moves_toJSVal (henv : env.Confined P) (x : DartVal) : Moves P (toJSVal env x) := fun _ hg =>
  (((evolution henv).conversion []).toJSVal x hg).endState

end

end

end QuickjsDart
