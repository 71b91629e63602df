import QuickjsDart.Collector

/-!
# Collections in a program

A runtime of the bridge never collects by itself: `newRuntime` sets the threshold to the largest
size, so that `runGC` is the only way to the collector. This module is about programs that call it:
between any operations on handles (`ProgramRun`), and while they free their handles (`Teardown`).

The heaps are those of the collector: objects that refer to one another by properties, prototypes
and the data of their classes. Where a `WeakMap` or a `WeakSet` has records the results of this
module fail, since an object that dies takes the records with it of which it is the key, and the
collector does not free the values of those.
-/

namespace QuickjsDart

section

variable {h h' : Heap} {l : List Ref} {own : Ref → ℕ}

/-! ## Collections in a program -/

section

variable {ctx own : List Ref} {env : Env} {vm vm' : VM} {hs hs' : List JSValue}

/-- A collection keeps the account, since nothing that is owned is freed. -/
theorem Accounts.runGC {l : List Ref} {g : Collector} (h : Accounts ctx vm own)
    (hl : GcObjList vm.heap l) (hrun : jsRunGC vm.heap l = some g) :
    Accounts ctx { vm with heap := g.heap } own := by
  obtain ⟨g', hg', hcollected⟩ := collected_jsRunGC hl (Memory.Owned.counted h)
  cases hrun.symm.trans hg'
  exact hcollected.counted.owned.mono fun r _ => Memory.Owned.le_outside h r

variable (env) in
/-- A step of a program: an operation on its handles, or `runGC`. -/
inductive ProgramStep : VM × List JSValue → Option HandleOp → VM × List JSValue → Prop
  | op {s s' : VM × List JSValue} {op : HandleOp} (hstep : HandleStep env s op s') :
      ProgramStep s (some op) s'
  | runGC {vm : VM} {hs : List JSValue} {l : List Ref} {g : Collector} (hl : GcObjList vm.heap l)
      (hrun : jsRunGC vm.heap l = some g) :
      ProgramStep (vm, hs) none ({ vm with heap := g.heap }, hs)

variable (env) in
/-- One step after the other. -/
inductive ProgramRun : VM × List JSValue → List (Option HandleOp) → VM × List JSValue → Prop
  | nil {s : VM × List JSValue} : ProgramRun s [] s
  | cons {s s₁ s₂ : VM × List JSValue} {op : Option HandleOp} {ops : List (Option HandleOp)}
      (hstep : ProgramStep env s op s₁) (hrest : ProgramRun s₁ ops s₂) : ProgramRun s (op :: ops) s₂

/-- A careful program keeps the account over any run. -/
theorem ProgramRun.accounts (henv : env.Balanced ctx) {s s' : VM × List JSValue}
    {ops : List (Option HandleOp)} (hrun : ProgramRun env s ops s')
    (hcareful : ∀ op, some op ∈ ops → op.Careful) (h : Accounts ctx s.1 (handleRefs s.2)) :
    Accounts ctx s'.1 (handleRefs s'.2) := by
  induction hrun with
  | nil => exact h
  | cons hstep hrest ih =>
    refine ih (fun op hop => hcareful op (List.mem_cons_of_mem _ hop)) ?_
    cases hstep with
    | op hstep => exact hstep.accounts henv (hcareful _ List.mem_cons_self) h
    | runGC hl hrun => exact h.runGC hl hrun

/-- What is reached from the handles of a program. -/
def HandleReach (vm : VM) (hs : List JSValue) : Ref → Prop :=
  Memory.Reach Body.refs vm.heap fun r => (handleRefs hs).count r

/-- What handles reach is reached from outside of the heap. -/
theorem HandleReach.outside (h : Accounts ctx vm (handleRefs hs)) {r : Ref}
    (hr : HandleReach vm hs r) :
    Memory.Reach Body.refs vm.heap (Memory.outside Body.refs vm.heap) r := by
  refine Memory.Reach.mono (fun x => ?_) hr
  have hle := Memory.Owned.le_outside h x
  rw [List.count_append] at hle
  omega

/-- **Collections are safe at any point.** In every state of a run of operations and collections in
which the setters that do not duplicate are given values that are not reference counted, what the
handles reach is live. A collection there does not fail, and keeps all of it as it is. -/
theorem collections_keep_reached (henv : env.Balanced ctx) {ops : List (Option HandleOp)}
    (hstart : Accounts ctx vm (handleRefs hs)) (hcareful : ∀ op, some op ∈ ops → op.Careful)
    (hrun : ProgramRun env (vm, hs) ops (vm', hs')) :
    HandlesCovered vm' hs' ∧ (∀ r, HandleReach vm' hs' r → 0 < Memory.count vm'.heap r) ∧
      ∀ l, GcObjList vm'.heap l → ∃ g, jsRunGC vm'.heap l = some g ∧
        ∀ r, HandleReach vm' hs' r → 0 < Memory.count g.heap r ∧ r ∉ g.freed ∧
          Memory.body? g.heap r = Memory.body? vm'.heap r := by
  have h : Accounts ctx vm' (handleRefs hs') := hrun.accounts henv hcareful hstart
  have hcounted := Memory.Owned.counted h
  refine ⟨h.handlesCovered, fun r hr => hcounted.pos_of_reach (hr.outside h), fun l hl => ?_⟩
  obtain ⟨g, hg, hcollected⟩ := collected_jsRunGC hl hcounted
  refine ⟨g, hg, fun r hr => ?_⟩
  have hreach := hr.outside h
  exact ⟨(hcollected.live r).2 hreach, fun hmem => ((hcollected.freed r).1 hmem).2 hreach,
    hcollected.body r⟩

/-- An object stored in another one, and its handle freed after a collection. -/
def storeCollectFree : List (Option HandleOp) :=
  [some (.make .object), some (.make .object),
    some (.setProperty (.object 9) (.string [0x78]) (.object 10) true), none,
    some (.free (.object 10))]

/-- The object lives on in its slot. -/
theorem collections_keep_reached_setProperty :
    Env.bare.Balanced fixedRefs ∧ Accounts fixedRefs VM.bare [] ∧ ∃ vm' hs',
      ProgramRun Env.bare (VM.bare, []) storeCollectFree (vm', hs') ∧
      HandlesCovered vm' hs' ∧ HandleReach vm' hs' 10 ∧ 0 < Memory.count vm'.heap 10 := by
  have hrun : ∃ vm' hs', ProgramRun Env.bare (VM.bare, []) storeCollectFree (vm', hs') ∧
      0 < (handleRefs hs').count 9 ∧ 10 ∈ Memory.children Body.refs vm'.heap 9 := by
    refine ⟨_, _, .cons (.op (.returns ?_ rfl)) (.cons (.op (.returns ?_ rfl))
      (.cons (.op (.returns ?_ rfl)) (.cons (.runGC (gcObjList_range _) rfl)
        (.cons (.op (.returns ?_ rfl)) .nil)))), ?_, ?_⟩
    all_goals decide
  obtain ⟨vm', hs', hrun, hroot, hchild⟩ := hrun
  have hstart : Accounts fixedRefs VM.bare (handleRefs []) := accounts_bare
  have hcareful : ∀ op : HandleOp, some op ∈ storeCollectFree → op.Careful := by
    simp [storeCollectFree, HandleOp.Careful]
  obtain ⟨hcov, hlive, -⟩ := collections_keep_reached balanced_bare hstart hcareful hrun
  have hreach : HandleReach vm' hs' 10 := .step (.root hroot) hchild
  exact ⟨balanced_bare, accounts_bare, vm', hs', hrun, hcov, hreach, hlive 10 hreach⟩

end

/-! ## The order of frees and collections -/

/-- Handles freed one after the other, with collections in between. -/
inductive Teardown : Heap → List JSValue → Heap → Prop
  | nil {h : Heap} : Teardown h [] h
  | free {h h' : Heap} {v : JSValue} {vs : List JSValue} (hrest : Teardown (h.freeValue v) vs h') :
      Teardown h (v :: vs) h'
  | runGC {h h' : Heap} {l : List Ref} {g : Collector} {vs : List JSValue} (hl : GcObjList h l)
      (hrun : jsRunGC h l = some g) (hrest : Teardown g.heap vs h') : Teardown h vs h'

/-- Handles that are freed one by one leave what a teardown leaves. -/
theorem teardown_foldl (h : Heap) (vs : List JSValue) :
    Teardown h vs (vs.foldl Heap.freeValue h) := by
  induction vs generalizing h with
  | nil => exact .nil
  | cons v vs ih => exact .free (ih (h.freeValue v))

/-- One handle among the others. -/
theorem counted_handle {v : JSValue} {vs : List JSValue}
    (hc : Memory.Counted Body.refs h fun r => own r + (handleRefs (v :: vs)).count r) :
    Memory.Counted Body.refs h fun r => (own r + (handleRefs vs).count r) + v.refs.count r := by
  intro r
  rw [hc r]
  simp only [handleRefs, List.flatMap_cons, List.count_append]
  omega

/-- The account of a heap whose handles are freed: the owners that are left stay, and so do the
bodies. -/
theorem Teardown.counted {vs : List JSValue} (ht : Teardown h vs h')
    (hc : Memory.Counted Body.refs h fun r => own r + (handleRefs vs).count r) :
    Memory.Counted Body.refs h' own ∧ ∀ r, Memory.body? h' r = Memory.body? h r := by
  induction ht with
  | nil => exact ⟨fun r => by simpa [handleRefs] using hc r, fun _ => rfl⟩
  | free _ ih =>
    obtain ⟨hcounted, hbody⟩ := ih (Memory.Counted.release (counted_handle hc))
    exact ⟨hcounted, fun r => (hbody r).trans (Memory.body?_release _ _ _ r)⟩
  | runGC hl hrun _ ih =>
    obtain ⟨g', hg', hcollected⟩ := collected_jsRunGC hl hc
    cases hrun.symm.trans hg'
    obtain ⟨hcounted, hbody⟩ := ih hcollected.counted
    exact ⟨hcounted, fun r => (hbody r).trans (hcollected.body r)⟩

/-- A supported set does not depend on handles, so it outlives them. -/
theorem supported_foldl_freeValue {C : Ref → Prop} {vs : List JSValue}
    (hC : Memory.Supported Body.refs h C)
    (hc : Memory.Counted Body.refs h fun r => own r + (handleRefs vs).count r) :
    Memory.Supported Body.refs (vs.foldl Heap.freeValue h) C := by
  induction vs generalizing h with
  | nil => exact hC
  | cons v vs ih =>
    have hv := counted_handle hc
    exact ih (Memory.Supported.releaseFuel hC hv) (Memory.Counted.release hv)

/-- The owners that are left when handles were freed. -/
def Heap.ownersLeft (h : Heap) (vs : List JSValue) (r : Ref) : ℕ :=
  Memory.outside Body.refs h r - (handleRefs vs).count r

/-- The counts are exact for the handles that are freed and those that are left. -/
theorem Heap.Covers.counted_left {vs vs' : List JSValue} (hcov : h.Covers 0 (handleRefs vs))
    (hperm : vs.Perm vs') :
    Memory.Counted Body.refs h fun r => h.ownersLeft vs r + (handleRefs vs').count r := by
  intro r
  have hcount : (handleRefs vs).count r = (handleRefs vs').count r :=
    (hperm.flatMap_right JSValue.refs).count_eq r
  have hle := Memory.Owned.le_outside hcov r
  have hr := Memory.Owned.counted hcov r
  dsimp only [Heap.ownersLeft] at hle ⊢
  omega

/-- **The order does not matter.** In a heap without weak references, handles that own their
references may be freed in any order, with collections at any points in between: the heap after a
last collection is the same. -/
theorem teardown_collect_unique {vs vs' : List JSValue} {h₁ h₂ : Heap} {l₁ l₂ : List Ref}
    {g₁ g₂ : Collector} (hcov : h.Covers 0 (handleRefs vs)) (hperm : vs.Perm vs')
    (ht₁ : Teardown h vs h₁) (ht₂ : Teardown h vs' h₂) (hl₁ : GcObjList h₁ l₁)
    (hl₂ : GcObjList h₂ l₂) (hg₁ : jsRunGC h₁ l₁ = some g₁) (hg₂ : jsRunGC h₂ l₂ = some g₂) :
    g₁.heap = g₂.heap := by
  obtain ⟨hcounted₁, hbody₁⟩ := ht₁.counted (hcov.counted_left (.refl vs))
  obtain ⟨hcounted₂, hbody₂⟩ := ht₂.counted (hcov.counted_left hperm)
  obtain ⟨g, hg, hcollected₁⟩ := collected_jsRunGC hl₁ hcounted₁
  cases hg₁.symm.trans hg
  obtain ⟨g', hg', hcollected₂⟩ := collected_jsRunGC hl₂ hcounted₂
  cases hg₂.symm.trans hg'
  have hbody : ∀ r, Memory.body? g₁.heap r = Memory.body? g₂.heap r := by
    intro r
    rw [hcollected₁.body, hcollected₂.body, hbody₁, hbody₂]
  refine hcollected₂.counted.collected_ext hcollected₁.counted hbody (fun r => ?_) fun r => ?_
  · rw [hcollected₂.live, Memory.reach_congr hcollected₂.body]
  · rw [hcollected₁.live, ← Memory.reach_congr hcollected₁.body]
    exact Memory.reach_congr hbody r

/-- Two objects that refer to each other, with a handle each. -/
def ownedRing : Heap :=
  [⟨2, .obj ⟨.object, none, true, [(.index 0, .data (.object 1) .cwe)]⟩⟩,
    ⟨2, .obj ⟨.object, none, true, [(.index 0, .data (.object 0) .cwe)]⟩⟩]

/-- The counts of the ring cover its handles. -/
theorem covers_ownedRing : ownedRing.Covers 0 (handleRefs [.object 0, .object 1]) := by
  intro r _
  by_cases hr : r < 2
  · interval_cases r <;> decide
  · have hout : ∀ rs : List Ref, (∀ x ∈ rs, x < 2) → rs.count r = 0 :=
      fun rs hrs => List.count_eq_zero.2 fun hx => hr (hrs r hx)
    have h₀ := hout [0] (by decide)
    have h₁ := hout [1] (by decide)
    have h₂ := hout [0, 1] (by decide)
    rw [Memory.count_eq_zero_of_le (Nat.le_of_not_lt hr)]
    simp only [handleRefs, JSValue.refs, JSValue.ref?, List.flatMap_cons, List.flatMap_nil,
      Option.toList_some, List.singleton_append, List.append_nil, List.drop_zero]
    rw [h₂]
    simp [Memory.held, Memory.holds, ownedRing, Body.refs, shapeRefs, ObjClass.refs, Slot.refs,
      JSValue.ref?, h₀, h₁]

/-- Freed in either order, with a collection in between or without: both objects are destroyed. -/
theorem teardown_collect_unique_ownedRing : ∃ h₁ h₂ l₁ l₂ g₁ g₂,
    Teardown ownedRing [.object 0, .object 1] h₁ ∧ Teardown ownedRing [.object 1, .object 0] h₂ ∧
    GcObjList h₁ l₁ ∧ GcObjList h₂ l₂ ∧ jsRunGC h₁ l₁ = some g₁ ∧ jsRunGC h₂ l₂ = some g₂ ∧
    g₁.heap = g₂.heap ∧ g₁.heap.map Memory.Cell.refCount = [0, 0] := by
  refine ⟨_, _, _, _, _, _, .free (.free .nil), .free (.runGC (gcObjList_range _) rfl (.free .nil)),
    gcObjList_range _, gcObjList_range _, rfl, rfl, ?_, by decide⟩
  exact teardown_collect_unique covers_ownedRing (List.Perm.swap _ _ _) (.free (.free .nil))
    (.free (.runGC (gcObjList_range _) rfl (.free .nil))) (gcObjList_range _) (gcObjList_range _)
    rfl rfl

/-- **Cycles need the collector.** In a heap without weak references, freeing handles destroys no
object of a cycle, whoever else owns it; a collection then destroys all that the owners that are
left do not reach. -/
theorem cycle_outlives_handles {vs : List JSValue} {C : Ref → Prop}
    (hcov : h.Covers 0 (handleRefs vs)) (hC : Memory.Supported Body.refs h C)
    (hl : GcObjList (vs.foldl Heap.freeValue h) l) :
    (∀ r, C r → 0 < Memory.count (vs.foldl Heap.freeValue h) r) ∧
      ∃ g, jsRunGC (vs.foldl Heap.freeValue h) l = some g ∧
        ∀ r, 0 < Memory.count g.heap r ↔ Memory.Reach Body.refs h (h.ownersLeft vs) r := by
  have hcounted := hcov.counted_left (.refl vs)
  refine ⟨(supported_foldl_freeValue hC hcounted).live, ?_⟩
  obtain ⟨hleft, hbody⟩ := (teardown_foldl h vs).counted hcounted
  obtain ⟨g, hg, hcollected⟩ := collected_jsRunGC hl hleft
  exact ⟨g, hg, fun r => (hcollected.live r).trans (Memory.reach_congr hbody r)⟩

/-- Both handles freed: the objects keep each other until the collector runs. -/
theorem cycle_outlives_handles_ownedRing :
    let h := [JSValue.object 0, .object 1].foldl Heap.freeValue ownedRing
    (∀ r < 2, 0 < Memory.count h r) ∧ ∃ g, jsRunGC h [0, 1] = some g ∧
      ∀ r, ¬ 0 < Memory.count g.heap r := by
  have hC : Memory.Supported Body.refs ownedRing fun r => r < 2 := by
    refine ⟨fun r hr => ?_, fun r hr => ⟨1 - r, by omega, ?_⟩⟩
    · interval_cases r <;> decide
    · interval_cases r <;> decide
  obtain ⟨hlive, g, hg, hreach⟩ := cycle_outlives_handles covers_ownedRing hC (gcObjList_range _)
  refine ⟨hlive, g, hg, fun r hpos => ?_⟩
  have hbody : ∀ x, 0 < ownedRing.ownersLeft [.object 0, .object 1] x → x < 2 := by
    intro x hx
    unfold Heap.ownersLeft Memory.outside at hx
    exact Memory.lt_of_count_pos (s := ownedRing) (by omega)
  have hnone : ∀ x < 2, ownedRing.ownersLeft [.object 0, .object 1] x = 0 := by decide
  have hno : ∀ x, ¬ Memory.Reach Body.refs ownedRing
      (ownedRing.ownersLeft [.object 0, .object 1]) x := by
    intro x hx
    induction hx with
    | root hx => rw [hnone _ (hbody _ hx)] at hx; exact lt_irrefl _ hx
    | step _ _ ih => exact ih
  exact hno r ((hreach r).1 hpos)

end

end QuickjsDart
