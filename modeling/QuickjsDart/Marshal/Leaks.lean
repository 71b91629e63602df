import QuickjsDart.Ownership
import QuickjsDart.Marshal.Counts

/-!
# What a conversion leaves behind

`toJSVal` keeps a handle to every key string and to every string, container and function that it
stores in a container, and drops it without `free`. The references of these handles outlive the
result: `toJSVal_released_iff` says for which values the release of the result releases all that was
made.

What leaks is followed with the owners of the new cells (`Surplus`), and what does not leak with the
one cell there is (`Single`).
-/

namespace QuickjsDart

open Codec

section

variable {T : Ref → Prop} {n : ℕ} {vm : VM} {rs : List Ref}

/-- What holds of the heap after a step, also if that raised an exception. -/
def HeapAfter {ε α : Type} (P : Heap → Prop) (res : EStateM.Result ε VM α) : Prop :=
  P (endState res).heap

/-- The owners after a step. -/
abbrev Covered {ε α : Type} (n : ℕ) (rs : List Ref) : EStateM.Result ε VM α → Prop :=
  HeapAfter fun h => h.Covers n rs

section

variable {P : Heap → Prop}

/-- A refusal leaves the heap to its caller. -/
theorem heapAfter_throwOrFalse (h : P vm.heap) (throwFlag : Bool) (m : String) :
    HeapAfter P (throwOrFalse throwFlag m vm) := by
  unfold throwOrFalse
  cases throwFlag
  · exact h
  · exact h

/-- The C function `setProp` hides the outcome. -/
theorem HeapAfter.setProp {env : Env} {this v : JSValue} {key : PropKey} {throwFlag : Bool}
    (h : HeapAfter P (jsSetPropertyInternal env this key v throwFlag (vm.dup v))) :
    HeapAfter P (setProp env this key v throwFlag vm) := by
  unfold QuickjsDart.setProp
  cases hrun : jsSetPropertyInternal env this key v throwFlag (vm.dup v) with
  | ok b vm₁ =>
    rw [hrun] at h
    exact h
  | error e vm₁ =>
    rw [hrun] at h
    exact h

/-- A call from Dart into C. -/
theorem HeapAfter.ffi {α : Type} {op : JS α} {dflt a : α} {vm' : VM} (h : HeapAfter P (op vm))
    (hrun : ffi dflt op vm = .ok a vm') : P vm'.heap := by
  unfold QuickjsDart.ffi at hrun
  cases hop : op vm with
  | ok b vm₁ =>
    rw [hop] at h hrun
    cases hrun
    exact h
  | error e vm₁ =>
    rw [hop] at h hrun
    cases e with
    | crash => cases hrun
    | error m => cases hrun; exact h
    | value v => cases hrun; exact h

end

/-! ## Assignments -/

variable (env : Env)

/-- The setter of `__proto__`, called by an owner of the object, keeps the owners. -/
theorem covered_protoSet {r : Ref} (hr : Region T n vm.heap) (hn : n ≤ r) (hown : r ∈ rs)
    {v : JSValue} (hv : Local n vm.heap v) (hc : vm.heap.Covers n (v.refs ++ rs)) {vm' : VM}
    (hrun : protoSet (.object r) v vm = .ok .undefined vm') : vm'.heap.Covers n (v.refs ++ rs) := by
  have hthis : ∀ x ∈ (JSValue.object r).refs, n ≤ x ∧ 0 < Memory.count vm.heap x := by
    intro x hx
    rw [List.mem_singleton.1 hx]
    exact ⟨hn, hc.pos hn (List.mem_append_right _ hown)⟩
  have hlive : ∀ x ∈ v.refs, n ≤ x ∧ 0 < Memory.count vm.heap x := fun x hx =>
    ⟨hv.refs x hx, hc.pos (hv.refs x hx) (List.mem_append_left _ hx)⟩
  rcases protoSet_keeps hr.refs hthis hlive with ⟨h', heq, hkeep⟩ | ⟨m, heq⟩
  · cases heq.symm.trans hrun
    exact hkeep _ hc
  · cases heq.symm.trans hrun

/-- An assignment takes the reference to its value. -/
theorem covered_jsSetPropertyInternal (hr : Region T n vm.heap) {r : Ref} (hn : n ≤ r)
    (hplain : PlainAt vm.heap r) (hown : r ∈ rs) {v : JSValue} (hv : Local n vm.heap v)
    {key : PropKey} (hkey : ObjectAt vm.heap r ∨ key ≠ .name lengthName)
    (hc : vm.heap.Covers n (v.refs ++ rs)) (throwFlag : Bool) :
    Covered n rs (jsSetPropertyInternal env (.object r) key v throwFlag vm) := by
  have hregion := hr.protoSet hn hplain hv
  obtain ⟨o, ho, hcls⟩ := hplain
  have hlive : 0 < Memory.count vm.heap r := hc.pos hn (List.mem_append_right _ hown)
  have hfree : (vm.free v).heap.Covers n rs := Heap.Covers.free hr.refs hv.refs hc
  have hassigns := hr.assigns env hn ho hcls hkey v throwFlag
  generalize jsSetPropertyInternal env (.object r) key v throwFlag vm = res at hassigns ⊢
  cases hassigns with
  | refused throwFlag m => exact heapAfter_throwOrFalse hfree throwFlag m
  | added hnone => exact hc.putNew hn ho hlive hnone .cwe
  | replaced hold =>
    exact Heap.Covers.free (hr.putOwn hn ho hcls key _ hv.refs).region.refs
      (hr.refs_slot hn ho hold) (hc.putOld hn ho hlive hold _)
  | proto hrun =>
    rw [hrun] at hregion
    show Heap.Covers (VM.free _ .undefined).heap n rs
    rw [heap_free_of_ref?_eq_none rfl]
    exact Heap.Covers.free hregion.1.region.refs hv.refs (covered_protoSet hr hn hown hv hc hrun)
  | protoRaised m => exact hfree

/-- So does the definition of a property. -/
theorem covered_jsDefinePropertyValue (hr : Region T n vm.heap) {r : Ref} (hn : n ≤ r)
    (hplain : PlainAt vm.heap r) (hown : r ∈ rs) {v : JSValue} (hv : ∀ x ∈ v.refs, n ≤ x)
    (hc : vm.heap.Covers n (v.refs ++ rs)) (key : PropKey) (flags : Flags) :
    Covered n rs (jsDefinePropertyValue env (.object r) key v flags vm) := by
  obtain ⟨o, ho, hcls⟩ := hplain
  have hlive : 0 < Memory.count vm.heap r := hc.pos hn (List.mem_append_right _ hown)
  have hdefines := defines_of_plain env ho hcls key v flags
  generalize jsDefinePropertyValue env (.object r) key v flags vm = res at hdefines ⊢
  cases hdefines with
  | refused => exact Heap.Covers.free hr.refs hv hc
  | added hnone => exact hc.putNew hn ho hlive hnone flags
  | replaced hold =>
    exact Heap.Covers.release (hr.putOwn hn ho hcls key flags hv).region.refs
      (hr.refs_slot hn ho hold) (hc.putOld hn ho hlive hold flags)

/-! ## What is left over -/

/-- The owners that are there besides those of a list: at least one new cell has one if `P`. -/
def Surplus (n : ℕ) (h : Heap) (rs : List Ref) (P : Prop) : Prop :=
  ∃ extra : List Ref, (P → ∃ q ∈ extra, n ≤ q) ∧ h.Covers n (extra ++ rs)

/-- Owners besides those known are still covered. -/
theorem Surplus.covers {h : Heap} {P : Prop} (hs : Surplus n h rs P) : h.Covers n rs := by
  obtain ⟨extra, -, hc⟩ := hs
  exact hc.subperm (List.sublist_append_right extra rs).subperm

/-- A list of owners is known to be too long. -/
theorem Heap.Covers.surplus {h : Heap} {l : List Ref} {P : Prop} (hc : h.Covers n (l ++ rs))
    (hp : P → ∃ q ∈ l, n ≤ q) : Surplus n h rs P := ⟨l, hp, hc⟩

/-- Owners that are dropped. -/
theorem Surplus.drop {h : Heap} {l : List Ref} {P Q : Prop} (hs : Surplus n h (l ++ rs) P)
    (hq : Q → P ∨ ∃ q ∈ l, n ≤ q) : Surplus n h rs Q := by
  obtain ⟨extra, hp, hc⟩ := hs
  refine ⟨extra ++ l, fun h => ?_, by rwa [List.append_assoc]⟩
  rcases hq h with h | ⟨q, hmem, hle⟩
  · obtain ⟨q, hmem, hle⟩ := hp h
    exact ⟨q, List.mem_append_left _ hmem, hle⟩
  · exact ⟨q, List.mem_append_right _ hmem, hle⟩

/-- The name is passed as a string of its own. -/
def PropName.isText : PropName → Bool
  | int _ => false
  | string _ => true
  | null => true

/-- The handle of a name. -/
theorem surplus_handle (hr : Region T n vm.heap) (hc : vm.heap.Covers n rs) (name : PropName)
    {w : JSValue} {vm' : VM} (hrun : name.handle vm = .ok w vm') :
    Surplus n vm'.heap rs (name.isText = true) := by
  have hstring : ∀ s : Utf16, newString s vm = .ok w vm' →
      Surplus n vm'.heap rs (name.isText = true) := by
    intro s hs
    cases hs
    exact (Heap.Covers.alloc (b := .leaf) hr.le hc).surplus (l := [_])
      fun _ => ⟨_, List.mem_singleton_self _, hr.le⟩
  cases name with
  | int i =>
    cases hrun
    exact hc.surplus (l := []) fun h => by cases h
  | string s => exact hstring s hrun
  | null => exact hstring nullName hrun

/-- `setProperty` keeps the reference of the caller's handle, and that of the handle of the name. -/
theorem surplus_setProperty (hr : Region T n vm.heap) {r : Ref} (hn : n ≤ r)
    (hplain : PlainAt vm.heap r) (hown : r ∈ rs) {name : PropName} {v : JSValue}
    (hv : Local n vm.heap v) (hmem : ∀ x ∈ v.refs, x ∈ rs)
    (hkey : ObjectAt vm.heap r ∨ name.key ≠ .name lengthName) (hc : vm.heap.Covers n rs)
    {throwFlag : Bool} {vm' : VM}
    (hrun : setProperty env (.object r) name v throwFlag vm = .ok () vm') :
    Surplus n vm'.heap rs (name.isText = true) := by
  obtain ⟨w, vm₁, hhandle, hset⟩ := bind_eq_ok.1 hrun
  have hregion := hr.handle name
  rw [hhandle] at hregion
  obtain ⟨hstays, -⟩ := hregion
  obtain ⟨extra, hextra, hc₁⟩ := surplus_handle hr hc name hhandle
  refine ⟨extra, hextra, HeapAfter.ffi (P := fun h => h.Covers n (extra ++ rs)) (.setProp ?_) hset⟩
  have hv₁ := hv.kept hstays.kept
  have hdup := hstays.region.dup hv₁.refs
  have hkept := hstays.kept.trans hdup.kept
  have hc₂ : (vm₁.dup v).heap.Covers n (v.refs ++ (extra ++ rs)) := by
    refine Heap.Covers.dup hc₁ fun x hx => ⟨hv₁.refs x hx, ?_⟩
    exact hc₁.pos (hv₁.refs x hx) (List.mem_append_right _ (hmem x hx))
  exact covered_jsSetPropertyInternal env hdup.region hn (hkept.plain r hn hplain)
    (List.mem_append_right extra hown) (hv₁.kept hdup.kept) (hkey.imp_left (hkept.object r hn)) hc₂
    throwFlag

/-- `installDartHook` keeps the first reference to the function object. -/
theorem surplus_installDartHook (hr : Region T n vm.heap) {r : Ref} (hn : n ≤ r)
    (hplain : PlainAt vm.heap r) (hown : r ∈ rs) (hc : vm.heap.Covers n rs) {key : PropKey} {id : ℤ}
    {h : Handler} {vm' : VM}
    (hrun : ffi () (installDartHook env (.object r) key id h) vm = .ok () vm') :
    Surplus n vm'.heap rs True := by
  have hregion := hr.alloc (ownBody_hookObj (T := T) id)
  have hhook : Stays T n vm (newHook id h vm) := ⟨hregion.region, hregion.kept⟩
  have hnil : (Body.obj (hookObj id)).refs = [] := by
    show (intValue id).ref?.toList ++ [] = []
    rw [refs_intValue]
    rfl
  have hc₁ : (newHook id h vm).heap.Covers n (vm.heap.length :: rs) :=
    Heap.Covers.alloc (b := .obj (hookObj id)) hr.le (by rwa [hnil])
  have hfunc : ∀ x ∈ (JSValue.object vm.heap.length).refs, n ≤ x := by
    intro x hx
    rw [List.mem_singleton.1 hx]
    exact hr.le
  have hdup := hhook.region.dup hfunc
  have hstays := hhook.trans hdup
  have hc₂ : ((newHook id h vm).dup (.object vm.heap.length)).heap.Covers n
      ((JSValue.object vm.heap.length).refs ++ (vm.heap.length :: rs)) := by
    refine Heap.Covers.dup hc₁ fun x hx => ⟨hfunc x hx, ?_⟩
    rw [List.mem_singleton.1 hx]
    exact hc₁.pos hr.le List.mem_cons_self
  have hdef := covered_jsDefinePropertyValue env hdup.region hn (hstays.kept.plain r hn hplain)
    (List.mem_cons_of_mem _ hown) hfunc hc₂ key .cw
  refine ⟨[vm.heap.length], fun _ => ⟨_, List.mem_singleton_self _, hr.le⟩,
    HeapAfter.ffi (P := fun h => h.Covers n (vm.heap.length :: rs)) ?_ hrun⟩
  unfold installDartHook
  dsimp only
  cases hrun : jsDefinePropertyValue env (.object r) key (.object vm.heap.length) .cw
      ((newHook id h vm).dup (.object vm.heap.length)) with
  | ok b vm₂ =>
    rw [hrun] at hdef
    exact hdef
  | error e vm₂ =>
    rw [hrun] at hdef
    exact hdef

/-- A hook is defined on an object, and one reference to its function object is given up by
nobody. -/
theorem surplus_createNewFunction (hr : Region T n vm.heap) {r : Ref} (hn : n ≤ r)
    (hplain : PlainAt vm.heap r) (hown : r ∈ rs) (hc : vm.heap.Covers n rs) {name : PropName}
    {h : Handler} {vm' : VM}
    (hrun : createNewFunction env name h (some (.object r)) vm = .ok () vm') :
    Surplus n vm'.heap rs True := by
  unfold createNewFunction at hrun
  split_ifs at hrun
  · cases hrun
  · obtain ⟨w, vm₁, hhandle, hrun⟩ := bind_eq_ok.1 hrun
    obtain ⟨id, vm₂, hid, hrun⟩ := bind_eq_ok.1 hrun
    have hheap : vm₂.heap = vm₁.heap := by
      cases hid
      rfl
    obtain ⟨this, vm₃, hthis, hrun⟩ := bind_eq_ok.1 hrun
    cases hthis
    have hregion := hr.handle name
    rw [hhandle] at hregion
    obtain ⟨hstays, -⟩ := hregion
    have hplain₁ := hstays.kept.plain r hn hplain
    have hc₁ := (surplus_handle hr hc name hhandle).covers
    have hr₁ := hstays.region
    rw [← hheap] at hplain₁ hc₁ hr₁
    exact surplus_installDartHook env hr₁ hn hplain₁ hown hc₁ hrun

/-! ## Conversions -/

/-- A member of a container leaves a reference behind; `isText` says whether its name is a
string. -/
def DartVal.leaves (isText : Bool) : DartVal → Bool
  | int _ => isText
  | bool _ => isText
  | double _ => false
  | _ => true

/-- The values whose conversion leaves nothing behind. -/
def DartVal.releasable : DartVal → Bool
  | list elems => elems.all fun x => !x.leaves false
  | map entries => entries.all fun p => !p.2.leaves true
  | _ => true

/-- A value that is made and stored: its handle is dropped. -/
theorem surplus_store {r : Ref} (hn : n ≤ r) (hplain : PlainAt vm.heap r) (hown : r ∈ rs)
    {name : PropName} (hkey : ObjectAt vm.heap r ∨ name.key ≠ .name lengthName) {x : Dart JSValue}
    (hends : Ends T n vm (fun v vm' => Local n vm'.heap v) (x vm)) {vm' : VM}
    (hcovers : ∀ v vm₁, x vm = .ok v vm₁ → vm₁.heap.Covers n (v.refs ++ rs))
    (hrun : (x >>= fun v => setProperty env (.object r) name v true) vm = .ok () vm') :
    ∃ v vm₁, x vm = .ok v vm₁ ∧ Surplus n vm'.heap (v.refs ++ rs) (name.isText = true) := by
  obtain ⟨v, vm₁, hx, hset⟩ := bind_eq_ok.1 hrun
  rw [hx] at hends
  obtain ⟨hstays, hlocal⟩ := hends
  refine ⟨v, vm₁, hx, surplus_setProperty env hstays.region hn (hstays.kept.plain r hn hplain)
    (List.mem_append_right _ hown) hlocal (fun q hq => List.mem_append_left _ hq)
    (hkey.imp_left (hstays.kept.object r hn)) (hcovers v vm₁ hx) hset⟩

/-- A new object or array has one owner. -/
theorem covers_newPlain (hr : Region T n vm.heap) (hc : vm.heap.Covers n rs) {cls : ObjClass}
    {proto : Ref} (hcls : cls.isPlain = true) (hfixed : proto < fixedCells) :
    (vm.alloc (.obj (.fresh cls proto))).heap.Covers n (vm.heap.length :: rs) := by
  have hnil : (Body.obj (.fresh cls proto)).refs = [] := by
    show shapeRefs (some proto) ++ (cls.refs ++ []) = []
    rw [shapeRefs_fixed hfixed, ObjClass.refs_of_isPlain hcls]
    rfl
  exact Heap.Covers.alloc (b := .obj (.fresh cls proto)) hr.le (by rwa [hnil])

/-- A container is a new object, and its members are set. -/
theorem container_of_ok {b : Body} {f : JSValue → Dart Unit} {v : JSValue} {vm' : VM}
    (hrun : (newCell .object b >>= fun w => f w >>= fun _ => pure w) vm = .ok v vm') :
    v = .object vm.heap.length ∧ f (.object vm.heap.length) (vm.alloc b) = .ok () vm' := by
  obtain ⟨w, vm₁, hnew, hrun⟩ := bind_eq_ok.1 hrun
  obtain ⟨u, vm₂, hloop, hpure⟩ := bind_eq_ok.1 hrun
  cases hnew
  cases hpure
  exact ⟨rfl, hloop⟩

variable {env}

/-- A number or truth value that is stored: only the handle of the name is left. -/
theorem surplus_scalar (hr : Region T n vm.heap) {r : Ref} (hn : n ≤ r) (hplain : PlainAt vm.heap r)
    (hown : r ∈ rs) {name : PropName} (hkey : ObjectAt vm.heap r ∨ name.key ≠ .name lengthName)
    (hc : vm.heap.Covers n rs) {v : JSValue} (hv : v.ref? = none) {vm' : VM}
    (hrun : ((pure v : Dart JSValue) >>= fun v => setProperty env (.object r) name v true) vm
      = .ok () vm') : Surplus n vm'.heap rs (name.isText = true) := by
  have hnil : v.refs = [] := by
    unfold JSValue.refs
    rw [hv]
    rfl
  have hlocal : Local n vm.heap v := by
    cases v with
    | object q => cases hv
    | _ =>
      intro x hx
      cases hv.symm.trans hx
  obtain ⟨w, vm₁, hx, hs⟩ := surplus_store env hn hplain hown hkey (x := pure v)
    ⟨.refl hr, hlocal⟩ (by rintro _ _ ⟨⟩; rwa [hnil]) hrun
  cases hx
  rwa [hnil] at hs

/-- What the first member leaves is still there when the others are done. -/
theorem Surplus.cons {α : Type} {h₁ h₂ : Heap} {p : α → Prop} {x : α} {rest : List α}
    (hfirst : Surplus n h₁ rs (p x))
    (hrest : ∀ rs', rs ⊆ rs' → h₁.Covers n rs' → Surplus n h₂ rs' (∃ y ∈ rest, p y)) :
    Surplus n h₂ rs (∃ y ∈ x :: rest, p y) := by
  obtain ⟨extra, hextra, hc⟩ := hfirst
  refine (hrest _ (List.subset_append_right extra rs) hc).drop ?_
  rintro ⟨y, hy, hp⟩
  rcases List.mem_cons.1 hy with rfl | hy
  · exact .inr (hextra hp)
  · exact .inl ⟨y, hy, hp⟩

mutual

/-- A list: its references are too many where an element leaves one. -/
theorem surplus_createJSArray :
    ∀ (elems : List DartVal) {vm vm' : VM} {rs : List Ref} {v : JSValue},
    Region T n vm.heap → vm.heap.Covers n rs → createJSArray env elems vm = .ok v vm' →
    Surplus n vm'.heap (v.refs ++ rs) (∃ x ∈ elems, x.leaves false = true) := by
  intro elems vm vm' rs v hr hc hrun
  rw [createJSArray] at hrun
  obtain ⟨rfl, hloop⟩ := container_of_ok hrun
  have hregion : Ends T n vm _ (newArray vm) := hr.newPlain rfl hr.protos.2 (by decide)
  obtain ⟨hstays, r, heq, ⟨hle, hplain⟩, -⟩ := hregion
  cases heq
  exact surplus_setElements 0 elems hstays.region hle hplain List.mem_cons_self
    (covers_newPlain hr hc rfl (by decide)) hloop
termination_by elems => (sizeOf elems, 1)

/-- The loop over the elements. The owners that are left over by one of them stay. -/
theorem surplus_setElements :
    ∀ (i : ℕ) (elems : List DartVal) {vm vm' : VM} {rs : List Ref} {r : Ref},
    Region T n vm.heap → n ≤ r → PlainAt vm.heap r → r ∈ rs → vm.heap.Covers n rs →
    setElements env (.object r) i elems vm = .ok () vm' →
    Surplus n vm'.heap rs (∃ x ∈ elems, x.leaves false = true)
  | i, [], vm, vm', rs, r, hr, hn, hplain, hown, hc, hrun => by
    rw [setElements] at hrun
    cases hrun
    exact hc.surplus (l := []) fun ⟨x, hx, _⟩ => by cases hx
  | i, x :: rest, vm, vm', rs, r, hr, hn, hplain, hown, hc, hrun => by
    rw [setElements] at hrun
    obtain ⟨u, vm₁, hmember, hrun⟩ := bind_eq_ok.1 hrun
    have hkey := key_int_ne_length (Int64.ofNat i)
    have hregion := Region.setMember env x hr hn hplain (.inr hkey)
    rw [hmember] at hregion
    obtain ⟨hstays, -⟩ := hregion
    refine Surplus.cons (p := fun y => DartVal.leaves false y = true)
      (surplus_setMember x hr hn hplain hown (.inr hkey) hc hmember) fun rs' hsub hc' => ?_
    exact surplus_setElements (i + 1) rest hstays.region hn (hstays.kept.plain r hn hplain)
      (hsub hown) hc' hrun
termination_by _ elems => (sizeOf elems, 0)

/-- A map: its references are too many where a value leaves one. -/
theorem surplus_createJSObject : ∀ (entries : List (Option Utf16 × DartVal)) {vm vm' : VM}
    {rs : List Ref} {v : JSValue}, Region T n vm.heap → vm.heap.Covers n rs →
    createJSObject env entries vm = .ok v vm' →
    Surplus n vm'.heap (v.refs ++ rs) (∃ p ∈ entries, p.2.leaves true = true) := by
  intro entries vm vm' rs v hr hc hrun
  rw [createJSObject] at hrun
  obtain ⟨rfl, hloop⟩ := container_of_ok hrun
  have hregion : Ends T n vm _ (newObject vm) := hr.newPlain rfl hr.protos.1 (by decide)
  obtain ⟨hstays, r, heq, ⟨hle, hplain⟩, hobject⟩ := hregion
  cases heq
  exact surplus_setEntries entries hstays.region hle hplain (hobject rfl) List.mem_cons_self
    (covers_newPlain hr hc rfl (by decide)) hloop
termination_by entries => (sizeOf entries, 1)

/-- The loop over the entries. -/
theorem surplus_setEntries : ∀ (entries : List (Option Utf16 × DartVal)) {vm vm' : VM}
    {rs : List Ref} {r : Ref}, Region T n vm.heap → n ≤ r → PlainAt vm.heap r → ObjectAt vm.heap r →
    r ∈ rs → vm.heap.Covers n rs → setEntries env (.object r) entries vm = .ok () vm' →
    Surplus n vm'.heap rs (∃ p ∈ entries, p.2.leaves true = true)
  | [], vm, vm', rs, r, hr, hn, hplain, hobject, hown, hc, hrun => by
    rw [setEntries] at hrun
    cases hrun
    exact hc.surplus (l := []) fun ⟨x, hx, _⟩ => by cases hx
  | (key, x) :: rest, vm, vm', rs, r, hr, hn, hplain, hobject, hown, hc, hrun => by
    rw [setEntries] at hrun
    obtain ⟨u, vm₁, hmember, hrun⟩ := bind_eq_ok.1 hrun
    have hregion : Ends T n vm _ (setMember env (.object r) (key.elim .null .string) x vm) :=
      Region.setMember env x hr hn hplain (.inl hobject)
    rw [hmember] at hregion
    obtain ⟨hstays, -⟩ := hregion
    have htext : (key.elim PropName.null .string).isText = true := by cases key <;> rfl
    have hfirst := surplus_setMember x hr hn hplain hown (.inl hobject) hc hmember
    rw [htext] at hfirst
    refine Surplus.cons (p := fun p => p.2.leaves true = true) (x := (key, x)) hfirst
      fun rs' hsub hc' => ?_
    exact surplus_setEntries rest hstays.region hn (hstays.kept.plain r hn hplain)
      (hstays.kept.object r hn hobject) (hsub hown) hc' hrun
termination_by entries => (sizeOf entries, 0)

/-- A member that is stored, with the reference that it leaves behind (`leaves`). -/
theorem surplus_setMember :
    ∀ (x : DartVal) {vm vm' : VM} {rs : List Ref} {r : Ref} {name : PropName},
    Region T n vm.heap → n ≤ r → PlainAt vm.heap r → r ∈ rs →
    ObjectAt vm.heap r ∨ name.key ≠ .name lengthName → vm.heap.Covers n rs →
    setMember env (.object r) name x vm = .ok () vm' →
    Surplus n vm'.heap rs (x.leaves name.isText = true)
  | .int i, vm, vm', rs, r, name, hr, hn, hplain, hown, hkey, hc, hrun => by
    rw [setMember] at hrun
    exact surplus_scalar hr hn hplain hown hkey hc rfl hrun
  | .string s, vm, vm', rs, r, name, hr, hn, hplain, hown, hkey, hc, hrun => by
    rw [setMember] at hrun
    have hcell : ∀ v vm₁, newString s vm = .ok v vm₁ → vm₁.heap.Covers n (v.refs ++ rs) := by
      rintro v vm₁ ⟨⟩
      exact Heap.Covers.alloc (b := .leaf) hr.le hc
    obtain ⟨v, vm₁, hx, hs⟩ := surplus_store env hn hplain hown hkey (hr.newString s) hcell hrun
    cases hx
    exact hs.drop fun _ => .inr ⟨_, List.mem_singleton_self _, hr.le⟩
  | .bool b, vm, vm', rs, r, name, hr, hn, hplain, hown, hkey, hc, hrun => by
    rw [setMember] at hrun
    exact surplus_scalar hr hn hplain hown hkey hc rfl hrun
  | .double d, vm, vm', rs, r, name, hr, hn, hplain, hown, hkey, hc, hrun => by
    rw [setMember] at hrun
    cases hrun
    exact hc.surplus (l := []) fun h => by cases h
  | .list elems, vm, vm', rs, r, name, hr, hn, hplain, hown, hkey, hc, hrun => by
    rw [setMember] at hrun
    have hcell :
        ∀ v vm₁, createJSArray env elems vm = .ok v vm₁ → vm₁.heap.Covers n (v.refs ++ rs) :=
      fun v vm₁ hx => (surplus_createJSArray elems hr hc hx).covers
    obtain ⟨v, vm₁, hx, hs⟩ :=
      surplus_store env hn hplain hown hkey (Region.createJSArray env elems hr) hcell hrun
    rw [createJSArray] at hx
    obtain ⟨rfl, -⟩ := container_of_ok hx
    exact hs.drop fun _ => .inr ⟨_, List.mem_singleton_self _, hr.le⟩
  | .map entries, vm, vm', rs, r, name, hr, hn, hplain, hown, hkey, hc, hrun => by
    rw [setMember] at hrun
    have hcell :
        ∀ v vm₁, createJSObject env entries vm = .ok v vm₁ → vm₁.heap.Covers n (v.refs ++ rs) :=
      fun v vm₁ hx => (surplus_createJSObject entries hr hc hx).covers
    obtain ⟨v, vm₁, hx, hs⟩ :=
      surplus_store env hn hplain hown hkey (Region.createJSObject env entries hr) hcell hrun
    rw [createJSObject] at hx
    obtain ⟨rfl, -⟩ := container_of_ok hx
    exact hs.drop fun _ => .inr ⟨_, List.mem_singleton_self _, hr.le⟩
  | .otherMap t, vm, vm', rs, r, name, hr, hn, hplain, hown, hkey, hc, hrun => by
    rw [setMember] at hrun
    cases hrun
  | .handler h, vm, vm', rs, r, name, hr, hn, hplain, hown, hkey, hc, hrun => by
    rw [setMember] at hrun
    exact (surplus_createNewFunction env hr hn hplain hown hc hrun).drop (l := [])
      fun _ => .inl trivial
  | .null, vm, vm', rs, r, name, hr, hn, hplain, hown, hkey, hc, hrun => by
    simp only [setMember] at hrun
    cases hrun
  | .jsValue v, vm, vm', rs, r, name, hr, hn, hplain, hown, hkey, hc, hrun => by
    simp only [setMember] at hrun
    cases hrun
  | .future id, vm, vm', rs, r, name, hr, hn, hplain, hown, hkey, hc, hrun => by
    simp only [setMember] at hrun
    cases hrun
  | .other t, vm, vm', rs, r, name, hr, hn, hplain, hown, hkey, hc, hrun => by
    simp only [setMember] at hrun
    cases hrun
termination_by x => (sizeOf x, 0)

end

/-- A conversion that is no member of a container. -/
theorem surplus_toJSVal {x : DartVal} {vm' : VM} {v : JSValue} (hr : Region T n vm.heap)
    (hc : vm.heap.Covers n rs) (hrun : toJSVal env x vm = .ok v vm') :
    Surplus n vm'.heap (v.refs ++ rs) (x.releasable = false) := by
  have hscalar : ∀ {w : JSValue}, w.refs = [] → (pure w : Dart JSValue) vm = .ok v vm' →
      vm'.heap.Covers n (v.refs ++ rs) := by
    rintro w hw ⟨⟩
    rwa [hw]
  have hdone : x.releasable = true → vm'.heap.Covers n (v.refs ++ rs) →
      Surplus n vm'.heap (v.refs ++ rs) (x.releasable = false) := fun hx hc' =>
    hc'.surplus (l := []) fun h => by cases hx.symm.trans h
  cases x with
  | int i =>
    rw [toJSVal] at hrun
    refine hdone rfl ?_
    split_ifs at hrun
    · exact hscalar (refs_intValue _) hrun
    · exact hscalar rfl hrun
  | double d =>
    rw [toJSVal] at hrun
    exact hdone rfl (hscalar (refs_jsNewFloat64 d) hrun)
  | string s =>
    rw [toJSVal] at hrun
    refine hdone rfl ?_
    cases hrun
    exact Heap.Covers.alloc (b := .leaf) hr.le hc
  | bool b =>
    rw [toJSVal] at hrun
    exact hdone rfl (hscalar rfl hrun)
  | list elems =>
    rw [toJSVal] at hrun
    refine (surplus_createJSArray elems hr hc hrun).drop (l := []) fun h => .inl ?_
    simpa [DartVal.releasable] using h
  | map entries =>
    rw [toJSVal] at hrun
    refine (surplus_createJSObject entries hr hc hrun).drop (l := []) fun h => .inl ?_
    simpa [DartVal.releasable] using h
  | otherMap t =>
    rw [toJSVal] at hrun
    cases hrun
  | null => simp only [toJSVal] at hrun; cases hrun
  | handler h => simp only [toJSVal] at hrun; cases hrun
  | jsValue w => simp only [toJSVal] at hrun; cases hrun
  | future id => simp only [toJSVal] at hrun; cases hrun
  | other t => simp only [toJSVal] at hrun; cases hrun

/-! ## What is released -/

/-- There is one new cell, with one reference to it and none in it. -/
structure Single (n : ℕ) (h : Heap) : Prop where
  length : h.length = n + 1
  count : Memory.count h n = 1
  children : Memory.children Body.refs h n = []

/-- The cell goes with its reference. -/
theorem Single.free {h : Heap} (hs : Single n h) {v : JSValue} (hv : v.ref? = some n) {r : Ref}
    (hr : n ≤ r) : Memory.count (h.freeValue v) r = 0 := by
  unfold Heap.freeValue
  rw [hv, Option.toList_some, Memory.count_release_last hs.count hs.children]
  split_ifs with hne
  · rfl
  · exact Memory.count_eq_zero_of_le (by rw [hs.length]; omega)

/-- A new cell without references is alone. -/
theorem single_alloc (h : Heap) {b : Body} (hb : b.refs = []) :
    Single h.length (Memory.alloc h b) := by
  refine ⟨Memory.length_alloc h b, ?_, ?_⟩
  · rw [Memory.count_alloc, if_pos rfl]
  · rw [Memory.children, Memory.body?_alloc, if_pos rfl]
    exact hb

/-- An object that is alone refers to nothing. -/
theorem Single.refs_obj {h : Heap} (hs : Single n h) {o : Obj} (ho : h.obj? n = some o) :
    (Body.obj o).refs = [] := by
  have := hs.children
  rwa [Memory.children, body?_of_obj? ho] at this

/-- A property with a value that refers to nothing. -/
theorem Single.putOwn {h : Heap} (hs : Single n h) {o : Obj} (ho : h.obj? n = some o) {v : JSValue}
    (hv : v.ref? = none) (key : PropKey) (fl : Flags) :
    Single n (h.setObj n (o.putOwn key (.data v fl))) := by
  refine ⟨(Heap.length_setObj _ _ _).trans hs.length, ?_, ?_⟩
  · exact (Memory.count_update h n _ n).trans hs.count
  · have hbody : Memory.body? (h.setObj n (o.putOwn key (.data v fl))) n
        = some (.obj (o.putOwn key (.data v fl))) := by
      unfold Heap.setObj
      rw [Memory.body?_update, if_pos rfl, body?_of_obj? ho]
      rfl
    rw [Memory.children, hbody]
    refine List.eq_nil_iff_forall_not_mem.2 fun x hx => ?_
    have hold : x ∉ (Body.obj o).refs := by
      rw [hs.refs_obj ho]
      exact List.not_mem_nil
    rcases mem_refs_obj.1 hx with hx | hx | ⟨p, hp, hx⟩
    · exact hold (mem_refs_obj.2 (.inl hx))
    · rw [show (o.putOwn key (.data v fl)).cls = o.clsWith key from rfl, Obj.refs_clsWith] at hx
      exact hold (mem_refs_obj.2 (.inr (.inl hx)))
    · rcases mem_putSlot hp with rfl | hp
      · rw [show (Slot.data v fl).refs = v.ref?.toList from rfl, hv] at hx
        cases hx
      · exact hold (mem_refs_of_mem_props hp hx)

/-- A number or truth value is no prototype. -/
theorem protoSet_of_scalar {v : JSValue} (hv : v.ref? = none) (hnull : v ≠ .null) (r : Ref) :
    protoSet (.object r) v vm = .ok .undefined vm := by
  cases v with
  | null => exact absurd rfl hnull
  | object q => cases hv
  | _ => rfl

/-- An assignment of a number or truth value to an object that is alone. -/
theorem single_jsSetPropertyInternal (hr : Region T n vm.heap) (hs : Single n vm.heap)
    (hplain : PlainAt vm.heap n) {v : JSValue} (hv : v.ref? = none) (hnull : v ≠ .null)
    {key : PropKey} (hkey : key ≠ .name lengthName) (throwFlag : Bool) :
    HeapAfter (Single n) (jsSetPropertyInternal env (.object n) key v throwFlag vm) := by
  obtain ⟨o, ho, hcls⟩ := hplain
  have hfree : Single n (vm.free v).heap := by rwa [heap_free_of_ref?_eq_none hv]
  have hassigns := hr.assigns env le_rfl ho hcls (.inr hkey) v throwFlag
  generalize jsSetPropertyInternal env (.object n) key v throwFlag vm = res at hassigns ⊢
  cases hassigns with
  | refused throwFlag m => exact heapAfter_throwOrFalse hfree throwFlag m
  | added _ => exact hs.putOwn ho hv key .cwe
  | @replaced old fl hold =>
    have hnone : old.ref? = none := by
      refine Option.eq_none_iff_forall_ne_some.2 fun x hx => ?_
      have hmem : x ∈ (Body.obj o).refs :=
        mem_refs_of_mem_props (mem_of_findSlot hold) (Option.mem_toList.2 hx)
      rw [hs.refs_obj ho] at hmem
      cases hmem
    show Single n (VM.free _ old).heap
    rw [heap_free_of_ref?_eq_none hnone]
    exact hs.putOwn ho hv key fl
  | proto hrun =>
    cases (protoSet_of_scalar hv hnull n).symm.trans hrun
    show Single n (VM.free _ .undefined).heap
    rw [heap_free_of_ref?_eq_none rfl]
    exact hfree
  | protoRaised m => exact hfree

/-- A number or truth value under an index. -/
theorem single_setProperty (hr : Region T n vm.heap) (hs : Single n vm.heap)
    (hplain : PlainAt vm.heap n) {v : JSValue} (hv : v.ref? = none) (hnull : v ≠ .null) {i : Int64}
    {throwFlag : Bool} {vm' : VM}
    (hrun : setProperty env (.object n) (.int i) v throwFlag vm = .ok () vm') :
    Single n vm'.heap := by
  obtain ⟨w, vm₁, hhandle, hset⟩ := bind_eq_ok.1 hrun
  cases hhandle
  have hdup : vm.dup v = vm := by
    show { vm with heap := vm.heap.dupValue v } = vm
    unfold Heap.dupValue
    rw [hv]
  refine HeapAfter.ffi (.setProp ?_) hset
  rw [hdup]
  exact single_jsSetPropertyInternal hr hs hplain hv hnull (key_int_ne_length i) throwFlag

/-- The same from Dart, under an index. -/
theorem single_store (hr : Region T n vm.heap) (hs : Single n vm.heap) (hplain : PlainAt vm.heap n)
    {v : JSValue} (hv : v.ref? = none) (hnull : v ≠ .null) {i : Int64} {vm' : VM}
    (hrun : ((pure v : Dart JSValue) >>= fun v => setProperty env (.object n) (.int i) v true) vm
      = .ok () vm') : Single n vm'.heap := by
  obtain ⟨w, vm₁, hnew, hset⟩ := bind_eq_ok.1 hrun
  cases hnew
  exact single_setProperty hr hs hplain hv hnull hset

/-- The members of a list of numbers and truth values. -/
theorem single_setElements {elems : List DartVal} {i : ℕ} {vm vm' : VM} (hr : Region T n vm.heap)
    (hs : Single n vm.heap) (hplain : PlainAt vm.heap n)
    (hall : elems.all (fun x => !x.leaves false) = true)
    (hrun : setElements env (.object n) i elems vm = .ok () vm') : Single n vm'.heap := by
  induction elems generalizing i vm with
  | nil =>
    rw [setElements] at hrun
    cases hrun
    exact hs
  | cons x rest ih =>
    rw [List.all_cons, Bool.and_eq_true] at hall
    rw [setElements] at hrun
    obtain ⟨u, vm₁, hmember, hrun⟩ := bind_eq_ok.1 hrun
    have hregion :=
      Region.setMember env x hr le_rfl hplain (.inr (key_int_ne_length (Int64.ofNat i)))
    rw [hmember] at hregion
    obtain ⟨hstays, -⟩ := hregion
    refine ih hstays.region ?_ (hstays.kept.plain n le_rfl hplain) hall.2 hrun
    cases x with
    | int k =>
      rw [setMember] at hmember
      exact single_store (v := .int (Int32.ofInt k.toInt)) hr hs hplain rfl
        JSValue.noConfusion hmember
    | bool b =>
      rw [setMember] at hmember
      exact single_store (v := .bool b) hr hs hplain rfl JSValue.noConfusion hmember
    | double d =>
      rw [setMember] at hmember
      cases hmember
      exact hs
    | _ => cases hall.1

/-- The members of a map that are all skipped. -/
theorem single_setEntries {entries : List (Option Utf16 × DartVal)} {r : Ref} {vm vm' : VM}
    (hs : Single n vm.heap) (hall : entries.all (fun p => !p.2.leaves true) = true)
    (hrun : setEntries env (.object r) entries vm = .ok () vm') : Single n vm'.heap := by
  induction entries generalizing vm with
  | nil =>
    rw [setEntries] at hrun
    cases hrun
    exact hs
  | cons p rest ih =>
    obtain ⟨key, x⟩ := p
    rw [List.all_cons, Bool.and_eq_true] at hall
    rw [setEntries] at hrun
    obtain ⟨u, vm₁, hmember, hrun⟩ := bind_eq_ok.1 hrun
    refine ih ?_ hall.2 hrun
    cases x with
    | double d =>
      rw [setMember] at hmember
      cases hmember
      exact hs
    | _ => cases hall.1

/-- The value refers to nothing, or to the one cell there is. -/
theorem single_toJSVal {x : DartVal} {vm' : VM} {v : JSValue} (hr : Region T vm.heap.length vm.heap)
    (hx : x.releasable = true) (hrun : toJSVal env x vm = .ok v vm') :
    (v.ref? = none ∧ vm'.heap = vm.heap) ∨
      v.ref? = some vm.heap.length ∧ Single vm.heap.length vm'.heap := by
  have hscalar : ∀ {w : JSValue}, w.refs = [] → (pure w : Dart JSValue) vm = .ok v vm' →
      v.ref? = none ∧ vm'.heap = vm.heap := by
    rintro w hw ⟨⟩
    exact ⟨Option.toList_eq_nil_iff.1 hw, rfl⟩
  cases x with
  | int i =>
    rw [toJSVal] at hrun
    refine .inl ?_
    split_ifs at hrun
    · exact hscalar (refs_intValue _) hrun
    · exact hscalar rfl hrun
  | double d =>
    rw [toJSVal] at hrun
    exact .inl (hscalar (refs_jsNewFloat64 d) hrun)
  | string s =>
    rw [toJSVal] at hrun
    cases hrun
    exact .inr ⟨rfl, single_alloc vm.heap rfl⟩
  | bool b =>
    rw [toJSVal] at hrun
    exact .inl (hscalar rfl hrun)
  | list elems =>
    rw [toJSVal, createJSArray] at hrun
    obtain ⟨rfl, hloop⟩ := container_of_ok hrun
    have hregion : Ends T vm.heap.length vm _ (newArray vm) :=
      hr.newPlain rfl hr.protos.2 (by decide)
    obtain ⟨hstays, r, heq, ⟨hle, hplain⟩, -⟩ := hregion
    cases heq
    exact .inr ⟨rfl, single_setElements hstays.region (single_alloc vm.heap rfl) hplain hx hloop⟩
  | map entries =>
    rw [toJSVal, createJSObject] at hrun
    obtain ⟨rfl, hloop⟩ := container_of_ok hrun
    exact .inr ⟨rfl, single_setEntries (single_alloc vm.heap rfl) hx hloop⟩
  | otherMap t =>
    rw [toJSVal] at hrun
    cases hrun
  | null => simp only [toJSVal] at hrun; cases hrun
  | handler h => simp only [toJSVal] at hrun; cases hrun
  | jsValue w => simp only [toJSVal] at hrun; cases hrun
  | future id => simp only [toJSVal] at hrun; cases hrun
  | other t => simp only [toJSVal] at hrun; cases hrun

/-- **Releasing a converted value.** The release of the result brings the counts of all cells that
the conversion made to zero exactly if it made no key string, and no string, container or function
in a container. The error object of an assignment that is refused is the pending exception and no
cell here. -/
theorem toJSVal_released_iff {x : DartVal} {vm' : VM} {v : JSValue} (hs : ScriptFree vm.heap T)
    (hrun : toJSVal env x vm = .ok v vm') :
    (∀ r, vm.heap.length ≤ r → Memory.count (vm'.free v).heap r = 0) ↔ x.releasable = true := by
  constructor
  · intro hzero
    by_contra hx
    have hstart : vm.heap.Covers vm.heap.length [] := Memory.owned_length vm.heap
    obtain ⟨extra, hextra, hc⟩ := surplus_toJSVal hs.region hstart hrun
    obtain ⟨q, hq, hle⟩ := hextra (Bool.eq_false_iff.2 hx)
    have hregion := hs.region.toJSVal env x
    rw [hrun] at hregion
    obtain ⟨hstays, hlocal⟩ := hregion
    have hleft : (vm'.free v).heap.Covers vm.heap.length extra := by
      refine Heap.Covers.free hstays.region.refs hlocal.refs ?_
      rw [List.append_nil] at hc
      exact hc.subperm List.perm_append_comm.subperm
    have hpos := hleft.pos hle hq
    rw [hzero q hle] at hpos
    exact lt_irrefl _ hpos
  · intro hx r hle
    rcases single_toJSVal hs.region hx hrun with ⟨hv, hheap⟩ | ⟨hv, hsingle⟩
    · rw [heap_free_of_ref?_eq_none hv, hheap]
      exact Memory.count_eq_zero_of_le hle
    · exact hsingle.free hv hle

/-- `[1, true]` is released with its array. -/
theorem toJSVal_released_scalars :
    ScriptFree VM.bare.heap (fun r => r = objectPrototype ∨ r = arrayPrototype) ∧
      ∃ v vm', toJSVal Env.bare (.list [.int 1, .bool true]) VM.bare = .ok v vm' ∧
        ∀ r, VM.bare.heap.length ≤ r → Memory.count (vm'.free v).heap r = 0 := by
  have hrun : ∃ v vm', toJSVal Env.bare (.list [.int 1, .bool true]) VM.bare = .ok v vm' := by
    simp only [toJSVal, createJSArray, setElements, setMember]
    exact ⟨_, _, rfl⟩
  obtain ⟨v, vm', hrun⟩ := hrun
  exact ⟨scriptFree_bare, v, vm', hrun, (toJSVal_released_iff scriptFree_bare hrun).2 rfl⟩

/-- `["a"]` and `{a: 1}`: the strings keep the reference of a handle that was dropped. -/
theorem toJSVal_string_leaks :
    (∃ v vm', toJSVal Env.bare (.list [.string [0x61]]) VM.bare = .ok v vm' ∧
      ¬ ∀ r, VM.bare.heap.length ≤ r → Memory.count (vm'.free v).heap r = 0) ∧
    ∃ v vm', toJSVal Env.bare (.map [(some [0x61], .int 1)]) VM.bare = .ok v vm' ∧
      ¬ ∀ r, VM.bare.heap.length ≤ r → Memory.count (vm'.free v).heap r = 0 := by
  simp only [toJSVal, createJSArray, setElements, setMember, createJSObject, setEntries,
    Option.elim_some]
  refine ⟨⟨_, _, rfl, fun h => ?_⟩, ⟨_, _, rfl, fun h => ?_⟩⟩
  · exact absurd (h 10 (by decide)) (by decide)
  · exact absurd (h 10 (by decide)) (by decide)

end

end QuickjsDart
