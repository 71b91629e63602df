import QuickjsDart.Ownership

/-!
# Walks over the code

Several properties hold after all code of the engine for the reasons of one walk over it: which
cells a computation leaves alone, how it changes objects, who owns the references. A `Ledger` is
such a property, told about a state and the references that the callers own. What it has to say
about each thing that the code does are rules. The walk is done once, for every ledger with the
rules: here over reads, in `Discipline` over the rest.
-/

namespace QuickjsDart

open Codec

/-- The references of an exception. -/
def JSFault.refs : JSFault → List Ref
  | value v => v.refs
  | _ => []

/-- A result that refers to nothing. -/
def noRefs {α : Type} (_ : α) : List Ref := []

/-- A property that code keeps. -/
structure Ledger where
  /-- The states that code may start in, with the references that its callers own. -/
  Good : List Ref → VM → Prop
  /-- What code makes of a state and of the references. -/
  To : List Ref → VM → List Ref → VM → Prop
  /-- What it makes of a state where the process ends. -/
  Lost : VM → VM → Prop
  drop : ∀ {own own' vm}, Good own vm → (∀ r, own'.count r ≤ own.count r) → To own vm own' vm
  trans : ∀ {own₁ own₂ own₃ vm₁ vm₂ vm₃}, To own₁ vm₁ own₂ vm₂ → To own₂ vm₂ own₃ vm₃ →
    To own₁ vm₁ own₃ vm₃
  good : ∀ {own own' vm vm'}, Good own vm → To own vm own' vm' → Good own' vm'
  release : ∀ {gone own vm}, Good (gone ++ own) vm →
    To (gone ++ own) vm own (vm.mapHeap fun h => Memory.release Body.refs gone h)
  lost : ∀ {own own' vm vm'}, To own vm own' vm' → Lost vm vm'
  lost_trans : ∀ {vm₁ vm₂ vm₃}, Lost vm₁ vm₂ → Lost vm₂ vm₃ → Lost vm₁ vm₃
  lost_free : ∀ vm v, Lost vm (vm.free v)

namespace Ledger

variable {α β : Type} {L : Ledger} {start own own' : List Ref} {vm vm₁ vm₂ : VM} {v : JSValue}
  {e : JSFault} {refs : α → List Ref} {refs' : β → List Ref}

/-- How a computation ends that starts with the references of a list: its result or its exception is
the caller's, besides those that are left. -/
def Ends {α : Type} (L : Ledger) (start own : List Ref) (refs : α → List Ref) (vm : VM) :
    EStateM.Result JSFault VM α → Prop
  | .ok a vm' => L.To start vm (refs a ++ own) vm'
  | .error .crash vm' => L.Lost vm vm'
  | .error e vm' => L.To start vm (e.refs ++ own) vm'

/-- Doing nothing keeps the ledger. -/
theorem refl (hg : L.Good own vm) : L.To own vm own vm := L.drop hg fun _ => le_rfl

/-- Fewer references are enough. -/
theorem forget (hg : L.Good own vm) (hle : ∀ r, own'.count r ≤ own.count r) : L.Good own' vm :=
  L.good hg (L.drop hg hle)

/-- The references of the caller are good without those of a result. -/
theorem good_right (hg : L.Good (own' ++ own) vm) : L.Good own vm :=
  L.forget hg fun r => by rw [List.count_append]; exact Nat.le_add_left _ _

/-- Releasing a value takes its reference. -/
theorem free (hg : L.Good (v.refs ++ own) vm) : L.To (v.refs ++ own) vm own (vm.free v) :=
  L.release hg

/-- A value is released after code, wherever its reference is in the list. -/
theorem thenFree (hg : L.Good start vm) (h : L.To start vm own' vm₁)
    (hle : ∀ r, (v.refs ++ own).count r ≤ own'.count r) : L.To start vm own (vm₁.free v) := by
  have hdrop := L.drop (L.good hg h) hle
  exact L.trans (L.trans h hdrop) (L.free (L.good hg (L.trans h hdrop)))

/-- References that code left may be forgotten. -/
theorem keep (gone : List Ref) (hg : L.Good start vm) (h : L.To start vm (gone ++ own) vm₁) :
    L.To start vm own vm₁ :=
  L.trans h (L.drop (L.good hg h) fun r => by rw [List.count_append]; exact Nat.le_add_left _ _)

/-- A computation after another. -/
theorem Ends.after (ht : L.To start vm own' vm₁) {res : EStateM.Result JSFault VM α}
    (h : L.Ends own' own refs vm₁ res) : L.Ends start own refs vm res := by
  cases res with
  | ok a vm₂ => exact L.trans ht h
  | error e vm₂ =>
    cases e with
    | crash => exact L.lost_trans (L.lost ht) h
    | error m => exact L.trans ht h
    | value w => exact L.trans ht h

/-- Whatever a computation does, it does not leave the ledger. -/
theorem Ends.lost {res : EStateM.Result JSFault VM α} (h : L.Ends start own refs vm res) :
    L.Lost vm (endState res) := by
  cases res with
  | ok a vm₂ => exact L.lost h
  | error e vm₂ =>
    cases e with
    | crash => exact h
    | error m => exact L.lost h
    | value w => exact L.lost h

/-- A ledger of states only. -/
theorem ends_of_lost (hto : ∀ {own own' vm vm'}, L.Lost vm vm' → L.To own vm own' vm')
    {res : EStateM.Result JSFault VM α} (h : L.Lost vm (endState res)) :
    L.Ends start own refs vm res := by
  cases res with
  | ok a vm' => exact hto h
  | error e vm' => cases e <;> first | exact hto h | exact h

/-- The caller may forget references. -/
theorem Ends.forget (hg : L.Good start vm) (hle : ∀ r, own.count r ≤ own'.count r)
    {res : EStateM.Result JSFault VM α} (h : L.Ends start own' refs vm res) :
    L.Ends start own refs vm res := by
  have hdrop : ∀ {l : List Ref} {vm' : VM}, L.To start vm (l ++ own') vm' →
      L.To start vm (l ++ own) vm' := fun hto => L.trans hto (L.drop (L.good hg hto) fun r => by
    rw [List.count_append, List.count_append]
    exact Nat.add_le_add_left (hle r) _)
  cases res with
  | ok a vm₁ => exact hdrop h
  | error e vm₁ =>
    cases e with
    | crash => exact h
    | error m => exact hdrop (l := JSFault.refs (.error m)) h
    | value w => exact hdrop (l := JSFault.refs (.value w)) h

/-- An exception says nothing about the result. -/
theorem Ends.raised (h : L.Ends start own refs vm (.error e vm₁)) :
    L.Ends start own refs' vm (.error e vm₁ : EStateM.Result JSFault VM β) := by
  cases e <;> exact h

/-- An exception other than the end of the process is the caller's. -/
theorem Ends.raises (h : L.Ends start own refs vm (.error e vm₁)) (he : e ≠ .crash) :
    L.To start vm (e.refs ++ own) vm₁ := by
  cases e with
  | crash => exact absurd rfl he
  | error m => exact h
  | value w => exact h

/-- A value of the caller is released with the exception. -/
theorem Ends.free_error (hg : L.Good start vm)
    (h : L.Ends start (v.refs ++ own) refs vm (.error e vm₁)) :
    L.Ends start own refs' vm (.error e (vm₁.free v) : EStateM.Result JSFault VM β) := by
  have hle : ∀ r, (v.refs ++ (e.refs ++ own)).count r ≤ (e.refs ++ (v.refs ++ own)).count r := by
    intro r
    simp only [List.count_append]
    omega
  cases e with
  | crash => exact L.lost_trans h (L.lost_free vm₁ v)
  | error m => exact L.thenFree hg h hle
  | value w => exact L.thenFree hg h hle

/-- A refusal returns `false` or throws a text, and neither refers to anything. -/
theorem Ends.throwOrFalse (h : L.To start vm own vm₁) (throwFlag : Bool) (m : String) :
    L.Ends start own noRefs vm (throwOrFalse throwFlag m vm₁) := by
  unfold QuickjsDart.throwOrFalse
  cases throwFlag
  · exact h
  · exact h

end Ledger

/-! ## Accessors -/

/-- What a ledger has to say about values, and about the code that accessors run. -/
structure Calling (env : Env) extends Ledger where
  /-- A value that code may work on. -/
  Target : VM → JSValue → Prop
  /-- A value that code may be given. -/
  Given : VM → JSValue → Prop
  /-- A cell that code may come to. -/
  Cell : VM → Ref → Prop
  scalar : ∀ {vm v}, v.refs = [] → Target vm v
  given : ∀ {vm v}, Target vm v → Given vm v
  cell : ∀ {vm v r}, Target vm v → r ∈ v.refs → Cell vm r
  owned : ∀ {own vm r}, Good own vm → r ∈ own → Cell vm r
  primitive : ∀ {own vm v p}, Good own vm → env.primitiveProto v = some p → Cell vm p
  proto : ∀ {own vm r o p}, Good own vm → vm.heap.obj? r = some o → Cell vm r →
    o.proto = some p → Cell vm p
  slot : ∀ {own vm r o key slot x}, Good own vm → vm.heap.obj? r = some o → Cell vm r →
    o.getOwn key = some slot → x ∈ slot.refs → Cell vm x
  dup : ∀ {own vm v}, Good own vm → (∀ r ∈ v.refs, Cell vm r) →
    To own vm (v.refs ++ own) (vm.dup v)
  leaf : ∀ {own vm}, Good own vm → To own vm (vm.heap.length :: own) (vm.alloc .leaf)
  setProto : ∀ {own vm r o v q}, Good own vm → Target vm (.object r) → Given vm v →
    vm.heap.obj? r = some o → o.extensible = true → (∀ x, q = some x → v = .object x) →
    onChain vm.heap r (chainFuel vm.heap) q = false → To own vm own (vm.setProto r o q)
  call : ∀ {own vm f this args}, Good own vm → Cell vm f → Target vm this →
    (∀ a ∈ args, Given vm a) → toLedger.Ends own own JSValue.refs vm (env.call f this args vm)
  pend : ∀ {own vm e}, Good (e.refs ++ own) vm →
    To (e.refs ++ own) vm own { vm with currentException := some e }

namespace Calling

variable {env : Env} {D : Calling env} {own : List Ref} {vm : VM} {this v : JSValue}

/-- A missing argument is `undefined`, which anybody may be given. -/
theorem given_headD {args : List JSValue} (hargs : ∀ a ∈ args, D.Given vm a) :
    D.Given vm (args.headD .undefined) := by
  cases args with
  | nil => exact D.given (D.scalar rfl)
  | cons a args => exact hargs a List.mem_cons_self

/-- The setter of `__proto__` keeps the reference of its argument. -/
theorem protoSet (hg : D.Good own vm) (hthis : D.Target vm this) (hv : D.Given vm v) :
    D.Ends own own JSValue.refs vm (protoSet this v vm) := by
  rcases protoSet_cases this v vm with heq | ⟨m, heq⟩ | ⟨r, o, q, rfl, ho, hq, ⟨hext, hc⟩, heq⟩
  · rw [heq]
    exact D.refl hg
  · rw [heq]
    exact D.refl hg
  · rw [heq]
    exact D.setProto hg hthis hv ho hext hq hc

/-- An accessor is the setter of `__proto__`, or code outside the bridge. -/
theorem callAccessor (hg : D.Good own vm) {f : Ref} (hf : D.Cell vm f) (hthis : D.Target vm this)
    {args : List JSValue} (hargs : ∀ a ∈ args, D.Given vm a) :
    D.Ends own own JSValue.refs vm (callAccessor env f this args vm) := by
  unfold QuickjsDart.callAccessor
  split_ifs
  · exact D.protoSet hg hthis (given_headD hargs)
  · exact D.call hg hf hthis hargs

end Calling

/-! ## Reads -/

/-- What a ledger has to say about reads. -/
structure Reading (env : Env) extends Calling env where
  getExotic : ∀ {own vm r key this}, Good own vm → Cell vm r → Target vm this →
    toLedger.Ends own own JSValue.refs vm (env.getExotic r key this vm)

namespace Reading

variable {env : Env} {D : Reading env} {own : List Ref} {vm : VM} {this : JSValue}

/-- What a reading walk finds are cells that code may come to. -/
def Finds (D : Reading env) (vm : VM) : GetTarget → Prop
  | .value v => ∀ r ∈ v.refs, D.Cell vm r
  | .getter f => ∀ r, f = some r → D.Cell vm r
  | .exotic r => D.Cell vm r
  | .absent => True

/-- The walk stays among the cells that code may come to. The induction is on its fuel. -/
theorem finds_getWalk (hg : D.Good own vm) (key : PropKey) (fuel : ℕ) {start : Option Ref}
    (hstart : ∀ r, start = some r → D.Cell vm r) :
    D.Finds vm (getWalk vm.heap key fuel start) := by
  induction fuel generalizing start with
  | zero => trivial
  | succ fuel ih =>
    cases start with
    | none => trivial
    | some r =>
      have hr := hstart r rfl
      rw [getWalk]
      cases ho : vm.heap.obj? r with
      | none => trivial
      | some o =>
        dsimp only
        split
        · exact hr
        · split
          · next g s fl hslot =>
            rintro f rfl
            exact D.slot hg ho hr hslot (List.mem_append_left _ List.mem_cons_self)
          · next v fl hslot => exact fun x hx => D.slot hg ho hr hslot hx
          · exact ih fun p hp => D.proto hg ho hr hp

/-- A reading walk, and what is done with what it finds. -/
theorem getFrom (hg : D.Good own vm) {start : Option Ref}
    (hstart : ∀ r, start = some r → D.Cell vm r) (hthis : D.Target vm this) (key : PropKey) :
    D.Ends own own JSValue.refs vm (getFrom env start this key vm) := by
  have hwalk := finds_getWalk hg key (chainFuel vm.heap) hstart
  unfold QuickjsDart.getFrom
  cases hfound : getWalk vm.heap key (chainFuel vm.heap) start with
  | value v =>
    rw [hfound] at hwalk
    exact D.dup hg hwalk
  | getter f =>
    rw [hfound] at hwalk
    cases f with
    | none => exact D.refl hg
    | some f => exact D.callAccessor hg (hwalk f rfl) hthis fun a ha => absurd ha List.not_mem_nil
  | exotic r =>
    rw [hfound] at hwalk
    exact D.getExotic hg hwalk hthis
  | absent => exact D.refl hg

/-- `JS_GetPropertyInternal` gives a reference. -/
theorem jsGetProperty (hg : D.Good own vm) (hthis : D.Target vm this) (key : PropKey) :
    D.Ends own own JSValue.refs vm (jsGetProperty env this key vm) := by
  have hprimitive : D.Ends own own JSValue.refs vm
      (QuickjsDart.getFrom env (env.primitiveProto this) this key vm) :=
    D.getFrom hg (fun p hp => D.primitive hg hp) hthis key
  unfold QuickjsDart.jsGetProperty
  cases this with
  | null => exact D.refl hg
  | undefined => exact D.refl hg
  | exception => exact D.refl hg
  | object r =>
    refine D.getFrom hg (fun p hp => ?_) hthis key
    cases hp
    exact D.cell hthis (List.mem_singleton_self r)
  | string r s =>
    dsimp only
    split
    · split_ifs
      · exact D.leaf hg
      · exact hprimitive
    · split_ifs
      · show D.To own vm ((intValue s.length).ref?.toList ++ own) vm
        rw [refs_intValue]
        exact D.refl hg
      · exact hprimitive
  | _ => exact hprimitive

end Reading

/-! ## Calls from Dart -/

namespace Ledger

variable {α β : Type} {L : Ledger} {start own : List Ref} {vm vm₁ : VM}

/-- How a step of the Dart side ends: an exception of C is the pending one. -/
def DartEnds {α : Type} (L : Ledger) (start own : List Ref) (refs : α → List Ref) (vm : VM) :
    EStateM.Result Fault VM α → Prop
  | .ok a vm' => L.To start vm (refs a ++ own) vm'
  | .error .crash vm' => L.Lost vm vm'
  | .error (.throws _) vm' => L.To start vm own vm'

/-- Whatever a call from Dart does, it does not leave the ledger. -/
theorem DartEnds.lost {refs : α → List Ref} {res : EStateM.Result Fault VM α}
    (h : L.DartEnds start own refs vm res) : L.Lost vm (endState res) := by
  cases res with
  | ok a vm₂ => exact L.lost h
  | error e vm₂ =>
    cases e with
    | crash => exact h
    | throws d => exact L.lost h

/-- A call from Dart after something else. -/
theorem DartEnds.after {own' : List Ref} {refs : α → List Ref} (ht : L.To start vm own' vm₁)
    {res : EStateM.Result Fault VM α} (h : L.DartEnds own' own refs vm₁ res) :
    L.DartEnds start own refs vm res := by
  cases res with
  | ok a vm₂ => exact L.trans ht h
  | error e vm₂ =>
    cases e with
    | crash => exact L.lost_trans (L.lost ht) h
    | throws d => exact L.trans ht h

/-- A result that is only changed. -/
theorem DartEnds.map {refs : α → List Ref} {refs' : β → List Ref} {x : Dart α} {g : α → β}
    (h : L.DartEnds start own refs vm (x vm)) (hg : ∀ a, refs' (g a) = refs a) :
    L.DartEnds start own refs' vm ((x >>= fun a => pure (g a)) vm) := by
  cases hrun : x vm with
  | ok a vm₁ =>
    rw [hrun] at h
    rw [bind_of_ok hrun]
    show L.To start vm (refs' (g a) ++ own) vm₁
    rw [hg]
    exact h
  | error e vm₁ =>
    rw [hrun] at h
    rw [bind_of_error hrun]
    cases e <;> exact h

end Ledger

/-- A call from Dart into C. -/
theorem Calling.ffi {env : Env} {D : Calling env} {α : Type} {start own : List Ref}
    {refs : α → List Ref} {op : JS α} {dflt : α} {vm vm₀ : VM} (hg : D.Good start vm)
    (h : D.Ends start own refs vm (op vm₀)) (hdflt : refs dflt = []) :
    D.DartEnds start own refs vm (ffi dflt op vm₀) := by
  unfold QuickjsDart.ffi
  cases hrun : op vm₀ with
  | ok a vm₁ =>
    rw [hrun] at h
    exact h
  | error e vm₁ =>
    rw [hrun] at h
    have hpend : ∀ {e : JSFault}, D.To start vm (e.refs ++ own) vm₁ →
        D.To start vm (refs dflt ++ own) { vm₁ with currentException := some e } := by
      intro e hto
      rw [hdflt]
      exact D.trans hto (D.pend (D.good hg hto))
    cases e with
    | crash => exact h
    | error m => exact hpend (e := .error m) h
    | value w => exact hpend (e := .value w) h

end QuickjsDart
