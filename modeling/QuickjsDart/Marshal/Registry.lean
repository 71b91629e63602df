import QuickjsDart.Marshal.Counts
import QuickjsDart.Evolution

/-!
# Conversions that fail

A conversion registers each handler as it comes to it, and throws at the first member it cannot
convert. `Outcome` is what the walk over a Dart value comes to, by the value alone: whether it goes
through, and whether a handler was registered on the way. `Follows` ties it to the run, and
`failed_conversion_iff` says when a failed conversion leaves the registry as it was. That nothing
but a registration changes the registry is a ledger (`silence`).
-/

namespace QuickjsDart

open Codec

/-! ## The registry -/

/-- What the bridge keeps of the registered handlers: `dartHandlerMap` and `_nextFuncHandlerId`. -/
def VM.registry (vm : VM) : Option (List (ℤ × Handler)) × Option ℤ :=
  (vm.dartHandlerMap, vm.nextFuncHandlerId)

section

variable {ε α β : Type}

/-- The computation registers nothing. -/
def Leaves (act : EStateM ε VM α) : Prop := ∀ vm, (endState (act vm)).registry = vm.registry

/-- What a computation that returns registered: nothing. -/
theorem Leaves.of_ok {act : EStateM ε VM α} (h : Leaves act) {vm vm' : VM} {a : α}
    (hrun : act vm = .ok a vm') : vm'.registry = vm.registry := by
  have := h vm
  rwa [hrun] at this

/-- What a computation that throws registered: nothing. -/
theorem Leaves.of_error {act : EStateM ε VM α} (h : Leaves act) {vm vm' : VM} {e : ε}
    (hrun : act vm = .error e vm') : vm'.registry = vm.registry := by
  have := h vm
  rwa [hrun] at this

end

/-- Script code and exotic objects that an assignment runs register no handler. -/
structure Env.Silent (env : Env) : Prop where
  call : ∀ f this args, Leaves (env.call f this args)
  setExotic : ∀ r key v this, Leaves (env.setExotic r key v this)
  defineExotic : ∀ r key v flags, Leaves (env.defineExotic r key v flags)
  toNumber : ∀ v, Leaves (env.toNumber v)

/-- Counts are not in the registry. -/
theorem registry_dupRefs (vm : VM) (rs : List Ref) : (vm.dupRefs rs).registry = vm.registry := by
  induction rs generalizing vm with
  | nil => rfl
  | cons r rs ih => exact ih (vm.dup (.object r))

variable {env : Env}

/-- What the registry is after code. -/
def registryLedger : Ledger where
  Good _ _ := True
  To _ vm _ vm' := vm'.registry = vm.registry
  Lost vm vm' := vm'.registry = vm.registry
  drop _ _ := rfl
  trans h₁ h₂ := h₂.trans h₁
  good _ _ := trivial
  release _ := rfl
  lost h := h
  lost_trans h₁ h₂ := h₂.trans h₁
  lost_free _ _ := rfl

/-- Code that registers nothing keeps the ledger. -/
theorem ends_of_leaves {α : Type} {start own : List Ref} {refs : α → List Ref} {act : JS α}
    (h : Leaves act) (vm : VM) : registryLedger.Ends start own refs vm (act vm) :=
  Ledger.ends_of_lost (fun hreg => hreg) (h vm)

/-- Assignments and definitions register nothing. -/
def silence (henv : env.Silent) : Bridge env where
  toLedger := registryLedger
  Target _ _ := True
  Given _ _ := True
  Cell _ _ := True
  Held _ _ _ := True
  Key _ := True
  scalar _ := trivial
  given _ := trivial
  cell _ _ := trivial
  owned _ _ := trivial
  primitive _ _ := trivial
  proto _ _ _ _ := trivial
  slot _ _ _ _ _ := trivial
  dup _ _ := rfl
  leaf _ := rfl
  setProto {_ vm _ _ _ q} _ _ _ _ _ _ _ := registry_dupRefs vm (shapeRefs q)
  call _ _ _ _ := ends_of_leaves (henv.call _ _ _) _
  pend _ := rfl
  held _ _ _ := trivial
  scalarHeld _ := trivial
  target _ _ := trivial
  cut _ _ _ _ _ _ := rfl
  add _ _ _ _ _ _ := rfl
  assign _ _ _ _ _ := rfl
  setExotic key _ _ _ _ := ends_of_leaves (henv.setExotic _ key _ _) _
  toNumber _ _ := ends_of_leaves (henv.toNumber _) _
  anyCell _ _ := trivial
  givenKept _ _ := trivial
  keyOfName _ := trivial
  keyOfText _ := trivial
  redefine _ _ _ _ _ _ := rfl
  defineExotic r key flags _ _ := ends_of_leaves (henv.defineExotic r key _ flags) _

/-- An assignment registers nothing. -/
theorem leaves_setProperty (henv : env.Silent) (this : JSValue) (name : PropName) (v : JSValue)
    (throwFlag : Bool) : Leaves (setProperty env this name v throwFlag) := fun vm =>
  ((silence henv).setProperty (show (silence henv).Good [] vm from trivial) trivial trivial
    name).lost

/-- Neither does a definition. -/
theorem leaves_jsDefinePropertyValue (henv : env.Silent) (this : JSValue) (key : PropKey)
    (v : JSValue) (flags : Flags) : Leaves (jsDefinePropertyValue env this key v flags) := fun vm =>
  ((silence henv).jsDefinePropertyValue (show (silence henv).Good (v.refs ++ []) vm from trivial)
    trivial trivial trivial flags).lost

/-- A call from Dart into C. -/
theorem Leaves.ffi {α : Type} {op : JS α} (h : Leaves op) (dflt : α) : Leaves (ffi dflt op) := by
  intro vm
  unfold QuickjsDart.ffi
  cases hrun : op vm with
  | ok a vm₁ => exact (h.of_ok hrun :)
  | error e vm₁ => cases e <;> exact (h.of_error hrun :)

/-! ## The walk over a Dart value -/

/-- What a conversion comes to: it goes through, or it is refused with an error; and whether a
handler was registered on the way. -/
inductive Outcome where
  | converts (registers : Bool)
  | refuses (err : DartError) (registers : Bool)
  deriving DecidableEq

/-- With what was registered before. -/
def Outcome.after (registered : Bool) : Outcome → Outcome
  | converts registers => converts (registered || registers)
  | refuses err registers => refuses err (registered || registers)

/-- One conversion, and another if it goes through. -/
def Outcome.andThen : Outcome → Outcome → Outcome
  | converts registers, next => next.after registers
  | refuses err registers, _ => refuses err registers

mutual

/-- A member of a container, under a name or under `null`. -/
def memberOutcome (named : Bool) : DartVal → Outcome
  | .int _ => .converts false
  | .string _ => .converts false
  | .bool _ => .converts false
  | .double _ => .converts false
  | .list elems => elemsOutcome elems
  | .map entries => entriesOutcome entries
  | .otherMap _ => .refuses .castError false
  | .handler _ => if named then .converts true else .refuses .funcName false
  | v => .refuses (.notSupported v.runtimeType) false

/-- The elements of a list, in order. -/
def elemsOutcome : List DartVal → Outcome
  | [] => .converts false
  | v :: rest => (memberOutcome true v).andThen (elemsOutcome rest)

/-- The entries of a map, in order. -/
def entriesOutcome : List (Option Utf16 × DartVal) → Outcome
  | [] => .converts false
  | (key, v) :: rest => (memberOutcome key.isSome v).andThen (entriesOutcome rest)

end

/-- The walk of `toJSVal`. -/
def DartVal.outcome : DartVal → Outcome
  | .handler h => .refuses (.notSupported (DartVal.handler h).runtimeType) false
  | v => memberOutcome true v

/-- What happened to the registry: nothing, or an id was taken. -/
def Changed (registers : Bool) (vm vm' : VM) : Prop :=
  (registers = false → vm'.registry = vm.registry) ∧
    (registers = true → vm'.nextFuncHandlerId ≠ none)

/-- A run comes to its outcome, unless the process ends. -/
def Follows {α : Type} (o : Outcome) (vm : VM) : EStateM.Result Fault VM α → Prop
  | .ok _ vm' => ∃ registers, o = .converts registers ∧ Changed registers vm vm'
  | .error (.throws err) vm' => ∃ registers, o = .refuses err registers ∧ Changed registers vm vm'
  | .error .crash _ => True

/-- Where the registry is the same nothing was registered. -/
theorem changed_of_registry {vm vm' : VM} (h : vm'.registry = vm.registry) : Changed false vm vm' :=
  ⟨fun _ => h, fun hr => by cases hr⟩

/-- Two parts register what one of them does. -/
theorem Changed.trans {r₁ r₂ : Bool} {vm₁ vm₂ vm₃ : VM} (h₁ : Changed r₁ vm₁ vm₂)
    (h₂ : Changed r₂ vm₂ vm₃) : Changed (r₁ || r₂) vm₁ vm₃ := by
  cases r₂ with
  | true => exact ⟨fun h => by simp at h, fun _ => h₂.2 rfl⟩
  | false =>
    have hreg := h₂.1 rfl
    have hnext : vm₃.nextFuncHandlerId = vm₂.nextFuncHandlerId := congrArg Prod.snd hreg
    rw [Bool.or_false]
    exact ⟨fun h => hreg.trans (h₁.1 h), fun h => hnext ▸ h₁.2 h⟩

/-- A run of two parts, by the outcome of both. -/
theorem Follows.bind {α β : Type} {o o' : Outcome} {vm : VM} {x : Dart α} {f : α → Dart β}
    (hx : Follows o vm (x vm)) (hf : ∀ a vm₁, x vm = .ok a vm₁ → Follows o' vm₁ (f a vm₁)) :
    Follows (o.andThen o') vm ((x >>= f) vm) := by
  cases hrun : x vm with
  | ok a vm₁ =>
    rw [hrun] at hx
    rw [bind_of_ok hrun]
    obtain ⟨r₁, rfl, h₁⟩ := hx
    have h₂ := hf a vm₁ hrun
    cases hrun₂ : f a vm₁ with
    | ok b vm₂ =>
      rw [hrun₂] at h₂
      obtain ⟨r₂, rfl, h₂⟩ := h₂
      exact ⟨_, rfl, h₁.trans h₂⟩
    | error e vm₂ =>
      rw [hrun₂] at h₂
      cases e with
      | crash => trivial
      | throws err =>
        obtain ⟨r₂, rfl, h₂⟩ := h₂
        exact ⟨_, rfl, h₁.trans h₂⟩
  | error e vm₁ =>
    rw [hrun] at hx
    rw [bind_of_error hrun]
    cases e with
    | crash => trivial
    | throws err =>
      obtain ⟨r₁, rfl, h₁⟩ := hx
      exact ⟨_, rfl, h₁⟩

/-- A computation that registers nothing and does not throw. -/
theorem follows_of_leaves {α : Type} {act : Dart α} (h : Leaves act)
    (hthrow : ∀ vm err vm', act vm ≠ .error (.throws err) vm') (vm : VM) :
    Follows (.converts false) vm (act vm) := by
  cases hrun : act vm with
  | ok a vm' => exact ⟨false, rfl, changed_of_registry (h.of_ok hrun)⟩
  | error e vm' =>
    cases e with
    | crash => trivial
    | throws err => exact absurd hrun (hthrow vm err vm')

/-- A last part that goes through adds nothing. -/
theorem Outcome.andThen_converts (o : Outcome) : o.andThen (.converts false) = o := by
  cases o <;> simp [andThen, after]

/-- A first part that goes through adds nothing. -/
theorem Outcome.converts_andThen (o : Outcome) : (converts false).andThen o = o := by
  cases o <;> simp [andThen, after]

/-- An assignment does not throw. -/
theorem setProperty_ne_throws (this : JSValue) (name : PropName) (v : JSValue) (throwFlag : Bool)
    (vm : VM) (err : DartError) (vm' : VM) :
    setProperty env this name v throwFlag vm ≠ .error (.throws err) vm' := by
  intro h
  rcases bind_eq_error.1 h with h | ⟨w, vm₁, -, h⟩
  · cases name <;> cases h
  · cases ffi_error h

/-- The member made by `mk`, stored under its name. -/
theorem follows_store (henv : env.Silent) {o : Outcome} {mk : Dart JSValue} (this : JSValue)
    (name : PropName) {vm : VM} (hmk : Follows o vm (mk vm)) :
    Follows o vm ((mk >>= fun v => setProperty env this name v true) vm) := by
  have hset : ∀ v vm₁, Follows (.converts false) vm₁ (setProperty env this name v true vm₁) :=
    fun v vm₁ => follows_of_leaves (leaves_setProperty henv this name v true)
      (setProperty_ne_throws this name v true) vm₁
  have h := hmk.bind fun v vm₁ _ => hset v vm₁
  rwa [Outcome.andThen_converts] at h

/-- A value made without throwing. -/
theorem follows_ok {α : Type} {act : Dart α} {vm vm' : VM} {a : α} (hrun : act vm = .ok a vm')
    (hreg : vm'.registry = vm.registry) : Follows (.converts false) vm (act vm) := by
  rw [hrun]
  exact ⟨false, rfl, changed_of_registry hreg⟩

/-- A member is refused before anything is registered. -/
theorem follows_throw {α : Type} (err : DartError) (vm : VM) :
    Follows (.refuses err false) vm ((throw (.throws err) : Dart α) vm) :=
  ⟨false, rfl, changed_of_registry rfl⟩

/-- A container is made, filled and returned. -/
theorem follows_container {o : Outcome} {mk : Dart JSValue} {fill : JSValue → Dart Unit}
    {vm vm₁ : VM} {v : JSValue} (hmk : mk vm = .ok v vm₁) (hreg : vm₁.registry = vm.registry)
    (hfill : ∀ vm, Follows o vm (fill v vm)) :
    Follows o vm ((mk >>= fun v => fill v >>= fun _ => pure v) vm) := by
  have hrest : Follows (o.andThen (.converts false)) vm₁ ((fill v >>= fun _ => pure v) vm₁) :=
    (hfill vm₁).bind fun _ vm₂ _ => follows_ok rfl rfl
  have hall := (follows_ok hmk hreg).bind (f := fun v => fill v >>= fun _ => pure v)
    fun a vm₂ hrun => by
      cases hmk.symm.trans hrun
      exact hrest
  rwa [Outcome.andThen_converts, Outcome.converts_andThen] at hall

/-- The rest of a registration, after its id was taken. -/
theorem follows_taken {op : JS Unit} (h : Leaves op) {vm vm₁ : VM}
    (hnext : vm₁.nextFuncHandlerId ≠ none) : Follows (.converts true) vm (ffi () op vm₁) := by
  cases hrun : ffi () op vm₁ with
  | ok u vm₂ =>
    have hsame : vm₂.nextFuncHandlerId = vm₁.nextFuncHandlerId :=
      congrArg Prod.snd ((h.ffi ()).of_ok hrun)
    exact ⟨true, rfl, fun hr => (by cases hr), fun _ => hsame ▸ hnext⟩
  | error e vm₂ =>
    cases ffi_error hrun
    trivial

/-- A handler is registered under a name, and refused without one. -/
theorem follows_createNewFunction (henv : env.Silent) (name : PropName) (h : Handler)
    (this : JSValue) (vm : VM) :
    Follows (if name ≠ .null then .converts true else .refuses .funcName false) vm
      (createNewFunction env name h (some this) vm) := by
  unfold createNewFunction
  by_cases hname : name = .null
  · rw [if_neg (not_not.2 hname), if_pos hname]
    exact ⟨false, rfl, changed_of_registry rfl⟩
  · rw [if_pos hname, if_neg hname]
    obtain ⟨w, vm₁, hhandle⟩ : ∃ w vm₁, name.handle vm = .ok w vm₁ := by
      cases name with
      | int i => exact ⟨_, vm, rfl⟩
      | string s => exact ⟨_, _, rfl⟩
      | null => exact ⟨_, _, rfl⟩
    dsimp only
    rw [bind_of_ok hhandle, bind_of_ok (show nextHandlerId h vm₁ = .ok _ _ from rfl)]
    have hhook : ∀ id, Leaves (installDartHook env this name.key id h) := by
      intro id vm₂
      have hdef := leaves_jsDefinePropertyValue henv this name.key (.object vm₂.heap.length) .cw
      unfold installDartHook
      dsimp only
      cases hrun : jsDefinePropertyValue env this name.key (.object vm₂.heap.length) .cw
          ((newHook id h vm₂).dup (.object vm₂.heap.length)) with
      | ok b vm₃ => exact (hdef.of_ok hrun :)
      | error e vm₃ => exact (hdef.of_error hrun :)
    exact follows_taken (hhook _) (Option.some_ne_none _)

/-- The names that a handler can be registered under. -/
def Named (named : Bool) (name : PropName) : Prop := named = true ↔ name ≠ .null

mutual

/-- The elements of a list, in order. Every index is a name. -/
theorem follows_setElements (henv : env.Silent) (jsArray : JSValue) :
    ∀ (i : ℕ) (elems : List DartVal) (vm : VM),
      Follows (elemsOutcome elems) vm (setElements env jsArray i elems vm)
  | i, [], vm => by
    rw [setElements, elemsOutcome]
    exact follows_ok rfl rfl
  | i, v :: rest, vm => by
    rw [setElements, elemsOutcome]
    have hname : Named true (.int (Int64.ofNat i)) := ⟨fun _ => PropName.noConfusion, fun _ => rfl⟩
    exact (follows_setMember henv jsArray hname v vm).bind fun _ vm₁ _ =>
      follows_setElements henv jsArray (i + 1) rest vm₁

/-- The entries of a map, in order. A key that is no string gives no name. -/
theorem follows_setEntries (henv : env.Silent) (jsObj : JSValue) :
    ∀ (entries : List (Option Utf16 × DartVal)) (vm : VM),
      Follows (entriesOutcome entries) vm (setEntries env jsObj entries vm)
  | [], vm => by
    rw [setEntries, entriesOutcome]
    exact follows_ok rfl rfl
  | (key, v) :: rest, vm => by
    rw [setEntries, entriesOutcome]
    have hname : Named key.isSome (key.elim .null .string) := by
      cases key with
      | none => exact ⟨fun h => (by cases h), fun h => absurd rfl h⟩
      | some s => exact ⟨fun _ => PropName.noConfusion, fun _ => rfl⟩
    exact (follows_setMember henv jsObj hname v vm).bind fun _ vm₁ _ =>
      follows_setEntries henv jsObj rest vm₁

/-- One member, by its type. A container is walked first, and stored after that. -/
theorem follows_setMember (henv : env.Silent) (target : JSValue) {named : Bool} {name : PropName}
    (hname : Named named name) : ∀ (v : DartVal) (vm : VM),
      Follows (memberOutcome named v) vm (setMember env target name v vm)
  | .int n, vm => by
    rw [setMember, memberOutcome]
    exact follows_store henv target name (follows_ok rfl rfl)
  | .string s, vm => by
    rw [setMember, memberOutcome]
    exact follows_store henv target name (follows_ok rfl rfl)
  | .bool b, vm => by
    rw [setMember, memberOutcome]
    exact follows_store henv target name (follows_ok rfl rfl)
  | .double d, vm => by
    rw [setMember, memberOutcome]
    exact follows_ok rfl rfl
  | .list elems, vm => by
    rw [setMember, memberOutcome]
    refine follows_store henv target name ?_
    rw [createJSArray]
    exact follows_container (show newArray vm = .ok _ _ from rfl) rfl fun vm₁ =>
      follows_setElements henv _ 0 elems vm₁
  | .map entries, vm => by
    rw [setMember, memberOutcome]
    refine follows_store henv target name ?_
    rw [createJSObject]
    exact follows_container (show newObject vm = .ok _ _ from rfl) rfl fun vm₁ =>
      follows_setEntries henv _ entries vm₁
  | .otherMap t, vm => by
    rw [setMember, memberOutcome]
    exact follows_throw _ vm
  | .handler h, vm => by
    rw [setMember, memberOutcome]
    have hrun := follows_createNewFunction henv name h target vm
    rwa [if_congr hname rfl rfl]
  | .null, vm => by
    simp only [setMember, memberOutcome]
    exact follows_throw _ vm
  | .jsValue v, vm => by
    simp only [setMember, memberOutcome]
    exact follows_throw _ vm
  | .future id, vm => by
    simp only [setMember, memberOutcome]
    exact follows_throw _ vm
  | .other t, vm => by
    simp only [setMember, memberOutcome]
    exact follows_throw _ vm

end

/-- A list, without a container around it. -/
theorem follows_createJSArray (henv : env.Silent) (elems : List DartVal) (vm : VM) :
    Follows (elemsOutcome elems) vm (createJSArray env elems vm) := by
  rw [createJSArray]
  exact follows_container (show newArray vm = .ok _ _ from rfl) rfl fun vm₁ =>
    follows_setElements henv _ 0 elems vm₁

/-- A map, without a container around it. -/
theorem follows_createJSObject (henv : env.Silent) (entries : List (Option Utf16 × DartVal))
    (vm : VM) :
    Follows (entriesOutcome entries) vm (createJSObject env entries vm) := by
  rw [createJSObject]
  exact follows_container (show newObject vm = .ok _ _ from rfl) rfl fun vm₁ =>
    follows_setEntries henv _ entries vm₁

/-! ## Failed conversions -/

/-- The errors of a member whose type no conversion takes. -/
def DartError.Unsupported : DartError → Prop
  | notSupported _ => True
  | castError => True
  | _ => False

/-- Where the conversion throws because of a member's type, `dartHandlerMap` and
`_nextFuncHandlerId` are what they were. -/
def LeavesRegistry (conv : Dart JSValue) : Prop :=
  ∀ vm err vm', conv vm = .error (.throws err) vm' → err.Unsupported → vm'.registry = vm.registry

/-- A handler stands before the first member that has no supported type. -/
def Outcome.Partial (o : Outcome) : Prop :=
  ∃ err : DartError, err.Unsupported ∧ o = .refuses err true

/-- Whether the registry is left alone is told by the outcome: in a started engine the first
registration takes an id. -/
theorem leavesRegistry_iff {conv : Dart JSValue} {o : Outcome} (hrun : ∀ vm, Follows o vm (conv vm))
    {T : Ref → Prop} {n : ℕ} {Q : JSValue → VM → Prop} (hends : Ends T n VM.bare Q (conv VM.bare)) :
    LeavesRegistry conv ↔ ¬ o.Partial := by
  constructor
  · rintro hleaves ⟨err, hsup, rfl⟩
    -- in a fresh engine no id was taken before the conversion
    have hbare := hrun VM.bare
    cases hres : conv VM.bare with
    | ok v vm' =>
      rw [hres] at hbare
      obtain ⟨r, ho, -⟩ := hbare
      cases ho
    | error e vm' =>
      cases e with
      | crash =>
        rw [hres] at hends
        exact hends.2 rfl
      | throws err' =>
        rw [hres] at hbare
        obtain ⟨r, ho, hchanged⟩ := hbare
        cases ho
        have hsame := hleaves VM.bare err vm' hres hsup
        exact hchanged.2 rfl (congrArg Prod.snd hsame)
  · intro hpart vm err vm' hres hsup
    have hfollows := hrun vm
    rw [hres] at hfollows
    obtain ⟨r, rfl, hchanged⟩ := hfollows
    cases r with
    | false => exact hchanged.1 rfl
    | true => exact absurd ⟨err, hsup, rfl⟩ hpart

/-- `toJSVal` follows the outcome of its argument. -/
theorem follows_toJSVal (henv : env.Silent) (x : DartVal) (vm : VM) :
    Follows x.outcome vm (toJSVal env x vm) := by
  cases x with
  | int i =>
    simp only [toJSVal, DartVal.outcome, memberOutcome]
    split_ifs <;> exact follows_ok rfl rfl
  | double d => simp only [toJSVal, DartVal.outcome, memberOutcome]; exact follows_ok rfl rfl
  | string s => simp only [toJSVal, DartVal.outcome, memberOutcome]; exact follows_ok rfl rfl
  | bool b => simp only [toJSVal, DartVal.outcome, memberOutcome]; exact follows_ok rfl rfl
  | list elems =>
    simp only [toJSVal, DartVal.outcome, memberOutcome]
    exact follows_createJSArray henv elems vm
  | map entries =>
    simp only [toJSVal, DartVal.outcome, memberOutcome]
    exact follows_createJSObject henv entries vm
  | otherMap t => simp only [toJSVal, DartVal.outcome, memberOutcome]; exact follows_throw _ vm
  | _ => simp only [toJSVal, DartVal.outcome, memberOutcome]; exact follows_throw _ vm

/-- **Failed conversions.** In every state a conversion that throws because of a member's type
leaves the registry as it was, exactly for the values in which no handler stands before the first
such member. -/
theorem failed_conversion_iff (henv : env.Silent) :
    (∀ elems, LeavesRegistry (createJSArray env elems) ↔ ¬ (elemsOutcome elems).Partial) ∧
      (∀ entries,
        LeavesRegistry (createJSObject env entries) ↔ ¬ (entriesOutcome entries).Partial) ∧
      ∀ x, LeavesRegistry (toJSVal env x) ↔ ¬ x.outcome.Partial := by
  have hr := scriptFree_bare.region
  exact ⟨fun elems => leavesRegistry_iff (follows_createJSArray henv elems)
      (hr.createJSArray env elems),
    fun entries => leavesRegistry_iff (follows_createJSObject henv entries)
      (hr.createJSObject env entries),
    fun x => leavesRegistry_iff (follows_toJSVal henv x) (hr.toJSVal env x)⟩

/-- A started engine has no script code that could register anything. -/
theorem silent_bare : Env.bare.Silent where
  call _ _ _ _ := rfl
  setExotic _ _ _ _ _ := rfl
  defineExotic _ _ _ _ _ := rfl
  toNumber _ _ := rfl

/-- In `[1, null, handler]` the refused member comes first. -/
theorem failed_conversion_early :
    Env.bare.Silent ∧ LeavesRegistry (createJSArray Env.bare [.int 1, .null, .handler 0]) := by
  refine ⟨silent_bare, ((failed_conversion_iff silent_bare).1 _).2 ?_⟩
  rintro ⟨err, -, h⟩
  simp only [elemsOutcome, memberOutcome] at h
  cases h

/-- `[handler, null]` is refused with the handler registered under the id 1. -/
theorem failed_conversion_late :
    (∃ vm', createJSArray Env.bare [.handler 0, .null] VM.bare
        = .error (.throws (.notSupported "Null")) vm' ∧
      vm'.dartHandlerMap = some [(1, 0)] ∧ vm'.nextFuncHandlerId = some 1) ∧
      ¬ LeavesRegistry (createJSArray Env.bare [.handler 0, .null]) := by
  have hrun : ∃ vm', createJSArray Env.bare [.handler 0, .null] VM.bare
      = .error (.throws (.notSupported "Null")) vm' ∧
      vm'.dartHandlerMap = some [(1, 0)] ∧ vm'.nextFuncHandlerId = some 1 := by
    simp only [createJSArray, setElements, setMember]
    exact ⟨_, rfl, rfl, rfl⟩
  refine ⟨hrun, fun h => ?_⟩
  obtain ⟨vm', hres, -, hnext⟩ := hrun
  have hsame := congrArg Prod.snd (h VM.bare _ vm' hres trivial)
  cases hnext.symm.trans hsame

end QuickjsDart
