import QuickjsDart.Collector
import QuickjsDart.Integrity
import QuickjsDart.Mutation
import QuickjsDart.Dispatch
import QuickjsDart.Marshal.RoundTrip

/-!
# Every operation is lawful

The operations of QuickJS and of the bridge change objects only in the ways of `ObjStep`, if
scripts, handlers and exotic objects do (`Env.Lawful`): such changes are a ledger (`lawful`). So a
run of operations keeps what every change keeps: sound heaps stay sound, frozen objects stay as they
are, and the prototype chain of every object ends.

A value that is put in a property, or taken as a prototype, has to be one of the heap (`Inside`).
-/

namespace QuickjsDart

open Codec Relation

/-! ## Keys -/

/-- The decimal digits of a number are read back. -/
theorem natOfText_natText (n : ℕ) : natOfText (natText n) = some n := by
  have hmap : (natText n).map UInt16.toNat = (natDigits n).map digitChar := by
    rw [natText, asciiUnits, List.map_map]
    conv_rhs => rw [← List.map_id ((natDigits n).map digitChar)]
    refine List.map_congr_left fun c hc => ?_
    obtain ⟨d, -, rfl⟩ := List.mem_map.1 hc
    have hlt : digitChar d < 2 ^ 16 := by
      have := d.isLt
      unfold digitChar
      omega
    simpa using hlt
  have hspan : spanDigits ((natText n).map UInt16.toNat) = (natDigits n, []) := by
    have hnil : NoDigit [] := by simp [NoDigit]
    have hd := spanDigits_map (natDigits n) hnil
    rwa [List.append_nil, ← hmap] at hd
  unfold natOfText
  rw [hspan]
  cases hd : natDigits n with
  | nil => exact absurd hd (natDigits_ne_nil n)
  | cons d ds =>
    have hval : digitsVal (d :: ds) = n := by rw [← hd, digitsVal_natDigits]
    simp [hval]

/-- A text that is an index gets the key of the index. -/
theorem canonical_ofString (s : Utf16) : (PropKey.ofString s).Canonical := by
  intro t ht
  rw [PropKey.text_ofString_eq, Option.some_inj] at ht
  rw [ht]

/-- A negative number is a name, any other an index. -/
theorem canonical_ofInt32 (n : Int32) : (PropKey.ofInt32 n).Canonical := by
  intro t ht
  unfold PropKey.ofInt32 at ht ⊢
  split_ifs at ht ⊢ with hn
  · have hlt : n.toInt.toNat < 2 ^ 31 := by
      have := n.toInt_lt
      omega
    cases ht
    rw [PropKey.ofString, natOfText_natText]
    exact if_pos hlt
  · cases ht
    have hspan : natOfText (asciiUnits (0x2D :: (natDigits n.toInt.natAbs).map digitChar))
        = none := by
      unfold natOfText asciiUnits
      rw [List.map_cons, List.map_cons, spanDigits, if_neg (by decide)]
    rw [PropKey.ofString, hspan]

/-- The keys of the bridge are canonical, whatever name they are made of. -/
theorem canonical_key (name : PropName) : name.key.Canonical := by
  unfold PropName.key
  cases name with
  | int n => exact canonical_ofInt32 _
  | string s => exact canonical_ofString _
  | null => exact canonical_ofString _

/-! ## QuickJS -/

/-- The value is one of the heap. -/
def JSValue.Inside (h : Heap) (v : JSValue) : Prop := ∀ r, v = .object r → r < h.length

/-- A larger heap has the same values and more. -/
theorem JSValue.Inside.mono {h h' : Heap} {v : JSValue} (hv : v.Inside h)
    (hle : h.length ≤ h'.length) : v.Inside h' := fun r hr => (hv r hr).trans_le hle

/-- The changes between two states. -/
def VM.Changes (vm vm' : VM) : Prop := QuickjsDart.Changes vm.heap vm'.heap

/-- No change at all. -/
theorem VM.Changes.refl (vm : VM) : vm.Changes vm := ReflTransGen.refl

/-- Changes after changes. -/
theorem VM.Changes.trans {vm₁ vm₂ vm₃ : VM} (h₁ : vm₁.Changes vm₂) (h₂ : vm₂.Changes vm₃) :
    vm₁.Changes vm₃ := ReflTransGen.trans h₁ h₂

/-- Changes keep a heap sound. -/
theorem VM.Changes.sound {vm vm' : VM} (h : vm.Changes vm') (hs : vm.heap.Sound) :
    vm'.heap.Sound := QuickjsDart.Changes.sound h hs

/-- Changes delete no cell, so a value stays one of the heap. -/
theorem VM.Changes.inside {vm vm' : VM} (h : vm.Changes vm') {v : JSValue} (hv : v.Inside vm.heap) :
    v.Inside vm'.heap := hv.mono (QuickjsDart.Changes.length_le h)

section

variable {α β ε : Type}

/-- What an operation does to the heap, whether it returns or raises. -/
def Lawful (act : EStateM ε VM α) (vm : VM) : Prop := vm.Changes (endState (act vm))

variable {vm vm' : VM}

/-- What a computation that returns did. -/
theorem Lawful.ok {act : EStateM ε VM α} {a : α} (h : Lawful act vm) (hrun : act vm = .ok a vm') :
    vm.Changes vm' := by
  unfold Lawful at h
  rwa [hrun] at h

/-- What a computation that throws did. -/
theorem Lawful.error {act : EStateM ε VM α} {e : ε} (h : Lawful act vm)
    (hrun : act vm = .error e vm') : vm.Changes vm' := by
  unfold Lawful at h
  rwa [hrun] at h

/-- A value at hand changes nothing. -/
theorem lawful_pure (a : α) : Lawful (pure a : EStateM ε VM α) vm := .refl _

/-- One computation after the other, which starts in a state that the first one led to. -/
theorem Lawful.bind {x : EStateM ε VM α} {f : α → EStateM ε VM β} (hx : Lawful x vm)
    (hf : ∀ a vm', x vm = .ok a vm' → vm.Changes vm' → Lawful (f a) vm') :
    Lawful (x >>= f) vm := by
  cases hrun : x vm with
  | ok a vm' =>
    have hc := hx.ok hrun
    unfold Lawful
    rw [bind_of_ok hrun]
    exact hc.trans (hf a vm' hrun hc)
  | error e vm' =>
    unfold Lawful
    rw [bind_of_error hrun]
    exact hx.error hrun

/-- A call from Dart into C also writes the pending exception, which is no object. -/
theorem Lawful.ffi {op : JS α} {dflt : α} (h : Lawful op vm) : Lawful (ffi dflt op) vm := by
  unfold Lawful QuickjsDart.ffi
  cases hrun : op vm with
  | ok a vm' => exact h.ok hrun
  | error e vm' =>
    have hc := h.error hrun
    cases e <;> exact hc

end

section

variable {vm : VM} {env : Env}

/-- `JS_DupValue` changes a count only. -/
theorem changes_dup (vm : VM) (v : JSValue) : vm.Changes (vm.dup v) :=
  ReflTransGen.single (.counts (fun r => VM.obj?_dup vm v r) (by simp))

/-- `JS_FreeValue` changes counts only. -/
theorem changes_free (vm : VM) (v : JSValue) : vm.Changes (vm.free v) := by
  have hobj : ∀ r, (vm.free v).heap.obj? r = vm.heap.obj? r := VM.obj?_free vm v
  have hlen : (vm.free v).heap.length = vm.heap.length := Heap.length_freeValue vm.heap v
  exact ReflTransGen.single (.counts hobj hlen)

/-- References of the engine are released one by one. -/
theorem changes_release (vm : VM) (rs : List Ref) :
    vm.Changes (vm.mapHeap fun h => Memory.release Body.refs rs h) := by
  refine ReflTransGen.single (.counts (fun x => ?_) ?_)
  · simp [VM.mapHeap, Heap.obj?]
  · simp [VM.mapHeap]

/-- An object is written in a lawful way. -/
theorem changes_setObj {r : Ref} {o o' : Obj} (ho : vm.heap.obj? r = some o)
    (hstep : ObjStep vm.heap r o o') : vm.Changes (vm.setObj r o') :=
  ReflTransGen.single (.write ho hstep)

/-- A cell that is no object. -/
theorem changes_leaf (vm : VM) : vm.Changes (vm.alloc .leaf) :=
  ReflTransGen.single (.alloc (fun _ h => nomatch h) fun _ _ h => nomatch h)

/-- An object without properties is well formed, whatever its class. -/
theorem wellFormed_nil (cls : ObjClass) (proto : Option Ref) (extensible : Bool) :
    (⟨cls, proto, extensible, []⟩ : Obj).WellFormed :=
  ⟨.nil, fun _ hp => absurd hp List.not_mem_nil, fun _ => rfl⟩

/-- A new object without properties, of a prototype of the context. -/
theorem changes_fresh (hs : vm.heap.Sound) (cls : ObjClass) {proto : Ref}
    (hp : proto < fixedCells) : vm.Changes (vm.alloc (.obj (.fresh cls proto))) := by
  refine ReflTransGen.single (.alloc (fun o ho => ?_) fun o p ho hproto => ?_)
  · cases ho
    exact wellFormed_nil _ _ _
  · cases ho
    cases hproto
    exact hp.trans_le hs.fixed

/-- The references of a shape are duplicated. -/
theorem changes_dupRefs (vm : VM) (rs : List Ref) : vm.Changes (vm.dupRefs rs) := by
  induction rs generalizing vm with
  | nil => exact .refl _
  | cons r rs ih => exact (changes_dup vm _).trans (ih _)

/-- No cell is made for them. -/
theorem length_dupRefs (vm : VM) (rs : List Ref) :
    (vm.dupRefs rs).heap.length = vm.heap.length := by
  induction rs generalizing vm with
  | nil => rfl
  | cons r rs ih => exact (ih _).trans (VM.length_dup vm _)

/-- The chain is the same where the objects are. -/
theorem onChain_congr {h h' : Heap} (hobj : ∀ r, h'.obj? r = h.obj? r) (r : Ref) (n : ℕ)
    (start : Option Ref) : onChain h' r n start = onChain h r n start := by
  induction n generalizing start with
  | zero => rfl
  | succ n ih =>
    cases start with
    | none => rfl
    | some p => rw [onChain, onChain, hobj, ih]

/-- An object gets a prototype that its own chain does not come back from. -/
theorem changes_setProto {r : Ref} {o : Obj} (ho : vm.heap.obj? r = some o)
    (hext : o.extensible = true) {q : Option Ref} (hq : ∀ x, q = some x → x < vm.heap.length)
    (hchain : onChain vm.heap r (chainFuel vm.heap) q = false) :
    vm.Changes (vm.setProto r o q) := by
  have hlen := length_dupRefs vm (shapeRefs q)
  have ho' : (vm.dupRefs (shapeRefs q)).heap.obj? r = some o := by rw [VM.obj?_dupRefs, ho]
  have hchain' : onChain (vm.dupRefs (shapeRefs q)).heap r
      (chainFuel (vm.dupRefs (shapeRefs q)).heap) q = false := by
    rw [chainFuel, hlen, onChain_congr (VM.obj?_dupRefs vm _)]
    exact hchain
  have hset := changes_setObj ho' (.setProto hext (by rwa [hlen]) hchain')
  exact ((changes_dupRefs vm _).trans hset).trans (changes_release _ _)

/-- `JS_SetPrototype`, where that of an exotic object is lawful. -/
theorem lawful_jsSetPrototype {setPrototypeExotic : Ref → JSValue → JS Bool}
    (hexotic : ∀ r v, v.Inside vm.heap → Lawful (setPrototypeExotic r v) vm) (obj : JSValue)
    {protoVal : JSValue} (hv : protoVal.Inside vm.heap) :
    Lawful (jsSetPrototype setPrototypeExotic obj protoVal) vm := by
  unfold Lawful jsSetPrototype
  split_ifs
  · exact .refl _
  · cases hval : protoVal? protoVal with
    | none => exact .refl _
    | some proto =>
      have hin : ∀ x, proto = some x → x < vm.heap.length := by
        rintro x rfl
        cases protoVal with
        | object q => cases hval; exact hv x rfl
        | _ => cases hval
      cases obj with
      | object r =>
        dsimp only
        cases ho : vm.heap.obj? r with
        | none => exact .refl _
        | some o =>
          dsimp only
          cases hcls : o.cls with
          | exotic id => exact hexotic r protoVal hv
          | _ =>
            dsimp only
            split_ifs with hsame hext hchain
            · exact .refl _
            · exact .refl _
            · exact changes_setProto ho hext hin (by simpa using hchain)
            · exact .refl _
      | _ => exact .refl _

/-- Scripts, handlers and exotic objects change objects as QuickJS lets them, where they are given
values of the heap. -/
structure Env.Lawful (env : Env) : Prop where
  call : ∀ f this args vm, vm.heap.Sound → this.Inside vm.heap →
    (∀ a ∈ args, a.Inside vm.heap) → QuickjsDart.Lawful (env.call f this args) vm
  handler : ∀ h this args vm, vm.heap.Sound → this.Inside vm.heap →
    (∀ a ∈ args.getD [], a.Inside vm.heap) → QuickjsDart.Lawful (env.handler h this args) vm
  getExotic : ∀ r key this vm, vm.heap.Sound → this.Inside vm.heap →
    QuickjsDart.Lawful (env.getExotic r key this) vm
  setExotic : ∀ r key v this vm, vm.heap.Sound → v.Inside vm.heap → this.Inside vm.heap →
    QuickjsDart.Lawful (env.setExotic r key v this) vm
  defineExotic : ∀ r key v flags vm, vm.heap.Sound → v.Inside vm.heap →
    QuickjsDart.Lawful (env.defineExotic r key v flags) vm
  toNumber : ∀ v vm, vm.heap.Sound → v.Inside vm.heap → QuickjsDart.Lawful (env.toNumber v) vm
  runJob : ∀ job vm, vm.heap.Sound → QuickjsDart.Lawful (env.runJob job) vm

/-- The bare environment does nothing. -/
theorem lawful_bare : Env.bare.Lawful where
  call _ _ _ _ _ _ _ := .refl _
  handler _ _ _ _ _ _ _ := .refl _
  getExotic _ _ _ _ _ _ := .refl _
  setExotic _ _ _ _ _ _ _ _ := .refl _
  defineExotic _ _ _ _ _ _ _ := .refl _
  toNumber _ _ _ _ := .refl _
  runJob _ _ _ := .refl _

/-- Elements of an array are deleted, all of them configurable. -/
theorem changes_cutObj {r : Ref} {o : Obj} {oldLen : ℕ} (ho : vm.heap.obj? r = some o)
    (hcls : o.cls = .array oldLen) (len : ℕ) {gone : PropKey → Bool}
    (hgone : ∀ p ∈ o.props, gone p.1 = true → p.2.flags.configurable = true) :
    vm.Changes (vm.cutObj r o len gone) :=
  (changes_setObj ho (.cut len gone hcls hgone)).trans (changes_release _ _)

/-! ## Promises -/

/-- The three properties of the holder are distinct. -/
theorem wellFormed_holder (a b c : JSValue) : (holderObj a b c).WellFormed := by
  have hkeys : (holderObj a b c).props.map Prod.fst
      = [.name resolveName, .name rejectName, .name promiseName] := rfl
  refine ⟨?_, fun p hp => ?_, ?_⟩
  · rw [hkeys]
    decide
  · have hmem := List.mem_map_of_mem (f := Prod.fst) hp
    rw [hkeys] at hmem
    simp only [List.mem_cons, List.not_mem_nil, or_false] at hmem
    rcases hmem with hk | hk | hk
    · rw [hk]
      exact canonical_ofString resolveName
    · rw [hk]
      exact canonical_ofString rejectName
    · rw [hk]
      exact canonical_ofString promiseName
  · intro h
    cases h

/-- A value is assigned to a property that is there and writable. -/
theorem changes_assign {r : Ref} {o o' : Obj} {key : PropKey} {old v : JSValue}
    (ho : vm.heap.obj? r = some o) (hfind : findSlot key o.props = some (.data old .cwe))
    (hput : o.putOwn key (.data v .cwe) = o') : vm.Changes (vm.setObj r o') :=
  hput ▸ changes_setObj ho (.assign hfind rfl)

/-- The holder gets its properties one after the other. -/
theorem changes_holder {r : Ref}
    (ho : vm.heap.obj? r = some (holderObj .undefined .undefined .undefined)) (a b c : JSValue) :
    vm.Changes (vm.setObj r (holderObj a b c)) := by
  have ho₁ := obj?_setObj_eq ho (holderObj a .undefined .undefined)
  have ho₂ := obj?_setObj_eq ho₁ (holderObj a b .undefined)
  have h₁ : vm.Changes (vm.setObj r (holderObj a .undefined .undefined)) :=
    changes_assign ho (show findSlot (.name resolveName) _ = _ from rfl) rfl
  have h₂ := changes_assign ho₁ (show findSlot (.name rejectName) _ = _ from rfl)
    (show _ = holderObj a b .undefined from rfl)
  have h₃ := changes_assign ho₂ (show findSlot (.name promiseName) _ = _ from rfl)
    (show _ = holderObj a b c from rfl)
  refine ((h₁.trans h₂).trans h₃).trans (ReflTransGen.single (.counts (fun x => ?_) ?_))
  · simp only [VM.setObj, VM.mapHeap] at ho₁ ho₂ ⊢
    rw [Heap.obj?_setObj ho, Heap.obj?_setObj ho₂, Heap.obj?_setObj ho₁, Heap.obj?_setObj ho]
    by_cases hx : x = r
    · rw [if_pos hx, if_pos hx]
    · rw [if_neg hx, if_neg hx, if_neg hx, if_neg hx]
  · simp

/-- The cell of the holder, before its properties get their values. -/
theorem changes_allocHolder (hs : vm.heap.Sound) :
    vm.Changes (vm.alloc (.obj (holderObj .undefined .undefined .undefined))) := by
  refine ReflTransGen.single (.alloc (fun o ho => ?_) fun o p ho hproto => ?_)
  · cases ho
    exact wellFormed_holder _ _ _
  · cases ho
    cases hproto
    exact Nat.lt_of_lt_of_le (by decide) hs.fixed

/-- A new object that is told by its class. -/
theorem VM.Changes.fresh {vm' : VM} (h : vm.Changes vm') (hs : vm.heap.Sound) (cls : ObjClass)
    {proto : Ref} (hp : proto < fixedCells) : vm.Changes (vm'.alloc (.obj (.fresh cls proto))) :=
  h.trans (changes_fresh (h.sound hs) cls hp)

/-- `createPromise` makes its cells one by one, and writes the holder at the end. -/
theorem lawful_createPromise (hs : vm.heap.Sound) : Lawful createPromise vm := by
  unfold Lawful
  rw [createPromise_eq]
  have hpromise := (changes_allocHolder hs).fresh hs (.promise .pending false)
    (show promisePrototype < fixedCells by decide)
  have hresolve := (hpromise.trans (changes_dup _ (.object (vm.heap.length + 1)))).fresh hs
    (.function (.resolving (vm.heap.length + 1) false))
    (show functionPrototype < fixedCells by decide)
  have hreject := (hresolve.trans (changes_dup _ (.object (vm.heap.length + 1)))).fresh hs
    (.function (.resolving (vm.heap.length + 1) true))
    (show functionPrototype < fixedCells by decide)
  have hcells : vm.Changes (promiseCells vm) := hreject
  exact hcells.trans (changes_holder (obj?_promiseCells_holder vm) _ _ _)

/-- A job is queued outside of the heap. -/
theorem changes_enqueue (vm : VM) (job : Job) : vm.Changes (vm.enqueue job) := ReflTransGen.refl

/-- A pending promise is settled, and any other is left alone. -/
theorem changes_fulfillOrReject (vm : VM) (promise : Ref) (v : JSValue) (isReject : Bool) :
    vm.Changes (fulfillOrRejectPromise promise v isReject vm) := by
  unfold fulfillOrRejectPromise
  cases ho : vm.heap.obj? promise with
  | none => exact .refl _
  | some o =>
    dsimp only
    cases hcls : o.cls with
    | promise state already =>
      cases state with
      | pending =>
        have hdup : (vm.dup v).heap.obj? promise = some o := by rw [VM.obj?_dup, ho]
        exact (changes_dup vm v).trans (changes_setObj hdup (.settle hcls))
      | _ => exact .refl _
    | _ => exact .refl _

/-! ## Whatever code does -/

/-- What code does to objects. -/
def changesLedger : Ledger where
  Good _ vm := vm.heap.Sound
  To _ vm _ vm' := vm.Changes vm'
  Lost := VM.Changes
  drop _ _ := .refl _
  trans := VM.Changes.trans
  good hs hc := hc.sound hs
  release _ := changes_release _ _
  lost hc := hc
  lost_trans := VM.Changes.trans
  lost_free := changes_free

/-- Code that is lawful keeps the ledger. -/
theorem ends_of_lawful {α : Type} {start own : List Ref} {refs : α → List Ref} {act : JS α}
    (h : Lawful act vm) : changesLedger.Ends start own refs vm (act vm) :=
  Ledger.ends_of_lost (fun hc => hc) h

/-- A value that refers to nothing is one of every heap. -/
theorem inside_of_refs {h : Heap} {v : JSValue} (hv : v.refs = []) : v.Inside h := by
  rintro r rfl
  cases hv

/-- A new cell is one of the heap. -/
theorem inside_new (vm : VM) (b : Body) :
    (JSValue.object vm.heap.length).Inside (vm.alloc b).heap := by
  intro r hr
  cases hr
  simp

/-- Reads. -/
def lawfulReading (henv : env.Lawful) : Reading env where
  toLedger := changesLedger
  Target vm v := v.Inside vm.heap
  Given vm v := v.Inside vm.heap
  Cell _ _ := True
  scalar := inside_of_refs
  given hv := hv
  cell _ _ := trivial
  owned _ _ := trivial
  primitive _ _ := trivial
  proto _ _ _ _ := trivial
  slot _ _ _ _ _ := trivial
  dup _ _ := changes_dup _ _
  leaf _ := changes_leaf _
  setProto _ _ hv ho hext hq hchain := changes_setProto ho hext (fun x hx => hv x (hq x hx)) hchain
  call hs _ hthis hargs := ends_of_lawful (henv.call _ _ _ _ hs hthis hargs)
  pend {_ vm _} _ := VM.Changes.refl vm
  getExotic hs _ hthis := ends_of_lawful (henv.getExotic _ _ _ _ hs hthis)

/-- Everything else. -/
def lawful (henv : env.Lawful) : Registry env where
  toReading := lawfulReading henv
  Held _ vm v := v.Inside vm.heap
  Callee _ _ _ := True
  Key key := key.Canonical
  Prom _ _ _ := True
  held hv hc _ := hc.inside hv
  scalarHeld := inside_of_refs
  target _ hv := hv
  cut curLen _ _ ho hcls hgone := changes_cutObj ho hcls curLen hgone
  add _ _ hkey ho hnone hext := changes_setObj ho (.add hkey hnone hext)
  assign _ _ ho hfind hw := changes_setObj ho (.assign hfind hw)
  setExotic key hs _ hv hthis := ends_of_lawful (henv.setExotic _ key _ _ _ hs hv hthis)
  toNumber hs hv := ends_of_lawful (henv.toNumber _ _ hs hv)
  error hs := changes_fresh hs .error (show errorPrototype < fixedCells by decide)
  callee _ _ := trivial
  promOf _ _ _ _ := trivial
  promKept _ _ _ _ _ := trivial
  promRead _ _ _ _ := trivial
  flag _ _ ho hcls := ⟨changes_setObj ho (.settle hcls), trivial⟩
  settle isReject _ _ _ := changes_fulfillOrReject _ _ _ isReject
  thenable _ _ _ := ((((changes_dup _ _).trans (changes_dup _ _)).trans
    (changes_dup _ _)).trans (changes_enqueue _ _)).trans (changes_free _ _)
  createPromise hs := ends_of_lawful (lawful_createPromise hs)
  handler {own vm h this args} hs hthis hargs := by
    have hc := henv.handler h this args vm hs hthis hargs
    exact ⟨fun v vm' hrun => hc.ok hrun, hc⟩
  raise {own vm} _ := Ledger.ends_of_lost (fun hc => hc) (VM.Changes.refl vm)
  anyCell _ _ := trivial
  anyGood hs := hs
  anyHeld hv := hv
  found hc := hc
  givenKept hv hc := hc.inside hv
  newString _ _ := fun _ hr => by cases hr
  keyOfName := canonical_key
  keyOfText := canonical_ofString
  fresh hs _ hproto := ⟨changes_fresh hs _ hproto, inside_new _ _⟩
  redefine _ _ _ ho hfind hconf := changes_setObj ho (.redefine hfind hconf)
  defineExotic r key flags hs hv := ends_of_lawful (henv.defineExotic r key _ flags _ hs hv)
  register {own vm h} hs := ⟨changes_fresh hs (.function (.dart (intValue _)))
    (show functionPrototype < fixedCells by decide), inside_new vm _⟩

/-! ## Runs -/

/-- An operation of the engine is lawful where its values are of the heap. -/
theorem lawful_exec (henv : env.Lawful) (hs : vm.heap.Sound) {op : EngineOp}
    (hvalues : ∀ v ∈ op.values, v.Inside vm.heap) : vm.Changes (op.exec env vm) := by
  have hglobal : (JSValue.object globalObject).Inside vm.heap := by
    intro r hr
    cases hr
    exact Nat.lt_of_lt_of_le (by decide) hs.fixed
  exact Registry.exec (D := lawful henv) hs hglobal hvalues fun _ _ _ => trivial

variable (env) (setPrototypeExotic : Ref → JSValue → JS Bool)

/-- A step of a program with the bridge. The values that it uses are of the heap. -/
inductive BridgeStep : VM → VM → Prop
  | engine {vm : VM} (op : EngineOp) (hvalues : ∀ v ∈ op.values, v.Inside vm.heap) :
      BridgeStep vm (op.exec env vm)
  | getProperty {vm : VM} (this : JSValue) (name : Utf16) (hthis : this.Inside vm.heap) :
      BridgeStep vm (endState (QuickjsDart.getProperty env this name vm))
  | setProtoType {vm : VM} (obj protoVal : JSValue) (hproto : protoVal.Inside vm.heap) :
      BridgeStep vm (endState (QuickjsDart.setProtoType setPrototypeExotic obj protoVal vm))
  | copy {vm : VM} (v : JSValue) : BridgeStep vm (vm.dup v)
  | free {vm : VM} (v : JSValue) : BridgeStep vm (vm.free v)
  | job {vm : VM} {job : Job} {rest : List Job} (hjobs : vm.jobs = job :: rest) :
      BridgeStep vm (endState (env.runJob job { vm with jobs := rest }))
  | runGC {vm : VM} {l : List Ref} {g : Collector} (hcov : vm.heap.Covers 0 [])
      (hl : GcObjList vm.heap l) (hrun : jsRunGC vm.heap l = some g) :
      BridgeStep vm { vm with heap := g.heap }

/-- One step after the other. -/
def BridgeRun : VM → VM → Prop := ReflTransGen (BridgeStep env setPrototypeExotic)

variable {env setPrototypeExotic}

/-- A step of a program makes lawful changes only. -/
theorem BridgeStep.changes (henv : env.Lawful) (hexotic : ∀ r v vm, vm.heap.Sound →
      v.Inside vm.heap → Lawful (setPrototypeExotic r v) vm) {vm vm' : VM} (hs : vm.heap.Sound)
    (hstep : BridgeStep env setPrototypeExotic vm vm') : vm.Changes vm' := by
  cases hstep with
  | engine op hvalues => exact lawful_exec henv hs hvalues
  | getProperty this name hthis =>
    have hg : (lawful henv).Good [] vm := hs
    exact ((lawful henv).ffi hg ((lawful henv).jsGetProperty hg hthis _) rfl).lost
  | setProtoType obj protoVal hproto =>
    have hset := lawful_jsSetPrototype (fun r v hv => hexotic r v vm hs hv) obj hproto
    exact hset.ffi.bind fun _ _ _ _ => lawful_pure obj
  | copy v => exact changes_dup vm v
  | free v => exact changes_free vm v
  | @job job rest hjobs => exact henv.runJob job { vm with jobs := rest } hs
  | @runGC l g hcov hl hrun =>
    obtain ⟨g', hg', hcollected⟩ := collected_jsRunGC hl (Memory.Owned.counted hcov)
    cases hrun.symm.trans hg'
    exact ReflTransGen.single (.counts (obj?_congr hcollected.body)
      (Memory.length_eq_of_body? hcollected.body))

/-- A run makes lawful changes only. -/
theorem BridgeRun.changes (henv : env.Lawful) (hexotic : ∀ r v vm, vm.heap.Sound →
      v.Inside vm.heap → Lawful (setPrototypeExotic r v) vm) {vm vm' : VM} (hs : vm.heap.Sound)
    (hrun : BridgeRun env setPrototypeExotic vm vm') : vm.Changes vm' := by
  induction hrun with
  | refl => exact .refl _
  | tail _ hstep ih => exact ih.trans (hstep.changes henv hexotic (ih.sound hs))

section

variable {vm vm' : VM} (henv : env.Lawful) (hexotic : ∀ r v vm, vm.heap.Sound →
  v.Inside vm.heap → Lawful (setPrototypeExotic r v) vm) (hs : vm.heap.Sound)
  (hrun : BridgeRun env setPrototypeExotic vm vm')

include henv hexotic hs hrun

/-- **Prototype chains end.** In every state of a run the prototypes have no cycle, and the loops
over them end before the fuel of the model does: with more of it a read and an assignment find the
same, and the check for a cycle sees the whole chain. -/
theorem chains_end : Memory.Acyclic vm'.heap.protoOf ∧
    ∀ start, (∀ x, start = some x → x < vm'.heap.length) →
      (∀ key n, chainFuel vm'.heap ≤ n →
        getWalk vm'.heap key n start = getWalk vm'.heap key (chainFuel vm'.heap) start ∧
        ∀ fast, setWalk vm'.heap fast key n start
          = setWalk vm'.heap fast key (chainFuel vm'.heap) start) ∧
      ∃ l, Memory.Chain vm'.heap.protoOf start l ∧ l.Nodup ∧
        ∀ r, onChain vm'.heap r (chainFuel vm'.heap) start = true ↔ r ∈ l := by
  have hsound := (hrun.changes henv hexotic hs).sound hs
  refine ⟨hsound.acyclic, fun start hstart => ?_⟩
  obtain ⟨l, hl, hlen⟩ := hsound.exists_chain hstart
  refine ⟨fun key n hn => ⟨?_, fun fast => ?_⟩, l, hl, hl.nodup hsound.acyclic, fun r => ?_⟩
  · exact getWalk_eq hl (hlen.trans_le hn) hlen key
  · exact setWalk_eq hl (hlen.trans_le hn) hlen fast key
  · rw [onChain_eq hl hlen, decide_eq_true_eq]

/-- **What is closed stays closed.** A frozen object has the same properties, prototype and class in
every state of a run. What it holds besides properties may change: the state of a promise, the bytes
of a buffer, and the `length` of an array where that is writable. Of any object the properties that
are not configurable stay, with their value where they are read-only, and one that is not extensible
gets no key and no other prototype. -/
theorem frozen_stays {r : Ref} {o : Obj} (ho : vm.heap.obj? r = some o) :
    (o.Frozen → ∃ cls, vm'.heap.obj? r = some { o with cls := cls } ∧ o.cls.Alters cls) ∧
      ∃ o', vm'.heap.obj? r = some o' ∧ o.Kept o' := by
  have hchanges : Changes vm.heap vm'.heap := hrun.changes henv hexotic hs
  exact ⟨hchanges.frozen ho, hchanges.kept ho⟩

/-- **Keys are distinct texts.** In every state of a run no object has two properties under one
name, also where the one was set by a number and the other by a string. -/
theorem keys_distinct {r : Ref} {o : Obj} (ho : vm'.heap.obj? r = some o) :
    ∀ p ∈ o.props, ∀ q ∈ o.props, ∀ s, p.1.text = some s → q.1.text = some s → p = q := by
  intro p hp q hq s hps hqs
  have hwf := ((hrun.changes henv hexotic hs).sound hs).objects r o ho
  have hkey : p.1 = q.1 := (hwf.canonical p hp s hps).symm.trans (hwf.canonical q hq s hqs)
  exact List.inj_on_of_nodup_map hwf.nodup hp hq hkey

end

/-! ## A started engine -/

/-- An object with one property is well formed where its key is. -/
theorem wellFormed_single {cls : ObjClass} (harr : cls.isArray = false) (proto : Option Ref)
    (extensible : Bool) {key : PropKey} (hkey : key.Canonical) (slot : Slot) :
    (⟨cls, proto, extensible, [(key, slot)]⟩ : Obj).WellFormed := by
  refine ⟨List.nodup_singleton key, fun p hp => ?_, fun h => ?_⟩
  · rw [List.mem_singleton.1 hp]
    exact hkey
  · rw [show cls.isArray = true from h] at harr
    cases harr

/-- The heap of a started engine is sound. -/
theorem sound_bare : VM.bare.heap.Sound := by
  have hobj : ∀ r o, VM.bare.heap.obj? r = some o →
      o.WellFormed ∧ ∀ p, o.proto = some p → p < r := by
    intro r o ho
    have hr : r < 9 := Heap.lt_length_of_obj? ho
    interval_cases r <;> cases ho
    · exact ⟨wellFormed_single rfl _ _ (canonical_ofString protoName) _, fun p hp => by cases hp⟩
    all_goals
      refine ⟨?_, fun p hp => by cases hp; decide⟩
      first
        | exact wellFormed_nil _ _ _
        | exact wellFormed_single rfl _ _ (canonical_ofString promiseGetterName) _
  have hproto : ∀ r p, VM.bare.heap.protoOf r = some p → p < r ∧ r < VM.bare.heap.length := by
    intro r p hp
    obtain ⟨o, ho, hop⟩ := Option.bind_eq_some_iff.1 hp
    exact ⟨(hobj r o ho).2 p hop, Heap.lt_length_of_obj? ho⟩
  refine ⟨fun r o ho => (hobj r o ho).1, fun r p hp => ?_, ?_, by decide⟩
  · obtain ⟨hlt, hlen⟩ := hproto r p hp
    exact hlt.trans hlen
  · exact Subrelation.wf (fun {p r} hp => (hproto r p hp).1) wellFounded_lt

/-- An exotic object that takes any prototype without looking at it is lawful. -/
theorem lawful_exoticTrue (r : Ref) (v : JSValue) (vm : VM) (_ : vm.heap.Sound)
    (_ : v.Inside vm.heap) : Lawful ((fun _ _ => pure true : Ref → JSValue → JS Bool) r v) vm :=
  lawful_pure true

/-- A heap with one empty object more. -/
def plainVM : VM := VM.bare.alloc (.obj (.fresh .object objectPrototype))

/-- The state that the runs below start in is sound. -/
theorem sound_plainVM : plainVM.heap.Sound :=
  (changes_fresh sound_bare .object (by decide)).sound sound_bare

/-- A prototype is set, and the way back is refused. -/
theorem chains_end_setProtoType : ∃ vm', BridgeRun Env.bare (fun _ _ => pure true) plainVM vm' ∧
    Memory.Acyclic vm'.heap.protoOf ∧ vm'.heap.protoOf 9 = some 1 ∧
    vm'.currentException = some (.error "circular prototype chain") := by
  have hrun : ∃ vm', BridgeRun Env.bare (fun _ _ => pure true) plainVM vm' ∧
      vm'.heap.protoOf 9 = some 1 ∧
      vm'.currentException = some (.error "circular prototype chain") := by
    refine ⟨_, .tail (.single (.setProtoType (.object 9) (.object 1) ?_))
      (.setProtoType (.object 1) (.object 9) ?_), ?_, ?_⟩
    · intro r hr
      cases hr
      decide
    · intro r hr
      cases hr
      decide
    · rfl
    · rfl
  obtain ⟨vm', hrun, hproto, hexc⟩ := hrun
  exact ⟨vm', hrun, (chains_end lawful_bare lawful_exoticTrue sound_plainVM hrun).1, hproto, hexc⟩

/-- A frozen object with one property. -/
def frozenObj : Obj :=
  ⟨.object, some objectPrototype, false, [(.index 0, .data (.int 1) ⟨false, true, false⟩)]⟩

/-- A started engine with the frozen object. -/
def frozenVM : VM := VM.bare.alloc (.obj frozenObj)

/-- The index 0 is a canonical key. -/
theorem canonical_index_zero : (PropKey.index 0).Canonical := canonical_ofInt32 0

/-- That heap is sound too. -/
theorem sound_frozenVM : frozenVM.heap.Sound := by
  refine Change.sound (.alloc (fun o ho => ?_) fun o p ho hp => ?_) sound_bare
  · cases ho
    exact wellFormed_single rfl _ _ canonical_index_zero _
  · cases ho
    cases hp
    decide

/-- An assignment to it leaves it as it is. -/
theorem frozen_stays_setProperty : frozenObj.Frozen ∧
    ∃ vm', BridgeRun Env.bare (fun _ _ => pure true) frozenVM vm' ∧
      vm'.currentException = some (.error "property is read-only") ∧
      vm'.heap.obj? 9 = some frozenObj := by
  have hfrozen : frozenObj.Frozen := by
    refine ⟨rfl, fun p hp => ?_⟩
    rw [List.mem_singleton.1 hp]
    exact ⟨rfl, fun v fl h => by cases h; rfl⟩
  have hrun : ∃ vm', BridgeRun Env.bare (fun _ _ => pure true) frozenVM vm' ∧
      vm'.currentException = some (.error "property is read-only") := by
    refine ⟨_, .single (.engine (.setProperty (.object 9) (.int 0) (.int 2) true) ?_), rfl⟩
    intro v hv r hr
    simp only [EngineOp.values, List.mem_cons, List.not_mem_nil, or_false] at hv
    rcases hv with rfl | rfl
    · cases hr
      decide
    · cases hr
  obtain ⟨vm', hrun, hexc⟩ := hrun
  have ho : frozenVM.heap.obj? 9 = some frozenObj := rfl
  obtain ⟨cls, ho', hcls⟩ :=
    (frozen_stays lawful_bare lawful_exoticTrue sound_frozenVM hrun ho).1 hfrozen
  cases hcls
  exact ⟨hfrozen, vm', hrun, hexc, ho'⟩

/-- The number 5 and the text "5" name one property. -/
theorem keys_distinct_setProperty : ∃ vm', BridgeRun Env.bare (fun _ _ => pure true) plainVM vm' ∧
    ∃ o, vm'.heap.obj? 9 = some o ∧ o.getOwn (.index 5) = some (.data (.int 2) .cwe) ∧
      ∀ p ∈ o.props, ∀ q ∈ o.props, ∀ s, p.1.text = some s → q.1.text = some s → p = q := by
  have hrun : ∃ vm', BridgeRun Env.bare (fun _ _ => pure true) plainVM vm' ∧
      ∃ o, vm'.heap.obj? 9 = some o ∧ o.getOwn (.index 5) = some (.data (.int 2) .cwe) := by
    refine ⟨_, .tail (.single (.engine (.setProperty (.object 9) (.int 5) (.int 1) true) ?_))
      (.engine (.setPropertyString (.object 9) [53] (.int 2)) ?_), _, rfl, rfl⟩
    all_goals
      intro v hv r hr
      simp only [EngineOp.values, List.mem_cons, List.not_mem_nil, or_false] at hv
      rcases hv with rfl | rfl
      · cases hr
        decide
      · cases hr
  obtain ⟨vm', hrun, o, ho, hget⟩ := hrun
  exact ⟨vm', hrun, o, ho, hget,
    keys_distinct lawful_bare lawful_exoticTrue sound_plainVM hrun ho⟩

end

end QuickjsDart
