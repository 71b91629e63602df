import QuickjsDart.Futures
import QuickjsDart.Settlement

/-!
# One promise in two models

`Promise` has the resolving functions of the bridge's promises in the heap, with their flag at the
promise and one job for whatever was registered. `Reactions` has them with the flag that they share,
the two lists of reactions, and a job for each reaction. This module says that the two are models of
the same code: a promise of the one mirrors a promise of the other (`Mirrors`), and a call of one of
its functions does the same to both, up to the lookup of `then` and from there on
(`resolveFunctionCall_mirrors`).

What the values of the one are in the other is a relation `R`, since the objects of the two have
different places.
-/

namespace QuickjsDart

namespace Reactions

section

variable (R : JSValue → JSValue → Prop)

/-- What is required of the relation: objects are related to objects, and the promise to its image
and to nothing else. -/
structure Relates (p q : Ref) : Prop where
  isObject : ∀ {v w}, R v w → v.isObject = w.isObject
  self : ∀ {r x}, R (.object r) (.object x) → (r = p ↔ x = q)

/-- The same state, with related results. -/
inductive SameState : PromiseState → PromiseState → Prop
  | pending : SameState .pending .pending
  | fulfilled {v w : JSValue} (h : R v w) : SameState (.fulfilled v) (.fulfilled w)
  | rejected {v w : JSValue} (h : R v w) : SameState (.rejected v) (.rejected w)

/-- A promise of the heap and one of a machine, whose functions share the flag `c`: they are in the
same state, and the flags are the same. -/
def Mirrors (vm : VM) (p : Ref) (m : Machine) (q : Ref) (c : ℕ) : Prop :=
  ∃ o state already s, vm.heap.obj? p = some o ∧ o.cls = .promise state already ∧
    m.promise? q = some s ∧ SameState R state s.state ∧ m.presolved[c]? = some ⟨already, q⟩

/-- The jobs of a call. The one job for the reactions of the promise stands for a job for each
reaction that is on the list of its outcome. -/
inductive NewJobs (p : Ref) (m : Machine) (q : Ref) : List Job → List PromiseJob → Prop
  | none : NewJobs p m q [] []
  | reactions {s : PromiseData} (hs : m.promise? q = some s) (isReject : Bool) (w : JSValue) :
      NewJobs p m q [.reactions p]
        ((if isReject then s.rejectReactions else s.fulfillReactions).map fun rd =>
          .reaction rd isReject w)
  | thenable {v w f g : JSValue} (hv : R v w) (hf : R f g) :
      NewJobs p m q [.thenable p v f] [.thenable q w g]

/-- A step of both that keeps the image, and adds the same jobs. -/
structure MirrorStep (p q : Ref) (c : ℕ) (vm vm' : VM) (m m' : Machine) : Prop where
  mirrors : Mirrors R vm' p m' q c
  jobs : ∃ new new', vm'.jobs = vm.jobs ++ new ∧ m'.jobs = m.jobs ++ new' ∧
    NewJobs R p m q new new'

/-- How the lookup of `then` ends in the two. -/
inductive Looked (env : Env) : EStateM.Result JSFault VM JSValue → Outcome → Machine → Prop
  | value {t w : JSValue} {vm : VM} {m : Machine} (ht : R t w)
      (hf : isFunction env vm.heap t = m.isFunction w) : Looked env (.ok t vm) (.value w) m
  | throws {e : JSFault} {w : JSValue} {vm : VM} {m : Machine} (he : e ≠ .crash)
      (hw : R (jsGetException e vm).1 w) : Looked env (.error e vm) (.throws w) m

end

/-- The state of a machine after a function of the promise has set the flag. -/
def Machine.flagged (m : Machine) (q : Ref) (c : ℕ) : Machine :=
  { m with presolved := m.presolved.set c ⟨true, q⟩ }

section

variable {R : JSValue → JSValue → Prop} {env : Env} {vm vm' : VM} {m m' : Machine} {p q : Ref}
  {c : ℕ} {v w : JSValue}

/-! ## What keeps the image -/

/-- What leaves the promise, its image and the flag alone keeps the image. -/
theorem Mirrors.congr (h : Mirrors R vm p m q c) (hobj : vm'.heap.obj? p = vm.heap.obj? p)
    (hpromise : m'.promise? q = m.promise? q) (hflags : m'.presolved = m.presolved) :
    Mirrors R vm' p m' q c := by
  obtain ⟨o, state, already, s, ho, hcls, hs, hstate, hc⟩ := h
  exact ⟨o, state, already, s, hobj.trans ho, hcls, hpromise.trans hs, hstate, by rw [hflags, hc]⟩

/-- So does the release of a value. -/
theorem Mirrors.free (h : Mirrors R vm p m q c) (v : JSValue) : Mirrors R (vm.free v) p m q c :=
  h.congr (VM.obj?_free vm v p) rfl rfl

/-- The promise is an object of the heap. -/
theorem Mirrors.obj (h : Mirrors R vm p m q c) : ∃ o, vm.heap.obj? p = some o := by
  obtain ⟨o, state, already, s, ho, -⟩ := h
  exact ⟨o, ho⟩

/-- An exception that is taken is no promise. -/
theorem Mirrors.jsGetException (h : Mirrors R vm p m q c) (e : JSFault) :
    Mirrors R (QuickjsDart.jsGetException e vm).2 p m q c ∧
      (QuickjsDart.jsGetException e vm).2.jobs = vm.jobs := by
  obtain ⟨o, ho⟩ := h.obj
  cases e with
  | value u => exact ⟨h, rfl⟩
  | error | crash => exact ⟨h.congr ((obj?_alloc_of_some ho).trans ho.symm) rfl rfl, rfl⟩

/-- A step that adds no job. -/
theorem MirrorStep.of_mirrors (h : Mirrors R vm' p m' q c) (hjobs : vm'.jobs = vm.jobs)
    (hjobs' : m'.jobs = m.jobs) : MirrorStep R p q c vm vm' m m' :=
  ⟨h, [], [], by rw [hjobs, List.append_nil], by rw [hjobs', List.append_nil], .none⟩

/-- A value may be released after a step. -/
theorem MirrorStep.free (h : MirrorStep R p q c vm vm' m m') (v : JSValue) :
    MirrorStep R p q c vm (vm'.free v) m m' := ⟨h.mirrors.free v, h.jobs⟩

/-- The jobs of a call are about the promise as it was before the call. -/
theorem NewJobs.congr {new : List Job} {new' : List PromiseJob} (h : NewJobs R p m q new new')
    (hpromise : m'.promise? q = m.promise? q) : NewJobs R p m' q new new' := by
  cases h with
  | none => exact .none
  | reactions hs isReject w => exact .reactions (hpromise.trans hs) isReject w
  | thenable hv hf => exact .thenable hv hf

/-- A step may start where the queues and the promise of the machine are the same. -/
theorem MirrorStep.from {vm₀ : VM} {m₀ : Machine} (h : MirrorStep R p q c vm vm' m m')
    (hjobs : vm.jobs = vm₀.jobs) (hjobs' : m.jobs = m₀.jobs)
    (hpromise : m.promise? q = m₀.promise? q) : MirrorStep R p q c vm₀ vm' m₀ m' := by
  obtain ⟨hmirrors, new, new', hnew, hnew', hsame⟩ := h
  exact ⟨hmirrors, new, new', by rw [hnew, hjobs], by rw [hnew', hjobs'],
    hsame.congr hpromise.symm⟩

/-- Where the machine goes on does not matter. -/
theorem MirrorStep.goto (h : MirrorStep R p q c vm vm' m m') (k : Control) :
    MirrorStep R p q c vm vm' m (m'.goto k) := ⟨h.mirrors.congr rfl rfl rfl, h.jobs⟩

/-- The flag is set in both. -/
theorem Mirrors.flagged (h : Mirrors R vm p m q c) :
    Mirrors R (vm.flagged p) p (m.flagged q c) q c ∧ (vm.flagged p).jobs = vm.jobs ∧
      (vm.flagged p).heap.length = vm.heap.length := by
  obtain ⟨o, state, already, s, ho, hcls, hs, hstate, hc⟩ := h
  have hlt : c < m.presolved.length := (List.getElem?_eq_some_iff.1 hc).1
  have hflag : vm.flagged p = vm.setObj p { o with cls := .promise state true } := by
    unfold VM.flagged
    rw [ho]
    dsimp only
    rw [hcls]
  rw [hflag]
  refine ⟨⟨_, state, true, s, obj?_setObj_eq ho _, rfl, hs, hstate, ?_⟩, rfl,
    VM.length_setObj _ _ _⟩
  exact List.getElem?_set_self hlt

/-- `fulfill_or_reject_promise`. -/
theorem Mirrors.fulfillOrReject (h : Mirrors R vm p m q c) (hv : R v w) (isReject : Bool) :
    MirrorStep R p q c vm (fulfillOrRejectPromise p v isReject vm) m
      (Reactions.fulfillOrReject q w isReject m) := by
  have hsame := h
  obtain ⟨o, state, already, s, ho, hcls, hs, hstate, hc⟩ := h
  have hdup : (vm.dup v).heap.obj? p = some o := by rw [VM.obj?_dup, ho]
  unfold fulfillOrRejectPromise Reactions.fulfillOrReject
  rw [ho, hs]
  dsimp only
  rw [hcls]
  generalize hst : s.state = st at hstate
  cases hstate with
  | pending =>
    have hset := m.promise?_setPromise (p := q) (by rw [hs]; rfl)
    refine ⟨⟨_, if isReject then .rejected v else .fulfilled v, already, _,
      obj?_setObj_eq hdup _, rfl, (hset _ q).trans (if_pos rfl), ?_, hc⟩, _, _, rfl, rfl,
        .reactions hs isReject w⟩
    cases isReject with
    | true => exact .rejected hv
    | false => exact .fulfilled hv
  | fulfilled | rejected => exact .of_mirrors (hsame.congr rfl rfl rfl) rfl rfl

/-! ## Calls -/

/-- An object is a reference. -/
theorem exists_object_of_isObject (hv : v.isObject = true) : ∃ r, v = .object r := by
  cases v with
  | object r => exact ⟨r, rfl⟩
  | _ => cases hv

/-- A promise of the bridge starts as one of the machine does. -/
theorem createPromise_mirrors (vm : VM) (m : Machine) :
    Mirrors R (endState (createPromise vm)) (vm.heap.length + 1)
      (createResolvingFunctions m.objs.length (m.alloc (.promise ⟨.pending, [], [], false⟩)))
      m.objs.length m.presolved.length := by
  have hnew : (promiseState vm).heap.obj? (vm.heap.length + 1)
      = some (.fresh (.promise .pending false) promisePrototype) := by
    rw [obj?_promiseState, if_neg (Nat.succ_ne_self _), obj?_promiseCells, if_neg (by simp),
      if_neg (by simp), if_pos rfl]
  refine ⟨_, .pending, false, ⟨.pending, [], [], false⟩, hnew, rfl, ?_, .pending, ?_⟩
  · rw [Machine.promise?_createResolvingFunctions]
    simp [Machine.promise?, Machine.alloc, PromiseObj.promise?]
  · exact List.getElem?_concat_length

/-- The rest of a call after the lookup of `then`. -/
theorem resolveWithThen_mirrors {r x : Ref} (hr : r ≠ p)
    {looked : EStateM.Result JSFault VM JSValue} {outcome : Outcome}
    (hlook : jsGetProperty env (.object r) (.name thenName) vm = looked)
    (hl : Looked R env looked outcome m) (h : Mirrors R (endState looked) p m q c)
    (hrx : R (.object r) (.object x)) :
    ∃ vm', resolvePromise env p false (.object r) vm = .ok .undefined vm' ∧
      MirrorStep R p q c (endState looked) vm' m (resolveWithThen q (.object x) outcome m) := by
  unfold resolvePromise resolveWithThen
  dsimp only
  rw [if_neg hr, hlook]
  cases hl with
  | @value t u vm₁ _ ht hf =>
    dsimp only
    rw [← hf]
    cases hfun : isFunction env vm₁.heap t with
    | true =>
      have hobj : ((((vm₁.dup (.object p)).dup (.object r)).dup t).enqueue
          (.thenable p (.object r) t)).heap.obj? p = vm₁.heap.obj? p := by
        show (((vm₁.dup _).dup _).dup _).heap.obj? p = _
        rw [VM.obj?_dup, VM.obj?_dup, VM.obj?_dup]
      have hstep : MirrorStep R p q c vm₁ ((((vm₁.dup (.object p)).dup (.object r)).dup t).enqueue
          (.thenable p (.object r) t)) m (m.enqueue (.thenable q (.object x) u)) :=
        ⟨h.congr hobj rfl rfl, _, _, rfl, rfl, .thenable hrx ht⟩
      exact ⟨_, rfl, (hstep.free t).goto _⟩
    | false =>
      have hstep : MirrorStep R p q c vm₁ _ m _ :=
        ((h.free t).fulfillOrReject hrx false).from rfl rfl rfl
      exact ⟨_, rfl, hstep.goto _⟩
  | @throws e u vm₁ _ he hw =>
    obtain ⟨hexc, hjobs⟩ := h.jsGetException e
    have hstep := ((hexc.fulfillOrReject hw true).free (QuickjsDart.jsGetException e vm₁).1).from
      hjobs rfl rfl
    cases e with
    | crash => exact absurd rfl he
    | error | value => exact ⟨_, rfl, hstep.goto _⟩

/-- The first call of a function of the promise in the heap. -/
theorem Mirrors.resolvePromise (h : Mirrors R vm p m q c) (hc : m.presolved[c]? = some ⟨false, q⟩)
    (env : Env) (isReject : Bool) (args : List JSValue) :
    QuickjsDart.resolveFunctionCall env p isReject args vm
      = QuickjsDart.resolvePromise env p isReject (args.headD .undefined) (vm.flagged p) := by
  obtain ⟨o, state, already, s, ho, hcls, -, -, hc'⟩ := h
  cases hc.symm.trans hc'
  unfold QuickjsDart.resolveFunctionCall VM.flagged
  rw [ho]
  dsimp only
  rw [hcls]

/-- A call that rejects, or whose argument is no object, looks up nothing. -/
theorem resolvePromise_direct {isReject : Bool} {v : JSValue}
    (hv : isReject = true ∨ v.isObject = false) : resolvePromise env p isReject v vm
      = .ok .undefined (fulfillOrRejectPromise p v isReject vm) := by
  cases isReject with
  | true => rfl
  | false =>
    cases v with
    | object r => simp [JSValue.isObject] at hv
    | _ => rfl

/-- The same of a function of the machine. -/
theorem resolveFunctionCall_direct (hc : m.presolved[c]? = some ⟨false, q⟩) {isReject : Bool}
    {args : List JSValue} (hv : isReject = true ∨ (args.headD .undefined).isObject = false) :
    resolveFunctionCall isReject q c args m
      = (fulfillOrReject q (args.headD .undefined) isReject (m.flagged q c)).goto
          (.ret (.value .undefined)) := by
  unfold resolveFunctionCall
  rw [hc]
  dsimp only
  cases isReject with
  | true => rfl
  | false =>
    generalize args.headD .undefined = v at hv
    cases v with
    | object r => simp [JSValue.isObject] at hv
    | _ => rfl

/-- A call with an object: the promise itself, or one whose `then` is looked up. -/
theorem resolveFunctionCall_object (hc : m.presolved[c]? = some ⟨false, q⟩) {args : List JSValue}
    {x : Ref} (hx : args.headD .undefined = .object x) :
    resolveFunctionCall false q c args m
      = if x = q then
          (fulfillOrReject q (.object m.objs.length) true ((m.flagged q c).alloc .object)).goto
            (.ret (.value .undefined))
        else ((m.flagged q c).push (.getThen q (.object x))).goto .code := by
  unfold resolveFunctionCall
  rw [hc]
  dsimp only
  rw [hx]
  rfl

/-- **The two are models of one code.** A call of a function of the promise in the heap and the call
of the function of its image, with related arguments, end with related promises and the same new
jobs; or both look up `then` of related objects, and do so from there on. -/
theorem resolveFunctionCall_mirrors (hR : Relates R p q) (h : Mirrors R vm p m q c)
    (isReject : Bool) {args args' : List JSValue}
    (hargs : R (args.headD .undefined) (args'.headD .undefined))
    (herror : R (.object vm.heap.length) (.object m.objs.length)) :
    (∃ vm', QuickjsDart.resolveFunctionCall env p isReject args vm = .ok .undefined vm' ∧
        (resolveFunctionCall isReject q c args' m).control = .ret (.value .undefined) ∧
        MirrorStep R p q c vm vm' m (resolveFunctionCall isReject q c args' m)) ∨
      ∃ r x, args.headD .undefined = .object r ∧ args'.headD .undefined = .object x ∧
        resolveFunctionCall isReject q c args' m
          = ((m.flagged q c).push (.getThen q (.object x))).goto .code ∧
        Mirrors R (vm.flagged p) p (resolveFunctionCall isReject q c args' m) q c ∧
        ∀ {looked outcome m₁},
          jsGetProperty env (.object r) (.name thenName) (vm.flagged p) = looked →
          Looked R env looked outcome m₁ → Mirrors R (endState looked) p m₁ q c →
          ∃ vm', QuickjsDart.resolveFunctionCall env p isReject args vm = .ok .undefined vm' ∧
            MirrorStep R p q c (endState looked) vm' m₁
              (resolveWithThen q (.object x) outcome m₁) := by
  obtain ⟨hflag, hjobs, hlen⟩ := h.flagged
  obtain ⟨o, state, already, s, ho, hcls, -, -, hc⟩ := id h
  cases already with
  | true =>
    -- a function of the promise was called before
    refine .inl ⟨vm, ?_, ?_⟩
    · unfold QuickjsDart.resolveFunctionCall
      rw [ho]
      dsimp only
      rw [hcls]
    · unfold resolveFunctionCall
      rw [hc]
      exact ⟨rfl, .of_mirrors (h.congr rfl rfl rfl) rfl rfl⟩
  | false =>
    rw [h.resolvePromise hc]
    by_cases hdirect : isReject = true ∨ (args.headD .undefined).isObject = false
    · have hdirect' := hR.isObject hargs ▸ hdirect
      rw [resolveFunctionCall_direct hc hdirect', resolvePromise_direct hdirect]
      have hstep : MirrorStep R p q c vm _ m _ :=
        (hflag.fulfillOrReject hargs isReject).from hjobs rfl rfl
      exact .inl ⟨_, rfl, rfl, hstep.goto _⟩
    · obtain ⟨hrej, hobj⟩ := not_or.1 hdirect
      obtain rfl : isReject = false := Bool.eq_false_iff.2 hrej
      have hkind := hR.isObject hargs
      obtain ⟨r, hr⟩ := exists_object_of_isObject (Bool.eq_true_of_not_eq_false hobj)
      obtain ⟨x, hx⟩ := exists_object_of_isObject (hkind ▸ Bool.eq_true_of_not_eq_false hobj)
      rw [hr, hx] at hargs
      rw [resolveFunctionCall_object hc hx]
      by_cases hself : r = p
      · -- the promise itself: both reject it with a new error
        rw [if_pos ((hR.self hargs).1 hself)]
        have halloc : Mirrors R ((vm.flagged p).alloc (.obj (.fresh .error errorPrototype))) p
            ((m.flagged q c).alloc .object) q c := by
          obtain ⟨o', ho'⟩ := hflag.obj
          exact hflag.congr ((obj?_alloc_of_some ho').trans ho'.symm)
            (Machine.promise?_alloc _ rfl q) rfl
        have hstep : MirrorStep R p q c vm _ m _ :=
          ((halloc.fulfillOrReject (hlen ▸ herror) true).free
            (.object (vm.flagged p).heap.length)).from hjobs rfl
              (m.promise?_alloc (show PromiseObj.object.promise? = none from rfl) q)
        refine .inl ⟨_, ?_, rfl, hstep.goto _⟩
        rw [hr]
        unfold QuickjsDart.resolvePromise
        dsimp only
        rw [if_pos hself]
        rfl
      · have hself' : x ≠ q := fun hxq => hself ((hR.self hargs).2 hxq)
        rw [if_neg hself']
        refine .inr ⟨r, x, hr, hx, rfl, hflag.congr rfl rfl rfl, fun hlook hl hm => ?_⟩
        rw [hr]
        exact resolveWithThen_mirrors hself hlook hl hm hargs

end

end Reactions

end QuickjsDart
