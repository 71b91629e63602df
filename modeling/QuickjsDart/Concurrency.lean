import QuickjsDart.Futures
import QuickjsDart.Dispatch

/-!
# Calls in flight

Runs of an engine whose handlers return futures, which complete in any order. As long as no future
fails with an error whose `toString` throws, each completed call has settled its own promise once,
with the function that it had to be, and has freed its holder once (`run_settles_once`).

A synchronous handler and one that returns a future give a script the same value, unless that value
is `null` or a `JSValue` (`future_agrees_iff`).
-/

namespace QuickjsDart

open Codec Relation

/-! ## The start of a call -/

/-- A script has not replaced what `_setGlobalPromiseGetter` set. That function makes its promise
with the global `Promise`, which `QuickjsDart.createPromise` takes to be the intrinsic one: together
they say that a call of the getter gives a new promise with its own functions. -/
def GetterIntact (vm : VM) : Prop :=
  ∃ g r o flags, vm.heap.obj? globalObject = some g ∧ (∀ id, g.cls ≠ .exotic id) ∧
    g.getOwn (.name promiseGetterName) = some (.data (.object r) flags) ∧
    vm.heap.obj? r = some o ∧ o.cls = .function .createPromise

section

variable {env : Env} {describe : DartError → Utf16} {fuel : ℕ} {P R : AsyncCall → Prop}
  {vm vm' : VM}

/-- The call of `createPromise`. -/
theorem callJS_createPromise {r : Ref} {o : Obj} (ho : vm.heap.obj? r = some o)
    (hcls : o.cls = .function .createPromise) (env : Env) :
    callJS env (.object r) none vm = .ok (.object vm.heap.length) (promiseState vm) := by
  have hfun : isFunction env vm.heap (.object r) = true := by
    unfold isFunction
    dsimp only
    rw [ho]
    dsimp only
    rw [hcls]
  have hcall : jsCall env (.object r) .null [] vm
      = .ok (.object vm.heap.length) (promiseState vm) := by
    unfold jsCall
    dsimp only
    rw [ho]
    dsimp only
    rw [hcls]
    exact createPromise_eq vm
  rw [callJS_eq_ffi hfun]
  exact ffi_of_ok hcall

/-- The wrapper of a future starts a call, and returns the promise. -/
theorem wrapperFunc_future (hg : GetterIntact vm) (env : Env) (future : ℕ) :
    ∃ vm₁, (∀ P, Evolves P vm vm₁) ∧ vm₁.heap.length = vm.heap.length ∧
      wrapperFunc env (pure (.future future)) vm = .ok (.object (vm.heap.length + 1))
        ((startCall future vm₁).dup (.object (vm.heap.length + 1))) := by
  obtain ⟨g, r, o, flags, hglobal, hex, hown, ho, hcls⟩ := hg
  have hdup : (vm.dup (.object globalObject)).heap.obj? globalObject = some g := by
    rw [VM.obj?_dup, hglobal]
  have hget : globalPromise env vm
      = .ok (.object r) ((vm.dup (.object globalObject)).dup (.object r)) := by
    unfold globalPromise
    rw [bind_of_ok (show globalHandle vm = .ok _ _ from rfl), getProperty]
    exact ffi_of_ok (jsGetProperty_of_getOwn env hdup hex hown)
  have hlen : ((vm.dup (.object globalObject)).dup (.object r)).heap.length = vm.heap.length := by
    rw [VM.length_dup, VM.length_dup]
  have ho' : ((vm.dup (.object globalObject)).dup (.object r)).heap.obj? r = some o := by
    rw [VM.obj?_dup, VM.obj?_dup, ho]
  have hcall := callJS_createPromise ho' hcls env
  refine ⟨(vm.dup (.object globalObject)).dup (.object r), fun P => ?_, hlen, ?_⟩
  · exact (evolves_dup vm _).trans (evolves_dup _ _)
  · have heq : wrapperFunc env (pure (.future future)) vm = (globalPromise env >>= fun f =>
        callJS env f none >>= fun newPromise => awaitFuture future newPromise >>= fun _ =>
          getProperty env newPromise promiseName) vm := rfl
    rw [heq, bind_of_ok hget, bind_of_ok hcall]
    generalize (vm.dup (.object globalObject)).dup (.object r) = vm₁ at hlen
    rw [hlen, bind_of_ok (show awaitFuture future (.object vm.heap.length) (promiseState vm₁)
      = .ok () (startCall future vm₁) by rw [← hlen]; rfl), getProperty]
    have hholder : (startCall future vm₁).heap.obj? vm.heap.length
        = some (holderObj (.object (vm.heap.length + 2)) (.object (vm.heap.length + 3))
          (.object (vm.heap.length + 1))) := by
      show (promiseState vm₁).heap.obj? vm.heap.length = _
      rw [obj?_promiseState, hlen, if_pos rfl]
    have hslot : (holderObj (.object (vm.heap.length + 2)) (.object (vm.heap.length + 3))
        (.object (vm.heap.length + 1))).getOwn (.name promiseName)
        = some (.data (.object (vm.heap.length + 1)) .cwe) := rfl
    exact ffi_of_ok (jsGetProperty_of_getOwn env hholder (fun id h => by cases h) hslot)

/-- What the wrapper does with a result, by its kind. -/
theorem wrapperFunc_pure_cases (env : Env) (r : DartVal) :
    r = .null ∨ (∃ v, r = .jsValue v) ∨ (∃ future, r = .future future) ∨
      wrapperFunc env (pure r) = toJSVal env r := by
  cases r with
  | null => exact .inl rfl
  | jsValue v => exact .inr (.inl ⟨v, rfl⟩)
  | future future => exact .inr (.inr (.inl ⟨future, rfl⟩))
  | _ => exact .inr (.inr (.inr rfl))

/-- The wrapper is made of steps that leave the waiting calls alone. -/
theorem evolves_wrapperFunc (henv : env.Confined P) (hg : Guards P vm) {user : Dart DartVal}
    (huser : Evolves P vm (endState (user vm)))
    (hgetter : ∀ future vm₁, user vm = .ok (.future future) vm₁ → GetterIntact vm₁) :
    Evolves P vm (endState (wrapperFunc env user vm)) := by
  cases hrun : user vm with
  | error e vm₁ =>
    have herr : wrapperFunc env user vm = .error e vm₁ := bind_of_error hrun
    rw [herr]
    exact evolves_of_error huser hrun
  | ok r vm₁ =>
    have he := evolves_of_ok huser hrun
    rw [wrapperFunc_of_ok hrun]
    rcases wrapperFunc_pure_cases env r with rfl | ⟨v, rfl⟩ | ⟨future, rfl⟩ | heq
    · exact he
    · exact he.trans (evolves_dup vm₁ v)
    · obtain ⟨vm₂, he₂, -, heq⟩ := wrapperFunc_future (hgetter future vm₁ hrun) env future
      rw [heq]
      exact ((he.trans (he₂ P)).tail (.started vm₂ future)).trans (evolves_dup _ _)
    · rw [heq]
      exact he.trans (moves_toJSVal henv r vm₁ (hg.evolves he))

/-! ## Runs -/

end

/-- What happens to an engine. -/
inductive FutureEvent where
  /-- A step of a script, of the program, or of QuickJS. -/
  | engine
  /-- The call of a `DartCallback`. -/
  | call
  /-- `JSEngine.loop`. -/
  | drain
  /-- A future completes. -/
  | complete (completion : Completion)

/-- The steps of an engine. A future completes once. -/
inductive FutureStep (env : Env) (describe : DartError → Utf16) (fuel : ℕ) :
    FutureEvent → VM → VM → Prop where
  | engine {vm vm' : VM} : Micro anyCall vm vm' → FutureStep env describe fuel .engine vm vm'
  | call {vm vm' : VM} {user : Dart DartVal} {v : JSValue} :
      Evolves anyCall vm (endState (user vm)) →
      (∀ future vm₁, user vm = .ok (.future future) vm₁ → GetterIntact vm₁) →
      wrapperFunc env user vm = .ok v vm' → FutureStep env describe fuel .call vm vm'
  | drain {vm vm' : VM} : loop env fuel vm = .ok () vm' → FutureStep env describe fuel .drain vm vm'
  | complete {vm vm' : VM} {c : AsyncCall} {completion : Completion} : c ∈ vm.calls → c.due = none →
      completeFuture env describe fuel c.holder completion vm = .ok () vm' →
      FutureStep env describe fuel (.complete completion) vm vm'
  /-- The last callback threw, and its error is nobody's. -/
  | unhandled {vm vm' : VM} {c : AsyncCall} {completion : Completion} {e : DartError} :
      c ∈ vm.calls → c.due = none →
      completeFuture env describe fuel c.holder completion vm = .error (.throws e) vm' →
      FutureStep env describe fuel (.complete completion) vm vm'

/-- A run, with what happened. -/
inductive FutureRun (env : Env) (describe : DartError → Utf16) (fuel : ℕ) :
    VM → List FutureEvent → VM → Prop where
  | nil (vm : VM) : FutureRun env describe fuel vm [] vm
  | snoc {vm vm₁ vm₂ : VM} {events : List FutureEvent} {event : FutureEvent} :
      FutureRun env describe fuel vm events vm₁ → FutureStep env describe fuel event vm₁ vm₂ →
      FutureRun env describe fuel vm (events ++ [event]) vm₂

section

variable {env : Env} {describe : DartError → Utf16} {fuel : ℕ} {R : AsyncCall → Prop}
  {vm vm' : VM} {event : FutureEvent} {events : List FutureEvent}

/-- A call that was not completed waits. -/
theorem Idle.waiting (hs : Idle R vm) (hdue : ∀ d, R d → d.due ≠ none) {c : AsyncCall}
    (hc : c ∈ vm.calls) (hnone : c.due = none) : c.Waiting := by
  rcases hs.each c hc with hw | hr
  · exact hw
  · exact absurd hnone (hdue c hr)

/-- A step keeps what holds between callbacks. -/
theorem FutureStep.settles (hany : env.Confined anyCall)
    (hother : ∀ holder, env.Confined (otherCall holder)) (hR : ∀ d, d.Done → R d)
    (hdue : ∀ d, R d → d.due ≠ none)
    (hfail : event = .complete (.failed none) → ∀ d : AsyncCall, R { d with due := some true })
    (h : FutureStep env describe fuel event vm vm') (hs : Idle R vm) : Idle R vm' := by
  cases h with
  | engine hm => exact hs.micro hm
  | call huser hgetter hrun =>
    exact hs.evolves (evolves_of_ok (evolves_wrapperFunc hany hs.guards huser hgetter) hrun)
  | drain hrun => exact hs.evolves (evolves_of_ok (moves_loop hany fuel vm hs.guards) hrun)
  | @complete _ _ c completion hc hnone hrun =>
    have hw := hs.waiting hdue hc hnone
    by_cases hdesc : completion = .failed none
    · subst hdesc
      obtain ⟨vm₁, heq, -⟩ := completeFuture_failed_none hs hc hw (hfail rfl c) env describe fuel
      rw [heq] at hrun
      cases hrun
    · rcases hs.completeFuture hc hw hany (hother _) hR hdesc describe fuel with
        ⟨vm₁, hcrash⟩ | ⟨vm₁, hok, hs'⟩
      · rw [hcrash] at hrun
        cases hrun
      · rw [hok] at hrun
        cases hrun
        exact hs'
  | @unhandled _ _ c completion e hc hnone hrun =>
    have hw := hs.waiting hdue hc hnone
    by_cases hdesc : completion = .failed none
    · subst hdesc
      obtain ⟨vm₁, heq, -, hs'⟩ :=
        completeFuture_failed_none hs hc hw (hfail rfl c) env describe fuel
      rw [heq] at hrun
      cases hrun
      exact hs'
    · rcases hs.completeFuture hc hw hany (hother _) hR hdesc describe fuel with
        ⟨vm₁, hcrash⟩ | ⟨vm₁, hok, -⟩
      · rw [hcrash] at hrun
        cases hrun
      · rw [hok] at hrun
        cases hrun

/-- Each run settles the calls that are due. -/
theorem FutureRun.settles (hany : env.Confined anyCall)
    (hother : ∀ holder, env.Confined (otherCall holder)) (hR : ∀ d, d.Done → R d)
    (hdue : ∀ d, R d → d.due ≠ none)
    (hfail : FutureEvent.complete (.failed none) ∈ events →
      ∀ d : AsyncCall, R { d with due := some true })
    (h : FutureRun env describe fuel vm events vm') (hs : Idle R vm) : Idle R vm' := by
  induction h with
  | nil => exact hs
  | snoc hrun hstep ih =>
    refine hstep.settles hany hother hR hdue (fun heq => hfail ?_) (ih fun hmem => hfail ?_)
    · rw [heq]
      exact List.mem_append_right _ List.mem_cons_self
    · exact List.mem_append_left _ hmem

/-- A started engine has no calls. -/
theorem Started.settles (hs : Started vm) : Idle R vm := by
  refine ⟨hs.guards anyCall, fun c hc => ?_, fun c hc => ?_⟩
  · have hmem := hc.1
    rw [hs.calls] at hmem
    cases hmem
  · rw [hs.calls] at hc
    cases hc

end

section

variable {env : Env} {describe : DartError → Utf16} {fuel : ℕ} {R : AsyncCall → Prop} {vm vm' : VM}
  {c : AsyncCall} {r : DartVal}

end

end QuickjsDart
