import QuickjsDart.Wrapper
import QuickjsDart.Evolution
import QuickjsDart.Jobs
import QuickjsDart.Plain

/-!
# Returned futures

A handler that returns a future leaves a holder with the functions of a promise behind. When the
future completes, `thenCallback` resolves the promise with the converted value, and what throws in
there goes to `catchCallback`, which rejects it. Each of the two frees the holder and drains the job
queue.

The records of the calls in `VM.calls` count what is done to a holder and to its functions.
-/

namespace QuickjsDart

open Codec Relation

/-- How a future completes: with a value, or with an error that has a text, `none` where its
`toString` throws. -/
inductive Completion where
  | value (x : DartVal)
  | failed (text : Option Utf16)

/-- The promise has to be rejected: the future failed, or its value is no argument. -/
def Completion.rejects : Completion → Bool
  | value x => !x.isConvertible
  | failed _ => true

/-! ## Records -/

namespace AsyncCall

/-- A use of a handle, which counts where the handle was freed. -/
def used (v : JSValue) (c : AsyncCall) : AsyncCall :=
  if v = .object c.holder ∧ 0 < c.freed then { c with usedAfterFree := c.usedAfterFree + 1 } else c

/-- A call of a function. -/
def called (f : JSValue) (c : AsyncCall) : AsyncCall :=
  if f = .object c.resolve then { c with resolved := c.resolved + 1 }
  else if f = .object c.reject then { c with rejected := c.rejected + 1 }
  else c

/-- The release of a handle. -/
def released (v : JSValue) (c : AsyncCall) : AsyncCall :=
  if v = .object c.holder then { c with freed := c.freed + 1 } else c

/-- The future of the call with this holder has completed. -/
def completed (holder : Ref) (rejects : Bool) (c : AsyncCall) : AsyncCall :=
  if c.holder = holder then { c with due := some rejects } else c

end AsyncCall

/-- Change the records. -/
def VM.record (vm : VM) (f : AsyncCall → AsyncCall) : VM := { vm with calls := vm.calls.map f }

/-- Note something in the records. -/
def note (f : AsyncCall → AsyncCall) : Dart Unit := fun vm => .ok () (vm.record f)

/-! ## The callbacks -/

section

variable (env : Env) (describe : DartError → Utf16) (fuel : ℕ)

/-- A property of the holder. -/
def holderProperty (newPromise : JSValue) (name : Utf16) : Dart JSValue := do
  note (.used newPromise)
  getProperty env newPromise name

/-- The call of a function of the promise. -/
def settleWith (f arg : JSValue) : Dart Unit := do
  let _ ← callJS env f (some [arg])
  note (.called f)

/-- `newPromise.free()`. -/
def releaseHolder (newPromise : JSValue) : Dart Unit := do
  note (.used newPromise)
  freeHandle newPromise
  note (.released newPromise)

/-- `JSEngine.loop`. -/
def loop : Dart Unit := fun vm =>
  if vm.jobs.isEmpty then .ok () vm
  else (donePendingJobs env fuel (-1) >>= fun _ => pure ()) vm

/-- The argument of `resolve`. For a `JSValue` it is the pointer that `dupValue` returns, which is
no element of a `List<JSValue>`. -/
def resolveArgument : DartVal → Dart JSValue
  | .jsValue v => do
    let _ ← dupHandle v
    throw (.throws .castError)
  | x => toJSVal env x

/-- The argument of `reject`. -/
def rejectArgument : Option Utf16 → Dart JSValue
  | none => throw (.throws (.user 0))
  | some text => newString text

/-- What both callbacks do with the function and its argument. -/
def settleAndRelease (newPromise f arg : JSValue) : Dart Unit := do
  settleWith env f arg
  releaseHolder newPromise
  loop env fuel

/-- The callback of `then`. -/
def thenCallback (newPromise : JSValue) (value : DartVal) : Dart Unit := do
  let resolve ← holderProperty env newPromise resolveName
  let arg ← resolveArgument env value
  settleAndRelease env fuel newPromise resolve arg

/-- The callback of `catchError`. -/
def catchCallback (newPromise : JSValue) (text : Option Utf16) : Dart Unit := do
  let reject ← holderProperty env newPromise rejectName
  let arg ← rejectArgument text
  settleAndRelease env fuel newPromise reject arg

/-- The callbacks that a completed future runs: `catchError` follows `then`. -/
def futureCallbacks (newPromise : JSValue) : Completion → Dart Unit
  | .value x => fun vm =>
    match thenCallback env fuel newPromise x vm with
    | .error (.throws e) vm => catchCallback env fuel newPromise (some (describe e)) vm
    | r => r
  | .failed text => catchCallback env fuel newPromise text

/-- A future completes, and its callbacks run. -/
def completeFuture (holder : Ref) (completion : Completion) : Dart Unit := fun vm =>
  match futureCallbacks env describe fuel (.object holder) completion vm with
  | .ok _ vm => .ok () (vm.record (.completed holder completion.rejects))
  | .error e vm => .error e (vm.record (.completed holder completion.rejects))

end

/-- All calls. -/
def anyCall (_ : AsyncCall) : Prop := True

/-- All calls but the one with a holder. -/
def otherCall (holder : Ref) (c : AsyncCall) : Prop := c.holder ≠ holder

/-- The calls on other holders are calls. -/
theorem otherCall_any {holder : Ref} : ∀ c, otherCall holder c → anyCall c := fun _ _ => trivial

namespace AsyncCall

/-- The function that settles the promise of a call. -/
def settler (c : AsyncCall) (isReject : Bool) : Ref := if isReject then c.reject else c.resolve

/-- The record of a call whose promise is settled. -/
def settled (c : AsyncCall) (isReject : Bool) : AsyncCall :=
  if isReject then { c with rejected := c.rejected + 1 } else { c with resolved := c.resolved + 1 }

/-- The callbacks of the call have run: one of its functions was called once, the one that had to
be, and the holder was freed once and not used after. -/
def Done (c : AsyncCall) : Prop :=
  ∃ rejects, c.due = some rejects ∧ c.resolved = (if rejects then 0 else 1) ∧
    c.rejected = (if rejects then 1 else 0) ∧ c.freed = 1 ∧ c.usedAfterFree = 0

end AsyncCall

section

variable {env : Env} {describe : DartError → Utf16} {fuel : ℕ} {P : AsyncCall → Prop} {vm : VM}

/-! ## The cells of different calls -/

/-- Two calls are one, or one has all its cells before the other. -/
theorem Guards.apart_cases (hg : Guards P vm) {c d : AsyncCall} (hc : c ∈ vm.calls)
    (hd : d ∈ vm.calls) : c = d ∨ c.holder + 3 < d.holder ∨ d.holder + 3 < c.holder := by
  obtain ⟨i, hi, rfl⟩ := List.getElem_of_mem hc
  obtain ⟨j, hj, rfl⟩ := List.getElem_of_mem hd
  have hp := List.pairwise_iff_getElem.1 hg.apart
  rcases lt_trichotomy i j with hlt | rfl | hlt
  · exact .inr (.inl (hp i j hi hj hlt))
  · exact .inl rfl
  · exact .inr (.inr (hp j i hj hi hlt))

/-- Two calls with the same holder are one. -/
theorem Guards.holder_inj (hg : Guards P vm) {c d : AsyncCall} (hc : c ∈ vm.calls)
    (hd : d ∈ vm.calls) (h : d.holder = c.holder) : d = c := by
  rcases hg.apart_cases hc hd with rfl | hlt | hlt
  · rfl
  · grind
  · grind

/-- What a record says of a call of one of the functions of `c`. -/
theorem Guards.called_settler (hg : Guards P vm) {c d : AsyncCall} (hc : c ∈ vm.calls)
    (hd : d ∈ vm.calls) (isReject : Bool) : d.called (.object (c.settler isReject))
      = if d.holder = c.holder then d.settled isReject else d := by
  unfold AsyncCall.called AsyncCall.settler AsyncCall.settled AsyncCall.resolve AsyncCall.reject
  rcases hg.apart_cases hc hd with rfl | hlt | hlt
  · cases isReject <;> simp
  · rw [if_neg (by cases isReject <;> simp <;> grind),
      if_neg (by cases isReject <;> simp <;> grind), if_neg (by grind)]
  · rw [if_neg (by cases isReject <;> simp <;> grind),
      if_neg (by cases isReject <;> simp <;> grind), if_neg (by grind)]

/-! ## The settlement of one call -/

/-- No function of the promise at a cell was called. -/
def Unresolved (vm : VM) (p : Ref) : Prop :=
  ∃ o, vm.heap.obj? p = some o ∧ o.cls = .promise .pending false

/-- The promises of the waiting calls with `P` are unresolved. -/
def Fresh (P : AsyncCall → Prop) (vm : VM) : Prop := ∀ c, Guarded P vm c → Unresolved vm c.promise

/-- No step makes the holder of a call twice. -/
theorem Fresh.micro {vm' : VM} (hu : Fresh P vm) (hm : Micro P vm vm') : Fresh P vm' := by
  intro c hc
  rcases hm.guarded hc with hold | ⟨future, rfl, rfl⟩
  · obtain ⟨o, ho, hcls⟩ := hu c hold
    exact hm.guardedPromise hold ho hcls
  · refine ⟨.fresh (.promise .pending false) promisePrototype, ?_, rfl⟩
    show (promiseState vm).heap.obj? (vm.heap.length + 1) = _
    simp [obj?_promiseState, obj?_promiseCells]

/-- The same of fewer calls. -/
theorem Fresh.mono {Q : AsyncCall → Prop} (h : ∀ c, Q c → P c) (hu : Fresh P vm) : Fresh Q vm :=
  fun c hc => hu c (hc.mono h)

/-- The callbacks of the call with a holder are running: its record, and the other calls, which wait
or have `R`. -/
structure Settling (R : AsyncCall → Prop) (holder : Ref) (c : AsyncCall) (vm : VM) : Prop where
  guards : Guards (otherCall holder) vm
  fresh : Fresh (otherCall holder) vm
  mem : c ∈ vm.calls
  eq : c.holder = holder
  rest : ∀ d ∈ vm.calls, d.holder ≠ holder → d.Waiting ∨ R d

variable {R : AsyncCall → Prop} {vm' : VM} {holder : Ref} {c : AsyncCall}

/-- The call that is settled is left alone by code that leaves the others alone. -/
theorem Settling.micro (hs : Settling R holder c vm) (hm : Micro (otherCall holder) vm vm') :
    Settling R holder c vm' := by
  refine ⟨hs.guards.micro hm, hs.fresh.micro hm, ?_, hs.eq, fun d hd hne => ?_⟩
  · rcases hm.calls with heq | ⟨future, rfl⟩
    · rw [heq]
      exact hs.mem
    · exact List.mem_append_left _ hs.mem
  · rcases hm.calls with heq | ⟨future, rfl⟩
    · exact hs.rest d (heq ▸ hd) hne
    · rcases List.mem_append.1 hd with hold | hnew
      · exact hs.rest d hold hne
      · rw [List.mem_singleton.1 hnew]
        exact .inl ⟨rfl, rfl, rfl, rfl, rfl⟩

/-- The same of any number of steps. -/
theorem Settling.evolves (hs : Settling R holder c vm) (he : Evolves (otherCall holder) vm vm') :
    Settling R holder c vm' := by
  induction he with
  | refl => exact hs
  | tail _ hm ih => exact ih.micro hm

/-- A change of the record of the call. -/
theorem Settling.record (hs : Settling R holder c vm) {f g : AsyncCall → AsyncCall}
    (hf : ∀ d ∈ vm.calls, f d = if d.holder = holder then g d else d)
    (hg : (g c).holder = holder) : Settling R holder (g c) (vm.record f) := by
  have hfc : f c = g c := by rw [hf c hs.mem, if_pos hs.eq]
  have hcases : ∀ d ∈ vm.calls, d = c ∨ d.holder ≠ holder ∧ f d = d := by
    intro d hd
    by_cases hne : d.holder = holder
    · exact .inl (hs.guards.holder_inj hs.mem hd (hne.trans hs.eq.symm))
    · exact .inr ⟨hne, by rw [hf d hd, if_neg hne]⟩
  have hholder : ∀ d ∈ vm.calls, (f d).holder = d.holder := by
    intro d hd
    rcases hcases d hd with rfl | ⟨-, heq⟩
    · rw [hfc, hg, hs.eq]
    · rw [heq]
  have hother : ∀ d ∈ (vm.record f).calls, d.holder ≠ holder → d ∈ vm.calls := by
    intro d hd hne
    obtain ⟨d₀, hd₀, rfl⟩ := List.mem_map.1 hd
    rcases hcases d₀ hd₀ with rfl | ⟨-, heq⟩
    · exact absurd (hfc ▸ hg) hne
    · rwa [heq]
  refine ⟨⟨fun d hd => ?_, fun d hd => ?_, ?_, hs.guards.inHeap⟩, fun d hd => ?_, ?_, hg,
    fun d hd hne => ?_⟩
  · exact hs.guards.inFlight d ⟨hother d hd.1 hd.2.2, hd.2⟩
  · obtain ⟨d₀, hd₀, rfl⟩ := List.mem_map.1 hd
    show (f d₀).holder + 3 < vm.heap.length
    rw [hholder d₀ hd₀]
    exact hs.guards.bound d₀ hd₀
  · refine List.pairwise_map.2 (hs.guards.apart.imp_of_mem fun {a b} ha hb hab => ?_)
    show (f a).holder + 3 < (f b).holder
    rw [hholder a ha, hholder b hb]
    exact hab
  · exact hs.fresh d ⟨hother d hd.1 hd.2.2, hd.2⟩
  · exact hfc ▸ List.mem_map_of_mem hs.mem
  · exact hs.rest d (hother d hd hne) hne

/-- A record that says nothing changes nothing. -/
theorem record_eq_self {f : AsyncCall → AsyncCall} (hf : ∀ d ∈ vm.calls, f d = d) :
    vm.record f = vm := by
  unfold VM.record
  rw [List.map_congr_left hf, List.map_id']

/-- A use of a holder that was not freed. -/
theorem Settling.used_eq (hs : Settling R holder c vm) (hfreed : c.freed = 0) :
    vm.record (.used (.object holder)) = vm := by
  refine record_eq_self fun d hd => ?_
  unfold AsyncCall.used
  refine if_neg ?_
  rintro ⟨heq, hpos⟩
  have hd' : d.holder = c.holder := by
    cases heq
    exact hs.eq.symm
  rw [hs.guards.holder_inj hs.mem hd hd', hfreed] at hpos
  exact absurd hpos (Nat.lt_irrefl 0)

/-- The functions of a call in flight. -/
theorem InFlight.settler {h : Heap} (hf : InFlight h c) (isReject : Bool) :
    ∃ o, h.obj? (c.settler isReject) = some o ∧
      o.cls = .function (.resolving c.promise isReject) := by
  cases isReject with
  | false => exact hf.resolve
  | true => exact hf.reject

/-- A resolving function resolves its promise. -/
theorem callJS_settler (hf : InFlight vm.heap c) (isReject : Bool) (arg : JSValue) :
    callJS env (.object (c.settler isReject)) (some [arg]) vm
      = ffi .exception (resolveFunctionCall env c.promise isReject [arg]) vm := by
  obtain ⟨o, ho, hcls⟩ := hf.settler isReject
  have hfun : isFunction env vm.heap (.object (c.settler isReject)) = true := by
    unfold isFunction
    dsimp only
    rw [ho]
    dsimp only
    rw [hcls]
  have hcall : jsCall env (.object (c.settler isReject)) .null [arg] vm
      = resolveFunctionCall env c.promise isReject [arg] vm := by
    unfold jsCall
    dsimp only
    rw [ho]
    dsimp only
    rw [hcls]
  rw [callJS_eq_ffi hfun]
  unfold ffi
  rw [show (some [arg]).getD [] = [arg] from rfl, hcall]

/-- The call of a function of the promise leaves the other calls alone. -/
theorem Settling.call (henv : env.Confined (otherCall holder)) (hs : Settling R holder c vm)
    (hf : InFlight vm.heap c) (isReject : Bool) {arg : JSValue}
    (harg : Outside (otherCall holder) vm arg) :
    Evolves (otherCall holder) vm
      (endState (callJS env (.object (c.settler isReject)) (some [arg]) vm)) := by
  rw [callJS_settler hf]
  refine (evolves_resolveFunctionCall henv hs.guards (fun d hd heq => ?_) isReject
    fun v hv => ?_).ffi
  · refine hd.2.2 (hs.eq ▸ ?_)
    unfold AsyncCall.promise at heq
    exact (Nat.add_right_cancel heq).symm
  · rw [List.mem_singleton.1 hv]
    exact harg

/-! ## The job loop -/

/-- `JS_ExecutePendingJob` moves by steps. -/
theorem moves_jsExecutePendingJob (henv : env.Confined P) : Moves P (jsExecutePendingJob env) := by
  intro vm hg
  unfold jsExecutePendingJob
  cases hjobs : vm.jobs with
  | nil => exact .refl
  | cons job rest =>
    have hq : Evolves P vm { vm with jobs := rest } := .single (.queue vm rest)
    have hrun := henv.runJob job _ (hg.evolves hq)
    dsimp only
    cases hres : env.runJob job { vm with jobs := rest } with
    | ok a vm₁ => exact hq.trans (evolves_of_ok hrun hres)
    | error e vm₁ =>
      have he := hq.trans (evolves_of_error hrun hres)
      cases e with
      | crash => exact he
      | error m => exact he.tail (.exception vm₁ _)
      | value v => exact he.tail (.exception vm₁ _)

/-- So does `JS_GetException`. -/
theorem moves_takeException : Moves P takeException := by
  intro vm _
  unfold takeException
  cases vm.currentException with
  | none => exact .refl
  | some e => exact (evolves_getException e vm).tail (.exception _ none)

/-- So does `executePendingJobs`, of the jobs that it comes to. -/
theorem moves_executeJobs (henv : env.Confined P) (max : Int32) (fuel : ℕ) (executed : Int32) :
    Moves P (executeJobs env max fuel executed) := by
  induction fuel generalizing executed with
  | zero => exact moves_pure _
  | succ fuel ih =>
    rw [executeJobs]
    split_ifs
    · exact moves_pure _
    · refine (moves_jsExecutePendingJob henv).bind fun status => ?_
      split_ifs
      · exact moves_takeException.bind fun _ => moves_pure _
      · exact ih _
      · exact moves_pure _

/-- So does the loop. -/
theorem moves_loop (henv : env.Confined P) (fuel : ℕ) : Moves P (loop env fuel) := by
  intro vm hg
  unfold loop
  split_ifs
  · exact .refl
  · refine Moves.bind ?_ (fun _ => moves_pure _) vm hg
    exact (moves_executeJobs henv _ fuel 0).bind fun _ => moves_pure _

/-- A job throws no Dart error. -/
theorem decides_jsExecutePendingJob : Decides true (jsExecutePendingJob env) := by
  intro vm
  unfold jsExecutePendingJob
  cases vm.jobs with
  | nil => exact rfl
  | cons job rest =>
    dsimp only
    cases env.runJob job { vm with jobs := rest } with
    | ok a vm₁ => exact rfl
    | error e vm₁ => cases e <;> first | exact rfl | exact trivial

/-- Neither do many. -/
theorem decides_executeJobs (max : Int32) (fuel : ℕ) (executed : Int32) :
    Decides true (executeJobs env max fuel executed) := by
  induction fuel generalizing executed with
  | zero => exact decides_pure _
  | succ fuel ih =>
    rw [executeJobs]
    split_ifs
    · exact decides_pure _
    · refine decides_jsExecutePendingJob.after fun status => ?_
      split_ifs
      · refine (decides_of_ok fun vm => ?_).after fun _ => decides_pure _
        unfold takeException
        cases vm.currentException <;> exact ⟨_, _, rfl⟩
      · exact ih _
      · exact decides_pure _

/-- The loop does not throw. -/
theorem decides_loop (env : Env) (fuel : ℕ) : Decides true (loop env fuel) := by
  intro vm
  by_cases hjobs : vm.jobs.isEmpty
  · have hrun : loop env fuel vm = .ok () vm := if_pos hjobs
    rw [hrun]
  · have hrun : loop env fuel vm = (donePendingJobs env fuel (-1) >>= fun _ => pure ()) vm :=
      if_neg hjobs
    rw [hrun]
    refine Decides.after ?_ (fun _ => decides_pure _) vm
    exact (decides_executeJobs _ fuel 0).after fun _ => decides_pure _

/-! ## The callbacks -/

/-- The promise at a cell has a state. -/
def PromiseIs (vm : VM) (p : Ref) (state : PromiseState) : Prop :=
  ∃ o already, vm.heap.obj? p = some o ∧ o.cls = .promise state already

/-- Settled promises stay so. -/
def StaySettled (vm vm' : VM) : Prop :=
  ∀ p state, state ≠ .pending → PromiseIs vm p state → PromiseIs vm' p state

/-- What is settled stays so over any number of steps. -/
theorem Evolves.staySettled (he : Evolves P vm vm') : StaySettled vm vm' := by
  rintro p state hst ⟨o, already, ho, hcls⟩
  exact Evolves.settled he ho hcls hst

/-- The record of a call that was settled and freed. -/
def AsyncCall.finished (c : AsyncCall) (isReject : Bool) : AsyncCall :=
  { c.settled isReject with freed := (c.settled isReject).freed + 1 }

/-- A settled call was freed as before. -/
theorem AsyncCall.freed_settled (c : AsyncCall) (isReject : Bool) :
    (c.settled isReject).freed = c.freed := by
  cases isReject <;> rfl

/-- A settled call has the same holder. -/
theorem AsyncCall.holder_settled (c : AsyncCall) (isReject : Bool) :
    (c.settled isReject).holder = c.holder := by
  cases isReject <;> rfl

/-- The state in which a callback starts the loop, after the function `f` has returned in `vm`. -/
def VM.afterSettle (vm : VM) (holder f : Ref) : VM :=
  ((vm.record (.called (.object f))).free (.object holder)).record (.released (.object holder))

/-- Handles are freed, which settles nothing. -/
theorem staySettled_afterSettle (vm : VM) (holder f : Ref) :
    StaySettled vm (vm.afterSettle holder f) :=
  (evolves_free (P := otherCall holder) vm (.object holder)).staySettled

/-- The call of one of its functions is put on record. -/
theorem Settling.called (hs : Settling R holder c vm) (isReject : Bool) :
    Settling R holder (c.settled isReject)
      (vm.record (.called (.object (c.settler isReject)))) := by
  refine hs.record (g := fun d => d.settled isReject) (fun d hd => ?_)
    (by rw [← hs.eq]; exact c.holder_settled isReject)
  rw [hs.guards.called_settler hs.mem hd, hs.eq]

/-- And so is the release of the holder. -/
theorem Settling.afterSettle (hs : Settling R holder c vm) (isReject : Bool) :
    Settling R holder (c.finished isReject) (vm.afterSettle holder (c.settler isReject)) := by
  have hfree := (hs.called isReject).evolves (evolves_free _ (.object holder))
  refine hfree.record (g := fun d => { d with freed := d.freed + 1 }) (fun d _ => ?_)
    (by rw [← hs.eq]; exact c.holder_settled isReject)
  unfold AsyncCall.released
  by_cases hd : d.holder = holder
  · rw [if_pos hd, if_pos (by rw [hd])]
  · rw [if_neg hd, if_neg fun h => hd (JSValue.object.inj h).symm]

/-- Where the function returns, the loop is what is left of the callback. -/
theorem Settling.settleAndRelease_eq {vm₁ : VM} (hs : Settling R holder c vm₁)
    (hfreed : c.freed = 0) {isReject : Bool} {arg ret : JSValue}
    (hrun : callJS env (.object (c.settler isReject)) (some [arg]) vm = .ok ret vm₁) (fuel : ℕ) :
    settleAndRelease env fuel (.object holder) (.object (c.settler isReject)) arg vm
      = loop env fuel (vm₁.afterSettle holder (c.settler isReject)) := by
  have hfreed' : (c.settled isReject).freed = 0 := by rw [c.freed_settled, hfreed]
  have hsettle : settleWith env (.object (c.settler isReject)) arg vm
      = .ok () (vm₁.record (.called (.object (c.settler isReject)))) := bind_of_ok hrun
  have hrel : releaseHolder (.object holder) (vm₁.record (.called (.object (c.settler isReject))))
      = .ok () (vm₁.afterSettle holder (c.settler isReject)) := by
    unfold releaseHolder
    rw [bind_of_ok (show note _ _ = .ok () _ from rfl), (hs.called isReject).used_eq hfreed']
    rfl
  unfold QuickjsDart.settleAndRelease
  rw [bind_of_ok hsettle, bind_of_ok hrel]

/-- From the call of the function on. It does not throw, and where it returns the call is
finished. -/
theorem Settling.settleAndRelease (henv : env.Confined (otherCall holder))
    (hs : Settling R holder c vm) (hf : InFlight vm.heap c) (hfreed : c.freed = 0) (isReject : Bool)
    {arg : JSValue} (harg : Outside (otherCall holder) vm arg) (fuel : ℕ) :
    (∃ vm', settleAndRelease env fuel (.object holder) (.object (c.settler isReject)) arg vm
        = .error .crash vm') ∨
      ∃ ret vm₁ vm', callJS env (.object (c.settler isReject)) (some [arg]) vm = .ok ret vm₁ ∧
        settleAndRelease env fuel (.object holder) (.object (c.settler isReject)) arg vm
          = .ok () vm' ∧
        Settling R holder (c.finished isReject) vm' ∧ StaySettled vm₁ vm' := by
  have hcall := hs.call henv hf isReject harg
  cases hrun : callJS env (.object (c.settler isReject)) (some [arg]) vm with
  | error e vm₁ =>
    rw [callJS_settler hf] at hrun
    cases ffi_error hrun
    refine .inl ⟨vm₁, ?_⟩
    unfold QuickjsDart.settleAndRelease settleWith
    rw [bind_of_error (bind_of_error ((callJS_settler hf isReject arg).trans hrun))]
  | ok ret vm₁ =>
    have hs₁ := hs.evolves (evolves_of_ok hcall hrun)
    have hs₂ := hs₁.afterSettle isReject
    have hloop := moves_loop henv fuel _ hs₂.guards
    have hthrow := decides_loop env fuel (vm₁.afterSettle holder (c.settler isReject))
    rw [hs₁.settleAndRelease_eq hfreed hrun]
    cases hend : loop env fuel (vm₁.afterSettle holder (c.settler isReject)) with
    | error e vm₂ =>
      rw [hend] at hthrow
      cases e with
      | throws d => cases hthrow
      | crash => exact .inl ⟨vm₂, rfl⟩
    | ok u vm₂ =>
      have he := evolves_of_ok hloop hend
      refine .inr ⟨ret, vm₁, vm₂, rfl, rfl, hs₂.evolves he, fun p state hst hp => ?_⟩
      exact he.staySettled p state hst (staySettled_afterSettle vm₁ holder _ p state hst hp)

/-! ## The arguments -/

/-- The argument of a callback, by its kind. -/
theorem resolveArgument_cases (env : Env) (x : DartVal) :
    (∃ v, x = .jsValue v) ∨ resolveArgument env x = toJSVal env x := by
  cases x with
  | jsValue v => exact .inl ⟨v, rfl⟩
  | _ => exact .inr rfl

/-- It is made by steps. -/
theorem moves_resolveArgument (henv : env.Confined P) (x : DartVal) :
    Moves P (resolveArgument env x) := by
  rcases resolveArgument_cases env x with ⟨v, rfl⟩ | heq
  · exact Moves.bind (fun vm _ => evolves_dup vm v) fun _ => moves_throw _
  · rw [heq]
    exact moves_toJSVal henv x

/-- What is no value of `toJSVal`, a `JSValue` among them, throws. -/
theorem decides_resolveArgument (env : Env) (x : DartVal) :
    Decides x.isConvertible (resolveArgument env x) := by
  rcases resolveArgument_cases env x with ⟨v, rfl⟩ | heq
  · exact Decides.after (decides_of_ok fun vm => ⟨v, vm.dup v, rfl⟩) fun _ => decides_throw _
  · rw [heq]
    exact decides_toJSVal env x

/-- A new object that is filled is known to no call. -/
theorem outside_newObject {mk : Dart JSValue} {cls : ObjClass} {proto : Ref}
    (hmk : mk = newCell .object (.obj (.fresh cls proto)))
    (hcls : ∀ q b, cls ≠ .function (.resolving q b)) (hg : Guards P vm) {fill : JSValue → Dart Unit}
    (hfill : ∀ v vm', Guards P vm' → Outside P vm' v → Evolves P vm' (endState (fill v vm')))
    {v : JSValue} (h : (mk >>= fun w => fill w >>= fun _ => pure w) vm = .ok v vm') :
    v = .object vm.heap.length ∧ Outside P vm' v := by
  subst hmk
  have he : Evolves P vm (vm.alloc (.obj (.fresh cls proto))) := evolves_allocFresh vm hcls
  obtain ⟨w, vm₁, hnew, hrest⟩ := bind_eq_ok.1 h
  obtain ⟨_, vm₂, hrun, hpure⟩ := bind_eq_ok.1 hrest
  cases hnew
  cases hpure
  have hout : Outside P (vm.alloc (.obj (.fresh cls proto))) (.object vm.heap.length) :=
    ⟨hg.clear le_rfl, .inl (by simp)⟩
  exact ⟨rfl, hout.evolves (evolves_of_ok (hfill _ _ (hg.evolves he) hout) hrun)⟩

/-- The value of a conversion is no object, or a new one. -/
theorem toJSVal_value (henv : env.Confined P) (hg : Guards P vm) {x : DartVal} {v : JSValue}
    (h : toJSVal env x vm = .ok v vm') :
    (∀ r, v ≠ .object r) ∨ v = .object vm.heap.length ∧ Outside P vm' v := by
  cases x with
  | int n =>
    rw [toJSVal] at h
    split_ifs at h
    · refine .inl fun r hr => ?_
      have hv : intValue n.toInt = v := by cases h; rfl
      unfold intValue at hv
      split_ifs at hv <;> rw [hr] at hv <;> cases hv
    · cases h
      exact .inl fun r hr => by cases hr
  | double d =>
    rw [toJSVal] at h
    refine .inl fun r hr => ?_
    have hv : jsNewFloat64 d = v := by cases h; rfl
    unfold jsNewFloat64 at hv
    split_ifs at hv <;> rw [hr] at hv <;> cases hv
  | string s =>
    rw [toJSVal] at h
    cases h
    exact .inl fun r hr => by cases hr
  | bool b =>
    rw [toJSVal] at h
    cases h
    exact .inl fun r hr => by cases hr
  | list elems =>
    rw [toJSVal, createJSArray] at h
    exact .inr (outside_newObject rfl (fun _ _ h => by cases h) hg
      (fun w vm₁ hg₁ hw => evolves_setElements henv hg₁ hw elems) h)
  | map entries =>
    rw [toJSVal, createJSObject] at h
    exact .inr (outside_newObject rfl (fun _ _ h => by cases h) hg
      (fun w vm₁ hg₁ hw => evolves_setEntries henv hg₁ hw entries) h)
  | _ =>
    simp only [toJSVal] at h
    cases h

/-- Where the argument is made, it is the value of a conversion. -/
theorem resolveArgument_eq {x : DartVal} {v : JSValue} (h : resolveArgument env x vm = .ok v vm') :
    toJSVal env x vm = .ok v vm' := by
  rcases resolveArgument_cases env x with ⟨w, rfl⟩ | heq
  · cases h
  · rwa [heq] at h

/-- The argument is known to no call. -/
theorem outside_resolveArgument (henv : env.Confined P) (hg : Guards P vm) {x : DartVal}
    {v : JSValue} (h : resolveArgument env x vm = .ok v vm') : Outside P vm' v := by
  rcases toJSVal_value henv hg (resolveArgument_eq h) with hprim | ⟨-, hout⟩
  · cases v with
    | object r => exact absurd rfl (hprim r)
    | _ => exact trivial
  · exact hout

/-! ## A completed future -/

/-- The state between callbacks: the waiting calls are in flight, and the others have `R`. -/
structure Idle (R : AsyncCall → Prop) (vm : VM) : Prop where
  guards : Guards anyCall vm
  fresh : Fresh anyCall vm
  each : ∀ d ∈ vm.calls, d.Waiting ∨ R d

/-- Between callbacks the calls are as they should be, over any step. -/
theorem Idle.micro (hs : Idle R vm) (hm : Micro anyCall vm vm') : Idle R vm' := by
  refine ⟨hs.guards.micro hm, hs.fresh.micro hm, fun d hd => ?_⟩
  rcases hm.calls with heq | ⟨future, rfl⟩
  · exact hs.each d (heq ▸ hd)
  · rcases List.mem_append.1 hd with hold | hnew
    · exact hs.each d hold
    · rw [List.mem_singleton.1 hnew]
      exact .inl ⟨rfl, rfl, rfl, rfl, rfl⟩

/-- The same of any number of steps. -/
theorem Idle.evolves (hs : Idle R vm) (he : Evolves anyCall vm vm') : Idle R vm' := by
  induction he with
  | refl => exact hs
  | tail _ hm ih => exact ih.micro hm

/-- One of the calls is taken up. -/
theorem Idle.settling (hs : Idle R vm) (hc : c ∈ vm.calls) : Settling R c.holder c vm :=
  ⟨hs.guards.mono otherCall_any, hs.fresh.mono otherCall_any, hc, rfl, fun d hd _ => hs.each d hd⟩

/-- The end of the callbacks: the call no longer waits. -/
theorem Settling.settles (hs : Settling R holder c vm) (hdue : c.due ≠ none) (hR : R c) :
    Idle R vm := by
  have hcases : ∀ d ∈ vm.calls, d = c ∨ d.holder ≠ holder := by
    intro d hd
    by_cases hne : d.holder = holder
    · exact .inl (hs.guards.holder_inj hs.mem hd (hne.trans hs.eq.symm))
    · exact .inr hne
  have hguarded : ∀ d, Guarded anyCall vm d → Guarded (otherCall holder) vm d := by
    rintro d ⟨hd, hw, -⟩
    rcases hcases d hd with rfl | hne
    · exact absurd hw.1 hdue
    · exact ⟨hd, hw, hne⟩
  refine ⟨⟨fun d hd => hs.guards.inFlight d (hguarded d hd), hs.guards.bound, hs.guards.apart,
    hs.guards.inHeap⟩, fun d hd => hs.fresh d (hguarded d hd), fun d hd => ?_⟩
  rcases hcases d hd with rfl | hne
  · exact .inr hR
  · exact hs.rest d hd hne

/-- The name of a function in the holder. -/
def settlerName (isReject : Bool) : Utf16 := if isReject then rejectName else resolveName

/-- The holder's functions are where `createPromise` put them. -/
theorem Idle.holderProperty (hs : Idle R vm) (hc : c ∈ vm.calls) (hw : c.Waiting)
    (env : Env) (isReject : Bool) :
    holderProperty env (.object c.holder) (settlerName isReject) vm
      = .ok (.object (c.settler isReject)) (vm.dup (.object (c.settler isReject))) := by
  have hf := hs.guards.inFlight c ⟨hc, hw, trivial⟩
  have hown : (holderObj (.object c.resolve) (.object c.reject) (.object c.promise)).getOwn
      (.name (settlerName isReject)) = some (.data (.object (c.settler isReject)) .cwe) := by
    cases isReject <;> rfl
  have hkey :
      PropKey.ofString (ffiString (settlerName isReject)) = .name (settlerName isReject) := by
    cases isReject <;> rfl
  have hget := jsGetProperty_of_getOwn env hf.holder (fun id h => by cases h) hown
  unfold QuickjsDart.holderProperty
  rw [bind_of_ok (show note _ vm = .ok () _ from rfl), (hs.settling hc).used_eq hw.2.2.2.1,
    getProperty, hkey]
  exact ffi_of_ok hget

/-- Who is outside of all calls is outside of some. -/
theorem Outside.mono {Q : AsyncCall → Prop} (h : ∀ c, Q c → P c) {v : JSValue}
    (hv : Outside P vm v) : Outside Q vm v := by
  cases v with
  | object r =>
    exact ⟨fun c hc => hv.1 c (hc.mono h), hv.2.imp_right fun hno c hc => hno c (h c hc)⟩
  | _ => exact trivial

/-- The function, its argument, and the release of the holder. -/
theorem Idle.settleAndRelease (hs : Idle R vm) (hc : c ∈ vm.calls) (hw : c.Waiting)
    (henv : env.Confined (otherCall c.holder)) (isReject : Bool) {arg : JSValue}
    (harg : Outside anyCall vm arg) (fuel : ℕ) :
    (∃ vm', settleAndRelease env fuel (.object c.holder) (.object (c.settler isReject)) arg vm
        = .error .crash vm') ∨
      ∃ ret vm₁ vm', callJS env (.object (c.settler isReject)) (some [arg]) vm = .ok ret vm₁ ∧
        settleAndRelease env fuel (.object c.holder) (.object (c.settler isReject)) arg vm
          = .ok () vm' ∧
        Settling R c.holder (c.finished isReject) vm' ∧ StaySettled vm₁ vm' :=
  (hs.settling hc).settleAndRelease henv (hs.guards.inFlight c ⟨hc, hw, trivial⟩) hw.2.2.2.1
    isReject (harg.mono otherCall_any) fuel

/-- A call that waits still does after other code. -/
theorem Evolves.waiting (he : Evolves anyCall vm vm') (hc : c ∈ vm.calls) (hw : c.Waiting) :
    c ∈ vm'.calls := (Evolves.guarded he ⟨hc, hw, trivial⟩).1

/-! ## What the promise becomes -/

/-- A pending promise gets its state. -/
theorem obj?_fulfillOrReject {p : Ref} {o : Obj} {already : Bool} (ho : vm.heap.obj? p = some o)
    (hcls : o.cls = .promise .pending already) (v : JSValue) (isReject : Bool) :
    PromiseIs (fulfillOrRejectPromise p v isReject vm) p
      (if isReject then .rejected v else .fulfilled v) := by
  have hdup : (vm.dup v).heap.obj? p = some o := by rw [VM.obj?_dup, ho]
  unfold fulfillOrRejectPromise
  rw [ho]
  dsimp only
  rw [hcls]
  exact ⟨_, already, obj?_setObj_eq hdup _, rfl⟩

/-- The state in which a function of a promise goes on after it has set the flag. -/
def VM.flagged (vm : VM) (p : Ref) : VM :=
  match vm.heap.obj? p with
  | some o =>
    match o.cls with
    | .promise state _ => vm.setObj p { o with cls := .promise state true }
    | _ => vm
  | none => vm

/-- The first call of a function of the promise. -/
theorem resolveFunctionCall_unresolved {p : Ref} (hp : Unresolved vm p) (env : Env)
    (isReject : Bool) (args : List JSValue) : resolveFunctionCall env p isReject args vm
      = resolvePromise env p isReject (args.headD .undefined) (vm.flagged p) ∧
        ∃ o, (vm.flagged p).heap.obj? p = some o ∧ o.cls = .promise .pending true := by
  obtain ⟨o, ho, hcls⟩ := hp
  have hflag : vm.flagged p = vm.setObj p { o with cls := .promise .pending true } := by
    unfold VM.flagged
    rw [ho]
    dsimp only
    rw [hcls]
  refine ⟨?_, _, by rw [hflag]; exact obj?_setObj_eq ho _, rfl⟩
  rw [hflag]
  unfold resolveFunctionCall
  rw [ho]
  dsimp only
  rw [hcls]

/-- `reject` rejects. -/
theorem Idle.rejects (hs : Idle R vm) (hc : c ∈ vm.calls) (hw : c.Waiting) {arg ret : JSValue}
    {vm₁ : VM} (h : callJS env (.object (c.settler true)) (some [arg]) vm = .ok ret vm₁) :
    PromiseIs vm₁ c.promise (.rejected arg) := by
  obtain ⟨heq, o, ho, hcls⟩ :=
    resolveFunctionCall_unresolved (hs.fresh c ⟨hc, hw, trivial⟩) env true [arg]
  have hrun : resolveFunctionCall env c.promise true [arg] vm
      = .ok .undefined (fulfillOrRejectPromise c.promise arg true (vm.flagged c.promise)) := by
    rw [heq]
    cases arg <;> rfl
  rw [callJS_settler (hs.guards.inFlight c ⟨hc, hw, trivial⟩), ffi_of_ok hrun] at h
  cases h
  exact obj?_fulfillOrReject ho hcls arg true

/-- The flag of its promise keeps a call in flight. -/
theorem InFlight.flagged (hf : InFlight vm.heap c) (hu : Unresolved vm c.promise) :
    InFlight (vm.flagged c.promise).heap c := by
  obtain ⟨o, ho, hcls⟩ := hu
  obtain ⟨a, ha, hac⟩ := hf.resolve
  obtain ⟨b, hb, hbc⟩ := hf.reject
  have hflag :
      vm.flagged c.promise = vm.setObj c.promise { o with cls := .promise .pending true } := by
    unfold VM.flagged
    rw [ho]
    dsimp only
    rw [hcls]
  rw [hflag]
  refine ⟨obj?_setObj_of_ne ho ?_ hf.holder, ⟨a, obj?_setObj_of_ne ho ?_ ha, hac⟩,
    ⟨b, obj?_setObj_of_ne ho ?_ hb, hbc⟩, ⟨_, true, obj?_setObj_eq ho _, rfl⟩,
      fun r q hq hres => ?_⟩
  · exact Nat.ne_of_lt (Nat.lt_succ_self _)
  · exact Nat.succ_ne_self _
  · exact Nat.ne_of_gt (Nat.lt_add_of_pos_right (n := c.holder + 1) (k := 2) Nat.two_pos)
  · rcases obj?_of_setObj ho hq with ⟨-, rfl⟩ | hold
    · exact absurd hres (not_resolves_of_promise rfl)
    · exact hf.only r q hold hres

/-- So do the other calls. -/
theorem Idle.flagged (hs : Idle R vm) (hc : c ∈ vm.calls) (hw : c.Waiting) :
    Guards anyCall (vm.flagged c.promise) ∧ (vm.flagged c.promise).calls = vm.calls ∧
      (vm.flagged c.promise).heap.length = vm.heap.length := by
  have hu := hs.fresh c ⟨hc, hw, trivial⟩
  have hfc := (hs.guards.inFlight c ⟨hc, hw, trivial⟩).flagged hu
  obtain ⟨o, ho, hcls⟩ := hu
  have hflag :
      vm.flagged c.promise = vm.setObj c.promise { o with cls := .promise .pending true } := by
    unfold VM.flagged
    rw [ho]
    dsimp only
    rw [hcls]
  have hm : Micro (otherCall c.holder) vm (vm.flagged c.promise) := by
    rw [hflag]
    refine .settle ho hcls (fun d hd heq => hd.2.2 ?_) rfl (.inl rfl)
    exact (Nat.add_right_cancel (show c.holder + 1 = d.holder + 1 from heq)).symm
  have hg := (hs.guards.mono otherCall_any).micro hm
  have hcalls : (vm.flagged c.promise).calls = vm.calls := by rw [hflag]; rfl
  refine ⟨⟨fun d hd => ?_, hg.bound, hg.apart, hg.inHeap⟩, hcalls, by rw [hflag, VM.length_setObj]⟩
  by_cases hne : d.holder = c.holder
  · have hd' := hcalls ▸ hd.1
    rw [hs.guards.holder_inj hc hd' hne]
    exact hfc
  · exact hg.inFlight d ⟨hd.1, hd.2.1, hne⟩

/-- `catchCallback` with a text rejects the promise. -/
theorem Idle.catchCallback (hs : Idle R vm) (hc : c ∈ vm.calls) (hw : c.Waiting)
    (henv : env.Confined (otherCall c.holder)) (text : Utf16) (fuel : ℕ) :
    (∃ vm', catchCallback env fuel (.object c.holder) (some text) vm = .error .crash vm') ∨
      ∃ vm', catchCallback env fuel (.object c.holder) (some text) vm = .ok () vm' ∧
        Settling R c.holder (c.finished true) vm' ∧ ∃ v, PromiseIs vm' c.promise (.rejected v) := by
  have hget := hs.holderProperty hc hw env true
  have hdup : Evolves anyCall vm (vm.dup (.object (c.settler true))) := evolves_dup vm _
  have hnew := (evolves_allocLeaf (P := anyCall) (vm.dup (.object (c.settler true))))
  have he := hdup.trans hnew
  have hrun : QuickjsDart.catchCallback env fuel (.object c.holder) (some text) vm
      = QuickjsDart.settleAndRelease env fuel (.object c.holder) (.object (c.settler true))
        (.string (vm.dup (.object (c.settler true))).heap.length (ffiString text))
        ((vm.dup (.object (c.settler true))).alloc .leaf) := by
    unfold QuickjsDart.catchCallback
    rw [show rejectName = settlerName true from rfl, bind_of_ok hget]
    rfl
  have hout : Outside anyCall ((vm.dup (.object (c.settler true))).alloc .leaf)
      (.string (vm.dup (.object (c.settler true))).heap.length (ffiString text)) := trivial
  rw [hrun]
  rcases (hs.evolves he).settleAndRelease (Evolves.waiting he hc hw) hw henv true hout fuel with
    hcrash | ⟨ret, vm₁, vm', hcall, hok, hdone, hstay⟩
  · exact .inl hcrash
  · have hrej := (hs.evolves he).rejects (Evolves.waiting he hc hw) hw hcall
    exact .inr ⟨vm', hok, hdone, _, hstay _ _ (fun h => by cases h) hrej⟩

/-- `thenCallback` throws before the function is called, or resolves the promise. -/
theorem Idle.thenCallback (hs : Idle R vm) (hc : c ∈ vm.calls) (hw : c.Waiting)
    (hany : env.Confined anyCall) (henv : env.Confined (otherCall c.holder)) (x : DartVal)
    (fuel : ℕ) : (∃ vm', thenCallback env fuel (.object c.holder) x vm = .error .crash vm') ∨
      (x.isConvertible = false ∧ ∃ e vm', thenCallback env fuel (.object c.holder) x vm
        = .error (.throws e) vm' ∧ Evolves anyCall vm vm') ∨
      (x.isConvertible = true ∧ ∃ arg vm₁ ret vm₂ vm',
        resolveArgument env x (vm.dup (.object c.resolve)) = .ok arg vm₁ ∧
        callJS env (.object c.resolve) (some [arg]) vm₁ = .ok ret vm₂ ∧
        thenCallback env fuel (.object c.holder) x vm = .ok () vm' ∧
        Settling R c.holder (c.finished false) vm' ∧ StaySettled vm₂ vm') := by
  have hget := hs.holderProperty hc hw env false
  have hdup : Evolves anyCall vm (vm.dup (.object c.resolve)) := evolves_dup vm _
  have hrun : QuickjsDart.thenCallback env fuel (.object c.holder) x vm
      = (resolveArgument env x >>= fun arg => QuickjsDart.settleAndRelease env fuel
        (.object c.holder) (.object c.resolve) arg) (vm.dup (.object c.resolve)) := by
    unfold QuickjsDart.thenCallback
    rw [show resolveName = settlerName false from rfl, bind_of_ok hget]
    rfl
  have hg₁ := hs.guards.evolves hdup
  have hmoves := moves_resolveArgument hany x _ hg₁
  have hdec := decides_resolveArgument env x (vm.dup (.object c.resolve))
  rw [hrun]
  cases harg : resolveArgument env x (vm.dup (.object c.resolve)) with
  | error e vm₁ =>
    rw [harg] at hdec
    rw [bind_of_error harg]
    cases e with
    | crash => exact .inl ⟨vm₁, rfl⟩
    | throws d => exact .inr (.inl ⟨hdec, d, vm₁, rfl, hdup.trans (evolves_of_error hmoves harg)⟩)
  | ok arg vm₁ =>
    rw [harg] at hdec
    rw [bind_of_ok harg]
    have he := hdup.trans (evolves_of_ok hmoves harg)
    rcases (hs.evolves he).settleAndRelease (Evolves.waiting he hc hw) hw henv false
      (outside_resolveArgument hany hg₁ harg) fuel with
      hcrash | ⟨ret, vm₂, vm', hcall, hok, hdone, hstay⟩
    · exact .inl hcrash
    · exact .inr (.inr ⟨hdec, arg, vm₁, ret, vm₂, vm', rfl, hcall, hok, hdone, hstay⟩)

/-- The call at the end of the callbacks. -/
theorem Settling.completed (hs : Settling R holder c vm) (isReject : Bool) :
    Settling R holder { c with due := some isReject } (vm.record (.completed holder isReject)) := by
  refine hs.record (g := fun d => { d with due := some isReject }) (fun d _ => ?_) hs.eq
  unfold AsyncCall.completed
  rfl

/-- A waiting call is done when it is finished and due. -/
theorem AsyncCall.Waiting.done (hw : c.Waiting) (isReject : Bool) :
    AsyncCall.Done { c.finished isReject with due := some isReject } := by
  obtain ⟨-, hres, hrej, hfreed, hused⟩ := hw
  refine ⟨isReject, rfl, ?_, ?_, ?_, ?_⟩ <;>
    cases isReject <;> simp [AsyncCall.finished, AsyncCall.settled, hres, hrej, hfreed, hused]

/-- When a call is done the calls are as they should be again. -/
theorem Settling.done {isReject : Bool} (hs : Settling R holder (c.finished isReject) vm)
    (hw : c.Waiting) (hR : ∀ d, d.Done → R d) : Idle R (vm.record (.completed holder isReject)) :=
  (hs.completed isReject).settles (Option.some_ne_none _) (hR _ (hw.done isReject))

/-- A completion that returns is recorded. -/
theorem completeFuture_of_ok {completion : Completion} {u : Unit}
    (h : futureCallbacks env describe fuel (.object holder) completion vm = .ok u vm') :
    completeFuture env describe fuel holder completion vm
      = .ok () (vm'.record (.completed holder completion.rejects)) := by
  unfold completeFuture
  rw [h]

/-- A completion that throws is recorded too. -/
theorem completeFuture_of_error {completion : Completion} {e : Fault}
    (h : futureCallbacks env describe fuel (.object holder) completion vm = .error e vm') :
    completeFuture env describe fuel holder completion vm
      = .error e (vm'.record (.completed holder completion.rejects)) := by
  unfold completeFuture
  rw [h]

/-- A callback of `then` that returns. -/
theorem futureCallbacks_of_ok {p : JSValue} {x : DartVal} {u : Unit}
    (h : thenCallback env fuel p x vm = .ok u vm') :
    futureCallbacks env describe fuel p (.value x) vm = .ok u vm' := by
  simp only [futureCallbacks, h]

/-- A callback of `then` that ends the process. -/
theorem futureCallbacks_of_crash {p : JSValue} {x : DartVal}
    (h : thenCallback env fuel p x vm = .error .crash vm') :
    futureCallbacks env describe fuel p (.value x) vm = .error .crash vm' := by
  simp only [futureCallbacks, h]

/-- What throws in `then` goes to `catchError`. -/
theorem futureCallbacks_of_throws {p : JSValue} {x : DartVal} {e : DartError}
    (h : thenCallback env fuel p x vm = .error (.throws e) vm') :
    futureCallbacks env describe fuel p (.value x) vm
      = catchCallback env fuel p (some (describe e)) vm' := by
  simp only [futureCallbacks, h]

/-- The callbacks of a future settle its promise, unless its error has no text. -/
theorem Idle.futureCallbacks (hs : Idle R vm) (hc : c ∈ vm.calls) (hw : c.Waiting)
    (hany : env.Confined anyCall) (henv : env.Confined (otherCall c.holder))
    {completion : Completion} (hdesc : completion ≠ .failed none) (describe : DartError → Utf16)
    (fuel : ℕ) :
    (∃ vm', futureCallbacks env describe fuel (.object c.holder) completion vm
        = .error .crash vm') ∨
      ∃ vm', futureCallbacks env describe fuel (.object c.holder) completion vm = .ok () vm' ∧
        Settling R c.holder (c.finished completion.rejects) vm' := by
  cases completion with
  | failed text =>
    cases text with
    | none => exact absurd rfl hdesc
    | some text =>
      rcases hs.catchCallback hc hw henv text fuel with hcrash | ⟨vm₁, hok, hdone, -⟩
      · exact .inl hcrash
      · exact .inr ⟨vm₁, hok, hdone⟩
  | value x =>
    rcases hs.thenCallback hc hw hany henv x fuel with
      ⟨vm₁, hcrash⟩ | ⟨hconv, e, vm₁, hthrow, he⟩ | ⟨hconv, _, _, _, _, vm₁, -, -, hok, hdone, -⟩
    · exact .inl ⟨vm₁, futureCallbacks_of_crash hcrash⟩
    · rw [futureCallbacks_of_throws hthrow, Completion.rejects, hconv]
      rcases (hs.evolves he).catchCallback (Evolves.waiting he hc hw) hw henv (describe e) fuel with
        hcrash | ⟨vm₂, hok, hdone, -⟩
      · exact .inl hcrash
      · exact .inr ⟨vm₂, hok, hdone⟩
    · rw [futureCallbacks_of_ok hok, Completion.rejects, hconv]
      exact .inr ⟨vm₁, rfl, hdone⟩

/-- A completed future settles its promise and leaves the others alone, unless its error has no
text. -/
theorem Idle.completeFuture (hs : Idle R vm) (hc : c ∈ vm.calls) (hw : c.Waiting)
    (hany : env.Confined anyCall) (henv : env.Confined (otherCall c.holder))
    (hR : ∀ d, d.Done → R d) {completion : Completion} (hdesc : completion ≠ .failed none)
    (describe : DartError → Utf16) (fuel : ℕ) :
    (∃ vm', completeFuture env describe fuel c.holder completion vm = .error .crash vm') ∨
      ∃ vm', completeFuture env describe fuel c.holder completion vm = .ok () vm' ∧
        Idle R vm' := by
  rcases hs.futureCallbacks hc hw hany henv hdesc describe fuel with
    ⟨vm₁, hcrash⟩ | ⟨vm₁, hok, hdone⟩
  · exact .inl ⟨_, completeFuture_of_error hcrash⟩
  · exact .inr ⟨_, completeFuture_of_ok hok, hdone.done hw hR⟩

/-- An error without a text: nothing is settled, and the holder is not freed. -/
theorem completeFuture_failed_none (hs : Idle R vm) (hc : c ∈ vm.calls) (hw : c.Waiting)
    (hR : R { c with due := some true }) (env : Env) (describe : DartError → Utf16) (fuel : ℕ) :
    ∃ vm', completeFuture env describe fuel c.holder (.failed none) vm
      = .error (.throws (.user 0)) vm' ∧ { c with due := some true } ∈ vm'.calls ∧ Idle R vm' := by
  have hrun : futureCallbacks env describe fuel (.object c.holder) (.failed none) vm
      = .error (.throws (.user 0)) (vm.dup (.object c.reject)) := by
    unfold QuickjsDart.futureCallbacks QuickjsDart.catchCallback
    dsimp only
    rw [show rejectName = settlerName true from rfl, bind_of_ok (hs.holderProperty hc hw env true)]
    rfl
  have hdup : Evolves anyCall vm (vm.dup (.object c.reject)) := evolves_dup vm _
  have hend := ((hs.evolves hdup).settling (Evolves.waiting hdup hc hw)).completed true
  exact ⟨_, completeFuture_of_error hrun, hend.mem, hend.settles (Option.some_ne_none _) hR⟩

end

end QuickjsDart
