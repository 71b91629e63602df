import QuickjsDart.Reactions

/-!
# Each promise is settled once, and tells everyone once

The right to settle a promise is held by one of four: by a pair of resolving functions that was not
called, by a resolving function that looks up `then`, by a thenable job, or by the code between two
of these (`rights`). No step makes a second one or loses it, so each promise behaves as a deferred
value (`Refines`, `Advances`): whatever the interleaving, what a machine does to a promise are moves
of a `Protocol.Deferred`.
-/

namespace QuickjsDart

namespace Reactions

open Relation Protocol

/-! ## Accounts -/

/-- The function waits for `then`, and has the right to settle the promise. -/
def Frame.holds (p : Ref) : Frame → Bool
  | getThen q _ => q = p
  | _ => false

/-- The job has the right to settle the promise. -/
def PromiseJob.holds (p : Ref) : PromiseJob → Bool
  | thenable q _ _ => q = p
  | _ => false

/-- The job is a reaction to the promise. -/
def PromiseJob.reacts (p : Ref) : PromiseJob → Bool
  | reaction rd _ _ => rd.promise = p
  | _ => false

/-- The pair of functions of the promise was not used. -/
def Resolved.holds (p : Ref) (c : Resolved) : Bool := !c.alreadyResolved && c.promise = p

/-- The rights to settle a promise, with the one in hand. -/
def rights (hand : Option Ref) (m : Machine) (p : Ref) : ℕ :=
  m.presolved.countP (Resolved.holds p) + m.stack.countP (Frame.holds p) +
    m.jobs.countP (PromiseJob.holds p) + if hand = some p then 1 else 0

/-- The reactions to a promise that were put into the queue, in order. -/
def Machine.reactionsTo (m : Machine) (p : Ref) : List PromiseJob :=
  (m.ran ++ m.jobs).filter (PromiseJob.reacts p)

/-- What was registered with a promise, in order. -/
def Machine.registeredWith (m : Machine) (p : Ref) : List Registered :=
  m.registered.filter fun w => w.promise = p

/-- The job of a registration for an outcome. -/
def Registered.job (w : Registered) (o : Bool × JSValue) : PromiseJob :=
  .reaction (w.data o.1) o.1 o.2

/-- The promise is as a deferred value. -/
structure Refines (hand : Option Ref) (m : Machine) (p : Ref) (s : PromiseData)
    (d : Deferred (Bool × JSValue) Registered) : Prop where
  outcome : outcomeOf s.state = d.outcome
  rights : rights hand m p = d.rights
  fulfill : s.fulfillReactions = d.waiting.map fun w => w.data false
  reject : s.rejectReactions = d.waiting.map fun w => w.data true
  delivered : m.reactionsTo p = d.delivered.map fun x => x.1.job x.2
  registered : m.registeredWith p = d.registered

/-- The data of a resolving function. -/
def PromiseObj.function? : PromiseObj → Option (Bool × Ref × ℕ)
  | resolveFunction isReject p c => some (isReject, p, c)
  | _ => none

/-- The resolving function at a reference, if there is one. -/
def Machine.function? (m : Machine) (r : Ref) : Option (Bool × Ref × ℕ) :=
  (m.objs[r]?).bind PromiseObj.function?

/-- The functions of one flag are those of one promise, and both are there. -/
structure Linked (m : Machine) : Prop where
  shared : ∀ r b p c, m.function? r = some (b, p, c) → ∃ fl, m.presolved[c]? = some ⟨fl, p⟩
  paired : ∀ c fl p, m.presolved[c]? = some ⟨fl, p⟩ → ∀ b, ∃ r, m.function? r = some (b, p, c)

/-- What holds of a state besides what its promises are. -/
structure Inv (hand : Option Ref) (m : Machine) : Prop where
  linked : Linked m
  /-- What is no promise has no account. -/
  none : ∀ p, m.promise? p = none →
    rights hand m p = 0 ∧ m.reactionsTo p = [] ∧ m.registeredWith p = []
  late : m.late = 0

/-- From one state to another each promise makes moves of a deferred value. -/
structure Simulates (hand : Option Ref) (m : Machine) (hand' : Option Ref) (m' : Machine) :
    Prop where
  old : ∀ p s d, m.promise? p = some s → d.Sound → Refines hand m p s d →
    ∃ s' d', m'.promise? p = some s' ∧ d.Moves d' ∧ Refines hand' m' p s' d'
  new : ∀ p s', m.promise? p = none → m'.promise? p = some s' →
    ∃ d', Deferred.fresh.Moves d' ∧ Refines hand' m' p s' d'

/-- The invariant holds of every promise. -/
def Accounts (hand : Option Ref) (m : Machine) : Prop :=
  Inv hand m ∧ ∀ p s, m.promise? p = some s → ∃ d, d.Sound ∧ Refines hand m p s d

/-- The state, with the right in hand, goes over to another. -/
def Advances (hand : Option Ref) (m : Machine) (hand' : Option Ref) (m' : Machine) : Prop :=
  Accounts hand m → Inv hand' m' ∧ Simulates hand m hand' m'

variable {hand hand' hand'' : Option Ref} {m m' m'' : Machine}

/-- A step keeps the accounts: what was a sound deferred value makes moves that are sound. -/
theorem Advances.accounts (ha : Advances hand m hand' m') (h : Accounts hand m) :
    Accounts hand' m' := by
  obtain ⟨hinv, hsim⟩ := ha h
  refine ⟨hinv, fun p s' hp' => ?_⟩
  cases hp : m.promise? p with
  | none =>
    obtain ⟨d', hmoves, hd'⟩ := hsim.new p s' hp hp'
    exact ⟨d', hmoves.sound Deferred.sound_fresh, hd'⟩
  | some s =>
    obtain ⟨d, hsound, hd⟩ := h.2 p s hp
    obtain ⟨s'', d', hp'', hmoves, hd'⟩ := hsim.old p s d hp hsound hd
    cases hp'.symm.trans hp''
    exact ⟨d', hmoves.sound hsound, hd'⟩

/-- Nothing happens. -/
theorem Advances.refl (hand : Option Ref) (m : Machine) : Advances hand m hand m := by
  intro h
  refine ⟨h.1, fun p s d hp _ hd => ⟨s, d, hp, .refl, hd⟩, fun p s' hp hp' => ?_⟩
  cases hp.symm.trans hp'

/-- The moves of a promise are those in one step, then those in the other. -/
theorem Advances.trans (h₁ : Advances hand m hand' m') (h₂ : Advances hand' m' hand'' m'') :
    Advances hand m hand'' m'' := by
  intro h
  obtain ⟨-, hsim₁⟩ := h₁ h
  obtain ⟨hinv, hsim₂⟩ := h₂ (h₁.accounts h)
  refine ⟨hinv, fun p s d hp hsound hd => ?_, fun p s'' hp hp'' => ?_⟩
  · obtain ⟨s', d', hp', hmoves', hd'⟩ := hsim₁.old p s d hp hsound hd
    obtain ⟨s'', d'', hp'', hmoves'', hd''⟩ := hsim₂.old p s' d' hp' (hmoves'.sound hsound) hd'
    exact ⟨s'', d'', hp'', hmoves'.trans hmoves'', hd''⟩
  · cases hp' : m'.promise? p with
    | none => exact hsim₂.new p s'' hp' hp''
    | some s' =>
      obtain ⟨d', hmoves', hd'⟩ := hsim₁.new p s' hp hp'
      obtain ⟨s₂, d'', hs₂, hmoves'', hd''⟩ :=
        hsim₂.old p s' d' hp' (hmoves'.sound Deferred.sound_fresh) hd'
      cases hp''.symm.trans hs₂
      exact ⟨d'', hmoves'.trans hmoves'', hd''⟩

/-- A step that passes rights on, and does nothing else to promises. -/
theorem advances_of_eq (hpromise : ∀ p, m'.promise? p = m.promise? p)
    (hrights : ∀ p, rights hand' m' p = rights hand m p)
    (hreact : ∀ p, m'.reactionsTo p = m.reactionsTo p) (hreg : m'.registered = m.registered)
    (hlate : m'.late = m.late) (hlinked : Linked m → Linked m') : Advances hand m hand' m' := by
  have hwith : ∀ p, m'.registeredWith p = m.registeredWith p := fun p => by
    rw [Machine.registeredWith, hreg, Machine.registeredWith]
  intro h
  refine ⟨⟨hlinked h.1.linked, fun p hp => ?_, hlate.trans h.1.late⟩, fun p s d hp _ hd => ?_,
    fun p s' hp hp' => ?_⟩
  · rw [hrights, hreact, hwith]
    exact h.1.none p ((hpromise p).symm.trans hp)
  · exact ⟨s, d, (hpromise p).trans hp, .refl, hd.outcome, (hrights p).trans hd.rights, hd.fulfill,
      hd.reject, (hreact p).trans hd.delivered, (hwith p).trans hd.registered⟩
  · rw [hpromise, hp] at hp'
    cases hp'

/-! ## Objects -/

/-- A new cell that is no promise. -/
theorem Machine.promise?_alloc (m : Machine) {o : PromiseObj} (ho : o.promise? = none) (p : Ref) :
    (m.alloc o).promise? p = m.promise? p := by
  unfold Machine.promise? Machine.alloc
  rw [List.getElem?_append]
  split_ifs with h
  · rfl
  · rw [List.getElem?_eq_none (not_lt.1 h)]
    cases hp : p - m.objs.length with
    | zero => simpa using ho
    | succ n => simp

/-- A new cell that is no resolving function. -/
theorem Machine.function?_alloc (m : Machine) {o : PromiseObj} (ho : o.function? = none) (r : Ref) :
    (m.alloc o).function? r = m.function? r := by
  unfold Machine.function? Machine.alloc
  rw [List.getElem?_append]
  split_ifs with h
  · rfl
  · rw [List.getElem?_eq_none (not_lt.1 h)]
    cases hr : r - m.objs.length with
    | zero => simpa using ho
    | succ n => simp

/-- Only the pairs and the functions count. -/
theorem Linked.congr (h : Linked m) (hfunc : ∀ r, m'.function? r = m.function? r)
    (hpre : m'.presolved = m.presolved) : Linked m' := by
  refine ⟨fun r b p c hr => ?_, fun c fl p hc b => ?_⟩
  · rw [hfunc] at hr
    rw [hpre]
    exact h.shared r b p c hr
  · rw [hpre] at hc
    obtain ⟨r, hr⟩ := h.paired c fl p hc b
    exact ⟨r, (hfunc r).trans hr⟩

/-! ## Steps that leave promises alone -/

/-- Code goes on somewhere else. -/
theorem advances_goto (hand : Option Ref) (m : Machine) (c : Control) :
    Advances hand m hand (m.goto c) :=
  advances_of_eq (fun _ => rfl) (fun _ => rfl) (fun _ => rfl) rfl rfl
    fun h => h.congr (fun _ => rfl) rfl

/-- A call is entered that has no right. -/
theorem advances_push (hand : Option Ref) (m : Machine) {f : Frame}
    (hf : ∀ p, f.holds p = false) : Advances hand m hand (m.push f) := by
  refine advances_of_eq (fun _ => rfl) (fun p => ?_) (fun _ => rfl) rfl rfl
    fun h => h.congr (fun _ => rfl) rfl
  simp [rights, Machine.push, hf]

/-- A call is left that had no right. -/
theorem advances_pop (hand : Option Ref) {f : Frame} {rest : List Frame}
    (hstack : m.stack = f :: rest) (hf : ∀ p, f.holds p = false) :
    Advances hand m hand { m with stack := rest } := by
  refine advances_of_eq (fun _ => rfl) (fun p => ?_) (fun _ => rfl) rfl rfl
    fun h => h.congr (fun _ => rfl) rfl
  simp [rights, hstack, hf]

/-- A cell is made that is neither a promise nor one of its functions. -/
theorem advances_alloc (hand : Option Ref) (m : Machine) {o : PromiseObj}
    (hp : o.promise? = none) (hf : o.function? = none) : Advances hand m hand (m.alloc o) :=
  advances_of_eq (m.promise?_alloc hp) (fun _ => rfl) (fun _ => rfl) rfl rfl
    fun h => h.congr (m.function?_alloc hf) rfl

/-- An exception is thrown with a new error object. -/
theorem advances_throwTypeError (hand : Option Ref) (m : Machine) :
    Advances hand m hand m.throwTypeError :=
  (advances_alloc hand m rfl rfl).trans (advances_goto hand _ _)

/-- The data of an executor is set. -/
theorem advances_setExecutor (hand : Option Ref) {r : Ref} {resolve reject : JSValue}
    (hr : m.objs[r]? = some (.executor resolve reject)) (first second : JSValue) :
    Advances hand m hand { m with objs := m.objs.set r (.executor first second) } := by
  have hlt : r < m.objs.length := (List.getElem?_eq_some_iff.1 hr).1
  have hset : ∀ q, (m.objs.set r (.executor first second))[q]? =
      if r = q then some (.executor first second) else m.objs[q]? := by
    intro q
    rw [List.getElem?_set]
    simp [hlt]
  refine advances_of_eq (fun q => ?_) (fun _ => rfl) (fun _ => rfl) rfl rfl
    fun h => h.congr (fun q => ?_) rfl
  · unfold Machine.promise?
    rw [hset]
    split_ifs with hq
    · rw [← hq, hr]
      rfl
    · rfl
  · unfold Machine.function?
    rw [hset]
    split_ifs with hq
    · rw [← hq, hr]
      rfl
    · rfl

/-! ## Rights that are passed on -/

/-- The right in hand waits for `then` to be read. -/
theorem advances_push_getThen (m : Machine) (p : Ref) (resolution : JSValue) :
    Advances (some p) m none (m.push (.getThen p resolution)) := by
  refine advances_of_eq (fun _ => rfl) (fun q => ?_) (fun _ => rfl) rfl rfl
    fun h => h.congr (fun _ => rfl) rfl
  simp only [rights, Machine.push, List.countP_cons, Frame.holds, decide_eq_true_eq,
    Option.some_inj, reduceCtorEq, if_false]
  omega

/-- `then` was read, and the right is in hand again. -/
theorem advances_pop_getThen {p : Ref} {resolution : JSValue} {rest : List Frame}
    (hstack : m.stack = .getThen p resolution :: rest) :
    Advances none m (some p) { m with stack := rest } := by
  refine advances_of_eq (fun _ => rfl) (fun q => ?_) (fun _ => rfl) rfl rfl
    fun h => h.congr (fun _ => rfl) rfl
  simp only [rights, hstack, List.countP_cons, Frame.holds, decide_eq_true_eq,
    Option.some_inj, reduceCtorEq, if_false]
  omega

/-- The right in hand goes over to a thenable job. -/
theorem advances_enqueue_thenable (m : Machine) (p : Ref) (thenable thenFunc : JSValue) :
    Advances (some p) m none (m.enqueue (.thenable p thenable thenFunc)) := by
  refine advances_of_eq (fun _ => rfl) (fun q => ?_) (fun q => ?_) rfl rfl
    fun h => h.congr (fun _ => rfl) rfl
  · simp only [rights, Machine.enqueue, List.countP_append, List.countP_cons, List.countP_nil,
      PromiseJob.holds, decide_eq_true_eq, Option.some_inj, reduceCtorEq, if_false]
    omega
  · simp [Machine.reactionsTo, Machine.enqueue, PromiseJob.reacts]

/-- A job is started. The right of a thenable job is in hand then. -/
def PromiseJob.right : PromiseJob → Option Ref
  | thenable p _ _ => some p
  | reaction _ _ _ => none

/-- The first job leaves the queue. The right of a thenable job comes to hand. -/
theorem advances_takeJob {job : PromiseJob} {rest : List PromiseJob}
    (hjobs : m.jobs = job :: rest) :
    Advances none m job.right { m with jobs := rest, ran := m.ran ++ [job] } := by
  refine advances_of_eq (fun _ => rfl) (fun q => ?_) (fun q => ?_) rfl rfl
    fun h => h.congr (fun _ => rfl) rfl
  · cases job <;> simp only [rights, hjobs, List.countP_cons, PromiseJob.holds, PromiseJob.right,
      decide_eq_true_eq, Option.some_inj, reduceCtorEq, if_false, Bool.false_eq_true] <;> omega
  · simp [Machine.reactionsTo, hjobs]

/-- One of a pair of functions is called for the first time. -/
theorem advances_useFunction {c : ℕ} {p : Ref} (hc : m.presolved[c]? = some ⟨false, p⟩) :
    Advances none m (some p) { m with presolved := m.presolved.set c ⟨true, p⟩ } := by
  obtain ⟨hlt, hget⟩ := List.getElem?_eq_some_iff.1 hc
  refine advances_of_eq (fun _ => rfl) (fun q => ?_) (fun _ => rfl) rfl rfl fun h => ?_
  · have hcount := List.countP_set (p := Resolved.holds q) (a := ⟨true, p⟩) hlt
    have hpos : p = q → 0 < m.presolved.countP (Resolved.holds q) := fun hq =>
      List.countP_pos_iff.2 ⟨⟨false, p⟩, List.mem_of_getElem? hc, by simp [Resolved.holds, hq]⟩
    rw [hget] at hcount
    simp only [Resolved.holds, Bool.not_true, Bool.not_false, Bool.false_and, Bool.true_and,
      Bool.false_eq_true, if_false, decide_eq_true_eq] at hcount hpos
    simp only [rights, hcount, Option.some_inj, reduceCtorEq, if_false]
    split_ifs with hq
    · have := hpos hq
      omega
    · omega
  · have hset : ∀ c', (m.presolved.set c ⟨true, p⟩)[c']? =
        if c = c' then some ⟨true, p⟩ else m.presolved[c']? := by
      intro c'
      rw [List.getElem?_set]
      simp [hlt]
    refine ⟨fun r b q c' hr => ?_, fun c' fl q hc' b => ?_⟩
    · obtain ⟨fl, hfl⟩ := h.shared r b q c' hr
      dsimp only
      rw [hset]
      split_ifs with heq
      · rw [← heq, hc] at hfl
        cases hfl
        exact ⟨true, rfl⟩
      · exact ⟨fl, hfl⟩
    · dsimp only at hc'
      rw [hset] at hc'
      split_ifs at hc' with heq
      · cases hc'
        rw [← heq]
        exact h.paired c false p hc b
      · exact h.paired c' fl q hc' b

/-- The two new functions share a flag that is new too. -/
theorem Machine.function?_createResolvingFunctions (m : Machine) (p : Ref) (r : ℕ) :
    (createResolvingFunctions p m).function? r =
      if r = m.objs.length then some (false, p, m.presolved.length)
      else if r = m.objs.length + 1 then some (true, p, m.presolved.length)
      else m.function? r := by
  unfold Machine.function? createResolvingFunctions
  dsimp only
  rw [List.getElem?_append]
  split_ifs with hlt h₀ h₁ h₀ h₁
  · omega
  · omega
  · rfl
  · simp [h₀, PromiseObj.function?]
  · simp [h₁, PromiseObj.function?]
  · have hge : 2 ≤ r - m.objs.length := by omega
    rw [List.getElem?_eq_none (by simpa using hge), List.getElem?_eq_none (not_lt.1 hlt)]

/-- They are no promises. -/
theorem Machine.promise?_createResolvingFunctions (m : Machine) (p q : Ref) :
    (createResolvingFunctions p m).promise? q = m.promise? q := by
  unfold Machine.promise? createResolvingFunctions
  dsimp only
  rw [List.getElem?_append]
  split_ifs with hlt
  · rfl
  · rw [List.getElem?_eq_none (not_lt.1 hlt)]
    rcases hq : q - m.objs.length with - | - | n <;> simp [PromiseObj.promise?]

/-- A new pair of functions takes the right. -/
theorem advances_createResolvingFunctions (m : Machine) (p : Ref) :
    Advances (some p) m none (createResolvingFunctions p m) := by
  refine advances_of_eq (m.promise?_createResolvingFunctions p) (fun q => ?_) (fun _ => rfl) rfl rfl
    fun h => ?_
  · simp only [rights, createResolvingFunctions, List.countP_append, List.countP_cons,
      List.countP_nil, Resolved.holds, Bool.not_false, Bool.true_and, decide_eq_true_eq,
      Option.some_inj, reduceCtorEq, if_false]
    omega
  · have hpre : ∀ c, (createResolvingFunctions p m).presolved[c]? =
        if c < m.presolved.length then m.presolved[c]?
        else if c = m.presolved.length then some ⟨false, p⟩ else none := by
      intro c
      unfold createResolvingFunctions
      dsimp only
      rw [List.getElem?_append]
      split_ifs with hlt heq
      · rfl
      · simp [heq]
      · exact List.getElem?_eq_none (by simp; omega)
    refine ⟨fun r b q c hr => ?_, fun c fl q hc b => ?_⟩
    · rw [m.function?_createResolvingFunctions] at hr
      rw [hpre]
      split_ifs at hr with h₀ h₁
      · cases hr
        exact ⟨false, by simp⟩
      · cases hr
        exact ⟨false, by simp⟩
      · obtain ⟨fl, hfl⟩ := h.shared r b q c hr
        rw [if_pos (List.getElem?_eq_some_iff.1 hfl).1]
        exact ⟨fl, hfl⟩
    · rw [hpre] at hc
      split_ifs at hc with hlt heq
      · obtain ⟨r, hr⟩ := h.paired c fl q hc b
        refine ⟨r, ?_⟩
        have hr' : r < m.objs.length := by
          by_contra hge
          rw [Machine.function?, List.getElem?_eq_none (not_lt.1 hge)] at hr
          cases hr
        rw [m.function?_createResolvingFunctions, if_neg (Nat.ne_of_lt hr'),
          if_neg (Nat.ne_of_lt (Nat.lt_succ_of_lt hr'))]
        exact hr
      · cases hc
        cases b with
        | false => exact ⟨m.objs.length, by simp [m.function?_createResolvingFunctions, heq]⟩
        | true => exact ⟨m.objs.length + 1, by simp [m.function?_createResolvingFunctions, heq]⟩

/-! ## Promises -/

/-- A new promise, with the right in hand. -/
theorem advances_newPromise (m : Machine) (isHandled : Bool) :
    Advances none m (some m.objs.length) (m.alloc (.promise ⟨.pending, [], [], isHandled⟩)) := by
  set m' := m.alloc (.promise ⟨.pending, [], [], isHandled⟩) with hm'
  have hnew : m.promise? m.objs.length = none := by
    rw [Machine.promise?, List.getElem?_eq_none le_rfl]
    rfl
  have hpromise : ∀ q : ℕ, m'.promise? q =
      if q = m.objs.length then some ⟨.pending, [], [], isHandled⟩ else m.promise? q := by
    intro q
    rw [hm']
    unfold Machine.promise? Machine.alloc
    rw [List.getElem?_append]
    split_ifs with hlt heq heq
    · omega
    · rfl
    · simp [heq, PromiseObj.promise?]
    · have hge : 1 ≤ q - m.objs.length := by omega
      rw [List.getElem?_eq_none (by simpa using hge), List.getElem?_eq_none (not_lt.1 hlt)]
  have hrights : ∀ q, rights (some m.objs.length) m' q =
      rights none m q + if q = m.objs.length then 1 else 0 := by
    intro q
    simp [rights, hm', Machine.alloc, eq_comm]
  intro h
  refine ⟨⟨h.1.linked.congr (m.function?_alloc rfl) rfl, fun q hq => ?_, h.1.late⟩,
    fun q s d hq _ hd => ?_, fun q s' hq hq' => ?_⟩
  · rw [hpromise] at hq
    split_ifs at hq with heq
    rw [hrights, if_neg heq]
    exact h.1.none q hq
  · have hne : q ≠ m.objs.length := fun heq => by
      rw [heq, hnew] at hq
      cases hq
    refine ⟨s, d, ?_, .refl, ⟨hd.outcome, ?_, hd.fulfill, hd.reject, hd.delivered, hd.registered⟩⟩
    · rw [hpromise, if_neg hne, hq]
    · rw [hrights, if_neg hne]
      exact hd.rights
  · rw [hpromise] at hq'
    split_ifs at hq' with heq
    · cases hq'
      obtain ⟨hr, hreact, hreg⟩ := h.1.none q hq
      refine ⟨Deferred.fresh, .refl, ⟨rfl, ?_, rfl, rfl, hreact, hreg⟩⟩
      rw [hrights, hr, if_pos heq]
      rfl
    · cases hq.symm.trans hq'

/-- A promise is written, and no other. -/
theorem Machine.promise?_setPromise {p : Ref} (hp : (m.promise? p).isSome) (s : PromiseData)
    (q : Ref) : (m.setPromise p s).promise? q = if q = p then some s else m.promise? q := by
  have hlt : p < m.objs.length := by
    by_contra hge
    rw [Machine.promise?, List.getElem?_eq_none (not_lt.1 hge)] at hp
    cases hp
  unfold Machine.promise? Machine.setPromise
  rw [List.getElem?_set]
  split_ifs with h₁ h₂ h₂
  · rfl
  · exact absurd h₁.symm h₂
  · exact absurd h₂.symm h₁
  · rfl

/-- A promise is no resolving function, before and after. -/
theorem Machine.function?_setPromise {p : Ref} (hp : (m.promise? p).isSome) (s : PromiseData)
    (r : Ref) : (m.setPromise p s).function? r = m.function? r := by
  obtain ⟨s₀, hs₀⟩ := Option.isSome_iff_exists.1 hp
  obtain ⟨o, ho, hos⟩ := Option.bind_eq_some_iff.1 hs₀
  unfold Machine.function? Machine.setPromise
  rw [List.getElem?_set]
  split_ifs with h₁ h₂
  · rw [← h₁, ho]
    cases o <;> cases hos
    rfl
  · rw [← h₁, List.getElem?_eq_none (not_lt.1 h₂)]
  · rfl

/-- A change to one promise `p` and its jobs, which is a move. -/
theorem advances_of_move {p : Ref} {s s' : PromiseData} (hp : m.promise? p = some s)
    (hpromise : ∀ q, m'.promise? q = if q = p then some s' else m.promise? q)
    (hother : ∀ q, q ≠ p → rights hand' m' q = rights hand m q ∧
      m'.reactionsTo q = m.reactionsTo q ∧ m'.registeredWith q = m.registeredWith q)
    (hmove : ∀ d, d.Sound → Refines hand m p s d →
      m'.late = m.late ∧ ∃ d', d.Moves d' ∧ Refines hand' m' p s' d')
    (hfunc : ∀ r, m'.function? r = m.function? r) (hpre : m'.presolved = m.presolved) :
    Advances hand m hand' m' := by
  intro h
  obtain ⟨d₀, hsound₀, hd₀⟩ := h.2 p s hp
  refine ⟨⟨h.1.linked.congr hfunc hpre, fun q hq => ?_, (hmove d₀ hsound₀ hd₀).1.trans h.1.late⟩,
    fun q t d hq hsound hd => ?_, fun q t hq hq' => ?_⟩
  · rw [hpromise] at hq
    split_ifs at hq with heq
    obtain ⟨hr, hreact, hreg⟩ := hother q heq
    rw [hr, hreact, hreg]
    exact h.1.none q hq
  · by_cases heq : q = p
    · subst heq
      cases hp.symm.trans hq
      obtain ⟨-, d', hmoves, hd'⟩ := hmove d hsound hd
      exact ⟨s', d', by rw [hpromise, if_pos rfl], hmoves, hd'⟩
    · obtain ⟨hr, hreact, hreg⟩ := hother q heq
      exact ⟨t, d, by rw [hpromise, if_neg heq, hq], .refl, hd.outcome, hr.trans hd.rights,
        hd.fulfill, hd.reject, hreact.trans hd.delivered, hreg.trans hd.registered⟩
  · rw [hpromise] at hq'
    split_ifs at hq' with heq
    · rw [heq, hp] at hq
      cases hq
    · cases hq.symm.trans hq'

/-- A state of a promise is told by its outcome. -/
theorem outcomeOf_injective : Function.Injective outcomeOf := by
  intro s t h
  cases s <;> cases t <;> simp_all [outcomeOf]

/-- A promise without an outcome is pending. -/
theorem outcomeOf_eq_none {s : PromiseState} : outcomeOf s = none ↔ s = .pending := by
  cases s <;> simp [outcomeOf]

/-- Who waits for a promise registered with it. -/
theorem Refines.promise_of_waiting {p : Ref} {s : PromiseData}
    {d : Deferred (Bool × JSValue) Registered} (hd : Refines hand m p s d) (hsound : d.Sound)
    (hpending : d.outcome = none) {w : Registered} (hw : w ∈ d.waiting) : w.promise = p := by
  rw [(hsound.pending hpending).2.1, ← hd.registered] at hw
  simpa using (List.mem_filter.1 hw).2

/-- What a settled promise puts into the queue. -/
theorem settledJobs {d : Deferred (Bool × JSValue) Registered} {s : PromiseData} {p : Ref}
    (hd : Refines hand m p s d) (v : JSValue) (isReject : Bool) :
    (if isReject then s.rejectReactions else s.fulfillReactions).map
        (fun rd => PromiseJob.reaction rd isReject v) =
      d.waiting.map fun w => w.job (isReject, v) := by
  cases isReject
  · simp [hd.fulfill, Registered.job]
  · simp [hd.reject, Registered.job]

/-- `fulfill_or_reject_promise` with the right in hand: the promise is pending. -/
theorem advances_fulfillOrReject (m : Machine) (p : Ref) (v : JSValue) (isReject : Bool) :
    Advances (some p) m none (fulfillOrReject p v isReject m) := by
  intro h
  have hpos : 0 < rights (some p) m p := by simp [rights]
  cases hp : m.promise? p with
  | none => exact absurd (h.1.none p hp).1 hpos.ne'
  | some s =>
    obtain ⟨d₀, hsound₀, hd₀⟩ := h.2 p s hp
    have hopen₀ := hsound₀.outcome_eq_none (hd₀.rights ▸ hpos)
    have hstate := outcomeOf_eq_none.1 (hd₀.outcome.trans hopen₀)
    have heq : fulfillOrReject p v isReject m =
        { m.setPromise p ⟨if isReject then .rejected v else .fulfilled v, [], [], s.isHandled⟩ with
          jobs := m.jobs ++ d₀.waiting.map fun w => w.job (isReject, v) } := by
      simp only [fulfillOrReject, hp, hstate, settledJobs hd₀]
      rfl
    have hholds : ∀ q, (d₀.waiting.map fun w => w.job (isReject, v)).countP
        (PromiseJob.holds q) = 0 := by
      intro q
      rw [List.countP_map]
      exact List.countP_eq_zero.2 fun w _ => by simp [Registered.job, PromiseJob.holds]
    have hreacts : ∀ q, (d₀.waiting.map fun w => w.job (isReject, v)).filter
        (PromiseJob.reacts q) =
          if q = p then d₀.waiting.map fun w => w.job (isReject, v) else [] := by
      intro q
      split_ifs with hq
      · refine List.filter_eq_self.2 fun job hjob => ?_
        obtain ⟨w, hw, rfl⟩ := List.mem_map.1 hjob
        simp [Registered.job, Registered.data, PromiseJob.reacts, hq,
          hd₀.promise_of_waiting hsound₀ hopen₀ hw]
      · refine List.filter_eq_nil_iff.2 fun job hjob => ?_
        obtain ⟨w, hw, rfl⟩ := List.mem_map.1 hjob
        simpa [Registered.job, Registered.data, PromiseJob.reacts,
          hd₀.promise_of_waiting hsound₀ hopen₀ hw] using Ne.symm hq
    rw [heq]
    refine advances_of_move hp (fun q => m.promise?_setPromise (by simp [hp]) _ q)
      (fun q hq => ⟨?_, ?_, rfl⟩) (fun d hsound hd => ⟨rfl, d.settle (isReject, v), ?_, ?_⟩)
      (m.function?_setPromise (by simp [hp]) _) rfl h
    · simp [rights, Machine.setPromise, hholds, Ne.symm hq]
    · simp [Machine.reactionsTo, Machine.setPromise, hreacts, hq, ← List.append_assoc]
    · exact ReflTransGen.single (.settle d _ (hd.rights ▸ hpos))
    · have hopen := hsound.outcome_eq_none (hd.rights ▸ hpos)
      have hwait : d.waiting = d₀.waiting := by
        rw [(hsound.pending hopen).2.1, (hsound₀.pending hopen₀).2.1, ← hd.registered,
          ← hd₀.registered]
      rw [Deferred.settle_of_none hopen]
      refine ⟨?_, ?_, rfl, rfl, ?_, hd.registered⟩
      · cases isReject <;> rfl
      · simp [← hd.rights, rights, Machine.setPromise, hholds]
      · have hdel := hd.delivered
        simp only [Machine.reactionsTo, List.filter_append] at hdel
        simp [Machine.reactionsTo, Machine.setPromise, hreacts, ← List.append_assoc, hdel, hwait]

/-- One more registration with `p`. -/
theorem registeredWith_append {w : Registered} {p : Ref} (hw : w.promise = p)
    (hreg : m'.registered = m.registered ++ [w]) (q : Ref) :
    m'.registeredWith q = if q = p then m.registeredWith q ++ [w] else m.registeredWith q := by
  rw [Machine.registeredWith, hreg, List.filter_append, Machine.registeredWith]
  split_ifs with hq
  · simp [hw, hq]
  · simp [hw, Ne.symm hq]

/-- `perform_promise_then` adds to both lists of a pending promise, or queues the reaction at
once. -/
theorem advances_performPromiseThen (hand : Option Ref) (m : Machine) (p : Ref)
    (onFulfilled onRejected resolveFunc rejectFunc : JSValue) :
    Advances hand m hand
      (performPromiseThen p onFulfilled onRejected resolveFunc rejectFunc m) := by
  unfold performPromiseThen
  cases hp : m.promise? p with
  | none => exact .refl hand m
  | some s =>
    dsimp only
    generalize hw : (⟨p, _, _, resolveFunc, rejectFunc⟩ : Registered) = w
    have hwp : w.promise = p := by rw [← hw]
    have hsome : ({ m with registered := m.registered ++ [w] }.promise? p).isSome := by
      show (m.promise? p).isSome
      simp [hp]
    cases hout : outcomeOf s.state with
    | none =>
      refine advances_of_move hp (fun q => Machine.promise?_setPromise hsome _ q)
        (fun q hq => ⟨rfl, rfl, ?_⟩) (fun d hsound hd => ⟨rfl, d.register w, ?_, ?_⟩)
        (Machine.function?_setPromise hsome _) rfl
      · rw [registeredWith_append hwp rfl, if_neg hq]
      · exact ReflTransGen.single (.register d w)
      · have hopen := hd.outcome.symm.trans hout
        rw [Deferred.register_of_none hopen]
        refine ⟨hd.outcome, hd.rights, ?_, ?_, hd.delivered, ?_⟩
        · simp [hd.fulfill]
        · simp [hd.reject]
        · rw [registeredWith_append hwp rfl, if_pos rfl, hd.registered]
    | some o =>
      obtain ⟨isReject, v⟩ := o
      have hreacts : ∀ q, PromiseJob.reacts q (.reaction (w.data isReject) isReject v) =
          decide (p = q) := fun q => by simp [PromiseJob.reacts, Registered.data, hwp]
      refine advances_of_move hp (fun q => Machine.promise?_setPromise hsome _ q)
        (fun q hq => ⟨?_, ?_, ?_⟩) (fun d hsound hd => ⟨rfl, d.register w, ?_, ?_⟩)
        (Machine.function?_setPromise hsome _) rfl
      · simp [rights, Machine.setPromise, Machine.enqueue, PromiseJob.holds]
      · simp [Machine.reactionsTo, Machine.setPromise, Machine.enqueue, hreacts, Ne.symm hq]
      · rw [registeredWith_append hwp rfl, if_neg hq]
      · exact ReflTransGen.single (.register d w)
      · have hset := hd.outcome.symm.trans hout
        rw [Deferred.register_of_some hset]
        refine ⟨hd.outcome, ?_, hd.fulfill, hd.reject, ?_, ?_⟩
        · simp [← hd.rights, rights, Machine.setPromise, Machine.enqueue, PromiseJob.holds]
        · have hdel := hd.delivered
          simp only [Machine.reactionsTo, List.filter_append] at hdel
          simp [Machine.reactionsTo, Machine.setPromise, Machine.enqueue, hreacts,
            ← List.append_assoc, hdel, Registered.job]
        · rw [registeredWith_append hwp rfl, if_pos rfl, hd.registered]

/-! ## The functions -/

/-- `js_promise_resolve_function_call` takes the right of an unused pair, or does nothing. -/
theorem advances_resolveFunctionCall (m : Machine) (isReject : Bool) {p : Ref} {c : ℕ}
    (hc : ∃ fl, m.presolved[c]? = some ⟨fl, p⟩) (args : List JSValue) :
    Advances none m none (resolveFunctionCall isReject p c args m) := by
  obtain ⟨fl, hc⟩ := hc
  unfold resolveFunctionCall
  rw [hc]
  cases fl with
  | true => exact advances_goto none m _
  | false =>
    dsimp only
    have huse := advances_useFunction hc
    split
    · split_ifs
      · exact ((huse.trans (advances_alloc _ _ rfl rfl)).trans
          (advances_fulfillOrReject _ p _ true)).trans (advances_goto none _ _)
      · exact (huse.trans (advances_push_getThen _ p _)).trans (advances_goto none _ _)
    · exact (huse.trans (advances_fulfillOrReject _ p _ _)).trans (advances_goto none _ _)

/-- The end of a resolution, with what reading `then` came to, uses the right in hand. -/
theorem advances_resolveWithThen (m : Machine) (p : Ref) (resolution : JSValue) (r : Outcome) :
    Advances (some p) m none (resolveWithThen p resolution r m) := by
  unfold resolveWithThen
  cases r with
  | throws e => exact (advances_fulfillOrReject m p e true).trans (advances_goto none _ _)
  | value thenFunc =>
    dsimp only
    split_ifs
    · exact (advances_enqueue_thenable m p resolution thenFunc).trans (advances_goto none _ _)
    · exact (advances_fulfillOrReject m p resolution false).trans (advances_goto none _ _)

/-- `js_promise_constructor` makes a promise and its pair, and calls the executor. -/
theorem advances_promiseConstructor (m : Machine) (executor : JSValue) :
    Advances none m none (promiseConstructor executor m) :=
  (((advances_newPromise m false).trans (advances_createResolvingFunctions _ _)).trans
    (advances_push none _ fun _ => rfl)).trans (advances_goto none _ _)

/-- The executor of a capability writes its own data only. -/
theorem advances_promiseExecutor {r : Ref} {resolve reject : JSValue}
    (hr : m.objs[r]? = some (.executor resolve reject)) (args : List JSValue) :
    Advances none m none (promiseExecutor r resolve reject args m) := by
  unfold promiseExecutor
  dsimp only
  split_ifs
  · exact (advances_setExecutor none hr _ _).trans (advances_goto none _ _)
  · exact (advances_setExecutor none hr _ _).trans (advances_throwTypeError none _)
  · exact advances_throwTypeError none m

/-- `js_new_promise_capability` makes an executor, and calls a constructor that may be foreign. -/
theorem advances_newPromiseCapability (m : Machine) (ctor : JSValue) (k : Capability) :
    Advances none m none (newPromiseCapability ctor k m) := by
  have hpush := (advances_alloc none m (o := .executor .undefined .undefined) rfl rfl).trans
    (advances_push none _ (f := .capability m.objs.length k) fun _ => rfl)
  unfold newPromiseCapability
  dsimp only
  split_ifs
  · exact hpush.trans (advances_promiseConstructor _ _)
  · exact hpush.trans (advances_goto none _ _)

/-- What goes on when the constructor of a capability is done. -/
theorem advances_withCapability (m : Machine) (k : Capability) (result resolve reject : JSValue) :
    Advances none m none (withCapability k result resolve reject m) := by
  unfold withCapability
  cases k with
  | new => exact advances_goto none m _
  | promiseThen p onFulfilled onRejected =>
    exact (advances_performPromiseThen none m p _ _ _ _).trans (advances_goto none _ _)
  | promiseResolve isReject v =>
    exact (advances_push none m fun _ => rfl).trans (advances_goto none _ _)

/-- `js_promise_then` asks for the constructor to use, where `this` is a promise. -/
theorem advances_promiseThen (m : Machine) (this : JSValue) (args : List JSValue) :
    Advances none m none (promiseThen this args m) := by
  unfold promiseThen
  split
  · split
    · exact (advances_push none m fun _ => rfl).trans (advances_goto none _ _)
    · exact advances_throwTypeError none m
  · exact advances_throwTypeError none m

/-- `js_promise_resolve` reads the constructor of a promise, or makes a capability for a value. -/
theorem advances_promiseResolve (m : Machine) (isReject : Bool) (this : JSValue)
    (args : List JSValue) : Advances none m none (promiseResolve isReject this args m) := by
  unfold promiseResolve
  dsimp only
  split
  · split
    · split_ifs
      · exact (advances_push none m fun _ => rfl).trans (advances_goto none _ _)
      · exact advances_newPromiseCapability m _ _
    · exact advances_newPromiseCapability m _ _
  · exact advances_throwTypeError none m

/-- `JS_Call`, by the kind of the function. -/
theorem advances_jsCall (m : Machine) (f this : JSValue) (args : List JSValue) :
    Advances none m none (jsCall f this args m) := by
  unfold jsCall
  cases f with
  | object r =>
    dsimp only
    cases hr : m.objs[r]? with
    | none => exact advances_throwTypeError none m
    | some o =>
      cases o with
      | resolveFunction isReject p c =>
        intro h
        have hfunc : m.function? r = some (isReject, p, c) := by
          rw [Machine.function?, hr]
          rfl
        exact advances_resolveFunctionCall m isReject (h.1.linked.shared r _ p c hfunc) args h
      | executor resolve reject => exact advances_promiseExecutor hr args
      | promiseThen => exact advances_promiseThen m this args
      | promiseResolve isReject => exact advances_promiseResolve m isReject this args
      | function => exact advances_goto none m _
      | _ => exact advances_throwTypeError none m
  | _ => exact advances_throwTypeError none m

/-- `JS_CallConstructor`, of `Promise` or of a foreign class. -/
theorem advances_jsConstruct (m : Machine) (ctor executor : JSValue) :
    Advances none m none (jsConstruct ctor executor m) := by
  unfold jsConstruct
  cases ctor with
  | object r =>
    dsimp only
    split
    · split_ifs
      · exact (advances_push none m fun _ => rfl).trans (advances_goto none _ _)
      · exact advances_throwTypeError none m
    · exact advances_goto none m _
    · exact advances_throwTypeError none m
  | _ => exact advances_throwTypeError none m

/-- The function on top of the stack goes on. -/
theorem advances_resume {f : Frame} {rest : List Frame} (hstack : m.stack = f :: rest)
    (r : Outcome) : Advances none m none (resume f r { m with stack := rest }) := by
  by_cases hget : ∃ p resolution, f = .getThen p resolution
  · obtain ⟨p, resolution, rfl⟩ := hget
    have hres := (advances_pop_getThen hstack).trans (advances_resolveWithThen _ p resolution r)
    cases r <;> exact hres
  · have hpop : Advances none m none { m with stack := rest } :=
      advances_pop none hstack fun p => by
        cases f with
        | getThen q v => exact absurd ⟨q, v, rfl⟩ hget
        | _ => rfl
    refine hpop.trans ?_
    generalize { m with stack := rest } = m₁
    unfold resume
    split
    · exact advances_goto none m₁ _
    · exact advances_promiseConstructor m₁ _
    · exact advances_goto none m₁ _
    · exact (advances_push none m₁ fun _ => rfl).trans (advances_goto none _ _)
    · exact advances_goto none m₁ _
    · split
      · split_ifs
        · exact advances_withCapability m₁ _ _ _ _
        · exact advances_throwTypeError none m₁
      · exact advances_throwTypeError none m₁
    · exact advances_newPromiseCapability m₁ _ _
    · split_ifs
      · exact advances_goto none m₁ _
      · exact advances_newPromiseCapability m₁ _ _
    · exact advances_goto none m₁ _
    · exact absurd ⟨_, _, rfl⟩ hget
    · exact advances_goto none m₁ _
    · exact advances_goto none m₁ _
    · dsimp only
      split_ifs <;> exact advances_goto none m₁ _
    · exact advances_goto none m₁ _

/-- `js_promise_resolve_thenable_job` and `promise_reaction_job` use the right of their job. -/
theorem advances_runJob (m : Machine) (job : PromiseJob) :
    Advances job.right m none (runJob job m) := by
  unfold runJob
  cases job with
  | reaction rd isReject arg =>
    dsimp only
    have hpush := advances_push none m (f := .reaction rd.resolveFunc rd.rejectFunc) fun _ => rfl
    split_ifs <;> exact hpush.trans (advances_goto none _ _)
  | thenable p thenable thenFunc =>
    exact ((advances_createResolvingFunctions m p).trans
      (advances_push none _ fun _ => rfl)).trans (advances_goto none _ _)

/-- `JS_ExecutePendingJob` takes the first job and runs it. -/
theorem advances_executePendingJob {job : PromiseJob} {rest : List PromiseJob}
    (hjobs : m.jobs = job :: rest) : Advances none m none (executePendingJob job rest m) :=
  (advances_takeJob hjobs).trans (advances_runJob _ job)

/-- Every step is a step of the protocol. -/
theorem Step.advances (hstep : Step m m') : Advances none m none m' := by
  cases hstep with
  | ret _ hstack => exact advances_resume hstack _
  | call => exact advances_jsCall m _ _ _
  | interrupt => exact advances_goto none m _
  | construct => exact advances_jsConstruct m _ _
  | codeCall => exact (advances_push none m fun _ => rfl).trans (advances_goto none _ _)
  | codeConstruct => exact (advances_push none m fun _ => rfl).trans (advances_goto none _ _)
  | codeCapability =>
    exact (advances_push none m (f := .code) fun _ => rfl).trans
      (advances_newPromiseCapability _ _ _)
  | codeAwait p onFulfilled onRejected _ _ => exact advances_performPromiseThen none m _ _ _ _ _
  | codeFunction => exact advances_alloc none m rfl rfl
  | codeObject => exact advances_alloc none m rfl rfl
  | codeJob _ hjobs =>
    exact (advances_push none m (f := .code) fun _ => rfl).trans (advances_executePendingJob hjobs)
  | codeReturn => exact advances_goto none m _

/-- A run is made of steps, so its promises make the moves of them all. -/
theorem Run.advances (hrun : Run m m') : Advances none m none m' := by
  induction hrun with
  | refl => exact .refl none m
  | tail _ hstep ih => exact ih.trans hstep.advances

/-- No promise was made yet. -/
theorem accounts_start : Accounts none .start := by
  have hpromise : ∀ p, Machine.start.promise? p = none := by
    intro p
    rcases p with - | - | - | - | p <;> rfl
  have hfunc : ∀ r, Machine.start.function? r = none := by
    intro r
    rcases r with - | - | - | - | r <;> rfl
  refine ⟨⟨⟨fun r b p c hr => ?_, fun c fl p hc => ?_⟩, fun p _ => ⟨rfl, rfl, rfl⟩, rfl⟩,
    fun p s hp => ?_⟩
  · cases (hfunc r).symm.trans hr
  · cases hc
  · cases (hpromise p).symm.trans hp

/-! ## Runs -/

section

variable {p : Ref} {s : PromiseData} (hrun : Run .start m)

include hrun

/-- In every reachable state a promise is as a sound deferred value. -/
theorem Run.refines (hp : m.promise? p = some s) : ∃ d, d.Sound ∧ Refines none m p s d :=
  (hrun.advances.accounts accounts_start).2 p s hp

/-- **A promise is settled once.** In every state of every run each pending promise has one right to
settle it, and a settled one has none and stays as it is. So `fulfill_or_reject_promise` never meets
a promise that is settled. -/
theorem settles_once : m.late = 0 ∧ ∀ p s, m.promise? p = some s →
    (rights none m p = if s.state = .pending then 1 else 0) ∧
      ∀ m', Run m m' → ∃ s', m'.promise? p = some s' ∧
        (s.state ≠ .pending → s'.state = s.state) := by
  have hacc := hrun.advances.accounts accounts_start
  refine ⟨hacc.1.late, fun p s hp => ?_⟩
  obtain ⟨d, hsound, hd⟩ := hacc.2 p s hp
  refine ⟨?_, fun m' hrun' => ?_⟩
  · rw [hd.rights]
    split_ifs with hstate
    · exact (hsound.pending (hd.outcome ▸ outcomeOf_eq_none.2 hstate)).1
    · obtain ⟨o, ho⟩ := Option.ne_none_iff_exists'.1 (mt outcomeOf_eq_none.1 hstate)
      exact (hsound.settled o (hd.outcome ▸ ho)).1
  · obtain ⟨s', d', hp', hmoves, hd'⟩ := (hrun'.advances hacc).2.old p s d hp hsound hd
    refine ⟨s', hp', fun hstate => ?_⟩
    obtain ⟨o, ho⟩ := Option.ne_none_iff_exists'.1 (mt outcomeOf_eq_none.1 hstate)
    have ho' := hd'.outcome.trans (hmoves.outcome (hd.outcome ▸ ho))
    exact outcomeOf_injective (ho'.trans ho.symm)

/-- **Reactions come once, and in order.** In every state of every run nothing that was registered
with a pending promise is in the queue, and it is on both of its lists in the order of registration.
With a settled promise the jobs that were put into the queue, those that were started and those that
wait, are its registrations in that order, each once, each with the handler and the value of the
outcome. -/
theorem reactions_once (hp : m.promise? p = some s) :
    (s.state = .pending → m.reactionsTo p = [] ∧
      s.fulfillReactions = (m.registeredWith p).map (fun w => w.data false) ∧
      s.rejectReactions = (m.registeredWith p).map (fun w => w.data true)) ∧
    ∀ o, outcomeOf s.state = some o → s.fulfillReactions = [] ∧ s.rejectReactions = [] ∧
      m.reactionsTo p = (m.registeredWith p).map (fun w => w.job o) := by
  obtain ⟨d, hsound, hd⟩ := hrun.refines hp
  refine ⟨fun hstate => ?_, fun o ho => ?_⟩
  · obtain ⟨-, hwait, hdel⟩ := hsound.pending (hd.outcome ▸ outcomeOf_eq_none.2 hstate)
    rw [hd.delivered, hdel, hd.registered, hd.fulfill, hd.reject, hwait]
    exact ⟨rfl, rfl, rfl⟩
  · obtain ⟨-, hwait, hdel⟩ := hsound.settled o (hd.outcome ▸ ho)
    rw [hd.delivered, hdel, hd.registered, hd.fulfill, hd.reject, hwait, List.map_map]
    exact ⟨rfl, rfl, rfl⟩

/-- **No resolution is lost.** Where no function waits and no job is pending, a promise is pending
exactly if one of its pairs of resolving functions was never called, and both functions of the pair
are there. -/
theorem pending_iff_uncalled (hstack : m.stack = []) (hjobs : m.jobs = [])
    (hp : m.promise? p = some s) : s.state = .pending ↔
      ∃ c, m.presolved[c]? = some ⟨false, p⟩ ∧ ∀ b, ∃ r, m.function? r = some (b, p, c) := by
  obtain ⟨d, hsound, hd⟩ := hrun.refines hp
  have hlinked := (hrun.advances.accounts accounts_start).1.linked
  have hcount : m.presolved.countP (Resolved.holds p) = d.rights := by
    rw [← hd.rights, rights, hstack, hjobs]
    rfl
  refine ⟨fun hstate => ?_, fun ⟨c, hc, _⟩ => ?_⟩
  · rw [(hsound.pending (hd.outcome ▸ outcomeOf_eq_none.2 hstate)).1] at hcount
    obtain ⟨x, hx, hholds⟩ := List.countP_pos_iff.1 (hcount ▸ Nat.one_pos)
    obtain ⟨c, hc⟩ := List.getElem?_of_mem hx
    obtain ⟨fl, q⟩ := x
    have hx : fl = false ∧ q = p := by simpa [Resolved.holds] using hholds
    rw [hx.1, hx.2] at hc
    exact ⟨c, hc, hlinked.paired c false p hc⟩
  · have hpos : 0 < m.presolved.countP (Resolved.holds p) :=
      List.countP_pos_iff.2 ⟨_, List.mem_of_getElem? hc, by simp [Resolved.holds]⟩
    exact outcomeOf_eq_none.1 (hd.outcome.trans (hsound.outcome_eq_none (hcount ▸ hpos)))

end

/-! ## A promise from start to end -/

/-- A promise capability: the promise is object 5, and its functions are 6 and 7. -/
theorem run_capability : ∃ m, Run .start m ∧ m.stack = [] ∧ m.jobs = [] ∧
    m.promise? 5 = some ⟨.pending, [], [], false⟩ :=
  ⟨_, .tail (.tail (.tail (.tail (.tail .refl (.codeCapability rfl)) (.call rfl)) (.ret rfl rfl))
    (.ret rfl rfl)) (.ret rfl rfl), rfl, rfl, rfl⟩

/-- Its registered handler is 8, and 6 is called with a value, which puts one job into the queue. -/
theorem run_fulfilled : ∃ m, Run .start m ∧
    m.promise? 5 = some ⟨.fulfilled (.int 1), [], [], true⟩ ∧
    m.registeredWith 5 = [⟨5, .object 8, .undefined, .undefined, .undefined⟩] :=
  ⟨_, .tail (.tail (.tail (.tail (.tail (.tail (.tail (.tail (.tail (.tail .refl
    (.codeCapability rfl)) (.call rfl)) (.ret rfl rfl)) (.ret rfl rfl)) (.ret rfl rfl))
    (.codeFunction rfl)) (.codeAwait 5 (.object 8) .undefined rfl rfl))
    (.codeCall (.object 6) .undefined [.int 1] rfl)) (.call rfl)) (.ret rfl rfl), rfl, rfl⟩

/-- A promise that was fulfilled has no right left. -/
theorem settles_once_fulfilled : ∃ m, Run .start m ∧ m.late = 0 ∧ rights none m 5 = 0 := by
  obtain ⟨m, hrun, hp, -⟩ := run_fulfilled
  obtain ⟨hlate, hpromise⟩ := settles_once hrun
  exact ⟨m, hrun, hlate, (hpromise 5 _ hp).1.trans (if_neg (by simp))⟩

/-- The reaction that was registered is delivered once, with the value. -/
theorem reactions_once_fulfilled : ∃ m, Run .start m ∧ m.reactionsTo 5 =
    [.reaction ⟨.undefined, .undefined, .object 8, 5⟩ false (.int 1)] := by
  obtain ⟨m, hrun, hp, hreg⟩ := run_fulfilled
  obtain ⟨-, -, hreact⟩ := (reactions_once hrun hp).2 (false, .int 1) rfl
  refine ⟨m, hrun, hreact.trans ?_⟩
  rw [hreg]
  rfl

/-- Both functions of a pending promise are there, and their flag is not set. -/
theorem pending_iff_uncalled_capability : ∃ m, Run .start m ∧ ∃ c,
    m.presolved[c]? = some ⟨false, 5⟩ ∧ ∀ b, ∃ r, m.function? r = some (b, 5, c) := by
  obtain ⟨m, hrun, hstack, hjobs, hp⟩ := run_capability
  exact ⟨m, hrun, (pending_iff_uncalled hrun hstack hjobs hp).1 rfl⟩

end Reactions

end QuickjsDart
