import QuickjsDart.Read

/-!
# The job loop

`executePendingJob` runs the pending jobs of the runtime, and `donePendingJobs` reports how many. A
job may append further jobs, so the number of turns is not known beforehand: the loop has fuel, and
`none` is a loop that is still running.

`Drains` says which jobs were completed one after the other, and `Stops` how the loop ends
(`executePendingJob_iff`). A thrown number is taken for a count (`donePendingJobs_faithful_iff`).
-/

namespace QuickjsDart

open Codec

variable (env : Env)

/-- `JS_ExecutePendingJob`: the status, with the exception left pending. What the job does to its
own arguments is part of `runJob`. -/
def jsExecutePendingJob : Dart ℤ := fun vm =>
  match vm.jobs with
  | [] => .ok 0 vm
  | job :: rest =>
    match env.runJob job { vm with jobs := rest } with
    | .ok _ vm => .ok 1 vm
    | .error .crash vm => .error .crash vm
    | .error e vm => .ok (-1) { vm with currentException := some e }

/-- `JS_GetException`, which takes the pending exception. -/
def takeException : Dart JSValue := fun vm =>
  match vm.currentException with
  | none => .ok .null vm
  | some e =>
    let (v, vm) := jsGetException e vm
    .ok v { vm with currentException := none }

/-- The number that `executePendingJob` returns. -/
def jobCount (executed : Int32) : JSValue := jsNewFloat64 (.ofInt executed.toInt)

/-- The `while` of `executePendingJob`, with the jobs executed so far. -/
def executeJobs (max : Int32) : ℕ → Int32 → Dart (Option JSValue)
  | 0, _ => pure none
  | fuel + 1, executed =>
    if executed = max then pure (some (jobCount executed))
    else do
      let status ← jsExecutePendingJob env
      if status = -1 then some <$> takeException
      else if status = 1 then executeJobs max fuel (executed + 1)
      else pure (some (jobCount executed))

/-- The C function `executePendingJob`. -/
def executePendingJob (fuel : ℕ) (max : Int32) : Dart (Option JSValue) := executeJobs env max fuel 0

/-- `JSValue.isNumber`. -/
def JSValue.isNumber : JSValue → Bool
  | int _ => true
  | float64 _ => true
  | _ => false

/-- What `donePendingJobs` makes of a result: a number is taken for the count. -/
def jobReport (v : JSValue) : ℤ := if v.isNumber then (toInt32 v).toInt else -1

/-- `donePendingJobs`: the argument crosses as an `Int32`. -/
def donePendingJobs (fuel : ℕ) (maxNumber : Int64) : Dart (Option ℤ) := do
  let result ← executePendingJob env fuel (Int32.ofInt maxNumber.toInt)
  pure (result.map jobReport)

/-! ## What the loop is for -/

/-- Jobs completed one after the other, each the head of the queue when it was run. -/
inductive Drains : VM → List Job → VM → Prop where
  | nil (vm : VM) : Drains vm [] vm
  | cons {vm vm₁ vm₂ : VM} {job : Job} {rest ran : List Job} : vm.jobs = job :: rest →
      env.runJob job { vm with jobs := rest } = .ok () vm₁ → Drains vm₁ ran vm₂ →
      Drains vm (job :: ran) vm₂

/-- How the loop ends after `n` completed jobs: at the limit, with an empty queue, or at a job that
throws. -/
inductive Stops (max : ℤ) (n : ℕ) (vm : VM) : Option (Job × JSFault) → VM → Prop where
  | limit : (n : ℤ) = max → Stops max n vm none vm
  | empty : (n : ℤ) ≠ max → vm.jobs = [] → Stops max n vm none vm
  | throws {vm₁ : VM} {job : Job} {rest : List Job} {e : JSFault} : (n : ℤ) ≠ max →
      vm.jobs = job :: rest → env.runJob job { vm with jobs := rest } = .error e vm₁ →
      Stops max n vm (some (job, e)) vm₁

/-- A whole run of the loop: `ran` are completed, the limit is not met before, and the loop ends. -/
structure JobRun (max : ℤ) (n : ℕ) (vm : VM) (ran : List Job) (outcome : Option (Job × JSFault))
    (vm' : VM) : Prop where
  below : ∀ i < ran.length, ((n + i : ℕ) : ℤ) ≠ max
  ends : ∃ vm₁, Drains env vm ran vm₁ ∧ Stops env max (n + ran.length) vm₁ outcome vm'

/-- The queue a job leaves: what it appended is behind the others. -/
def Appends (vm : VM) (r : EStateM.Result JSFault VM Unit) : Prop :=
  match r with
  | .ok _ vm' => ∃ new, vm'.jobs = vm.jobs ++ new
  | .error e vm' => e ≠ .crash ∧ ∃ new, vm'.jobs = vm.jobs ++ new

/-- Each job completes or throws, and appends to the queue. -/
def Env.Queues : Prop := ∀ job vm, Appends vm (env.runJob job vm)

/-- What `executePendingJob` returns: the count, or the exception, which is no longer pending. -/
def jobResult (n : ℕ) (vm : VM) : Option (Job × JSFault) → JSValue × VM
  | none => (.int (Int32.ofNat n), vm)
  | some (_, e) =>
    ((jsGetException e vm).1, { (jsGetException e vm).2 with currentException := none })

/-! ## The loop -/

/-- A number of jobs below 2^31 is returned as it is. -/
theorem jobCount_ofNat {n : ℕ} (hn : n < 2 ^ 31) :
    jobCount (Int32.ofNat n) = .int (Int32.ofNat n) := by
  have hval : (Int32.ofNat n).toInt = n := Int32.toInt_ofNat_of_lt hn
  have habs : |(n : ℤ)| < 2 ^ 53 := by
    rw [Nat.abs_cast]
    omega
  rw [jobCount, jsNewFloat64, hval, Binary64.trunc_ofInt habs,
    if_pos ⟨Binary64.isInt_ofInt habs, by omega, by omega, rfl⟩]
  rfl

/-- The counter is compared as a number. -/
theorem ofNat_eq_iff {n : ℕ} (hn : n < 2 ^ 31) (max : Int32) :
    Int32.ofNat n = max ↔ (n : ℤ) = max.toInt := by
  rw [← Int32.toInt_inj, Int32.toInt_ofNat_of_lt hn]

section

variable {env}

/-- Without jobs nothing is done. -/
theorem jsExecutePendingJob_nil {vm : VM} (h : vm.jobs = []) :
    jsExecutePendingJob env vm = .ok 0 vm := by
  unfold jsExecutePendingJob
  rw [h]

/-- The first job is run, and 1 is returned. -/
theorem jsExecutePendingJob_ok {vm vm' : VM} {job : Job} {rest : List Job}
    (h : vm.jobs = job :: rest) (hrun : env.runJob job { vm with jobs := rest } = .ok () vm') :
    jsExecutePendingJob env vm = .ok 1 vm' := by
  unfold jsExecutePendingJob
  rw [h]
  dsimp only
  rw [hrun]

/-- The first job throws, and -1 is returned with the exception pending. -/
theorem jsExecutePendingJob_error {vm vm' : VM} {job : Job} {rest : List Job} {e : JSFault}
    (h : vm.jobs = job :: rest) (hrun : env.runJob job { vm with jobs := rest } = .error e vm')
    (he : e ≠ .crash) :
    jsExecutePendingJob env vm = .ok (-1) { vm' with currentException := some e } := by
  unfold jsExecutePendingJob
  rw [h]
  dsimp only
  rw [hrun]
  cases e with
  | crash => exact absurd rfl he
  | error m => rfl
  | value v => rfl

/-- The exception of a job is taken. -/
theorem takeException_some (vm : VM) (job : Job) (n : ℕ) (e : JSFault) :
    takeException { vm with currentException := some e }
      = .ok (jobResult n vm (some (job, e))).1 (jobResult n vm (some (job, e))).2 := by
  cases e <;> rfl

/-- One turn of the loop. -/
theorem executeJobs_succ (max : Int32) (fuel : ℕ) (executed : Int32) (vm : VM) :
    executeJobs env max (fuel + 1) executed vm
      = if executed = max then .ok (some (jobCount executed)) vm
        else (jsExecutePendingJob env >>= fun status =>
          if status = -1 then some <$> takeException
          else if status = 1 then executeJobs env max fuel (executed + 1)
          else pure (some (jobCount executed))) vm := by
  rw [executeJobs]
  split_ifs <;> rfl

/-- A job that returns is one more of a run. -/
theorem JobRun.cons {max : ℤ} {n : ℕ} {vm vm₁ vm' : VM} {job : Job} {rest ran : List Job}
    {outcome : Option (Job × JSFault)} (hn : (n : ℤ) ≠ max) (h : vm.jobs = job :: rest)
    (hrun : env.runJob job { vm with jobs := rest } = .ok () vm₁)
    (hrest : JobRun env max (n + 1) vm₁ ran outcome vm') :
    JobRun env max n vm (job :: ran) outcome vm' := by
  obtain ⟨vm₂, hdrains, hstops⟩ := hrest.ends
  have hlen : n + (job :: ran).length = n + 1 + ran.length := by
    rw [List.length_cons, Nat.add_right_comm, Nat.add_assoc]
  refine ⟨fun i hi => ?_, vm₂, .cons h hrun hdrains, hlen ▸ hstops⟩
  cases i with
  | zero => exact hn
  | succ i =>
    have := hrest.below i (Nat.lt_of_succ_lt_succ hi)
    rwa [Nat.add_right_comm] at this

/-- A run with an empty list of completed jobs. -/
theorem JobRun.of_stops {max : ℤ} {n : ℕ} {vm vm' : VM} {outcome : Option (Job × JSFault)}
    (h : Stops env max n vm outcome vm') : JobRun env max n vm [] outcome vm' :=
  ⟨fun _ hi => absurd hi (Nat.not_lt_zero _), vm, .nil vm, h⟩

/-- How a run starts. -/
theorem JobRun.cases {max : ℤ} {n : ℕ} {vm vm' : VM} {ran : List Job}
    {outcome : Option (Job × JSFault)} (h : JobRun env max n vm ran outcome vm') :
    (ran = [] ∧ Stops env max n vm outcome vm') ∨
      ∃ job rest ran' vm₁, ran = job :: ran' ∧ (n : ℤ) ≠ max ∧ vm.jobs = job :: rest ∧
        env.runJob job { vm with jobs := rest } = .ok () vm₁ ∧
        JobRun env max (n + 1) vm₁ ran' outcome vm' := by
  obtain ⟨vm₁, hdrains, hstops⟩ := h.ends
  cases hdrains with
  | nil => exact .inl ⟨rfl, hstops⟩
  | @cons _ vm₂ _ job rest ran hjobs hrun hrest =>
    refine .inr
      ⟨job, rest, ran, vm₂, rfl, h.below 0 (Nat.succ_pos _), hjobs, hrun, ?_, vm₁, hrest, ?_⟩
    · intro i hi
      have := h.below (i + 1) (Nat.succ_lt_succ hi)
      rwa [← Nat.add_assoc, Nat.add_right_comm] at this
    · rwa [List.length_cons, ← Nat.add_assoc, Nat.add_right_comm] at hstops

/-- The loop either ends before the next job or completes it. -/
theorem stops_or_completes (env : Env) (max : ℤ) (n : ℕ) (vm : VM) :
    (∃ outcome vm', Stops env max n vm outcome vm') ∨
      ∃ job rest vm₁, (n : ℤ) ≠ max ∧ vm.jobs = job :: rest ∧
        env.runJob job { vm with jobs := rest } = .ok () vm₁ := by
  by_cases hmax : (n : ℤ) = max
  · exact .inl ⟨none, vm, .limit hmax⟩
  · cases hjobs : vm.jobs with
    | nil => exact .inl ⟨none, vm, .empty hmax hjobs⟩
    | cons job rest =>
      cases hrun : env.runJob job { vm with jobs := rest } with
      | ok u vm₁ => exact .inr ⟨job, rest, vm₁, hmax, rfl, hrun⟩
      | error e vm₁ => exact .inl ⟨some (job, e), vm₁, .throws hmax hjobs hrun⟩

/-- The last turn. -/
theorem executeJobs_of_stops (hq : env.Queues) {max : Int32} {n : ℕ} (hn : n < 2 ^ 31) (fuel : ℕ)
    {vm vm' : VM} {outcome : Option (Job × JSFault)} (h : Stops env max.toInt n vm outcome vm') :
    executeJobs env max (fuel + 1) (Int32.ofNat n) vm
      = .ok (some (jobResult n vm' outcome).1) (jobResult n vm' outcome).2 := by
  rw [executeJobs_succ]
  cases h with
  | limit hmax => rw [if_pos ((ofNat_eq_iff hn max).2 hmax), jobCount_ofNat hn]; rfl
  | empty hmax hjobs =>
    rw [if_neg (mt (ofNat_eq_iff hn max).1 hmax), bind_of_ok (jsExecutePendingJob_nil hjobs),
      if_neg (by decide),
      if_neg (by decide), jobCount_ofNat hn]
    rfl
  | @throws _ job rest e hmax hjobs hrun =>
    have happ := hq job { vm with jobs := rest }
    rw [hrun] at happ
    rw [if_neg (mt (ofNat_eq_iff hn max).1 hmax),
      bind_of_ok (jsExecutePendingJob_error hjobs hrun happ.1), if_pos rfl,
      ← bind_pure_comp, bind_of_ok (takeException_some vm' job n e)]
    rfl

/-- A turn that completes a job. -/
theorem executeJobs_of_completes {max : Int32} {n : ℕ} (hn : n < 2 ^ 31) (fuel : ℕ) {vm vm₁ : VM}
    {job : Job} {rest : List Job} (hmax : (n : ℤ) ≠ max.toInt) (hjobs : vm.jobs = job :: rest)
    (hrun : env.runJob job { vm with jobs := rest } = .ok () vm₁) :
    executeJobs env max (fuel + 1) (Int32.ofNat n) vm
      = executeJobs env max fuel (Int32.ofNat (n + 1)) vm₁ := by
  rw [executeJobs_succ, if_neg (mt (ofNat_eq_iff hn max).1 hmax),
    bind_of_ok (jsExecutePendingJob_ok hjobs hrun), if_neg (by decide), if_pos rfl, Int32.ofNat_add]
  rfl

/-- The loop reaches the end of each run it has the fuel for. -/
theorem executeJobs_of_jobRun (hq : env.Queues) {max : Int32} {ran : List Job} {fuel n : ℕ}
    (hfuel : n + fuel ≤ 2 ^ 31) (hlen : ran.length < fuel) {vm vm' : VM}
    {outcome : Option (Job × JSFault)} (h : JobRun env max.toInt n vm ran outcome vm') :
    executeJobs env max fuel (Int32.ofNat n) vm
      = .ok (some (jobResult (n + ran.length) vm' outcome).1)
        (jobResult (n + ran.length) vm' outcome).2 := by
  induction fuel generalizing n vm ran with
  | zero => exact absurd hlen (Nat.not_lt_zero _)
  | succ fuel ih =>
    have hn : n < 2 ^ 31 := by omega
    rcases h.cases with ⟨rfl, hstops⟩ | ⟨job, rest, ran', vm₁, rfl, hmax, hjobs, hrun, hrest⟩
    · exact executeJobs_of_stops hq hn fuel hstops
    · rw [executeJobs_of_completes hn fuel hmax hjobs hrun,
        ih (by omega) (Nat.lt_of_succ_lt_succ hlen) hrest, List.length_cons, Nat.add_right_comm n 1,
        Nat.add_assoc]

/-- With fuel for `fuel` turns, the loop is still running or has made a run. -/
theorem jobRun_or_running (max : Int32) (fuel : ℕ) {n : ℕ}
    (hfuel : n + fuel ≤ 2 ^ 31) (vm : VM) :
    (∃ ran outcome vm', ran.length < fuel ∧ JobRun env max.toInt n vm ran outcome vm') ∨
      (∃ vm', executeJobs env max fuel (Int32.ofNat n) vm = .ok none vm') ∧
        ∀ i < fuel, ((n + i : ℕ) : ℤ) ≠ max.toInt := by
  induction fuel generalizing n vm with
  | zero => exact .inr ⟨⟨vm, rfl⟩, fun i hi => absurd hi (Nat.not_lt_zero i)⟩
  | succ fuel ih =>
    have hn : n < 2 ^ 31 := by omega
    rcases stops_or_completes env max.toInt n vm with
      ⟨outcome, vm', hstops⟩ | ⟨job, rest, vm₁, hmax, hjobs, hrun⟩
    · exact .inl ⟨[], outcome, vm', Nat.succ_pos _, .of_stops hstops⟩
    · rcases ih (n := n + 1) (by omega) vm₁ with
        ⟨ran, outcome, vm', hlen, hrest⟩ | ⟨⟨vm', hnone⟩, hbelow⟩
      · exact .inl ⟨job :: ran, outcome, vm', Nat.succ_lt_succ hlen, hrest.cons hmax hjobs hrun⟩
      · refine .inr ⟨⟨vm', ?_⟩, fun i hi => ?_⟩
        · rw [executeJobs_of_completes hn fuel hmax hjobs hrun]
          exact hnone
        · cases i with
          | zero => exact hmax
          | succ i =>
            have := hbelow i (Nat.lt_of_succ_lt_succ hi)
            rwa [Nat.add_right_comm] at this

/-- The loop returns at the end of a run, and only there. -/
theorem executeJobs_iff (hq : env.Queues) (max : Int32) (fuel : ℕ) {n : ℕ}
    (hfuel : n + fuel ≤ 2 ^ 31) (vm : VM) (v : JSValue) (vm' : VM) :
    executeJobs env max fuel (Int32.ofNat n) vm = .ok (some v) vm' ↔
      ∃ ran outcome vm₁, ran.length < fuel ∧ JobRun env max.toInt n vm ran outcome vm₁ ∧
        (v, vm') = jobResult (n + ran.length) vm₁ outcome := by
  constructor
  · intro h
    rcases jobRun_or_running max fuel hfuel vm with
      ⟨ran, outcome, vm₁, hlen, hrun⟩ | ⟨⟨_, hnone⟩, _⟩
    · rw [executeJobs_of_jobRun hq hfuel hlen hrun] at h
      cases h
      exact ⟨ran, outcome, vm₁, hlen, hrun, rfl⟩
    · rw [hnone] at h
      cases h
  · rintro ⟨ran, outcome, vm₁, hlen, hrun, heq⟩
    rw [executeJobs_of_jobRun hq hfuel hlen hrun, ← heq]

/-- Where the limit is within the fuel the loop has ended. -/
theorem executeJobs_terminates (hq : env.Queues) {max : Int32} (hmax : 0 ≤ max.toInt) (vm : VM) :
    ∃ v vm', executeJobs env max (max.toInt.toNat + 1) 0 vm = .ok (some v) vm' := by
  have hlt : max.toInt < 2 ^ 31 := max.toInt_lt
  have hfuel : 0 + (max.toInt.toNat + 1) ≤ 2 ^ 31 := by omega
  rcases jobRun_or_running max _ hfuel vm with ⟨ran, outcome, vm', hlen, hrun⟩ | ⟨_, hbelow⟩
  · exact ⟨_, _, executeJobs_of_jobRun hq hfuel hlen hrun⟩
  · have := hbelow max.toInt.toNat (Nat.lt_succ_self _)
    rw [Nat.zero_add, Int.toNat_of_nonneg hmax] at this
    exact absurd rfl this

/-! ## The order of the queue -/

/-- The job at which a run ends. -/
def thrownJob (outcome : Option (Job × JSFault)) : List Job := (outcome.map Prod.fst).toList

/-- Completed jobs come off the head of the queue that the appended ones are put behind. -/
theorem Drains.fifo (hq : env.Queues) {vm vm' : VM} {ran : List Job} (h : Drains env vm ran vm') :
    ∃ new, vm.jobs ++ new = ran ++ vm'.jobs := by
  induction h with
  | nil vm => exact ⟨[], List.append_nil _⟩
  | @cons vm vm₁ vm₂ job rest ran hjobs hrun _ ih =>
    have happ := hq job { vm with jobs := rest }
    rw [hrun] at happ
    obtain ⟨new₁, hnew₁⟩ := happ
    obtain ⟨new₂, hnew₂⟩ := ih
    refine ⟨new₁ ++ new₂, ?_⟩
    rw [hjobs, List.cons_append, List.cons_append, ← hnew₂, hnew₁, List.append_assoc]

/-- A run that stops takes no job from the middle of the queue. -/
theorem Stops.fifo (hq : env.Queues) {max : ℤ} {n : ℕ} {vm vm' : VM}
    {outcome : Option (Job × JSFault)} (h : Stops env max n vm outcome vm') :
    ∃ new, vm.jobs ++ new = thrownJob outcome ++ vm'.jobs := by
  cases h with
  | limit => exact ⟨[], List.append_nil _⟩
  | empty => exact ⟨[], List.append_nil _⟩
  | @throws _ job rest e _ hjobs hrun =>
    have happ := hq job { vm with jobs := rest }
    rw [hrun] at happ
    obtain ⟨-, new, hnew⟩ := happ
    refine ⟨new, ?_⟩
    rw [hjobs, hnew]
    rfl

/-- Jobs leave the queue in the order that they came in. -/
theorem JobRun.fifo (hq : env.Queues) {max : ℤ} {n : ℕ} {vm vm' : VM} {ran : List Job}
    {outcome : Option (Job × JSFault)} (h : JobRun env max n vm ran outcome vm') :
    ∃ new, vm.jobs ++ new = ran ++ thrownJob outcome ++ vm'.jobs := by
  obtain ⟨vm₁, hdrains, hstops⟩ := h.ends
  obtain ⟨new₁, hnew₁⟩ := hdrains.fifo hq
  obtain ⟨new₂, hnew₂⟩ := hstops.fifo hq
  refine ⟨new₁ ++ new₂, ?_⟩
  rw [← List.append_assoc, hnew₁, List.append_assoc, hnew₂, List.append_assoc]

/-! ## The two entry points -/

/-- `executePendingJob` returns at the end of a run, and only there. -/
theorem executePendingJob_iff (hq : env.Queues) (max : Int32) {fuel : ℕ} (hfuel : fuel ≤ 2 ^ 31)
    (vm : VM) (v : JSValue) (vm' : VM) :
    executePendingJob env fuel max vm = .ok (some v) vm' ↔
      ∃ ran outcome vm₁, ran.length < fuel ∧ JobRun env max.toInt 0 vm ran outcome vm₁ ∧
        (v, vm') = jobResult ran.length vm₁ outcome := by
  have h := executeJobs_iff hq max fuel (n := 0) (by rwa [Nat.zero_add]) vm v vm'
  simp only [Nat.zero_add] at h
  exact h

/-- A limit bounds the jobs of a run. -/
theorem JobRun.length_le {max : ℤ} (hmax : 0 ≤ max) {vm vm' : VM} {ran : List Job}
    {outcome : Option (Job × JSFault)} (h : JobRun env max 0 vm ran outcome vm') :
    (ran.length : ℤ) ≤ max := by
  by_contra hlt
  have hne := h.below max.toNat (by omega)
  rw [Nat.zero_add, Int.toNat_of_nonneg hmax] at hne
  exact hne rfl

/-- A run that ends at a job that throws a value returns this value. -/
theorem executePendingJob_thrown (hq : env.Queues) {max : Int32} {fuel : ℕ} (hfuel : fuel ≤ 2 ^ 31)
    {vm vm₁ : VM} {ran : List Job} {job : Job} {v : JSValue} (hlen : ran.length < fuel)
    (hrun : JobRun env max.toInt 0 vm ran (some (job, .value v)) vm₁) :
    executePendingJob env fuel max vm = .ok (some v) { vm₁ with currentException := none } :=
  (executePendingJob_iff hq max hfuel vm _ _).2 ⟨ran, _, vm₁, hlen, hrun, rfl⟩

/-- `executePendingJob` runs jobs off the head of the queue, each once and in order, up to the
limit, the end of the queue or a job that throws. It returns their number, or the exception of a job
that is no longer queued, which is the value where it throws one; the others stay in their order.
With a limit it terminates. -/
theorem executePendingJob_runs (hq : env.Queues) (max : Int32) (vm : VM) :
    (∀ fuel ≤ 2 ^ 31, ∀ v vm', executePendingJob env fuel max vm = .ok (some v) vm' ↔
      ∃ ran outcome vm₁, ran.length < fuel ∧ JobRun env max.toInt 0 vm ran outcome vm₁ ∧
        (v, vm') = jobResult ran.length vm₁ outcome) ∧
    (∀ fuel ≤ 2 ^ 31, ∀ ran job v vm₁, ran.length < fuel →
      JobRun env max.toInt 0 vm ran (some (job, .value v)) vm₁ →
        executePendingJob env fuel max vm = .ok (some v) { vm₁ with currentException := none }) ∧
    (∀ ran outcome vm₁, JobRun env max.toInt 0 vm ran outcome vm₁ →
      (0 ≤ max.toInt → (ran.length : ℤ) ≤ max.toInt) ∧
      ∃ new, vm.jobs ++ new = ran ++ thrownJob outcome ++ vm₁.jobs) ∧
    (0 ≤ max.toInt →
      ∃ v vm', executePendingJob env (max.toInt.toNat + 1) max vm = .ok (some v) vm') :=
  ⟨fun _ hfuel => executePendingJob_iff hq max hfuel vm,
    fun _ hfuel _ _ _ _ hlen hrun => executePendingJob_thrown hq hfuel hlen hrun,
    fun _ _ _ hrun => ⟨hrun.length_le, hrun.fifo hq⟩, fun hmax => executeJobs_terminates hq hmax vm⟩

/-- Jobs of three kinds: one that queues another, one that completes, and one that throws a
number. -/
def jobsEnv : Env where
  __ := Env.bare
  runJob
    | .reactions 0 => modify fun vm => vm.enqueue (.reactions 1)
    | .reactions 1 => pure ()
    | _ => throw (.value (.int 5))

/-- An engine with one pending job. -/
def pendingVM (job : Job) : VM := { VM.bare with jobs := [job] }

/-- The jobs of the sample only add to the queue. -/
theorem jobsEnv_queues : jobsEnv.Queues := by
  intro job vm
  rcases job with (_ | _ | p) | ⟨p, r, t⟩
  · exact ⟨[.reactions 1], rfl⟩
  · exact ⟨[], (List.append_nil _).symm⟩
  · exact ⟨nofun, [], (List.append_nil _).symm⟩
  · exact ⟨nofun, [], (List.append_nil _).symm⟩

/-- A second job is queued by the first. Alone with it, it is run; behind a job that throws it stays
queued, and the value is returned. -/
theorem executePendingJob_runs_two : jobsEnv.Queues ∧
    executePendingJob jobsEnv 4 (-1) (pendingVM (.reactions 0)) = .ok (some (.int 2)) VM.bare ∧
    executePendingJob jobsEnv 4 (-1) { VM.bare with jobs := [.reactions 0, .reactions 2] }
      = .ok (some (.int 5)) (pendingVM (.reactions 1)) := by
  refine ⟨jobsEnv_queues, ((executePendingJob_runs jobsEnv_queues (-1) _).1 4 (by decide) _ _).2
    ⟨[.reactions 0, .reactions 1], none, VM.bare, by decide, ⟨by decide, VM.bare, ?_, ?_⟩, rfl⟩,
    (executePendingJob_runs jobsEnv_queues (-1) _).2.1 4 (by decide) [.reactions 0] (.reactions 2)
      (.int 5) (pendingVM (.reactions 1)) (by decide)
      ⟨by decide, { VM.bare with jobs := [.reactions 2, .reactions 1] }, ?_, ?_⟩⟩
  · exact .cons rfl rfl (.cons rfl rfl (.nil VM.bare))
  · exact .empty (by decide) rfl
  · exact .cons rfl rfl (.nil _)
  · exact .throws (by decide) rfl rfl

/-- The report of a run: `-1` for a job that threw, else the number of the jobs. -/
def Faithful (k : ℤ) (ran : List Job) (outcome : Option (Job × JSFault)) : Prop :=
  (k = -1 ↔ outcome.isSome) ∧ (outcome = none → k = ran.length)

/-- A thrown value that the report takes for a count. -/
def JSFault.Counts (e : JSFault) : Prop := ∃ v, e = .value v ∧ v.isNumber ∧ (toInt32 v).toInt ≠ -1

/-- Where no job throws the number of jobs is faithful. -/
theorem faithful_none {ran : List Job} : Faithful ran.length ran none := by
  refine ⟨⟨fun h => ?_, nofun⟩, fun _ => rfl⟩
  have hpos : (0 : ℤ) ≤ ran.length := Int.natCast_nonneg _
  rw [h] at hpos
  exact absurd hpos (by decide)

/-- Where a job throws only -1 is faithful. -/
theorem faithful_some {k : ℤ} {ran : List Job} {thrown : Job × JSFault} :
    Faithful k ran (some thrown) ↔ k = -1 :=
  ⟨fun h => h.1.2 rfl, fun h => ⟨⟨fun _ => rfl, fun _ => h⟩, nofun⟩⟩

/-- The report of a thrown value is `-1` where it is not taken for a count. -/
theorem jobReport_exception_iff (e : JSFault) (vm : VM) :
    jobReport (jsGetException e vm).1 = -1 ↔ ¬ e.Counts := by
  cases e with
  | error m => exact ⟨fun _ ⟨_, h, _⟩ => (nomatch h), fun _ => rfl⟩
  | crash => exact ⟨fun _ ⟨_, h, _⟩ => (nomatch h), fun _ => rfl⟩
  | value v =>
    show jobReport v = -1 ↔ _
    unfold jobReport
    split_ifs with hnum
    · constructor
      · rintro h ⟨w, heq, _, hne⟩
        cases heq
        exact hne h
      · intro h
        by_contra hne
        exact h ⟨v, rfl, hnum, hne⟩
    · refine ⟨?_, fun _ => rfl⟩
      rintro - ⟨w, heq, hnum', _⟩
      cases heq
      exact hnum hnum'

/-- The report of one run. -/
theorem faithful_jobReport_iff {ran : List Job} (hran : ran.length < 2 ^ 31)
    (outcome : Option (Job × JSFault)) (vm : VM) :
    Faithful (jobReport (jobResult ran.length vm outcome).1) ran outcome ↔
      ∀ job e, outcome = some (job, e) → ¬ e.Counts := by
  rcases outcome with _ | ⟨job, e⟩
  · have hval : jobReport (jobResult ran.length vm none).1 = ran.length :=
      Int32.toInt_ofNat_of_lt hran
    rw [hval]
    exact ⟨fun _ _ _ h => (nomatch h), fun _ => faithful_none⟩
  · rw [faithful_some]
    show jobReport (jsGetException e vm).1 = -1 ↔ _
    rw [jobReport_exception_iff]
    constructor
    · rintro h _ _ heq
      cases heq
      exact h
    · exact fun h => h job e rfl

/-- A run that `donePendingJobs` makes. -/
theorem donePendingJobs_of_jobRun (hq : env.Queues) (maxNumber : Int64) {fuel : ℕ}
    (hfuel : fuel ≤ 2 ^ 31) {vm vm₁ : VM} {ran : List Job} {outcome : Option (Job × JSFault)}
    (hlen : ran.length < fuel)
    (hrun : JobRun env (Int32.ofInt maxNumber.toInt).toInt 0 vm ran outcome vm₁) :
    donePendingJobs env fuel maxNumber vm
      = .ok (some (jobReport (jobResult ran.length vm₁ outcome).1))
        (jobResult ran.length vm₁ outcome).2 := by
  have h := (executePendingJob_iff hq _ hfuel vm _ _).2 ⟨ran, outcome, vm₁, hlen, hrun, rfl⟩
  rw [donePendingJobs, bind_of_ok h]
  rfl

/-- `donePendingJobs` is faithful where no job throws a number, `-1` apart. -/
theorem donePendingJobs_faithful_iff (hq : env.Queues) (maxNumber : Int64) (vm : VM) :
    (∀ ran outcome vm₁, JobRun env (Int32.ofInt maxNumber.toInt).toInt 0 vm ran outcome vm₁ →
        ∀ fuel ≤ 2 ^ 31, ran.length < fuel →
          ∃ k vm',
            donePendingJobs env fuel maxNumber vm = .ok (some k) vm' ∧ Faithful k ran outcome) ↔
      ∀ ran job e vm₁, ran.length < 2 ^ 31 →
        JobRun env (Int32.ofInt maxNumber.toInt).toInt 0 vm ran (some (job, e)) vm₁ →
          ¬ e.Counts := by
  constructor
  · intro h ran job e vm₁ hlen hrun
    obtain ⟨k, vm', hk, hfaithful⟩ := h ran _ vm₁ hrun (2 ^ 31) le_rfl hlen
    rw [donePendingJobs_of_jobRun hq maxNumber le_rfl hlen hrun] at hk
    cases hk
    exact (faithful_jobReport_iff hlen _ vm₁).1 hfaithful job e rfl
  · intro h ran outcome vm₁ hrun fuel hfuel hlen
    have hlt : ran.length < 2 ^ 31 := lt_of_lt_of_le hlen hfuel
    refine ⟨_, _, donePendingJobs_of_jobRun hq maxNumber hfuel hlen hrun,
      (faithful_jobReport_iff hlt _ vm₁).2 ?_⟩
    rintro job e rfl
    exact h ran job e vm₁ hlt hrun

/-- A run in which no job throws. -/
theorem donePendingJobs_faithful_iff_one : jobsEnv.Queues ∧
    ∃ k vm', donePendingJobs jobsEnv 2 1 (pendingVM (.reactions 0)) = .ok (some k) vm' ∧
      Faithful k [.reactions 0] none := by
  have hrun : JobRun jobsEnv 1 0 (pendingVM (.reactions 0)) [.reactions 0] none
      (pendingVM (.reactions 1)) :=
    ⟨by decide, pendingVM (.reactions 1), .cons rfl rfl (.nil _), .limit rfl⟩
  refine ⟨jobsEnv_queues,
    (donePendingJobs_faithful_iff jobsEnv_queues 1 _).2 ?_ _ _ _ hrun 2 (by decide)
    (by decide)⟩
  intro ran job e vm₁ _ h
  rcases h.cases with ⟨_, hstops⟩ | ⟨_, _, _, _, _, _, hjobs, hok, h⟩
  · cases hstops with
    | throws _ hjobs hthrows => cases hjobs; cases hthrows
  · cases hjobs
    cases hok
    rcases h.cases with ⟨_, hstops⟩ | ⟨_, _, _, _, _, hne, _⟩
    · cases hstops with
      | throws hne => exact absurd rfl hne
    · exact absurd rfl hne

/-- A job that throws the number five is reported as five jobs. -/
theorem donePendingJobs_thrown_five :
    JobRun jobsEnv (-1) 0 (pendingVM (.reactions 2)) []
      (some (.reactions 2, .value (.int 5))) VM.bare ∧
      donePendingJobs jobsEnv 1 (-1) (pendingVM (.reactions 2)) = .ok (some 5) VM.bare ∧
      ¬ Faithful 5 [] (some (.reactions 2, .value (.int 5))) := by
  have hrun : JobRun jobsEnv (-1) 0 (pendingVM (.reactions 2)) []
      (some (.reactions 2, .value (.int 5))) VM.bare :=
    .of_stops (.throws (by decide) rfl rfl)
  refine ⟨hrun, donePendingJobs_of_jobRun jobsEnv_queues (-1) (by decide) (by decide) hrun, ?_⟩
  rw [faithful_some]
  decide

end

end QuickjsDart
