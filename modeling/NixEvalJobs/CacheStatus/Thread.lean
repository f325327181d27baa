import NixEvalJobs.CacheStatus.NeededWork

/-!
# Cache status resolver — the thread

`CacheStatusResolver` with its inbox and its thread. The collector pushes responses
and calls `finish`, or destroys the resolver while it unwinds; the thread takes the
inbox over, sinks what is no job, and passes over its jobs until all are resolved. An
exception in the thread is kept for `finish`.

The events are the steps of both sides between two uses of what they share. Where
the thread may fail (in the sink, the stores, an allocation, an interrupt) it does so
as the environment decides.

* `finish_conserves` — what `finish` says about the responses, in every run.
* `resolves_directly` — what is sunk is the direct resolution of what was pushed.
-/

namespace NixEvalJobs

/-- A response whose payload is a `Response::Job`. -/
structure JobResponse where
  response : Response
  drv : Drv
  extraValue : Option Json
  payload : response.payload = .job drv extraValue

namespace JobResponse

/-- `std::holds_alternative<Response::Job>`. -/
def of? (response : Response) : Option JobResponse :=
  match h : response.payload with
  | .job drv extraValue => some ⟨response, drv, extraValue, h⟩
  | _ => none

/-- The response after `tryResolve(job.drv)`. -/
def setDrv (job : JobResponse) (drv : Drv) : JobResponse where
  response := { job.response with payload := .job drv job.extraValue }
  drv
  extraValue := job.extraValue
  payload := rfl

/-- Setting the derivation that is there changes nothing. -/
theorem setDrv_self (job : JobResponse) : job.setDrv job.drv = job := by
  obtain ⟨⟨attr, attrPath, payload, warnings, traces, stats⟩, drv, extraValue,
    (rfl : payload = .job drv extraValue)⟩ := job
  rfl

/-- A job is the response it was found in. -/
theorem of?_eq_some {response : Response} {job : JobResponse} (h : of? response = some job) :
    job.response = response := by
  unfold of? at h
  split at h
  · rw [← Option.some.inj h]
  · cases h

/-- A response that is a job is found. -/
theorem of?_response (job : JobResponse) : of? job.response = some job := by
  obtain ⟨response, drv, extraValue, hpayload⟩ := job
  unfold of?
  split
  · next h =>
    obtain ⟨rfl, rfl⟩ := Payload.job.inj (hpayload.symm.trans h)
    rfl
  · next hother => exact absurd hpayload (hother drv extraValue)

/-- Only jobs are held back. -/
theorem of?_eq_none {response : Response} (h : of? response = none) (drv : Drv)
    (extraValue : Option Json) : response.payload ≠ .job drv extraValue := by
  intro hpayload
  unfold of? at h
  split at h
  · cases h
  · next hother => exact hother drv extraValue hpayload

end JobResponse

/-! ## The class -/

/-- Where the thread is in `run`. -/
inductive Position where
  | waiting                                            -- in `inboxCv.wait`
  | swapping (first : Bool)                            -- in `takeInbox`, before the swap
  | sorting (taken : List Response) (first : Bool)     -- in the loop of `takeInbox`
  | checking                                           -- at `while (!jobs.empty())`
  | filtering (kept rest : List JobResponse)           -- in `std::erase_if`
  | resolving                                          -- before `resolveWanted`
  | stopped

/-- The responses the thread holds besides `jobs`. -/
def Position.held : Position → List Response
  | .sorting taken _ => taken
  | .filtering kept rest => (kept ++ rest).map JobResponse.response
  | _ => []

/-- Where the collector is with the resolver. -/
inductive Caller where
  | pushing
  | joining                                    -- in `finish`, the thread is told to end
  | finished (result : Except Error Unit)
  | destroyed

/-- `finish` has returned. -/
def Caller.succeeded : Caller → Bool
  | .finished (.ok ()) => true
  | _ => false

/-- There is one way to succeed. -/
theorem Caller.eq_of_succeeded {caller : Caller} (h : caller.succeeded = true) :
    caller = .finished (.ok ()) := by
  rw [succeeded.eq_def] at h
  split at h
  · rfl
  · cases h

/-- The class; `jobs` is the local variable of `run`. What was pushed and what the sink
got is history, which the code never reads. -/
structure CacheStatusResolver where
  inbox : List Response := []
  closed : Bool := false
  exc : Option Error := none
  aborted : Bool := false
  caches : Resolver := {}
  jobs : List JobResponse := []
  position : Position := .waiting
  caller : Caller := .pushing
  pushed : List Response := []
  sunk : List Response := []

namespace CacheStatusResolver

/-- What either side can do. -/
inductive Event where
  /-- the collector has a new response -/
  | push (response : Response)
  | close                                              -- the first half of `finish`
  | join                                               -- the second half of `finish`
  /-- the destructor, while the collector unwinds -/
  | destroy
  | proceed                                            -- the thread goes on
  /-- `tryResolve` of the next job, which reads the eval store -/
  | attempt (S : EvalStore)
  /-- the batch, with what the build store says -/
  | resolveWanted (valid substitutable : StorePath → Bool)
  /-- anything the thread calls may throw -/
  | fail (e : Error)

/-- A step of the thread; an exception leaves the `try` of `run`. -/
def run (st : CacheStatusResolver) (e : Event) : Option (Except Error CacheStatusResolver) :=
  match st.position, e with
  | .stopped, _ => none
  | _, .fail e => some (.error e)
  | .waiting, .proceed =>
    -- the predicate of `inboxCv.wait`
    if !(!st.inbox.isEmpty || st.closed || st.aborted) then none
    else if st.aborted || (st.closed && st.inbox.isEmpty) then
      some (.ok { st with position := .stopped })
    else some (.ok { st with position := .swapping true })
  | .swapping first, .proceed =>
    some (.ok { st with inbox := [], position := .sorting st.inbox first })
  | .sorting [] first, .proceed =>
    some (.ok { st with position := if first then .checking else .resolving })
  | .sorting (response :: taken) first, .proceed =>
    match JobResponse.of? response with
    | some job => some (.ok { st with jobs := st.jobs ++ [job], position := .sorting taken first })
    | none =>
      some (.ok { st with sunk := st.sunk ++ [response], position := .sorting taken first })
  | .checking, .proceed =>
    if st.jobs.isEmpty then some (.ok { st with position := .waiting })
    else if st.aborted then some (.ok { st with position := .stopped })
    else some (.ok { st with jobs := [], position := .filtering [] st.jobs })
  | .filtering kept (job :: rest), .attempt S =>
    -- the predicate of `std::erase_if`; a job that stays is moved to the kept ones
    match st.caches.tryResolve S job.drv with
    | .error e => some (.error e)
    | .ok (false, drv, caches) =>
      some (.ok { st with caches, position := .filtering (kept ++ [job.setDrv drv]) rest })
    | .ok (true, drv, caches) =>
      some (.ok { st with
        caches
        sunk := st.sunk ++ [(job.setDrv drv).response]
        position := .filtering kept rest })
  | .filtering kept [], .proceed =>
    some (.ok { st with jobs := kept, position := .swapping false })
  | .resolving, .resolveWanted valid substitutable =>
    some (.ok { st with
      caches := st.caches.resolveWanted valid substitutable
      position := .checking })
  | _, _ => none

/-- The handler of `run`. -/
def caught (st : CacheStatusResolver) (e : Error) : CacheStatusResolver :=
  { st with exc := some e, aborted := true, position := .stopped }

/-- What `finish` returns or rethrows when the thread has ended. -/
def outcome (st : CacheStatusResolver) : Except Error Unit :=
  match st.exc with
  | some e => .error e
  | none => .ok ()

/-- A step of either side. -/
def step (st : CacheStatusResolver) (e : Event) : Option CacheStatusResolver :=
  match e, st.caller with
  | .push response, .pushing =>
    let st := { st with pushed := st.pushed ++ [response] }
    -- nobody would take it any more
    if st.closed || st.exc.isSome then some st
    else some { st with inbox := st.inbox ++ [response] }
  | .close, .pushing => some { st with closed := true, caller := .joining }
  | .join, .joining =>
    match st.position with
    | .stopped => some { st with caller := .finished st.outcome }
    | _ => none
  | .destroy, .pushing | .destroy, .finished _ =>
    some { st with closed := true, aborted := true, caller := .destroyed }
  | e, _ =>
    (st.run e).map fun result =>
      match result with
      | .ok st => st
      | .error e => st.caught e

/-- A resolver that has just been started. -/
def system : System CacheStatusResolver Event where
  init := {}
  step := step

/-! ## What a step of the thread can do -/

/-- A step of the thread, by its position. -/
inductive Runs (st : CacheStatusResolver) : Event → CacheStatusResolver → Prop where
  /-- the wait is over, because there will be nothing more -/
  | ended : st.position = .waiting →
      st.aborted = true ∨ st.closed = true ∧ st.inbox = [] →
      Runs st .proceed { st with position := .stopped }
  /-- the wait is over, because there is something -/
  | woken : st.position = .waiting → Runs st .proceed { st with position := .swapping true }
  /-- `std::swap` with the inbox, under the lock -/
  | swapped {first : Bool} : st.position = .swapping first →
      Runs st .proceed { st with inbox := [], position := .sorting st.inbox first }
  /-- all taken responses are sorted -/
  | sorted {first : Bool} : st.position = .sorting [] first →
      Runs st .proceed { st with position := if first then .checking else .resolving }
  /-- a job is kept for the passes -/
  | queued {response : Response} {taken : List Response} {first : Bool} {job : JobResponse} :
      st.position = .sorting (response :: taken) first → job.response = response →
      Runs st .proceed { st with jobs := st.jobs ++ [job], position := .sorting taken first }
  /-- anything else goes to the sink -/
  | passed {response : Response} {taken : List Response} {first : Bool} :
      st.position = .sorting (response :: taken) first → JobResponse.of? response = none →
      Runs st .proceed
        { st with sunk := st.sunk ++ [response], position := .sorting taken first }
  /-- no job is left -/
  | drained : st.position = .checking → st.jobs = [] →
      Runs st .proceed { st with position := .waiting }
  /-- the resolver is being destroyed -/
  | gaveUp : st.position = .checking → st.aborted = true →
      Runs st .proceed { st with position := .stopped }
  /-- a pass over the jobs begins -/
  | began : st.position = .checking →
      Runs st .proceed { st with jobs := [], position := .filtering [] st.jobs }
  /-- the job is blocked -/
  | kept {kept rest : List JobResponse} {job : JobResponse} {drv : Drv} {S : EvalStore}
      {caches : Resolver} : st.position = .filtering kept (job :: rest) →
      st.caches.tryResolve S job.drv = .ok (false, drv, caches) →
      Runs st (.attempt S)
        { st with caches, position := .filtering (kept ++ [job.setDrv drv]) rest }
  /-- the job is resolved, and goes to the sink -/
  | resolved {kept rest : List JobResponse} {job : JobResponse} {drv : Drv} {S : EvalStore}
      {caches : Resolver} : st.position = .filtering kept (job :: rest) →
      st.caches.tryResolve S job.drv = .ok (true, drv, caches) →
      Runs st (.attempt S)
        { st with
          caches
          sunk := st.sunk ++ [(job.setDrv drv).response]
          position := .filtering kept rest }
  /-- the pass is over -/
  | erased {kept : List JobResponse} : st.position = .filtering kept [] →
      Runs st .proceed { st with jobs := kept, position := .swapping false }
  /-- the batch is answered -/
  | answered {valid substitutable : StorePath → Bool} : st.position = .resolving →
      Runs st (.resolveWanted valid substitutable)
        { st with
          caches := st.caches.resolveWanted valid substitutable
          position := .checking }

variable {st st' : CacheStatusResolver} {e : Event}

/-- Every step of the thread is one of these. -/
theorem run_runs (h : st.run e = some (.ok st')) : Runs st e st' := by
  unfold run at h
  split at h
  · cases h
  · cases h
  · -- `inboxCv.wait` returns when there is something to take or the inbox is closed
    next hpos =>
    split at h
    · cases h
    split at h
    · next hend =>
      obtain rfl := Except.ok.inj (Option.some.inj h)
      refine .ended hpos ?_
      simpa using hend
    · obtain rfl := Except.ok.inj (Option.some.inj h)
      exact .woken hpos
  · next hpos =>
    obtain rfl := Except.ok.inj (Option.some.inj h)
    exact .swapped hpos
  · next hpos =>
    obtain rfl := Except.ok.inj (Option.some.inj h)
    exact .sorted hpos
  · -- the next taken response is a job, or goes to the sink at once
    next hpos =>
    split at h
    · next hjob =>
      obtain rfl := Except.ok.inj (Option.some.inj h)
      exact .queued hpos (JobResponse.of?_eq_some hjob)
    · next hother =>
      obtain rfl := Except.ok.inj (Option.some.inj h)
      exact .passed hpos hother
  · -- `while (!jobs.empty())`, with the check for an abort
    next hpos =>
    split at h
    · next hempty =>
      obtain rfl := Except.ok.inj (Option.some.inj h)
      exact .drained hpos (List.isEmpty_iff.mp hempty)
    split at h
    · next haborted =>
      obtain rfl := Except.ok.inj (Option.some.inj h)
      exact .gaveUp hpos haborted
    · obtain rfl := Except.ok.inj (Option.some.inj h)
      exact .began hpos
  · -- one job of `std::erase_if`
    next hpos =>
    split at h
    · cases h
    · next htry =>
      obtain rfl := Except.ok.inj (Option.some.inj h)
      exact .kept hpos htry
    · next htry =>
      obtain rfl := Except.ok.inj (Option.some.inj h)
      exact .resolved hpos htry
  · next hpos =>
    obtain rfl := Except.ok.inj (Option.some.inj h)
    exact .erased hpos
  · next hpos =>
    obtain rfl := Except.ok.inj (Option.some.inj h)
    exact .answered hpos
  · cases h

/-- A step of either side. -/
inductive Steps (st : CacheStatusResolver) : Event → CacheStatusResolver → Prop where
  /-- a response is pushed to an open resolver -/
  | pushed {response : Response} : st.caller = .pushing → st.closed = false →
      st.exc = none → Steps st (.push response) { st with
        pushed := st.pushed ++ [response]
        inbox := st.inbox ++ [response] }
  /-- nobody will take the response -/
  | dropped {response : Response} : st.caller = .pushing →
      st.closed = true ∨ st.exc.isSome = true →
      Steps st (.push response) { st with pushed := st.pushed ++ [response] }
  /-- `finish` begins -/
  | closed : st.caller = .pushing →
      Steps st .close { st with closed := true, caller := .joining }
  /-- `finish` returns or rethrows -/
  | joined : st.caller = .joining → st.position = .stopped →
      Steps st .join { st with caller := .finished st.outcome }
  /-- the destructor runs -/
  | destroyed : Steps st .destroy { st with closed := true, aborted := true, caller := .destroyed }
  /-- the thread goes on -/
  | ran {e : Event} {st' : CacheStatusResolver} : st.run e = some (.ok st') → Steps st e st'
  /-- the thread ends with an exception -/
  | threw {e : Event} {err : Error} : st.run e = some (.error err) → Steps st e (st.caught err)

/-- Every step is one of these. -/
theorem step_steps (h : st.step e = some st') : Steps st e st' := by
  unfold step at h
  split at h
  · -- a push, to an open resolver or to one that has ended
    next hcaller =>
    dsimp only at h
    split at h
    · next hdrop =>
      obtain rfl := Option.some.inj h
      exact .dropped hcaller (by simpa using hdrop)
    · next hdrop =>
      obtain rfl := Option.some.inj h
      have hboth : st.closed = false ∧ st.exc = none := by simpa using hdrop
      exact .pushed hcaller hboth.1 hboth.2
  · next hcaller =>
    obtain rfl := Option.some.inj h
    exact .closed hcaller
  · next hcaller =>
    split at h
    · next hpos =>
      obtain rfl := Option.some.inj h
      exact .joined hcaller hpos
    · cases h
  · obtain rfl := Option.some.inj h
    exact .destroyed
  · obtain rfl := Option.some.inj h
    exact .destroyed
  · -- an event of the thread
    obtain ⟨result, hrun, hresult⟩ := Option.map_eq_some_iff.mp h
    match result with
    | .ok _ =>
      obtain rfl := hresult
      exact .ran hrun
    | .error _ =>
      obtain rfl := hresult
      exact .threw hrun

/-! ## Where the responses are -/

/-- The responses that have been pushed and not been sunk. -/
def inFlight (st : CacheStatusResolver) : Multiset Response :=
  (st.jobs.map JobResponse.response : Multiset Response) + st.position.held + st.inbox

/-- What was sunk for a pushed response, in a run with history `h`: the response itself
unless it is a job, and a job as an attempt of the run has resolved it. -/
inductive SunkFor (h : List (CacheStatusResolver × Event)) (pushed : Response) :
    Response → Prop where
  | passed : (∀ drv extraValue, pushed.payload ≠ .job drv extraValue) →
      SunkFor h pushed pushed
  | resolved {st : CacheStatusResolver} {S : EvalStore} {kept rest : List JobResponse}
      {job : JobResponse} {drv : Drv} {caches : Resolver} : job.response = pushed →
      (st, .attempt S) ∈ h → st.position = .filtering kept (job :: rest) →
      st.caches.tryResolve S job.drv = .ok (true, drv, caches) →
      Resolver.SameJob job.drv drv → SunkFor h pushed (job.setDrv drv).response

/-- More history, more attempts. -/
theorem SunkFor.mono {h h' : List (CacheStatusResolver × Event)} {p s : Response}
    (hle : ∀ x ∈ h, x ∈ h') (hs : SunkFor h p s) : SunkFor h' p s := by
  match hs with
  | .passed hother => exact .passed hother
  | .resolved hjob hmem hpos htry hsame => exact .resolved hjob (hle _ hmem) hpos htry hsame

/-- The local `jobs` is empty while the thread waits, and while it is being filtered. -/
def JobsFree (st : CacheStatusResolver) : Prop :=
  (st.position = .waiting → st.jobs = []) ∧
    ∀ kept rest, st.position = .filtering kept rest → st.jobs = []

/-- A thread that has ended does not use its jobs. -/
theorem JobsFree.of_stopped (h : st.position = .stopped) : st.JobsFree := by
  constructor
  · intro hpos
    cases h.symm.trans hpos
  · intro kept rest hpos
    cases h.symm.trans hpos

/-- It starts without jobs. -/
theorem jobsFree_init : system.init.JobsFree := by
  constructor
  · intro _
    rfl
  · intro kept rest hpos
    cases hpos

/-- **The thread moves responses, or sinks one.** -/
theorem Runs.inFlight (hfree : st.JobsFree) (h : Runs st e st') :
    (st'.inFlight = st.inFlight ∧ st'.sunk = st.sunk) ∨
      ∃ p s, st.inFlight = {p} + st'.inFlight ∧ st'.sunk = st.sunk ++ [s] ∧
        SunkFor [(st, e)] p s := by
  match h with
  | .ended hpos _ | .woken hpos | .gaveUp hpos _ | .answered hpos | .drained hpos _ =>
    refine .inl ⟨?_, rfl⟩
    simp [CacheStatusResolver.inFlight, hpos, Position.held]
  | .swapped hpos =>
    -- the inbox is taken over as a whole
    refine .inl ⟨?_, rfl⟩
    simp [CacheStatusResolver.inFlight, hpos, Position.held]
  | @Runs.sorted _ first hpos =>
    refine .inl ⟨?_, rfl⟩
    cases first <;> simp [CacheStatusResolver.inFlight, hpos, Position.held]
  -- from the taken ones to the jobs
  | .queued hpos hjob =>
    refine .inl ⟨?_, rfl⟩
    simp only [CacheStatusResolver.inFlight, hpos, Position.held, List.map_append, List.map_cons,
      List.map_nil, hjob, ← Multiset.coe_add, ← Multiset.cons_coe, ← Multiset.singleton_add,
      Multiset.coe_nil, add_zero]
    ac_rfl
  -- from the taken ones to the sink
  | @Runs.passed _ response taken _ hpos hother =>
    refine .inr ⟨response, response, ?_, rfl, .passed (JobResponse.of?_eq_none hother)⟩
    simp only [CacheStatusResolver.inFlight, hpos, Position.held, ← Multiset.cons_coe,
      ← Multiset.singleton_add]
    ac_rfl
  | .began hpos =>
    refine .inl ⟨?_, rfl⟩
    simp [CacheStatusResolver.inFlight, hpos, Position.held]
  | .kept hpos htry =>
    -- the job is as it was
    obtain rfl : _ = _ := Resolver.tryResolve_changed htry
    refine .inl ⟨?_, rfl⟩
    simp [CacheStatusResolver.inFlight, hpos, Position.held, JobResponse.setDrv_self]
  -- from the pass to the sink
  | @Runs.resolved _ _ _ job _ _ _ hpos htry =>
    refine .inr ⟨job.response, _, ?_, rfl,
      .resolved rfl (List.mem_singleton.mpr rfl) hpos htry (Resolver.tryResolve_changed htry)⟩
    simp only [CacheStatusResolver.inFlight, hpos, Position.held, List.map_append, List.map_cons,
      ← Multiset.coe_add, ← Multiset.cons_coe, ← Multiset.singleton_add]
    ac_rfl
  | .erased hpos =>
    refine .inl ⟨?_, rfl⟩
    simp [CacheStatusResolver.inFlight, hpos, Position.held, hfree.2 _ _ hpos]

/-! ## The end of the thread -/

/-- The thread does not touch what the collector has said to it. -/
theorem Runs.frame (h : Runs st e st') :
    st'.closed = st.closed ∧ st'.exc = st.exc ∧ st'.aborted = st.aborted ∧
      st'.caller = st.caller ∧ st'.pushed = st.pushed := by
  cases h <;> exact ⟨rfl, rfl, rfl, rfl, rfl⟩

/-- The passes keep the jobs where they say. -/
theorem Runs.jobsFree (hfree : st.JobsFree) (h : Runs st e st') : st'.JobsFree := by
  match h with
  | .ended _ _ | .woken _ | .swapped _ | .queued _ _ | .passed _ _ | .gaveUp _ _ | .erased _
  | .answered _ => exact ⟨by simp, by simp⟩
  | @Runs.sorted _ first _ =>
    cases first with
    | true => exact ⟨by simp, by simp⟩
    | false => exact ⟨by simp, by simp⟩
  | .drained _ hempty => exact ⟨fun _ => hempty, by simp⟩
  | .began _ => exact ⟨by simp, fun _ _ _ => rfl⟩
  | .kept hpos _ | .resolved hpos _ => exact ⟨by simp, fun _ _ _ => hfree.2 _ _ hpos⟩

/-- A thread that has ended does nothing. -/
theorem run_stopped (h : st.position = .stopped) : st.run e = none := by
  unfold run
  rw [h]

/-- A thread that goes on has not ended. -/
theorem run_live {result : Except Error CacheStatusResolver} (h : st.run e = some result) :
    st.position ≠ .stopped := by
  intro hpos
  rw [run_stopped hpos] at h
  cases h

/-- So do all steps. -/
theorem Steps.jobsFree (hfree : st.JobsFree) (h : Steps st e st') : st'.JobsFree := by
  match h with
  | .pushed _ _ _ | .dropped _ _ | .closed _ | .joined _ _ | .destroyed => exact hfree
  | .ran hrun => exact (run_runs hrun).jobsFree hfree
  | .threw _ => exact .of_stopped rfl

/-- The inbox grows by what is pushed; the thread only moves what is there. -/
theorem Steps.inFlight_subset (hfree : st.JobsFree) (hstep : Steps st e st') :
    ∀ response ∈ st'.inFlight, response ∈ st.inFlight ∨ e = .push response := by
  intro response hmem
  match hstep with
  | @Steps.pushed _ r _ _ _ =>
    simp only [CacheStatusResolver.inFlight, ← Multiset.coe_add, ← add_assoc] at hmem
    rw [Multiset.mem_add] at hmem
    refine hmem.imp id fun hmem => ?_
    rw [List.mem_singleton.mp (Multiset.mem_coe.mp hmem)]
  | .dropped _ _ | .closed _ | .joined _ _ | .destroyed => exact .inl hmem
  | .ran hrun =>
    rcases (run_runs hrun).inFlight hfree with ⟨hsame, -⟩ | ⟨p, s, hmoved, -, -⟩
    · exact .inl (hsame ▸ hmem)
    · exact .inl (hmoved ▸ Multiset.mem_add.mpr (.inr hmem))
  -- an exception leaves what is in the pass behind
  | .threw _ =>
    refine .inl ?_
    simp only [CacheStatusResolver.inFlight, caught, Position.held, Multiset.mem_add,
      Multiset.mem_coe, List.not_mem_nil, or_false] at hmem ⊢
    exact hmem.imp_left .inl

/-- The thread ends when it is told to and has nothing left, or when it is aborted. -/
theorem Runs.stopped (hfree : st.JobsFree) (h : Runs st e st')
    (hstopped : st'.position = .stopped) :
    st'.aborted = true ∨ st'.closed = true ∧ st'.inbox = [] ∧ st'.jobs = [] := by
  match h with
  | .ended hpos hend => exact hend.imp_right fun hend => ⟨hend.1, hend.2, hfree.1 hpos⟩
  -- it was told to give up
  | .gaveUp _ haborted => exact .inl haborted
  | .woken _ | .swapped _ | .queued _ _ | .passed _ _ | .drained _ _ | .began _ | .kept _ _
  | .resolved _ _ | .erased _ | .answered _ => cases hstopped
  | @Runs.sorted _ first _ =>
    cases first with
    | true => cases hstopped
    | false => cases hstopped

/-- The two sides, as far as their flags go, after a run with history `h`. -/
structure Flags (h : List (CacheStatusResolver × Event)) (st : CacheStatusResolver) : Prop where
  jobsFree : st.JobsFree
  exc : st.exc.isSome = true → st.position = .stopped
  stopped : st.position = .stopped →
    st.aborted = true ∨ st.closed = true ∧ st.inbox = [] ∧ st.jobs = []
  closed : st.closed = false ↔ st.caller = .pushing
  aborted : st.aborted = true → st.exc.isSome = true ∨ st.caller = .destroyed
  finished : ∀ result, st.caller = .finished result →
    st.position = .stopped ∧ result = st.outcome
  thrown : ∀ earlier ∈ h, ∀ err, earlier.1.run earlier.2 = some (.error err) → st.exc = some err

/-- An event of the collector is none of the thread. -/
theorem run_collector
    (h : e = .close ∨ e = .join ∨ e = .destroy ∨ ∃ response, e = .push response) :
    st.run e = none := by
  rcases h with rfl | rfl | rfl | ⟨response, rfl⟩ <;> unfold run <;> split <;>
    first | rfl | contradiction

/-- An earlier exception is still the one that was caught. -/
theorem Flags.thrown_cons {h : List (CacheStatusResolver × Event)} (hflags : Flags h st)
    (hrun : ∀ err, st.run e ≠ some (.error err)) (hexc : st'.exc = st.exc) :
    ∀ earlier ∈ (st, e) :: h, ∀ err, earlier.1.run earlier.2 = some (.error err) →
      st'.exc = some err := by
  intro earlier hmem err herr
  rcases List.mem_cons.mp hmem with rfl | hmem
  · exact absurd herr (hrun err)
  · rw [hexc]
    exact hflags.thrown earlier hmem err herr

/-- Every step keeps the flags in order. -/
theorem Flags.step {h : List (CacheStatusResolver × Event)} (hflags : Flags h st)
    (hstep : Steps st e st') : Flags ((st, e) :: h) st' := by
  have hcollector : (e = .close ∨ e = .join ∨ e = .destroy ∨ ∃ response, e = .push response) →
      ∀ err, st.run e ≠ some (.error err) := by
    intro he err hrun
    rw [run_collector he] at hrun
    cases hrun
  match hstep with
  | .pushed hcaller hopen _ =>
    refine ⟨hflags.jobsFree, hflags.exc, fun hpos => ?_, hflags.closed, hflags.aborted,
      hflags.finished, hflags.thrown_cons (hcollector (.inr (.inr (.inr ⟨_, rfl⟩)))) rfl⟩
    -- an open resolver has stopped only after an exception
    rcases hflags.stopped hpos with haborted | ⟨hclosed, -⟩
    · exact .inl haborted
    · rw [hopen] at hclosed
      cases hclosed
  | .dropped _ _ =>
    exact ⟨hflags.jobsFree, hflags.exc, hflags.stopped, hflags.closed, hflags.aborted,
      hflags.finished, hflags.thrown_cons (hcollector (.inr (.inr (.inr ⟨_, rfl⟩)))) rfl⟩
  -- closing does not stop the thread
  | .closed hcaller =>
    refine ⟨hflags.jobsFree, hflags.exc, fun hpos => ?_, ⟨by simp, by simp⟩, fun haborted => ?_,
      (by simp), hflags.thrown_cons (hcollector (.inl rfl)) rfl⟩
    · exact (hflags.stopped hpos).imp_right fun hend => ⟨rfl, hend.2⟩
    · refine (hflags.aborted haborted).imp_right fun hdestroyed => ?_
      cases hcaller.symm.trans hdestroyed
  -- the collector has closed it before
  | .joined hcaller hpos =>
    have hclosed : st.closed ≠ false := fun hopen =>
      absurd (hcaller.symm.trans (hflags.closed.mp hopen)) (by simp)
    refine ⟨hflags.jobsFree, hflags.exc, hflags.stopped,
      ⟨fun hopen => absurd hopen hclosed, by simp⟩, fun haborted => ?_,
      fun result hresult => ⟨hpos, ?_⟩, hflags.thrown_cons (hcollector (.inr (.inl rfl))) rfl⟩
    · refine (hflags.aborted haborted).imp_right fun hdestroyed => ?_
      cases hcaller.symm.trans hdestroyed
    · exact (Caller.finished.inj hresult).symm
  -- the destructor aborts it
  | .destroyed =>
    refine ⟨hflags.jobsFree, hflags.exc, fun _ => .inl rfl, ⟨by simp, by simp⟩, fun _ => .inr rfl,
      (by simp), hflags.thrown_cons (hcollector (.inr (.inr (.inl rfl)))) rfl⟩
  -- the flags are not the thread's to change
  | .ran hrun =>
    have hruns := run_runs hrun
    obtain ⟨hclosed, hexc, haborted, hcaller, -⟩ := hruns.frame
    have hlive := run_live hrun
    refine ⟨hruns.jobsFree hflags.jobsFree, fun hsome => ?_, hruns.stopped hflags.jobsFree, ?_, ?_,
      fun result hresult => ?_, hflags.thrown_cons (fun err herr => ?_) hexc⟩
    · rw [hexc] at hsome
      exact absurd (hflags.exc hsome) hlive
    · rw [hclosed, hcaller]
      exact hflags.closed
    · rw [haborted, hexc, hcaller]
      exact hflags.aborted
    · rw [hcaller] at hresult
      exact absurd (hflags.finished result hresult).1 hlive
    · cases Option.some.inj (hrun.symm.trans herr)
  -- the first exception is the only one
  | .threw hrun =>
    have hlive := run_live hrun
    refine ⟨.of_stopped rfl, fun _ => rfl, fun _ => .inl rfl, hflags.closed, fun _ => .inl rfl,
      fun result hresult => ?_, fun earlier hmem err herr => ?_⟩
    · exact absurd (hflags.finished result hresult).1 hlive
    · rcases List.mem_cons.mp hmem with rfl | hmem
      · rw [hrun] at herr
        exact congrArg some (Except.error.inj (Option.some.inj herr))
      · -- an earlier exception would have ended the thread
        have hexc := hflags.thrown earlier hmem err herr
        exact absurd (hflags.exc (by rw [hexc]; rfl)) hlive

/-- **Nothing is lost and nothing is there twice**, as long as nothing was thrown. -/
def Flow (h : List (CacheStatusResolver × Event)) (st : CacheStatusResolver) : Prop :=
  st.exc = none → ∃ order : List Response, List.Forall₂ (SunkFor h) order st.sunk ∧
    (order : Multiset Response) + st.inFlight = st.pushed

/-- Every step keeps the flow. -/
theorem Flow.step {h : List (CacheStatusResolver × Event)} (hflags : Flags h st)
    (hflow : Flow h st) (hstep : Steps st e st') : Flow ((st, e) :: h) st' := by
  have hmono : ∀ {order sunk}, List.Forall₂ (SunkFor h) order sunk →
      List.Forall₂ (SunkFor ((st, e) :: h)) order sunk :=
    fun hsunk => hsunk.imp fun _ _ hs => hs.mono fun _ hx => List.mem_cons_of_mem _ hx
  match hstep with
  | @Steps.pushed _ response _ _ hexc =>
    intro _
    obtain ⟨order, hsunk, hcount⟩ := hflow hexc
    refine ⟨order, hmono hsunk, ?_⟩
    -- the new response is in the inbox, and in what was pushed
    simp only [inFlight, ← Multiset.coe_add] at hcount ⊢
    rw [← hcount]
    ac_rfl
  | .dropped hcaller hdrop =>
    intro hexc
    change st.exc = none at hexc
    -- a response is dropped only after an exception
    rw [hflags.closed.mpr hcaller, hexc] at hdrop
    rcases hdrop with hclosed | hthrown
    · cases hclosed
    · cases hthrown
  | .closed _ | .joined _ _ | .destroyed =>
    intro hexc
    obtain ⟨order, hsunk, hcount⟩ := hflow hexc
    exact ⟨order, hmono hsunk, hcount⟩
  | .ran hrun =>
    have hruns := run_runs hrun
    obtain ⟨-, hexc, -, -, hpushed⟩ := hruns.frame
    intro hnone
    rw [hexc] at hnone
    obtain ⟨order, hsunk, hcount⟩ := hflow hnone
    rcases hruns.inFlight hflags.jobsFree with ⟨hsame, hsunk'⟩ | ⟨p, s, hmoved, hsunk', hs⟩
    · rw [hsunk', hsame, hpushed]
      exact ⟨order, hmono hsunk, hcount⟩
    · -- a response that leaves the thread goes to the end of the order
      refine ⟨order ++ [p], ?_, ?_⟩
      · rw [hsunk']
        refine List.rel_append (hmono hsunk) (.cons (hs.mono fun x hx => ?_) .nil)
        exact List.mem_singleton.mp hx ▸ List.mem_cons_self ..
      · rw [hpushed, ← hcount, hmoved, ← Multiset.coe_add, Multiset.coe_singleton, add_assoc]
  | .threw _ =>
    intro hexc
    cases hexc

/-! ## The caches -/

/-- What a step does to the caches: nothing, an attempt for the next job, or a batch. -/
inductive CachesStep (st : CacheStatusResolver) (e : Event) (caches : Resolver) : Prop where
  | same : caches = st.caches → CachesStep st e caches
  | attempt {S : EvalStore} {kept rest : List JobResponse} {job : JobResponse} {done : Bool}
      {drv : Drv} : e = .attempt S → st.position = .filtering kept (job :: rest) →
      st.caches.tryResolve S job.drv = .ok (done, drv, caches) → CachesStep st e caches
  | batch {valid substitutable : StorePath → Bool} : e = .resolveWanted valid substitutable →
      st.position = .resolving → caches = st.caches.resolveWanted valid substitutable →
      CachesStep st e caches

/-- What the thread does to the caches. -/
theorem Runs.caches (h : Runs st e st') : CachesStep st e st'.caches := by
  match h with
  | .kept hpos htry | .resolved hpos htry => exact .attempt rfl hpos htry
  | .answered hpos => exact .batch rfl hpos rfl
  | .ended _ _ | .woken _ | .swapped _ | .sorted _ | .queued _ _ | .passed _ _ | .drained _ _
  | .gaveUp _ _ | .began _ | .erased _ => exact .same rfl

/-- The collector does nothing to them. -/
theorem Steps.caches (h : Steps st e st') : CachesStep st e st'.caches := by
  match h with
  | .ran hrun => exact (run_runs hrun).caches
  | .pushed _ _ _ | .dropped _ _ | .closed _ | .joined _ _ | .destroyed | .threw _ =>
    exact .same rfl

/-- What was pushed stays pushed. -/
theorem Steps.pushed_mono (h : Steps st e st') {response : Response}
    (hpushed : response ∈ st.pushed) : response ∈ st'.pushed := by
  match h with
  | .pushed _ _ _ | .dropped _ _ => exact List.mem_append_left _ hpushed
  | .closed _ | .joined _ _ | .destroyed | .threw _ => exact hpushed
  | .ran hrun =>
    rw [(run_runs hrun).frame.2.2.2.2]
    exact hpushed

/-- What is pushed has been pushed. -/
theorem Steps.pushed_new {response : Response} (h : Steps st (.push response) st') :
    response ∈ st'.pushed := by
  match h with
  | .pushed _ _ _ | .dropped _ _ => exact List.mem_append_right _ (List.mem_singleton_self _)
  | .ran hrun => cases run_runs hrun
  | .threw hrun =>
    rw [run_collector (.inr (.inr (.inr ⟨_, rfl⟩)))] at hrun
    cases hrun

/-! ## Stores whose answers do not change -/

/-- The eval store is `S`, and the build store answers every batch as `O`. -/
def Answers (S : EvalStore) (O : Oracles) (_ : CacheStatusResolver) : Event → Prop
  | .attempt S' => S' = S
  | .resolveWanted valid substitutable => valid = O.valid ∧ substitutable = O.substitutable
  | _ => True

/-- A pushed response with its direct resolution. -/
inductive DirectFor (S : EvalStore) (O : Oracles) (pushed : Response) : Response → Prop where
  | passed : (∀ drv extraValue, pushed.payload ≠ .job drv extraValue) →
      DirectFor S O pushed pushed
  | resolved {job : JobResponse} {drv : Drv} : job.response = pushed →
      Direct.tryResolve S O job.drv = .ok drv → DirectFor S O pushed (job.setDrv drv).response

/-- What a run with such stores keeps. -/
structure Consistent (S : EvalStore) (O : Oracles) (st : CacheStatusResolver) : Prop where
  jobsFree : st.JobsFree
  caches : st.caches.Agrees S O
  inFlight : ∀ response ∈ st.inFlight, response ∈ st.pushed
  sunk : ∀ s ∈ st.sunk, ∃ p ∈ st.pushed, DirectFor S O p s

variable {S : EvalStore} {O : Oracles}

/-- Attempts and batches leave answers in the caches. -/
theorem CachesStep.agrees {caches : Resolver} (hrely : Answers S O st e)
    (hcaches : st.caches.Agrees S O) (h : CachesStep st e caches) : caches.Agrees S O := by
  match h with
  | .same hsame => exact hsame ▸ hcaches
  | .attempt he _ htry =>
    subst he
    obtain rfl : _ = S := hrely
    exact (Resolver.tryResolve_direct hcaches htry).1
  | .batch he _ hbatch =>
    subst he
    obtain ⟨rfl, rfl⟩ := hrely
    exact hbatch ▸ Resolver.resolveWanted_spec hcaches

/-- What an attempt of this step has sunk is the direct resolution. -/
theorem SunkFor.direct {p s : Response} (hrely : Answers S O st e)
    (hcaches : st.caches.Agrees S O) (h : SunkFor [(st, e)] p s) : DirectFor S O p s := by
  match h with
  | .passed hother => exact .passed hother
  | .resolved hjob hmem _ htry _ =>
    obtain ⟨rfl, rfl⟩ := Prod.mk.inj (List.mem_singleton.mp hmem)
    obtain rfl : _ = S := hrely
    exact .resolved hjob (Resolver.tryResolve_direct hcaches htry).2

/-- Such stores keep the caches and the sink right. -/
theorem Consistent.step (hrely : Answers S O st e) (h : Consistent S O st)
    (hstep : Steps st e st') : Consistent S O st' := by
  have hpushed : ∀ {s}, (∃ p ∈ st.pushed, DirectFor S O p s) →
      ∃ p ∈ st'.pushed, DirectFor S O p s :=
    fun ⟨p, hp, hdirect⟩ => ⟨p, hstep.pushed_mono hp, hdirect⟩
  refine ⟨hstep.jobsFree h.jobsFree, hstep.caches.agrees hrely h.caches, fun response hmem => ?_,
    fun s hs => ?_⟩
  · -- what is in flight was pushed
    rcases hstep.inFlight_subset h.jobsFree response hmem with hold | rfl
    · exact hstep.pushed_mono (h.inFlight response hold)
    · exact hstep.pushed_new
  · match hstep with
    | .pushed _ _ _ | .dropped _ _ | .closed _ | .joined _ _ | .destroyed | .threw _ =>
      exact hpushed (h.sunk s hs)
    | .ran hrun =>
      rcases (run_runs hrun).inFlight h.jobsFree with ⟨-, hsunk⟩ | ⟨p, s', hmoved, hsunk, hfor⟩
      · exact hpushed (h.sunk s (hsunk ▸ hs))
      · rw [hsunk] at hs
        rcases List.mem_append.mp hs with hold | hnew
        · exact hpushed (h.sunk s hold)
        · -- it was on its way
          obtain rfl := List.mem_singleton.mp hnew
          have hp : p ∈ st.inFlight :=
            hmoved ▸ Multiset.mem_add.mpr (.inl (Multiset.mem_singleton_self p))
          exact hpushed ⟨p, h.inFlight p hp, hfor.direct hrely h.caches⟩

/-- So it holds in every run with such stores. -/
theorem consistent_reachable (h : system.Reachable (Answers S O) st) : Consistent S O st := by
  induction h with
  | init =>
    refine ⟨jobsFree_init, Resolver.agrees_empty, fun response hmem => ?_, ?_⟩
    · exact absurd hmem (Multiset.notMem_zero response)
    · exact fun s hs => absurd hs List.not_mem_nil
  | step _ hrely hstep ih => exact ih.step hrely (step_steps hstep)

/-- **Batched, cached resolution is direct resolution.** Whatever was pushed and in
whatever rounds it was tried: an attempt that succeeds gives the job what the direct
algorithm gives it, and the sink only ever gets pushed responses so resolved. An attempt
that throws has come to a derivation that cannot be read. -/
theorem resolves_directly {S : EvalStore} {O : Oracles} {st : CacheStatusResolver}
    (h : system.Reachable (Answers S O) st) :
    (∀ (drv drv' : Drv) (caches : Resolver),
      st.caches.tryResolve S drv = .ok (true, drv', caches) →
      Direct.tryResolve S O drv = .ok drv') ∧
    (∀ s ∈ st.sunk, ∃ p ∈ st.pushed, DirectFor S O p s) ∧
    ∀ (drv : Drv) (e : Error), st.caches.tryResolve S drv = .error e → e = .nixLib := by
  have hconsistent := consistent_reachable h
  exact ⟨fun drv drv' caches htry => (Resolver.tryResolve_direct hconsistent.caches htry).2,
    hconsistent.sunk, fun drv e htry => Resolver.tryResolve_error hconsistent.caches htry⟩

/-- A response with the given payload. -/
def demoResponse (payload : Payload) : Response where
  attr := lit "job"
  attrPath := [lit "job"]
  payload

/-- One pass over a job that stays blocked, and the queries it asked for. -/
def diamondRound : List Event :=
  [.attempt Resolver.diamondStore, .proceed, .proceed, .proceed,
    .resolveWanted Resolver.diamondOracles.valid Resolver.diamondOracles.substitutable, .proceed]

/-- The diamond is pushed and blocked four times. -/
def diamondRounds : List Event :=
  Event.push (demoResponse (.job Resolver.diamondJob none)) :: List.replicate 5 .proceed ++
    (List.replicate 4 diamondRound).flatten

/-- Every step of it is possible. -/
theorem diamondRounds_isSome :
    (system.run System.anyCheck system.init diamondRounds).isSome = true := by
  decide +kernel

/-- The stores are those of the diamond. -/
theorem diamondRounds_answers : ∀ e ∈ diamondRounds, ∀ st,
    Answers Resolver.diamondStore Resolver.diamondOracles st e := by
  have hround : ∀ e ∈ diamondRound, ∀ st,
      Answers Resolver.diamondStore Resolver.diamondOracles st e := by
    simp [diamondRound, Answers]
  intro e he st
  rcases List.mem_append.mp he with he | he
  · rcases List.mem_cons.mp he with rfl | he
    · trivial
    · obtain rfl := List.eq_of_mem_replicate he
      trivial
  · obtain ⟨round, hmem, he⟩ := List.mem_flatten.mp he
    obtain rfl := List.eq_of_mem_replicate hmem
    exact hround e he st

/-- The fifth attempt at the diamond succeeds, and gives what the direct walk gives. -/
theorem resolves_directly_diamondRounds :
    let st := system.after System.anyCheck diamondRounds diamondRounds_isSome
    ∃ drv caches, st.caches.tryResolve Resolver.diamondStore Resolver.diamondJob =
        .ok (true, drv, caches) ∧
      Direct.tryResolve Resolver.diamondStore Resolver.diamondOracles Resolver.diamondJob =
        .ok drv := by
  intro st
  have hst : system.Reachable (Answers Resolver.diamondStore Resolver.diamondOracles) st :=
    System.Reachable.run_all diamondRounds_answers .init
      (Option.some_get diamondRounds_isSome).symm
  have hresolved : (Resolver.resolved (st.caches.tryResolve Resolver.diamondStore
      Resolver.diamondJob)).isSome = true := by decide +kernel
  obtain ⟨⟨drv, caches⟩, hdone⟩ := Option.isSome_iff_exists.mp hresolved
  have htry := Resolver.eq_of_resolved hdone
  exact ⟨drv, caches, htry, (resolves_directly hst).1 Resolver.diamondJob drv caches htry⟩

/-! ## What `finish` says -/

/-- The flags of a new resolver. -/
theorem flags_init : Flags [] system.init where
  jobsFree := jobsFree_init
  exc := by
    intro hexc
    cases hexc
  stopped := by
    intro hpos
    cases hpos
  closed := ⟨fun _ => rfl, fun _ => rfl⟩
  aborted := by
    intro haborted
    cases haborted
  finished := by
    intro result hcaller
    cases hcaller
  thrown := fun _ hmem => absurd hmem List.not_mem_nil

/-- Nothing has been pushed yet. -/
theorem flow_init : Flow [] system.init := fun _ => ⟨[], .nil, rfl⟩

/-- Both hold along every run. -/
theorem flags_flow {h : List (CacheStatusResolver × Event)}
    (ht : system.Trail System.anyEnv h st) : Flags h st ∧ Flow h st := by
  induction ht with
  | init => exact ⟨flags_init, flow_init⟩
  | step _ _ hstep ih =>
    have hsteps := step_steps hstep
    exact ⟨ih.1.step hsteps, ih.2.step ih.1 hsteps⟩

/-- When `finish` returns, what was sunk is what was pushed. -/
theorem Flow.finished {h : List (CacheStatusResolver × Event)} (hflow : Flow h st)
    (hflags : Flags h st) (hfinished : st.caller = .finished (.ok ())) :
    ∃ order : List Response, order.Perm st.pushed ∧
      List.Forall₂ (SunkFor h) order st.sunk := by
  obtain ⟨hpos, hok⟩ := hflags.finished _ hfinished
  have hexc : st.exc = none := by
    unfold outcome at hok
    split at hok
    · cases hok
    · next hnone => exact hnone
  -- not aborted, so the thread ended with nothing left
  have hend : st.closed = true ∧ st.inbox = [] ∧ st.jobs = [] := by
    refine (hflags.stopped hpos).resolve_left fun haborted => ?_
    rcases hflags.aborted haborted with hsome | hdestroyed
    · rw [hexc] at hsome
      cases hsome
    · cases hfinished.symm.trans hdestroyed
  obtain ⟨order, hsunk, hcount⟩ := hflow hexc
  refine ⟨order, Multiset.coe_eq_coe.mp ?_, hsunk⟩
  rw [← hcount, inFlight, hend.2.1, hend.2.2, hpos]
  simp [Position.held]

/-- **The resolver loses and duplicates nothing.** When `finish` returns, what was sunk
is what was pushed, in some order and each once, a job as an attempt of the run has
resolved it; when a step of the thread has thrown, `finish` throws the same. An attempt
that does not resolve its job leaves it alone. -/
theorem finish_conserves {h : List (CacheStatusResolver × Event)} {st : CacheStatusResolver}
    (ht : system.Trail System.anyEnv h st) :
    (st.caller = .finished (.ok ()) → ∃ order : List Response,
      order.Perm st.pushed ∧ List.Forall₂ (SunkFor h) order st.sunk) ∧
    (∀ earlier ∈ h, ∀ err, earlier.1.run earlier.2 = some (.error err) →
      ∀ result, st.caller = .finished result → result = .error err) ∧
    ∀ (S : EvalStore) (R R' : Resolver) (drv drv' : Drv),
      R.tryResolve S drv = .ok (false, drv', R') → drv' = drv := by
  obtain ⟨hflags, hflow⟩ := flags_flow ht
  refine ⟨hflow.finished hflags, fun earlier hmem err herr result hresult => ?_, ?_⟩
  · rw [(hflags.finished result hresult).2, outcome, hflags.thrown earlier hmem err herr]
  · exact fun S R R' drv drv' htry => Resolver.tryResolve_changed htry

/-! ### A run -/

/-- A job that needs a second pass, and an error that arrives in the meantime. -/
def twoPassRun : List Event :=
  [.push (demoResponse (.job Resolver.diamondJob none)), .proceed,
    .push (demoResponse (.error (lit "boom") false)), .proceed, .proceed, .proceed, .proceed,
    .proceed, .attempt Resolver.diamondStore, .proceed, .close, .proceed, .proceed,
    .resolveWanted (fun _ => true) (fun _ => false), .proceed,
    .attempt Resolver.diamondStore, .proceed, .proceed, .proceed,
    .resolveWanted (fun _ => true) (fun _ => false), .proceed, .proceed, .join]

/-- Every step of it is possible. -/
theorem twoPassRun_isSome :
    (system.run System.anyCheck system.init twoPassRun).isSome = true := by
  decide +kernel

/-- Both responses are sunk. -/
theorem finish_conserves_twoPassRun :
    let st := system.after System.anyCheck twoPassRun twoPassRun_isSome
    st.sunk.length = 2 ∧ ∃ h, system.Trail System.anyEnv h st ∧
      ∃ order : List Response, order.Perm st.pushed ∧ List.Forall₂ (SunkFor h) order st.sunk := by
  intro st
  obtain ⟨h, ht⟩ := (System.reachable_after (fun _ _ _ => trivial) twoPassRun
    twoPassRun_isSome).trail
  have hfinished : st.caller.succeeded = true := by decide +kernel
  exact ⟨by decide +kernel, h, ht, (finish_conserves ht).1 (Caller.eq_of_succeeded hfinished)⟩

end CacheStatusResolver

end NixEvalJobs
