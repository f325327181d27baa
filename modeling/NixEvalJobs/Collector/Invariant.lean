import NixEvalJobs.Collector.Output
import NixEvalJobs.Scheduler.Budget

/-!
# Collector — the invariant

What has been written and what the resolver has still to write are the results that are
due, whatever the order in which the two sides take their steps, and also when one of them
throws. The output may be behind the map by the one line that the sink has still to print.

* `Keeps` — the invariant, and `keeps_step` — that every event keeps it.
* `keeps_reachable` — so it holds in every run.
-/

namespace NixEvalJobs

/-- The paths of responses, with how often each is there. -/
def pathsOf (responses : List Response) : Multiset AttrPath :=
  (responses.map Response.attrPath : List AttrPath)

/-- The paths of two lists together. -/
theorem pathsOf_append (xs ys : List Response) : pathsOf (xs ++ ys) = pathsOf xs + pathsOf ys := by
  rw [pathsOf, List.map_append, ← Multiset.coe_add]
  rfl

/-- One more response, one more path. -/
theorem pathsOf_snoc (xs : List Response) (y : Response) :
    pathsOf (xs ++ [y]) = y.attrPath ::ₘ pathsOf xs := by
  rw [pathsOf_append, add_comm]
  rfl

/-! ## The resolver -/

namespace CacheStatusResolver

variable {st st' : CacheStatusResolver} {e : Event}
  {thread : CacheStatusResolver → Event → Prop}

/-- What goes through the thread keeps its name and its path. -/
theorem SunkFor.same {h : List (CacheStatusResolver × Event)} {p s : Response}
    (hs : SunkFor h p s) : s.attr = p.attr ∧ s.attrPath = p.attrPath ∧
      s.hasPendingConstituents = p.hasPendingConstituents ∧
      ((∃ drv extraValue, p.payload = .job drv extraValue) →
        ∀ attrs, s.payload ≠ .attrs attrs) := by
  cases hs with
  | passed _ =>
    refine ⟨rfl, rfl, rfl, fun ⟨drv, extraValue, hjob⟩ attrs hattrs => ?_⟩
    cases hjob.symm.trans hattrs
  | @resolved _ _ _ _ job drv _ hjob _ _ _ hsame =>
    subst hjob
    refine ⟨rfl, rfl, ?_, fun _ _ h => (by cases h)⟩
    -- only what is known about the cache has changed
    rw [Resolver.SameJob] at hsame
    have hconstituents : drv.constituents = job.drv.constituents := by rw [hsame]
    show (!drv.constituents.namedConstituents.isEmpty) = _
    rw [Response.hasPendingConstituents, job.payload, hconstituents]

/-- Outside the loop the thread holds no jobs. -/
theorem jobsFree_reachable (h : system.Reachable thread st) : st.JobsFree := by
  obtain ⟨_, ht⟩ := (h.mono fun _ _ _ => (trivial : System.anyEnv _ _)).trail
  exact (flags_flow ht).1.jobsFree

/-- What is on its way was pushed. -/
theorem inFlight_pushed (h : system.Reachable thread st) :
    ∀ response ∈ st.inFlight, response ∈ st.pushed := by
  refine h.invariant (I := fun st => ∀ response ∈ st.inFlight, response ∈ st.pushed)
    (fun response hmem => absurd hmem (Multiset.notMem_zero response)) ?_
  intro st st' e hr hinv _ hstep response hmem
  have hsteps := step_steps hstep
  rcases hsteps.inFlight_subset (jobsFree_reachable hr) response hmem with hold | rfl
  · exact hsteps.pushed_mono (hinv response hold)
  · exact hsteps.pushed_new

/-- The paths of what has been pushed and not been sunk. -/
def waitingPaths (st : CacheStatusResolver) : Multiset AttrPath :=
  st.inFlight.map Response.attrPath

/-- **Nothing is sunk that was not pushed**, or more often; what the thread holds when it
throws is lost. -/
theorem sunk_le (h : system.Reachable thread st) :
    pathsOf st.sunk + st.waitingPaths ≤ pathsOf st.pushed := by
  refine h.invariant (I := fun st => pathsOf st.sunk + st.waitingPaths ≤ pathsOf st.pushed)
    (Multiset.zero_le _) ?_
  intro st st' e hr hinv _ hstep
  cases step_steps hstep with
  | @pushed response _ _ _ =>
    have hwaiting : waitingPaths { st with
        pushed := st.pushed ++ [response], inbox := st.inbox ++ [response] } =
        response.attrPath ::ₘ st.waitingPaths := by
      rw [waitingPaths, inFlight, ← Multiset.coe_add, ← add_assoc, Multiset.map_add,
        add_comm (Multiset.map _ _)]
      rfl
    rw [hwaiting, pathsOf_snoc, Multiset.add_cons]
    exact Multiset.cons_le_cons _ hinv
  | @dropped response _ _ =>
    rw [pathsOf_snoc]
    exact hinv.trans (Multiset.le_cons_self _ _)
  | closed | joined | destroyed => exact hinv
  -- a response that is handed to the sink has left the thread
  | ran hrun =>
    have hruns := run_runs hrun
    rw [hruns.frame.2.2.2.2]
    rcases hruns.inFlight (jobsFree_reachable hr) with ⟨hsame, hsunk⟩ | ⟨p, s, hmoved, hsunk, hfor⟩
    · rwa [waitingPaths, hsame, hsunk]
    · rw [waitingPaths, hmoved, Multiset.map_add, Multiset.map_singleton] at hinv
      rw [hsunk, pathsOf_snoc, hfor.same.2.1, Multiset.cons_add]
      rwa [Multiset.singleton_add, Multiset.add_cons] at hinv
  | @threw e err _ =>
    -- what the thread held is gone, and the rest is still there
    have hle : (st.caught err).inFlight ≤ st.inFlight := by
      show (st.jobs.map JobResponse.response : Multiset Response) + ([] : List Response) +
        st.inbox ≤ st.jobs.map JobResponse.response + st.position.held + st.inbox
      exact add_le_add (add_le_add le_rfl (Multiset.zero_le _)) le_rfl
    exact (add_le_add le_rfl (Multiset.map_le_map hle)).trans hinv

/-- The collector's own steps neither sink anything nor move the thread. -/
theorem step_told (he : e = .close ∨ e = .join ∨ e = .destroy ∨ ∃ response, e = .push response)
    (h : st.step e = some st') : st'.sunk = st.sunk ∧ st'.position = st.position ∧
      ((∀ response, e ≠ .push response) → st'.pushed = st.pushed) := by
  cases step_steps h with
  | pushed | dropped => exact ⟨rfl, rfl, fun hne => absurd rfl (hne _)⟩
  | closed | joined | destroyed => exact ⟨rfl, rfl, fun _ => rfl⟩
  | ran hrun =>
    rw [run_collector he] at hrun
    cases hrun
  | threw hrun =>
    rw [run_collector he] at hrun
    cases hrun

/-- A push is recorded, also when the thread has ended. -/
theorem step_push {response : Response} (hcaller : st.caller = .pushing)
    (h : st.step (.push response) = some st') :
    st'.pushed = st.pushed ++ [response] ∧ st'.caller = .pushing := by
  cases step_steps h with
  | pushed | dropped => exact ⟨rfl, hcaller⟩
  | ran hrun => cases run_runs hrun
  | threw hrun =>
    rw [run_collector (.inr (.inr (.inr ⟨_, rfl⟩)))] at hrun
    cases hrun

/-- A step of the thread is one of the resolver. -/
theorem step_of_run (h : st.run e = some (.ok st')) : st.step e = some st' := by
  have hthread : ∀ he, False := fun he => by
    rw [run_collector he] at h
    cases h
  unfold CacheStatusResolver.step
  split
  · exact (hthread (.inr (.inr (.inr ⟨_, rfl⟩)))).elim
  · exact (hthread (.inl rfl)).elim
  · exact (hthread (.inr (.inl rfl))).elim
  · exact (hthread (.inr (.inr (.inl rfl)))).elim
  · exact (hthread (.inr (.inr (.inl rfl)))).elim
  · rw [h]
    rfl

/-- A thread that has not ended may throw. -/
theorem step_fail {err : Error} (h : st.position ≠ .stopped) :
    st.step (.fail err) = some (st.caught err) := by
  have hrun : st.run (.fail err) = some (.error err) := by
    unfold run
    -- only a thread that has ended has no step
    cases hpos : st.position with
    | stopped => exact absurd hpos h
    | waiting | swapping | sorting | checking | filtering | resolving => rfl
  show (st.run (.fail err)).map _ = _
  rw [hrun]
  rfl

/-- A step of the thread calls the sink at most once, with a response that was pushed. -/
theorem run_sunk (hr : system.Reachable thread st) (h : st.run e = some (.ok st')) :
    st'.sunk = st.sunk ∨ ∃ p ∈ st.pushed, ∃ s, st'.sunk = st.sunk ++ [s] ∧
      st'.position ≠ .stopped ∧ SunkFor [(st, e)] p s := by
  have hruns := run_runs h
  rcases hruns.inFlight (jobsFree_reachable hr) with ⟨-, hsunk⟩ | ⟨p, s, hmoved, hsunk, hfor⟩
  · exact .inl hsunk
  · have hp : p ∈ st.inFlight :=
      hmoved ▸ Multiset.mem_add.mpr (.inl (Multiset.mem_singleton_self p))
    refine .inr ⟨p, inFlight_pushed hr p hp, s, hsunk, fun hstopped => ?_, hfor⟩
    -- the thread ends without calling the sink
    have hgrown : st'.sunk ≠ st.sunk := by
      rw [hsunk]
      simp
    cases hruns with
    | @sorted first _ => exact hgrown rfl
    | ended | gaveUp => exact hgrown rfl
    | _ => cases hstopped

end CacheStatusResolver

/-! ## The scheduler -/

namespace Scheduler

variable {n : Nat} {X : Externals} {f : AttrPath → Payload}

/-- What the scheduler knows when workers answer with `f`; the sink does not touch it. -/
structure Accurate (X : Externals) (f : AttrPath → Payload) (s : Scheduler n) : Prop where
  phases : s.PhasesConsistent
  conserved : s.Conserved
  truthful : s.Truthful X f

/-- Nothing has happened yet. -/
theorem accurate_init (nrWorkers maxMemorySize : UInt64) (resolver : Bool) :
    (init n nrWorkers maxMemorySize resolver).Accurate X f :=
  ⟨fun _ => Worker.phasesConsistent_default, conserved_init, fun _ _ hmem => by cases hmem⟩

/-- What moves keep, besides: the history grows, and there is a resolver or there is none. -/
theorem accurate_moves {a b : Snapshot n}
    (hab : Relation.ReflTransGen (Move X (Decoded X f)) a b) (ha : a.sched.Accurate X f) :
    b.sched.Accurate X f ∧ (∀ e ∈ a.sched.trace, e ∈ b.sched.trace) ∧
      b.sched.cacheStatusResolver = a.sched.cacheStatusResolver ∧
      b.sched.budget = a.sched.budget := by
  -- move by move
  induction hab with
  | refl => exact ⟨ha, fun _ he => he, rfl, rfl⟩
  | tail _ hmove ih =>
    obtain ⟨⟨hphases, hconserved, htruthful⟩, htrace, hresolver, hbudget⟩ := ih
    have hpool : PoolOk _ := fun i => (hphases i).ok
    refine ⟨⟨phasesConsistent_move hphases hmove,
      conserved_move (fun _ _ _ hd => hd.echo) hpool hconserved hmove,
      truthful_move hpool htruthful hmove⟩, fun e he => ?_,
      (move_resolver hmove).trans hresolver, (budget_move hmove).trans hbudget⟩
    rcases trace_move hmove with hsame | ⟨_, hnew, -⟩
    · exact hsame ▸ htrace e he
    · exact hnew ▸ List.mem_cons_of_mem _ (htrace e he)

/-- And so does every step. -/
theorem accurate_step {c c' : Config n} {e : Event n} (ha : c.sched.Accurate X f)
    (hreplies : Replies X f c e) (h : step X c e = some c') :
    c'.sched.Accurate X f ∧ (∀ e ∈ c.sched.trace, e ∈ c'.sched.trace) ∧
      c'.sched.cacheStatusResolver = c.sched.cacheStatusResolver ∧
      c'.sched.budget = c.sched.budget :=
  accurate_moves (step_moves (decoded_of_answers c e (answers_of_replies hreplies)) h) ha

end Scheduler

/-! ## What has been written -/

namespace Collector

variable {n : Nat} {X : Externals} {f : AttrPath → Payload} {c c' : Collector n}
  {thread : CacheStatusResolver → CacheStatusResolver.Event → Prop}

/-- What the sink has been called with. -/
def sunk (c : Collector n) : List Response :=
  match c.resolver with
  | some r => r.sunk
  | none => []

/-- The path whose error was fatal, which the history does not have. -/
def thrownPaths (c : Collector n) : Multiset AttrPath := c.thrown.toList

/-- The results that have been written, in the order of the map. -/
structure Wrote (X : Externals) (f : AttrPath → Payload) (c : Collector n)
    (emissions : List Emission) : Prop where
  /-- The map holds what was written. -/
  jobs : c.config.sched.jobs = (emitAll emissions).jobs
  /-- So does the output, in some order and but for the line of the sink. -/
  stdout : (c.config.sched.stdout ++ c.unprinted.toList).Perm (emitAll emissions).stdout
  valid : ∀ e ∈ emissions, e.Valid X.toStorePaths X.dump
  named : ∀ e ∈ emissions, e.response.attr = joinAttrPath e.response.attrPath
  origin : ∀ e ∈ emissions,
    e.Origin X f c.resolver.isNone c.config.sched.budget c.config.sched.trace c.sunk
  /-- What is written or pushed is due, was thrown or was sunk. -/
  paths : pathsOf (emissions.map Emission.response) + pathsOf c.config.sched.pushed =
    Scheduler.dues c.config.sched.trace + c.thrownPaths + pathsOf c.sunk

/-- A longer history, and more that was sunk, still have it. -/
theorem origin_mono {direct : Bool} {budget : UInt64} {trace trace' : List (Effect n)}
    {sunk sunk' : List Response} {e : Emission} (htrace : ∀ e ∈ trace, e ∈ trace')
    (hsunk : ∀ s ∈ sunk, s ∈ sunk') (h : e.Origin X f direct budget trace sunk) :
    e.Origin X f direct budget trace' sunk' := by
  cases h with
  | answered hanswer hdecode hjson hdirect => exact .answered hanswer hdecode hjson hdirect
  | resolved hanswer hpath hpending hmem hjson =>
    exact .resolved hanswer hpath hpending (hsunk _ hmem) hjson
  | gaveUp hmem hresponse hjson => exact .gaveUp (htrace _ hmem) hresponse hjson

variable {emissions : List Emission}

/-- Nothing is written, apart from the line the sink had still to print. -/
theorem Wrote.same (h : Wrote X f c emissions)
    (hdirect : c'.resolver.isNone = c.resolver.isNone)
    (hbudget : c'.config.sched.budget = c.config.sched.budget)
    (htrace : ∀ e ∈ c.config.sched.trace, e ∈ c'.config.sched.trace)
    (hsunk : c'.sunk = c.sunk) (hthrown : c'.thrown = c.thrown)
    (hjobs : c'.config.sched.jobs = c.config.sched.jobs)
    (hstdout : c'.config.sched.stdout ++ c'.unprinted.toList =
      c.config.sched.stdout ++ c.unprinted.toList)
    (hpaths : pathsOf c'.config.sched.pushed + Scheduler.dues c.config.sched.trace =
      pathsOf c.config.sched.pushed + Scheduler.dues c'.config.sched.trace) :
    Wrote X f c' emissions where
  jobs := hjobs.trans h.jobs
  stdout := hstdout ▸ h.stdout
  valid := h.valid
  named := h.named
  origin e he := hbudget ▸ hdirect ▸ origin_mono htrace (fun s hs => hsunk ▸ hs) (h.origin e he)
  paths := by
    have hold := h.paths
    have hsame : c'.thrownPaths = c.thrownPaths := by rw [thrownPaths, hthrown, thrownPaths]
    rw [hsunk, hsame]
    refine add_right_cancel (b := (Scheduler.dues c.config.sched.trace : Multiset AttrPath)) ?_
    rw [add_assoc, hpaths, ← add_assoc, hold]
    ac_rfl

/-- One more result. -/
theorem Wrote.snoc {e : Emission} (h : Wrote X f c emissions)
    (hvalid : e.Valid X.toStorePaths X.dump)
    (hnamed : e.response.attr = joinAttrPath e.response.attrPath)
    (hdirect : c'.resolver.isNone = c.resolver.isNone)
    (hbudget : c'.config.sched.budget = c.config.sched.budget)
    (horigin : e.Origin X f c.resolver.isNone c.config.sched.budget c'.config.sched.trace
      c'.sunk)
    (htrace : ∀ e ∈ c.config.sched.trace, e ∈ c'.config.sched.trace)
    (hsunk : ∀ s ∈ c.sunk, s ∈ c'.sunk)
    (hjobs : c'.config.sched.jobs = c.config.sched.jobs.insert e.response.attr e.json)
    (hstdout : (c'.config.sched.stdout ++ c'.unprinted.toList).Perm
      (emitResponse ⟨c.config.sched.jobs, c.config.sched.stdout ++ c.unprinted.toList⟩ e).stdout)
    (hpaths : pathsOf c'.config.sched.pushed = pathsOf c.config.sched.pushed)
    (hdues : Scheduler.dues c'.config.sched.trace + c'.thrownPaths + pathsOf c'.sunk =
      e.response.attrPath ::ₘ
        (Scheduler.dues c.config.sched.trace + c.thrownPaths + pathsOf c.sunk)) :
    Wrote X f c' (emissions ++ [e]) := by
  have hemit : emitAll (emissions ++ [e]) = emitResponse (emitAll emissions) e :=
    List.foldl_concat ..
  have hmem : ∀ {P : Emission → Prop}, (∀ e ∈ emissions, P e) → P e →
      ∀ e' ∈ emissions ++ [e], P e' := by
    intro P hold hnew e' he'
    rcases List.mem_append.mp he' with he' | he'
    · exact hold e' he'
    · exact List.mem_singleton.mp he' ▸ hnew
  refine ⟨?_, ?_, hmem h.valid hvalid, hmem h.named hnamed,
    hbudget ▸ hdirect ▸ hmem (fun e' he' => origin_mono htrace hsunk (h.origin e' he')) horigin, ?_⟩
  · rw [hjobs, hemit, h.jobs]
    rfl
  · -- an aggregate is not printed, anything else is
    rw [hemit]
    refine hstdout.trans ?_
    show List.Perm (if e.response.hasPendingConstituents then _ else _ ++ [e.dumped])
      (if e.response.hasPendingConstituents then _ else _ ++ [e.dumped])
    split
    · exact h.stdout
    · exact h.stdout.append_right _
  · rw [List.map_append, hdues, ← h.paths, hpaths]
    show pathsOf (_ ++ [e.response]) + _ = _
    rw [pathsOf_snoc, Multiset.cons_add]

/-- The line that the sink has still to print may as well have come first. -/
theorem emitResponse_perm (jobs : StdMap Str Json) (stdout : List Str) (e : Emission)
    (unprinted : List Str) : ((emitResponse ⟨jobs, stdout⟩ e).stdout ++ unprinted).Perm
      (emitResponse ⟨jobs, stdout ++ unprinted⟩ e).stdout := by
  rw [emitResponse, emitResponse]
  dsimp only
  split
  · exact .refl _
  · rw [List.append_assoc, List.append_assoc]
    exact List.perm_append_comm.append_left _

/-- What a step of the scheduler writes, while the sink may have a line to print. -/
theorem Wrote.schedule {config : Config n} {resolver : Option CacheStatusResolver}
    (h : Wrote X f c emissions) (hemits : Scheduler.Emits X f c.config.sched config.sched)
    (hflag : c.config.sched.cacheStatusResolver = c.resolver.isSome)
    (hsame : resolver.isSome = c.resolver.isSome)
    (hbudget : config.sched.budget = c.config.sched.budget)
    (htrace : ∀ e ∈ c.config.sched.trace, e ∈ config.sched.trace)
    (hsunk : sunk { c with config, resolver } = c.sunk) :
    ∃ emissions, Wrote X f { c with config, resolver } emissions := by
  have hdirect : resolver.isNone = c.resolver.isNone := by
    rw [← Option.not_isSome, hsame, Option.not_isSome]
  cases hemits with
  -- nothing is written or gets due
  | quiet hjobs hstdout hpushed hdues =>
    exact ⟨_, h.same hdirect hbudget htrace hsunk rfl hjobs (congrArg (· ++ _) hstdout)
      (by rw [hpushed, hdues])⟩
  -- a result is written and gets due
  | @wrote e hvalid hnamed horigin hjobs hstdout hpushed hdues =>
    rw [hflag, Option.not_isSome] at horigin
    refine ⟨_, h.snoc hvalid hnamed hdirect hbudget
      (origin_mono (fun _ he => he) (fun _ hs => by cases hs) horigin) htrace
      (fun _ hs => hsunk ▸ hs) hjobs ?_ (congrArg pathsOf hpushed) ?_⟩
    · show (config.sched.stdout ++ _).Perm _
      rw [hstdout]
      exact emitResponse_perm _ _ e _
    · rw [hsunk]
      show (Scheduler.dues config.sched.trace : Multiset AttrPath) + _ + _ = _
      rw [hdues, ← Multiset.cons_coe, Multiset.cons_add, Multiset.cons_add]
      rfl
  -- a job gets due, and the resolver has it
  | @pushed response _ _ _ hjobs hstdout hpushed hdues =>
    refine ⟨_, h.same hdirect hbudget htrace hsunk rfl hjobs (congrArg (· ++ _) hstdout) ?_⟩
    show pathsOf config.sched.pushed + _ = _ + (Scheduler.dues config.sched.trace : Multiset _)
    rw [hpushed, hdues, pathsOf_snoc, ← Multiset.cons_coe, Multiset.cons_add, Multiset.add_cons]

/-- **The invariant** of the collector, whose resolver keeps to `thread`. -/
structure Keeps (X : Externals) (f : AttrPath → Payload)
    (thread : CacheStatusResolver → CacheStatusResolver.Event → Prop) (c : Collector n) :
    Prop where
  accurate : c.config.sched.Accurate X f
  /-- The scheduler has a resolver if the collector has. -/
  resolver : c.config.sched.cacheStatusResolver = c.resolver.isSome
  /-- Without one, nothing is pushed. -/
  quiet : c.resolver = none → c.config.sched.pushed = []
  answers : ∀ response ∈ c.config.sched.pushed,
    response.IsAnswer X f ∧ ∃ drv extraValue, response.payload = .job drv extraValue
  /-- It has been told what was pushed. -/
  pushed : ∀ r, c.resolver = some r → r.pushed = c.config.sched.pushed
  reachable : ∀ r, c.resolver = some r → CacheStatusResolver.system.Reachable thread r
  pushing : c.stage = .scheduling → ∀ r, c.resolver = some r → r.caller = .pushing
  /-- The loop of the scheduler has ended. -/
  ran : c.stage = .finishing ∨ c.stage = .finished → c.config.sched.loops = false
  finished : c.stage = .finished → ∀ r, c.resolver = some r → r.caller = .finished (.ok ())
  /-- A line waits only as long as the thread lives. -/
  printing : ∀ line, c.unprinted = some line →
    ∃ r, c.resolver = some r ∧ r.position ≠ .stopped
  /-- What was thrown is not in the history. -/
  thrown : ∀ path, c.thrown = some path → Scheduler.settled path c.config.sched.trace = 0 ∧
    (c.stage = .throwing ∨ c.stage = .unwound)
  wrote : ∃ emissions, Wrote X f c emissions

/-- The environment: workers that answer with `f`, and the thread's. -/
def Serves (X : Externals) (f : AttrPath → Payload)
    (thread : CacheStatusResolver → CacheStatusResolver.Event → Prop) :
    Collector n → Event n → Prop
  | c, .scheduler e => Scheduler.Replies X f c.config e
  | c, .fatal idx line => Scheduler.Replies X f c.config (.line idx line 0)
  | c, .thread e => ∀ r, c.resolver = some r → thread r e
  | _, _ => True

/-- Only what the stores say is restricted. -/
def Free (thread : CacheStatusResolver → CacheStatusResolver.Event → Prop) : Prop :=
  ∀ r e, (∀ S, e ≠ .attempt S) →
    (∀ valid substitutable, e ≠ .resolveWanted valid substitutable) → thread r e

/-- No store is asked when the collector acts, or the thread throws. -/
theorem Free.step (hfree : Free thread) {r r' : CacheStatusResolver}
    {e : CacheStatusResolver.Event} (hr : CacheStatusResolver.system.Reachable thread r)
    (he : (∀ S, e ≠ .attempt S) ∧ ∀ valid substitutable, e ≠ .resolveWanted valid substitutable)
    (h : r.step e = some r') : CacheStatusResolver.system.Reachable thread r' :=
  .step hr (hfree r e he.1 he.2) h

/-! ## Every step -/

/-- What pushing does to the resolver. -/
structure Pushed (thread : CacheStatusResolver → CacheStatusResolver.Event → Prop)
    (responses : List Response) (r r' : CacheStatusResolver) : Prop where
  pushed : r'.pushed = r.pushed ++ responses
  sunk : r'.sunk = r.sunk
  position : r'.position = r.position
  caller : r'.caller = .pushing
  reachable : CacheStatusResolver.system.Reachable thread r →
    CacheStatusResolver.system.Reachable thread r'

/-- Pushing one response after the other. -/
theorem pushed_foldlM (hfree : Free thread) {responses : List Response}
    {r r' : CacheStatusResolver} (hcaller : r.caller = .pushing)
    (h : responses.foldlM (fun r response => r.step (.push response)) r = some r') :
    Pushed thread responses r r' := by
  induction responses generalizing r with
  | nil =>
    obtain rfl := Option.some.inj h
    exact ⟨(List.append_nil _).symm, rfl, rfl, hcaller, fun hr => hr⟩
  | cons response responses ih =>
    obtain ⟨m, hm, hrest⟩ := Option.bind_eq_some_iff.mp h
    obtain ⟨hpushed, hpushing⟩ := CacheStatusResolver.step_push hcaller hm
    obtain ⟨hsunk, hposition, -⟩ :=
      CacheStatusResolver.step_told (.inr (.inr (.inr ⟨_, rfl⟩))) hm
    obtain ⟨hpushed', hsunk', hposition', hcaller', hreachable⟩ := ih hpushing hrest
    refine ⟨?_, hsunk'.trans hsunk, hposition'.trans hposition, hcaller', fun hr => ?_⟩
    · rw [hpushed', hpushed, List.append_assoc]
      rfl
    · exact hreachable (hfree.step hr ⟨by simp, by simp⟩ hm)

/-- What a step of the scheduler pushes are answers, and there is a resolver. -/
theorem emits_pushed {s s' : Scheduler n} (h : Scheduler.Emits X f s s') :
    ∃ responses, s'.pushed = s.pushed ++ responses ∧
      (∀ response ∈ responses,
        response.IsAnswer X f ∧ ∃ drv extraValue, response.payload = .job drv extraValue) ∧
      (s.cacheStatusResolver = false → responses = []) := by
  cases h with
  | quiet _ _ hpushed _ | wrote _ _ _ _ _ hpushed _ =>
    exact ⟨[], hpushed.trans (List.append_nil _).symm, fun _ hmem => (by cases hmem), fun _ => rfl⟩
  | @pushed response hresolver hanswer hkind _ _ hpushed _ =>
    refine ⟨[response], hpushed, fun r hr => ?_, fun hoff => ?_⟩
    · exact List.mem_singleton.mp hr ▸ ⟨hanswer, hkind⟩
    · rw [hresolver] at hoff
      cases hoff

/-- A step of the scheduler, with what it pushes. -/
theorem Keeps.schedule (hfree : Free thread) (h : Keeps X f thread c)
    (hstage : c.stage = .scheduling) {e : NixEvalJobs.Event n} {config : Config n}
    (hreplies : Scheduler.Replies X f c.config e)
    (hstep : Scheduler.step X c.config e = some config)
    {resolver : Option CacheStatusResolver}
    (hnone : resolver = none → c.resolver = none)
    (hsome : ∀ r', resolver = some r' → ∃ r, c.resolver = some r ∧
      pushNew c.config.sched config.sched r = some r') :
    Keeps X f thread { c with config, resolver } := by
  obtain ⟨haccurate, htrace, hflag, hbudget⟩ := Scheduler.accurate_step h.accurate hreplies hstep
  have hemits := Scheduler.emits_step h.accurate.phases hreplies hstep
  obtain ⟨responses, hpushed, hanswers, hoff⟩ := emits_pushed hemits
  -- the resolver that it leaves has been told the new responses
  have hpush : ∀ r', resolver = some r' → ∃ r, c.resolver = some r ∧
      Pushed thread responses r r' := by
    intro r' hr'
    obtain ⟨r, hr, hnew⟩ := hsome r' hr'
    refine ⟨r, hr, pushed_foldlM hfree (h.pushing hstage r hr) ?_⟩
    rwa [pushNew, hpushed, List.drop_left] at hnew
  have hsame : resolver.isSome = c.resolver.isSome := by
    cases hresolver : resolver with
    | none => rw [hnone hresolver]
    | some r' =>
      obtain ⟨r, hr, -⟩ := hsome r' hresolver
      rw [hr]
      rfl
  -- pushing does not sink anything
  have hsunk : sunk { c with config, resolver } = c.sunk := by
    cases hresolver : resolver with
    | none => rw [sunk, sunk, hnone hresolver]
    | some r' =>
      obtain ⟨r, hr, hnew⟩ := hpush r' hresolver
      rw [sunk, sunk, hr]
      exact hnew.sunk
  refine ⟨haccurate, hflag.trans (h.resolver.trans hsame.symm), fun hres => ?_,
    fun response hmem => ?_, fun r' hr' => ?_, fun r' hr' => ?_, fun _ r' hr' => ?_,
    fun hend => ?_, fun hend => ?_, fun line hline => ?_, fun path hpath => ?_, ?_⟩
  · -- no resolver, so nothing is pushed
    have hresolver := hnone hres
    have hfalse : c.config.sched.cacheStatusResolver = false := by
      rw [h.resolver, hresolver]
      rfl
    show config.sched.pushed = []
    rw [hpushed, h.quiet hresolver, hoff hfalse]
    rfl
  · change response ∈ config.sched.pushed at hmem
    rw [hpushed] at hmem
    exact (List.mem_append.mp hmem).elim (h.answers response) (hanswers response)
  · obtain ⟨r, hr, hnew⟩ := hpush r' hr'
    show r'.pushed = config.sched.pushed
    rw [hnew.pushed, h.pushed r hr, hpushed]
  · obtain ⟨r, hr, hnew⟩ := hpush r' hr'
    exact hnew.reachable (h.reachable r hr)
  · obtain ⟨r, hr, hnew⟩ := hpush r' hr'
    exact hnew.caller
  · change c.stage = _ ∨ c.stage = _ at hend
    rw [hstage] at hend
    rcases hend with hend | hend <;> cases hend
  · cases hstage.symm.trans hend
  · obtain ⟨r, hr, hposition⟩ := h.printing line hline
    cases hresolver : resolver with
    | none =>
      rw [hnone hresolver] at hr
      cases hr
    | some r' =>
      obtain ⟨r₀, hr₀, hnew⟩ := hpush r' hresolver
      obtain rfl := Option.some.inj (hr.symm.trans hr₀)
      exact ⟨r', rfl, hnew.position ▸ hposition⟩
  · -- nothing was thrown, as the scheduler runs
    obtain ⟨-, hend⟩ := h.thrown path hpath
    rw [hstage] at hend
    rcases hend with hend | hend <;> cases hend
  · obtain ⟨emissions, hwrote⟩ := h.wrote
    exact hwrote.schedule hemits h.resolver hsame hbudget htrace hsunk

/-- What changes only the resolver, and how far `main` has come. -/
theorem Keeps.setResolver (h : Keeps X f thread c) {r r' : CacheStatusResolver} {stage : Stage}
    (hresolver : c.resolver = some r) (hpushed : r'.pushed = r.pushed) (hsunk : r'.sunk = r.sunk)
    (hreachable : CacheStatusResolver.system.Reachable thread r')
    (hpushing : stage = .scheduling → r'.caller = .pushing)
    (hran : stage = .finishing ∨ stage = .finished → c.config.sched.loops = false)
    (hfinished : stage = .finished → r'.caller = .finished (.ok ()))
    (hprinting : ∀ line, c.unprinted = some line → r'.position ≠ .stopped)
    (hthrown : c.stage = .throwing ∨ c.stage = .unwound → stage = .throwing ∨ stage = .unwound) :
    Keeps X f thread { c with resolver := some r', stage } := by
  have hsame : sunk { c with resolver := some r', stage } = c.sunk := by
    rw [sunk, sunk, hresolver]
    exact hsunk
  refine ⟨h.accurate, ?_, fun hnone => (by cases hnone), h.answers, fun q hq => ?_, fun q hq => ?_,
    fun hstage q hq => ?_, hran, fun hstage q hq => ?_, fun line hline => ?_,
    fun path hpath => (h.thrown path hpath).imp_right hthrown, ?_⟩
  · have hflag := h.resolver
    rw [hresolver] at hflag
    exact hflag
  · obtain rfl := Option.some.inj hq
    exact hpushed.trans (h.pushed r hresolver)
  · exact Option.some.inj hq ▸ hreachable
  · exact Option.some.inj hq ▸ hpushing hstage
  · exact Option.some.inj hq ▸ hfinished hstage
  · exact ⟨r', rfl, hprinting line hline⟩
  · -- what was written is the same
    obtain ⟨emissions, hwrote⟩ := h.wrote
    have hdirect : (some r').isNone = c.resolver.isNone := by
      rw [hresolver]
      rfl
    exact ⟨emissions, hwrote.same hdirect rfl (fun _ he => he) hsame rfl rfl rfl rfl⟩

/-- The collector closes the resolver, joins its thread or destroys it. -/
theorem Keeps.told (hfree : Free thread) (h : Keeps X f thread c) {r r' : CacheStatusResolver}
    {e : CacheStatusResolver.Event} {stage : Stage} (he : e = .close ∨ e = .join ∨ e = .destroy)
    (hresolver : c.resolver = some r) (hstep : r.step e = some r')
    (hstage : stage ≠ .scheduling)
    (hran : stage = .finishing ∨ stage = .finished → c.config.sched.loops = false)
    (hfinished : stage = .finished → r'.caller = .finished (.ok ()))
    (hthrown : c.stage = .throwing ∨ c.stage = .unwound → stage = .throwing ∨ stage = .unwound) :
    Keeps X f thread { c with resolver := some r', stage } := by
  have hcollector : e = .close ∨ e = .join ∨ e = .destroy ∨ ∃ response, e = .push response :=
    he.imp_right fun he => he.imp_right .inl
  obtain ⟨hsunk, hposition, hpushed⟩ := CacheStatusResolver.step_told hcollector hstep
  have hsilent : (∀ S, e ≠ .attempt S) ∧
      ∀ valid substitutable, e ≠ .resolveWanted valid substitutable := by
    rcases he with rfl | rfl | rfl <;> exact ⟨by simp, by simp⟩
  have hnopush : ∀ response, e ≠ .push response := by
    rcases he with rfl | rfl | rfl <;> simp
  refine h.setResolver hresolver (hpushed hnopush) hsunk
    (hfree.step (h.reachable r hresolver) hsilent hstep) (fun hsched => absurd hsched hstage) hran
    hfinished (fun line hline => ?_) hthrown
  obtain ⟨q, hq, hlive⟩ := h.printing line hline
  obtain rfl := Option.some.inj (hq.symm.trans hresolver)
  exact hposition ▸ hlive

/-- The same without a resolver. -/
theorem Keeps.setStage (h : Keeps X f thread c) {stage : Stage} (hresolver : c.resolver = none)
    (hran : stage = .finishing ∨ stage = .finished → c.config.sched.loops = false)
    (hthrown : c.stage = .throwing ∨ c.stage = .unwound → stage = .throwing ∨ stage = .unwound) :
    Keeps X f thread { c with stage } := by
  have hno : ∀ {r}, c.resolver ≠ some r := fun hr => by
    rw [hresolver] at hr
    cases hr
  obtain ⟨emissions, hwrote⟩ := h.wrote
  exact ⟨h.accurate, h.resolver, h.quiet, h.answers, h.pushed, h.reachable,
    fun _ r hr => absurd hr hno, hran, fun _ r hr => absurd hr hno, h.printing,
    fun path hpath => (h.thrown path hpath).imp_right hthrown,
    emissions, hwrote.same rfl rfl (fun _ he => he) rfl rfl rfl rfl rfl⟩

/-- The sink has recorded a response, and prints it later. -/
theorem Keeps.sink (h : Keeps X f thread c) {e : CacheStatusResolver.Event}
    {r r' : CacheStatusResolver} {response : Response} {dumped : Str} (hthread : thread r e)
    (hresolver : c.resolver = some r) (hprinted : c.unprinted = none)
    (hrun : r.run e = some (.ok r')) (hhanded : handed r r' = some response)
    (hdump : X.dump (response.toJson X.toStorePaths) = some dumped) :
    Keeps X f thread { c with
      config.sched.jobs :=
        c.config.sched.jobs.insert response.attr (response.toJson X.toStorePaths)
      unprinted := if response.hasPendingConstituents then none else some dumped
      resolver := some r' } := by
  have hr := h.reachable r hresolver
  obtain ⟨-, -, -, hcaller, hpushed⟩ := (CacheStatusResolver.run_runs hrun).frame
  -- the response that the sink is given was pushed, and came back resolved
  obtain ⟨p, hp, hsunk, hlive, hfor⟩ : ∃ p ∈ r.pushed, r'.sunk = r.sunk ++ [response] ∧
      r'.position ≠ .stopped ∧ CacheStatusResolver.SunkFor [(r, e)] p response := by
    rcases CacheStatusResolver.run_sunk hr hrun with hsame | ⟨p, hp, s, hsunk, hlive, hfor⟩
    · rw [handed, hsame, List.getElem?_eq_none le_rfl] at hhanded
      cases hhanded
    · have hs : handed r r' = some s := by
        rw [handed, hsunk, List.getElem?_concat_length]
      obtain rfl := Option.some.inj (hs.symm.trans hhanded)
      exact ⟨p, hp, hsunk, hlive, hfor⟩
  obtain ⟨hanswer, hkind⟩ := h.answers p (h.pushed r hresolver ▸ hp)
  obtain ⟨hattr, hpath, hpending, hsamekind⟩ := hfor.same
  refine ⟨⟨h.accurate.phases, h.accurate.conserved, h.accurate.truthful⟩, ?_,
    fun hnone => (by cases hnone), h.answers, fun q hq => ?_, fun q hq => ?_, fun hstage q hq => ?_,
    h.ran, fun hstage q hq => ?_, fun line hline => ⟨r', rfl, hlive⟩, h.thrown, ?_⟩
  · have hflag := h.resolver
    rw [hresolver] at hflag
    exact hflag
  · obtain rfl := Option.some.inj hq
    exact hpushed.trans (h.pushed r hresolver)
  · exact Option.some.inj hq ▸ hr.step hthread (CacheStatusResolver.step_of_run hrun)
  · exact Option.some.inj hq ▸ hcaller.trans (h.pushing hstage r hresolver)
  · exact Option.some.inj hq ▸ hcaller.trans (h.finished hstage r hresolver)
  · -- the map has it at once, and its line is still to come
    obtain ⟨emissions, hwrote⟩ := h.wrote
    have hbefore : c.sunk = r.sunk := by rw [Collector.sunk, hresolver]
    let e : Emission := ⟨response, response.toJson X.toStorePaths, dumped⟩
    have hdirect : (some r').isNone = c.resolver.isNone := by
      rw [hresolver]
      rfl
    refine ⟨_, hwrote.snoc (e := e) ⟨hsamekind hkind, .inl rfl, hdump⟩ ?_ hdirect rfl
      (.resolved hanswer hpath.symm hpending.symm ?_ rfl) (fun _ he => he) (fun s hs => ?_) rfl ?_
      rfl ?_⟩
    · show response.attr = joinAttrPath response.attrPath
      rw [hattr, hpath]
      exact hanswer.attr
    · show response ∈ r'.sunk
      rw [hsunk]
      exact List.mem_append_right _ (List.mem_singleton_self _)
    · show s ∈ r'.sunk
      rw [hsunk, ← hbefore]
      exact List.mem_append_left _ hs
    · rw [hprinted, emitResponse]
      dsimp only
      split
      · exact .refl _
      · rw [Option.toList_none, List.append_nil]
        exact .refl _
    · show _ + c.thrownPaths + pathsOf r'.sunk = _
      rw [hsunk, pathsOf_snoc, Multiset.add_cons, hbefore]

/-- The line of the sink. -/
theorem Keeps.print (h : Keeps X f thread c) {line : Str} (hline : c.unprinted = some line) :
    Keeps X f thread { c with
      config.sched.stdout := c.config.sched.stdout ++ [line]
      unprinted := none } := by
  obtain ⟨emissions, hwrote⟩ := h.wrote
  refine ⟨⟨h.accurate.phases, h.accurate.conserved, h.accurate.truthful⟩, h.resolver, h.quiet,
    h.answers, h.pushed, h.reachable, h.pushing, h.ran, h.finished, fun _ h => (by cases h),
    h.thrown, emissions, hwrote.same rfl rfl (fun _ he => he) rfl rfl rfl ?_ rfl⟩
  rw [hline]
  exact List.append_nil _

/-- A fatal error is written for a path that is not settled, and nothing is scheduled any
more. -/
theorem Keeps.throw (h : Keeps X f thread c) (hstage : c.stage = .scheduling) {idx : Fin n}
    {line : Str} {response : Response} {json : Json}
    (hreplies : Scheduler.Replies X f c.config (.line idx line 0))
    (hbusy : (c.config.sched.workers idx).phase = .busy)
    (hparse : parseResponse X line = .ok (response, json))
    (hfatal : response.payload.fatalError.isSome) :
    Keeps X f thread { c with
      config.sched := c.config.sched.emitResponse response json line
      stage := .throwing
      thrown := some response.attrPath } := by
  obtain ⟨hpath, hreceived⟩ :=
    Scheduler.received_of_replies h.accurate.phases hreplies hbusy hparse
  obtain ⟨msg, hmsg⟩ := Payload.fatalError_isSome.mp hfatal
  have hholds : (c.config.sched.workers idx).holds response.attrPath = true :=
    Worker.holds_iff.mpr ⟨.inl hbusy, hpath⟩
  -- the worker was evaluating the path, so it has no answer yet
  have hsettled := h.accurate.conserved.settled_eq_zero hholds
  -- nothing was thrown before
  have hnone : c.thrown = none := by
    by_contra hne
    obtain ⟨path, hthrown⟩ := Option.ne_none_iff_exists'.mp hne
    obtain ⟨-, hend⟩ := h.thrown path hthrown
    rw [hstage] at hend
    rcases hend with hend | hend <;> cases hend
  refine ⟨⟨h.accurate.phases, h.accurate.conserved, h.accurate.truthful⟩, h.resolver, h.quiet,
    h.answers, h.pushed, h.reachable, fun hend => (by cases hend),
    fun hend => (by rcases hend with hend | hend <;> cases hend), fun hend => (by cases hend),
    h.printing, fun path hthrown => ?_, ?_⟩
  · obtain rfl := Option.some.inj hthrown
    exact ⟨hsettled, .inl rfl⟩
  · -- the line is written, though the history does not have the path
    obtain ⟨emissions, hwrote⟩ := h.wrote
    let e : Emission := ⟨response, json, line⟩
    obtain ⟨hvalid, horigin⟩ := hreceived.emission c.resolver.isNone c.config.sched.budget
      c.config.sched.trace (fun attrs hattrs => by cases hmsg.symm.trans hattrs)
      (.inr fun drv extraValue hjob => by cases hmsg.symm.trans hjob)
    refine ⟨_, hwrote.snoc (e := e) hvalid hreceived.named rfl rfl
      (origin_mono (fun _ he => he) (fun _ hs => by cases hs) horigin) (fun _ he => he)
      (fun _ hs => hs) rfl ?_ rfl ?_⟩
    · show List.Perm ((c.config.sched.emitResponse response json line).stdout ++ _) _
      rw [(c.config.sched.emitResponse_collected response json line).2]
      exact emitResponse_perm _ _ e _
    · show (Scheduler.dues c.config.sched.trace : Multiset AttrPath) +
        ((([response.attrPath] : List AttrPath) : Multiset AttrPath)) + pathsOf c.sunk = _
      have hcons : (Scheduler.dues c.config.sched.trace : Multiset AttrPath) +
          {response.attrPath} = response.attrPath ::ₘ Scheduler.dues c.config.sched.trace := by
        rw [add_comm, Multiset.singleton_add]
      rw [thrownPaths, hnone, Option.toList_none, Multiset.coe_nil, add_zero,
        Multiset.coe_singleton, hcons, Multiset.cons_add]

/-- Nothing is written, and the resolver is new. -/
theorem keeps_init (nrWorkers maxMemorySize : UInt64) (checkCacheStatus : Bool) :
    Keeps X f thread
      ((system X nrWorkers maxMemorySize checkCacheStatus).init : Collector n) := by
  have hsome : ∀ r, ((system X nrWorkers maxMemorySize checkCacheStatus).init :
      Collector n).resolver = some r → r = {} := by
    intro r hr
    cases checkCacheStatus with
    | true => exact (Option.some.inj hr).symm
    | false => cases hr
  refine ⟨Scheduler.accurate_init _ _ _, ?_, fun _ => rfl, fun _ hmem => (by cases hmem),
    fun r hr => hsome r hr ▸ rfl, fun r hr => hsome r hr ▸ .init, fun _ r hr => hsome r hr ▸ rfl,
    fun hend => (by rcases hend with hend | hend <;> cases hend), fun hend => (by cases hend),
    fun _ hline => (by cases hline), fun _ hpath => (by cases hpath), [], ?_⟩
  · cases checkCacheStatus <;> rfl
  · refine ⟨rfl, .refl _, fun _ he => (by cases he), fun _ he => (by cases he),
      fun _ he => (by cases he), ?_⟩
    cases checkCacheStatus <;> rfl

/-- Every event keeps the invariant. -/
theorem keeps_step (hfree : Free thread) (h : Keeps X f thread c) {e : Event n}
    (hserves : Serves X f thread c e) (hstep : c.step X e = some c') : Keeps X f thread c' := by
  cases step_steps hstep with
  | scheduled hstage hnone hsched =>
    exact h.schedule hfree hstage hserves hsched (fun h => h) fun r' hr' => by
      cases hnone.symm.trans hr'
  | pushed hstage hresolver hsched hpush =>
    refine h.schedule hfree hstage hserves hsched (fun h => by cases h) fun q hq => ?_
    exact ⟨_, hresolver, hpush.trans hq⟩
  | fatal hstage hbusy hparse hfatal => exact h.throw hstage hserves hbusy hparse hfatal
  | @moved e r r' hresolver hprinted hrun hnone =>
    have hr := h.reachable r hresolver
    obtain ⟨-, -, -, hcaller, hpushed⟩ := (CacheStatusResolver.run_runs hrun).frame
    -- nothing was handed to the sink
    have hsunk : r'.sunk = r.sunk := by
      rcases CacheStatusResolver.run_sunk hr hrun with hsame | ⟨p, hp, s, hsunk, -, -⟩
      · exact hsame
      · rw [handed, hsunk, List.getElem?_concat_length] at hnone
        cases hnone
    refine h.setResolver hresolver hpushed hsunk
      (hr.step (hserves r hresolver) (CacheStatusResolver.step_of_run hrun))
      (fun hstage => hcaller.trans (h.pushing hstage r hresolver)) h.ran
      (fun hstage => hcaller.trans (h.finished hstage r hresolver)) (fun line hline => ?_)
      fun hend => hend
    cases hprinted.symm.trans hline
  | sunk hresolver hprinted hrun hhanded hdump =>
    exact h.sink (hserves _ hresolver) hresolver hprinted hrun hhanded hdump
  | @threw e r err hresolver hprinted hlive =>
    have hfail : r.step (.fail err) = some (r.caught err) := CacheStatusResolver.step_fail hlive
    refine h.setResolver hresolver rfl rfl
      (hfree.step (h.reachable r hresolver) ⟨by simp, by simp⟩ hfail)
      (fun hstage => h.pushing hstage r hresolver) h.ran
      (fun hstage => h.finished hstage r hresolver) (fun line hline => ?_) fun hend => hend
    cases hprinted.symm.trans hline
  | printed hline => exact h.print hline
  | finished hstage hnone hloops =>
    exact h.setStage hnone (fun _ => hloops) fun hend => by
      rw [hstage] at hend
      rcases hend with hend | hend <;> cases hend
  | closed hstage hresolver hloops hclose =>
    exact h.told hfree (.inl rfl) hresolver hclose (by simp) (fun _ => hloops)
      (fun hend => by cases hend) fun hend => by
        rw [hstage] at hend
        rcases hend with hend | hend <;> cases hend
  | @joined r r' hstage hresolver hjoin =>
    refine h.told hfree (.inr (.inl rfl)) hresolver hjoin ?_ (fun _ => h.ran (.inl hstage))
      (fun hend => ?_) fun hend => ?_
    · split <;> simp
    · -- `join` rethrows what the thread threw, and `main` is not finished then
      split at hend
      · next hsucceeded => exact Caller.eq_of_succeeded hsucceeded
      · cases hend
    · rw [hstage] at hend
      rcases hend with hend | hend <;> cases hend
  | unwound _ hnone =>
    exact h.setStage hnone (fun hend => by rcases hend with hend | hend <;> cases hend)
      fun _ => .inr rfl
  | destroyed _ hresolver hdestroy =>
    exact h.told hfree (.inr (.inr rfl)) hresolver hdestroy (by simp)
      (fun hend => by rcases hend with hend | hend <;> cases hend) (fun hend => by cases hend)
      fun _ => .inr rfl

/-- The invariant holds in every run. -/
theorem keeps_reachable (hfree : Free thread) {nrWorkers maxMemorySize : UInt64}
    {checkCacheStatus : Bool}
    (h : (system X nrWorkers maxMemorySize checkCacheStatus).Reachable (Serves X f thread) c) :
    Keeps X f thread c :=
  h.invariant (keeps_init nrWorkers maxMemorySize checkCacheStatus)
    fun _ hkeeps hserves hstep => keeps_step hfree hkeeps hserves hstep

end Collector

end NixEvalJobs
