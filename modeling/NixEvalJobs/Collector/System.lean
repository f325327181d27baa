import NixEvalJobs.CacheStatus.Thread
import NixEvalJobs.Scheduler.Traversal

/-!
# Collector — `main`

The collector process: the scheduler and, with `--check-cache-status`, the thread of the
resolver next to it. They meet in what the scheduler pushes to the resolver, and in the
`JobMap` and the standard output, which both of them write, under a lock each.

The sink runs in the thread. It records a response under the lock of the map and prints
it under that of the output, and the scheduler may do anything between the two. What the
scheduler itself records and prints is one step: between its two locks only the sink
can come, which has then come before.

An exception leaves the state that the handler has made of it so far. For a response with a
fatal error this is not the one before: `onResponse` records and prints the error and throws
afterwards. Nothing is scheduled from then on, but the thread goes on until the destructor of
the resolver has joined it.

* `step_steps` — what either side has done when an event took place.
-/

namespace NixEvalJobs

/-- How far `main` has come. -/
inductive Stage where
  | scheduling                 -- in `Scheduler::run`
  | throwing                   -- a fatal error has left it
  | finishing                  -- in `CacheStatusResolver::finish`
  | finished
  | unwound                    -- by an exception
  deriving DecidableEq

/-- `main`; the map and the output are with the scheduler. -/
structure Collector (n : Nat) where
  config : Config n
  resolver : Option CacheStatusResolver
  stage : Stage := .scheduling
  unprinted : Option Str := none       -- what the sink has still to print
  thrown : Option AttrPath := none     -- whose error was fatal

namespace Collector

variable {n : Nat} (X : Externals)

/-- What can happen in the collector process. -/
inductive Event (n : Nat) where
  /-- the scheduler goes on, when nothing fatal is to be read -/
  | scheduler (e : NixEvalJobs.Event n)
  | fatal (idx : Fin n) (line : Str)   -- `onResponse` throws at this line
  /-- the thread goes on -/
  | thread (e : CacheStatusResolver.Event)
  | print                              -- the sink has the second lock
  /-- `run` has returned, and `finish` tells the thread to end -/
  | finish
  /-- the thread has ended, and `finish` returns or throws -/
  | join
  /-- an exception leaves `main` -/
  | unwind

/-- `cacheStatusResolver->push` of what a handler has pushed. -/
def pushNew (old new : Scheduler n) (r : CacheStatusResolver) : Option CacheStatusResolver :=
  (new.pushed.drop old.pushed.length).foldlM (fun r response => r.step (.push response)) r

/-- An event of the scheduler, with what it pushes to the resolver. -/
def schedule (c : Collector n) (e : NixEvalJobs.Event n) : Option (Collector n) :=
  match Scheduler.step X c.config e, c.resolver with
  | none, _ => none
  | some config, none => some { c with config }
  | some config, some r =>
    (pushNew c.config.sched config.sched r).map fun r => { c with config, resolver := some r }

/-- `onResponse` at a line whose error is fatal, up to its exception. -/
def throwFatal (c : Collector n) (idx : Fin n) (line : Str) : Option (Collector n) :=
  let s := c.config.sched
  if c.config.pass.isNone ∧ (s.workers idx).proc.isSome ∧ (s.workers idx).phase = .busy then
    match parseResponse X line with
    | .ok (response, json) =>
      -- the entry and the line come first, then the exception
      if response.payload.fatalError.isSome then some { c with
        config.sched := s.recordResponse response json line
        stage := .throwing
        thrown := some response.attrPath }
      else none
    | .error _ => none
  else none

/-- The response a step of the thread calls the sink with. -/
def handed (old new : CacheStatusResolver) : Option Response := new.sunk[old.sunk.length]?

/-- The sink, `emitResponse(jobs, response)`, up to its second lock. -/
def sink (c : Collector n) (response : Response) : Except Error (Collector n) :=
  let json := response.toJson X.toStorePaths
  match X.dump json with
  | none => throw .json
  | some dumped => pure { c with
      config.sched.jobs := c.config.sched.jobs.insert response.attr json
      unprinted := if response.hasPendingConstituents then none else some dumped }

/-- A step of the thread; an exception of the sink is one of the thread. -/
def runThread (c : Collector n) (r : CacheStatusResolver) (e : CacheStatusResolver.Event) :
    Option (Collector n) :=
  match r.run e with
  | none => none
  | some (.error err) => some { c with resolver := some (r.caught err) }
  | some (.ok r') =>
    match handed r r' with
    | none => some { c with resolver := some r' }
    | some response =>
      match c.sink X response with
      | .ok c => some { c with resolver := some r' }
      | .error err => some { c with resolver := some (r.caught err) }

/-- The loop of `Scheduler::run` has ended. -/
def ran (c : Collector n) : Bool := c.config.pass.isNone ∧ c.config.sched.loops = false

/-- A step of either side. -/
def step (c : Collector n) : Event n → Option (Collector n)
  | .scheduler e => if c.stage = .scheduling then c.schedule X e else none
  | .fatal idx line => if c.stage = .scheduling then c.throwFatal X idx line else none
  | .thread e =>
    -- the thread is in its sink until it has printed
    match c.resolver, c.unprinted with
    | some r, none => c.runThread X r e
    | _, _ => none
  | .print =>
    match c.unprinted with
    | some line => some { c with
        config.sched.stdout := c.config.sched.stdout ++ [line]
        unprinted := none }
    | none => none
  | .finish =>
    if c.stage = .scheduling ∧ c.ran then
      match c.resolver with
      | none => some { c with stage := .finished }
      | some r =>
        (r.step .close).map fun r => { c with resolver := some r, stage := .finishing }
    else none
  | .join =>
    match c.stage, c.resolver with
    | .finishing, some r =>
      (r.step .join).map fun r => { c with
        resolver := some r
        stage := if r.caller.succeeded then .finished else .unwound }
    | _, _ => none
  | .unwind =>
    -- the destructor of the resolver, which waits for the thread
    if c.stage = .scheduling ∨ c.stage = .throwing then
      match c.resolver with
      | none => some { c with stage := .unwound }
      | some r =>
        (r.step .destroy).map fun r => { c with resolver := some r, stage := .unwound }
    else none

/-- `main`, with or without `--check-cache-status`. -/
def system (nrWorkers maxMemorySize : UInt64) (checkCacheStatus : Bool) :
    System (Collector n) (Event n) where
  init := {
    config := ⟨Scheduler.init n nrWorkers maxMemorySize checkCacheStatus, none⟩
    resolver := if checkCacheStatus then some {} else none }
  step := step X

/-! ## What has happened -/

/-- What either side has done when an event took place. -/
inductive Steps (X : Externals) (c : Collector n) : Event n → Collector n → Prop where
  | scheduled {e : NixEvalJobs.Event n} {config : Config n} : c.stage = .scheduling →
      c.resolver = none → Scheduler.step X c.config e = some config →
      Steps X c (.scheduler e) { c with config }
  | pushed {e : NixEvalJobs.Event n} {config : Config n} {r r' : CacheStatusResolver} :
      c.stage = .scheduling → c.resolver = some r → Scheduler.step X c.config e = some config →
      pushNew c.config.sched config.sched r = some r' →
      Steps X c (.scheduler e) { c with config, resolver := some r' }
  | fatal {idx : Fin n} {line : Str} {response : Response} {json : Json} :
      c.stage = .scheduling → (c.config.sched.workers idx).phase = .busy →
      parseResponse X line = .ok (response, json) → response.payload.fatalError.isSome →
      Steps X c (.fatal idx line) { c with
        config.sched := c.config.sched.emitResponse response json line
        stage := .throwing
        thrown := some response.attrPath }
  | moved {e : CacheStatusResolver.Event} {r r' : CacheStatusResolver} : c.resolver = some r →
      c.unprinted = none → r.run e = some (.ok r') → handed r r' = none →
      Steps X c (.thread e) { c with resolver := some r' }
  | sunk {e : CacheStatusResolver.Event} {r r' : CacheStatusResolver} {response : Response}
      {dumped : Str} : c.resolver = some r → c.unprinted = none → r.run e = some (.ok r') →
      handed r r' = some response → X.dump (response.toJson X.toStorePaths) = some dumped →
      Steps X c (.thread e) { c with
        config.sched.jobs :=
          c.config.sched.jobs.insert response.attr (response.toJson X.toStorePaths)
        unprinted := if response.hasPendingConstituents then none else some dumped
        resolver := some r' }
  | threw {e : CacheStatusResolver.Event} {r : CacheStatusResolver} {err : Error} :
      c.resolver = some r → c.unprinted = none → r.position ≠ .stopped →
      Steps X c (.thread e) { c with resolver := some (r.caught err) }
  | printed {line : Str} : c.unprinted = some line → Steps X c .print { c with
      config.sched.stdout := c.config.sched.stdout ++ [line]
      unprinted := none }
  | finished : c.stage = .scheduling → c.resolver = none → c.config.sched.loops = false →
      Steps X c .finish { c with stage := .finished }
  | closed {r r' : CacheStatusResolver} : c.stage = .scheduling → c.resolver = some r →
      c.config.sched.loops = false → r.step .close = some r' →
      Steps X c .finish { c with resolver := some r', stage := .finishing }
  | joined {r r' : CacheStatusResolver} : c.stage = .finishing → c.resolver = some r →
      r.step .join = some r' → Steps X c .join { c with
        resolver := some r'
        stage := if r'.caller.succeeded then .finished else .unwound }
  | unwound : c.stage = .scheduling ∨ c.stage = .throwing → c.resolver = none →
      Steps X c .unwind { c with stage := .unwound }
  | destroyed {r r' : CacheStatusResolver} : c.stage = .scheduling ∨ c.stage = .throwing →
      c.resolver = some r → r.step .destroy = some r' →
      Steps X c .unwind { c with resolver := some r', stage := .unwound }

variable {X} {c c' : Collector n} {e : Event n}

/-- What the scheduler did. -/
theorem schedule_steps {e : NixEvalJobs.Event n} (hstage : c.stage = .scheduling)
    (h : c.schedule X e = some c') : Steps X c (.scheduler e) c' := by
  rw [schedule] at h
  split at h
  · cases h
  · next hstep hresolver =>
    obtain rfl := Option.some.inj h
    exact .scheduled hstage hresolver hstep
  · next hstep hresolver =>
    obtain ⟨r', hpush, rfl⟩ := Option.map_eq_some_iff.mp h
    exact .pushed hstage hresolver hstep hpush

theorem throwFatal_steps {idx : Fin n} {line : Str} (hstage : c.stage = .scheduling)
    (h : c.throwFatal X idx line = some c') : Steps X c (.fatal idx line) c' := by
  rw [throwFatal] at h
  split at h
  case isFalse => cases h
  next hbusy =>
  split at h
  · next response json hparse =>
    split at h
    · next hfatal =>
      obtain rfl := Option.some.inj h
      -- what is recorded of an error is its entry and its line
      obtain ⟨msg, hmsg⟩ := Payload.fatalError_isSome.mp hfatal
      have hrecord : c.config.sched.recordResponse response json line =
          c.config.sched.emitResponse response json line := by
        rw [Scheduler.recordResponse, hmsg]
      dsimp only
      rw [hrecord]
      exact .fatal hstage hbusy.2.2 hparse hfatal
    · cases h
  · cases h

/-- **At a fatal error the scheduler throws**: it cannot take this line itself. -/
theorem onLine_of_throwFatal {idx : Fin n} {line : Str} (h : c.throwFatal X idx line = some c')
    (rss : UInt64) : ∃ msg, c.config.sched.onLine X idx line rss =
      .error (.nix (lit "%s") [msg]) := by
  rw [throwFatal] at h
  split at h
  case isFalse => cases h
  next hbusy =>
  split at h
  · next response json hparse =>
    split at h
    · next hfatal =>
      obtain ⟨msg, hmsg⟩ := Option.isSome_iff_exists.mp hfatal
      refine ⟨msg, ?_⟩
      have haccept : c.config.sched.acceptResponse response json line =
          .error (.nix (lit "%s") [msg]) := by
        rw [Scheduler.acceptResponse, hmsg]
        rfl
      rw [Scheduler.onLine, hbusy.2.2]
      show Scheduler.onResponse X _ _ _ _ = _
      rw [Scheduler.onResponse, hparse]
      show (Scheduler.acceptResponse _ response json line).bind _ = _
      rw [haccept]
      rfl
    · cases h
  · cases h

/-- What the thread did. -/
theorem runThread_steps {r : CacheStatusResolver} {e : CacheStatusResolver.Event}
    (hresolver : c.resolver = some r) (hprinted : c.unprinted = none)
    (h : c.runThread X r e = some c') : Steps X c (.thread e) c' := by
  rw [runThread] at h
  split at h
  · cases h
  · next hrun =>
    obtain rfl := Option.some.inj h
    exact .threw hresolver hprinted (CacheStatusResolver.run_live hrun)
  · next r' hrun =>
    split at h
    · next hnone =>
      obtain rfl := Option.some.inj h
      exact .moved hresolver hprinted hrun hnone
    · next response hhanded =>
      rw [sink] at h
      dsimp only at h
      -- the response is a text, or the thread throws
      cases hdump : X.dump (response.toJson X.toStorePaths) with
      | none =>
        rw [hdump] at h
        obtain rfl := Option.some.inj h
        exact .threw hresolver hprinted (CacheStatusResolver.run_live hrun)
      | some dumped =>
        rw [hdump] at h
        obtain rfl := Option.some.inj h
        exact .sunk hresolver hprinted hrun hhanded hdump

/-- Every event is one of these. -/
theorem step_steps (h : c.step X e = some c') : Steps X c e c' := by
  cases e with
  | scheduler e =>
    simp only [step] at h
    split at h
    · next hstage => exact schedule_steps hstage h
    · cases h
  | fatal idx line =>
    simp only [step] at h
    split at h
    · next hstage => exact throwFatal_steps hstage h
    · cases h
  | thread e =>
    simp only [step] at h
    split at h
    · next hresolver hprinted => exact runThread_steps hresolver hprinted h
    · cases h
  | print =>
    simp only [step] at h
    split at h
    · next hline =>
      obtain rfl := Option.some.inj h
      exact .printed hline
    · cases h
  | finish =>
    simp only [step] at h
    split at h
    · next hran =>
      have hloops : c.config.sched.loops = false := (of_decide_eq_true hran.2).2
      split at h
      · next hresolver =>
        obtain rfl := Option.some.inj h
        exact .finished hran.1 hresolver hloops
      · next hresolver =>
        obtain ⟨r', hclose, rfl⟩ := Option.map_eq_some_iff.mp h
        exact .closed hran.1 hresolver hloops hclose
    · cases h
  | join =>
    simp only [step] at h
    split at h
    · next hstage hresolver =>
      obtain ⟨r', hjoin, rfl⟩ := Option.map_eq_some_iff.mp h
      exact .joined hstage hresolver hjoin
    · cases h
  | unwind =>
    simp only [step] at h
    split at h
    · next hstage =>
      split at h
      · next hresolver =>
        obtain rfl := Option.some.inj h
        exact .unwound hstage hresolver
      · next hresolver =>
        obtain ⟨r', hdestroy, rfl⟩ := Option.map_eq_some_iff.mp h
        exact .destroyed hstage hresolver hdestroy
    · cases h

end Collector

end NixEvalJobs
