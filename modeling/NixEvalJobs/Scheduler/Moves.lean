import NixEvalJobs.Scheduler.System

/-!
# Scheduler — moves

The state machine behind the handlers, in the vocabulary of `spec/scheduler.qnt`:
each move has a guard and changes the state in one way. Every event of the
system is a sequence of moves (`Visited.of_reachable`), so a property of all
moves is a property of all runs. Which slot a pass has reached does not matter
for that, only how many workers it may still spawn.

A move that processes a response carries the relation `ok` between the path the
slot holds and what was decoded; it stands for what the workers promise.
-/

namespace NixEvalJobs

/-- A configuration without the position of its pass. -/
structure Snapshot (n : Nat) where
  sched : Scheduler n
  spawnable : Option Nat

/-- The configuration without the position of its pass. -/
def Config.snapshot {n : Nat} (c : Config n) : Snapshot n :=
  ⟨c.sched, c.pass.map Pass.spawnable⟩

namespace Scheduler

variable {n : Nat}

/-- What can happen to a snapshot. The first seven are parts of a pass, the others are answers
to the operating system. -/
inductive Move (X : Externals) (ok : AttrPath → Response → Json → Prop) :
    Snapshot n → Snapshot n → Prop where
  /-- `dispatch` enters Solo mode before its loop. -/
  | enterSolo {s : Scheduler n} : s.mode = .parallel → s.solo ≠ [] → s.running = 0 →
      Move X ok ⟨s, none⟩ ⟨s.enterSolo, none⟩
  /-- It counts the workers it may spawn, and goes through the slots. -/
  | beginPass {s : Scheduler n} : (s.mode = .parallel → s.solo ≠ [] → s.running ≠ 0) →
      Move X ok ⟨s, none⟩ ⟨s, some s.spawnable⟩
  /-- The loop over the slots is done. -/
  | endPass {s : Scheduler n} {k : Nat} : Move X ok ⟨s, some k⟩ ⟨s, none⟩
  /-- An idle worker is told to exit. -/
  | sendExit {s : Scheduler n} {k : Nat} {i : Fin n} :
      (s.workers i).phase = .idle → s.finished = true →
      Move X ok ⟨s, some k⟩
        ⟨(s.setWorker i { s.workers i with phase := .exiting }).record (.toldExit i), some k⟩
  /-- An idle worker gets the last job of `solo`. -/
  | takeSolo {s : Scheduler n} {k : Nat} {i : Fin n} {path : AttrPath} :
      (s.workers i).phase = .idle → s.running = 0 → s.mode = .solo →
      s.solo.getLast? = some path →
      Move X ok ⟨s, some k⟩
        ⟨(startJob { s with solo := s.solo.dropLast } i).handOut i path .solo, some k⟩
  /-- An idle worker gets the first job of `todo`. -/
  | takeTodo {s : Scheduler n} {k : Nat} {i : Fin n} {path : AttrPath} {own : UInt64} :
      (s.workers i).phase = .idle → s.mode = .parallel → s.solo = [] →
      s.fitsBudget own = true → StdSet.first s.todo = some path →
      Move X ok ⟨s, some k⟩
        ⟨(startJob { s with todo := s.todo.erase path } i).handOut i path (.todo (s.admits own)),
          some k⟩
  /-- An empty slot gets a process. -/
  | spawn {s : Scheduler n} {k : Nat} {i : Fin n} {proc : Proc} {rss : UInt64} :
      (s.workers i).phase = .none → s.finished = false →
      Move X ok ⟨s, some (k + 1)⟩
        ⟨(s.setWorker i (({ s.workers i with proc := some proc, phase := .starting } :
          Worker).sampleRss rss)).record (.spawned i), some k⟩
  /-- A starting worker says `next`. -/
  | started {s : Scheduler n} {i : Fin n} : (s.workers i).phase = .starting →
      Move X ok ⟨s, none⟩ ⟨s.setWorker i { s.workers i with phase := .idle }, none⟩
  /-- A starting worker says `restart`. -/
  | restarted {s : Scheduler n} {i : Fin n} : (s.workers i).phase = .starting →
      Move X ok ⟨s, none⟩ ⟨s.resetWorker i, none⟩
  /-- A busy worker has answered. -/
  | finish {s m : Scheduler n} {i : Fin n} {response : Response} {json : Json} {line : Str}
      {rss : UInt64} : (s.workers i).phase = .busy →
      (∀ path, (s.workers i).attrPath = some path → ok path response json) →
      s.acceptResponse response json line = .ok m →
      Move X ok ⟨s, none⟩ ⟨(m.record (.responded response json)).jobFinished i rss, none⟩
  /-- The pipe of an exiting worker is closed. -/
  | exited {s : Scheduler n} {p : Option Nat} {i : Fin n} : (s.workers i).phase = .exiting →
      Move X ok ⟨s, p⟩ ⟨s.resetWorker i, p⟩
  /-- The pipe of a worker without a job is closed. -/
  | lost {s : Scheduler n} {p : Option Nat} {i : Fin n} : (s.workers i).phase ≠ .exiting →
      (s.workers i).proc.isSome = true → (s.workers i).running = false →
      Move X ok ⟨s, p⟩ ⟨s.forgetKilled i, p⟩
  /-- The pipe of a worker with a job is closed, in Parallel mode. -/
  | requeue {s : Scheduler n} {p : Option Nat} {i : Fin n} {path : AttrPath} :
      (s.workers i).holds path = true → s.mode = .parallel →
      Move X ok ⟨s, p⟩
        ⟨({ s with solo := s.solo ++ [path] }.record (.requeued path)).forgetKilled i, p⟩
  /-- The pipe of a worker with a job is closed, in Solo mode. -/
  | giveUp {s : Scheduler n} {p : Option Nat} {i : Fin n} {path : AttrPath} {dumped : Str} :
      (s.workers i).holds path = true → s.mode = .solo →
      Move X ok ⟨s, p⟩
        ⟨((s.emitResponse (errorResponse path (budgetMessage s.budget))
          ((errorResponse path (budgetMessage s.budget)).toJson X.toStorePaths) dumped).record
          (.budgetError path)).forgetKilled i, p⟩
  /-- Memory is read. -/
  | sample {s : Scheduler n} {rss : Fin n → UInt64} :
      Move X ok ⟨s, none⟩ ⟨s.sampleWorkers rss, none⟩
  /-- The largest busy worker is killed. -/
  | evict {s : Scheduler n} {i : Fin n} : (s.workers i).phase = .busy →
      Move X ok ⟨s, none⟩ ⟨s.evict i, none⟩

/-- What a line read from a busy worker decodes to is `ok` for the path it was sent. -/
def Answered (X : Externals) (ok : AttrPath → Response → Json → Prop) :
    Config n → Event n → Prop
  | c, .line idx line _ =>
    ∀ path response json, (c.sched.workers idx).phase = .busy →
      (c.sched.workers idx).attrPath = some path →
      parseResponse X line = .ok (response, json) → ok path response json
  | _, _ => True

/-- `Answered` for one event of a concrete run. -/
def answeredCheck (X : Externals) (ok : AttrPath → Response → Json → Bool) :
    Config n → Event n → Bool
  | c, .line idx line _ =>
    match (c.sched.workers idx).attrPath, parseResponse X line with
    | some path, .ok (response, json) => ok path response json
    | _, _ => true
  | _, _ => true

/-- The check of a concrete run is enough. -/
theorem answered_of_check {X : Externals} {ok : AttrPath → Response → Json → Prop}
    {check : AttrPath → Response → Json → Bool}
    (hok : ∀ path response json, check path response json = true → ok path response json)
    (c : Config n) (e : Event n) (h : answeredCheck X check c e = true) : Answered X ok c e := by
  cases e with
  | line idx line rss =>
    intro path response json _ hpath hparse
    rw [answeredCheck, hpath, hparse] at h
    exact hok path response json h
  | _ => trivial

/-- Without a promise every event is fine. -/
theorem answered_true {X : Externals} (c : Config n) (e : Event n) :
    Answered X (fun _ _ _ => True) c e := by
  cases e with
  | line => exact fun _ _ _ _ _ _ => trivial
  | _ => trivial

/-- The snapshots that moves lead to. -/
inductive Visited (X : Externals) (ok : AttrPath → Response → Json → Prop)
    (nrWorkers maxMemorySize : UInt64) (resolver : Bool) : Snapshot n → Prop where
  /-- the state in which `Scheduler::run` starts -/
  | init : Visited X ok nrWorkers maxMemorySize resolver
      ⟨init n nrWorkers maxMemorySize resolver, none⟩
  /-- a move from a snapshot that moves lead to -/
  | move {a b : Snapshot n} : Visited X ok nrWorkers maxMemorySize resolver a → Move X ok a b →
      Visited X ok nrWorkers maxMemorySize resolver b

/-! ## What each handler can do -/

variable {X : Externals} {ok : AttrPath → Response → Json → Prop}

/-- There are two modes. -/
theorem Mode.eq_parallel {mode : Mode} (h : mode ≠ .solo) : mode = .parallel := by
  cases mode with
  | parallel => rfl
  | solo => exact absurd rfl h

/-- `takeJob` takes nothing, the last job of `solo`, or the first job of `todo`. -/
theorem takeJob_cases {s s' : Scheduler n} {i : Fin n} {own : UInt64}
    {job : Option (AttrPath × Source)} (h : s.takeJob i own = .ok (job, s')) :
    (job = none ∧ s' = s) ∨
    (∃ path, job = some (path, .solo) ∧ s.running = 0 ∧ s.mode = .solo ∧
      s.solo.getLast? = some path ∧ s' = startJob { s with solo := s.solo.dropLast } i) ∨
    (∃ path, job = some (path, .todo (s.admits own)) ∧ s.mode = .parallel ∧ s.solo = [] ∧
      s.fitsBudget own = true ∧ StdSet.first s.todo = some path ∧
      s' = startJob { s with todo := s.todo.erase path } i) := by
  rw [takeJob] at h
  split at h
  · obtain ⟨rfl, rfl⟩ := Prod.mk.inj (Except.ok.inj h)
    exact .inl ⟨rfl, rfl⟩
  next hidle =>
  split at h
  · -- the solo branch
    next hmode =>
    split at h
    · next path hlast =>
      obtain ⟨rfl, rfl⟩ := Prod.mk.inj (Except.ok.inj h)
      -- in Solo mode a running job would have returned before
      have hrunning : s.running = 0 := by
        by_contra hne
        exact hidle ⟨Nat.pos_of_ne_zero hne, .inl hmode⟩
      exact .inr (.inl ⟨path, rfl, hrunning, hmode, hlast, rfl⟩)
    · cases h
  next hmode =>
  split at h
  · -- the parallel branch, with nothing solo and room in the budget
    next hroom =>
    split at h
    · next path hmin =>
      obtain ⟨rfl, rfl⟩ := Prod.mk.inj (Except.ok.inj h)
      exact .inr (.inr ⟨path, rfl, Mode.eq_parallel hmode, hroom.1, hroom.2, hmin, rfl⟩)
    · obtain ⟨rfl, rfl⟩ := Prod.mk.inj (Except.ok.inj h)
      exact .inl ⟨rfl, rfl⟩
  · obtain ⟨rfl, rfl⟩ := Prod.mk.inj (Except.ok.inj h)
    exact .inl ⟨rfl, rfl⟩

/-- An error that could be dumped has been recorded and printed. -/
theorem emitError_ok {s s' : Scheduler n} {path : AttrPath} {msg : Str}
    (h : s.emitError X path msg = .ok s') :
    ∃ dumped, s' = s.emitResponse (errorResponse path msg)
      ((errorResponse path msg).toJson X.toStorePaths) dumped := by
  rw [emitError] at h
  split at h
  · next dumped _ => exact ⟨dumped, (Except.ok.inj h).symm⟩
  · cases h

/-- The job of a killed worker is retried alone, or given up when it was alone. -/
theorem onKilled_cases {s s' : Scheduler n} {i : Fin n} (h : s.onKilled X i = .ok s') :
    ((s.workers i).running = false ∧ s' = s.forgetKilled i) ∨
    (∃ path, (s.workers i).holds path = true ∧ s.mode = .parallel ∧
      s' = ({ s with solo := s.solo ++ [path] }.record (.requeued path)).forgetKilled i) ∨
    (∃ path dumped, (s.workers i).holds path = true ∧ s.mode = .solo ∧
      s' = ((s.emitResponse (errorResponse path (budgetMessage s.budget))
        ((errorResponse path (budgetMessage s.budget)).toJson X.toStorePaths) dumped).record
        (.budgetError path)).forgetKilled i) := by
  rw [onKilled] at h
  obtain ⟨-, -, h⟩ := bind_eq_ok.mp h
  split at h
  · -- the worker had a job, which is retried
    next hrunning =>
    split at h
    · next path hpath =>
      have hholds : (s.workers i).holds path = true := by
        simp [Worker.holds, hrunning, hpath]
      obtain ⟨m, hm, hret⟩ := bind_eq_ok.mp h
      cases hret
      rw [retryJob] at hm
      split at hm
      · -- in Solo mode there is no other retry
        next hmode =>
        obtain ⟨e, he, hret⟩ := bind_eq_ok.mp hm
        obtain ⟨dumped, rfl⟩ := emitError_ok he
        cases hret
        exact .inr (.inr ⟨path, dumped, hholds, hmode, rfl⟩)
      · next hmode =>
        cases hm
        exact .inr (.inl ⟨path, hholds, Mode.eq_parallel hmode, rfl⟩)
    · cases h
  · next hrunning =>
    cases h
    exact .inl ⟨by simpa using hrunning, rfl⟩

/-- The end of an exiting worker was asked for; any other goes on to the retry. -/
theorem onEof_cases {s s' : Scheduler n} {i : Fin n} {wait : Wait}
    (h : s.onEof X i wait = .ok s') :
    ((s.workers i).phase = .exiting ∧ s' = s.resetWorker i) ∨
    ((s.workers i).phase ≠ .exiting ∧ throwExited (doing (s.workers i)) wait = .ok () ∧
      s.onKilled X i = .ok s') := by
  rw [onEof] at h
  split at h
  · next hphase =>
    cases h
    exact .inl ⟨hphase, rfl⟩
  · next hphase =>
    split at h
    · cases h
    · obtain ⟨u, hexited, hkilled⟩ := bind_eq_ok.mp h
      exact .inr ⟨hphase, hexited, hkilled⟩

/-- Only a slot with a process is waited for. -/
theorem onEof_proc {s s' : Scheduler n} {i : Fin n} {wait : Wait}
    (hphase : (s.workers i).phase ≠ .exiting) (h : s.onEof X i wait = .ok s') :
    (s.workers i).proc.isSome = true := by
  rw [onEof, if_neg hphase] at h
  split at h
  · cases h
  · next proc hproc => rw [hproc]; rfl

/-- A closed pipe is one move. -/
theorem onEof_move {s s' : Scheduler n} {i : Fin n} {wait : Wait} {p : Option Nat}
    (h : s.onEof X i wait = .ok s') : Move X ok ⟨s, p⟩ ⟨s', p⟩ := by
  rcases onEof_cases h with ⟨hphase, rfl⟩ | ⟨hphase, -, hkilled⟩
  · exact .exited hphase
  · rcases onKilled_cases hkilled with ⟨hrunning, rfl⟩ | ⟨path, hholds, hmode, rfl⟩ |
      ⟨path, dumped, hholds, hmode, rfl⟩
    · exact .lost hphase (onEof_proc hphase h) hrunning
    · exact .requeue hholds hmode
    · exact .giveUp hholds hmode

/-- What is recorded of a response: the listed children, or what the resolver prints later,
or an entry and its line. -/
theorem recordResponse_cases (s : Scheduler n) (response : Response) (json : Json) (line : Str) :
    (∃ attrs, response.payload = .attrs attrs ∧
      s.recordResponse response json line = s.addChildren response.attrPath attrs) ∨
    ((∀ attrs, response.payload ≠ .attrs attrs) ∧
      ((s.cacheStatusResolver = true ∧
        s.recordResponse response json line = { s with pushed := s.pushed ++ [response] }) ∨
        s.recordResponse response json line = s.emitResponse response json line)) := by
  rw [recordResponse]
  split
  · next attrs hattrs => exact .inl ⟨attrs, hattrs, rfl⟩
  · next hjob =>
    refine .inr ⟨fun attrs => by rw [hjob]; simp, ?_⟩
    split
    · -- the resolver prints the job later
      next hresolver => exact .inl ⟨hresolver, rfl⟩
    · exact .inr rfl
  · next herror => exact .inr ⟨fun attrs => by rw [herror]; simp, .inr rfl⟩

/-- A response is accepted if it is no fatal error. -/
theorem acceptResponse_ok_iff {s m : Scheduler n} {response : Response} {json : Json}
    {line : Str} : s.acceptResponse response json line = .ok m ↔
      response.payload.fatalError = none ∧ s.recordResponse response json line = m := by
  rw [acceptResponse]
  split
  · next hfatal =>
    rw [hfatal]
    exact ⟨fun h => (by cases h), fun h => (by cases h.1)⟩
  · next hfatal =>
    rw [hfatal]
    exact ⟨fun h => ⟨rfl, Except.ok.inj h⟩, fun h => congrArg Except.ok h.2⟩

/-- An accepted response adds the listed children, or goes to the resolver, or is
recorded and printed. -/
theorem acceptResponse_cases {s m : Scheduler n} {response : Response} {json : Json} {line : Str}
    (h : s.acceptResponse response json line = .ok m) :
    (∃ attrs, response.payload = .attrs attrs ∧ m = s.addChildren response.attrPath attrs) ∨
    ((∀ attrs, response.payload ≠ .attrs attrs) ∧
      ((s.cacheStatusResolver = true ∧ m = { s with pushed := s.pushed ++ [response] }) ∨
        m = s.emitResponse response json line)) := by
  obtain ⟨-, rfl⟩ := acceptResponse_ok_iff.mp h
  exact recordResponse_cases s response json line

/-- Everything but the queues and the output is as before. -/
theorem acceptResponse_frame {s m : Scheduler n} {response : Response} {json : Json} {line : Str}
    (h : s.acceptResponse response json line = .ok m) :
    m.workers = s.workers ∧ m.trace = s.trace ∧ m.solo = s.solo := by
  rcases acceptResponse_cases h with ⟨attrs, -, rfl⟩ | ⟨-, ⟨-, rfl⟩ | rfl⟩ <;> exact ⟨rfl, rfl, rfl⟩

/-- A starting worker is ready or gone, a busy one has answered, and the lines of a
killed or exiting one are dropped. -/
theorem onLine_cases {s s' : Scheduler n} {i : Fin n} {line : Str} {rss : UInt64}
    (h : s.onLine X i line rss = .ok s') :
    ((s.workers i).phase = .starting ∧ line = msgNext ∧
      s' = s.setWorker i { s.workers i with phase := .idle }) ∨
    ((s.workers i).phase = .starting ∧ line = msgRestart ∧ s' = s.resetWorker i) ∨
    ((s.workers i).phase = .busy ∧ ∃ response json m,
      parseResponse X line = .ok (response, json) ∧
      s.acceptResponse response json line = .ok m ∧
      s' = (m.record (.responded response json)).jobFinished i rss) ∨
    (((s.workers i).phase = .killed ∨ (s.workers i).phase = .exiting) ∧ s' = s) := by
  rw [onLine] at h
  split at h
  · -- a starting worker
    next hphase =>
    split at h
    · next hnext => exact .inl ⟨hphase, hnext, (Except.ok.inj h).symm⟩
    · split at h
      · next hrestart => exact .inr (.inl ⟨hphase, hrestart, (Except.ok.inj h).symm⟩)
      · cases h
  · -- a busy one; every step of its branch has to succeed
    next hphase =>
    obtain ⟨⟨response, json⟩, hparse, h⟩ := bind_eq_ok.mp h
    obtain ⟨m, hm, h⟩ := bind_eq_ok.mp h
    have hs' := (Except.ok.inj h).symm
    exact .inr (.inr (.inl ⟨hphase, response, json, m, hparse, hm, hs'⟩))
  · -- a killed or exiting one
    next hphase => exact .inr (.inr (.inr ⟨.inl hphase, (Except.ok.inj h).symm⟩))
  · next hphase => exact .inr (.inr (.inr ⟨.inr hphase, (Except.ok.inj h).symm⟩))
  all_goals cases h

/-- A line is one move, or dropped. -/
theorem onLine_move {s s' : Scheduler n} {i : Fin n} {line : Str} {rss : UInt64}
    (hok : ∀ path response json, (s.workers i).phase = .busy →
      (s.workers i).attrPath = some path →
      parseResponse X line = .ok (response, json) → ok path response json)
    (h : s.onLine X i line rss = .ok s') :
    s' = s ∨ Move X ok ⟨s, none⟩ ⟨s', none⟩ := by
  rcases onLine_cases h with ⟨hphase, -, rfl⟩ | ⟨hphase, -, rfl⟩ |
    ⟨hphase, response, json, m, hparse, haccept, rfl⟩ | ⟨-, rfl⟩
  · exact .inr (.started hphase)
  · exact .inr (.restarted hphase)
  · exact .inr (.finish hphase (fun path hpath => hok path response json hphase hpath hparse)
      haccept)
  · exact .inl rfl

/-- The scan keeps busy slots only. -/
theorem foldl_largestBusy (s : Scheduler n) (slots : List (Fin n)) (victim : Option (Fin n))
    (hvictim : ∀ v ∈ victim, (s.workers v).phase = .busy) :
    ∀ v ∈ slots.foldl (fun victim idx =>
      if (s.workers idx).phase = .busy ∧
          ∀ v ∈ victim, (s.workers idx).rss > (s.workers v).rss then some idx
      else victim) victim, (s.workers v).phase = .busy := by
  induction slots generalizing victim with
  | nil => exact hvictim
  | cons idx slots ih =>
    refine ih _ fun v hv => ?_
    beta_reduce at hv
    split at hv
    · next hbusy => exact Option.mem_some.mp hv ▸ hbusy.1
    · exact hvictim v hv

/-- The victim of an eviction is busy. -/
theorem largestBusy_busy {s : Scheduler n} {v : Fin n} (h : s.largestBusy = some v) :
    (s.workers v).phase = .busy :=
  foldl_largestBusy s _ none (fun _ hv => by cases hv) v h

/-- Sampling, and over the budget evicting the largest busy worker. -/
theorem sampleMemory_cases {s s' : Scheduler n} {own : UInt64} {rss : Fin n → UInt64}
    (h : s.sampleMemory own rss = .ok s') :
    s' = s.sampleWorkers rss ∨
      ∃ v, ¬(s.sampleWorkers rss).totalRss own ≤ (s.sampleWorkers rss).budget ∧
        (s.sampleWorkers rss).largestBusy = some v ∧ s' = (s.sampleWorkers rss).evict v := by
  rw [sampleMemory] at h
  split at h
  · exact .inl (Except.ok.inj h).symm
  next hover =>
  split at h
  · exact .inl (Except.ok.inj h).symm
  · next v hv =>
    split at h
    · cases h
    · exact .inr ⟨v, hover, hv, (Except.ok.inj h).symm⟩

/-- A slot that its turn leaves alone. -/
structure Skipped (s : Scheduler n) (k : Nat) (i : Fin n) (own : UInt64) : Prop where
  exit : (s.workers i).phase = .idle → s.finished = false
  take : (s.workers i).phase = .idle → s.takeJob i own = .ok (none, s)
  spawn : (s.workers i).phase = .none → 0 < k → s.finished = true

/-- A slot's turn in a pass: it is skipped, told to exit, given a job, given a job
that comes back because the worker does not read any more, or gets a process. -/
inductive Turn (X : Externals) (s : Scheduler n) (k : Nat) (i : Fin n) (env : SlotEnv) :
    Nat → Scheduler n → Prop where
  /-- nothing is done for the slot -/
  | skip : s.Skipped k i env.own → Turn X s k i env k s
  /-- everything is finished, and the worker is idle -/
  | exit : (s.workers i).phase = .idle → s.finished = true →
      Turn X s k i env k
        ((s.setWorker i { s.workers i with phase := .exiting }).record (.toldExit i))
  /-- the line with the job is written -/
  | sent {path : AttrPath} {source : Source} {m : Scheduler n} : (s.workers i).phase = .idle →
      s.takeJob i env.own = .ok (some (path, source), m) →
      (X.dump (.ofStrings path)).isSome = true → Turn X s k i env k (m.handOut i path source)
  /-- it is not, and the slot is handled as if its pipe had closed -/
  | unsent {path : AttrPath} {source : Source} {m s' : Scheduler n} :
      (s.workers i).phase = .idle → env.sent = false →
      s.takeJob i env.own = .ok (some (path, source), m) →
      (m.handOut i path source).onEof X i env.wait = .ok s' → Turn X s k i env k s'
  /-- the slot has no process, and another one may be spawned -/
  | spawn {proc : Proc} {j : Nat} : (s.workers i).phase = .none → k = j + 1 →
      s.finished = false →
      Turn X s k i env j ((s.setWorker i (({ s.workers i with
        proc := some proc, phase := .starting } : Worker).sampleRss env.rss)).record (.spawned i))

/-- Every turn is one of the five. -/
theorem dispatchSlot_turn {s s' : Scheduler n} {k k' : Nat} {i : Fin n} {env : SlotEnv}
    (h : s.dispatchSlot X k i env = .ok (k', s')) : Turn X s k i env k' s' := by
  rw [dispatchSlot] at h
  split at h
  · -- a finished scheduler lets an idle worker go
    next hexit =>
    obtain ⟨m, hm, h⟩ := bind_eq_ok.mp h
    obtain ⟨rfl, rfl⟩ := Prod.mk.inj (Except.ok.inj h)
    rw [sendExit] at hm
    split at hm
    · cases hm
    · cases hm
      exact .exit hexit.1 hexit.2
  next hexit =>
  split at h
  · next hidle =>
    -- an idle worker gets a job, or there is none
    obtain ⟨⟨job, m⟩, htake, hrest⟩ := bind_eq_ok.mp h
    clear h
    cases job with
    | none =>
      obtain ⟨rfl, rfl⟩ := Prod.mk.inj (Except.ok.inj hrest)
      -- only the branch of `takeJob` that takes nothing returns none
      obtain ⟨-, rfl⟩ | ⟨_, hnone, -⟩ | ⟨_, hnone, -⟩ := takeJob_cases htake
      · refine .skip ⟨fun _ => ?_, fun _ => htake, fun hnone => ?_⟩
        · by_contra hf
          exact hexit ⟨hidle, by simpa using hf⟩
        · rw [hidle] at hnone
          cases hnone
      · cases hnone
      · cases hnone
    | some job =>
      obtain ⟨path, source⟩ := job
      dsimp only at hrest
      split at hrest
      · cases hrest
      · cases hrest
      · -- the path is text, so the line is sent or the worker is gone
        next dumped _ hdump _ =>
        split at hrest
        · obtain ⟨rfl, rfl⟩ := Prod.mk.inj (Except.ok.inj hrest)
          exact .sent hidle htake (by rw [hdump]; rfl)
        · next hunsent =>
          obtain ⟨e, he, hret⟩ := bind_eq_ok.mp hrest
          obtain ⟨rfl, rfl⟩ := Prod.mk.inj (Except.ok.inj hret)
          exact .unsent hidle (by simpa using hunsent) htake he
  next hidle =>
  split at h
  · next hnone =>
    obtain ⟨m, hm, h⟩ := bind_eq_ok.mp h
    obtain ⟨rfl, rfl⟩ := Prod.mk.inj (Except.ok.inj h)
    -- a slot without a process gets one
    rw [spawnWorker] at hm
    split at hm
    · cases hm
    · cases hm
      obtain ⟨j, rfl⟩ := Nat.exists_eq_add_one.mpr hnone.2.1
      exact .spawn hnone.1 rfl (by simpa using hnone.2.2)
  · next hnone =>
    obtain ⟨rfl, rfl⟩ := Prod.mk.inj (Except.ok.inj h)
    refine .skip ⟨fun hi => absurd hi hidle, fun hi => absurd hi hidle, fun hphase hk => ?_⟩
    by_contra hf
    exact hnone ⟨hphase, hk, by simpa using hf⟩

/-- A job that is taken and handed out is one move. -/
theorem takeJob_move {s m : Scheduler n} {i : Fin n} {own : UInt64} {path : AttrPath}
    {source : Source} {k : Nat} (hidle : (s.workers i).phase = .idle)
    (h : s.takeJob i own = .ok (some (path, source), m)) :
    Move X ok ⟨s, some k⟩ ⟨m.handOut i path source, some k⟩ := by
  rcases takeJob_cases h with ⟨hnone, -⟩ | ⟨p, hjob, hrunning, hmode, hlast, rfl⟩ |
    ⟨p, hjob, hmode, hsolo, hfits, hfirst, rfl⟩
  · cases hnone
  · cases hjob
    exact .takeSolo hidle hrunning hmode hlast
  · cases hjob
    exact .takeTodo hidle hmode hsolo hfits hfirst

/-- A turn is at most two moves. -/
theorem dispatchSlot_moves {s s' : Scheduler n} {k k' : Nat} {i : Fin n} {env : SlotEnv}
    (h : s.dispatchSlot X k i env = .ok (k', s')) :
    Relation.ReflTransGen (Move X ok) ⟨s, some k⟩ ⟨s', some k'⟩ := by
  cases dispatchSlot_turn h with
  | skip => exact .refl
  | exit hidle hfinished => exact .single (.sendExit hidle hfinished)
  | sent hidle htake _ => exact .single (takeJob_move hidle htake)
  | unsent hidle _ htake heof => exact .head (takeJob_move hidle htake) (.single (onEof_move heof))
  | spawn hnone hk hfinished =>
    subst hk
    exact .single (.spawn hnone hfinished)

/-- Before its loop, `dispatch` enters Solo or leaves the state alone. -/
theorem beginDispatch_moves (s : Scheduler n) :
    Relation.ReflTransGen (Move X ok) ⟨s, none⟩
      ⟨s.beginDispatch, some s.beginDispatch.spawnable⟩ := by
  rw [beginDispatch]
  split
  · next h =>
    refine .head (.enterSolo h.1 h.2.1 h.2.2) (.single (.beginPass fun hmode => ?_))
    cases hmode
  · next h => exact .single (.beginPass fun hmode hsolo hrunning => h ⟨hmode, hsolo, hrunning⟩)

/-- A handler that has returned leaves the loop outside a pass. -/
theorem settle_eq_some {handled : Except Error (Scheduler n)} {c : Config n}
    (h : settle handled = some c) : ∃ s, handled = .ok s ∧ c = ⟨s, none⟩ := by
  cases handled with
  | error e => cases h
  | ok s => exact ⟨s, rfl, (Option.some.inj h).symm⟩

/-- What has happened when an event took place. -/
inductive Steps (X : Externals) : Config n → Event n → Config n → Prop where
  /-- the loop goes round -/
  | began {s : Scheduler n} : s.loops = true →
      Steps X ⟨s, none⟩ .beginDispatch ⟨s.beginDispatch, some ⟨0, s.beginDispatch.spawnable⟩⟩
  /-- the pass reaches the next slot -/
  | turned {s s' : Scheduler n} {pass : Pass} {env : SlotEnv} {spawnable : Nat}
      (hlt : pass.idx < n) :
      s.dispatchSlot X pass.spawnable ⟨pass.idx, hlt⟩ env = .ok (spawnable, s') →
      Steps X ⟨s, some pass⟩ (.slot env) ⟨s', some ⟨pass.idx + 1, spawnable⟩⟩
  /-- the pass is over -/
  | ended {s : Scheduler n} {pass : Pass} : pass.idx = n →
      Steps X ⟨s, some pass⟩ .endDispatch ⟨s, none⟩
  /-- the timer has run out -/
  | sampled {s s' : Scheduler n} {own : UInt64} {rss : Fin n → UInt64} :
      s.sampleMemory own rss = .ok s' → Steps X ⟨s, none⟩ (.sample own rss) ⟨s', none⟩
  /-- a line from a worker -/
  | read {s s' : Scheduler n} {idx : Fin n} {line : Str} {rss : UInt64} :
      (s.workers idx).proc.isSome = true → s.onLine X idx line rss = .ok s' →
      Steps X ⟨s, none⟩ (.line idx line rss) ⟨s', none⟩
  /-- the pipe of a worker is closed -/
  | hungUp {s s' : Scheduler n} {idx : Fin n} {wait : Wait} :
      (s.workers idx).proc.isSome = true → s.onEof X idx wait = .ok s' →
      Steps X ⟨s, none⟩ (.eof idx wait) ⟨s', none⟩

/-- Every event that is possible is one of these. -/
theorem step_steps {c c' : Config n} {e : Event n} (h : step X c e = some c') :
    Steps X c e c' := by
  obtain ⟨s, pass⟩ := c
  cases pass with
  | none =>
    cases e with
    | slot | endDispatch => cases h
    | beginDispatch =>
      simp only [step] at h
      split at h
      · next hloops =>
        cases h
        exact .began hloops
      · cases h
    | sample own rss =>
      obtain ⟨s', hs', rfl⟩ := settle_eq_some h
      exact .sampled hs'
    | line idx line rss =>
      simp only [step] at h
      split at h
      · next hproc =>
        obtain ⟨s', hs', rfl⟩ := settle_eq_some h
        exact .read hproc hs'
      · cases h
    | eof idx wait =>
      simp only [step] at h
      split at h
      · next hproc =>
        obtain ⟨s', hs', rfl⟩ := settle_eq_some h
        exact .hungUp hproc hs'
      · cases h
  | some pass =>
    cases e with
    | slot env =>
      simp only [step, turn] at h
      split at h
      · next hlt =>
        split at h
        · next hslot =>
          cases h
          exact .turned hlt hslot
        · cases h
      · cases h
    | endDispatch =>
      simp only [step] at h
      split at h
      · next hend =>
        cases h
        exact .ended hend
      · cases h
    | beginDispatch | sample | line | eof => cases h

/-- **Every event is a sequence of moves.** -/
theorem step_moves {c c' : Config n} {e : Event n} (hok : Answered X ok c e)
    (h : step X c e = some c') : Relation.ReflTransGen (Move X ok) c.snapshot c'.snapshot := by
  cases step_steps h with
  | began _ => exact beginDispatch_moves _
  | turned _ hslot => exact dispatchSlot_moves hslot
  | ended _ => exact .single .endPass
  | sampled hs' =>
    -- a sample is a second move when it evicts
    rcases sampleMemory_cases hs' with rfl | ⟨v, -, hv, rfl⟩
    · exact .single .sample
    · exact .head .sample (.single (.evict (largestBusy_busy hv)))
  | read _ hs' =>
    rcases onLine_move hok hs' with rfl | hmove
    · exact .refl
    · exact .single hmove
  | hungUp _ hs' => exact .single (onEof_move hs')

/-- Several moves in a row. -/
theorem Visited.moves {nrWorkers maxMemorySize : UInt64} {resolver : Bool} {a b : Snapshot n}
    (ha : Visited X ok nrWorkers maxMemorySize resolver a)
    (hab : Relation.ReflTransGen (Move X ok) a b) :
    Visited X ok nrWorkers maxMemorySize resolver b := by
  induction hab with
  | refl => exact ha
  | tail _ hmove ih => exact .move ih hmove

/-- What runs reach, moves reach. -/
theorem Visited.of_reachable {nrWorkers maxMemorySize : UInt64} {resolver : Bool} {c : Config n}
    (h : (system X nrWorkers maxMemorySize resolver).Reachable (Answered X ok) c) :
    Visited X ok nrWorkers maxMemorySize resolver c.snapshot := by
  refine h.invariant (I := fun c => Visited X ok nrWorkers maxMemorySize resolver c.snapshot)
    .init ?_
  intro c c' e _ hvisited hok hstep
  exact hvisited.moves (step_moves hok hstep)

/-- The induction over moves, with what is already known about visited snapshots. -/
theorem Visited.invariant {nrWorkers maxMemorySize : UInt64} {resolver : Bool}
    {I : Snapshot n → Prop}
    (h₀ : I ⟨Scheduler.init n nrWorkers maxMemorySize resolver, none⟩)
    (hMove : ∀ {a b}, Visited X ok nrWorkers maxMemorySize resolver a → I a → Move X ok a b →
      I b)
    {a : Snapshot n} (h : Visited X ok nrWorkers maxMemorySize resolver a) : I a := by
  induction h with
  | init => exact h₀
  | move ha hm ih => exact hMove ha ih hm

end Scheduler

end NixEvalJobs
