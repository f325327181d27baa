import NixEvalJobs.Scheduler.Handlers
import NixEvalJobs.Lib.Transition

/-!
# Scheduler — the event system

The event loop, cut into the events its environment decides: where a dispatch
pass stands, which line or end-of-file is read next, when memory is sampled.
Between two passes the events come in any order, which covers every order in
which `poll` may report them.

* `run_reachable` — every state that the loop of `run` passes through is a
  reachable state of the system.
-/

namespace NixEvalJobs

/-- A dispatch pass in progress: the slot whose turn it is and `spawnable`. -/
structure Pass where
  idx : Nat
  spawnable : Nat

/-- The scheduler, and the dispatch pass it is in the middle of, if any. -/
structure Config (n : Nat) where
  sched : Scheduler n
  pass : Option Pass

/-- What the environment decides next: the answers of the system calls in a turn, a sample,
a line or an EOF of a worker. -/
inductive Event (n : Nat) where
  | beginDispatch
  | slot (env : Scheduler.SlotEnv)
  | endDispatch
  | sample (own : UInt64) (rss : Fin n → UInt64)
  | line (idx : Fin n) (line : Str) (rss : UInt64)
  | eof (idx : Fin n) (wait : Wait)

namespace Scheduler

variable {n : Nat} (X : Externals)

/-- Lets a handler run; an exception ends the run. -/
def settle (handled : Except Error (Scheduler n)) : Option (Config n) :=
  match handled with
  | .ok s => some ⟨s, none⟩
  | .error _ => none

/-- The slot of a pass whose turn it is. -/
def turn (s : Scheduler n) (pass : Pass) (env : SlotEnv) : Option (Config n) :=
  if h : pass.idx < n then
    match s.dispatchSlot X pass.spawnable ⟨pass.idx, h⟩ env with
    | .ok (spawnable, s) => some ⟨s, some ⟨pass.idx + 1, spawnable⟩⟩
    | .error _ => none
  else none

/-- One event. A handler that throws ends the run, so there is no state after it; lines and
EOFs come from slots that have a process only. -/
def step : Config n → Event n → Option (Config n)
  | ⟨s, none⟩, .beginDispatch =>
    if s.loops then some ⟨s.beginDispatch, some ⟨0, s.beginDispatch.spawnable⟩⟩ else none
  | ⟨s, some pass⟩, .slot env => s.turn X pass env
  | ⟨s, some pass⟩, .endDispatch => if pass.idx = n then some ⟨s, none⟩ else none
  | ⟨s, none⟩, .sample own rss => settle (s.sampleMemory own rss)
  | ⟨s, none⟩, .line idx line rss =>
    if (s.workers idx).proc.isSome then settle (s.onLine X idx line rss) else none
  | ⟨s, none⟩, .eof idx wait =>
    if (s.workers idx).proc.isSome then settle (s.onEof X idx wait) else none
  | _, _ => none

/-- The scheduler as a system whose environment may do anything. -/
def system (nrWorkers maxMemorySize : UInt64) (cacheStatusResolver : Bool) :
    System (Config n) (Event n) where
  init := ⟨init n nrWorkers maxMemorySize cacheStatusResolver, none⟩
  step := step X

end Scheduler

/-! ## Concrete runs -/

/-- The root is an attribute set with two attributes. -/
def rootResponse : Response where
  attr := []
  attrPath := []
  payload := .attrs [lit "a", lit "b"]

/-- The value the root's line parses to. -/
def rootJson : Json := rootResponse.toJson StorePaths.plain

namespace Event

/-- A dispatch pass in which every call succeeds. -/
def calmPass (n : Nat) : List (Event n) :=
  .beginDispatch :: (List.replicate n (.slot {}) ++ [.endDispatch])

/-- The end-of-file of a worker that died of SIGKILL. -/
def killedEof {n : Nat} (idx : Fin n) : Event n := .eof idx ⟨.status (.signaled sigkill), none⟩

/-- The first worker starts and answers for the root, the second one starts, the
first one evaluates `a`. -/
def rootRun : List (Event 2) :=
  calmPass 2 ++ [Event.line 0 msgNext 300] ++ calmPass 2 ++
    [Event.line 0 (rootJson.plainDump.getD []) 300, .line 0 msgNext 300] ++ calmPass 2

end Event

/-! ## The loop of `run` as events -/

namespace Scheduler

variable {n : Nat} {X : Externals} {nrWorkers maxMemorySize : UInt64} {resolver : Bool}

/-- Reachable in the system with no promise about its environment. -/
abbrev Visits (X : Externals) (nrWorkers maxMemorySize : UInt64) (resolver : Bool)
    (c : Config n) : Prop :=
  (system X nrWorkers maxMemorySize resolver).Reachable System.anyEnv c

/-- The slots that a pass has still to visit. -/
theorem drop_finRange {k : Nat} {idx : Fin n} {slots : List (Fin n)}
    (h : idx :: slots = (List.finRange n).drop k) :
    ∃ hlt : k < n, idx = ⟨k, hlt⟩ ∧ slots = (List.finRange n).drop (k + 1) := by
  have hlt : k < n := by
    have hlen := congrArg List.length h
    rw [List.length_drop, List.length_finRange, List.length_cons] at hlen
    omega
  rw [List.drop_eq_getElem_cons (by simpa using hlt), List.getElem_finRange] at h
  obtain ⟨hidx, hslots⟩ := List.cons.inj h
  exact ⟨hlt, hidx, hslots⟩

/-- A turn of `dispatchSlot` is one event. -/
theorem Visits.slot {env : SlotEnv} {k spawnable spawnable' : Nat} {s s' : Scheduler n}
    (hs : Visits X nrWorkers maxMemorySize resolver ⟨s, some ⟨k, spawnable⟩⟩) (hlt : k < n)
    (hslot : s.dispatchSlot X spawnable ⟨k, hlt⟩ env = .ok (spawnable', s')) :
    Visits X nrWorkers maxMemorySize resolver ⟨s', some ⟨k + 1, spawnable'⟩⟩ := by
  refine hs.step (e := .slot env) trivial ?_
  show turn X s ⟨k, spawnable⟩ env = _
  rw [turn, dif_pos hlt, hslot]

theorem Visits.turns {env : Fin n → SlotEnv} {slots : List (Fin n)} {k spawnable : Nat}
    {s s' : Scheduler n} (hk : k ≤ n) (hslots : slots = (List.finRange n).drop k)
    (hs : Visits X nrWorkers maxMemorySize resolver ⟨s, some ⟨k, spawnable⟩⟩)
    (hrun : dispatchSlots X env slots spawnable s = .ok s') :
    Visits X nrWorkers maxMemorySize resolver ⟨s', none⟩ := by
  -- on the slots the pass has still to visit
  induction slots generalizing k spawnable s with
  | nil =>
    have hlen := congrArg List.length hslots
    rw [List.length_drop, List.length_finRange, List.length_nil] at hlen
    have hkn : k = n := by omega
    cases Except.ok.inj hrun
    exact hs.step (e := .endDispatch) trivial (if_pos hkn)
  | cons idx slots ih =>
    obtain ⟨hlt, rfl, hrest⟩ := drop_finRange hslots
    obtain ⟨⟨spawnable', m⟩, hslot, hrun⟩ := bind_eq_ok.mp hrun
    exact ih hlt hrest (hs.slot hlt hslot) hrun

/-- So a whole `dispatch` is a run of events. -/
theorem Visits.dispatch {s s' : Scheduler n} {env : Fin n → SlotEnv}
    (hs : Visits X nrWorkers maxMemorySize resolver ⟨s, none⟩) (hloops : s.loops = true)
    (h : s.dispatch X env = .ok s') : Visits X nrWorkers maxMemorySize resolver ⟨s', none⟩ :=
  Visits.turns (Nat.zero_le n) rfl (hs.step (e := .beginDispatch) trivial (if_pos hloops)) h

/-- The lines of one worker, each an event. -/
theorem Visits.readLines {idx : Fin n} {lines : List (Str × UInt64)} {s s' : Scheduler n}
    (hs : Visits X nrWorkers maxMemorySize resolver ⟨s, none⟩)
    (h : readLines X idx lines s = .ok s') :
    Visits X nrWorkers maxMemorySize resolver ⟨s', none⟩ := by
  -- on the lines; each is read only while the slot has a process
  induction lines generalizing s with
  | nil => exact Except.ok.inj h ▸ hs
  | cons line lines ih =>
    obtain ⟨line, rss⟩ := line
    rw [Scheduler.readLines] at h
    split at h
    · next hproc =>
      obtain ⟨m, hm, hrest⟩ := bind_eq_ok.mp h
      refine ih (hs.step (e := .line idx line rss) trivial ?_) hrest
      change (if _ then _ else _) = _
      rw [if_pos hproc, hm]
      rfl
    · exact Except.ok.inj h ▸ hs

/-- The lines, and the EOF if the pipe was closed. -/
theorem Visits.readWorker {idx : Fin n} {env : ReadEnv} {s s' : Scheduler n}
    (hs : Visits X nrWorkers maxMemorySize resolver ⟨s, none⟩)
    (h : s.readWorker X idx env = .ok s') :
    Visits X nrWorkers maxMemorySize resolver ⟨s', none⟩ := by
  rw [Scheduler.readWorker] at h
  split at h
  · cases h
  obtain ⟨m, hm, h⟩ := bind_eq_ok.mp h
  have hread := hs.readLines hm
  split at h
  · next heof =>
    refine hread.step (e := .eof idx env.wait) trivial ?_
    change (if _ then _ else _) = _
    rw [if_pos heof.2, h]
    rfl
  · exact Except.ok.inj h ▸ hread

/-- The workers that `poll` reported, one after the other. -/
theorem Visits.readReady {ready : Fin n → Option ReadEnv} {polled : List (Fin n)}
    {s s' : Scheduler n} (hs : Visits X nrWorkers maxMemorySize resolver ⟨s, none⟩)
    (h : readReady X ready polled s = .ok s') :
    Visits X nrWorkers maxMemorySize resolver ⟨s', none⟩ := by
  induction polled generalizing s with
  | nil => exact Except.ok.inj h ▸ hs
  | cons idx polled ih =>
    rw [Scheduler.readReady] at h
    split at h
    · obtain ⟨m, hm, hrest⟩ := bind_eq_ok.mp h
      exact ih (hs.readWorker hm) hrest
    · exact ih hs h

/-- Sampling is one event. -/
theorem Visits.sampleMemory {own : UInt64} {rss : Fin n → UInt64} {s s' : Scheduler n}
    (hs : Visits X nrWorkers maxMemorySize resolver ⟨s, none⟩)
    (h : s.sampleMemory own rss = .ok s') :
    Visits X nrWorkers maxMemorySize resolver ⟨s', none⟩ := by
  refine hs.step (e := .sample own rss) trivial ?_
  show settle (s.sampleMemory own rss) = _
  rw [h]
  rfl

/-- A whole `pollWorkers`, with or without a sample before it. -/
theorem Visits.pollWorkers {env : PollEnv n} {s s' : Scheduler n}
    (hs : Visits X nrWorkers maxMemorySize resolver ⟨s, none⟩)
    (h : s.pollWorkers X env = .ok s') :
    Visits X nrWorkers maxMemorySize resolver ⟨s', none⟩ := by
  rw [Scheduler.pollWorkers] at h
  split at h
  · next own rss _ =>
    obtain ⟨m, hm, hrest⟩ := bind_eq_ok.mp h
    exact (hs.sampleMemory hm).readReady hrest
  · exact hs.readReady h

/-- **The loop of `run` stays inside the system.** -/
theorem run_reachable {envs : List (RoundEnv n)} {s s' : Scheduler n} {ended : Bool}
    (hs : Visits X nrWorkers maxMemorySize resolver ⟨s, none⟩)
    (h : s.run X envs = .ok (s', ended)) :
    Visits X nrWorkers maxMemorySize resolver ⟨s', none⟩ ∧ (ended = true → s'.loops = false) := by
  -- on the rounds of the loop, each a pass of `dispatch` and one of `pollWorkers`
  induction envs generalizing s with
  | nil =>
    obtain ⟨rfl, rfl⟩ := Prod.mk.inj (Except.ok.inj h)
    exact ⟨hs, fun hended => by simpa using hended⟩
  | cons env envs ih =>
    rw [Scheduler.run] at h
    split at h
    · next hloops =>
      obtain ⟨m, hm, h⟩ := bind_eq_ok.mp h
      obtain ⟨m', hm', h⟩ := bind_eq_ok.mp h
      exact ih ((hs.dispatch hloops hm).pollWorkers hm') h
    · next hloops =>
      obtain ⟨rfl, rfl⟩ := Prod.mk.inj (Except.ok.inj h)
      exact ⟨hs, fun _ => by simpa using hloops⟩

end Scheduler

end NixEvalJobs
