import NixEvalJobs.Collector.System
import NixEvalJobs.Collector.Output

/-!
# Collector — the scheduler in it

The sink writes to the job map and to standard output while the scheduler runs. The
scheduler reads neither of them, so what is known of its states holds of those in the
collector, too.

* `move_withOutput` — a move can be made whatever has been written.
* `visited_of_reachable` — the scheduler of a collector is one that moves lead to.
-/

namespace NixEvalJobs

namespace Scheduler

variable {n : Nat} {X : Externals} {ok : AttrPath → Response → Json → Prop}

/-- The same scheduler, with other things written. -/
def withOutput (s : Scheduler n) (jobs : StdMap Str Json) (stdout : List Str) : Scheduler n :=
  { s with jobs, stdout }

/-- A response is recorded whatever has been written. -/
theorem recordResponse_withOutput (s : Scheduler n) (response : Response) (json : Json)
    (line : Str) (jobs : StdMap Str Json) (stdout : List Str) : ∃ jobs' stdout',
      (s.withOutput jobs stdout).recordResponse response json line =
        (s.recordResponse response json line).withOutput jobs' stdout' := by
  rw [recordResponse, recordResponse]
  split
  · exact ⟨jobs, stdout, rfl⟩
  · by_cases hresolver : s.cacheStatusResolver = true
    · rw [if_pos hresolver]
      exact ⟨jobs, stdout, if_pos hresolver⟩
    · rw [if_neg hresolver]
      exact ⟨_, _, if_neg hresolver⟩
  · exact ⟨_, _, rfl⟩

/-- A response is accepted whatever has been written. -/
theorem acceptResponse_withOutput {s m : Scheduler n} {response : Response} {json : Json}
    {line : Str} (h : s.acceptResponse response json line = .ok m) (jobs : StdMap Str Json)
    (stdout : List Str) : ∃ jobs' stdout',
      (s.withOutput jobs stdout).acceptResponse response json line =
        .ok (m.withOutput jobs' stdout') := by
  obtain ⟨hfatal, rfl⟩ := acceptResponse_ok_iff.mp h
  obtain ⟨jobs', stdout', hrecord⟩ := recordResponse_withOutput s response json line jobs stdout
  exact ⟨jobs', stdout', acceptResponse_ok_iff.mpr ⟨hfatal, hrecord⟩⟩

/-- A move can be made whatever has been written. -/
theorem move_withOutput {a b : Snapshot n} (hm : Move X ok a b) (jobs : StdMap Str Json)
    (stdout : List Str) : ∃ jobs' stdout', Move X ok
      ⟨a.sched.withOutput jobs stdout, a.spawnable⟩
      ⟨b.sched.withOutput jobs' stdout', b.spawnable⟩ := by
  cases hm with
  | enterSolo hmode hsolo hrunning => exact ⟨jobs, stdout, .enterSolo hmode hsolo hrunning⟩
  | beginPass hdrained => exact ⟨jobs, stdout, .beginPass hdrained⟩
  | endPass => exact ⟨jobs, stdout, .endPass⟩
  | sendExit hidle hfinished => exact ⟨jobs, stdout, .sendExit hidle hfinished⟩
  | takeSolo hidle hrunning hmode hlast =>
    exact ⟨jobs, stdout, .takeSolo hidle hrunning hmode hlast⟩
  | takeTodo hidle hmode hsolo hfits hfirst =>
    exact ⟨jobs, stdout, .takeTodo hidle hmode hsolo hfits hfirst⟩
  | spawn hnone hwork => exact ⟨jobs, stdout, .spawn hnone hwork⟩
  | started hphase => exact ⟨jobs, stdout, .started hphase⟩
  | restarted hphase => exact ⟨jobs, stdout, .restarted hphase⟩
  | @finish s m i response json line rss hbusy hok haccept =>
    obtain ⟨jobs', stdout', haccept'⟩ := acceptResponse_withOutput haccept jobs stdout
    exact ⟨jobs', stdout', .finish (s := s.withOutput jobs stdout) hbusy hok haccept'⟩
  | exited hphase => exact ⟨jobs, stdout, .exited hphase⟩
  | lost hphase hproc hrunning => exact ⟨jobs, stdout, .lost hphase hproc hrunning⟩
  | requeue hholds hmode => exact ⟨jobs, stdout, .requeue hholds hmode⟩
  | @giveUp s p i path dumped hholds hmode =>
    -- the error of the budget is written like any other
    exact ⟨_, _, @Move.giveUp _ X ok (s.withOutput jobs stdout) p i path dumped hholds hmode⟩
  | sample => exact ⟨jobs, stdout, .sample⟩
  | evict hbusy => exact ⟨jobs, stdout, .evict hbusy⟩

theorem moves_withOutput {a b : Snapshot n} (h : Relation.ReflTransGen (Move X ok) a b)
    (jobs : StdMap Str Json) (stdout : List Str) : ∃ jobs' stdout',
      Relation.ReflTransGen (Move X ok) ⟨a.sched.withOutput jobs stdout, a.spawnable⟩
        ⟨b.sched.withOutput jobs' stdout', b.spawnable⟩ := by
  induction h with
  | refl => exact ⟨jobs, stdout, .refl⟩
  | tail _ hmove ih =>
    obtain ⟨jobs', stdout', hmoves⟩ := ih
    obtain ⟨jobs'', stdout'', hmove'⟩ := move_withOutput hmove jobs' stdout'
    exact ⟨jobs'', stdout'', hmoves.tail hmove'⟩

end Scheduler

namespace Collector

variable {n : Nat} {X : Externals} {f : AttrPath → Payload} {c c' : Collector n}
  {nrWorkers maxMemorySize : UInt64} {checkCacheStatus : Bool}

/-- Moves lead to the scheduler, apart from what has been written. -/
def Scheduled (X : Externals) (f : AttrPath → Payload) (nrWorkers maxMemorySize : UInt64)
    (checkCacheStatus : Bool) (c : Collector n) : Prop :=
  ∃ jobs stdout, Scheduler.Visited X (Scheduler.Decoded X f) nrWorkers maxMemorySize
    checkCacheStatus ⟨c.config.sched.withOutput jobs stdout, c.config.snapshot.spawnable⟩

/-- Whatever else happens only writes. -/
theorem written_of_steps {e : Event n} (h : Steps X c e c') (hother : ∀ e', e ≠ .scheduler e') :
    ∃ jobs stdout, c'.config.sched = c.config.sched.withOutput jobs stdout ∧
      c'.config.pass = c.config.pass := by
  cases h with
  | scheduled | pushed => exact absurd rfl (hother _)
  | fatal | moved | sunk | threw | printed | finished | closed | joined | unwound | destroyed =>
    exact ⟨_, _, rfl, rfl⟩

theorem Scheduled.written (h : Scheduled X f nrWorkers maxMemorySize checkCacheStatus c)
    {jobs : StdMap Str Json} {stdout : List Str}
    (hsched : c'.config.sched = c.config.sched.withOutput jobs stdout)
    (hpass : c'.config.pass = c.config.pass) :
    Scheduled X f nrWorkers maxMemorySize checkCacheStatus c' := by
  obtain ⟨jobs', stdout', hvisited⟩ := h
  refine ⟨jobs', stdout', ?_⟩
  unfold Config.snapshot at hvisited ⊢
  rw [hsched, hpass]
  exact hvisited

/-- The step of the scheduler, as it is by itself. -/
theorem config_of_schedule {e : NixEvalJobs.Event n} (h : Steps X c (.scheduler e) c') :
    Scheduler.step X c.config e = some c'.config := by
  cases h with
  | scheduled _ _ hstep => exact hstep
  | pushed _ _ hstep _ => exact hstep

theorem Scheduled.schedule (h : Scheduled X f nrWorkers maxMemorySize checkCacheStatus c)
    {e : NixEvalJobs.Event n} (hreplies : Scheduler.Replies X f c.config e)
    (hstep : Scheduler.step X c.config e = some c'.config) :
    Scheduled X f nrWorkers maxMemorySize checkCacheStatus c' := by
  obtain ⟨jobs, stdout, hvisited⟩ := h
  have hanswered := Scheduler.decoded_of_answers c.config e (Scheduler.answers_of_replies hreplies)
  obtain ⟨jobs', stdout', hmoves⟩ :=
    Scheduler.moves_withOutput (Scheduler.step_moves hanswered hstep) jobs stdout
  exact ⟨jobs', stdout', hvisited.moves hmoves⟩

/-- **The scheduler of a collector** is one that moves lead to. -/
theorem visited_of_reachable {rely : Collector n → Event n → Prop}
    (hrely : ∀ c e, rely c (.scheduler e) → Scheduler.Replies X f c.config e)
    (h : (system X nrWorkers maxMemorySize checkCacheStatus).Reachable rely c) :
    Scheduled X f nrWorkers maxMemorySize checkCacheStatus c := by
  refine h.invariant (I := Scheduled X f nrWorkers maxMemorySize checkCacheStatus)
    ⟨∅, [], .init⟩ ?_
  intro c c' e _ hscheduled hserves hstep
  have hsteps := step_steps hstep
  match e with
  | .scheduler e => exact hscheduled.schedule (hrely _ _ hserves) (config_of_schedule hsteps)
  | .fatal _ _ | .thread _ | .print | .finish | .join | .unwind =>
    obtain ⟨jobs, stdout, hsched, hpass⟩ := written_of_steps hsteps (by simp)
    exact hscheduled.written hsched hpass

end Collector

end NixEvalJobs
