import NixEvalJobs.Scheduler.Solo

/-!
# Scheduler — the event loop never gets stuck

`poll` blocks until a worker does something, so a round that leaves every live
worker idle and changes nothing would be the last one. The loop of `run` has no
such round: if there is work or a worker, a dispatch pass changes what is left
to do or leaves a slot in a phase in which its process owes an event.

The argument follows the pass slot by slot. A turn leaves the state alone, or
makes its slot owe an event, or takes a job that comes back because the worker
is gone; the last kind moves the job closer to being settled (`load`). When all
turns are skipped, the guards of the pass contradict each other.
-/

namespace NixEvalJobs

/-- A phase from which the process side owes a line or an end-of-file. -/
def Phase.owesEvent : Phase → Bool
  | .starting | .busy | .killed | .exiting => true
  | .none | .idle => false

namespace Scheduler

variable {n : Nat} {X : Externals} {nrWorkers maxMemorySize : UInt64} {resolver : Bool}

/-- How far the unfinished jobs are from being settled: a job has its first
attempt and its retry before it. -/
def load (s : Scheduler n) : Nat := 2 * s.todo.size + s.solo.length

/-- A job that a gone worker gives back has used up one attempt. -/
theorem unsent_load {s m s' : Scheduler n} {i : Fin n} {own : UInt64} {wait : Wait}
    {path : AttrPath} {source : Source}
    (htake : s.takeJob i own = .ok (some (path, source), m))
    (heof : (m.handOut i path source).onEof X i wait = .ok s') :
    s'.load < s.load ∧ ∀ j, j ≠ i → s'.workers j = s.workers j := by
  have hworker : (m.handOut i path source).workers i =
      { m.workers i with attrPath := some path, phase := .busy } := by
    simp [handOut]
  -- the slot is busy with `path`, so its end-of-file is that of a running worker
  have hkilled : (m.handOut i path source).onKilled X i = .ok s' := by
    rcases onEof_cases heof with ⟨hphase, -⟩ | ⟨-, -, hkilled⟩
    · rw [hworker] at hphase
      cases hphase
    · exact hkilled
  have hframe : ∀ j, j ≠ i → (m.handOut i path source).workers j = m.workers j := fun j hj => by
    simp [handOut, Function.update_of_ne hj]
  have hreset : ∀ (e : Scheduler n) (j : Fin n), j ≠ i →
      (e.forgetKilled i).workers j = e.workers j := fun e j hj => by
    simp [forgetKilled, resetWorker, Function.update_of_ne hj]
  rcases takeJob_cases htake with ⟨hnone, -⟩ | ⟨p, hjob, -, hmode, hlast, rfl⟩ |
    ⟨p, hjob, hmode, hsolo, -, hfirst, rfl⟩
  · cases hnone
  · cases hjob
    have hstart : ∀ j, j ≠ i → (startJob { s with solo := s.solo.dropLast } i).workers j =
        s.workers j := fun j hj => by simp [startJob, Function.update_of_ne hj]
    have hne : s.solo ≠ [] := fun hc => by simp [hc] at hlast
    have hlen := List.length_pos_of_ne_nil hne
    rcases onKilled_cases hkilled with ⟨hrunning, -⟩ | ⟨q, -, hparallel, -⟩ | ⟨q, d, -, -, rfl⟩
    · rw [hworker] at hrunning
      cases hrunning
    · exact absurd (hparallel.symm.trans hmode) (by decide)
    · refine ⟨?_, fun j hj => ?_⟩
      · change 2 * s.todo.size + s.solo.dropLast.length < 2 * s.todo.size + s.solo.length
        rw [List.length_dropLast]
        omega
      · exact (hreset _ j hj).trans ((hframe j hj).trans (hstart j hj))
  · cases hjob
    have hstart : ∀ j, j ≠ i → (startJob { s with todo := s.todo.erase path } i).workers j =
        s.workers j := fun j hj => by simp [startJob, Function.update_of_ne hj]
    have hmem := StdSet.mem_of_first hfirst
    rcases onKilled_cases hkilled with ⟨hrunning, -⟩ | ⟨q, -, -, rfl⟩ | ⟨q, d, -, hsoloMode, -⟩
    · rw [hworker] at hrunning
      cases hrunning
    · refine ⟨?_, fun j hj => ?_⟩
      · change 2 * (s.todo.erase path).size + (s.solo ++ [q]).length <
          2 * s.todo.size + s.solo.length
        have hsize := StdSet.size_erase_of_mem hmem
        rw [List.length_append, List.length_singleton]
        omega
      · exact (hreset _ j hj).trans ((hframe j hj).trans (hstart j hj))
    · exact absurd (hsoloMode.symm.trans hmode) (by decide)

theorem takeJob_frame {s m : Scheduler n} {i : Fin n} {own : UInt64} {job : AttrPath × Source}
    (htake : s.takeJob i own = .ok (some job, m)) :
    m.load ≤ s.load ∧ ∀ j, j ≠ i → m.workers j = s.workers j := by
  rcases takeJob_cases htake with ⟨hnone, -⟩ | ⟨p, -, -, -, -, rfl⟩ | ⟨p, -, -, -, -, -, rfl⟩
  · cases hnone
  · refine ⟨?_, fun j hj => by simp [startJob, Function.update_of_ne hj]⟩
    change 2 * s.todo.size + s.solo.dropLast.length ≤ 2 * s.todo.size + s.solo.length
    rw [List.length_dropLast]
    omega
  · refine ⟨?_, fun j hj => by simp [startJob, Function.update_of_ne hj]⟩
    change 2 * (s.todo.erase p).size + s.solo.length ≤ 2 * s.todo.size + s.solo.length
    have := Std.ExtTreeSet.size_erase_le (t := s.todo) (k := p)
    omega

/-- What a turn does to the load, to the other slots and to its own. -/
theorem turn_cases {s s' : Scheduler n} {k k' : Nat} {i : Fin n} {env : SlotEnv}
    (h : Turn X s k i env k' s') :
    s'.load ≤ s.load ∧ (∀ j, j ≠ i → s'.workers j = s.workers j) ∧
      ((k' = k ∧ s' = s ∧ s.Skipped k i env.own) ∨ (s'.workers i).phase.owesEvent = true ∨
        s'.load < s.load) := by
  cases h with
  | skip hskip => exact ⟨Nat.le_refl _, fun _ _ => rfl, .inl ⟨rfl, rfl, hskip⟩⟩
  | exit =>
    refine ⟨Nat.le_refl _, fun j hj => ?_, .inr (.inl ?_)⟩
    · simp [Function.update_of_ne hj]
    · simp [Phase.owesEvent]
  | @sent path source m _ htake =>
    obtain ⟨hload, hframe⟩ := takeJob_frame htake
    refine ⟨hload, fun j hj => ?_, .inr (.inl ?_)⟩
    · rw [← hframe j hj]
      simp [handOut, Function.update_of_ne hj]
    · simp [handOut, Phase.owesEvent]
  | unsent _ _ htake heof =>
    -- the worker was gone: the job is settled or waits for its retry
    obtain ⟨hload, hframe⟩ := unsent_load htake heof
    exact ⟨Nat.le_of_lt hload, hframe, .inr (.inr hload)⟩
  | spawn =>
    refine ⟨Nat.le_refl _, fun j hj => ?_, .inr (.inl ?_)⟩
    · simp [Function.update_of_ne hj]
    · simp [Phase.owesEvent, Worker.sampleRss]

theorem dispatchSlots_frame {env : Fin n → SlotEnv} {slots : List (Fin n)} {k : Nat}
    {s s' : Scheduler n} (h : dispatchSlots X env slots k s = .ok s') :
    s'.load ≤ s.load ∧ ∀ j ∉ slots, s'.workers j = s.workers j := by
  induction slots generalizing k s with
  | nil =>
    cases h
    exact ⟨Nat.le_refl _, fun _ _ => rfl⟩
  | cons i slots ih =>
    obtain ⟨⟨k', m⟩, hslot, hrest⟩ := bind_eq_ok.mp h
    obtain ⟨hload, hframe, -⟩ := turn_cases (dispatchSlot_turn hslot)
    obtain ⟨hload', hframe'⟩ := ih hrest
    refine ⟨Nat.le_trans hload' hload, fun j hj => ?_⟩
    rw [List.mem_cons, not_or] at hj
    rw [hframe' j hj.2, hframe j hj.1]

/-- A pass skips every slot, or makes one owe an event, or moves a job on. -/
theorem dispatchSlots_cases {env : Fin n → SlotEnv} {slots : List (Fin n)} {k : Nat}
    {s s' : Scheduler n} (hnodup : slots.Nodup) (h : dispatchSlots X env slots k s = .ok s') :
    (s' = s ∧ ∀ i ∈ slots, s.Skipped k i (env i).own) ∨
      (∃ i, (s'.workers i).phase.owesEvent = true) ∨ s'.load < s.load := by
  induction slots generalizing k s with
  | nil =>
    cases h
    exact .inl ⟨rfl, fun i hi => by cases hi⟩
  | cons i slots ih =>
    obtain ⟨hnotMem, hnodup⟩ := List.nodup_cons.mp hnodup
    obtain ⟨⟨k', m⟩, hslot, hrest⟩ := bind_eq_ok.mp h
    obtain ⟨-, -, hturn⟩ := turn_cases (dispatchSlot_turn hslot)
    obtain ⟨hload', hframe'⟩ := dispatchSlots_frame hrest
    rcases hturn with ⟨rfl, rfl, hskip⟩ | howes | hless
    · rcases ih hnodup hrest with ⟨hsame, hall⟩ | hrest
      · refine .inl ⟨hsame, fun j hj => ?_⟩
        rcases List.mem_cons.mp hj with rfl | hj
        · exact hskip
        · exact hall j hj
      · exact .inr hrest
    · exact .inr (.inl ⟨i, by rwa [hframe' i hnotMem]⟩)
    · exact .inr (.inr (Nat.lt_of_le_of_lt hload' hless))

/-! ## A pass that skips every slot -/

/-- With nothing running, a job that is there is taken. -/
theorem takeJob_of_idle {s : Scheduler n} {i : Fin n} {own : UInt64} (hrunning : s.running = 0)
    (hparallel : s.mode = .parallel → s.solo = [])
    (hwork : s.finished = false) : s.takeJob i own ≠ .ok (none, s) := by
  -- nothing runs, so the budget does not stop a job either
  have hbusy : s.count .busy = 0 := countSlots_eq_zero.mpr fun j => by
    have := running_eq_zero.mp hrunning j
    rw [Bool.eq_false_iff, ne_eq, Worker.running_iff, not_or] at this
    simpa using this.1
  rw [takeJob, if_neg (by rw [hrunning]; exact fun h => absurd h.1 (Nat.lt_irrefl 0))]
  split
  · next hmode =>
    split
    · intro h
      cases h
    · intro h
      cases h
  next hmode =>
  have hempty := hparallel (Mode.eq_parallel hmode)
  have hfits : s.fitsBudget own = true := by simp [fitsBudget, hbusy]
  rw [if_pos ⟨hempty, hfits⟩]
  cases hfirst : StdSet.first s.todo with
  | some path =>
    intro h
    cases h
  | none =>
    -- both queues would be empty, and the scheduler finished
    have htodo : s.todo = ∅ := Std.ExtTreeSet.isEmpty_iff.mp (StdSet.first_eq_none.mp hfirst)
    rw [finished_iff.mpr ⟨htodo, hempty, hrunning⟩] at hwork
    cases hwork

/-- Nobody alive and work to do: the pass may spawn. -/
theorem spawnable_pos {s : Scheduler n} (hdead : ∀ i, (s.workers i).phase = .none)
    (hpool : s.PoolOk) (hparallel : s.mode = .parallel → s.solo = []) (hwork : s.finished = false) :
    0 < s.spawnable := by
  have hrunning : s.running = 0 := running_eq_zero.mpr fun i => by
    simp [Worker.running, hdead i]
  have hcount : ∀ phase, phase ≠ .none → s.count phase = 0 := fun phase hphase =>
    countSlots_eq_zero.mpr fun i => by
      rw [hdead i]
      simpa using hphase.symm
  rw [spawnable]
  split
  · rw [if_neg]
    · exact Nat.one_pos
    · rw [anyWorkerAlive_eq_false.mpr fun i => (hpool i).proc.mp (hdead i)]
      decide
  · next hmode =>
    have hempty := hparallel (Mode.eq_parallel hmode)
    rw [if_pos hempty, hcount .starting (by simp), hcount .idle (by simp)]
    -- there is work, and it can only wait in `todo`
    have hne : s.todo.size ≠ 0 := by
      rw [ne_eq, ← Std.ExtTreeSet.eq_empty_iff_size_eq_zero]
      intro htodo
      rw [finished_iff.mpr ⟨htodo, hempty, hrunning⟩] at hwork
      cases hwork
    omega

/-- After its first part `dispatch` does not drain any more with nothing running. -/
theorem beginDispatch_solo {s : Scheduler n} (hrunning : s.beginDispatch.running = 0)
    (hmode : s.beginDispatch.mode = .parallel) : s.beginDispatch.solo = [] := by
  rw [beginDispatch] at hrunning hmode ⊢
  split at hmode
  · cases hmode
  · next h =>
    rw [if_neg h] at hrunning ⊢
    by_contra hsolo
    exact h ⟨hmode, hsolo, hrunning⟩

/-- The first part of `dispatch` ends no loop: entering Solo needs a job to retry. -/
theorem beginDispatch_loops {s : Scheduler n} (h : s.loops = true)
    (hfinished : s.beginDispatch.finished = true) : s.beginDispatch.anyWorkerAlive = true := by
  rw [beginDispatch] at hfinished ⊢
  split at hfinished
  · next hsolo => exact absurd (finished_iff.mp hfinished).2.1 hsolo.2.1
  · next hsame =>
    rw [if_neg hsame]
    rw [loops, hfinished] at h
    exact h

/-- A pass of a loop that goes on moves a job or leaves a slot that owes an event. -/
theorem dispatch_cases (hn : 0 < n) {s : Scheduler n} {env : Fin n → SlotEnv} {s' : Scheduler n}
    (h : (system X nrWorkers maxMemorySize resolver).Reachable System.anyEnv ⟨s, none⟩)
    (hloops : s.loops = true) (hdispatch : s.dispatch X env = .ok s') :
    (s'.todo ≠ s.todo ∨ s'.solo ≠ s.solo) ∨ ∃ i, (s'.workers i).phase.owesEvent = true := by
  have hvisited := Visited.of_reachable (h.mono fun c e _ => answered_true (X := X) c e)
  have hpool : s.beginDispatch.PoolOk := poolOk_visited (hvisited.moves (beginDispatch_moves s))
  have hqueues : s.beginDispatch.todo = s.todo ∧ s.beginDispatch.solo = s.solo := by
    rw [beginDispatch]
    split <;> exact ⟨rfl, rfl⟩
  rcases dispatchSlots_cases (List.nodup_finRange n) hdispatch with ⟨rfl, hskip⟩ | howes | hless
  · -- every slot was skipped; then no slot owes an event only if the guards fail together
    by_contra hstuck
    rw [not_or, not_exists] at hstuck
    obtain ⟨-, hquiet⟩ := hstuck
    have hphase : ∀ i, (s.beginDispatch.workers i).phase = .none ∨
        (s.beginDispatch.workers i).phase = .idle := by
      intro i
      have := hquiet i
      revert this
      cases (s.beginDispatch.workers i).phase <;> simp [Phase.owesEvent]
    have hrunning : s.beginDispatch.running = 0 := running_eq_zero.mpr fun i => by
      rcases hphase i with hi | hi <;> simp [Worker.running, hi]
    have hparallel := beginDispatch_solo hrunning
    by_cases hidle : ∃ i, (s.beginDispatch.workers i).phase = .idle
    · obtain ⟨i, hi⟩ := hidle
      have hi' := hskip i (List.mem_finRange i)
      exact takeJob_of_idle hrunning hparallel (hi'.exit hi) (hi'.take hi)
    · have hdead : ∀ i, (s.beginDispatch.workers i).phase = .none := fun i =>
        (hphase i).resolve_right fun hi => hidle ⟨i, hi⟩
      have hgone : s.beginDispatch.anyWorkerAlive = false :=
        anyWorkerAlive_eq_false.mpr fun i => (hpool i).proc.mp (hdead i)
      cases hfinished : s.beginDispatch.finished with
      | true =>
        rw [beginDispatch_loops hloops hfinished] at hgone
        cases hgone
      | false =>
        have hk := spawnable_pos hdead hpool hparallel hfinished
        have := (hskip ⟨0, hn⟩ (List.mem_finRange _)).spawn (hdead _) hk
        rw [hfinished] at this
        cases this
  · exact .inr howes
  · refine .inl ?_
    by_contra hsame
    rw [not_or, not_not, not_not] at hsame
    rw [load, load, hsame.1, hsame.2, hqueues.1, hqueues.2] at hless
    exact absurd hless (Nat.lt_irrefl _)

/-- **The event loop never gets stuck.** At the top of the loop of `run`, with at
least one slot: the loop ends, or every pass that returns changes what is left to
do or leaves a slot whose process owes an event. So a pass that does nothing
leaves no state in which every slot is idle or without a process. -/
theorem dispatch_progress (hn : 0 < n) {c : Config n}
    (h : (system X nrWorkers maxMemorySize resolver).Reachable System.anyEnv c)
    (htop : c.pass = none) :
    (c.sched.finished = true ∧ c.sched.anyWorkerAlive = false) ∨
      ∀ env s', c.sched.dispatch X env = .ok s' →
        ((s'.todo ≠ c.sched.todo ∨ s'.solo ≠ c.sched.solo) ∨
          ∃ i, (s'.workers i).phase.owesEvent = true) ∧
        ¬ (s' = c.sched ∧ ∀ i, (c.sched.workers i).phase = .none ∨
          (c.sched.workers i).phase = .idle) := by
  obtain ⟨s, pass⟩ := c
  cases htop
  cases hloops : s.loops with
  | false =>
    rw [loops, Bool.or_eq_false_iff, Bool.not_eq_false'] at hloops
    exact .inl hloops
  | true =>
    refine .inr fun env s' hdispatch => ?_
    have hcases := dispatch_cases hn h hloops hdispatch
    refine ⟨hcases, ?_⟩
    rintro ⟨rfl, hquiet⟩
    rcases hcases with (htodo | hsolo) | ⟨i, howes⟩
    · exact htodo rfl
    · exact hsolo rfl
    · change (s'.workers i).phase.owesEvent = true at howes
      rcases hquiet i with hi | hi
      · rw [show (s'.workers i).phase = .none from hi] at howes
        cases howes
      · rw [show (s'.workers i).phase = .idle from hi] at howes
        cases howes

/-- The first worker is killed while it evaluates `a`, and the second one waits for `b`. -/
def halfRun : List (Event 2) :=
  Event.rootRun ++ [Event.sample 100 ![8200, 100], .line 1 msgNext 100]

theorem halfRun_isSome :
    ((system (Externals.plain [rootJson]) 2 4096 false).run System.anyCheck
      (system (Externals.plain [rootJson]) 2 4096 false).init halfRun).isSome = true := by
  decide +kernel

/-- There is work, a killed worker and an idle one. -/
def halfEnd : Config 2 :=
  (system (Externals.plain [rootJson]) 2 4096 false).after System.anyCheck halfRun halfRun_isSome

/-- The pass that comes next hands out `b` though the end-of-file of the killed worker is
still to come. -/
theorem dispatch_progress_killed :
    (halfEnd.sched.workers 0).phase = .killed ∧ (halfEnd.sched.workers 1).phase = .idle ∧
    ∃ s', halfEnd.sched.dispatch (Externals.plain [rootJson]) (fun _ => {}) = .ok s' ∧
      ((s'.todo ≠ halfEnd.sched.todo ∨ s'.solo ≠ halfEnd.sched.solo) ∨
        ∃ i, (s'.workers i).phase.owesEvent = true) := by
  refine ⟨by decide +kernel, by decide +kernel, ?_⟩
  cases hpass : halfEnd.sched.dispatch (Externals.plain [rootJson]) (fun _ => {}) with
  | error e =>
    have hok : (halfEnd.sched.dispatch (Externals.plain [rootJson])
        (fun _ => {})).toOption.isSome = true := by decide +kernel
    rw [hpass] at hok
    cases hok
  | ok s' =>
    have hreachable := System.reachable_after (fun _ _ _ => trivial) halfRun halfRun_isSome
    rcases dispatch_progress Nat.two_pos hreachable (by decide +kernel) with ⟨hended, -⟩ | hpasses
    · have hwork : halfEnd.sched.finished = false := by decide +kernel
      exact absurd (hended.symm.trans hwork) (by decide)
    · exact ⟨s', rfl, (hpasses _ s' hpass).1⟩

end Scheduler

end NixEvalJobs
