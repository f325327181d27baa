import NixEvalJobs.Scheduler.Conservation
import NixEvalJobs.Scheduler.Eviction
import NixEvalJobs.Scheduler.Solo

/-!
# Scheduler — bounded retries

A job that is killed for memory gets one more attempt, alone. Which handler may
push a path to `solo` and which one may give it up depends on `mode`, so what is
known about a path is its history across both modes.

* `Dispatched` — how often a path was handed out, by where it is now.
* `Accounted` — which evictions a retried path and a memory-budget error go back to.
* `bounded_retries` — at most two attempts, and no error without two evictions.
-/

namespace NixEvalJobs

namespace Effect

variable {n : Nat}

/-- The effect hands out `path`. -/
def handsOut (path : AttrPath) : Effect n → Bool
  | .handedOut _ p _ _ => p = path
  | _ => false

end Effect

namespace Scheduler

variable {n : Nat} {X : Externals} {nrWorkers maxMemorySize : UInt64} {resolver : Bool}
  {ok : AttrPath → Response → Json → Prop}

/-! ## How often a path is handed out -/

/-- How often `path` was handed out. -/
def dispatches (path : AttrPath) (trace : List (Effect n)) : Nat :=
  trace.countP (Effect.handsOut path)

/-- Every job was handed out for the first time in Parallel mode and for the
second time in Solo mode. -/
def SecondInSolo : List (Effect n) → Prop
  | [] => True
  | e :: older =>
    (∀ i path source mode, e = .handedOut i path source mode →
      dispatches path older = if mode = .solo then 1 else 0) ∧ SecondInSolo older

/-- How often `path` occurs outside `todo`. -/
def attempted (s : Scheduler n) (path : AttrPath) : Nat :=
  s.solo.count path + s.holders path + settled path s.trace

/-- How often a path was handed out, by where it is. -/
structure Dispatched (s : Scheduler n) : Prop where
  fresh : ∀ path, 0 < dispatches path s.trace → 0 < s.attempted path
  retried : ∀ path ∈ s.solo, dispatches path s.trace = 1
  held : s.mode = .parallel → ∀ i path, (s.workers i).holds path = true →
    dispatches path s.trace = 1
  history : SecondInSolo s.trace

/-- One more entry of the history. -/
theorem dispatches_cons (path : AttrPath) (e : Effect n) (trace : List (Effect n)) :
    dispatches path (e :: trace) = dispatches path trace + (e.handsOut path).toNat := by
  unfold dispatches
  rw [List.countP_cons]
  cases e.handsOut path <;> rfl

/-- A place is in `todo` or somewhere else. -/
theorem places_eq (s : Scheduler n) (path : AttrPath) :
    s.places path = (s.todo.contains path).toNat + s.attempted path := by
  unfold places attempted
  omega

/-- What holds of the history holds of each of its entries. -/
theorem SecondInSolo.of_append {newer older : List (Effect n)} {i : Fin n} {path : AttrPath}
    {source : Source} {mode : Mode}
    (h : SecondInSolo (newer ++ .handedOut i path source mode :: older)) :
    dispatches path older = if mode = .solo then 1 else 0 := by
  induction newer with
  | nil => exact h.1 i path source mode rfl
  | cons e newer ih => exact ih h.2

/-- An entry that hands out nothing. -/
theorem SecondInSolo.cons {e : Effect n} {trace : List (Effect n)} (h : SecondInSolo trace)
    (he : ∀ i path source mode, e ≠ .handedOut i path source mode) : SecondInSolo (e :: trace) :=
  ⟨fun i path source mode hc => absurd hc (he i path source mode), h⟩

/-- The latest attempt is the first or the second one. -/
theorem SecondInSolo.dispatches_le {trace : List (Effect n)} (h : SecondInSolo trace)
    (path : AttrPath) : dispatches path trace ≤ 2 := by
  induction trace with
  | nil => exact Nat.zero_le 2
  | cons e older ih =>
    have hle := ih h.2
    rw [dispatches_cons]
    match e with
    | .handedOut i p source mode =>
      -- this attempt is of the path, and was preceded by none or by one
      by_cases hp : p = path
      · subst hp
        have holder := h.1 i p source mode rfl
        have hone : (Effect.handsOut p (.handedOut i p source mode)).toNat ≤ 1 := Bool.toNat_le _
        split at holder <;> omega
      · have hother : Effect.handsOut path (.handedOut i p source mode) = false := by
          simp [Effect.handsOut, hp]
        rw [hother]
        exact hle
    | .enteredSolo | .spawned _ | .toldExit _ | .evicted _ | .responded _ _ | .requeued _
    | .budgetError _ => exact hle

/-! ### Moves -/

/-- A discovered path gets into `todo` when it is discovered, not later. -/
theorem todo_of_move {a b : Snapshot n}
    (hok : ∀ path response json, ok path response json → Echo path response json)
    (hpool : a.sched.PoolOk) (h : a.sched.Conserved) (hm : Move X ok a b) {q : AttrPath}
    (hdisc : discovered q a.sched.trace = true) (hq : b.sched.todo.contains q = true) :
    a.sched.todo.contains q = true := by
  cases hm with
  | takeTodo =>
    have hmem := Std.ExtTreeSet.mem_iff_contains.mpr hq
    exact Std.ExtTreeSet.mem_iff_contains.mp (Std.ExtTreeSet.mem_of_mem_erase hmem)
  | @finish s m i response json line rss hbusy hecho haccept =>
    have hrunning : (s.workers i).running = true := Worker.running_iff.mpr (.inl hbusy)
    obtain ⟨path, hpath⟩ := (hpool i).path hrunning
    have hsame : response.attrPath = path := hok path response json (hecho path hpath)
    rcases acceptResponse_cases haccept with ⟨attrs, -, rfl⟩ | ⟨-, ⟨-, rfl⟩ | rfl⟩
    · change (s.addChildren response.attrPath attrs).todo.contains q = true at hq
      rw [contains_addChildren, Bool.or_eq_true] at hq
      refine hq.resolve_right fun hany => ?_
      -- a child was discovered only after its parent was settled
      obtain ⟨attr, -, hattr⟩ := List.any_eq_true.mp hany
      rw [← of_decide_eq_true hattr, hsame] at hdisc
      have hsettled := settled_pos_of_discovered hdisc
      have hholds := Worker.holds_iff.mpr ⟨.inl hbusy, hpath⟩
      have hzero := h.settled_eq_zero hholds
      omega
    · exact hq
    · exact hq
  | _ => exact hq

/-- No place outside `todo` is given up. -/
theorem attempted_le {a b : Snapshot n}
    (hok : ∀ path response json, ok path response json → Echo path response json)
    (hpool : a.sched.PoolOk) (ha : a.sched.Conserved) (hb : b.sched.Conserved)
    (hm : Move X ok a b) (q : AttrPath) : a.sched.attempted q ≤ b.sched.attempted q := by
  have hplacesA := ha q
  have hplacesB := hb q
  rw [places_eq] at hplacesA hplacesB
  have htodo := todo_of_move hok hpool ha hm (q := q)
  -- what was discovered stays discovered
  have hdisc : discovered q a.sched.trace = true → discovered q b.sched.trace = true := by
    intro hq
    rcases trace_move hm with heq | ⟨e, heq, -⟩
    · rwa [heq]
    · rw [heq, discovered_cons, hq]
      rfl
  -- a path that was not known has no place before
  cases hqa : discovered q a.sched.trace with
  | false =>
    rw [hqa] at hplacesA
    have hzero : (false : Bool).toNat = 0 := rfl
    omega
  -- a known one has exactly one place, which is not given up for `todo`
  | true =>
    rw [hdisc hqa] at hplacesB
    rw [hqa] at hplacesA
    cases hqb : b.sched.todo.contains q with
    | false =>
      rw [hqb] at hplacesB
      have hzero : (false : Bool).toNat = 0 := rfl
      omega
    | true =>
      rw [htodo hqa hqb] at hplacesA
      rw [hqb] at hplacesB
      omega

/-- Two slots that have a process are one, in Solo mode. -/
theorem parallel_of_other {a : Snapshot n} (hpool : a.sched.PoolOk)
    (halone : a.sched.mode = .solo → a.sched.Alone a.spawnable) {i j : Fin n} {q : AttrPath}
    (hi : (a.sched.workers i).proc.isSome = true) (hj : (a.sched.workers j).holds q = true)
    (hne : j ≠ i) : a.sched.mode = .parallel := by
  refine Mode.eq_parallel fun hsolo => hne ?_
  refine (halone hsolo).one j i ?_ hi
  exact (hpool j).isSome_of_running (Worker.running_iff.mpr (Worker.holds_iff.mp hj).1)

/-- After the slot `i` has stopped, only the others hold something. -/
theorem holds_of_update {s : Scheduler n} {i j : Fin n} {w : Worker} {q : AttrPath}
    (hw : w.running = false) (h : (Function.update s.workers i w j).holds q = true) :
    j ≠ i ∧ (s.workers j).holds q = true := by
  by_cases hj : j = i
  · subst hj
    rw [Function.update_self, holds_of_not_running hw] at h
    exact absurd h (by decide)
  · rw [Function.update_of_ne hj] at h
    exact ⟨hj, h⟩

/-- A path that waits in `todo` is nowhere else. -/
theorem Conserved.attempted_eq_zero {s : Scheduler n} (h : s.Conserved) {path : AttrPath}
    (hmem : path ∈ s.todo) : s.attempted path = 0 := by
  have hpath := h path
  have htodo : s.todo.contains path = true := Std.ExtTreeSet.mem_iff_contains.mp hmem
  have hle : (discovered path s.trace).toNat ≤ 1 := Bool.toNat_le _
  rw [places_eq, htodo, Bool.toNat_true] at hpath
  omega

/-- A path that is being evaluated is not waiting for a retry. -/
theorem Conserved.not_mem_solo {s : Scheduler n} (h : s.Conserved) {i : Fin n} {path : AttrPath}
    (hholds : (s.workers i).holds path = true) : path ∉ s.solo := by
  intro hmem
  have hpath := h path
  have hheld : 0 < s.holders path := countSlots_pos.mpr ⟨i, hholds⟩
  have hcount : 0 < s.solo.count path := List.count_pos_iff.mpr hmem
  have hle : (discovered path s.trace).toNat ≤ 1 := Bool.toNat_le _
  rw [places] at hpath
  omega

/-- What does not hand out a job changes only where paths are. -/
theorem Dispatched.of_frame {s s' : Scheduler n} (h : s.Dispatched)
    (hdisp : ∀ path, dispatches path s'.trace = dispatches path s.trace)
    (hattempted : ∀ path, s.attempted path ≤ s'.attempted path)
    (hsolo : ∀ path ∈ s'.solo, path ∈ s.solo ∨ dispatches path s.trace = 1)
    (hheld : s'.mode = .parallel → ∀ i path, (s'.workers i).holds path = true →
      s.mode = .parallel ∧ ∃ j, (s.workers j).holds path = true)
    (hhistory : SecondInSolo s'.trace) : s'.Dispatched := by
  refine ⟨fun path hpos => ?_, fun path hmem => ?_, fun hmode i path hholds => ?_, hhistory⟩
  · -- the paths that are somewhere still are
    rw [hdisp] at hpos
    exact Nat.lt_of_lt_of_le (h.fresh path hpos) (hattempted path)
  · rw [hdisp]
    exact (hsolo path hmem).elim (h.retried path) id
  · rw [hdisp]
    obtain ⟨hparallel, j, hj⟩ := hheld hmode i path hholds
    exact h.held hparallel j path hj

/-- A path that is held is being attempted. -/
theorem attempted_pos {s : Scheduler n} {i : Fin n} {path : AttrPath}
    (h : (s.workers i).holds path = true) : 0 < s.attempted path := by
  have hheld : 0 < s.holders path := countSlots_pos.mpr ⟨i, h⟩
  unfold attempted
  omega

/-- When no slot holds `path` and one gets it, what is held is `path` or was held before. -/
theorem held_of_handOut {s : Scheduler n} {i j : Fin n} {w : Worker} {path q : AttrPath}
    (hw : w.holds path = true) (hfree : ∀ j, (s.workers j).holds path = false)
    (hq : (Function.update s.workers i w j).holds q = true) :
    q = path ∨ q ≠ path ∧ (s.workers j).holds q = true := by
  by_cases hj : j = i
  · subst hj
    rw [Function.update_self] at hq
    have hsame := (Worker.holds_iff.mp hq).2.symm.trans (Worker.holds_iff.mp hw).2
    exact .inl (Option.some.inj hsame)
  · rw [Function.update_of_ne hj] at hq
    refine .inr ⟨fun hc => ?_, hq⟩
    rw [hc, hfree j] at hq
    cases hq

/-- A path that is handed out now has the attempts of its history and this one. -/
theorem dispatched_handOut {s s' : Scheduler n} {i : Fin n} {w : Worker} {path : AttrPath}
    {source : Source} (h : s.Dispatched) (hconserved : s'.Conserved) (hmode : s'.mode = s.mode)
    (htrace : s'.trace = .handedOut i path source s.mode :: s.trace)
    (hworkers : s'.workers = Function.update s.workers i w) (hw : w.holds path = true)
    (hfirst : dispatches path s.trace = if s.mode = .solo then 1 else 0)
    (hattempted : ∀ q, s.attempted q ≤ s'.attempted q) (hsolo : ∀ q ∈ s'.solo, q ∈ s.solo)
    (hfree : ∀ j, (s.workers j).holds path = false) : s'.Dispatched := by
  have hnow : (s'.workers i).holds path = true := by
    rw [hworkers, Function.update_self]
    exact hw
  -- only `path` gets one more attempt
  have hdisp : ∀ q, dispatches q s'.trace = dispatches q s.trace + (decide (path = q)).toNat := by
    intro q
    rw [htrace, dispatches_cons]
    rfl
  have hother : ∀ q, q ≠ path → dispatches q s'.trace = dispatches q s.trace := by
    intro q hq
    rw [hdisp, decide_eq_false fun hc => hq hc.symm]
    rfl
  -- its own count is that of its history, all the others are as they were
  refine ⟨fun q hpos => ?_, fun q hmem => ?_, fun hparallel j q hholds => ?_, ?_⟩
  · by_cases hq : q = path
    · rw [hq]
      exact attempted_pos hnow
    · rw [hother q hq] at hpos
      exact Nat.lt_of_lt_of_le (h.fresh q hpos) (hattempted q)
  · -- it is held now, so nothing of it waits for a retry
    have hne : q ≠ path := fun hc => hconserved.not_mem_solo hnow (hc ▸ hmem)
    rw [hother q hne]
    exact h.retried q (hsolo q hmem)
  · rw [hmode] at hparallel
    rw [hworkers] at hholds
    rcases held_of_handOut hw hfree hholds with rfl | ⟨hne, hold⟩
    · rw [hdisp, hfirst, hparallel]
      simp
    · rw [hother q hne]
      exact h.held hparallel j q hold
  · rw [htrace]
    refine ⟨fun i' path' source' mode' he => ?_, h.history⟩
    injection he with _ hp _ hm
    rw [← hp, ← hm]
    exact hfirst

/-- After a slot has stopped, what is held was held before by another one. -/
theorem held_of_update (s : Scheduler n) {s' : Scheduler n} {i j : Fin n} {w : Worker}
    {q : AttrPath} (hworkers : s'.workers = Function.update s.workers i w)
    (hw : w.running = false)
    (hmode : j ≠ i → (s.workers j).holds q = true → s.mode = .parallel)
    (hholds : (s'.workers j).holds q = true) :
    s.mode = .parallel ∧ ∃ j, (s.workers j).holds q = true := by
  rw [hworkers] at hholds
  obtain ⟨hne, hold⟩ := holds_of_update hw hholds
  exact ⟨hmode hne hold, j, hold⟩

/-- **No move hands out a path too often.** -/
theorem dispatched_move {a b : Snapshot n}
    (hok : ∀ path response json, ok path response json → Echo path response json)
    (hpool : a.sched.PoolOk) (hca : a.sched.Conserved) (hcb : b.sched.Conserved)
    (halone : a.sched.mode = .solo → a.sched.Alone a.spawnable)
    (h : a.sched.Dispatched) (hm : Move X ok a b) : b.sched.Dispatched := by
  have hle := attempted_le hok hpool hca hcb hm
  have hother : ∀ {i j q}, (a.sched.workers i).proc.isSome = true →
      (a.sched.workers j).holds q = true → j ≠ i → a.sched.mode = .parallel :=
    fun hi hj hne => parallel_of_other hpool halone hi hj hne
  -- an effect that hands out nothing
  have hdisp : ∀ {e : Effect n} {trace : List (Effect n)} (path : AttrPath),
      e.handsOut path = false → dispatches path (e :: trace) = dispatches path trace :=
    fun path he => (dispatches_cons path _ _).trans (by rw [he]; rfl)
  -- two moves hand out a path, and one puts a path to `solo`
  cases hm with
  | enterSolo =>
    refine h.of_frame (fun path => hdisp path rfl) hle (fun _ hmem => .inl hmem)
      (fun hmode => ?_) (h.history.cons (by simp))
    exact absurd hmode (by simp [enterSolo])
  | beginPass | endPass => exact h
  | @sendExit s k i hidle _ =>
    exact h.of_frame (fun path => hdisp path rfl) hle (fun _ hmem => .inl hmem)
      (fun hmode j q hq => held_of_update s rfl rfl (fun _ _ => hmode) hq)
      (h.history.cons (by simp))
  | @takeSolo s k i path hidle _ hsolo hlast =>
    have hmem := List.mem_of_getLast? hlast
    refine dispatched_handOut h hcb rfl rfl
      (handOut_startJob_workers { s with solo := s.solo.dropLast } i path .solo)
      (Worker.holds_iff.mpr ⟨.inl rfl, rfl⟩) ?_ hle (fun q hq => List.dropLast_subset _ hq)
      fun j => ?_
    · rw [if_pos hsolo]
      exact h.retried path hmem
    · -- in Solo mode nothing else runs, but the count says it too
      exact Bool.eq_false_iff.mpr fun hholds => hca.not_mem_solo hholds hmem
  -- a path in `todo` has never been handed out
  | @takeTodo s k i path own hidle hmode _ _ hfirst =>
    have hmem := StdSet.mem_of_first hfirst
    have hzero := hca.attempted_eq_zero hmem
    refine dispatched_handOut h hcb rfl rfl
      (handOut_startJob_workers { s with todo := s.todo.erase path } i path (.todo (s.admits own)))
      (Worker.holds_iff.mpr ⟨.inl rfl, rfl⟩) ?_ hle (fun q hq => hq) fun j => ?_
    · have hfresh := h.fresh path
      change dispatches path s.trace = if s.mode = .solo then 1 else 0
      change 0 < dispatches path s.trace → 0 < s.attempted path at hfresh
      change s.attempted path = 0 at hzero
      rw [if_neg (by simp [hmode])]
      omega
    · exact Bool.eq_false_iff.mpr fun hholds => absurd hzero (attempted_pos hholds).ne'
  | @spawn s k i proc rss hnone _ =>
    exact h.of_frame (fun path => hdisp path rfl) hle (fun _ hmem => .inl hmem)
      (fun hmode j q hq => held_of_update s rfl rfl (fun _ _ => hmode) hq)
      (h.history.cons (by simp))
  | @started s i | @restarted s i =>
    exact h.of_frame (fun _ => rfl) hle (fun _ hmem => .inl hmem)
      (fun hmode j q hq => held_of_update s rfl rfl (fun _ _ => hmode) hq) h.history
  | @finish s m i response json line rss hbusy hecho haccept =>
    obtain ⟨hworkers, htrace, hsolo⟩ := acceptResponse_frame haccept
    have hproc := (hpool i).isSome_of_running (Worker.running_iff.mpr (.inl hbusy))
    refine h.of_frame (fun path => ?_) hle (fun q hq => .inl ?_) (fun _ j q hq => ?_) ?_
    · exact (congrArg (dispatches path) (congrArg (_ :: ·) htrace)).trans (hdisp path rfl)
    · rw [← hsolo]
      exact hq
    · refine held_of_update s (i := i) (w := { (m.workers i).sampleRss rss with
        phase := .starting, attrPath := none }) ?_ rfl (fun hne hq => hother hproc hq hne) hq
      rw [← hworkers]
      rfl
    · change SecondInSolo (_ :: m.trace)
      rw [htrace]
      exact h.history.cons (by simp)
  | @exited s p i =>
    exact h.of_frame (fun _ => rfl) hle (fun _ hmem => .inl hmem)
      (fun hmode j q hq => held_of_update s rfl rfl (fun _ _ => hmode) hq) h.history
  | @lost s p i _ hproc _ =>
    exact h.of_frame (fun _ => rfl) hle (fun _ hmem => .inl hmem)
      (fun _ j q hq => held_of_update s rfl rfl (fun hne hq => hother hproc hq hne) hq) h.history
  -- a killed worker was in its first attempt, because the mode is Parallel
  | @requeue s p i path hholds hmode =>
    refine h.of_frame (fun path => hdisp path rfl) hle (fun q hq => ?_)
      (fun _ j q hq => held_of_update s rfl rfl (fun _ _ => hmode) hq) (h.history.cons (by simp))
    rcases List.mem_append.mp hq with hold | hnew
    · exact .inl hold
    · rw [List.mem_singleton.mp hnew]
      exact .inr (h.held hmode i path hholds)
  | @giveUp s p i path dumped hholds _ =>
    have hproc := (hpool i).isSome_of_running
      (Worker.running_iff.mpr (Worker.holds_iff.mp hholds).1)
    exact h.of_frame (fun path => hdisp path rfl) hle (fun _ hmem => .inl hmem)
      (fun _ j q hq => held_of_update s rfl rfl (fun hne hq => hother hproc hq hne) hq)
      (h.history.cons (by simp))
  | sample =>
    exact h.of_frame (fun _ => rfl) hle (fun _ hmem => .inl hmem)
      (fun hmode j q hq => ⟨hmode, j, hq⟩) h.history
  | @evict s i hbusy =>
    refine h.of_frame (fun path => hdisp path rfl) hle (fun _ hmem => .inl hmem)
      (fun hmode j q hq => ⟨hmode, j, ?_⟩) (h.history.cons (by simp))
    refine Eq.trans (apply_update_of_eq (Worker.holds q) ?_ j).symm hq
    simp [Worker.holds, Worker.running, hbusy]

/-- So it holds in every run. -/
theorem dispatched_visited {a : Snapshot n}
    (hok : ∀ path response json, ok path response json → Echo path response json)
    (h : Visited X ok nrWorkers maxMemorySize resolver a) : a.sched.Dispatched := by
  refine h.invariant (I := fun a => a.sched.Dispatched) ?_ fun hvisited ha hm => ?_
  · refine ⟨fun path hpos => ?_, fun path hmem => ?_, fun _ i path hholds => ?_, trivial⟩
    · exact absurd hpos (Nat.lt_irrefl 0)
    · exact absurd hmem List.not_mem_nil
    · exact absurd hholds (by simp [init])
  · exact dispatched_move hok (poolOk_visited hvisited) (conserved_visited hok hvisited)
      (conserved_visited hok (.move hvisited hm)) (alone_visited hvisited) ha hm

end Scheduler

/-! ## Which evictions a path goes back to -/

namespace Joint

open Scheduler

variable {n : Nat} {X : Externals} {nrWorkers maxMemorySize : UInt64} {resolver : Bool}

/-- A state and what was done in it. -/
abbrev Entry (n : Nat) : Type := Joint n × JointEvent n

/-- The entry is a memory sample that finds the total over the budget and kills the
worker of slot `v`, which evaluates `path`. -/
structure Evicts (entry : Entry n) (own : UInt64) (rss : Fin n → UInt64) (v : Fin n)
    (path : AttrPath) : Prop where
  sample : entry.2 = .collector (.sample own rss)
  overBudget : ¬(entry.1.config.sched.sampleWorkers rss).totalRss own ≤ entry.1.config.sched.budget
  victim : (entry.1.config.sched.sampleWorkers rss).largestBusy = some v
  holds : (entry.1.config.sched.workers v).holds path = true

/-- The entry kills the worker of `path` in Parallel mode. -/
def KilledInParallel (path : AttrPath) (entry : Entry n) : Prop :=
  entry.1.config.sched.mode = .parallel ∧ ∃ own rss v, Evicts entry own rss v path

/-- The entry kills the worker of `path` although it is the only process and the
only one that runs: its memory and the collector's alone are over the budget. -/
def BlamedAlone (path : AttrPath) (entry : Entry n) : Prop :=
  ∃ own rss v, Evicts entry own rss v path ∧
    (∀ i, (entry.1.config.sched.workers i).running = true → i = v) ∧
    (∀ i, (entry.1.config.sched.workers i).proc.isSome = true → i = v) ∧
    entry.1.config.sched.budget.toNat < own.toNat + (rss v).toNat

/-- `path` was killed in Parallel mode. -/
def Killed (path : AttrPath) (h : List (Entry n)) : Prop := ∃ entry ∈ h, KilledInParallel path entry

/-- `path` was killed in Parallel mode and blamed later. -/
def Blamed (path : AttrPath) (h : List (Entry n)) : Prop :=
  ∃ newer entry older, h = newer ++ entry :: older ∧ BlamedAlone path entry ∧ Killed path older

/-- The evictions behind the paths that are retried and given up. -/
structure Accounted (s : Scheduler n) (h : List (Entry n)) : Prop where
  solo : ∀ path ∈ s.solo, Killed path h
  alone : s.mode = .solo → ∀ i path, (s.workers i).holds path = true → Killed path h
  killed : ∀ i path, (s.workers i).holds path = true → (s.workers i).phase = .killed →
    Killed path h
  blamed : s.mode = .solo → ∀ i path, (s.workers i).holds path = true →
    (s.workers i).phase = .killed → Blamed path h
  errors : ∀ path, .budgetError path ∈ s.trace → Blamed path h

/-- A longer history still has the eviction. -/
theorem Killed.cons {path : AttrPath} {h : List (Entry n)} (hk : Killed path h) (entry : Entry n) :
    Killed path (entry :: h) := by
  obtain ⟨e, he, hkilled⟩ := hk
  exact ⟨e, List.mem_cons_of_mem _ he, hkilled⟩

/-- And still has the blame. -/
theorem Blamed.cons {path : AttrPath} {h : List (Entry n)} (hb : Blamed path h) (entry : Entry n) :
    Blamed path (entry :: h) := by
  obtain ⟨newer, e, older, rfl, hblamed, hkilled⟩ := hb
  exact ⟨entry :: newer, e, older, rfl, hblamed, hkilled⟩

/-- What is held was held before; what is retried or given up anew has its evictions. -/
theorem Accounted.of_frame {s s' : Scheduler n} {h : List (Entry n)} (ha : Accounted s h)
    (entry : Entry n) (hsolo : ∀ path ∈ s'.solo, path ∈ s.solo ∨ Killed path h)
    (hslots : ∀ i path, (s'.workers i).holds path = true →
      (s.workers i).holds path = true ∧ (s'.workers i).phase = (s.workers i).phase ∧
        (s'.mode = .solo → s.mode = .solo))
    (htrace : ∀ path, .budgetError path ∈ s'.trace →
      .budgetError path ∈ s.trace ∨ Blamed path h) :
    Accounted s' (entry :: h) where
  solo path hmem := ((hsolo path hmem).elim (ha.solo path) id).cons entry
  alone hmode i path hholds := by
    obtain ⟨hold, -, hm⟩ := hslots i path hholds
    exact (ha.alone (hm hmode) i path hold).cons entry
  killed i path hholds hkilled := by
    obtain ⟨hold, hphase, -⟩ := hslots i path hholds
    exact (ha.killed i path hold (hphase ▸ hkilled)).cons entry
  blamed hmode i path hholds hkilled := by
    obtain ⟨hold, hphase, hm⟩ := hslots i path hholds
    exact (ha.blamed (hm hmode) i path hold (hphase ▸ hkilled)).cons entry
  errors path hmem := ((htrace path hmem).elim (ha.errors path) id).cons entry

/-- The slot that changes holds nothing afterwards. -/
theorem Accounted.of_update {s s' : Scheduler n} {h : List (Entry n)} (ha : Accounted s h)
    (entry : Entry n) {v : Fin n} {w : Worker}
    (hworkers : s'.workers = Function.update s.workers v w) (hw : w.running = false)
    (hsolo : ∀ path ∈ s'.solo, path ∈ s.solo ∨ Killed path h)
    (hmode : s'.mode = s.mode ∨ s'.mode = .parallel)
    (htrace : ∀ path, .budgetError path ∈ s'.trace →
      .budgetError path ∈ s.trace ∨ Blamed path h) :
    Accounted s' (entry :: h) := by
  refine ha.of_frame entry hsolo (fun i path hholds => ?_) htrace
  rw [hworkers] at hholds ⊢
  obtain ⟨hne, hold⟩ := holds_of_update hw hholds
  rw [Function.update_of_ne hne]
  refine ⟨hold, rfl, fun hs => ?_⟩
  rcases hmode with hsame | hparallel
  · rwa [hsame] at hs
  · rw [hparallel] at hs
    exact absurd hs (by decide)

/-- In Solo mode only what was retried is handed out. -/
theorem Accounted.handOut {s s' : Scheduler n} {h : List (Entry n)} (ha : Accounted s h)
    (entry : Entry n) {v : Fin n} {w : Worker} {path : AttrPath}
    (hworkers : s'.workers = Function.update s.workers v w) (hbusy : w.phase = .busy)
    (hpath : w.attrPath = some path) (hsource : s.mode = .solo → path ∈ s.solo)
    (hsolo : ∀ path ∈ s'.solo, path ∈ s.solo) (hmode : s'.mode = s.mode)
    (htrace : ∀ path, .budgetError path ∈ s'.trace → .budgetError path ∈ s.trace) :
    Accounted s' (entry :: h) := by
  -- a killed worker is one of before
  have hold : ∀ i q, (s'.workers i).holds q = true → (s'.workers i).phase = .killed →
      (s.workers i).holds q = true ∧ (s.workers i).phase = .killed := by
    intro i q hholds hkilled
    rw [hworkers] at hholds hkilled
    by_cases hi : i = v
    · subst hi
      rw [Function.update_self, hbusy] at hkilled
      exact absurd hkilled (by decide)
    · rw [Function.update_of_ne hi] at hholds hkilled
      exact ⟨hholds, hkilled⟩
  refine ⟨fun q hq => (ha.solo q (hsolo q hq)).cons entry, fun hs i q hholds => ?_,
    fun i q hholds hkilled => ?_, fun hs i q hholds hkilled => ?_,
    fun q hq => (ha.errors q (htrace q hq)).cons entry⟩
  · rw [hmode] at hs
    rw [hworkers] at hholds
    by_cases hi : i = v
    · subst hi
      rw [Function.update_self] at hholds
      have hq : some path = some q := hpath.symm.trans (Worker.holds_iff.mp hholds).2
      rw [← Option.some.inj hq]
      exact (ha.solo path (hsource hs)).cons entry
    · rw [Function.update_of_ne hi] at hholds
      exact (ha.alone hs i q hholds).cons entry
  · obtain ⟨hh, hk⟩ := hold i q hholds hkilled
    exact (ha.killed i q hh hk).cons entry
  · obtain ⟨hh, hk⟩ := hold i q hholds hkilled
    rw [hmode] at hs
    exact (ha.blamed hs i q hh hk).cons entry

/-! ### Samples -/

/-- Slots without memory add nothing. -/
theorem foldl_add_zero {slots : List (Fin n)} {f : Fin n → UInt64} (h : ∀ i ∈ slots, f i = 0)
    (own : UInt64) : slots.foldl (fun sum i => sum + f i) own = own := by
  induction slots with
  | nil => rfl
  | cons i slots ih =>
    rw [List.foldl_cons, h i List.mem_cons_self, UInt64.add_zero]
    exact ih fun j hj => h j (List.mem_cons_of_mem _ hj)

/-- The total when one slot alone has memory. -/
theorem foldl_add_single {slots : List (Fin n)} {f : Fin n → UInt64} {v : Fin n}
    (hnodup : slots.Nodup) (hv : v ∈ slots) (h : ∀ i, i ≠ v → f i = 0) (own : UInt64) :
    slots.foldl (fun sum i => sum + f i) own = own + f v := by
  induction slots generalizing own with
  | nil => exact absurd hv List.not_mem_nil
  | cons i slots ih =>
    obtain ⟨hi, hrest⟩ := List.nodup_cons.mp hnodup
    rw [List.foldl_cons]
    -- the slot is the first one, or one of the others
    rcases List.mem_cons.mp hv with rfl | hmem
    · refine foldl_add_zero (fun j hj => h j fun hc => ?_) _
      subst hc
      exact hi hj
    · have hne : i ≠ v := fun hc => hi (hc ▸ hmem)
      rw [h i hne, UInt64.add_zero]
      exact ih hrest hmem own

/-- The total is that of the collector and its only worker. -/
theorem totalRss_alone {s : Scheduler n} {own : UInt64} {rss : Fin n → UInt64} {v : Fin n}
    (halone : ∀ i, (s.workers i).proc.isSome = true → i = v)
    (hv : (s.workers v).proc.isSome = true) :
    (s.sampleWorkers rss).totalRss own = own + rss v := by
  have hself : ((s.sampleWorkers rss).workers v).rss = rss v := if_pos hv
  have hother : ∀ i, i ≠ v → ((s.sampleWorkers rss).workers i).rss = 0 :=
    fun i hi => if_neg fun hc => hi (halone i hc)
  unfold totalRss
  rw [foldl_add_single (List.nodup_finRange n) (List.mem_finRange v) hother, hself]

/-- In Solo mode the victim of a sample is alone, and so is its memory. -/
theorem blamedAlone_of_evicts {j : Joint n} {e : JointEvent n} {p : Option Nat}
    (hpool : j.config.sched.PoolOk) (halone : j.config.sched.Alone p) {own : UInt64}
    {rss : Fin n → UInt64} {v : Fin n} {path : AttrPath}
    (hevicts : Evicts (j, e) own rss v path) : BlamedAlone path (j, e) := by
  have hproc : ∀ i, (j.config.sched.workers i).running = true →
      (j.config.sched.workers i).proc.isSome = true := fun i => (hpool i).isSome_of_running
  have hv := hproc v (Worker.running_iff.mpr (Worker.holds_iff.mp hevicts.holds).1)
  have honly : ∀ i, (j.config.sched.workers i).proc.isSome = true → i = v :=
    fun i hi => halone.one i v hi hv
  refine ⟨own, rss, v, hevicts, fun i hi => honly i (hproc i hi), honly, ?_⟩
  have hover := hevicts.overBudget
  rw [totalRss_alone honly hv, UInt64.le_iff_toNat_le, UInt64.toNat_add] at hover
  have hmod := Nat.mod_le (own.toNat + (rss v).toNat) (2 ^ 64)
  dsimp only at hover ⊢
  omega

/-- An eviction accounts for its victim. -/
theorem accounted_evict {j : Joint n} {h : List (Entry n)} {e : JointEvent n} {p : Option Nat}
    (ha : Accounted j.config.sched h) (hpool : j.config.sched.PoolOk)
    (halone : j.config.sched.mode = .solo → j.config.sched.Alone p) {own : UInt64}
    {rss : Fin n → UInt64} {v : Fin n} {path : AttrPath}
    (hevicts : Evicts (j, e) own rss v path) :
    Accounted ((j.config.sched.sampleWorkers rss).evict v) ((j, e) :: h) := by
  have hphase := largestBusy_busy hevicts.victim
  change (j.config.sched.workers v).phase = .busy at hphase
  -- the eviction takes no path away and gives none
  have hholds : ∀ i q, (((j.config.sched.sampleWorkers rss).evict v).workers i).holds q = true →
      (j.config.sched.workers i).holds q = true := by
    intro i q hq
    refine Eq.trans (apply_update_of_eq (f := (j.config.sched.sampleWorkers rss).workers)
      (Worker.holds q) ?_ i).symm hq
    simp [Worker.holds, Worker.running, sampleWorkers, hphase]
  -- only the victim is newly killed
  have hkilled : ∀ i, (((j.config.sched.sampleWorkers rss).evict v).workers i).phase = .killed →
      i = v ∨ (j.config.sched.workers i).phase = .killed := by
    intro i hi
    by_cases hiv : i = v
    · exact .inl hiv
    · exact .inr (by simpa [evict, Function.update_of_ne hiv, sampleWorkers] using hi)
  have hpath : ∀ q, (j.config.sched.workers v).holds q = true → path = q := fun q hq =>
    Option.some.inj ((Worker.holds_iff.mp hevicts.holds).2.symm.trans (Worker.holds_iff.mp hq).2)
  -- what was accounted for stays so; the new entry accounts for the victim
  refine ⟨fun q hq => (ha.solo q hq).cons _,
    fun hs i q hq => (ha.alone hs i q (hholds i q hq)).cons _,
    fun i q hq hk => ?_, fun hs i q hq hk => ?_, fun q hq => ?_⟩
  · -- in Parallel mode the new entry is the eviction; in Solo mode there was one before
    rcases hkilled i hk with rfl | hold
    · cases hmode : j.config.sched.mode with
      | parallel =>
        rw [← hpath q (hholds i q hq)]
        exact ⟨_, List.mem_cons_self, hmode, own, rss, i, hevicts⟩
      | solo => exact (ha.alone hmode i q (hholds i q hq)).cons _
    · exact (ha.killed i q (hholds i q hq) hold).cons _
  · -- the victim of Solo mode is blamed by the new entry
    change j.config.sched.mode = .solo at hs
    rcases hkilled i hk with rfl | hold
    · have hold := ha.alone hs i q (hholds i q hq)
      rw [← hpath q (hholds i q hq)] at hold ⊢
      exact ⟨[], (j, e), h, rfl, blamedAlone_of_evicts hpool (halone hs) hevicts, hold⟩
    · exact (ha.blamed hs i q (hholds i q hq) hold).cons _
  · have hq : .budgetError q ∈ .evicted v :: j.config.sched.trace := hq
    rcases List.mem_cons.mp hq with hc | hold
    · cases hc
    · exact (ha.errors q hold).cons _

/-! ### The end of a killed worker -/

/-- Only a worker that the collector killed dies of a signal. -/
def SignaledKilled (j : Joint n) : Prop :=
  ∀ i signal, (j.config.sched.workers i).proc.isSome = true →
    (j.procs i).status = some (.signaled signal) → (j.config.sched.workers i).phase = .killed

/-- A process dies of a signal only when its slot is killed. -/
theorem status_of_follow {p : Process} {before after : Worker} {signal : Nat}
    (h : (p.follow X before after).status = some (.signaled signal)) :
    after.phase = .killed ∨ p.status = some (.signaled signal) := by
  unfold Process.follow at h
  split at h
  · exact absurd h (by simp)
  · unfold Process.receive at h
    split at h <;> exact .inr h
  · unfold Process.receive at h
    split at h <;> exact .inr h
  · next hkilled => exact .inl hkilled
  · exact .inr h

/-- A process that ends by itself exits with status 0. -/
theorem exit_of_act {p p' : Process} {a : Act} {status : ExitStatus} (h : p.act X a = some p')
    (hstatus : p'.status = some status) : status = .exited 0 := by
  -- a process that acts has not ended, so only an act that ends it gives a status
  have hnone := Process.status_of_act h
  rw [Process.act.eq_def] at h
  split at h
  · obtain rfl := Option.some.inj h
    rw [hnone] at hstatus
    cases hstatus
  · split at h
    · next line input _ =>
      unfold Process.command at h
      split at h
      · obtain rfl := Option.some.inj h
        cases hnone.symm.trans hstatus
      · split at h
        · split at h
          · split at h
            · obtain rfl := Option.some.inj h
              cases hnone.symm.trans hstatus
            · cases h
          · cases h
        · cases h
    · cases h
  · split at h
    · obtain ⟨line, -, rfl⟩ := Option.map_eq_some_iff.mp h
      cases hnone.symm.trans hstatus
    · cases h
  · obtain rfl := Option.some.inj h
    cases hnone.symm.trans hstatus
  · -- the act that ends it returns from `main`
    obtain rfl := Option.some.inj h
    exact (Option.some.inj hstatus).symm
  · cases h

theorem signaledKilled_step {j j' : Joint n} {e : JointEvent n} (h : j.SignaledKilled)
    (hstep : j.step X e = some j') : j'.SignaledKilled := by
  intro i signal hproc hstatus
  match e with
  | .act idx a =>
    change (if _ then _ else _) = _ at hstep
    split at hstep
    · obtain ⟨p, hact, rfl⟩ := Option.map_eq_some_iff.mp hstep
      dsimp only at hstatus hproc ⊢
      -- a process that acts has not died of a signal
      by_cases hi : i = idx
      · subst hi
        rw [Function.update_self] at hstatus
        cases exit_of_act hact hstatus
      · rw [Function.update_of_ne hi] at hstatus
        exact h i signal hproc hstatus
    · cases hstep
  | .collector e =>
    obtain ⟨hsched, hprocs⟩ := step_eq_some hstep
    rw [hprocs] at hstatus
    dsimp only at hstatus
    rcases status_of_follow hstatus with hkilled | hold
    · exact hkilled
    rw [consume_status] at hold
    -- the process was killed before, so the slot is as it was, or gone
    have hbefore : ∀ {phase}, (j.config.sched.workers i).phase = phase → phase ≠ .killed →
        (j'.config.sched.workers i).proc ≠ (j.config.sched.workers i).proc := by
      intro phase hphase hne hsame
      rw [hsame] at hproc
      exact hne (hphase.symm.trans (h i signal hproc hold))
    match step_slotStep hsched i with
    | .kept hphase hsame _ _ =>
      rw [hphase]
      exact h i signal (hsame ▸ hproc) hold
    | .reset hw =>
      rw [hw] at hproc
      exact absurd hproc (by decide)
    | .spawned hnone hstarting _ =>
      rw [Process.follow, hnone, hstarting] at hstatus
      exact absurd hstatus (by simp)
    | .told hidle _ hsame => exact absurd hsame (hbefore hidle (by simp))
    | .taken hidle _ hsame _ _ => exact absurd hsame (hbefore hidle (by simp))
    | .started _ hstarting _ hsame => exact absurd hsame (hbefore hstarting (by simp))
    | .finished _ hbusy _ hsame => exact absurd hsame (hbefore hbusy (by simp))
    | .evicted _ _ _ _ hkilled _ _ => exact hkilled

/-- `throwExited` lets only a death by a signal pass. -/
theorem throwExited_ok {doing : Str} {wait : Wait} (h : throwExited doing wait = .ok ()) :
    ∃ signal, wait.result = some (.signaled signal) := by
  unfold throwExited at h
  split at h
  · cases h
  · next signal hresult => exact ⟨signal, hresult⟩
  · split at h <;> cases h

/-- What is retried or given up when its pipe closes was killed. -/
theorem accounted_onEof {s s' : Scheduler n} {h : List (Entry n)} {entry : Entry n} {v : Fin n}
    {wait : Wait} (ha : Accounted s h)
    (hkilled : ∀ signal, wait.result = some (.signaled signal) → (s.workers v).phase = .killed)
    (heof : s.onEof X v wait = .ok s') : Accounted s' (entry :: h) := by
  have hworkers := onEof_workers heof
  rcases onEof_cases heof with ⟨-, rfl⟩ | ⟨-, hexited, honKilled⟩
  · exact ha.of_update entry hworkers rfl (fun _ hq => .inl hq) (.inl rfl) fun _ hq => .inl hq
  -- only a worker that was killed by a signal gets here
  obtain ⟨signal, hresult⟩ := throwExited_ok hexited
  have hphase := hkilled signal hresult
  rcases onKilled_cases honKilled with ⟨-, rfl⟩ | ⟨path, hholds, -, rfl⟩ |
    ⟨path, dumped, hholds, hmode, rfl⟩
  · exact ha.of_update entry hworkers rfl (fun _ hq => .inl hq) (.inr rfl) fun _ hq => .inl hq
  · refine ha.of_update entry hworkers rfl (fun q hq => ?_) (.inr rfl) fun q hq => ?_
    · rcases List.mem_append.mp hq with hold | hnew
      · exact .inl hold
      · -- the path goes to `solo` because of its eviction
        rw [List.mem_singleton.mp hnew]
        exact .inr (ha.killed v path hholds hphase)
    · exact .inl ((List.mem_cons.mp hq).resolve_left (by simp))
  · refine ha.of_update entry hworkers rfl (fun _ hq => .inl hq) (.inr rfl) fun q hq => ?_
    rcases List.mem_cons.mp hq with hnew | hold
    · injection hnew with hq
      subst hq
      exact .inr (ha.blamed hmode v q hholds hphase)
    · exact .inl hold

/-- A line gives nothing up. -/
theorem accounted_onLine {s s' : Scheduler n} {h : List (Entry n)} {entry : Entry n} {v : Fin n}
    {line : Str} {rss : UInt64} (ha : Accounted s h) (hline : s.onLine X v line rss = .ok s') :
    Accounted s' (entry :: h) := by
  rcases onLine_cases hline with ⟨-, -, rfl⟩ | ⟨-, -, rfl⟩ |
    ⟨-, response, json, m, -, haccept, rfl⟩ | ⟨-, rfl⟩
  · exact ha.of_update entry rfl rfl (fun _ hq => .inl hq) (.inl rfl) fun _ hq => .inl hq
  · exact ha.of_update entry rfl rfl (fun _ hq => .inl hq) (.inl rfl) fun _ hq => .inl hq
  · obtain ⟨hworkers, htrace, hsolo⟩ := acceptResponse_frame haccept
    refine ha.of_update (v := v) (w := { (m.workers v).sampleRss rss with
      phase := .starting, attrPath := none }) entry ?_ rfl (fun q hq => .inl ?_) (.inr rfl)
      fun q hq => .inl ?_
    · rw [← hworkers]
      rfl
    · rw [← hsolo]
      exact hq
    · rw [← htrace]
      exact (List.mem_cons.mp hq).resolve_left (by simp)
  · exact ha.of_frame entry (fun _ hq => .inl hq) (fun _ _ hq => ⟨hq, rfl, id⟩) fun _ hq => .inl hq

/-- A slot's turn; the process that does not read any more was not killed. -/
theorem accounted_turn {s s' : Scheduler n} {h : List (Entry n)} {entry : Entry n} {k k' : Nat}
    {v : Fin n} {env : SlotEnv} (ha : Accounted s h)
    (hsent : env.sent = false → (s.workers v).proc.isSome = true → ∀ signal,
      env.wait.result = some (.signaled signal) → (s.workers v).phase = .killed)
    (hturn : Turn X s k v env k' s') : Accounted s' (entry :: h) := by
  cases hturn with
  | skip =>
    exact ha.of_frame entry (fun _ hq => .inl hq) (fun _ _ hq => ⟨hq, rfl, id⟩) fun _ hq => .inl hq
  | exit =>
    exact ha.of_update entry rfl rfl (fun _ hq => .inl hq) (.inl rfl)
      fun _ hq => .inl ((List.mem_cons.mp hq).resolve_left (by simp))
  | @sent path source m hidle htake _ =>
    have hworkers := takeJob_handOut_workers htake
    rcases takeJob_cases htake with ⟨hnone, -⟩ | ⟨p, hjob, -, -, hlast, rfl⟩ |
      ⟨p, hjob, hmode, -, -, -, rfl⟩
    · cases hnone
    · obtain ⟨rfl, rfl⟩ := Prod.mk.inj (Option.some.inj hjob)
      exact ha.handOut entry hworkers rfl rfl (fun _ => List.mem_of_getLast? hlast)
        (fun _ hq => List.dropLast_subset _ hq) rfl
        fun _ hq => (List.mem_cons.mp hq).resolve_left (by simp)
    · obtain ⟨rfl, rfl⟩ := Prod.mk.inj (Option.some.inj hjob)
      refine ha.handOut entry hworkers rfl rfl (fun hs => ?_) (fun _ hq => hq) rfl
        fun _ hq => (List.mem_cons.mp hq).resolve_left (by simp)
      rw [hmode] at hs
      cases hs
  | @unsent path source m s' hidle hunsent htake heof =>
    -- the end-of-file would be that of a worker that died of a signal
    have hphase : ((m.handOut v path source).workers v).phase ≠ .exiting := by
      rw [takeJob_handOut_workers htake, Function.update_self]
      simp
    obtain ⟨hc, -⟩ | ⟨-, hexited, -⟩ := onEof_cases heof
    · exact absurd hc hphase
    · obtain ⟨signal, hresult⟩ := throwExited_ok hexited
      have hproc := onEof_proc hphase heof
      rw [takeJob_handOut_workers htake, Function.update_self] at hproc
      have hkilled := hsent hunsent hproc signal hresult
      rw [hidle] at hkilled
      cases hkilled
  | spawn =>
    exact ha.of_update entry rfl rfl (fun _ hq => .inl hq) (.inl rfl)
      fun _ hq => .inl ((List.mem_cons.mp hq).resolve_left (by simp))

/-- A step without a collector event leaves the scheduler alone. -/
theorem config_of_act {j j' : Joint n} {idx : Fin n} {a : Act}
    (h : j.step X (.act idx a) = some j') : j'.config = j.config := by
  change (if _ then _ else _) = _ at h
  split at h
  · obtain ⟨p, -, rfl⟩ := Option.map_eq_some_iff.mp h
    rfl
  · cases h

theorem accounted_step {j j' : Joint n} {h : List (Entry n)} {e : JointEvent n}
    (ha : Accounted j.config.sched h) (hsignal : j.SignaledKilled)
    (hpool : j.config.sched.PoolOk) {p : Option Nat}
    (halone : j.config.sched.mode = .solo → j.config.sched.Alone p)
    (hstep : j.step X e = some j') : Accounted j'.config.sched ((j, e) :: h) := by
  -- a step of a worker and a turn that changes nothing only make the history longer
  have hsame : Accounted j.config.sched ((j, e) :: h) :=
    ha.of_frame _ (fun _ hq => .inl hq) (fun _ _ hq => ⟨hq, rfl, id⟩) fun _ hq => .inl hq
  cases e with
  | act idx a =>
    rw [config_of_act hstep]
    exact hsame
  | collector e =>
    have hallows : j.allows e = true := by
      by_contra hc
      rw [step, if_neg hc] at hstep
      cases hstep
    have hsched := (step_eq_some hstep).1
    obtain ⟨c, procs⟩ := j
    obtain ⟨c', procs'⟩ := j'
    -- each event of the scheduler is one of six steps
    cases step_steps hsched with
    | began _ =>
      dsimp only [beginDispatch]
      split
      · refine ha.of_frame _ (fun _ hq => .inl hq) (fun _ _ hq => ?_)
          fun _ hq => .inl ((List.mem_cons.mp hq).resolve_left (by simp))
        exact absurd hq (by simp [enterSolo])
      · exact hsame
    | turned hlt hslot =>
      refine accounted_turn ha (fun hunsent hproc signal hresult => ?_) (dispatchSlot_turn hslot)
      simp only [allows, dif_pos hlt, decide_eq_true_eq] at hallows
      exact hsignal _ signal hproc ((hallows.2 hunsent).symm.trans hresult)
    | ended _ => exact hsame
    | sampled hs' =>
      rcases sampleMemory_cases hs' with rfl | ⟨v, hover, hv, rfl⟩
      · exact ha.of_frame _ (fun _ hq => .inl hq) (fun _ _ hq => ⟨hq, rfl, id⟩)
          fun _ hq => .inl hq
      · have hbusy := largestBusy_busy hv
        have hrunning := Worker.running_iff.mpr (.inl hbusy)
        obtain ⟨path, hpath⟩ := (hpool v).path hrunning
        exact accounted_evict ha hpool halone
          ⟨rfl, hover, hv, Worker.holds_iff.mpr ⟨.inl hbusy, hpath⟩⟩
    | read _ hs' => exact accounted_onLine ha hs'
    | @hungUp _ _ idx _ hproc hs' =>
      refine accounted_onEof ha (fun signal hresult => ?_) hs'
      rw [allows, decide_eq_true_eq] at hallows
      exact hsignal idx signal hproc (hallows.2.2.symm.trans hresult)

/-- At first no process has died. -/
theorem signaledKilled_reachable {rely : Joint n → JointEvent n → Prop} {j : Joint n}
    (h : (system X nrWorkers maxMemorySize resolver).Reachable rely j) : j.SignaledKilled := by
  refine h.invariant (I := SignaledKilled) (fun i signal hproc => ?_)
    fun _ ih _ hstep => signaledKilled_step ih hstep
  exact absurd hproc (by simp [system, Scheduler.system, init])

/-- Every run accounts for its evictions. -/
theorem accounted_trail {rely : Joint n → JointEvent n → Prop} {h : List (Entry n)} {j : Joint n}
    (ht : (system X nrWorkers maxMemorySize resolver).Trail rely h j) :
    Accounted j.config.sched h := by
  refine ht.invariant (I := fun h j => Accounted j.config.sched h) ?_ ?_
  · refine ⟨fun path hq => absurd hq List.not_mem_nil, fun hmode => ?_,
      fun i path hholds => absurd hholds (by simp [system, Scheduler.system, init]),
      fun hmode => ?_, fun path hq => absurd hq List.not_mem_nil⟩
    · cases hmode
    · cases hmode
  · intro h j j' e ht ha _ hstep
    have hvisited : Visited X (fun _ _ _ => True) nrWorkers maxMemorySize resolver
        j.config.snapshot :=
      Visited.of_reachable ((config_reachable ht.reachable).mono fun c e _ => answered_true c e)
    exact accounted_step ha (signaledKilled_reachable ht.reachable) (poolOk_visited hvisited)
      (alone_visited hvisited) hstep

end Joint

/-! ## Runs -/

namespace Scheduler

variable {n : Nat} {X : Externals} {nrWorkers maxMemorySize : UInt64} {resolver : Bool}

/-- **Bounded retries and sound memory errors.** If the workers echo the path they
were sent, a path is handed out at most twice, and the second time in Solo mode.
In a run with worker processes that only the collector kills, a path gets a
memory-budget error only after it was killed in Parallel mode and, later, in a
sample at which it was alone and the collector and its worker together were over
the budget. -/
theorem bounded_retries :
    (∀ c, (system X nrWorkers maxMemorySize resolver (n := n)).Reachable (Answered X Echo) c →
      (∀ path, dispatches path c.sched.trace ≤ 2) ∧
      ∀ newer older i path source mode,
        c.sched.trace = newer ++ .handedOut i path source mode :: older →
        0 < dispatches path older → mode = .solo) ∧
    ∀ h j, (Joint.system X nrWorkers maxMemorySize resolver (n := n)).Trail System.anyEnv h j →
      ∀ path, .budgetError path ∈ j.config.sched.trace → Joint.Blamed path h := by
  refine ⟨fun c hc => ?_, fun h j ht => (Joint.accounted_trail ht).errors⟩
  have hhistory : SecondInSolo c.sched.trace :=
    (dispatched_visited (fun _ _ _ h => h) (Visited.of_reachable hc)).history
  refine ⟨hhistory.dispatches_le, fun newer older i path source mode htrace hpos => ?_⟩
  rw [htrace] at hhistory
  have hcount := hhistory.of_append
  by_contra hmode
  rw [if_neg hmode] at hcount
  omega

/-- In the run of two attempts the workers echo their paths. -/
theorem echoRetryRun_isSome :
    ((system (Externals.plain []) 2 4096 false).run
      (answeredCheck (Externals.plain []) fun path response _ => response.attrPath = path)
      (system (Externals.plain []) 2 4096 false).init retryRun).isSome = true := by
  decide +kernel

/-- The only worker evaluates the root, grows, is evicted, evaluates the root alone,
grows again and is evicted again. -/
def blamedRun : List (JointEvent 1) :=
  let dead : SlotEnv := { sent := false, wait := ⟨.status (.signaled sigkill), none⟩ }
  Joint.evictedRun ++ [JointEvent.collector (Event.killedEof 0), .collector .beginDispatch,
      .collector (.slot dead), .collector .endDispatch, .act 0 .offer,
      .collector (.line 0 msgNext 50)] ++ (Event.calmPass 1).map JointEvent.collector ++
    [JointEvent.collector (.sample 20 ![120]), .collector (Event.killedEof 0)]

/-- Every step of it is possible. -/
theorem blamedRun_isSome :
    ((Joint.system Joint.rootExternals 1 100 false).run System.anyCheck
      (Joint.system Joint.rootExternals 1 100 false).init blamedRun).isSome = true := by
  decide +kernel

/-- Both parts: two attempts at the root in one run, and a budget error of it in another. -/
theorem bounded_retries_blamedRun :
    (let c := (system (Externals.plain []) 2 4096 false).after
        (answeredCheck (Externals.plain []) fun path response _ => response.attrPath = path)
        retryRun echoRetryRun_isSome;
      dispatches [] c.sched.trace = 2 ∧
        ∀ newer older i source mode, c.sched.trace = newer ++ .handedOut i [] source mode :: older →
          0 < dispatches [] older → mode = .solo) ∧
    ∃ h, (Joint.system Joint.rootExternals 1 100 false).Trail System.anyEnv h
        ((Joint.system Joint.rootExternals 1 100 false).after System.anyCheck blamedRun
          blamedRun_isSome) ∧ Joint.Blamed [] h := by
  constructor
  · intro c
    have hrun := System.reachable_after
      (answered_of_check fun path response json hecho => of_decide_eq_true hecho)
      retryRun echoRetryRun_isSome
    have htwo : dispatches [] c.sched.trace = 2 := by decide +kernel
    exact ⟨htwo, fun newer older i source mode =>
      (bounded_retries.1 c hrun).2 newer older i [] source mode⟩
  · obtain ⟨h, ht⟩ := (System.reachable_after (fun _ _ _ => trivial) blamedRun
      blamedRun_isSome).trail
    have herror : ((Joint.system Joint.rootExternals 1 100 false).after System.anyCheck blamedRun
        blamedRun_isSome).config.sched.trace.any (fun e => e.gaveUp = some []) = true := by
      decide +kernel
    obtain ⟨e, hmem, he⟩ := List.any_eq_true.mp herror
    obtain rfl := Effect.eq_budgetError (of_decide_eq_true he)
    exact ⟨h, ht, bounded_retries.2 h _ ht [] hmem⟩

/-- The worker of `a` answers for the root, twice. -/
def misreportRun : List (Event 1) :=
  let answer := [Event.line 0 (rootJson.plainDump.getD []) 300, .line 0 msgNext 300]
  Event.calmPass 1 ++ [Event.line 0 msgNext 300] ++ Event.calmPass 1 ++ answer ++
    Event.calmPass 1 ++ answer ++ Event.calmPass 1 ++ answer ++ Event.calmPass 1

/-- Every step of it is possible, since nothing checks the answers. -/
theorem misreportRun_isSome :
    ((system (Externals.plain [rootJson]) 1 4096 false).run System.anyCheck
      (system (Externals.plain [rootJson]) 1 4096 false).init misreportRun).isSome = true := by
  decide +kernel

/-- Without the echo a path is handed out again and again, in Parallel mode. -/
theorem not_bounded_misreportRun :
    ¬∀ c, (system (Externals.plain [rootJson]) 1 4096 false (n := 1)).Reachable System.anyEnv c →
      (∀ path, dispatches path c.sched.trace ≤ 2) ∧
      ∀ newer older i path source mode,
        c.sched.trace = newer ++ .handedOut i path source mode :: older →
        0 < dispatches path older → mode = .solo := by
  intro hbounded
  have hle := (hbounded _ (System.reachable_after (fun _ _ _ => trivial) misreportRun
    misreportRun_isSome)).1 [lit "a"]
  have hthree : dispatches [lit "a"] ((system (Externals.plain [rootJson]) 1 4096 false).after
      System.anyCheck misreportRun misreportRun_isSome).sched.trace = 3 := by
    decide +kernel
  omega

end Scheduler

end NixEvalJobs
