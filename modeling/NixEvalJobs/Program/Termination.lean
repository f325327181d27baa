import NixEvalJobs.Collector.Schedule
import NixEvalJobs.Program.Result
import NixEvalJobs.Scheduler.Termination

/-!
# Program — no livelock

A worker restarts itself when it has grown too large, but only after a job. So what the
scheduler loses without a job has been answered for before, or was ended by somebody else.
A worker that is killed while it has a job, by `sampleMemory` or by anybody else, is paid for
by the job, which is tried twice at most.

* `lapses_collector` — every worker that is lost had lapsed before.
* `bounded_effort` — whatever memory the jobs take, what a run does is bounded by the
  paths of the value and by how many workers were ended without a job.
-/

namespace NixEvalJobs

/-- One slot may change by the difference of `d` and `r`, the others do not grow. -/
theorem sumSlots_le {ι : Type} [Fintype ι] [DecidableEq ι] {a b : ι → Nat} {i : ι} {d r : Nat}
    (hothers : ∀ j, j ≠ i → b j ≤ a j) (hi : b i + d ≤ a i + r) : ∑ j, b j + d ≤ ∑ j, a j + r := by
  have hb := Finset.add_sum_erase Finset.univ b (Finset.mem_univ i)
  have ha := Finset.add_sum_erase Finset.univ a (Finset.mem_univ i)
  have hrest : ∑ j ∈ Finset.univ.erase i, b j ≤ ∑ j ∈ Finset.univ.erase i, a j :=
    Finset.sum_le_sum fun j hj => hothers j (Finset.ne_of_mem_erase hj)
  omega

namespace Protocol

variable {n : Nat} {X : Externals} {config : Str} {p p' : Process} {w : Worker}

/-! ## Workers that will be lost -/

/-- The last thing the process has to say is that it restarts, or it has said everything. -/
def Loc.leaving : Loc → Bool
  | .returned | .writing _ .exit | .writing _ .restart => true
  | _ => false

/-- A process without a job will end, or has ended. -/
def lapsed (w : Worker) (p : Process) : Bool :=
  match w.phase with
  | .starting => p.loc.leaving || p.status.isSome
  | .idle => p.status.isSome
  | _ => false

/-- The workers that will be lost. -/
def lapses (j : State n) : Nat := ∑ i, (lapsed (j.config.sched.workers i) (j.procs i)).toNat

/-- A process ends by itself only where it has returned. -/
theorem status_act {a : Act} (h : p.act X a = some p') (hloc : p.loc ≠ .returned) :
    p'.status = none := by
  unfold Process.act at h
  split at h
  · next hstatus _ =>
    obtain ⟨_, -, rfl⟩ := Option.map_eq_some_iff.mp h
    exact hstatus
  · next hstatus _ =>
    obtain rfl := Option.some.inj h
    exact hstatus
  · next hstatus _ =>
    obtain ⟨_, -, rfl⟩ := Option.map_eq_some_iff.mp h
    exact hstatus
  · next hstatus _ =>
    split at h
    · obtain ⟨_, -, rfl⟩ := Option.map_eq_some_iff.mp h
      exact hstatus
    · cases h
  · next hreturned => exact absurd hreturned hloc
  · cases h

/-- A process that has no job does not decide to leave. -/
theorem leaving_act {a : Act} (h : p.act X a = some p') (hstays : p.loc.leaving = false)
    (hreads : p.loc = .reading → p.input = []) (hidle : ∀ path, p.loc ≠ .evaluating path) :
    p'.loc.leaving = false := by
  unfold Process.act at h
  split at h
  · obtain ⟨_, -, rfl⟩ := Option.map_eq_some_iff.mp h
    rfl
  · -- another line or a command comes behind this one
    next rest next _ hloc =>
    obtain rfl := Option.some.inj h
    rw [hloc] at hstays
    dsimp only
    split
    · cases next with
      | read | offer => rfl
      | restart | exit => cases hstays
    · cases next with
      | read | offer => rfl
      | restart | exit => cases hstays
  · -- there is no command to read
    next hloc =>
    obtain ⟨e, hpop, -⟩ := Option.map_eq_some_iff.mp h
    rw [hreads hloc] at hpop
    cases hpop
  · next hloc => exact absurd hloc (hidle _)
  · next hloc =>
    rw [hloc] at hstays
    cases hstays
  · cases h

/-- **Nothing that a process does makes it lapse.** -/
theorem lapsed_act {a : Act} (hagrees : Agrees X config w p) (h : p.act X a = some p')
    (hlapsed : lapsed w p' = true) : lapsed w p = true := by
  unfold lapsed at hlapsed ⊢
  unfold Agrees at hagrees
  cases hphase : w.phase with
  | starting =>
    rw [hphase] at hlapsed hagrees
    dsimp only at hlapsed ⊢
    by_contra hstays
    obtain ⟨hloc, -⟩ := Bool.or_eq_false_iff.mp (Bool.eq_false_iff.mpr hstays)
    -- it has not read its configuration, or it offers itself
    have hplace : (p.loc = .reading → p.input = []) ∧ (∀ path, p.loc ≠ .evaluating path) ∧
        p.loc ≠ .returned := by
      rcases hagrees with h | h | h
      · rw [h.loc]
        simp
      · rcases h.loc with hc | ⟨rest, -, hc⟩ <;> rw [hc] <;> simp [Then.loc, h.input]
      · rcases h.loc with hc | ⟨rest, -, hc⟩ <;> rw [hc] at hloc <;> cases hloc
    rw [leaving_act h hloc hplace.1 hplace.2.1, status_act h hplace.2.2] at hlapsed
    cases hlapsed
  | idle =>
    rw [hphase] at hlapsed hagrees
    dsimp only at hlapsed
    rw [status_act h (by rw [hagrees.loc]; simp)] at hlapsed
    cases hlapsed
  | none | busy | killed | exiting =>
    rw [hphase] at hlapsed
    cases hlapsed

/-- A slot lapses with the answer to its job, and not otherwise. -/
theorem lapsed_slotStep {j : State n} {e : NixEvalJobs.Event n} {i : Fin n}
    (hstep : Scheduler.SlotStep X j.config.sched e i w)
    (hbusy : ∀ line rss, e = .line i line rss → (j.config.sched.workers i).phase ≠ .busy)
    (hlapsed : lapsed w ((consume j.procs e i).follow X config (j.config.sched.workers i) w) =
      true) : lapsed (j.config.sched.workers i) (j.procs i) = true := by
  have hconsume : (consume j.procs e i).loc = (j.procs i).loc ∧
      (consume j.procs e i).status = (j.procs i).status := by
    rcases consume_cases j.procs e i with hc | ⟨_, _, -, hc⟩ <;> rw [hc] <;> exact ⟨rfl, rfl⟩
  match hstep with
  | .kept hphase _ _ _ =>
    rw [follow_same hphase] at hlapsed
    unfold lapsed at hlapsed ⊢
    rwa [hphase, hconsume.1, hconsume.2] at hlapsed
  | .reset hw =>
    subst hw
    cases hlapsed
  | .spawned hnone hstarting _ =>
    unfold lapsed Process.follow at hlapsed
    rw [hnone, hstarting] at hlapsed
    cases hlapsed
  | .told _ hexiting _ =>
    unfold lapsed at hlapsed
    rw [hexiting] at hlapsed
    cases hlapsed
  | .taken _ hnow _ _ _ | .evicted _ _ _ _ hnow _ _ =>
    unfold lapsed at hlapsed
    rw [hnow] at hlapsed
    cases hlapsed
  -- the word was `next`, so it lapses only if its process has ended
  | .started _ hstarting hidle _ =>
    unfold lapsed Process.follow at hlapsed
    rw [hstarting, hidle] at hlapsed
    dsimp only at hlapsed
    rw [hconsume.2] at hlapsed
    unfold lapsed
    rw [hstarting]
    exact Bool.or_eq_true_iff.mpr (.inr hlapsed)
  -- this is the answer to its job
  | .finished he hnow _ _ => exact absurd hnow (hbusy _ _ he)

/-- **A worker that is lost had lapsed before.** -/
theorem lapsed_of_drops {j : State n} {e : NixEvalJobs.Event n} {i : Fin n}
    (hallows : allows j e = true)
    (hagrees : Agrees X config (j.config.sched.workers i) (j.procs i))
    (he : ∀ {k}, (∃ line rss, e = .line k line rss) ∨ (∃ wait, e = .eof k wait) → k = i)
    (hdrops : Scheduler.drops (j.config, e) = true) :
    lapsed (j.config.sched.workers i) (j.procs i) = true := by
  unfold Agrees at hagrees
  unfold lapsed
  match e with
  | .line k line rss =>
    obtain rfl := he (.inl ⟨line, rss, rfl⟩)
    obtain ⟨hstarting, rfl⟩ := of_decide_eq_true hdrops
    rw [hstarting] at hagrees ⊢
    -- the word is that of a process that restarts
    refine Bool.or_eq_true_iff.mpr (.inl ?_)
    have hpop := allows_line hallows
    rcases hagrees with h | h | h
    · exact absurd hpop (popLine_quiet h.output)
    · exact absurd (h.finished newline_not_mem_msgNext hpop).1 (by decide)
    · rcases h.loc with hc | ⟨rest, -, hc⟩ <;> rw [hc] <;> rfl
  | .eof k wait =>
    obtain rfl := he (.inr ⟨wait, rfl⟩)
    have hended : (j.procs k).status.isSome = true :=
      Option.isSome_iff_ne_none.mpr (of_decide_eq_true hallows).2.1
    rcases of_decide_eq_true hdrops with hphase | hphase <;> rw [hphase]
    · exact Bool.or_eq_true_iff.mpr (.inr hended)
    · exact hended
  | .beginDispatch | .slot _ | .endDispatch | .sample _ _ => cases hdrops

/-! ## Steps of the collector -/

open Scheduler (drops responses)

/-- Only an answer counts. -/
theorem responses_cons (e : Effect n) (trace : List (Effect n)) :
    responses (e :: trace) = responses trace + e.isResponse.toNat := by
  unfold responses
  rw [List.countP_cons]
  cases e.isResponse <;> rfl

/-- Answers are not taken back. -/
theorem responses_step {c c' : Config n} {e : NixEvalJobs.Event n}
    (h : Scheduler.step X c e = some c') :
    responses c.sched.trace ≤ responses c'.sched.trace := by
  have hmoves := Scheduler.step_moves (Scheduler.answered_true (X := X) c e) h
  have hle : ∀ {a b : Snapshot n},
      Relation.ReflTransGen (Scheduler.Move X fun _ _ _ => True) a b →
      responses a.sched.trace ≤ responses b.sched.trace := by
    intro a b hab
    -- move by move, as each adds at most one event to the history
    induction hab with
    | refl => exact le_rfl
    | tail _ hmove ih =>
      rcases Scheduler.trace_move hmove with hsame | ⟨e, hnew, -⟩
      · rwa [hsame]
      · rw [hnew, responses_cons]
        exact ih.trans (Nat.le_add_right ..)
  exact hle hmoves

/-- A worker that was busy has been answered for. -/
theorem responses_line {s s' : Scheduler n} {i : Fin n} {line : Str} {rss : UInt64}
    (hbusy : (s.workers i).phase = .busy) (h : s.onLine X i line rss = .ok s') :
    responses s'.trace = responses s.trace + 1 := by
  rcases Scheduler.onLine_cases h with ⟨hphase, -⟩ | ⟨hphase, -⟩ |
    ⟨-, response, json, m, -, haccept, rfl⟩ | ⟨hphase | hphase, -⟩
  · cases hbusy.symm.trans hphase
  · cases hbusy.symm.trans hphase
  · show responses (.responded response json :: m.trace) = _
    rw [responses_cons, (Scheduler.acceptResponse_frame haccept).2.1]
    rfl
  · cases hbusy.symm.trans hphase
  · cases hbusy.symm.trans hphase

/-- A worker that is lost leaves an empty slot, and has had no job. -/
theorem drops_reset {c c' : Config n} {e : NixEvalJobs.Event n}
    (h : Scheduler.step X c e = some c') (hdrops : drops (c, e) = true) :
    ∃ i, c'.sched.workers i = {} ∧ (c.sched.workers i).phase ≠ .busy ∧
      ((∃ line rss, e = .line i line rss) ∨ ∃ wait, e = .eof i wait) := by
  -- a worker is lost by `restart`, or by the end of its pipe
  cases Scheduler.step_steps h with
  | @read s s' i line rss _ hs' =>
    obtain ⟨hstarting, rfl⟩ := of_decide_eq_true hdrops
    refine ⟨i, ?_, by rw [hstarting]; simp, .inl ⟨_, _, rfl⟩⟩
    rcases Scheduler.onLine_cases hs' with ⟨-, hc, -⟩ | ⟨-, -, rfl⟩ | ⟨hphase, -⟩ |
      ⟨hphase | hphase, -⟩
    · exact absurd hc (by decide)
    · exact Function.update_self ..
    · cases hstarting.symm.trans hphase
    · cases hstarting.symm.trans hphase
    · cases hstarting.symm.trans hphase
  | @hungUp s s' i wait _ hs' =>
    refine ⟨i, ?_, ?_, .inr ⟨_, rfl⟩⟩
    · rw [Scheduler.onEof_workers hs', Function.update_self]
    · rcases of_decide_eq_true hdrops with hphase | hphase <;> rw [hphase] <;> simp
  | began | turned | ended | sampled => cases hdrops

/-- **What the scheduler loses has lapsed, and what lapses has been answered for.** -/
theorem lapses_collector {j j' : State n} {e : NixEvalJobs.Event n} (h : InStep X config j)
    (hstep : Protocol.step X config j (.collector e) = some j') :
    lapses j' + (drops (j.config, e)).toNat + responses j.config.sched.trace ≤
      lapses j + responses j'.config.sched.trace := by
  simp only [Protocol.step] at hstep
  split at hstep
  case isFalse => cases hstep
  next hallows =>
  obtain ⟨c, hc, rfl⟩ := Option.map_eq_some_iff.mp hstep
  have hresponses := responses_step hc
  -- every slot but that of a busy worker's line has lapsed before, if it has lapsed at all
  have hslot : ∀ i, (∀ line rss, e = .line i line rss →
        (j.config.sched.workers i).phase ≠ .busy) →
      (lapsed (c.sched.workers i) ((consume j.procs e i).follow X config
        (j.config.sched.workers i) (c.sched.workers i))).toNat ≤
      (lapsed (j.config.sched.workers i) (j.procs i)).toNat := fun i hbusy =>
    Bool.toNat_le_toNat fun hlapsed =>
      lapsed_slotStep (Scheduler.step_slotStep hc i) hbusy hlapsed
  -- an event of a pipe is about one slot
  have hsame : ∀ {i k : Fin n}, ((∃ line rss, e = .line i line rss) ∨ ∃ wait, e = .eof i wait) →
      ((∃ line rss, e = .line k line rss) ∨ ∃ wait, e = .eof k wait) → k = i := by
    rintro i k (⟨_, _, rfl⟩ | ⟨_, rfl⟩) (⟨_, _, he⟩ | ⟨_, he⟩) <;> cases he <;> rfl
  cases hdrops : drops (j.config, e) with
  | true =>
    -- the slot that had lapsed is empty
    obtain ⟨i, hempty, hidle, he⟩ := drops_reset hc hdrops
    have hlapsed := lapsed_of_drops hallows (h.agrees i) (hsame he) hdrops
    have hsum := sumSlots_le (i := i) (d := 1) (r := 0)
      (fun k hk => hslot k fun line rss hline =>
        absurd (hsame he (.inl ⟨line, rss, hline⟩)) hk)
      (by rw [hempty, hlapsed]; exact le_rfl)
    show _ + 1 + _ ≤ _
    unfold lapses
    dsimp only
    omega
  | false =>
    by_cases hbusy : ∃ i line rss, e = .line i line rss ∧ (j.config.sched.workers i).phase = .busy
    · -- the slot may lapse with the answer
      obtain ⟨i, line, rss, rfl, hphase⟩ := hbusy
      have hanswered : responses c.sched.trace = responses j.config.sched.trace + 1 := by
        obtain ⟨c₀, procs⟩ := j
        cases Scheduler.step_steps hc with
        | read _ hs' => exact responses_line hphase hs'
      have hsum := sumSlots_le (i := i) (d := 0) (r := 1)
        (fun k hk => hslot k fun line' rss' hline =>
          absurd (hsame (.inl ⟨_, _, rfl⟩) (.inl ⟨line', rss', hline⟩)) hk)
        ((Bool.toNat_le _).trans (Nat.le_add_left ..))
      show _ + 0 + _ ≤ _
      unfold lapses
      dsimp only
      omega
    · -- no busy worker has said anything
      have hsum := Finset.sum_le_sum fun i (_ : i ∈ Finset.univ) =>
        hslot i fun line rss he hphase => hbusy ⟨i, line, rss, he, hphase⟩
      show _ + 0 + _ ≤ _
      unfold lapses
      dsimp only
      omega

end Protocol

namespace Program

open Protocol (lapses lapsed)

variable {n : Nat} {X : Externals} {config : Str} {f : AttrPath → Payload}
  {thread : CacheStatusResolver → CacheStatusResolver.Event → Prop}
  {nrWorkers maxMemorySize : UInt64} {checkCacheStatus : Bool} {P P' : Program n}

/-! ## Runs -/

/-- A worker that has no job is ended, by a signal or an exception. The signal that
`sampleMemory` sends is never one: it is for a worker that was busy. -/
def isEnd : Program n × Event n → Bool
  | (P, .ends idx _) =>
    let phase := (P.main.config.sched.workers idx).phase
    (phase = .starting ∨ phase = .idle) ∧ (P.procs idx).status = none
  | _ => false

/-- Only where a worker has no job its end makes it lapse. -/
theorem lapsed_ends (P : Program n) (idx : Fin n) (status : ExitStatus) :
    (lapsed (P.main.config.sched.workers idx)
        { P.procs idx with status := (P.procs idx).status.or (some status) }).toNat ≤
      (lapsed (P.main.config.sched.workers idx) (P.procs idx)).toNat +
        (isEnd (P, .ends idx status)).toNat := by
  cases hstatus : (P.procs idx).status with
  | some old =>
    -- it has ended before
    have hsame : { P.procs idx with status := (some old).or (some status) } = P.procs idx := by
      rw [Option.some_or, ← hstatus]
    rw [hsame]
    exact Nat.le_add_right _ _
  | none =>
    unfold lapsed isEnd
    dsimp only
    rw [hstatus]
    cases (P.main.config.sched.workers idx).phase with
    | starting | idle => exact (Bool.toNat_le _).trans (Nat.le_add_left ..)
    | none | busy | killed | exiting => exact Nat.zero_le _

/-- What the scheduler of the program knows about its jobs. -/
structure Bounds (s : Scheduler n) : Prop where
  conserved : s.Conserved
  dispatched : s.Dispatched
  exits : s.ExitsFinished

/-- The scheduler of the program keeps them. -/
theorem Sound.bounds
    (h : Sound X config f thread nrWorkers maxMemorySize checkCacheStatus P) :
    Bounds P.main.config.sched := by
  obtain ⟨jobs, stdout, hvisited⟩ := Collector.visited_of_reachable (fun _ _ hr => hr) h.main
  have hecho : ∀ path response json, Scheduler.Decoded X f path response json →
      Echo path response json := fun _ _ _ hd => hd.echo
  have hconserved := Scheduler.conserved_visited hecho hvisited
  obtain ⟨hfresh, hretried, hheld, hhistory⟩ := Scheduler.dispatched_visited hecho hvisited
  obtain ⟨hphase, htold, honly⟩ := Scheduler.exitsFinished_visited hvisited
  -- none of this is about what has been written
  exact ⟨hconserved, ⟨hfresh, hretried, hheld, hhistory⟩, ⟨hphase, htold, honly⟩⟩

/-- What was done, what is put by and what will be lost is paid for. -/
def Paid (h : List (Program n × Event n)) (P : Program n) : Prop :=
  let s := P.main.config.sched
  s.trace.length + s.credit + lapses P.joint * (2 * n + 2) ≤
    Scheduler.attempts s.trace * (2 * n + 5) +
      (Scheduler.responses s.trace + h.countP isEnd) * (2 * n + 2) + (4 * n + 1)

/-- What one process does changes one slot. -/
theorem lapses_update {j : Protocol.State n} {idx : Fin n} {p : Protocol.Process} {d : Nat}
    (hp : (lapsed (j.config.sched.workers idx) p).toNat ≤
      (lapsed (j.config.sched.workers idx) (j.procs idx)).toNat + d) :
    lapses { j with procs := Function.update j.procs idx p } ≤ lapses j + d := by
  refine sumSlots_le (i := idx) (d := 0) (fun k hk => ?_) ?_
  · dsimp only
    rw [Function.update_of_ne hk]
  · dsimp only
    rwa [Function.update_self]

/-- A step whose losses had lapsed. -/
theorem Paid.of_spends {h : List (Program n × Event n)} {e : Event n} {d : Nat} (hpaid : Paid h P)
    (hspends : Scheduler.Spends d P.main.config.sched P'.main.config.sched)
    (hlapses : lapses P'.joint + d + Scheduler.responses P.main.config.sched.trace ≤
      lapses P.joint + Scheduler.responses P'.main.config.sched.trace + (isEnd (P, e)).toNat) :
    Paid ((P, e) :: h) P' := by
  have hcount : ((P, e) :: h).countP isEnd = h.countP isEnd + (isEnd (P, e)).toNat := by
    rw [List.countP_cons]
    cases isEnd (P, e) <;> rfl
  -- every worker that is lost costs as much
  have hmul := Nat.mul_le_mul_right (2 * n + 2) hlapses
  unfold Paid at hpaid ⊢
  unfold Scheduler.Spends at hspends
  rw [hcount]
  simp only [Nat.add_mul _ _ (2 * n + 2)] at hmul hpaid ⊢
  omega

/-- Every step of the program is paid for. -/
theorem Paid.step (hfree : Collector.Free thread) {h : List (Program n × Event n)}
    (hpaid : Paid h P)
    (hsound : Sound X config f thread nrWorkers maxMemorySize checkCacheStatus P) {e : Event n}
    (hstep : P.step X config e = some P') : Paid ((P, e) :: h) P' := by
  -- the history is that of the scheduler, which these events leave alone
  have hother : ∀ e', (∀ e'', e' ≠ .scheduler e'') →
      (P.main.step X e').map (fun main => { P with main }) = some P' →
      Paid ((P, .main e') :: h) P' := by
    intro e' hother hstep
    obtain ⟨main, hmain, rfl⟩ := Option.map_eq_some_iff.mp hstep
    obtain ⟨jobs, stdout, hsched, -⟩ :=
      Collector.written_of_steps (Collector.step_steps hmain) hother
    refine hpaid.of_spends (d := 0) ?_ ?_
    · dsimp only
      rw [hsched]
      exact .refl P.main.config.sched
    · have hlapses : lapses { P with main }.joint = lapses P.joint := by
        unfold lapses joint
        dsimp only
        rw [hsched]
        rfl
      dsimp only
      rw [hlapses, hsched]
      exact Nat.le_add_right _ _
  match e with
  | .act idx a =>
    obtain ⟨j, hj, rfl⟩ := Option.map_eq_some_iff.mp hstep
    simp only [Protocol.step] at hj
    split at hj
    · -- by what the process does it does not lapse
      obtain ⟨p, hact, rfl⟩ := Option.map_eq_some_iff.mp hj
      have hlapses := lapses_update (d := 0) (Bool.toNat_le_toNat
        (Protocol.lapsed_act (hsound.inStep.agrees idx) hact))
      exact hpaid.of_spends (.refl _) (Nat.add_le_add_right hlapses _)
    · cases hj
  | .ends idx status =>
    obtain rfl := Option.some.inj hstep
    have hlapses := lapses_update (j := P.joint) (lapsed_ends P idx status)
    refine hpaid.of_spends (d := 0) (.refl _) ?_
    exact (Nat.add_le_add_right hlapses _).trans (Nat.add_right_comm ..).le
  | .main (.scheduler e) =>
    obtain ⟨j, hj, hstep⟩ := Option.bind_eq_some_iff.mp hstep
    obtain ⟨main, hmain, hret⟩ := Option.bind_eq_some_iff.mp hstep
    obtain rfl := Option.some.inj hret
    have hconfig := Collector.config_of_schedule (Collector.step_steps hmain)
    have hspends := Scheduler.spends_step (hsound.poolOk hfree) hsound.bounds.exits hconfig
    have hlapses := Protocol.lapses_collector hsound.inStep hj
    -- the joint step is the one of `main`
    have hmain : j.config = main.config := by
      simp only [Protocol.step] at hj
      split at hj
      · obtain ⟨c, hc, rfl⟩ := Option.map_eq_some_iff.mp hj
        exact Option.some.inj (hc.symm.trans hconfig)
      · cases hj
    obtain ⟨c, procs⟩ := j
    subst hmain
    exact hpaid.of_spends hspends (hlapses.trans (Nat.le_add_right _ _))
  | .main (.fatal idx line) =>
    rw [Program.step] at hstep
    split at hstep
    · exact hother (.fatal idx line) (by simp) hstep
    · cases hstep
  | .main (.thread e) => exact hother (.thread e) (by simp) hstep
  | .main .print => exact hother .print (by simp) hstep
  | .main .finish => exact hother .finish (by simp) hstep
  | .main .join => exact hother .join (by simp) hstep
  | .main .unwind => exact hother .unwind (by simp) hstep

/-- Every run is paid for. -/
theorem paid_trail (hX : Speaking X config f) (hfree : Collector.Free thread)
    {h : List (Program n × Event n)}
    (ht : (system X config nrWorkers maxMemorySize checkCacheStatus).Trail (Evaluates f thread)
      h P) : Paid h P := by
  refine ht.invariant ?_ fun ht hpaid _ hstep =>
    hpaid.step hfree (sound_reachable hX hfree ht.reachable) hstep
  have hlapses : lapses (joint (n := n)
      (system X config nrWorkers maxMemorySize checkCacheStatus).init) = 0 :=
    Finset.sum_eq_zero fun _ _ => rfl
  unfold Paid
  rw [hlapses]
  show 0 + (Scheduler.init n nrWorkers maxMemorySize checkCacheStatus).credit + _ ≤ _
  rw [Scheduler.credit_init]
  omega

variable {ν : Type} [DecidableEq ν] {G : ValueGraph ν} {R : Rendering} {forceRecurse : Bool}

/-- **No livelock.** Whatever memory the jobs take, however often workers are killed for it and
whenever they restart themselves, what the scheduler does in a run, processes, hand-outs,
evictions, retries and answers together, is bounded by the paths of the value and by the
workers that were ended while they had no job. -/
theorem bounded_effort (hX : Speaking X config (G.evaluate R forceRecurse))
    (hfree : Collector.Free thread) {h : List (Program n × Event n)}
    (ht : (system X config nrWorkers maxMemorySize checkCacheStatus).Trail
      (EvaluatesValue G R forceRecurse thread) h P) {paths : Finset AttrPath}
    (hpaths : ∀ path, G.Visits forceRecurse (fun _ => false) path → path ∈ paths) :
    P.main.config.sched.trace.length ≤
      paths.card * (6 * n + 12) + h.countP isEnd * (2 * n + 2) + (4 * n + 1) := by
  have ht' := ht.mono fun _ _ => evaluates_of_value
  have hpaid := paid_trail hX hfree ht'
  have hsound := sound_reachable hX hfree ht'.reachable
  have hbounds := hsound.bounds
  -- what the scheduler comes to know is on the traversal of the value
  have hdiscovered : ∀ path, Scheduler.discovered path P.main.config.sched.trace = true →
      path ∈ paths := by
    intro path hpath
    have hreach := Scheduler.reach_of_discovered
      (Collector.keeps_reachable hfree hsound.main).accurate.truthful hbounds.conserved hpath
    exact hpaths path ((ValueGraph.reach_iff_visits (fun _ hc => by cases hc)
      fun _ _ => rfl).mp hreach)
  -- every path is handed out twice at most
  have hattempts := Nat.mul_le_mul_right (2 * n + 5)
    (Scheduler.attempts_le hbounds.conserved hbounds.dispatched hdiscovered)
  -- and answered once at most
  have hresponses := Nat.mul_le_mul_right (2 * n + 2)
    (Scheduler.responses_le hbounds.conserved hdiscovered)
  have hsum : paths.card * (6 * n + 12) =
      paths.card * 2 * (2 * n + 5) + paths.card * (2 * n + 2) := by ring
  unfold Paid at hpaid
  simp only [Nat.add_mul _ _ (2 * n + 2)] at hpaid
  rw [hsum]
  omega

/-- The traversal goes no further than to the attributes of the root. -/
theorem loopGraph_paths {path : AttrPath}
    (h : loopGraph.Visits false (fun _ => false) path) : path ∈ loopPaths := by
  induction h with
  | root => decide
  | @attr path bindings name _ _ hends hpackage _ hname ih =>
    fin_cases bindings
    · -- the root comes again under `again`, where it is a cycle
      rcases List.mem_cons.mp ih with rfl | ih
      · have hnames : (loopGraph.attrs 0).keys = [lit "again", lit "package"] := by
          decide +kernel
        change name ∈ (loopGraph.attrs 0).keys at hname
        rw [hnames] at hname
        rcases List.mem_cons.mp hname with rfl | hname
        · decide
        · rw [List.mem_singleton.mp hname]
          decide
      rcases List.mem_cons.mp ih with rfl | ih
      · exact absurd ⟨[], List.nil_prefix, by simp, rfl⟩ hends.fresh
      · rw [List.mem_singleton.mp ih] at hends
        have hother := loopGraph_package.reached.symm.trans hends.reached
        cases hother
    · cases hpackage

/-! ### A run -/

/-- While the root is evaluated the memory is over the budget, so its worker is killed. The
root is tried again in a process of its own. -/
def evictRun : List (Event 1) :=
  let pass := (NixEvalJobs.Event.calmPass 1).map fun e => Event.main (.scheduler e)
  pass ++ (Event.act 0 .configure :: (List.replicate 5 (Event.act 0 .write) ++
    (Event.main (.scheduler (.line 0 msgNext 300)) :: (pass ++
      (Event.main (.scheduler (.sample 0 fun _ => 5000)) :: .ends 0 (.signaled sigkill) ::
        Event.main (.scheduler (NixEvalJobs.Event.killedEof 0)) :: loopRun)))))

/-- No worker is ended that has no job. -/
def evictCheck (P : Program 1) (e : Event 1) : Bool := loopCheck P e && !isEnd (P, e)

/-- The environment of the run. -/
def evictRely (P : Program 1) (e : Event 1) : Prop :=
  EvaluatesValue loopGraph ValueGraph.plainRendering false System.anyEnv P e ∧
    isEnd (P, e) = false

/-- The run keeps to what the workers evaluate, and nobody else ends a worker. -/
theorem evictRun_rely : ∀ e ∈ evictRun, ∀ P, evictCheck P e = true → evictRely P e := by
  intro e he P hcheck
  obtain ⟨hloop, hkept⟩ := Bool.and_eq_true_iff.mp hcheck
  refine ⟨?_, by simpa using hkept⟩
  by_cases hlater : e ∈ loopRun
  · exact loopRun_evaluates e hlater P hloop
  · -- before that nothing is answered, and there is no thread
    match e with
    | .act idx (.respond response restart) => simp [evictRun, hlater] at he
    | .act _ .configure | .act _ .write | .act _ .read | .act _ .exit | .ends _ _ => trivial
    | .main (.thread e) => simp [evictRun, hlater] at he
    | .main (.scheduler _) | .main (.fatal _ _) | .main .print | .main .finish | .main .join
    | .main .unwind => trivial

/-- `main` has ended, and the only worker was evicted on the way. -/
def evictDone (P : Program 1) : Bool :=
  P.main.stage = .finished ∧ P.main.config.sched.trace.any fun
    | .evicted _ => true
    | _ => false

/-- The run is possible and ends as it should. -/
theorem evictRun_done : ((system loopExternals (lit "\x7b\x7d") 1 4096 false).run evictCheck
    (system loopExternals (lit "\x7b\x7d") 1 4096 false).init evictRun).any evictDone = true := by
  decide +kernel

/-- Every event of it can happen. -/
theorem evictRun_isSome : ((system loopExternals (lit "\x7b\x7d") 1 4096 false).run evictCheck
    (system loopExternals (lit "\x7b\x7d") 1 4096 false).init evictRun).isSome = true :=
  Option.isSome_of_any evictRun_done

/-- Where the run ends. -/
def evictEnd : Program 1 :=
  (system loopExternals (lit "\x7b\x7d") 1 4096 false).after evictCheck evictRun evictRun_isSome

/-- The run is short though a worker was evicted, which counts for nothing. -/
theorem bounded_effort_evict : evictDone evictEnd = true ∧
    ∃ h, (system loopExternals (lit "\x7b\x7d") 1 4096 false).Trail
      (EvaluatesValue loopGraph ValueGraph.plainRendering false System.anyEnv) h evictEnd ∧
    h.countP isEnd = 0 ∧ evictEnd.main.config.sched.trace.length ≤ 3 * 18 + 0 * 4 + 5 := by
  have hreachable : (system loopExternals (lit "\x7b\x7d") 1 4096 false).Reachable evictRely
      evictEnd :=
    System.Reachable.run_checked evictRun_rely .init (Option.some_get evictRun_isSome).symm
  obtain ⟨h, ht⟩ := hreachable.trail
  -- the signal of the eviction is for a busy worker
  have hnone : h.countP isEnd = 0 :=
    List.countP_eq_zero.mpr fun x hx => Bool.eq_false_iff.mp (ht.rely_of_mem x hx).2
  have hvalue := ht.mono fun _ _ hrely => hrely.1
  have hpaths : loopPaths.toFinset.card = 3 := by decide
  have hbound := bounded_effort loopExternals_speaking (fun _ _ _ _ => trivial) hvalue
    fun path hpath => List.mem_toFinset.mpr (loopGraph_paths hpath)
  rw [hpaths, hnone] at hbound
  exact ⟨System.after_of_any evictRun_done evictRun_isSome, h, hvalue, hnone, hbound⟩

end Program

end NixEvalJobs
