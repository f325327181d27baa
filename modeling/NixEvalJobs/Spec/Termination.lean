import NixEvalJobs.Spec.Quint

/-!
# Spec — no livelock

Whatever the interleaving, the model can change its state only so often, provided that
a fresh worker is not above its share already (then it would restart for ever). The
measure weighs every job by how far it is from a verdict, every slot by how far it is
from being of no more use, and the kills that the kernel may still do; a sample that
only raises the estimate is paid for by the step that made it possible.

* `rank_moves` — every transition lowers the rank, unless it is such a sample.
* `terminates` — at most so many steps change anything, and as long as not everything
  is over there is one that does, without the kernel.
-/

namespace NixEvalJobs

namespace Quint

variable {J : Type} [DecidableEq J] {n : Nat} {c : Constants J} {s s' : State J n}
  {r r' : Run J n}

/-! ## The measure -/

/-- How far a slot is from being of no more use. After the last job nobody is spawned. -/
def Worker.stage (c : Constants J) (n : Nat) (finished : Bool) (w : Worker J) : Nat :=
  match w.phase with
  | .none => if finished then 0 else 4
  | .starting => if w.heap > c.budget / n then 5 else 3
  | .idle => 2
  | .busy => if w.rss < w.peak c then 2 else 1
  | .killed => 0
  | .exiting => 1

namespace State

/-- Jobs in flight, and the mode, which is left when the job in Solo mode ends. -/
def flight (n nRunning : Nat) : Mode → Nat
  | .solo => (4 * n + 6) * nRunning
  | .parallel => (4 * n + 12) * nRunning + (4 * n + 1)

/-- What all slots have to go together. -/
def stages (c : Constants J) (s : State J n) : Nat :=
  ∑ i, (s.workers i).stage c n s.finished

/-- What is to come of the jobs, and of the kernel. -/
def load (c : Constants J) (s : State J n) : Nat :=
  (4 * n + 13) * s.todo.card + (4 * n + 7) * s.solo.length + flight n s.nRunning s.mode +
    (4 * n + 6) * (c.externalKills - s.externalKills)

/-- What is to come of the jobs, and of the slots. -/
def rank (c : Constants J) (s : State J n) : Nat := s.load c + s.stages c

/-- What `doSample` learns. -/
def learned (s : State J n) : Nat :=
  Finset.univ.sup fun i =>
    if (s.workers i).running then (s.workers i).rss - (s.workers i).startRss else 0

/-- Twice the rank, and one for what a sample may still learn. -/
def fuel (c : Constants J) (s : State J n) : Nat :=
  2 * s.rank c + (decide (s.estimate < s.learned)).toNat

end State

/-! ## Slots -/

omit [DecidableEq J] in
/-- Once everything is finished, an empty slot is of no more use. -/
theorem Worker.stage_le (c : Constants J) (n : Nat) {finished finished' : Bool}
    (h : finished = true → finished' = true) (w : Worker J) :
    w.stage c n finished' ≤ w.stage c n finished := by
  rw [stage, stage]
  cases w.phase with
  | none =>
    cases finished with
    | true => rw [h rfl]
    | false =>
      show (if finished' = true then 0 else 4) ≤ 4
      split <;> omega
  | starting | idle | busy | killed | exiting => exact Nat.le_refl _

omit [DecidableEq J] in
/-- The others do not depend on that. -/
theorem Worker.stage_of_ne {w : Worker J} (h : w.phase ≠ .none) (finished finished' : Bool) :
    w.stage c n finished' = w.stage c n finished := by
  rw [stage, stage]
  cases hphase : w.phase with
  | none => exact absurd hphase h
  | starting | idle | busy | killed | exiting => rfl

/-- Rewriting one slot changes the sum by that slot, apart from what finishing takes away. -/
theorem stages_of_update {i : Fin n} {x : Worker J}
    (hworkers : s'.workers = Function.update s.workers i x)
    (hfinished : s.finished = true → s'.finished = true)
    (hold : (s.workers i).stage c n s'.finished = (s.workers i).stage c n s.finished) :
    s'.stages c + (s.workers i).stage c n s.finished ≤
      s.stages c + x.stage c n s'.finished := by
  have hupdate := sumSlots_update (fun w => Worker.stage c n s'.finished w) s.workers i x
  -- being finished can only lower what the slots have to go
  have hmono : ∑ j, (s.workers j).stage c n s'.finished ≤ s.stages c :=
    Finset.sum_le_sum fun j _ => Worker.stage_le c n hfinished _
  rw [← hworkers, hold] at hupdate
  show ∑ j, (s'.workers j).stage c n s'.finished + _ ≤ _
  omega

omit [DecidableEq J] in
/-- The count of running jobs under an assignment to a slot. -/
theorem nRunning_of_update {i : Fin n} {x : Worker J}
    (hworkers : s'.workers = Function.update s.workers i x) :
    s'.nRunning + (s.workers i).running.toNat = s.nRunning + x.running.toNat := by
  rw [State.nRunning, hworkers]
  exact countSlots_update _ _ _ _

/-- The slot was not free, so what it has to go does not depend on the others. -/
theorem rank_lt_of_update {i : Fin n} {x : Worker J}
    (hworkers : s'.workers = Function.update s.workers i x) (hne : (s.workers i).phase ≠ .none)
    (hfinished : s.finished = true → s'.finished = true)
    (hlt : s'.load c + x.stage c n s'.finished < s.load c + (s.workers i).stage c n s.finished) :
    s'.rank c < s.rank c := by
  have hstages := stages_of_update (c := c) hworkers hfinished (Worker.stage_of_ne hne _ _)
  rw [State.rank, State.rank]
  omega

/-- The slot goes on, and nothing is decided. -/
theorem rank_lt_of_stage {i : Fin n} {x : Worker J}
    (hrunning : x.running = (s.workers i).running)
    (hstage : x.stage c n s.finished < (s.workers i).stage c n s.finished) :
    (s.setW i x).rank c < s.rank c := by
  have hcount : (s.setW i x).nRunning = s.nRunning := by
    have hupdate : (s.setW i x).nRunning + (s.workers i).running.toNat =
        s.nRunning + x.running.toNat := nRunning_of_update rfl
    rw [hrunning] at hupdate
    exact Nat.add_right_cancel hupdate
  -- without a change in what runs, the jobs weigh what they did
  have hload : (s.setW i x).load c = s.load c := by
    rw [State.load, hcount]
    rfl
  have hfinished : (s.setW i x).finished = s.finished := by
    rw [State.finished, hcount]
    rfl
  have hstages : (s.setW i x).stages c + (s.workers i).stage c n s.finished ≤
      s.stages c + x.stage c n (s.setW i x).finished :=
    stages_of_update rfl (fun h => hfinished.trans h) (by rw [hfinished])
  rw [hfinished] at hstages
  rw [State.rank, State.rank, hload]
  omega

/-! ## Every transition -/

/-- An idle worker is given a job that was waiting. -/
theorem take_rank {i : Fin n} {job : J}
    (hworkers : s'.workers = Function.update s.workers i ((s.workers i).take job))
    (hidle : (s.workers i).phase = .idle) (hfinished : s.finished = true → s'.finished = true)
    (hload : s'.nRunning = s.nRunning + 1 → s'.load c + 1 = s.load c) : s'.rank c < s.rank c := by
  have hcount : s'.nRunning = s.nRunning + 1 := by
    simpa [Worker.running, hidle, Worker.take] using nRunning_of_update hworkers
  have hless := hload hcount
  have hold : (s.workers i).stage c n s.finished = 2 := by simp [Worker.stage, hidle]
  have hnew : ((s.workers i).take job).stage c n s'.finished ≤ 2 := by
    show (if ((s.workers i).take job).rss < ((s.workers i).take job).peak c then 2 else 1) ≤ 2
    split <;> omega
  refine rank_lt_of_update hworkers (by simp [hidle]) hfinished ?_
  omega

/-- A job of `solo` weighs one more than a job in flight in Solo mode. -/
theorem takeSolo_rank {i : Fin n} (hfinished : s.finished = true → (s.doTakeSolo i).finished = true)
    (hguard : s.canTakeSolo i = true) : (s.doTakeSolo i).rank c < s.rank c := by
  simp only [State.canTakeSolo, Bool.not_eq_true', decide_eq_true_eq] at hguard
  obtain ⟨-, hidle, hmode, hzero, hpos⟩ := hguard
  obtain ⟨job, hjob⟩ := Option.isSome_iff_exists.mp
    (List.getLast?_isSome.mpr (List.ne_nil_of_length_pos hpos))
  have htake : s.doTakeSolo i = { s.setW i ((s.workers i).take job) with
      solo := s.solo.dropLast } := by
    rw [State.doTakeSolo, hjob]
  have hworkers : (s.doTakeSolo i).workers =
      Function.update s.workers i ((s.workers i).take job) := by
    rw [htake]
    rfl
  refine take_rank hworkers hidle hfinished fun hcount => ?_
  -- `pop_back` on a queue that is not empty
  have hlength : s.solo.length = s.solo.dropLast.length + 1 := by
    rw [List.length_dropLast]
    omega
  have hmul := Nat.mul_add_one (4 * n + 7) s.solo.dropLast.length
  rw [State.load, hcount, htake]
  show (4 * n + 13) * s.todo.card + (4 * n + 7) * s.solo.dropLast.length +
    State.flight n (s.nRunning + 1) s.mode + (4 * n + 6) * (c.externalKills - s.externalKills) + 1 =
    s.load c
  rw [State.load, hlength, hzero, hmode, State.flight, State.flight]
  omega

/-- A job of `todo` weighs one more than a job in flight in parallel mode. -/
theorem takeTodo_rank {i : Fin n} {job : J}
    (hfinished : s.finished = true → (s.doTakeTodo i job).finished = true)
    (hguard : s.canTakeTodo c i = true) (hjob : job ∈ s.todo) :
    (s.doTakeTodo i job).rank c < s.rank c := by
  simp only [State.canTakeTodo, Bool.not_eq_true', decide_eq_true_eq] at hguard
  obtain ⟨-, hidle, hmode, -, -, -⟩ := hguard
  have hworkers : (s.doTakeTodo i job).workers =
      Function.update s.workers i ((s.workers i).take job) := rfl
  refine take_rank hworkers hidle hfinished fun hcount => ?_
  have hcard : s.todo.card = (s.todo \ {job}).card + 1 := by
    rw [Finset.sdiff_singleton_eq_erase, Finset.card_erase_add_one hjob]
  have hmul := Nat.mul_add_one (4 * n + 13) (s.todo \ {job}).card
  have hrun := Nat.mul_add_one (4 * n + 12) s.nRunning
  rw [State.load, hcount]
  show (4 * n + 13) * (s.todo \ {job}).card + (4 * n + 7) * s.solo.length +
    State.flight n (s.nRunning + 1) s.mode + (4 * n + 6) * (c.externalKills - s.externalKills) + 1 =
    s.load c
  rw [State.load, hcard, hmode, State.flight, State.flight]
  omega

/-- Nothing runs beside the one worker of Solo mode. -/
theorem nRunning_of_solo {i : Fin n} {x : Worker J} (hpolicy : (s.erase c).Inv)
    (hworkers : s'.workers = Function.update s.workers i x) (hmode : s.mode = .solo)
    (halive : (s.workers i).alive = true) (hx : x.running = false) : s'.nRunning = 0 := by
  refine countSlots_eq_zero.mpr fun k => ?_
  rw [hworkers]
  by_cases hk : k = i
  · rw [hk, Function.update_self]
    exact hx
  · rw [Function.update_of_ne hk]
    by_contra hrunning
    rw [Bool.not_eq_false] at hrunning
    have hkalive := Policy.Worker.alive_of_running (w := (s.workers k).erase) hrunning
    exact hk (countSlots_le_one (hpolicy.alone hmode) hkalive halive)

/-- A job that ends pays for the new start of its worker. -/
theorem finish_rank {i : Fin n} (hpolicy : (s.erase c).Inv)
    (hfinished : s.finished = true → (s.doFinish c i).finished = true)
    (hguard : s.canFinish c i = true) : (s.doFinish c i).rank c < s.rank c := by
  simp only [State.canFinish, decide_eq_true_eq] at hguard
  obtain ⟨hbusy, hpeak⟩ := hguard
  let retained := (s.workers i).heap + ((s.workers i).peak c - (s.workers i).heap) / 2
  let x : Worker J := { phase := .starting, heap := retained, rss := retained }
  have hworkers : (s.doFinish c i).workers = Function.update s.workers i x := rfl
  have hcount : (s.doFinish c i).nRunning + 1 = s.nRunning := by
    have hupdate := nRunning_of_update hworkers
    rw [show (s.workers i).running = true by simp [Worker.running, hbusy]] at hupdate
    exact hupdate
  have hnew : x.stage c n (s.doFinish c i).finished ≤ 5 := by
    show (if retained > c.budget / n then 5 else 3) ≤ 5
    split <;> omega
  have hold : (s.workers i).stage c n s.finished = 1 := by simp [Worker.stage, hbusy, hpeak]
  -- either way the job was worth more than a worker that starts
  have hflight : State.flight n (s.doFinish c i).nRunning .parallel + 5 ≤
      State.flight n s.nRunning s.mode := by
    rw [← hcount]
    cases hmode : s.mode with
    | solo =>
      rw [nRunning_of_solo hpolicy hworkers hmode (by simp [Worker.alive, hbusy]) (by rfl)]
      rw [State.flight, State.flight]
      omega
    | parallel =>
      have hmul := Nat.mul_add_one (4 * n + 12) (s.doFinish c i).nRunning
      rw [State.flight, State.flight]
      omega
  refine rank_lt_of_update hworkers (by simp [hbusy]) hfinished ?_
  rw [State.load, State.load]
  show (4 * n + 13) * s.todo.card + (4 * n + 7) * s.solo.length +
    State.flight n (s.doFinish c i).nRunning .parallel +
    (4 * n + 6) * (c.externalKills - s.externalKills) + _ < _
  omega

/-! ### A killed worker -/

namespace State

variable (s : State J n) (i : Fin n)

/-- What the EOF of a killed worker leaves of the slots, -/
theorem workers_doKilledEof : (s.doKilledEof i).workers = Function.update s.workers i {} := by
  rw [doKilledEof]
  split_ifs <;> rfl

/-- of the queue, -/
theorem todo_doKilledEof : (s.doKilledEof i).todo = s.todo := by
  rw [doKilledEof]
  split_ifs <;> rfl

/-- of the mode, -/
theorem mode_doKilledEof : (s.doKilledEof i).mode = .parallel := by
  rw [doKilledEof]
  split_ifs <;> rfl

/-- and of the kills the kernel has left. -/
theorem externalKills_doKilledEof : (s.doKilledEof i).externalKills =
    if (s.workers i).phase = .killed then s.externalKills else s.externalKills + 1 := by
  rw [doKilledEof]
  dsimp only
  split_ifs <;> rfl

/-- A job that was not alone is tried again. -/
theorem length_doKilledEof : (s.doKilledEof i).solo.length ≤ s.solo.length +
    if (s.workers i).running = true ∧ s.mode = .parallel then 1 else 0 := by
  rw [doKilledEof]
  dsimp only
  cases hr : (s.workers i).running with
  | false => exact Nat.le_add_right _ _
  | true =>
    cases hmode : s.mode with
    | solo => exact Nat.le_add_right _ _
    | parallel =>
      show (s.solo ++ (s.workers i).job.toList).length ≤ s.solo.length + 1
      rw [List.length_append]
      cases (s.workers i).job <;> simp

end State

/-- The EOF of a killed worker: the job comes closer to a verdict, or the kernel has one
kill less to give. -/
theorem killedEof_rank {i : Fin n} (hpolicy : (s.erase c).Inv)
    (hfinished : s.finished = true → (s.doKilledEof i).finished = true)
    (hguard : s.canKilledEof c i = true) : (s.doKilledEof i).rank c < s.rank c := by
  simp only [State.canKilledEof, decide_eq_true_eq] at hguard
  have hworkers := State.workers_doKilledEof s i
  have halive : (s.workers i).alive = true := by
    rcases hguard with hkilled | ⟨halive, -⟩
    · simp [Worker.alive, hkilled]
    · exact halive
  have hne : (s.workers i).phase ≠ .none := by simpa [Worker.alive] using halive
  have hnew : ({} : Worker J).stage c n (s.doKilledEof i).finished ≤ 4 := by
    show (if (s.doKilledEof i).finished = true then 0 else 4) ≤ 4
    split <;> omega
  have hcount : (s.doKilledEof i).nRunning + (s.workers i).running.toNat = s.nRunning :=
    nRunning_of_update hworkers
  have hlength := State.length_doKilledEof s i
  have hkills := State.externalKills_doKilledEof s i
  refine rank_lt_of_update hworkers hne hfinished ?_
  refine lt_of_le_of_lt (Nat.add_le_add_left hnew _) ?_
  -- an empty slot is worth at most four, so the load has to fall by five
  suffices hload : (s.doKilledEof i).load c + 5 ≤ s.load c by omega
  rw [State.load, State.load, State.todo_doKilledEof, State.mode_doKilledEof, ← hcount, hkills]
  cases hr : (s.workers i).running with
  | true =>
    -- the job itself pays
    rw [hr] at hlength
    have hmono : (4 * n + 6) * (c.externalKills -
        (if (s.workers i).phase = .killed then s.externalKills else s.externalKills + 1)) ≤
        (4 * n + 6) * (c.externalKills - s.externalKills) := by
      refine Nat.mul_le_mul_left _ (Nat.sub_le_sub_left ?_ _)
      split <;> omega
    cases hmode : s.mode with
    | solo =>
      rw [if_neg (by simp [hmode]), Nat.add_zero] at hlength
      have hmul := Nat.mul_le_mul_left (4 * n + 7) hlength
      rw [nRunning_of_solo hpolicy hworkers hmode halive (by rfl), State.flight, State.flight,
        Bool.toNat_true]
      omega
    | parallel =>
      rw [if_pos ⟨rfl, hmode⟩] at hlength
      have hmul := Nat.mul_le_mul_left (4 * n + 7) hlength
      rw [Nat.mul_add_one] at hmul
      have hrun := Nat.mul_add_one (4 * n + 12) (s.doKilledEof i).nRunning
      rw [State.flight, State.flight, Bool.toNat_true]
      omega
  | false =>
    -- the kernel did it, and may do so once less
    rw [hr, if_neg (by simp), Nat.add_zero] at hlength
    have hmul := Nat.mul_le_mul_left (4 * n + 7) hlength
    have hnot : (s.workers i).phase ≠ .killed := by
      intro hkilled
      simp [Worker.running, hkilled] at hr
    obtain ⟨-, -, hleft⟩ := hguard.resolve_left hnot
    have hless : c.externalKills - s.externalKills =
        c.externalKills - (s.externalKills + 1) + 1 := by
      omega
    have hkill := Nat.mul_add_one (4 * n + 6) (c.externalKills - (s.externalKills + 1))
    rw [if_neg hnot, hless, Bool.toNat_false]
    cases hmode : s.mode with
    | solo =>
      rw [nRunning_of_solo hpolicy hworkers hmode halive (by rfl), State.flight, State.flight]
      omega
    | parallel =>
      simp only [Nat.add_zero, State.flight]
      omega

/-- The switch to Solo mode drops up to `n` workers, which the weight of the parallel mode
pays for. -/
theorem enterSolo_rank (hguard : s.canEnterSolo = true) : s.doEnterSolo.rank c < s.rank c := by
  simp only [State.canEnterSolo, Bool.not_eq_true', decide_eq_true_eq] at hguard
  obtain ⟨-, hmode, -, hzero⟩ := hguard
  have hstages : s.doEnterSolo.stages c ≤ 4 * n := by
    refine (Finset.sum_le_card_nsmul _ _ 4 fun i _ => ?_).trans (by simp [Nat.mul_comm])
    show (if s.doEnterSolo.finished = true then 0 else 4) ≤ 4
    split <;> omega
  have hnone : s.doEnterSolo.nRunning = 0 := countSlots_eq_zero.mpr fun _ => rfl
  rw [State.rank, State.rank, State.load, State.load, hnone, hzero, hmode]
  show (4 * n + 13) * s.todo.card + (4 * n + 7) * s.solo.length + State.flight n 0 .solo +
    (4 * n + 6) * (c.externalKills - s.externalKills) + s.doEnterSolo.stages c < _
  rw [State.flight, State.flight]
  omega

/-! ### All of them -/

/-- A transition lowers the rank, or is a sample that kills nobody. -/
theorem rank_moves (hbase : c.base ≤ c.budget / n) (hpolicy : (s.erase c).Inv) (h : Moves c s s') :
    s'.rank c < s.rank c ∨ s' = { s with estimate := max s.estimate s.learned } := by
  -- from the policy: what is finished stays finished
  have hfinished : s.finished = true → s'.finished = true := by
    obtain ⟨e, he⟩ := moves_policy h
    rw [← State.finished_erase (c := c), ← State.finished_erase (c := c)]
    exact Policy.finished_moves (Policy.step_moves he)
  cases h with
  | @spawn i hguard =>
    -- a fresh worker starts below its share, so it does not restart at once
    simp only [State.canSpawn, Bool.not_eq_true', decide_eq_true_eq] at hguard
    refine .inl (rank_lt_of_stage (by simp [Worker.running, freshWorker, hguard.2.1]) ?_)
    simp [Worker.stage, freshWorker, hguard.1, hguard.2.1, Nat.not_lt.mpr hbase]
  | @sendExit i hguard =>
    simp only [State.canSendExit, decide_eq_true_eq] at hguard
    refine .inl (rank_lt_of_stage (by simp [Worker.running, hguard.2]) ?_)
    simp [Worker.stage, hguard.2]
  | enterSolo hguard => exact .inl (enterSolo_rank hguard)
  | takeSolo hguard => exact .inl (takeSolo_rank hfinished hguard)
  | takeTodo hguard hjob => exact .inl (takeTodo_rank hfinished hguard hjob)
  | @started i hguard =>
    have hphase : (s.workers i).phase = .starting := of_decide_eq_true hguard
    refine .inl (rank_lt_of_stage (by simp [Worker.running, hphase]) ?_)
    show 2 < (s.workers i).stage c n s.finished
    rw [Worker.stage, hphase]
    dsimp only
    split <;> omega
  | @restarted i hguard =>
    simp only [State.canRestarted, decide_eq_true_eq] at hguard
    refine .inl (rank_lt_of_stage (by simp [Worker.running, hguard.1]) ?_)
    have hold : (s.workers i).stage c n s.finished = 5 := by
      simp [Worker.stage, hguard.1, hguard.2]
    rw [hold]
    show (if s.finished = true then 0 else 4) < 5
    split <;> omega
  | finish hguard => exact .inl (finish_rank hpolicy hfinished hguard)
  | @exited i hguard =>
    -- workers are told to exit when everything is finished, when an empty slot is worth
    -- nothing
    have hphase : (s.workers i).phase = .exiting := of_decide_eq_true hguard
    have hover : s.finished = true := by
      rw [← State.finished_erase (c := c)]
      exact hpolicy.exiting i hphase
    refine .inl (rank_lt_of_stage (by simp [Worker.running, hphase]) ?_)
    simp [Worker.stage, hphase, hover]
  | killedEof hguard => exact .inl (killedEof_rank hpolicy hfinished hguard)
  | @grow i hguard =>
    -- a busy worker grows once
    simp only [State.canGrow, decide_eq_true_eq] at hguard
    refine .inl (rank_lt_of_stage (by rfl) ?_)
    have hold : (s.workers i).stage c n s.finished = 2 := by
      simp [Worker.stage, hguard.1, hguard.2]
    rw [hold, Worker.stage]
    dsimp only
    rw [hguard.1]
    exact (if_neg (Nat.lt_irrefl ((s.workers i).peak c))).trans_lt (by decide)
  | @sample victim =>
    rw [State.doSample]
    dsimp only
    split
    · next hover =>
      -- the victim had a stage to lose
      let s₁ : State J n := { s with estimate := max s.estimate s.learned }
      have hrank : (s₁.setW victim { s.workers victim with phase := .killed }).rank c < s₁.rank c :=
        rank_lt_of_stage (by simp [Worker.running, s₁, hover.2]) (by
          have hstage : 0 < (s.workers victim).stage c n s.finished := by
            rw [Worker.stage, hover.2]
            dsimp only
            split <;> omega
          exact hstage)
      exact .inl hrank
    · exact .inr rfl

/-! ## Every run -/

/-- The step changes more than the ghost. -/
def changes (c : Constants J) (x : Run J n × Event J n) : Bool :=
  (step c x.1 x.2).any fun r => r.st ≠ x.1.st

/-- Every change of the state costs one unit of fuel, samples included. -/
theorem fuel_moves (hbase : c.base ≤ c.budget / n) (hpolicy : (s.erase c).Inv) (h : Moves c s s') :
    (decide (s' ≠ s)).toNat + s'.fuel c ≤ s.fuel c := by
  have hle := Bool.toNat_le (decide (s' ≠ s))
  have hlearn := Bool.toNat_le (decide (s'.estimate < s'.learned))
  rcases rank_moves hbase hpolicy h with hlt | heq
  · rw [State.fuel, State.fuel]
    omega
  · -- the estimate is as large as it can be until something else happens
    have hnone : decide (s'.estimate < s'.learned) = false := by
      rw [heq]
      exact decide_eq_false (Nat.not_lt.mpr (Nat.le_max_right _ _))
    have hrank : s'.rank c = s.rank c := by
      rw [heq]
      rfl
    rw [State.fuel, State.fuel, hrank, hnone]
    by_cases hlt : s.estimate < s.learned
    · rw [decide_eq_true hlt, Bool.toNat_false, Bool.toNat_true]
      omega
    · have hsame : s' = s := by rw [heq, Nat.max_eq_left (Nat.not_lt.mp hlt)]
      rw [hsame]
      simp

/-- What a run starts with. -/
theorem fuel_init_le (n : Nat) (c : Constants J) : (init c : State J n).fuel c ≤
    2 * ((4 * n + 13) * c.jobs.card + (4 * n + 6) * c.externalKills + 8 * n + 1) := by
  have hlearn : (init c : State J n).learned = 0 := by
    simp [State.learned, init, Worker.running]
  have hstages : (init c : State J n).stages c ≤ 4 * n := by
    refine (Finset.sum_le_card_nsmul _ _ 4 fun i _ => ?_).trans (by simp [Nat.mul_comm])
    show (if (init c : State J n).finished = true then 0 else 4) ≤ 4
    split <;> omega
  have hnone : (init c : State J n).nRunning = 0 := countSlots_eq_zero.mpr fun _ => rfl
  rw [State.fuel, hlearn, State.rank, State.load, hnone]
  show 2 * ((4 * n + 13) * c.jobs.card + (4 * n + 7) * 0 + ((4 * n + 12) * 0 + (4 * n + 1)) +
    (4 * n + 6) * (c.externalKills - 0) + (init c : State J n).stages c) +
    (decide ((init c : State J n).estimate < 0)).toNat ≤ _
  rw [decide_eq_false (Nat.not_lt_zero _), Bool.toNat_false, Nat.sub_zero]
  omega

/-- A step that leads to another state changes something. -/
theorem changes_of_ne {e : Event J n} (hstep : step c r e = some ⟨s', r.st.finished⟩)
    (hne : s' ≠ r.st) : changes c (r, e) = true := by
  rw [changes, hstep, Option.any_some]
  exact decide_eq_true hne

/-- A slot that goes into another phase. -/
theorem changes_of_update {e : Event J n} {i : Fin n} {w : Worker J} {phase : Phase}
    (hstep : step c r e = some ⟨s', r.st.finished⟩)
    (hworkers : s'.workers = Function.update r.st.workers i w)
    (hold : (r.st.workers i).phase = phase) (hne : w.phase ≠ phase) : changes c (r, e) = true := by
  refine changes_of_ne hstep fun heq => hne ?_
  have hslot : s'.workers i = w := by rw [hworkers, Function.update_self]
  rw [← hslot, heq, hold]

/-- What the model calls enabled does change something, and leaves the kernel alone. -/
theorem changes_of_someEnabled (h : r.st.someEnabled c) : r.st.terminated = true ∨
    ∃ e, changes c (r, e) = true ∧ ∀ i, e = .killedEof i → (r.st.workers i).phase = .killed := by
  rcases h with hover | henter | ⟨i, h⟩
  · exact .inl hover
  · refine .inr ⟨.enterSolo, changes_of_ne (if_pos henter) fun heq => ?_, fun i h => by cases h⟩
    simp only [State.canEnterSolo, Bool.not_eq_true', decide_eq_true_eq] at henter
    have hmode : Mode.solo = r.st.mode := congrArg State.mode heq
    rw [henter.2.1] at hmode
    cases hmode
  rcases h with h | h | h | h | h | h | h | h | h | h
  -- one event for each way to be enabled, in the order of the model
  · have hnone := (of_decide_eq_true h).2.1
    exact .inr ⟨.spawn i, changes_of_update (if_pos h) rfl hnone (by intro h; cases h),
      fun k hk => by cases hk⟩
  · have hidle := (of_decide_eq_true h).2
    exact .inr ⟨.sendExit i, changes_of_update (if_pos h) rfl hidle (by intro h; cases h),
      fun k hk => by cases hk⟩
  · have hguard := of_decide_eq_true h
    obtain ⟨job, hjob⟩ := Option.isSome_iff_exists.mp
      (List.getLast?_isSome.mpr (List.ne_nil_of_length_pos hguard.2.2.2.2))
    have hworkers : (r.st.doTakeSolo i).workers =
        Function.update r.st.workers i ((r.st.workers i).take job) := by
      rw [State.doTakeSolo, hjob]
      rfl
    exact .inr ⟨.takeSolo i, changes_of_update (if_pos h) hworkers hguard.2.1
      (by intro h; cases h), fun k hk => by cases hk⟩
  · have hguard := of_decide_eq_true h
    obtain ⟨job, hjob⟩ := Finset.nonempty_iff_ne_empty.mpr hguard.2.2.2.2.1
    have hchosen : (r.st.canTakeTodo c i && decide (job ∈ r.st.todo)) = true := by
      rw [h, decide_eq_true hjob]
      rfl
    exact .inr ⟨.takeTodo i job, changes_of_update (w := (r.st.workers i).take job)
      (if_pos hchosen) rfl hguard.2.1 (by intro h; cases h), fun k hk => by cases hk⟩
  · exact .inr ⟨.started i, changes_of_update (if_pos h) rfl (of_decide_eq_true h)
      (by intro h; cases h), fun k hk => by cases hk⟩
  · exact .inr ⟨.restarted i, changes_of_update (if_pos h) rfl (of_decide_eq_true h).1
      (by intro h; cases h), fun k hk => by cases hk⟩
  · exact .inr ⟨.finish i, changes_of_update (if_pos h) rfl (of_decide_eq_true h).1
      (by intro h; cases h), fun k hk => by cases hk⟩
  · exact .inr ⟨.exited i, changes_of_update (if_pos h) rfl (of_decide_eq_true h)
      (by intro h; cases h), fun k hk => by cases hk⟩
  · have hguard : r.st.canKilledEof c i = true := decide_eq_true (.inl h)
    refine .inr ⟨.killedEof i, changes_of_update (if_pos hguard) (State.workers_doKilledEof _ _) h
      (by intro h; cases h), fun k hk => ?_⟩
    obtain rfl := Event.killedEof.inj hk
    exact h
  · refine .inr ⟨.grow i, changes_of_ne (if_pos h) fun heq => ?_, fun k hk => by cases hk⟩
    have hslot : (r.st.doGrow c i).workers i = r.st.workers i := by rw [heq]
    rw [State.doGrow, State.workers_setW_self] at hslot
    -- growing is not yet done, so the reading does change
    have hrss : (r.st.workers i).peak c = (r.st.workers i).rss := congrArg Worker.rss hslot
    exact absurd hrss (of_decide_eq_true h).2.ne'

/-- **No livelock**: a run changes its state only so often, and until everything is over it
can be changed without the kernel. -/
theorem terminates (hn : 0 < n) (hbase : c.base ≤ c.budget / n)
    {h : List (Run J n × Event J n)} (ht : (system n c).Trail System.anyEnv h r) :
    h.countP (changes c) ≤
      2 * ((4 * n + 13) * c.jobs.card + (4 * n + 6) * c.externalKills + 8 * n + 1) ∧
    (r.st.terminated = true ∨ ∃ e, changes c (r, e) = true ∧
      ∀ i, e = .killedEof i → (r.st.workers i).phase = .killed) := by
  refine ⟨?_, changes_of_someEnabled ((sound_reachable ht.reachable).someEnabled hn)⟩
  -- the changes so far and the fuel left are at most the fuel at the start
  have hcount : h.countP (changes c) + r.st.fuel c ≤ (init c : State J n).fuel c := by
    refine ht.countP_add_le (μ := fun r => r.st.fuel c) fun {r r' e} hr _ hstep => ?_
    have hstep' : step c r e = some r' := hstep
    have hchanges : changes c (r, e) = decide (r'.st ≠ r.st) := by
      rw [changes, hstep', Option.any_some]
    rw [hchanges]
    exact fuel_moves hbase (sound_reachable hr).policy (step_moves hstep').1
  have hinit := fuel_init_le n c
  omega

/-- The run with two kills, in which more is still to come. -/
theorem terminates_killedTwice :
    ∃ h r, (system 3 main).Trail System.anyEnv h r ∧ h.length = 13 ∧
      h.countP (changes main) ≤ 372 ∧ r.st.terminated = false := by
  have hrun : ((system 3 main).trailOf killedTwice).isSome = true := by rfl
  obtain ⟨⟨h, r⟩, hx⟩ := Option.isSome_iff_exists.mp hrun
  have ht : (system 3 main).Trail System.anyEnv h r :=
    System.trail_of_trailOf (fun _ _ _ => trivial) hx
  have hbound := (terminates (by decide) (by decide) ht).1
  refine ⟨h, r, ht, ?_, hbound, ?_⟩
  · have hlength : ((system 3 main).trailOf killedTwice).any (fun x => x.1.length = 13) = true := by
      rfl
    rw [hx] at hlength
    exact of_decide_eq_true hlength
  · have hover : ((system 3 main).trailOf killedTwice).any
        (fun x => x.2.st.terminated = false) = true := by rfl
    rw [hx] at hover
    exact of_decide_eq_true hover

end Quint

end NixEvalJobs
