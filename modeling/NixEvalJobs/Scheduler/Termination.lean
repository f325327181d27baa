import NixEvalJobs.Scheduler.Exit
import NixEvalJobs.Scheduler.Retries

/-!
# Scheduler — no livelock

Workers are evicted, respawned, torn down for Solo and replaced, and nothing in the code
counts how often. What the scheduler does is paid for in advance: handing out a job pays
for the eviction, the retry and the tear-down that it may lead to. A worker that is lost
without a job has not been paid for.

* `charge` — what a slot has still to spend.
* `spends_step` — no event does more than it pays for.
* `attempts_le`, `responses_le` — and a job is handed out twice and answered once at most.

Summed over a run this bounds its history by the jobs it has handed out and the workers it
has lost, and how many these are depends on the processes at the other ends of the pipes.
-/

namespace NixEvalJobs

/-- What is counted is counted under one of the names. -/
theorem countP_le_sum {ε ι : Type} {p : ε → Bool} {q : ι → ε → Bool} {names : Finset ι}
    {l : List ε} (h : ∀ e ∈ l, p e = true → ∃ i ∈ names, q i e = true) :
    l.countP p ≤ ∑ i ∈ names, l.countP (q i) := by
  induction l with
  | nil => simp
  | cons e l ih =>
    have htail := ih fun e' he' => h e' (List.mem_cons_of_mem _ he')
    simp only [List.countP_cons, Finset.sum_add_distrib]
    refine Nat.add_le_add htail ?_
    split
    · next hp =>
      obtain ⟨i, hi, hq⟩ := h e (List.mem_cons_self ..) hp
      have hone := Finset.single_le_sum (f := fun i => if q i e = true then 1 else 0)
        (fun _ _ => Nat.zero_le _) hi
      rwa [if_pos hq] at hone
    · exact Nat.zero_le _

variable {n : Nat}

/-- The effect hands out a job. -/
def Effect.isHandOut : Effect n → Bool
  | .handedOut _ _ _ _ => true
  | _ => false

/-- The effect is an answer. -/
def Effect.isResponse : Effect n → Bool
  | .responded _ _ => true
  | _ => false

namespace Scheduler

/-- How often a job was handed out. -/
def attempts (trace : List (Effect n)) : Nat := trace.countP Effect.isHandOut

/-- How often a job was answered. -/
def responses (trace : List (Effect n)) : Nat := trace.countP Effect.isResponse

/-- What a slot may still do: to get a process, to be told to exit, and for a job to be
evicted and to be run alone, for which everything is torn down. -/
def charge (n : Nat) (finished : Bool) : Phase → Nat
  -- after the end an empty slot stays empty
  | .none => if finished then 0 else 2
  | .starting | .idle => 1
  | .busy => 2 * n + 5
  | .killed => 2 * n + 4
  | .exiting => 0

/-- What entering Solo may take. -/
def reserve (n : Nat) : Mode → Nat
  | .parallel => 2 * n + 1
  | .solo => 0

/-- What the slots and the mode have still to spend. -/
def credit (s : Scheduler n) : Nat :=
  ∑ i, charge n s.finished (s.workers i).phase + reserve n s.mode

/-- The worker of the event is lost without a job. -/
def drops : Config n × Event n → Bool
  | (c, .line idx line _) => (c.sched.workers idx).phase = .starting ∧ line = msgRestart
  | (c, .eof idx _) =>
    (c.sched.workers idx).phase = .starting ∨ (c.sched.workers idx).phase = .idle
  | _ => false

/-- What is done from `s` to `s'` is paid for, with `k` workers that are lost. -/
def Spends (k : Nat) (s s' : Scheduler n) : Prop :=
  s'.trace.length + s'.credit + attempts s.trace * (2 * n + 5) ≤
    s.trace.length + s.credit + attempts s'.trace * (2 * n + 5) + k * (2 * n + 2)

variable {X : Externals} {nrWorkers maxMemorySize : UInt64} {resolver : Bool}
  {s m s' : Scheduler n} {i : Fin n} {k : Nat}

/-! ## Accounts -/

/-- Doing nothing costs nothing. -/
theorem Spends.refl (s : Scheduler n) : Spends 0 s s := by
  unfold Spends
  omega

/-- Two parts of a run cost as much as the run. -/
theorem Spends.trans {j : Nat} (h : Spends j s m) (h' : Spends k m s') :
    Spends (j + k) s s' := by
  unfold Spends at h h' ⊢
  rw [Nat.add_mul]
  omega

/-- A hand-out is counted. -/
@[simp] theorem attempts_handedOut (path : AttrPath) (source : Source) (mode : Mode)
    (trace : List (Effect n)) :
    attempts (.handedOut i path source mode :: trace) = attempts trace + 1 :=
  List.countP_cons_of_pos rfl

/-- Nothing else is. -/
theorem attempts_cons {e : Effect n} (he : e.isHandOut = false) (trace : List (Effect n)) :
    attempts (e :: trace) = attempts trace :=
  List.countP_cons_of_neg (by simp [he])

/-- Once everything is done, nobody needs a process. -/
theorem charge_mono {a b : Bool} (h : a = true → b = true) (phase : Phase) :
    charge n b phase ≤ charge n a phase := by
  cases phase with
  | none =>
    cases a with
    | true => rw [h rfl]
    | false => cases b <;> simp [charge]
  | starting | idle | busy | killed | exiting => exact le_rfl

/-- One slot changes the credit by what it has to spend. -/
theorem credit_update {w : Worker} (hworkers : s'.workers = Function.update s.workers i w)
    (hfinished : s.finished = true → s'.finished = true) :
    s'.credit + charge n s.finished (s.workers i).phase + reserve n s.mode ≤
      s.credit + charge n s.finished w.phase + reserve n s'.mode := by
  have hsum := sumSlots_update (fun w : Worker => charge n s.finished w.phase) s.workers i w
  have hmono : ∑ j, charge n s'.finished (s'.workers j).phase ≤
      ∑ j, charge n s.finished (s'.workers j).phase :=
    Finset.sum_le_sum fun j _ => charge_mono hfinished _
  rw [hworkers] at hmono
  unfold credit
  rw [hworkers]
  omega

/-- One slot has changed, and with it the history. -/
theorem spends_update {w : Worker} (hworkers : s'.workers = Function.update s.workers i w)
    (hfinished : s.finished = true → s'.finished = true)
    (hcost : s'.trace.length + charge n s.finished w.phase + reserve n s'.mode +
        attempts s.trace * (2 * n + 5) ≤
      s.trace.length + charge n s.finished (s.workers i).phase + reserve n s.mode +
        attempts s'.trace * (2 * n + 5) + k * (2 * n + 2)) : Spends k s s' := by
  have hcredit := credit_update hworkers hfinished
  unfold Spends
  omega

/-- No slot has changed its phase, and nothing else was done. -/
theorem spends_same (hphase : ∀ j, (s'.workers j).phase = (s.workers j).phase)
    (hfinished : s.finished = true → s'.finished = true) (hmode : s'.mode = s.mode)
    (htrace : s'.trace = s.trace) : Spends 0 s s' := by
  have hsum : ∑ j, charge n s'.finished (s'.workers j).phase ≤
      ∑ j, charge n s.finished (s.workers j).phase :=
    Finset.sum_le_sum fun j _ => hphase j ▸ charge_mono hfinished _
  unfold Spends credit
  rw [hmode, htrace]
  omega

/-! ## What the handlers spend -/

/-- What is finished stays finished, whoever answers. -/
theorem finished_of_move {p p' : Option Nat}
    (hm : Move X (fun _ _ _ => True) ⟨s, p⟩ ⟨s', p'⟩) (h : s.finished = true) :
    s'.finished = true :=
  (finished_move hm h).1

/-- The tear-down for Solo is paid for by the reserve of Parallel mode. -/
theorem spends_enterSolo (hmode : s.mode = .parallel) (hsolo : s.solo ≠ []) :
    Spends 0 s s.enterSolo := by
  have hwork : s.enterSolo.finished = false := by
    rw [Bool.eq_false_iff]
    exact fun hc => hsolo (finished_iff.mp hc).2.1
  -- every slot is empty then, which is what Parallel mode has put by
  have hempty : s.enterSolo.credit = n * 2 := by
    unfold credit
    rw [hwork]
    change ∑ _ : Fin n, 2 + 0 = n * 2
    simp
  have hlength : s.enterSolo.trace.length = s.trace.length + 1 := rfl
  have hattempts : attempts s.enterSolo.trace = attempts s.trace := attempts_cons rfl _
  have hreserve : 2 * n + 1 ≤ s.credit := by
    unfold credit
    rw [hmode]
    exact Nat.le_add_left ..
  unfold Spends
  rw [hempty, hlength, hattempts]
  omega

/-- A hand-out is paid for by the job. -/
theorem spends_take {own : UInt64} {path : AttrPath} {source : Source}
    (hidle : (s.workers i).phase = .idle)
    (htake : s.takeJob i own = .ok (some (path, source), m)) :
    Spends 0 s (m.handOut i path source) := by
  have hmove : Move (Externals.plain []) (fun _ _ _ => True) ⟨s, some 0⟩
      ⟨m.handOut i path source, some 0⟩ :=
    takeJob_move hidle htake
  have hframe : m.trace = s.trace ∧ m.mode = s.mode := by
    rcases takeJob_cases htake with ⟨hnone, -⟩ | ⟨_, -, -, -, -, rfl⟩ | ⟨_, -, -, -, -, -, rfl⟩
    · cases hnone
    · exact ⟨rfl, rfl⟩
    · exact ⟨rfl, rfl⟩
  refine spends_update (takeJob_handOut_workers htake) (finished_of_move hmove) ?_
  show (_ :: m.trace).length + (2 * n + 5) + reserve n m.mode + _ ≤ _
  rw [hidle, hframe.1, hframe.2, List.length_cons]
  change _ ≤ _ + 1 + _ + attempts (_ :: m.trace) * _ + _
  rw [hframe.1, attempts_handedOut, Nat.add_mul]
  omega

/-- An empty slot has at most a process and its end to spend. -/
theorem charge_none_le (finished : Bool) : charge n finished .none ≤ 2 := by
  cases finished <;> simp [charge]

/-- The job of a worker that is gone pays for what comes next, or the worker was lost. -/
theorem spends_onEof {wait : Wait} (hexits : s.ExitsFinished)
    (hphase : (s.workers i).phase ≠ .none) (h : s.onEof X i wait = .ok s') :
    Spends (drops ((⟨s, none⟩ : Config n), .eof i wait)).toNat s s' := by
  have hfinished : s.finished = true → s'.finished = true :=
    finished_of_move (p := none) (onEof_move h)
  refine spends_update (w := {}) (onEof_workers h) hfinished ?_
  have hempty : charge n s.finished ({} : Worker).phase ≤ 2 := charge_none_le s.finished
  rcases onEof_cases h with ⟨hexiting, rfl⟩ | ⟨hexiting, -, hkilled⟩
  · -- nobody exits before everything is done
    have hdone : s.finished = true := hexits.phase i hexiting
    have hfree : charge n s.finished ({} : Worker).phase = 0 := by
      rw [hdone]
      rfl
    rw [hfree]
    show s.trace.length + 0 + reserve n s.mode + _ ≤ _ + attempts s.trace * _ + _
    omega
  rcases onKilled_cases hkilled with ⟨hrunning, rfl⟩ | ⟨path, hholds, hmode, rfl⟩ |
    ⟨path, dumped, hholds, hmode, rfl⟩
  · -- it was lost without a job, which is what `k` counts
    have hlost : (s.workers i).phase = .starting ∨ (s.workers i).phase = .idle := by
      cases hw : (s.workers i).phase with
      | none => exact absurd hw hphase
      | starting => exact .inl rfl
      | idle => exact .inr rfl
      | exiting => exact absurd hw hexiting
      | busy | killed =>
        rw [Worker.running, hw] at hrunning
        cases hrunning
    have hdrops : drops ((⟨s, none⟩ : Config n), .eof i wait) = true := decide_eq_true hlost
    have hcharge : charge n s.finished (s.workers i).phase = 1 := by
      rcases hlost with hw | hw <;> rw [hw] <;> rfl
    rw [hdrops, hcharge]
    show s.trace.length + _ + (2 * n + 1) + attempts s.trace * _ ≤
      _ + attempts s.trace * _ + 1 * (2 * n + 2)
    omega
  · -- the job goes to `solo`
    have hcharge : 2 * n + 4 ≤ charge n s.finished (s.workers i).phase := by
      rcases (Worker.holds_iff.mp hholds).1 with hw | hw <;> rw [hw] <;> simp [charge]
    show (_ :: s.trace).length + _ + (2 * n + 1) + _ ≤
      _ + reserve n s.mode + attempts (_ :: s.trace) * _ + _
    rw [List.length_cons, attempts_cons rfl, hmode]
    change _ ≤ _ + (2 * n + 1) + _ + _
    omega
  · -- the budget error ends Solo
    have hcharge : 2 * n + 4 ≤ charge n s.finished (s.workers i).phase := by
      rcases (Worker.holds_iff.mp hholds).1 with hw | hw <;> rw [hw] <;> simp [charge]
    show (_ :: s.trace).length + _ + (2 * n + 1) + _ ≤ _ + attempts (_ :: s.trace) * _ + _
    rw [List.length_cons, attempts_cons rfl]
    omega

/-- The job that a worker has finished has paid for the way back to Parallel mode. -/
theorem spends_onLine {line : Str} {rss : UInt64} (h : s.onLine X i line rss = .ok s') :
    Spends (drops ((⟨s, none⟩ : Config n), .line i line rss)).toNat s s' := by
  -- ready, gone, answered, or nothing at all
  rcases onLine_cases h with ⟨hphase, rfl, rfl⟩ | ⟨hphase, rfl, rfl⟩ |
    ⟨hphase, response, json, m, -, haccept, rfl⟩ | ⟨hphase, hsame⟩
  · refine spends_update rfl (finished_of_move (X := X) (p := none) (.started hphase)) ?_
    rw [hphase]
    show s.trace.length + 1 + reserve n s.mode + _ ≤ _ + 1 + _ + attempts s.trace * _ + _
    omega
  · have hdrops : drops ((⟨s, none⟩ : Config n), .line i msgRestart rss) = true :=
      decide_eq_true ⟨hphase, rfl⟩
    have hempty : charge n s.finished ({} : Worker).phase ≤ 2 := charge_none_le s.finished
    refine spends_update rfl (finished_of_move (X := X) (p := none) (.restarted hphase)) ?_
    rw [hphase, hdrops]
    show s.trace.length + _ + reserve n s.mode + _ ≤
      _ + 1 + _ + attempts s.trace * _ + 1 * (2 * n + 2)
    omega
  · obtain ⟨hworkers, htrace, -⟩ := acceptResponse_frame haccept
    refine spends_update (i := i) (w := { (s.workers i).sampleRss rss with
      phase := .starting, attrPath := none }) ?_
      (finished_of_move (X := X) (p := none) (.finish hphase (fun _ _ => trivial) haccept)) ?_
    · rw [← hworkers]
      rfl
    · rw [hphase]
      show (_ :: m.trace).length + 1 + (2 * n + 1) + _ ≤
        _ + (2 * n + 5) + _ + attempts (_ :: m.trace) * _ + _
      rw [htrace, List.length_cons, attempts_cons rfl]
      omega
  · have hdrops : drops ((⟨s, none⟩ : Config n), .line i line rss) = false := by
      rcases hphase with hw | hw <;> simp [drops, hw]
    rw [hdrops, hsame]
    exact .refl s

/-- A turn is paid for by the slot, or by the job that it takes. -/
theorem spends_turn {env : SlotEnv} {j j' : Nat} (hexits : s.ExitsFinished)
    (h : Turn X s j i env j' s') : Spends 0 s s' := by
  cases h with
  | skip => exact .refl s
  | exit hidle hdone =>
    refine spends_update rfl (finished_of_move (X := X) (.sendExit (k := 0) hidle hdone)) ?_
    rw [hidle]
    show (_ :: s.trace).length + 0 + reserve n s.mode + _ ≤
      _ + 1 + _ + attempts (_ :: s.trace) * _ + _
    rw [List.length_cons, attempts_cons rfl]
    omega
  | sent hidle htake _ => exact spends_take hidle htake
  | @unsent path source m s' hidle _ htake heof =>
    -- the job that comes back was paid for when it was handed out
    have hmove : Move X (fun _ _ _ => True) ⟨s, some 0⟩ ⟨m.handOut i path source, some 0⟩ :=
      takeJob_move hidle htake
    have hbusy : ((m.handOut i path source).workers i).phase = .busy := by
      rw [takeJob_handOut_workers htake, Function.update_self]
    have hdrops : drops ((⟨m.handOut i path source, none⟩ : Config n), .eof i env.wait) = false :=
      by simp [drops, hbusy]
    have hback := spends_onEof (exitsFinished_move hexits hmove) (by rw [hbusy]; simp) heof
    rw [hdrops] at hback
    exact (spends_take hidle htake).trans hback
  | @spawn proc _ hnone hk hwork =>
    refine spends_update rfl (finished_of_move (X := X) (.spawn (k := 0) hnone hwork)) ?_
    rw [hnone, hwork]
    show (_ :: s.trace).length + 1 + reserve n s.mode + _ ≤
      _ + 2 + _ + attempts (_ :: s.trace) * _ + _
    rw [List.length_cons, attempts_cons rfl]
    omega

/-- An eviction is paid for by the job of the victim. -/
theorem spends_sampleMemory {own : UInt64} {rss : Fin n → UInt64}
    (h : s.sampleMemory own rss = .ok s') : Spends 0 s s' := by
  have hsample : Spends 0 s (s.sampleWorkers rss) :=
    spends_same (fun _ => rfl)
      (finished_of_move (X := Externals.plain []) (p := none) .sample) rfl rfl
  rcases sampleMemory_cases h with rfl | ⟨v, -, hv, rfl⟩
  · exact hsample
  · -- the victim pays with what its job has put by
    have hbusy := largestBusy_busy hv
    refine hsample.trans (k := 0) (spends_update (i := v) rfl
      (finished_of_move (X := Externals.plain []) (p := none) (.evict hbusy)) ?_)
    rw [hbusy]
    show (_ :: s.trace).length + (2 * n + 4) + reserve n s.mode + attempts s.trace * _ ≤
      s.trace.length + (2 * n + 5) + reserve n s.mode + attempts (_ :: s.trace) * _ + _
    rw [List.length_cons, attempts_cons rfl]
    omega

/-- **No event does more than it pays for.** -/
theorem spends_step {c c' : Config n} {e : Event n} (hpool : c.sched.PoolOk)
    (hexits : c.sched.ExitsFinished) (h : step X c e = some c') :
    Spends (drops (c, e)).toNat c.sched c'.sched := by
  cases step_steps h with
  | @began s _ =>
    show Spends 0 s s.beginDispatch
    rw [beginDispatch]
    split
    · next hsolo => exact spends_enterSolo hsolo.1 hsolo.2.1
    · exact .refl s
  | turned _ hslot => exact spends_turn hexits (dispatchSlot_turn hslot)
  | ended _ => exact .refl _
  | sampled hs' => exact spends_sampleMemory hs'
  | read _ hs' => exact spends_onLine hs'
  | @hungUp s s' idx wait hproc hs' =>
    refine spends_onEof hexits (fun hnone => ?_) hs'
    rw [(hpool idx).proc.mp hnone] at hproc
    cases hproc

/-! ## Runs -/

/-- At first every slot is empty, and the mode is Parallel. -/
theorem credit_init : (init n nrWorkers maxMemorySize resolver).credit = 4 * n + 1 := by
  have hwork : (init n nrWorkers maxMemorySize resolver).finished = false := by
    rw [Bool.eq_false_iff]
    intro hc
    have hroot : ([] : AttrPath) ∈ (init n nrWorkers maxMemorySize resolver).todo :=
      Std.ExtTreeSet.mem_insert_self
    rw [(finished_iff.mp hc).1] at hroot
    exact absurd hroot Std.ExtTreeSet.not_mem_empty
  unfold credit
  rw [hwork]
  change ∑ _ : Fin n, 2 + (2 * n + 1) = 4 * n + 1
  rw [Finset.sum_const, Finset.card_univ, Fintype.card_fin, smul_eq_mul]
  omega

/-! ## How often jobs are handed out -/

/-- What was handed out or answered was discovered. -/
theorem discovered_of_attempted (hconserved : s.Conserved) {path : AttrPath}
    (h : 0 < s.attempted path) : discovered path s.trace = true := by
  have hplaces := hconserved path
  rw [places_eq] at hplaces
  rw [← Bool.toNat_eq_one]
  have hle := Bool.toNat_le (discovered path s.trace)
  omega

/-- No job is handed out more than twice. -/
theorem attempts_le {paths : Finset AttrPath} (hconserved : s.Conserved)
    (hdispatched : s.Dispatched)
    (hpaths : ∀ path, discovered path s.trace = true → path ∈ paths) :
    attempts s.trace ≤ paths.card * 2 :=
  calc attempts s.trace
      -- every hand-out is one of a discovered path
      ≤ ∑ path ∈ paths, dispatches path s.trace := by
        refine countP_le_sum fun e he hout => ?_
        match e with
        | .handedOut i path source mode =>
          have hpos : 0 < dispatches path s.trace :=
            List.countP_pos_iff.mpr ⟨_, he, decide_eq_true rfl⟩
          have hdiscovered := discovered_of_attempted hconserved (hdispatched.fresh path hpos)
          exact ⟨path, hpaths path hdiscovered, decide_eq_true rfl⟩
    _ ≤ paths.card * 2 :=
        Finset.sum_le_card_nsmul _ _ 2 fun path _ => hdispatched.history.dispatches_le path

/-- No job is answered more than once. -/
theorem responses_le {paths : Finset AttrPath} (hconserved : s.Conserved)
    (hpaths : ∀ path, discovered path s.trace = true → path ∈ paths) :
    responses s.trace ≤ paths.card :=
  calc responses s.trace
      -- every answer is one to a discovered path
      ≤ ∑ path ∈ paths, settled path s.trace := by
        refine countP_le_sum fun e he hresponse => ?_
        match e with
        | .responded response json =>
          have hpos : 0 < settled response.attrPath s.trace :=
            List.countP_pos_iff.mpr ⟨_, he, decide_eq_true rfl⟩
          have hattempted : 0 < s.attempted response.attrPath := by
            unfold attempted
            omega
          exact ⟨_, hpaths _ (discovered_of_attempted hconserved hattempted),
            decide_eq_true rfl⟩
    _ ≤ paths.card * 1 := by
        refine Finset.sum_le_card_nsmul _ _ 1 fun path _ => ?_
        have hplaces := hconserved path
        have hle := Bool.toNat_le (discovered path s.trace)
        unfold places at hplaces
        omega
    _ = paths.card := Nat.mul_one _

end Scheduler

end NixEvalJobs
