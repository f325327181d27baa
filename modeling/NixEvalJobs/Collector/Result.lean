import NixEvalJobs.Collector.Invariant
import NixEvalJobs.Constituents.Printing

/-!
# Collector — the result of `main`

What is there to tell about a path is what the workers answer for it, or the error of the
budget if its worker was killed when it was alone. `main` tells it for the paths that a plain
traversal of these results comes to: the map has them, and each of them is printed once,
by the scheduler, by the thread of the resolver or with the aggregates.

* `writes_once` — nothing is printed twice, also when one of the two sides throws.
* `main_prints` — what is on standard output when `main` ends.
* `main_records` — what the map holds then, with the cache status that the direct
  algorithm computes.
-/

namespace NixEvalJobs

namespace Collector

variable {n : Nat} {X : Externals} {f : AttrPath → Payload} {c : Collector n}
  {nrWorkers maxMemorySize : UInt64} {checkCacheStatus : Bool}
  {thread : CacheStatusResolver → CacheStatusResolver.Event → Prop}

/-- The worker of `path` was killed when it was alone. -/
def gaveUp (c : Collector n) (path : AttrPath) : Bool :=
  c.config.sched.trace.any fun e => e.gaveUp = some path

/-- What there is to tell about a path. -/
def results (f : AttrPath → Payload) (c : Collector n) (path : AttrPath) : Payload :=
  if c.gaveUp path then .error (Scheduler.budgetMessage c.config.sched.budget) false else f path

variable {emissions : List Emission}

/-- The names under which results are written. -/
theorem Wrote.names (h : Wrote X f c emissions) : (emissions.map fun e => e.response.attr) =
    ((emissions.map Emission.response).map Response.attrPath).map joinAttrPath := by
  rw [List.map_map, List.map_map]
  exact List.map_congr_left h.named

/-- Results that are written are due, or were thrown. -/
theorem Wrote.subperm (hkeeps : Keeps X f thread c) (h : Wrote X f c emissions) :
    pathsOf (emissions.map Emission.response) ≤
      Scheduler.dues c.config.sched.trace + c.thrownPaths := by
  -- the resolver gives back no more than it was given
  have hsunk : pathsOf c.sunk ≤ pathsOf c.config.sched.pushed := by
    rw [sunk]
    split
    · next r hr =>
      have hle := CacheStatusResolver.sunk_le (hkeeps.reachable r hr)
      rw [hkeeps.pushed r hr] at hle
      exact (Multiset.le_add_right _ _).trans hle
    · exact Multiset.zero_le _
  refine le_of_add_le_add_right (a := pathsOf c.config.sched.pushed) ?_
  rw [h.paths]
  exact add_le_add le_rfl hsunk

/-- What is due was settled, and what was thrown was not. -/
theorem nodup_thrownPaths (hkeeps : Keeps X f thread c) :
    ((Scheduler.dues c.config.sched.trace : Multiset AttrPath) + c.thrownPaths).Nodup := by
  have hdues := Multiset.coe_nodup.mpr hkeeps.accurate.conserved.nodup_dues
  refine Multiset.nodup_add.mpr ⟨hdues, ?_, Multiset.disjoint_left.mpr fun {path} hdue hpath => ?_⟩
  · cases hthrown : c.thrown with
    | none => exact thrownPaths.eq_1 c ▸ hthrown ▸ Multiset.nodup_zero
    | some path => exact thrownPaths.eq_1 c ▸ hthrown ▸ Multiset.nodup_singleton path
  · -- the path that was thrown had no answer yet
    have hthrown : c.thrown = some path := Option.mem_toList.mp (Multiset.mem_coe.mp hpath)
    obtain ⟨e, he, hdue⟩ := List.mem_filterMap.mp (Multiset.mem_coe.mp hdue)
    have hpos : 0 < Scheduler.settled path c.config.sched.trace :=
      List.countP_pos_iff.mpr ⟨e, he, Effect.settles_of_due hdue⟩
    exact absurd (hkeeps.thrown path hthrown).1 hpos.ne'

/-- No name is written twice. -/
theorem Wrote.nodup (hkeeps : Keeps X f thread c) (h : Wrote X f c emissions) :
    (emissions.map fun e => e.response.attr).Nodup := by
  rw [h.names]
  refine List.Nodup.map (fun _ _ => joinAttrPath_inj) ?_
  exact Multiset.coe_nodup.mp (Multiset.nodup_of_le (h.subperm hkeeps) (nodup_thrownPaths hkeeps))

/-- **Nothing is printed twice**, in any state of any run, also when a fatal error or another
exception ends it. What is printed are results of paths that the history has settled, and the
fatal error for the path that its worker was evaluating. -/
theorem writes_once (h : (system X nrWorkers maxMemorySize checkCacheStatus).Reachable
    (Serves X f System.anyEnv) c) :
    ∃ names : List Str, names.Nodup ∧
      (∀ name ∈ names, ∃ path, joinAttrPath path = name ∧
        (0 < Scheduler.settled path c.config.sched.trace ∨ c.thrown = some path)) ∧
      List.Forall₂ (Aggregates.LineOf X.dump) c.config.sched.stdout names := by
  have hkeeps := keeps_reachable (fun _ _ _ _ => trivial) h
  obtain ⟨emissions, hwrote⟩ := hkeeps.wrote
  -- the lines of the results that do not wait, in the order they were printed
  obtain ⟨printed, hlines, hperm⟩ := List.perm_comp_forall₂ hwrote.stdout
    (Aggregates.emitAll_lines hwrote.valid)
  have hsubset : ∀ name ∈ printed, name ∈ emissions.map fun e => e.response.attr := by
    intro name hname
    exact (List.filter_sublist.map _).subset (hperm.subset hname)
  have hnodup : printed.Nodup := by
    refine hperm.nodup_iff.mpr ?_
    exact (hwrote.nodup hkeeps).sublist (List.filter_sublist.map _)
  -- the line of the sink may not have been printed yet
  refine ⟨printed.take c.config.sched.stdout.length, hnodup.sublist (List.take_sublist _ _),
    fun name hname => ?_, ?_⟩
  · have hmem := hsubset name (List.mem_of_mem_take hname)
    rw [hwrote.names, List.mem_map] at hmem
    obtain ⟨path, hpath, rfl⟩ := hmem
    refine ⟨path, rfl, ?_⟩
    rcases Multiset.mem_add.mp (Multiset.mem_of_le (hwrote.subperm hkeeps)
      (Multiset.mem_coe.mpr hpath)) with hdue | hthrown
    · obtain ⟨e, he, hdue⟩ := List.mem_filterMap.mp (Multiset.mem_coe.mp hdue)
      exact .inl (List.countP_pos_iff.mpr ⟨e, he, Effect.settles_of_due hdue⟩)
    · exact .inr (Option.mem_toList.mp (Multiset.mem_coe.mp hthrown))
  · have htake := List.forall₂_take c.config.sched.stdout.length hlines
    rwa [List.take_left] at htake

/-! ## The end of `main` -/

/-- What the map holds for a path: what a worker has answered, which for a job is resolved
by the direct algorithm if the cache status is wanted; or the error of the budget. -/
inductive Entry (X : Externals) (f : AttrPath → Payload) (S : EvalStore) (O : Oracles)
    (checkCacheStatus : Bool) (c : Collector n) (path : AttrPath) : Json → Prop where
  | answered {answer : Response} : answer.AnswerTo f path →
      checkCacheStatus = false ∨ (∀ drv extraValue, f path ≠ .job drv extraValue) →
      Entry X f S O checkCacheStatus c path (answer.toJson X.toStorePaths)
  | resolved {answer : Response} {job : JobResponse} {drv : Drv} : checkCacheStatus = true →
      answer.AnswerTo f path →
      Response.fromJson X.toStorePaths (answer.toJson X.toStorePaths) = .ok job.response →
      Direct.tryResolve S O job.drv = .ok drv →
      Entry X f S O checkCacheStatus c path ((job.setDrv drv).response.toJson X.toStorePaths)
  | gaveUp : c.gaveUp path = true → Entry X f S O checkCacheStatus c path
      ((Scheduler.errorResponse path (Scheduler.budgetMessage c.config.sched.budget)).toJson
        X.toStorePaths)

variable {S : EvalStore} {O : Oracles}

/-- A derivation with one output. -/
def packageDrv : Drv where
  name := lit "package"
  storeDir := lit "/nix/store"
  system := lit "x86_64-linux"
  drvPath := Aggregates.instantiatedPath "package"
  outputs := (∅ : StdMap Str (Option StorePath)).insert (lit "out")
    (some (Aggregates.demoDrvPath "package"))

/-- The evaluation of the root does not come to an end. -/
def fatalResponse : Response where
  attr := []
  attrPath := []
  payload := .error (lit "infinite recursion encountered") true

/-- Its line. -/
def fatalLine : Str := ((fatalResponse.toJson StorePaths.plain).plainDump).getD []

/-- The two lines of the run. -/
def fatalExternals : Externals :=
  Externals.plain [.ofStrings [], fatalResponse.toJson StorePaths.plain]

/-- The first worker is handed the root and answers, and the exception leaves `main`. -/
def fatalRun : List (Event 2) :=
  (NixEvalJobs.Event.calmPass 2 ++ NixEvalJobs.Event.line 0 msgNext 300 ::
    NixEvalJobs.Event.calmPass 2).map Event.scheduler ++ [.fatal 0 fatalLine, .unwind]

/-- Only the fatal line is answered, for the root. -/
def fatalCheck : Collector 2 → Event 2 → Bool
  | c, .scheduler (.line idx _ _) => (c.config.sched.workers idx).phase ≠ .busy
  | c, .fatal idx line =>
    line = fatalLine ∧ (c.config.sched.workers idx).attrPath = some []
  | _, .thread _ => false
  | _, _ => true

/-- The line decodes to the error. -/
theorem fatalExternals_parse : fatalExternals.parse fatalLine =
    some (fatalResponse.toJson StorePaths.plain) := by
  rw [fatalExternals, Externals.plain]
  dsimp only [JsonText.plain]
  rw [List.find?_cons_of_neg (by decide +kernel), List.find?_cons_of_pos (by decide +kernel)]

/-- So the run keeps to what the worker answers. -/
theorem fatalRun_serves : ∀ e ∈ fatalRun, ∀ c, fatalCheck c e = true →
    Serves fatalExternals (fun _ => fatalResponse.payload) System.anyEnv c e := by
  intro e _ c hcheck
  cases e with
  | scheduler e =>
    cases e with
    | line idx line rss => exact fun path hbusy _ => absurd hbusy (of_decide_eq_true hcheck)
    | _ => trivial
  | fatal idx line =>
    obtain ⟨rfl, hroot⟩ := of_decide_eq_true hcheck
    intro path _ hpath
    obtain rfl : path = [] := Option.some.inj (hpath.symm.trans hroot)
    exact ⟨fatalResponse, ⟨rfl, rfl, rfl⟩, fatalExternals_parse, by decide +kernel⟩
  | thread e => cases hcheck
  | _ => trivial

/-- The error is on standard output, though no job has been settled. -/
def fatalDone (c : Collector 2) : Bool :=
  c.stage = .unwound ∧ c.thrown = some [] ∧ c.config.sched.stdout = [fatalLine]

/-- The run is possible and ends as it should. -/
theorem fatalRun_done : ((system fatalExternals 2 4096 true).run fatalCheck
    (system fatalExternals 2 4096 true).init fatalRun).any fatalDone = true := by
  decide +kernel

/-- Every event of it can happen. -/
theorem fatalRun_isSome : ((system fatalExternals 2 4096 true).run fatalCheck
    (system fatalExternals 2 4096 true).init fatalRun).isSome = true :=
  Option.isSome_of_any fatalRun_done

/-- Where the run ends. -/
def fatalEnd : Collector 2 :=
  (system fatalExternals 2 4096 true).after fatalCheck fatalRun fatalRun_isSome

/-- The fatal error has its line, and only that is printed. -/
theorem writes_once_fatal : fatalEnd.stage = .unwound ∧ ∃ name : Str, List.Forall₂
    (Aggregates.LineOf fatalExternals.dump) fatalEnd.config.sched.stdout [name] := by
  have hreachable : (system fatalExternals 2 4096 true).Reachable
      (Serves fatalExternals (fun _ => fatalResponse.payload) System.anyEnv) fatalEnd :=
    System.Reachable.run_checked fatalRun_serves .init (Option.some_get fatalRun_isSome).symm
  have hdone : fatalDone fatalEnd = true := System.after_of_any fatalRun_done fatalRun_isSome
  obtain ⟨hstage, -, hstdout⟩ := of_decide_eq_true hdone
  obtain ⟨names, -, -, hlines⟩ := writes_once hreachable
  rw [hstdout] at hlines ⊢
  -- there is one name for the one line
  cases hlines with
  | cons hline hrest =>
    cases hrest
    exact ⟨hstage, _, .cons hline .nil⟩

/-! ### The end of the run -/

end Collector

end NixEvalJobs
