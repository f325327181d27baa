import NixEvalJobs.Constituents.Broken
import NixEvalJobs.Constituents.Order

/-!
# Aggregates — `handleConstituents`

After the evaluation the aggregates are resolved. Sorted, they are rewritten and
printed one by one; with a dependency cycle among them the two jobs that close it get
an error, and all the other aggregates one that says they are skipped.

* `handleConstituents_printed` — either way every aggregate is printed, once, as a
  value of its own job.
-/

namespace NixEvalJobs

/-- `DependencyCycle::message`. -/
def DependencyCycle.message (cycle : DependencyCycle) : Str :=
  lit "Dependency cycle: " ++ cycle.a ++ lit " <-> " ++ cycle.b

namespace Aggregates

variable (L : AggregateLibs)

/-! ## Printing a cycle -/

/-- The value of `jobs[name]`; where there is no entry, a null one is made. -/
def entryOf (jobs : JobMap) (name : Str) : Json := (jobs[name]?).getD .null

/-- `jobs[name]["error"] = text`. -/
def setError (text : Str) (r : Rewriting) (name : Str) : Except Error Rewriting := do
  let job ← (entryOf r.jobs name).assign (lit "error") (.string text)
  return { r with jobs := r.jobs.insert name job }

/-- `getCoutLock().lock() << jobs[name].dump() << "\n"`. -/
def printJob (r : Rewriting) (name : Str) : Except Error Rewriting :=
  let job := entryOf r.jobs name
  match L.dump job with
  | none => throw .json
  | some _ => return {
      jobs := r.jobs.insertIfNew name .null
      store := r.store
      printed := r.printed ++ [(name, job)] }

/-- The error of the aggregates that are not on the cycle. -/
def skippedMessage : Str := lit "Skipping aggregate because of a dependency cycle"

/-- The loop body for the remaining aggregates. -/
def skipAggregate (r : Rewriting) (jobName : Str) : Except Error Rewriting := do
  printJob L (← setError skippedMessage r jobName) jobName

/-- The visitor of a `DependencyCycle`. -/
def printCycle (jobs : JobMap) (cycle : DependencyCycle) (store : DrvStore) :
    Except Error Rewriting := do
  let r ← setError cycle.message { jobs, store } cycle.a
  let r ← setError cycle.message r cycle.b
  let r ← printJob L r cycle.a
  let r ← printJob L r cycle.b
  cycle.remainingAggregates.toList.foldlM (skipAggregate L) r

/-- `handleConstituents`: the aggregates are rewritten in order, or the cycle is reported. -/
def handleConstituents (jobs : JobMap) (store : DrvStore) : Except Error Rewriting := do
  match ← resolveNamedConstituents L jobs with
  | .inr namedConstituents => rewriteAggregates L jobs namedConstituents store
  | .inl cycle => printCycle L jobs cycle store

/-- The lines of the printed values. -/
def Rewriting.stdout (r : Rewriting) : List Str := r.printed.filterMap fun line => L.dump line.2

variable {L} {jobs : JobMap} {store : DrvStore}

/-! ## What is printed -/

/-- The value can be printed, and is one of the job `name`. -/
structure Shows (L : AggregateLibs) (jobs : JobMap) (name : Str) (json : Json) : Prop where
  dumped : (L.dump json).isSome = true
  attr : json.find (lit "attr") = (entryOf jobs name).find (lit "attr")

/-- Every entry is still the one of its own job. -/
def KeepsAttr (jobs : JobMap) (r : Rewriting) : Prop :=
  ∀ name, (entryOf r.jobs name).find (lit "attr") = (entryOf jobs name).find (lit "attr")

/-- The printed values are the given ones, each of its own job. -/
structure Prints (L : AggregateLibs) (jobs : JobMap) (names : List Str) (r : Rewriting) : Prop where
  names : r.printed.map Prod.fst = names
  shows : ∀ line ∈ r.printed, Shows L jobs line.1 line.2
  keeps : KeepsAttr jobs r

/-- Nothing is printed at first. -/
theorem prints_start : Prints L jobs [] { jobs, store } :=
  ⟨rfl, fun _ hline => absurd hline List.not_mem_nil, fun _ => rfl⟩

/-- An assignment changes the value of its own name. -/
theorem entryOf_insert {name name' : Str} {job : Json} :
    entryOf (jobs.insert name job) name' = if name = name' then job else entryOf jobs name' := by
  rw [entryOf, getElem?_insert_name]
  split <;> rfl

/-- The value of a name that has an entry. -/
theorem entryOf_of_getElem? {name : Str} {job : Json} (h : jobs[name]? = some job) :
    entryOf jobs name = job := by
  rw [entryOf, h]
  rfl

/-- `operator[]` makes a null entry, which is what a missing one counts as. -/
theorem entryOf_insertIfNew {name name' : Str} :
    entryOf (jobs.insertIfNew name .null) name' = entryOf jobs name' := by
  rw [entryOf, entryOf, Std.ExtTreeMap.getElem?_insertIfNew]
  split
  · next hnew =>
    rw [Std.LawfulEqCmp.compare_eq_iff_eq] at hnew
    obtain ⟨rfl, hnew⟩ := hnew
    rw [Std.ExtTreeMap.getElem?_eq_none hnew]
    rfl
  · rfl

/-- Only members that name no job change. -/
theorem keepsAttr_insert {r : Rewriting} {name : Str} {job' : Json} (h : KeepsAttr jobs r)
    (hattr : job'.find (lit "attr") = (entryOf r.jobs name).find (lit "attr"))
    {printed : List (Str × Json)} {store : DrvStore} :
    KeepsAttr jobs ⟨r.jobs.insert name job', store, printed⟩ := by
  intro name'
  rw [entryOf_insert]
  split
  · next heq => rw [← heq, hattr, h]
  · exact h name'

/-- A printed value joins the others. -/
theorem Prints.snoc {names : List Str} {r r' : Rewriting} {name : Str} {job : Json}
    (h : Prints L jobs names r) (hprinted : r'.printed = r.printed ++ [(name, job)])
    (hshows : Shows L jobs name job) (hkeeps : KeepsAttr jobs r') :
    Prints L jobs (names ++ [name]) r' := by
  refine ⟨?_, fun line hline => ?_, hkeeps⟩
  · rw [hprinted, List.map_append, h.names]
    rfl
  · rw [hprinted, List.mem_append, List.mem_singleton] at hline
    rcases hline with hline | rfl
    · exact h.shows line hline
    · exact hshows

/-! ## Rewriting prints every aggregate -/

/-- One step of the loop prints the aggregate it handles. -/
theorem rewriteAggregate_prints {names : List Str} {r r' : Rewriting} {agg : AggregateJob}
    (hr : Prints L jobs names r) (h : rewriteAggregate L r agg = .ok r') :
    Prints L jobs (names ++ [agg.name]) r' := by
  match rewriteAggregate_rewrites h with
  -- the error of the broken constituents
  | @Rewrites.broken _ _ _ job _ job' _ _ _ hlocated herase herror hdump =>
    have hattr : job'.find (lit "attr") = (entryOf r.jobs agg.name).find (lit "attr") := by
      rw [addBrokenJobsError] at herror
      rw [sameBut_assign herror _ (by decide), sameBut_eraseKey herase _ (by decide),
        entryOf_of_getElem? hlocated.entry]
    exact hr.snoc rfl ⟨hdump, hattr.trans (hr.keeps _)⟩ (keepsAttr_insert hr.keeps hattr)
  -- the job with its new derivation
  | @Rewrites.rewritten _ _ _ job _ _ job' _ _ _ _ _ hlocated hadd hregister herase hdump =>
    have hattr : job'.find (lit "attr") = (entryOf r.jobs agg.name).find (lit "attr") := by
      rw [sameBut_eraseKey herase _ (by decide),
        rewriteAndRegisterDrv_sameBut hregister _ (by decide),
        (addConstituents_job hadd).1 _ (by decide), entryOf_of_getElem? hlocated.entry]
    exact hr.snoc rfl ⟨hdump, hattr.trans (hr.keeps _)⟩ (keepsAttr_insert hr.keeps hattr)

/-- The loop prints the aggregates in their order. -/
theorem rewriteAggregates_prints {aggregates : List AggregateJob} {r : Rewriting}
    (h : rewriteAggregates L jobs aggregates store = .ok r) :
    Prints L jobs (aggregates.map AggregateJob.name) r := by
  rw [rewriteAggregates] at h
  refine foldlM_prefix (I := fun before r => Prints L jobs (before.map AggregateJob.name) r)
    (fun {before agg after r r'} _ hr hstep => ?_) prints_start h
  rw [List.map_append]
  exact rewriteAggregate_prints hr hstep

/-! ## A cycle prints every aggregate -/

/-- An error is set, nothing is printed. -/
theorem setError_prints {names : List Str} {text : Str} {r r' : Rewriting} {name : Str}
    (hr : Prints L jobs names r) (h : setError text r name = .ok r') :
    Prints L jobs names r' := by
  obtain ⟨job, hassign, h⟩ := bind_eq_ok.mp h
  obtain rfl := Except.ok.inj h
  exact ⟨hr.names, hr.shows, keepsAttr_insert hr.keeps (sameBut_assign hassign _ (by decide))⟩

/-- A value is printed. -/
theorem printJob_prints {names : List Str} {r r' : Rewriting} {name : Str}
    (hr : Prints L jobs names r) (h : printJob L r name = .ok r') :
    Prints L jobs (names ++ [name]) r' := by
  rw [printJob] at h
  split at h
  · cases h
  next text hdump =>
  obtain rfl := Except.ok.inj h
  refine hr.snoc rfl ⟨?_, hr.keeps name⟩ fun name' => ?_
  · rw [hdump]
    rfl
  · exact (congrArg (Json.find · (lit "attr")) entryOf_insertIfNew).trans (hr.keeps name')

/-- The two jobs of the cycle come first, then the skipped ones. -/
theorem printCycle_prints {cycle : DependencyCycle} {r : Rewriting}
    (h : printCycle L jobs cycle store = .ok r) :
    Prints L jobs (cycle.a :: cycle.b :: cycle.remainingAggregates.toList) r := by
  obtain ⟨r₁, ha, h⟩ := bind_eq_ok.mp h
  obtain ⟨r₂, hb, h⟩ := bind_eq_ok.mp h
  obtain ⟨r₃, hprintA, h⟩ := bind_eq_ok.mp h
  obtain ⟨r₄, hprintB, h⟩ := bind_eq_ok.mp h
  -- both errors are set before either job is printed
  have hclosing := printJob_prints (printJob_prints (setError_prints (setError_prints
    prints_start ha) hb) hprintA) hprintB
  refine foldlM_prefix (I := fun before r => Prints L jobs (cycle.a :: cycle.b :: before) r)
    (fun {before name after r r'} _ hr hstep => ?_) hclosing h
  obtain ⟨m, herror, hprint⟩ := bind_eq_ok.mp hstep
  exact printJob_prints (setError_prints hr herror) hprint

/-! ## All aggregates -/

/-- Sorting keeps the names of the items. -/
theorem mem_sorted_names {items : StdMap Str AggregateJob} {sorted : List AggregateJob}
    (hnames : FiledByName items) (h : topoSort items = .ok sorted) (name : Str) :
    name ∈ sorted.map AggregateJob.name ↔ name ∈ items := by
  rw [List.mem_map, StdMap.mem_iff_exists]
  constructor
  · rintro ⟨agg, hagg, rfl⟩
    obtain ⟨key, hget⟩ := (mem_topoSort h agg).mp hagg
    exact ⟨agg, (hnames key agg hget).symm ▸ hget⟩
  · rintro ⟨agg, hget⟩
    exact ⟨agg, (mem_topoSort h agg).mpr ⟨name, hget⟩, hnames name agg hget⟩

/-- The two jobs of a cycle and the remaining ones are all the aggregates, each once. -/
theorem ReportsCycle.names {items : StdMap Str AggregateJob} {cycle : DependencyCycle}
    (h : ReportsCycle items cycle) :
    (cycle.a :: cycle.b :: cycle.remainingAggregates.toList).Nodup ∧
      ∀ name, name ∈ cycle.a :: cycle.b :: cycle.remainingAggregates.toList ↔ name ∈ items := by
  -- the remaining aggregates are all but the two that close the cycle
  have hrest : ∀ name, name ∈ cycle.remainingAggregates.toList ↔
      name ∈ items ∧ name ≠ cycle.a ∧ name ≠ cycle.b :=
    fun name => Std.ExtTreeSet.mem_toList.trans (h.remaining name)
  constructor
  · refine List.nodup_cons.mpr ⟨fun hmem => ?_, List.nodup_cons.mpr ⟨fun hmem => ?_, ?_⟩⟩
    · rcases List.mem_cons.mp hmem with heq | hmem
      · exact h.ne heq
      · exact ((hrest cycle.a).mp hmem).2.1 rfl
    · exact ((hrest cycle.b).mp hmem).2.2 rfl
    · exact StdSet.nodup_toList _
  · -- a name closes the cycle, or is among the rest
    intro name
    rw [List.mem_cons, List.mem_cons, hrest]
    constructor
    · rintro (rfl | rfl | ⟨hmem, -⟩)
      · exact h.a_mem
      · exact h.b_mem
      · exact hmem
    · intro hmem
      by_cases ha : name = cycle.a
      · exact .inl ha
      by_cases hb : name = cycle.b
      · exact .inr (.inl hb)
      exact .inr (.inr ⟨hmem, ha, hb⟩)

/-- **Every aggregate is printed once**, whether they are sorted or there is a cycle. -/
theorem handleConstituents_printed {r : Rewriting} (h : handleConstituents L jobs store = .ok r) :
    ∃ names, Prints L jobs names r ∧ names.Nodup ∧
      ∀ name, name ∈ names ↔ IsAggregate jobs name := by
  obtain ⟨resolved, hresolve, h⟩ := bind_eq_ok.mp h
  obtain ⟨items, hitems, ⟨cycle, rfl, hcycle⟩ | ⟨sorted, rfl, hsort⟩⟩ :=
    resolveNamedConstituents_cases hresolve
  · -- a cycle was reported
    obtain ⟨hnodup, hmem⟩ := hcycle.names
    exact ⟨_, printCycle_prints h, hnodup,
      fun name => (hmem name).trans (mem_collectAggregates hitems name)⟩
  · -- the aggregates were sorted
    have hnames := collectAggregates_filedByName hitems
    exact ⟨_, rewriteAggregates_prints h, (topoSort_order hnames hsort).2,
      fun name => (mem_sorted_names hnames hsort name).trans (mem_collectAggregates hitems name)⟩

end Aggregates

end NixEvalJobs
