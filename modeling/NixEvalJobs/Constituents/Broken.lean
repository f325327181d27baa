import NixEvalJobs.Constituents.Inputs

/-!
# Aggregates — how broken jobs show in the aggregates above them

What is broken about an aggregate is fixed when its names are resolved, from the
errors the jobs have by then. The errors of the aggregates themselves are written
later, while they are rewritten one after the other.

* `rewriteAggregates_hasError` — which jobs have an error in the end.
* `propagatesBrokenness_iff` — an aggregate printed without an error has error-free
  constituents exactly when no such aggregate depends on an aggregate with
  something broken.
-/

namespace NixEvalJobs

namespace Aggregates

variable {L : AggregateLibs} {jobs : JobMap} {store : DrvStore}

/-- The value has no member `error`. -/
def NoError (job : Json) : Prop := job.find (lit "error") = none

/-- Changing other members changes no error. -/
theorem noError_sameBut {keys : List Str} {job job' : Json} (h : SameBut keys job job')
    (hkeys : lit "error" ∉ keys) : NoError job' ↔ NoError job := by
  rw [NoError, h _ hkeys, NoError]

/-! ## Rewriting -/

/-- **What rewriting one aggregate does**: its own job changes and is printed, with an
error if it had one or if something is broken. -/
theorem rewriteAggregate_cases {r r' : Rewriting} {agg : AggregateJob}
    (h : rewriteAggregate L r agg = .ok r') :
    ∃ job job', r.jobs[agg.name]? = some job ∧ r'.jobs = r.jobs.insert agg.name job' ∧
      r'.printed = r.printed ++ [(agg.name, job')] ∧
      (NoError job' ↔ NoError job ∧ agg.brokenJobs.isEmpty = true) := by
  match rewriteAggregate_rewrites h with
  -- nothing is broken, and no later change touches `error`
  | @Rewrites.rewritten _ _ _ job _ _ job' _ _ _ _ hempty hlocated hadd hregister herase _ =>
    refine ⟨job, job', hlocated.entry, rfl, rfl, ?_⟩
    rw [noError_sameBut (sameBut_eraseKey herase) (by decide),
      noError_sameBut (rewriteAndRegisterDrv_sameBut hregister) (by decide),
      noError_sameBut (addConstituents_job hadd).1 (by decide), and_iff_left hempty]
  -- something is, and `error` is written
  | @Rewrites.broken _ _ _ job _ job' _ _ hbroken hlocated herase herror _ =>
    refine ⟨job, job', hlocated.entry, rfl, rfl, iff_of_false (fun hc => ?_) ?_⟩
    · rw [addBrokenJobsError] at herror
      rw [NoError, Json.find_assign herror, if_pos rfl] at hc
      cases hc
    · rw [hbroken]
      exact fun hc => by cases hc.2

/-- An error is a member of the job. -/
theorem hasError_iff {name : Str} : HasError jobs name ↔
    ∃ job, jobs[name]? = some job ∧ ¬NoError job := Iff.rfl

/-- An assignment to one name. -/
theorem getElem?_insert_name {job : Json} {name name' : Str} :
    (jobs.insert name job)[name']? = if name = name' then some job else jobs[name']? := by
  rw [Std.ExtTreeMap.getElem?_insert]
  simp only [Std.LawfulEqCmp.compare_eq_iff_eq]

/-- One aggregate gets an error if something about it is broken. -/
theorem rewriteAggregate_hasError {r r' : Rewriting} {agg : AggregateJob}
    (h : rewriteAggregate L r agg = .ok r') (name : Str) :
    HasError r'.jobs name ↔ HasError r.jobs name ∨
      agg.name = name ∧ agg.brokenJobs.isEmpty = false := by
  obtain ⟨job, job', hjob, hjobs, -, herror⟩ := rewriteAggregate_cases h
  simp only [hasError_iff, hjobs, getElem?_insert_name]
  by_cases hname : agg.name = name
  · subst hname
    simp only [if_true, hjob, Option.some.injEq, exists_eq_left', herror, true_and]
    rw [not_and_or, Bool.not_eq_true]
  · simp [hname]

/-- **The errors after rewriting**: those from before, and one for every aggregate of
the list with something broken. -/
theorem rewriteAggregates_hasError {aggregates : List AggregateJob} {r r' : Rewriting}
    (h : aggregates.foldlM (rewriteAggregate L) r = .ok r') (name : Str) :
    HasError r'.jobs name ↔ HasError r.jobs name ∨
      ∃ agg ∈ aggregates, agg.name = name ∧ agg.brokenJobs.isEmpty = false := by
  -- one aggregate after the other; each looks only at its own list
  induction aggregates generalizing r with
  | nil =>
    cases Except.ok.inj h
    simp
  | cons agg aggregates ih =>
    rw [List.foldlM_cons] at h
    obtain ⟨r₁, hstep, hrest⟩ := bind_eq_ok.mp h
    rw [ih hrest, rewriteAggregate_hasError hstep, or_assoc]
    simp only [List.mem_cons, exists_eq_or_imp]

/-- Rewriting neither adds nor removes a job. -/
theorem rewriteAggregates_mem {aggregates : List AggregateJob} {r r' : Rewriting}
    (h : aggregates.foldlM (rewriteAggregate L) r = .ok r') (name : Str) :
    name ∈ r'.jobs ↔ name ∈ r.jobs := by
  refine foldlM_related (R := fun r r' : Rewriting => name ∈ r'.jobs ↔ name ∈ r.jobs)
    (fun _ => Iff.rfl) (fun hr hm => hm.trans hr) (fun agg _ hstep => ?_) h
  obtain ⟨job, job', hjob, hjobs, -⟩ := rewriteAggregate_cases hstep
  rw [hjobs, mem_insert_key]
  refine or_iff_left_of_imp ?_
  rintro rfl
  exact StdMap.mem_iff_exists.mpr ⟨_, hjob⟩

/-- **The printed lines**: every aggregate of the list has one, and a line without an
error is that of an aggregate that had no error and has nothing broken. -/
theorem rewriteAggregates_printed {aggregates : List AggregateJob} {r r' : Rewriting}
    (h : aggregates.foldlM (rewriteAggregate L) r = .ok r') :
    (∀ name json, (name, json) ∈ r'.printed → (name, json) ∈ r.printed ∨
      ∃ agg ∈ aggregates, agg.name = name ∧
        (NoError json → ¬HasError r.jobs name ∧ agg.brokenJobs.isEmpty = true)) ∧
    (∀ name json, (name, json) ∈ r.printed → (name, json) ∈ r'.printed) ∧
    ∀ agg ∈ aggregates, ∃ json, (agg.name, json) ∈ r'.printed ∧
      (¬HasError r.jobs agg.name → (∀ other ∈ aggregates, other.name = agg.name →
        other.brokenJobs.isEmpty = true) → NoError json) := by
  -- what is printed first stays, and later errors do not change it
  induction aggregates generalizing r with
  | nil =>
    cases Except.ok.inj h
    exact ⟨fun _ _ hp => .inl hp, fun _ _ hp => hp, fun _ ha => by cases ha⟩
  | cons agg aggregates ih =>
    rw [List.foldlM_cons] at h
    obtain ⟨r₁, hstep, hrest⟩ := bind_eq_ok.mp h
    obtain ⟨hprinted, hkept, hevery⟩ := ih hrest
    have herrors := rewriteAggregate_hasError hstep
    obtain ⟨job, job', hjob, hjobs, hnew, herror⟩ := rewriteAggregate_cases hstep
    -- the job has no error before it is rewritten unless the map says so
    have hbefore : ¬HasError r.jobs agg.name ↔ NoError job := by
      simp [hasError_iff, hjob]
    refine ⟨fun name json hp => ?_, fun name json hp => hkept _ _ ?_, fun a ha => ?_⟩
    · rcases hprinted name json hp with hp | ⟨a, ha, hname, hclean⟩
      · rw [hnew, List.mem_append, List.mem_singleton] at hp
        rcases hp with hp | hp
        · exact .inl hp
        · obtain ⟨rfl, rfl⟩ := Prod.mk.inj hp
          exact .inr ⟨agg, List.mem_cons_self .., rfl, fun hc =>
            ⟨hbefore.mpr (herror.mp hc).1, (herror.mp hc).2⟩⟩
      · refine .inr ⟨a, List.mem_cons_of_mem _ ha, hname, fun hc => ⟨fun hbad => ?_, (hclean hc).2⟩⟩
        exact (hclean hc).1 ((herrors name).mpr (.inl hbad))
    · rw [hnew]
      exact List.mem_append_left _ hp
    · rcases List.mem_cons.mp ha with rfl | ha
      · refine ⟨job', hkept _ _ ?_, fun hgood hempty => ?_⟩
        · rw [hnew]
          exact List.mem_append_right _ (List.mem_singleton_self _)
        · exact herror.mpr ⟨hbefore.mp hgood, hempty a (List.mem_cons_self ..) rfl⟩
      · obtain ⟨json, hp, hclean⟩ := hevery a ha
        refine ⟨json, hp, fun hgood hempty => hclean (fun hbad => ?_) fun other ho =>
          hempty other (List.mem_cons_of_mem _ ho)⟩
        rcases (herrors a.name).mp hbad with hbad | ⟨hname, hbroken⟩
        · exact hgood hbad
        · rw [hempty agg (List.mem_cons_self ..) hname] at hbroken
          cases hbroken

/-! ## Errors and the constituents -/

/-- An aggregate that is printed without an error has constituents that are there
and have no error either. -/
def PropagatesBrokenness (aggregates : List AggregateJob) (r : Rewriting) : Prop :=
  ∀ agg ∈ aggregates, ∀ json, (agg.name, json) ∈ r.printed → NoError json →
    ∀ dependency ∈ agg.dependencies, GoodJob r.jobs dependency

/-- One of the names and patterns of the aggregate resolves to a job with an error,
or to no job without one. -/
def HasBroken (L : AggregateLibs) (jobs : JobMap) (name : Str) : Prop :=
  ∃ cause, BrokenBy L jobs name cause

/-- The list of broken jobs is empty if nothing is broken. -/
theorem Describes.isEmpty_iff {agg : AggregateJob} (h : Describes L jobs agg) :
    agg.brokenJobs.isEmpty = true ↔ ¬HasBroken L jobs agg.name := by
  rw [Std.ExtTreeMap.isEmpty_iff, Std.ExtTreeMap.eq_empty_iff_forall_not_mem, HasBroken, not_exists]
  exact forall_congr' fun cause => not_congr (h.brokenJobs cause)

/-- **Brokenness is propagated exactly when** no aggregate that has no error and
nothing broken depends on an aggregate that has something broken. -/
theorem propagatesBrokenness_iff {aggregates : List AggregateJob} {r : Rewriting}
    (hresolve : resolveNamedConstituents L jobs = .ok (.inr aggregates))
    (hrewrite : rewriteAggregates L jobs aggregates store = .ok r) :
    PropagatesBrokenness aggregates r ↔
      ∀ name dependency, IsAggregate jobs name → ¬HasError jobs name → ¬HasBroken L jobs name →
        DependsOn L jobs name dependency → IsAggregate jobs dependency →
          ¬HasBroken L jobs dependency := by
  obtain ⟨hdescribes, hcomplete, hunique⟩ := resolveNamedConstituents_spec hresolve
  rw [rewriteAggregates] at hrewrite
  have herrors := rewriteAggregates_hasError hrewrite
  obtain ⟨hprinted, -, hevery⟩ := rewriteAggregates_printed hrewrite
  constructor
  · intro hpropagates name dependency hname hgood hclean hdepends hdep hbroken
    -- the aggregate above is printed without an error
    obtain ⟨agg, hagg, rfl⟩ := hcomplete name hname
    obtain ⟨json, hjson, hnoError⟩ := hevery agg hagg
    have hempty : ∀ other ∈ aggregates, other.name = agg.name →
        other.brokenJobs.isEmpty = true := by
      intro other hother heq
      obtain rfl := hunique other hother agg hagg heq
      exact (hdescribes _ hother).isEmpty_iff.mpr hclean
    have hgoodDep := hpropagates agg hagg json hjson (hnoError hgood hempty) dependency
      ((hdescribes agg hagg).dependencies dependency |>.mpr hdepends)
    -- but the one below has got an error while it was rewritten
    obtain ⟨below, hbelow, rfl⟩ := hcomplete dependency hdep
    refine (goodJob_iff.mp hgoodDep).2 ((herrors below.name).mpr (.inr ⟨below, hbelow, rfl, ?_⟩))
    rw [← Bool.not_eq_true, (hdescribes below hbelow).isEmpty_iff, not_not]
    exact hbroken
  · intro hcond agg hagg json hjson hnoError dependency hdependency
    have hdepends := ((hdescribes agg hagg).dependencies dependency).mp hdependency
    obtain ⟨glob, child, -, -, hgoodDep⟩ := id hdepends
    rw [goodJob_iff] at hgoodDep ⊢
    refine ⟨(rewriteAggregates_mem hrewrite dependency).mpr hgoodDep.1, fun hbad => ?_⟩
    obtain ⟨other, hother, hname, hclean⟩ := (hprinted _ _ hjson).resolve_left (by simp)
    obtain rfl := hunique other hother agg hagg hname
    obtain ⟨hgood, hempty⟩ := hclean hnoError
    -- an error of the dependency is from its own rewriting
    rcases (herrors dependency).mp hbad with hbad | ⟨below, hbelow, rfl, hbroken⟩
    · exact hgoodDep.2 hbad
    · have hbelowClean := hcond other.name below.name (hdescribes other hother).isAggregate hgood
        ((hdescribes other hother).isEmpty_iff.mp hempty) hdepends
        (hdescribes below hbelow).isAggregate
      rw [← (hdescribes below hbelow).isEmpty_iff, hbroken] at hbelowClean
      cases hbelowClean

/-! ## An aggregate above an aggregate -/

/-- Rewritten derivations are numbered in the order in which they are written. -/
def nestedLibs : AggregateLibs where
  fnmatch := demoLibs.fnmatch
  printStorePath := demoLibs.printStorePath
  parseStorePath := demoLibs.parseStorePath
  dump := demoLibs.dump
  fillInOutputPaths store :=
    (plainLibs (demoDrvPath ("new" ++ toString store.size)) []).fillInOutputPaths store
  writeDerivation store :=
    (plainLibs [] (demoDrvPath ("new" ++ toString store.size ++ ".drv"))).writeDerivation store
  traverse := demoLibs.traverse

/-- An evaluated aggregate with the given constituents. -/
def aggregateJson (name : String) (constituents : List String) : Json :=
  .object [(lit "drvPath", .string (lit "/nix/store/" ++ demoDrvPath (name ++ ".drv"))),
    (lit "namedConstituents", .array (constituents.map fun c => .string (lit c)))]

/-- `all` names `part`, and `part` names one more job. -/
def nestedJobs (constituent : String) : JobMap :=
  (packageJobs.insert (lit "all") (aggregateJson "all" ["part"])).insert
    (lit "part") (aggregateJson "part" [constituent])

def nestedStore : DrvStore :=
  ["all.drv", "part.drv", "package.drv"].foldl
    (fun store name => store.insert (demoDrvPath name) packageDrv) ∅

/-- The aggregates of a map after they are resolved and rewritten, if there is no cycle. -/
def rewriteResult (L : AggregateLibs) (jobs : JobMap) (store : DrvStore) :
    Option (List AggregateJob × Rewriting) := do
  let aggregates ← (resolveNamedConstituents L jobs).toOption.bind Sum.getRight?
  let r ← (rewriteAggregates L jobs aggregates store).toOption
  return (aggregates, r)

/-- What a result says about the two steps. -/
theorem rewriteResult_eq_some {result : List AggregateJob × Rewriting}
    (h : rewriteResult L jobs store = some result) :
    resolveNamedConstituents L jobs = .ok (.inr result.1) ∧
      rewriteAggregates L jobs result.1 store = .ok result.2 := by
  obtain ⟨aggregates, hresolve, h⟩ := Option.bind_eq_some_iff.mp h
  obtain ⟨r, hrewrite, h⟩ := Option.bind_eq_some_iff.mp h
  obtain rfl := Option.some.inj h
  obtain ⟨result, hresult, hright⟩ := Option.bind_eq_some_iff.mp hresolve
  rw [eq_ok_of_toOption hresult, eq_ok_of_toOption hrewrite]
  exact ⟨congrArg Except.ok (Sum.getRight?_eq_some_iff.mp hright), rfl⟩

/-- The aggregates after they are resolved and rewritten, if there is no cycle. -/
def nestedResult (constituent : String) : Option (List AggregateJob × Rewriting) :=
  rewriteResult nestedLibs (nestedJobs constituent) nestedStore

/-- The same for the nested aggregates. -/
theorem nestedResult_eq_some {constituent : String} {result : List AggregateJob × Rewriting}
    (h : nestedResult constituent = some result) :
    resolveNamedConstituents nestedLibs (nestedJobs constituent) = .ok (.inr result.1) ∧
      rewriteAggregates nestedLibs (nestedJobs constituent) result.1 nestedStore = .ok result.2 :=
  rewriteResult_eq_some h

/-- With a missing constituent both steps return. -/
theorem nestedResult_missing : (nestedResult "missing").isSome = true := by decide +kernel

/-- So they do with a good one. -/
theorem nestedResult_package : (nestedResult "package").isSome = true := by decide +kernel

/-- `part` names a job that does not exist and is printed with an error; `all` is
printed without one. -/
theorem not_propagatesBrokenness_nested :
    let result := (nestedResult "missing").get nestedResult_missing
    resolveNamedConstituents nestedLibs (nestedJobs "missing") = .ok (.inr result.1) ∧
      rewriteAggregates nestedLibs (nestedJobs "missing") result.1 nestedStore = .ok result.2 ∧
      ¬PropagatesBrokenness result.1 result.2 := by
  intro result
  obtain ⟨hresolve, hrewrite⟩ := nestedResult_eq_some (Option.some_get nestedResult_missing).symm
  refine ⟨hresolve, hrewrite, fun hpropagates => ?_⟩
  have hall : (result.1.any fun agg => result.2.printed.any fun line =>
      line.1 = agg.name ∧ (line.2.find (lit "error")).isNone ∧
        (lit "part") ∈ agg.dependencies) = true := by
    decide +kernel
  have hpart : (result.2.jobs[lit "part"]?).any
      (fun job => (job.find (lit "error")).isSome) = true := by
    decide +kernel
  obtain ⟨agg, hagg, hline⟩ := List.any_eq_true.mp hall
  obtain ⟨⟨name, json⟩, hprinted, hline⟩ := List.any_eq_true.mp hline
  obtain ⟨rfl, hnone, hdependency⟩ := of_decide_eq_true hline
  obtain ⟨job, hjob, hgood⟩ := hpropagates agg hagg json hprinted
    (Option.isNone_iff_eq_none.mp hnone) _ hdependency
  rw [hjob, Option.any_some, hgood] at hpart
  cases hpart

/-- The two nested aggregates, with nothing broken below them. -/
theorem propagatesBrokenness_iff_nested :
    let result := (nestedResult "package").get nestedResult_package
    PropagatesBrokenness result.1 result.2 ↔ ∀ name dependency,
      IsAggregate (nestedJobs "package") name → ¬HasError (nestedJobs "package") name →
        ¬HasBroken nestedLibs (nestedJobs "package") name →
          DependsOn nestedLibs (nestedJobs "package") name dependency →
            IsAggregate (nestedJobs "package") dependency →
              ¬HasBroken nestedLibs (nestedJobs "package") dependency := by
  intro result
  obtain ⟨hresolve, hrewrite⟩ := nestedResult_eq_some (Option.some_get nestedResult_package).symm
  exact propagatesBrokenness_iff hresolve hrewrite

end Aggregates

end NixEvalJobs
