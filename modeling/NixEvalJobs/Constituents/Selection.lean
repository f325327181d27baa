import NixEvalJobs.Constituents.Deferral

/-!
# Aggregates — what an aggregate selects

The names of an aggregate are taken as they are when there is such a job; the others are
patterns, if these are on. A pattern leaves the aggregate itself out, a name does not.

* `resolveNamedConstituents_exact` — the dependencies and the broken jobs, from the map
  alone.
* `resolveNamedConstituents_self_iff` — when an aggregate is a constituent of itself, and
  when the derivation it had becomes an input of the one it gets.
-/

namespace NixEvalJobs

namespace Aggregates

variable {L : AggregateLibs} {jobs : JobMap} {aggregates : List AggregateJob}

/-! ## Selections -/

/-- `name` is written among the constituents of `jobName`. -/
def Named (jobs : JobMap) (jobName name : Str) : Prop := ∃ glob, Lists jobs jobName glob name

/-- `name` is another job than `jobName` and matched by one of its patterns: by a name
among its constituents that is no job. -/
def Matched (L : AggregateLibs) (jobs : JobMap) (jobName name : Str) : Prop :=
  ∃ pattern, Lists jobs jobName true pattern ∧ pattern ∉ jobs ∧ name ≠ jobName ∧
    L.fnmatch pattern name = true

/-- A constituent of `jobName` that is no job, and selects none that is good. -/
def SelectsNone (L : AggregateLibs) (jobs : JobMap) (jobName child : Str) : Prop :=
  child ∉ jobs ∧ (Lists jobs jobName false child ∨ Lists jobs jobName true child ∧
    ∀ name, name ≠ jobName → L.fnmatch child name = true → ¬GoodJob jobs name)

/-- What a job selects, by its names and by its patterns. -/
theorem selects_iff {jobName name : Str} (hname : name ∈ jobs) :
    (∃ glob child, Lists jobs jobName glob child ∧ Selects L jobs jobName glob child name) ↔
      Named jobs jobName name ∨ Matched L jobs jobName name := by
  constructor
  · rintro ⟨glob, child, hlists, ⟨-, rfl⟩ | ⟨hchild, rfl, hne, hmatch⟩⟩
    · exact .inl ⟨glob, hlists⟩
    · exact .inr ⟨child, hlists, hchild, hne, hmatch⟩
  · rintro (⟨glob, hlists⟩ | ⟨pattern, hlists, hpattern, hne, hmatch⟩)
    · exact ⟨glob, name, hlists, .inl ⟨hname, rfl⟩⟩
    · exact ⟨true, pattern, hlists, .inr ⟨hpattern, rfl, hne, hmatch⟩⟩

/-- A dependency is a good job that is named or matched. -/
theorem dependsOn_iff {jobName dependency : Str} : DependsOn L jobs jobName dependency ↔
    GoodJob jobs dependency ∧
      (Named jobs jobName dependency ∨ Matched L jobs jobName dependency) := by
  constructor
  · rintro ⟨glob, child, hlists, hselects, hgood⟩
    exact ⟨hgood, (selects_iff hgood.mem).mp ⟨glob, child, hlists, hselects⟩⟩
  · rintro ⟨hgood, hselected⟩
    obtain ⟨glob, child, hlists, hselects⟩ := (selects_iff hgood.mem).mpr hselected
    exact ⟨glob, child, hlists, hselects, hgood⟩

/-- A broken job has an error and is named or matched, or is a name that selects nothing good. -/
theorem brokenBy_iff {jobName cause : Str} : BrokenBy L jobs jobName cause ↔
    HasError jobs cause ∧ (Named jobs jobName cause ∨ Matched L jobs jobName cause) ∨
      SelectsNone L jobs jobName cause := by
  constructor
  · rintro ⟨glob, child, hlists, ⟨hselects, herror⟩ | ⟨rfl, hnone⟩⟩
    · exact .inl ⟨herror, (selects_iff herror.mem).mp ⟨glob, child, hlists, hselects⟩⟩
    · by_cases hcause : cause ∈ jobs
      · -- a job that stands for itself and is not good
        have hbad := hnone cause (.inl ⟨hcause, rfl⟩)
        exact .inl ⟨(hasError_of_mem hcause).mpr hbad, .inl ⟨glob, hlists⟩⟩
      · refine .inr ⟨hcause, ?_⟩
        match glob with
        | false => exact .inl hlists
        | true => exact .inr ⟨hlists, fun name hne hmatch =>
            hnone name (.inr ⟨hcause, rfl, hne, hmatch⟩)⟩
  · -- an error, a name without patterns, or a pattern
    rintro (⟨herror, hselected⟩ | ⟨hcause, hlists | ⟨hlists, hnone⟩⟩)
    · obtain ⟨glob, child, hlists, hselects⟩ := (selects_iff herror.mem).mpr hselected
      exact ⟨glob, child, hlists, .inl ⟨hselects, herror⟩⟩
    · refine ⟨false, cause, hlists, .inr ⟨rfl, ?_⟩⟩
      rintro name (⟨hmem, -⟩ | ⟨-, hglob, -⟩)
      · exact absurd hmem hcause
      · cases hglob
    · refine ⟨true, cause, hlists, .inr ⟨rfl, ?_⟩⟩
      rintro name (⟨hmem, -⟩ | ⟨-, -, hne, hmatch⟩)
      · exact absurd hmem hcause
      · exact hnone name hne hmatch

/-! ## Resolution is exact -/

/-- Nothing is broken when every constituent stands for some job, and no job that is
selected has an error. -/
theorem isEmpty_brokenJobs_iff {agg : AggregateJob} (h : Describes L jobs agg) :
    agg.brokenJobs.isEmpty = true ↔
      (∀ glob child, Lists jobs agg.name glob child →
        ∃ name ∈ jobs, Selects L jobs agg.name glob child name) ∧
      ∀ name, Named jobs agg.name name ∨ Matched L jobs agg.name name → ¬HasError jobs name := by
  rw [h.isEmpty_iff, HasBroken, not_exists]
  constructor
  · intro hnone
    refine ⟨fun glob child hlists => ?_, fun name hselected herror => ?_⟩
    · -- a name that stands for no job is noted itself
      by_contra hno
      refine hnone child ⟨glob, child, hlists, .inr ⟨rfl, fun name hselects hgood => ?_⟩⟩
      exact hno ⟨name, hgood.mem, hselects⟩
    · exact hnone name (brokenBy_iff.mpr (.inl ⟨herror, hselected⟩))
  · rintro ⟨hsome, hclean⟩ cause hbroken
    rcases brokenBy_iff.mp hbroken with ⟨herror, hselected⟩ | ⟨hcause, hlists | ⟨hlists, hnone⟩⟩
    · exact hclean cause hselected herror
    · obtain ⟨name, -, ⟨hmem, -⟩ | ⟨-, hglob, -⟩⟩ := hsome false cause hlists
      · exact hcause hmem
      · cases hglob
    · obtain ⟨name, hname, ⟨hmem, -⟩ | ⟨-, -, hne, hmatch⟩⟩ := hsome true cause hlists
      · exact hcause hmem
      · -- the pattern matches this job, which then has an error
        refine hclean name (.inr ⟨cause, hlists, hcause, hne, hmatch⟩) ?_
        exact (hasError_of_mem hname).mpr (hnone name hne hmatch)

/-- **Resolution is exact.** There is one aggregate for every job that names
constituents; what it depends on and what is broken about it can be read off the map. -/
theorem resolveNamedConstituents_exact
    (h : resolveNamedConstituents L jobs = .ok (.inr aggregates)) :
    (aggregates.map AggregateJob.name).Nodup ∧
    (∀ name, name ∈ aggregates.map AggregateJob.name ↔ IsAggregate jobs name) ∧
    ∀ agg ∈ aggregates,
      (∀ name, name ∈ agg.dependencies ↔ GoodJob jobs name ∧
        (Named jobs agg.name name ∨ Matched L jobs agg.name name)) ∧
      (∀ cause, cause ∈ agg.brokenJobs ↔
        HasError jobs cause ∧ (Named jobs agg.name cause ∨ Matched L jobs agg.name cause) ∨
          SelectsNone L jobs agg.name cause) ∧
      (agg.brokenJobs.isEmpty = true ↔
        (∀ glob child, Lists jobs agg.name glob child →
          ∃ name ∈ jobs, Selects L jobs agg.name glob child name) ∧
        ∀ name, Named jobs agg.name name ∨ Matched L jobs agg.name name →
          ¬HasError jobs name) := by
  obtain ⟨hdescribes, hcomplete, -⟩ := resolveNamedConstituents_spec h
  refine ⟨?_, fun name => ⟨fun hname => ?_, fun hname => ?_⟩, fun agg hagg => ?_⟩
  · obtain ⟨items, hitems, ⟨cycle, hcycle, -⟩ | ⟨sorted, hsorted, hsort⟩⟩ :=
      resolveNamedConstituents_cases h
    · cases hcycle
    · obtain rfl := Sum.inr.inj hsorted
      -- sorting repeats no name
      exact (topoSort_order (collectAggregates_filedByName hitems) hsort).2
  · obtain ⟨agg, hagg, rfl⟩ := List.mem_map.mp hname
    exact (hdescribes agg hagg).isAggregate
  · obtain ⟨agg, hagg, rfl⟩ := hcomplete name hname
    exact List.mem_map_of_mem hagg
  · have hdescribed := hdescribes agg hagg
    exact ⟨fun name => (hdescribed.dependencies name).trans dependsOn_iff,
      fun cause => (hdescribed.brokenJobs cause).trans brokenBy_iff,
      isEmpty_brokenJobs_iff hdescribed⟩

/-- `fnmatch` for patterns whose only special character is the star. -/
def fnmatchStar : Str → Str → Bool
  | [], s => s.isEmpty
  | c :: pattern, s =>
    if c = 42 then s.tails.any (fnmatchStar pattern)
    else match s with
      | [] => false
      | d :: rest => c = d && fnmatchStar pattern rest

/-- The libraries of the nested aggregates, with patterns. -/
def globLibs : AggregateLibs := { nestedLibs with fnmatch := fnmatchStar }

/-- `all` has two patterns: one matches the two jobs, the other none. -/
def globJobs : JobMap :=
  ["hello", "help"].foldl (fun jobs name => jobs.insert (lit name) (.object []))
    ((∅ : JobMap).insert (lit "all") (.object [(lit "globConstituents", .bool true),
      (lit "namedConstituents", .array [.string (lit "hel*"), .string (lit "foo*")])]))

/-- The aggregates of that map. -/
def globAggregates : Option (List AggregateJob) :=
  (resolveNamedConstituents globLibs globJobs).toOption.bind Sum.getRight?

/-- Resolution returns. -/
theorem globAggregates_isSome : globAggregates.isSome = true := by decide +kernel

/-- `hello` is selected, and nothing for the second pattern. -/
theorem resolveNamedConstituents_exact_glob :
    ∃ agg ∈ globAggregates.get globAggregates_isSome, agg.name = lit "all" ∧
      (GoodJob globJobs (lit "hello") ∧ (Named globJobs agg.name (lit "hello") ∨
        Matched globLibs globJobs agg.name (lit "hello"))) ∧
      (HasError globJobs (lit "foo*") ∧ (Named globJobs agg.name (lit "foo*") ∨
          Matched globLibs globJobs agg.name (lit "foo*")) ∨
        SelectsNone globLibs globJobs agg.name (lit "foo*")) := by
  have hcheck : ((globAggregates.get globAggregates_isSome).any fun agg =>
      agg.name = lit "all" ∧ agg.dependencies.contains (lit "hello") ∧
        agg.brokenJobs.contains (lit "foo*")) = true := by
    decide +kernel
  obtain ⟨result, hresult, hright⟩ :=
    Option.bind_eq_some_iff.mp (Option.some_get globAggregates_isSome).symm
  have hresolve : resolveNamedConstituents globLibs globJobs =
      .ok (.inr (globAggregates.get globAggregates_isSome)) :=
    (eq_ok_of_toOption hresult).trans (congrArg Except.ok (Sum.getRight?_eq_some_iff.mp hright))
  obtain ⟨agg, hagg, hcheck⟩ := List.any_eq_true.mp hcheck
  obtain ⟨hname, hhello, hfoo⟩ := of_decide_eq_true hcheck
  obtain ⟨hdependencies, hbroken, -⟩ := (resolveNamedConstituents_exact hresolve).2.2 agg hagg
  exact ⟨agg, hagg, hname, (hdependencies _).mp (Std.ExtTreeSet.mem_iff_contains.mpr hhello),
    (hbroken _).mp (Std.ExtTreeMap.mem_iff_contains.mpr hfoo)⟩

/-! ## Aggregates that name themselves -/

/-- An aggregate is no constituent of itself if it does not write its name, or has an error. -/
theorem named_self_iff {agg : AggregateJob} (h : Describes L jobs agg) :
    agg.name ∉ agg.dependencies ↔ (Named jobs agg.name agg.name → HasError jobs agg.name) := by
  obtain ⟨job, hjob, -⟩ := h.isAggregate
  have hmem : agg.name ∈ jobs := StdMap.mem_iff_exists.mpr ⟨_, hjob⟩
  rw [h.dependencies, dependsOn_iff]
  constructor
  · intro hnot hnamed
    exact (hasError_of_mem hmem).mpr fun hgood => hnot ⟨hgood, .inl hnamed⟩
  · rintro herror ⟨⟨job', hjob', hclean⟩, hnamed | ⟨-, -, -, hne, -⟩⟩
    · obtain ⟨job'', hjob'', hbad⟩ := herror hnamed
      obtain rfl := Option.some.inj (hjob'.symm.trans hjob'')
      exact hbad hclean
    · -- no pattern matches the aggregate itself
      exact hne rfl

/-- The derivation of an aggregate is looked up as that of a constituent when the aggregate
is one of its own. -/
theorem constituentDrv_located {r : Rewriting} {name : Str} {job : Json} {drvPath : StorePath}
    {drv : Derivation} (h : Located L r name job drvPath drv) :
    constituentDrv L r.jobs r.store name = .ok (drvPath, drv) := by
  obtain ⟨drvPathS, hfind, hparse⟩ := h.path
  rw [constituentDrv, h.entry]
  dsimp only
  rw [Json.constMember_of_find hfind, ok_bind]
  refine bind_eq_ok.mpr ⟨drvPathS, rfl, ?_⟩
  rw [hparse]
  dsimp only
  rw [h.read]
  rfl

/-- A constituent is looked up at one path. -/
theorem looksUp_iff {r : Rewriting} {name : Str} {path path' : StorePath} {drv : Derivation}
    (h : constituentDrv L r.jobs r.store name = .ok (path, drv)) :
    LooksUp L r.jobs name path' ↔ path' = path := by
  obtain ⟨-, child, drvPathS, hentry, hfind, hparse⟩ := store_of_constituentDrv h
  constructor
  · rintro ⟨child', drvPathS', hentry', hmember, hparse'⟩
    obtain rfl := Option.some.inj (hentry.symm.trans hentry')
    obtain rfl := Json.string.inj (Except.ok.inj
      ((Json.constMember_of_find hfind).symm.trans hmember))
    exact Option.some.inj (hparse'.symm.trans hparse)
  · rintro rfl
    exact ⟨child, drvPathS, hentry, Json.constMember_of_find hfind, hparse⟩

/-- Another job that `name` depends on has this derivation, in the map as it is when `name`
is rewritten. -/
def Aliased (L : AggregateLibs) (jobs : JobMap) (r : Rewriting) (name : Str)
    (drvPath : StorePath) : Prop :=
  ∃ other, other ≠ name ∧ DependsOn L jobs name other ∧ LooksUp L r.jobs other drvPath

/-- **When an aggregate is not a constituent of itself.** It is one exactly when it writes
its own name, which no error of its own makes broken. In whatever state it is rewritten,
the derivation that is replaced is an input of the one that replaces it exactly when it was
one before, when the aggregate is a constituent of itself, or when another constituent has
the same derivation. -/
theorem resolveNamedConstituents_self_iff
    (h : resolveNamedConstituents L jobs = .ok (.inr aggregates)) {agg : AggregateJob}
    (hagg : agg ∈ aggregates) :
    (agg.name ∉ agg.dependencies ↔ (Named jobs agg.name agg.name → HasError jobs agg.name)) ∧
    ∀ (r : Rewriting) (job job' : Json) (drvPath : StorePath) (drv drv' : Derivation),
      Located L r agg.name job drvPath drv →
      addConstituents L job drv agg.dependencies r.jobs r.store = .ok (job', drv') →
        (drvPath ∉ drv'.inputDrvs ↔ drvPath ∉ drv.inputDrvs ∧
          (Named jobs agg.name agg.name → HasError jobs agg.name) ∧
          ¬Aliased L jobs r agg.name drvPath) := by
  have hdescribes := (resolveNamedConstituents_spec h).1 agg hagg
  have hself := named_self_iff hdescribes
  refine ⟨hself, fun r job job' drvPath drv drv' hlocated hadd => ?_⟩
  have hlooked := (addConstituents_inputs hadd).1
  simp only [Std.ExtTreeSet.mem_toList] at hlooked
  -- in terms of when it *is* an input
  rw [← hself, ← not_or, ← not_or, not_iff_not, mem_addConstituents_inputs hadd]
  refine or_congr_right ⟨?_, ?_⟩
  · -- an input is new because of a constituent with this derivation
    rintro ⟨name, hname, childDrv, hchild⟩
    have hdependency := Std.ExtTreeSet.mem_toList.mp hname
    by_cases heq : name = agg.name
    · exact .inl (heq ▸ hdependency)
    · exact .inr ⟨name, heq, (hdescribes.dependencies name).mp hdependency,
        (looksUp_iff hchild).mpr rfl⟩
  · rintro (hdependency | ⟨name, hne, hdepends, hlooks⟩)
    · -- as a dependency it adds its own derivation to the inputs
      exact ⟨agg.name, Std.ExtTreeSet.mem_toList.mpr hdependency, drv,
        constituentDrv_located hlocated⟩
    · -- and so does a dependency with the same derivation
      have hdependency := (hdescribes.dependencies name).mpr hdepends
      obtain ⟨path, childDrv, first, hchild, -⟩ := hlooked name hdependency
      obtain rfl := (looksUp_iff hchild).mp hlooks
      exact ⟨name, Std.ExtTreeSet.mem_toList.mpr hdependency, childDrv, hchild⟩

/-- One aggregate, which names itself. -/
def selfJobs : JobMap := (∅ : JobMap).insert (lit "all") (aggregateJson "all" ["all"])

/-- Its derivation is that of the package. -/
def selfStore : DrvStore := (∅ : DrvStore).insert (demoDrvPath "all.drv") packageDrv

/-- The aggregate after it is resolved and rewritten. -/
def selfResult : Option (List AggregateJob × Rewriting) :=
  rewriteResult nestedLibs selfJobs selfStore

/-- Both steps return. -/
theorem selfResult_isSome : selfResult.isSome = true := by decide +kernel

/-- `all` depends on itself, and the derivation that it ends up with on the one before. -/
theorem not_notItself_self :
    let result := selfResult.get selfResult_isSome
    resolveNamedConstituents nestedLibs selfJobs = .ok (.inr result.1) ∧
      rewriteAggregates nestedLibs selfJobs result.1 selfStore = .ok result.2 ∧
      (∃ agg ∈ result.1, agg.name ∈ agg.dependencies) ∧
      ∃ (drvPath : StorePath) (drv : Derivation), result.2.store[drvPath]? = some drv ∧
        demoDrvPath "all.drv" ∈ drv.inputDrvs := by
  intro result
  obtain ⟨hresolve, hrewrite⟩ := rewriteResult_eq_some (Option.some_get selfResult_isSome).symm
  have hself : (result.1.any fun agg => agg.dependencies.contains agg.name) = true := by
    decide +kernel
  have hinput : (result.2.store.toList.any fun e =>
      e.2.inputDrvs.contains (demoDrvPath "all.drv")) = true := by
    decide +kernel
  obtain ⟨agg, hagg, hdependency⟩ := List.any_eq_true.mp hself
  obtain ⟨e, he, hmem⟩ := List.any_eq_true.mp hinput
  exact ⟨hresolve, hrewrite, ⟨agg, hagg, hdependency⟩, e.1, e.2,
    Std.ExtTreeMap.mem_toList_iff_getElem?_eq_some.mp he, hmem⟩

/-- `all` names `copy`, another job with its derivation. -/
def aliasJobs : JobMap := ((∅ : JobMap).insert (lit "copy")
  (.object [(lit "drvPath", .string (lit "/nix/store/" ++ demoDrvPath "all.drv"))])).insert
    (lit "all") (aggregateJson "all" ["copy"])

/-- The aggregates after they are resolved and rewritten. -/
def aliasResult : Option (List AggregateJob × Rewriting) :=
  rewriteResult nestedLibs aliasJobs selfStore

/-- Both steps return. -/
theorem aliasResult_isSome : aliasResult.isSome = true := by decide +kernel

/-- What `all` becomes when `copy` is added to it. -/
def aliasAdded : Option (Json × Derivation) :=
  (addConstituents nestedLibs (aggregateJson "all" ["copy"]) packageDrv
    (.ofList [lit "copy"]) aliasJobs selfStore).toOption

/-- Adding `copy` succeeds. -/
theorem aliasAdded_isSome : aliasAdded.isSome = true := by decide +kernel

/-- `all` does not name itself, and the derivation it has becomes an input all the same. -/
theorem resolveNamedConstituents_self_iff_alias :
    let result := aliasResult.get aliasResult_isSome
    let added := aliasAdded.get aliasAdded_isSome
    ∃ agg ∈ result.1, agg.name = lit "all" ∧
      (agg.name ∉ agg.dependencies ↔
        (Named aliasJobs agg.name agg.name → HasError aliasJobs agg.name)) ∧
      demoDrvPath "all.drv" ∉ packageDrv.inputDrvs ∧ demoDrvPath "all.drv" ∈ added.2.inputDrvs := by
  intro result added
  have hcheck : (result.1.any fun agg => agg.name = lit "all" ∧
      agg.dependencies = .ofList [lit "copy"]) = true := by
    decide +kernel
  have hadded : addConstituents nestedLibs (aggregateJson "all" ["copy"]) packageDrv
      (.ofList [lit "copy"]) aliasJobs selfStore = .ok (added.1, added.2) :=
    eq_ok_of_toOption (Option.some_get aliasAdded_isSome).symm
  obtain ⟨hresolve, -⟩ := rewriteResult_eq_some (Option.some_get aliasResult_isSome).symm
  obtain ⟨agg, hagg, hcheck⟩ := List.any_eq_true.mp hcheck
  obtain ⟨hname, hdependencies⟩ := of_decide_eq_true hcheck
  have hdescribes := (resolveNamedConstituents_spec hresolve).1 agg hagg
  obtain ⟨hself, hinput⟩ := resolveNamedConstituents_self_iff hresolve hagg
  have hlocated : Located nestedLibs ⟨aliasJobs, selfStore, []⟩ agg.name
      (aggregateJson "all" ["copy"]) (demoDrvPath "all.drv") packageDrv := by
    rw [hname]
    refine ⟨getElem?_insert_name.trans (if_pos rfl), ⟨_, rfl, drop_storeDir _⟩,
      Std.ExtTreeMap.getElem?_insert_self⟩
  have haliased : Aliased nestedLibs aliasJobs ⟨aliasJobs, selfStore, []⟩ agg.name
      (demoDrvPath "all.drv") := by
    refine ⟨lit "copy", by rw [hname]; decide, (hdescribes.dependencies _).mp ?_,
      .object [(lit "drvPath", .string (lit "/nix/store/" ++ demoDrvPath "all.drv"))], _, ?_, rfl,
      drop_storeDir _⟩
    · rw [hdependencies]
      decide +kernel
    · refine getElem?_insert_name.trans ((if_neg (by decide)).trans ?_)
      exact Std.ExtTreeMap.getElem?_insert_self
  refine ⟨agg, hagg, hname, hself, Std.ExtTreeMap.not_mem_empty, ?_⟩
  by_contra hnot
  rw [← hdependencies] at hadded
  exact ((hinput _ _ _ _ _ _ hlocated hadded).mp hnot).2.2 haliased

end Aggregates

end NixEvalJobs
