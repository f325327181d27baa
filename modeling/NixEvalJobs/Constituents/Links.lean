import NixEvalJobs.Constituents.Broken
import NixEvalJobs.Constituents.Order

/-!
# Aggregates — links to the derivations of the constituents

An aggregate lists the derivations of its constituents and has them as inputs. A
constituent that is an aggregate gets a new derivation while the aggregates are
rewritten, one after the other in the same map. Since the sort puts it first, and it
is rewritten once, the derivation that is looked up is the one it has in the end.

* `rewriteAggregate_links` — what one rewriting links, at the time.
* `rewriteAggregates_links` — the links in the end, and that every lookup on the way
  succeeds.
-/

namespace NixEvalJobs

namespace Aggregates

variable {L : AggregateLibs} {jobs : JobMap} {store : DrvStore}

/-! ## The store -/

/-- The store as a map from paths to derivations, with paths that name one derivation
each; and `fillInOutputPaths`, which leaves the inputs alone. -/
structure StoreLaws (L : AggregateLibs) : Prop where
  parse_print : ∀ path, L.parseStorePath (L.printStorePath path) = some path
  fill : ∀ {store drv filled}, L.fillInOutputPaths store drv = some filled →
    filled.inputDrvs = drv.inputDrvs
  read : ∀ {store drv path store'}, L.writeDerivation store drv = some (path, store') →
    store'[path]? = some drv
  keep : ∀ {store drv path store'}, L.writeDerivation store drv = some (path, store') →
    ∀ (other : StorePath) otherDrv, store[other]? = some otherDrv → store'[other]? = some otherDrv

/-- Everything that can be read from `store` can be read from `store'`. -/
def Extends (store store' : DrvStore) : Prop :=
  ∀ (path : StorePath) drv, store[path]? = some drv → store'[path]? = some drv

/-- The value has a `drvPath`, as the store prints it. -/
def HasDrvPath (L : AggregateLibs) (job : Json) : Prop :=
  ∃ path, job.find (lit "drvPath") = some (.string (L.printStorePath path))

/-- Every entry has an error or a `drvPath`. -/
def Complete (L : AggregateLibs) (jobs : JobMap) : Prop :=
  ∀ (name : Str) job, jobs[name]? = some job →
    job.find (lit "error") ≠ none ∨ HasDrvPath L job

/-- `jobs.find(name)->second["drvPath"]` is there and is the store path `path`. -/
def LooksUp (L : AggregateLibs) (jobs : JobMap) (name : Str) (path : StorePath) : Prop :=
  ∃ child drvPathS, jobs[name]? = some child ∧
    child.constMember (lit "drvPath") = .ok (.string drvPathS) ∧
    L.parseStorePath drvPathS = some path

/-! ## Links -/

/-- The job `name` lists the `drvPath` of the job `dependency`, and the derivation at its
own `drvPath` has that derivation as an input, with its first output. -/
def LinksTo (L : AggregateLibs) (r : Rewriting) (name dependency : Str) : Prop :=
  ∃ job drvPath drv child childDrvPath childDrv value first,
    Located L r name job drvPath drv ∧ Located L r dependency child childDrvPath childDrv ∧
      child.find (lit "drvPath") = some value ∧ value ∈ constituentsOf job ∧
      childDrv.outputs.keys.head? = some first ∧
      drv.inputDrvs[childDrvPath]? = some ((∅ : StdSet Str).insert first)

/-- What is found is found later, too, if its entry is as it was. -/
theorem Located.mono {r r' : Rewriting} {name : Str} {job : Json} {drvPath : StorePath}
    {drv : Derivation} (h : Located L r name job drvPath drv)
    (hjobs : r'.jobs[name]? = r.jobs[name]?) (hstore : Extends r.store r'.store) :
    Located L r' name job drvPath drv :=
  ⟨hjobs.trans h.entry, h.path, hstore _ _ h.read⟩

/-- A link stays when neither of its ends is rewritten. -/
theorem LinksTo.mono {r r' : Rewriting} {name dependency : Str}
    (h : LinksTo L r name dependency) (hname : r'.jobs[name]? = r.jobs[name]?)
    (hdependency : r'.jobs[dependency]? = r.jobs[dependency]?)
    (hstore : Extends r.store r'.store) : LinksTo L r' name dependency := by
  obtain ⟨job, drvPath, drv, child, childDrvPath, childDrv, value, first, hjob, hchild, hrest⟩ := h
  exact ⟨job, drvPath, drv, child, childDrvPath, childDrv, value, first,
    hjob.mono hname hstore, hchild.mono hdependency hstore, hrest⟩

/-! ## One aggregate -/

/-- The other jobs are as they were. -/
theorem rewriteAggregate_other {r r' : Rewriting} {agg : AggregateJob}
    (h : rewriteAggregate L r agg = .ok r') {name : Str} (hname : agg.name ≠ name) :
    r'.jobs[name]? = r.jobs[name]? := by
  obtain ⟨job, job', -, hjobs, -⟩ := rewriteAggregate_cases h
  rw [hjobs, getElem?_insert_name, if_neg hname]

/-- Nothing is removed from the store. -/
theorem rewriteAggregate_extends (hlaws : StoreLaws L) {r r' : Rewriting} {agg : AggregateJob}
    (h : rewriteAggregate L r agg = .ok r') : Extends r.store r'.store := by
  match rewriteAggregate_rewrites h with
  -- a broken aggregate writes nothing
  | .broken _ _ _ _ _ => exact fun _ _ hread => hread
  | .rewritten _ _ _ hregister _ _ =>
    obtain ⟨written, newDrvPath, hregistered, -⟩ := rewriteAndRegisterDrv_cases hregister
    exact hlaws.keep hregistered.write

/-- **The job gets the path of its derivation.** What is registered can be read at the
path that the job names afterwards. -/
theorem rewriteAndRegisterDrv_located (hlaws : StoreLaws L) {job job' : Json} {drv : Derivation}
    {drvPath : StorePath} {store' : DrvStore}
    (h : rewriteAndRegisterDrv L job drv drvPath store = .ok (job', store'))
    (hpath : ∃ drvPathS, job.find (lit "drvPath") = some (.string drvPathS) ∧
      L.parseStorePath drvPathS = some drvPath) :
    ∃ written newDrvPath, Registered L store drv written newDrvPath store' ∧
      (job'.find (lit "drvPath") = job.find (lit "drvPath") ∨
        job'.find (lit "drvPath") = some (.string (L.printStorePath newDrvPath))) ∧
      ∃ drvPathS, job'.find (lit "drvPath") = some (.string drvPathS) ∧
        L.parseStorePath drvPathS = some newDrvPath := by
  obtain ⟨written, newDrvPath, hregistered, ⟨rfl, rfl⟩ | ⟨-, moved, hassign, hset⟩⟩ :=
    rewriteAndRegisterDrv_cases h
  · exact ⟨written, newDrvPath, hregistered, .inl rfl, hpath⟩
  · -- the outputs are set after the path
    have hnew : job'.find (lit "drvPath") = some (.string (L.printStorePath newDrvPath)) := by
      rw [setOutputs_sameBut hset _ (by decide), Json.find_assign hassign, if_pos rfl]
    exact ⟨written, newDrvPath, hregistered, .inr hnew, _, hnew, hlaws.parse_print newDrvPath⟩

/-- A job that has a `drvPath` keeps one. -/
theorem rewriteAggregate_hasDrvPath (hlaws : StoreLaws L) {r r' : Rewriting} {agg : AggregateJob}
    (h : rewriteAggregate L r agg = .ok r') {name : Str} {job : Json}
    (hjob : r.jobs[name]? = some job) (hpath : HasDrvPath L job) :
    ∃ job', r'.jobs[name]? = some job' ∧ HasDrvPath L job' := by
  -- the aggregate itself, or another job
  by_cases hname : agg.name = name
  · subst hname
    match rewriteAggregate_rewrites h with
    | @Rewrites.broken _ _ _ job₀ _ job' _ _ _ hlocated herase herror _ =>
      obtain rfl := Option.some.inj (hjob.symm.trans hlocated.entry)
      refine ⟨job', ?_, ?_⟩
      · rw [getElem?_insert_name, if_pos rfl]
      · -- a broken aggregate keeps its path
        obtain ⟨path, hfind⟩ := hpath
        rw [addBrokenJobsError] at herror
        rw [HasDrvPath, sameBut_assign herror _ (by decide), sameBut_eraseKey herase _ (by decide)]
        exact ⟨path, hfind⟩
    | @Rewrites.rewritten _ _ _ job₀ job₁ job₂ job' _ _ _ _ _ hlocated hadd hregister herase _ =>
      obtain rfl := Option.some.inj (hjob.symm.trans hlocated.entry)
      -- the registered derivation has a path of its own, or the old one
      have hadded : job₁.find (lit "drvPath") = job.find (lit "drvPath") :=
        (addConstituents_job hadd).1 _ (by decide)
      obtain ⟨written, newDrvPath, -, hfind, -⟩ :=
        rewriteAndRegisterDrv_located hlaws hregister (hadded ▸ hlocated.path)
      refine ⟨job', ?_, ?_⟩
      · rw [getElem?_insert_name, if_pos rfl]
      · rw [HasDrvPath, sameBut_eraseKey herase _ (by decide)]
        rcases hfind with hsame | hnew
        · rw [hsame, hadded]
          exact hpath
        · exact ⟨newDrvPath, hnew⟩
  · exact ⟨job, (rewriteAggregate_other h hname).trans hjob, hpath⟩

/-- **What rewriting one aggregate links**: every constituent that is another job, at the
derivation it has by then. -/
theorem rewriteAggregate_links (hlaws : StoreLaws L) {r r' : Rewriting} {agg : AggregateJob}
    (h : rewriteAggregate L r agg = .ok r') (hempty : agg.brokenJobs.isEmpty = true)
    {dependency : Str} {child : Json} (hmem : dependency ∈ agg.dependencies)
    (hother : agg.name ≠ dependency) (hchild : r.jobs[dependency]? = some child)
    (hpath : HasDrvPath L child) : LinksTo L r' agg.name dependency := by
  have hchild' := (rewriteAggregate_other h hother).trans hchild
  have hextends := rewriteAggregate_extends hlaws h
  match rewriteAggregate_rewrites h with
  | .broken hbroken _ _ _ _ => exact absurd hempty (by rw [hbroken]; simp)
  | @Rewrites.rewritten _ _ _ job job₁ job₂ job' drvPath drv drv₁ store₁ _ hlocated hadd hregister
      herase _ =>
    have hnamed := Std.ExtTreeSet.mem_toList.mpr hmem
    -- the derivation of the constituent, an input of the aggregate now
    obtain ⟨childDrvPath, childDrv, first, hconstituent, hfirst, hinput⟩ :=
      (addConstituents_inputs hadd).1 dependency hnamed
    obtain ⟨hread, child₀, drvPathS, hchild₀, hfind, hparse⟩ := store_of_constituentDrv hconstituent
    obtain rfl := Option.some.inj (hchild.symm.trans hchild₀)
    -- it is listed as it is printed, which is what its own job says
    obtain ⟨hsame, -, hlisted⟩ := addConstituents_job hadd
    obtain ⟨path, hprinted⟩ := hpath
    obtain rfl := Json.string.inj (Option.some.inj (hfind.symm.trans hprinted))
    obtain rfl := Option.some.inj ((hlaws.parse_print path).symm.trans hparse)
    -- the aggregate itself is found at its new path
    have hadded : job₁.find (lit "drvPath") = job.find (lit "drvPath") := hsame _ (by decide)
    obtain ⟨written, newDrvPath, hregistered, -, drvPathS', hfind', hparse'⟩ :=
      rewriteAndRegisterDrv_located hlaws hregister (hadded ▸ hlocated.path)
    have hinputs : written.inputDrvs = drv₁.inputDrvs :=
      (hlaws.fill hregistered.fill).trans (resetOutputs_inputDrvs drv₁)
    have hconstituents : constituentsOf job' = constituentsOf job₁ := by
      rw [constituentsOf, sameBut_eraseKey herase _ (by decide),
        rewriteAndRegisterDrv_sameBut hregister _ (by decide), ← constituentsOf]
    refine ⟨job', newDrvPath, written, child, path, childDrv, _, first, ⟨?_, ?_, ?_⟩,
      ⟨hchild', ⟨_, hprinted, hparse⟩, hextends _ _ hread⟩, hprinted, ?_, hfirst, ?_⟩
    · rw [getElem?_insert_name, if_pos rfl]
    · refine ⟨drvPathS', ?_, hparse'⟩
      rw [sameBut_eraseKey herase _ (by decide), hfind']
    · exact hlaws.read hregistered.write
    · rw [hconstituents]
      exact hlisted dependency hnamed path childDrv hconstituent
    · rw [hinputs]
      exact hinput

/-! ## All aggregates -/

/-- Every job without an error is still there and has a path. -/
def KeepsPaths (L : AggregateLibs) (jobs : JobMap) (r : Rewriting) : Prop :=
  ∀ name, GoodJob jobs name → ∃ job, r.jobs[name]? = some job ∧ HasDrvPath L job

/-- At first every good job has a path. -/
theorem keepsPaths_start (hcomplete : Complete L jobs) : KeepsPaths L jobs { jobs, store } := by
  rintro name ⟨job, hjob, hclean⟩
  exact ⟨job, hjob, (hcomplete name job hjob).resolve_left (not_not.mpr hclean)⟩

/-- One rewriting takes no path away. -/
theorem rewriteAggregate_keepsPaths (hlaws : StoreLaws L) {r r' : Rewriting} {agg : AggregateJob}
    (h : rewriteAggregate L r agg = .ok r') (hkeeps : KeepsPaths L jobs r) :
    KeepsPaths L jobs r' := by
  intro name hgood
  obtain ⟨job, hjob, hpath⟩ := hkeeps name hgood
  exact rewriteAggregate_hasDrvPath hlaws h hjob hpath

/-- So the loop takes none away. -/
theorem rewriteAggregates_keepsPaths (hlaws : StoreLaws L) (hcomplete : Complete L jobs)
    {aggregates : List AggregateJob} {r : Rewriting}
    (h : rewriteAggregates L jobs aggregates store = .ok r) : KeepsPaths L jobs r := by
  rw [rewriteAggregates] at h
  exact foldlM_prefix (I := fun _ r => KeepsPaths L jobs r)
    (fun _ hkeeps hstep => rewriteAggregate_keepsPaths hlaws hstep hkeeps)
    (keepsPaths_start hcomplete) h

/-- The links of the aggregates that nothing is broken about. -/
def Linked (L : AggregateLibs) (aggregates : List AggregateJob) (r : Rewriting) : Prop :=
  ∀ agg ∈ aggregates, agg.brokenJobs.isEmpty = true →
    ∀ dependency ∈ agg.dependencies, LinksTo L r agg.name dependency

/-- **One more aggregate is linked**, and the links before it stay: none of them starts
or ends at it. -/
theorem rewriteAggregate_linked (hlaws : StoreLaws L) {before : List AggregateJob}
    {agg : AggregateJob} {r r' : Rewriting} (hkeeps : KeepsPaths L jobs r)
    (hdescribes : Describes L jobs agg) (hself : agg.name ∉ agg.dependencies)
    (hlater : ∀ other ∈ before, agg.name ≠ other.name ∧ agg.name ∉ other.dependencies)
    (hlinked : Linked L before r) (h : rewriteAggregate L r agg = .ok r') :
    Linked L (before ++ [agg]) r' := by
  intro other hother hempty dependency hdependency
  rcases List.mem_append.mp hother with hother | hother
  · -- an aggregate before this one, whose constituents are before it, too
    obtain ⟨hname, hnot⟩ := hlater other hother
    have hne : agg.name ≠ dependency := fun heq => hnot (heq ▸ hdependency)
    exact (hlinked other hother hempty dependency hdependency).mono (rewriteAggregate_other h hname)
      (rewriteAggregate_other h hne) (rewriteAggregate_extends hlaws h)
  · -- this one, whose constituents have their last derivation already
    obtain rfl := List.mem_singleton.mp hother
    obtain ⟨glob, child, -, -, hgood⟩ := (hdescribes.dependencies dependency).mp hdependency
    obtain ⟨job, hjob, hpath⟩ := hkeeps dependency hgood
    exact rewriteAggregate_links hlaws h hempty hdependency
      (fun heq => hself (heq ▸ hdependency)) hjob hpath

/-- Every link of the loop is there in the end. -/
theorem rewriteAggregates_linked (hlaws : StoreLaws L) (hcomplete : Complete L jobs)
    {aggregates : List AggregateJob} {r : Rewriting}
    (hresolve : resolveNamedConstituents L jobs = .ok (.inr aggregates))
    (hself : ∀ agg ∈ aggregates, agg.name ∉ agg.dependencies)
    (h : rewriteAggregates L jobs aggregates store = .ok r) : Linked L aggregates r := by
  obtain ⟨hdescribes, -, -⟩ := resolveNamedConstituents_spec hresolve
  have hrun : KeepsPaths L jobs r ∧ Linked L aggregates r := by
    rw [rewriteAggregates] at h
    -- the invariant speaks of the aggregates before this one
    refine foldlM_prefix (I := fun before r => KeepsPaths L jobs r ∧ Linked L before r)
      (fun {before agg after r r'} hsplit hbefore hstep => ?_) ⟨?_, ?_⟩ h
    · obtain ⟨hkeeps, hlinked⟩ := hbefore
      have hagg : agg ∈ aggregates := hsplit ▸ List.mem_append_right _ (List.mem_cons_self ..)
      exact ⟨rewriteAggregate_keepsPaths hlaws hstep hkeeps,
        rewriteAggregate_linked hlaws hkeeps (hdescribes agg hagg) (hself agg hagg)
          (resolveNamedConstituents_before hresolve hsplit) hlinked hstep⟩
    · exact keepsPaths_start hcomplete
    · exact fun _ hagg => absurd hagg List.not_mem_nil
  exact hrun.2

/-- **Aggregates refer to final derivations.** Without a cycle the aggregates are
sorted, the `drvPath` of a dependency is there whenever an aggregate is rewritten, and in
the end every aggregate that nothing is broken about is linked to its dependencies. -/
theorem rewriteAggregates_links {resolved : DependencyCycle ⊕ List AggregateJob}
    (hlaws : StoreLaws L) (hcomplete : Complete L jobs)
    (hacyclic : ∀ name, ¬Relation.TransGen (DependsOn L jobs) name name)
    (hresolve : resolveNamedConstituents L jobs = .ok resolved) :
    ∃ aggregates, resolved = .inr aggregates ∧
      (∀ before agg after r, aggregates = before ++ agg :: after →
        rewriteAggregates L jobs before store = .ok r →
          ∀ dependency ∈ agg.dependencies, ∃ path, LooksUp L r.jobs dependency path) ∧
      ∀ r, rewriteAggregates L jobs aggregates store = .ok r →
        ∀ agg ∈ aggregates, agg.brokenJobs.isEmpty = true →
          ∀ dependency ∈ agg.dependencies, LinksTo L r agg.name dependency := by
  obtain ⟨aggregates, rfl⟩ := resolveNamedConstituents_acyclic hacyclic hresolve
  obtain ⟨hdescribes, -, -⟩ := resolveNamedConstituents_spec hresolve
  -- the lookups on the way, and then the links in the end
  refine ⟨aggregates, rfl, fun before agg after r hsplit hrun dependency hdependency => ?_,
    fun r hrun => rewriteAggregates_linked hlaws hcomplete hresolve (fun agg hagg hself => ?_) hrun⟩
  · have hagg : agg ∈ aggregates := hsplit ▸ List.mem_append_right _ (List.mem_cons_self ..)
    obtain ⟨glob, child, -, -, hgood⟩ :=
      ((hdescribes agg hagg).dependencies dependency).mp hdependency
    obtain ⟨job, hjob, path, hfind⟩ := rewriteAggregates_keepsPaths hlaws hcomplete hrun _ hgood
    exact ⟨path, job, _, hjob, Json.constMember_of_find hfind, hlaws.parse_print path⟩
  · exact hacyclic agg.name (.single (((hdescribes agg hagg).dependencies agg.name).mp hself))

/-! ## A store that writes every path once -/

/-- The libraries of `nestedLibs`, but a derivation is only written to a fresh path. -/
def linkLibs : AggregateLibs where
  fnmatch := nestedLibs.fnmatch
  printStorePath := nestedLibs.printStorePath
  parseStorePath := nestedLibs.parseStorePath
  dump := nestedLibs.dump
  fillInOutputPaths := nestedLibs.fillInOutputPaths
  writeDerivation store drv :=
    let path := demoDrvPath ("new" ++ toString store.size ++ ".drv")
    if path ∈ store then none else some (path, store.insert path drv)
  traverse := nestedLibs.traverse

/-- A write succeeds only at a fresh path. -/
theorem linkLibs_write {store store' : DrvStore} {drv : Derivation} {path : StorePath}
    (h : linkLibs.writeDerivation store drv = some (path, store')) :
    path ∉ store ∧ store' = store.insert path drv := by
  unfold linkLibs at h
  dsimp only at h
  split at h
  · cases h
  · next hfresh =>
    obtain ⟨rfl, rfl⟩ := Prod.mk.inj (Option.some.inj h)
    exact ⟨hfresh, rfl⟩

/-- So what was there stays. -/
theorem linkLibs_laws : StoreLaws linkLibs where
  parse_print := drop_storeDir
  fill h := by
    obtain rfl := Option.some.inj h
    rfl
  read h := by
    obtain ⟨-, rfl⟩ := linkLibs_write h
    exact Std.ExtTreeMap.getElem?_insert_self
  keep h := by
    obtain ⟨hfresh, rfl⟩ := linkLibs_write h
    intro other otherDrv hread
    rw [Std.ExtTreeMap.getElem?_insert, if_neg, hread]
    rw [Std.LawfulEqCmp.compare_eq_iff_eq]
    rintro rfl
    exact hfresh (StdMap.mem_iff_exists.mpr ⟨_, hread⟩)

/-- There are three jobs. -/
theorem nestedJobs_cases {name : Str} {job : Json}
    (h : (nestedJobs "package")[name]? = some job) :
    (name = lit "part" ∧ job = aggregateJson "part" ["package"]) ∨
      (name = lit "all" ∧ job = aggregateJson "all" ["part"]) ∨
      (name = lit "package" ∧ packageJobs[name]? = some job) := by
  rw [nestedJobs, getElem?_insert_name] at h
  split at h
  · next hname => exact .inl ⟨hname.symm, (Option.some.inj h).symm⟩
  rw [getElem?_insert_name] at h
  split at h
  · next hname => exact .inr (.inl ⟨hname.symm, (Option.some.inj h).symm⟩)
  refine .inr (.inr ⟨?_, h⟩)
  rw [packageJobs, getElem?_insert_name] at h
  split at h
  · next hname => exact hname.symm
  · rw [Std.ExtTreeMap.getElem?_empty] at h
    cases h

/-- All of them have a path. -/
theorem nestedJobs_complete : Complete linkLibs (nestedJobs "package") := by
  intro name job hjob
  refine .inr ?_
  rcases nestedJobs_cases hjob with ⟨-, rfl⟩ | ⟨-, rfl⟩ | ⟨rfl, hpackage⟩
  · exact ⟨demoDrvPath "part.drv", rfl⟩
  · exact ⟨demoDrvPath "all.drv", rfl⟩
  · rw [packageJobs, getElem?_insert_name, if_pos rfl] at hpackage
    obtain rfl := Option.some.inj hpackage
    exact ⟨demoDrvPath "package.drv", rfl⟩

/-- How many aggregates lie below a job. -/
def nestedHeight (name : Str) : Nat :=
  if name = lit "all" then 2 else if name = lit "part" then 1 else 0

/-- There are two dependencies. -/
theorem nestedJobs_dependsOn {name dependency : Str}
    (h : DependsOn linkLibs (nestedJobs "package") name dependency) :
    nestedHeight dependency < nestedHeight name := by
  obtain ⟨glob, child, ⟨job, hjob, -, value, hvalue, hstring⟩, hselects, -⟩ := h
  -- a name that is a job stands for itself
  have hself : child ∈ nestedJobs "package" → dependency = child := by
    intro hmem
    rcases hselects with ⟨-, rfl⟩ | ⟨hnot, -⟩
    · rfl
    · exact absurd hmem hnot
  rcases nestedJobs_cases hjob with ⟨rfl, rfl⟩ | ⟨rfl, rfl⟩ | ⟨rfl, hpackage⟩
  · obtain rfl := List.mem_singleton.mp hvalue
    obtain rfl := Except.ok.inj hstring
    obtain rfl := hself (by decide +kernel)
    decide
  · obtain rfl := List.mem_singleton.mp hvalue
    obtain rfl := Except.ok.inj hstring
    obtain rfl := hself (by decide +kernel)
    decide
  · rw [packageJobs, getElem?_insert_name, if_pos rfl] at hpackage
    obtain rfl := Option.some.inj hpackage
    exact absurd hvalue List.not_mem_nil

/-- They make no cycle. -/
theorem nestedJobs_acyclic (name : Str) :
    ¬Relation.TransGen (DependsOn linkLibs (nestedJobs "package")) name name := by
  have hlower : ∀ {name dependency : Str},
      Relation.TransGen (DependsOn linkLibs (nestedJobs "package")) name dependency →
        nestedHeight dependency < nestedHeight name := by
    intro name dependency h
    induction h with
    | single h => exact nestedJobs_dependsOn h
    | tail _ h ih => exact (nestedJobs_dependsOn h).trans ih
  exact fun h => absurd (hlower h) (Nat.lt_irrefl _)

/-- What becomes of the map. -/
def linkedResult : Option (List AggregateJob × Rewriting) :=
  rewriteResult linkLibs (nestedJobs "package") nestedStore

/-- Both steps return. -/
theorem linkedResult_isSome : linkedResult.isSome = true := by decide +kernel

/-- `all` is linked to the derivation that `part` has got. -/
theorem rewriteAggregates_links_nested :
    let result := linkedResult.get linkedResult_isSome
    rewriteAggregates linkLibs (nestedJobs "package") result.1 nestedStore = .ok result.2 ∧
      LinksTo linkLibs result.2 (lit "all") (lit "part") := by
  intro result
  obtain ⟨hresolve, hrewrite⟩ := rewriteResult_eq_some (Option.some_get linkedResult_isSome).symm
  obtain ⟨aggregates, haggregates, -, hlinks⟩ :=
    rewriteAggregates_links linkLibs_laws nestedJobs_complete nestedJobs_acyclic hresolve
  obtain rfl := Sum.inr.inj haggregates
  refine ⟨hrewrite, ?_⟩
  have hall : (result.1.any fun agg => decide (agg.name = lit "all") && agg.brokenJobs.isEmpty &&
      agg.dependencies.contains (lit "part")) = true := by
    decide +kernel
  obtain ⟨agg, hagg, hall⟩ := List.any_eq_true.mp hall
  simp only [Bool.and_eq_true, decide_eq_true_eq] at hall
  have hlinked := hlinks _ hrewrite agg hagg hall.1.2 (lit "part") hall.2
  rw [hall.1.1] at hlinked
  exact hlinked

end Aggregates

end NixEvalJobs
