import NixEvalJobs.CacheStatus.Rounds

/-!
# Cache status resolver — failing lookups

The substituters are asked about all wanted paths in one `querySubstitutablePathInfos`.
When a lookup fails it may throw, and the paths it has not come to by then have no info;
`resolveWanted` catches this ("Unreachable substituters count as misses") and remembers
all of them as misses, whatever the substituters would have said.

* `probeCache_iff` — every other path gets its own answer exactly when no path that could
  be substituted comes after the failure.
* `reachable_answers` — runs without such batches are runs of stores that never fail.
* `lookups_isolated` — so jobs are resolved in them as if each were alone.
* `lookups_not_isolated` — a job that is cached alone, and not built in company.
-/

namespace NixEvalJobs

namespace Resolver

/-! ## A lookup -/

/-- What the substituters say about a path. -/
inductive Answer where
  | yes
  | no
  | failure
deriving DecidableEq

/-- `querySubstitutablePathInfos` for a batch. It throws at a path that fails, if there
are paths it has not handled, and `infos` has the paths handled before that. -/
structure Lookup (answer : StorePath → Answer) (batch : List StorePath)
    (infos : StorePath → Bool) (handled rest : List StorePath) : Prop where
  perm : (handled ++ rest).Perm batch
  fails : ∀ path ∈ rest.head?, answer path = .failure
  infos : ∀ path ∈ batch, infos path = (handled.contains path && answer path == .yes)

/-- A path whose lookup fails is a miss. -/
def oracles (valid : StorePath → Bool) (answer : StorePath → Answer) : Oracles where
  valid
  substitutable path := answer path == .yes

variable {answer : StorePath → Answer} {batch handled rest : List StorePath}
  {valid infos substitutable : StorePath → Bool} {path : StorePath} {R : Resolver}

namespace Lookup

/-- A lookup that has missed nothing is right about every path. -/
theorem right (h : Lookup answer batch infos handled rest)
    (hrest : ∀ path ∈ rest, answer path ≠ .yes) (hpath : path ∈ batch) :
    infos path = (answer path == .yes) := by
  rw [h.infos path hpath]
  rcases List.mem_append.mp (h.perm.mem_iff.mpr hpath) with hhandled | hunhandled
  · rw [List.contains_iff_mem.mpr hhandled, Bool.true_and]
  · -- it is a miss, and would have been one
    rw [beq_eq_false_iff_ne.mpr (hrest path hunhandled), Bool.and_false]

/-- **A lookup is right about all paths that do not fail** iff none that it has not
handled could be substituted. -/
theorem right_iff (h : Lookup answer batch infos handled rest) (hnodup : batch.Nodup) :
    (∀ path ∈ batch, answer path ≠ .failure → infos path = (answer path == .yes)) ↔
      ∀ path ∈ rest, answer path ≠ .yes := by
  refine ⟨fun hright path hunhandled hyes => ?_, fun hrest path hpath _ => h.right hrest hpath⟩
  have hpath : path ∈ batch := h.perm.mem_iff.mp (List.mem_append_right _ hunhandled)
  have hinfos := hright path hpath (by rw [hyes]; simp)
  -- it has no info, as each path is there once
  have hhandled : handled.contains path = false := by
    rw [List.contains_eq_mem, decide_eq_false_iff_not]
    intro hmem
    exact List.disjoint_of_nodup_append (h.perm.nodup_iff.mpr hnodup) hmem hunhandled
  rw [h.infos path hpath, hhandled, hyes] at hinfos
  cases hinfos

end Lookup

/-! ## A batch -/

theorem resolveWanted_congr (h : ∀ path ∈ R.wanted, infos path = substitutable path) :
    R.resolveWanted valid infos = R.resolveWanted valid substitutable := by
  have hfold : R.wanted.foldl (fun cache path => cache.insertIfNew path (infos path))
      R.probeCache = R.wanted.foldl
        (fun cache path => cache.insertIfNew path (substitutable path)) R.probeCache := by
    rw [Std.ExtTreeSet.foldl_eq_foldl_toList, Std.ExtTreeSet.foldl_eq_foldl_toList]
    refine List.foldl_ext _ _ _ fun cache path hmem => ?_
    rw [h path (Std.ExtTreeSet.mem_toList.mp hmem)]
  rw [resolveWanted, resolveWanted, hfold]

/-- A path that is wanted and not known gets what the batch says. -/
theorem probeCache_wanted (hwanted : path ∈ R.wanted) (hunknown : path ∉ R.probeCache) :
    (R.resolveWanted valid infos).probeCache[path]? = some (infos path) := by
  rw [probeCache_resolveWanted, Std.ExtTreeMap.getElem?_eq_none hunknown, if_pos hwanted]
  rfl

end Resolver

namespace CacheStatusResolver

open Resolver

variable {S : EvalStore} {st st' : CacheStatusResolver} {e : Event}
  {valid infos : StorePath → Bool} {answer : StorePath → Answer}
  {handled rest : List StorePath}

/-- **A failing lookup is a miss for its own path only**, exactly when no path that could be
substituted comes after it. -/
theorem probeCache_iff (h : system.Reachable (Reads S) st)
    (hlookup : Lookup answer st.caches.wanted.toList infos handled rest) :
    (∀ path ∈ st.caches.wanted, answer path ≠ .failure →
      (st.caches.resolveWanted valid infos).probeCache[path]? = some (answer path == .yes)) ↔
      ∀ path ∈ rest, answer path ≠ .yes := by
  have hnodup : st.caches.wanted.toList.Nodup := by
    refine Std.ExtTreeSet.distinct_toList.imp fun hne heq => hne ?_
    exact Std.LawfulEqCmp.compare_eq_iff_eq.mpr heq
  rw [← hlookup.right_iff hnodup]
  have hfresh := (tidy_reachable h).fresh
  refine forall_congr' fun path => ?_
  rw [Std.ExtTreeSet.mem_toList]
  refine imp_congr_right fun hwanted => imp_congr_right fun _ => ?_
  have hunknown : path ∉ st.caches.probeCache := fun hknown =>
    Finset.disjoint_left.mp hfresh (inr_mem_questions.mpr hwanted) (inr_mem_answered.mpr hknown)
  rw [probeCache_wanted hwanted hunknown, Option.some_inj]

/-! ## Runs -/

/-- The eval store is `S`, validity is as in `valid`, and the substituters say `answer`. -/
def Looks (S : EvalStore) (valid : StorePath → Bool) (answer : StorePath → Answer)
    (st : CacheStatusResolver) : Event → Prop
  | .attempt S' => S' = S
  | .resolveWanted valid' infos => valid' = valid ∧ ∃ handled rest,
      Lookup answer st.caches.wanted.toList infos handled rest
  | _ => True

/-- Besides, no lookup throws before a path that could be substituted. -/
def Isolated (S : EvalStore) (valid : StorePath → Bool) (answer : StorePath → Answer)
    (st : CacheStatusResolver) : Event → Prop
  | .attempt S' => S' = S
  | .resolveWanted valid' infos => valid' = valid ∧ ∃ handled rest,
      Lookup answer st.caches.wanted.toList infos handled rest ∧ ∀ path ∈ rest, answer path ≠ .yes
  | _ => True

theorem Isolated.caches {valid' : StorePath → Bool}
    (h : Isolated S valid answer st (.resolveWanted valid' infos)) :
    st.caches.resolveWanted valid' infos = st.caches.resolveWanted
      (oracles valid answer).valid (oracles valid answer).substitutable := by
  obtain ⟨rfl, handled, rest, hlookup, hrest⟩ := h
  exact resolveWanted_congr fun path hwanted =>
    hlookup.right hrest (Std.ExtTreeSet.mem_toList.mpr hwanted)

/-- Batches that leave the same in the caches are the same step. -/
theorem step_resolveWanted {valid' substitutable : StorePath → Bool}
    (h : st.caches.resolveWanted valid infos = st.caches.resolveWanted valid' substitutable)
    (hstep : st.step (.resolveWanted valid infos) = some st') :
    st.step (.resolveWanted valid' substitutable) = some st' := by
  match step_steps hstep with
  | .ran hrun =>
    match run_runs hrun with
    | .answered hpos =>
      -- nothing else of the answers is kept
      rw [h]
      simp only [CacheStatusResolver.step, run, hpos]
      rfl
  | .threw hrun =>
    rcases run_error hrun with ⟨_, he⟩ | ⟨_, he⟩
    · cases he
    · cases he

/-- **Such a run is one of stores that never fail.** -/
theorem reachable_answers (h : system.Reachable (Isolated S valid answer) st) :
    system.Reachable (Answers S (oracles valid answer)) st := by
  induction h with
  | init => exact .init
  | @step st st' e _ hrely hstep ih =>
    have hanswers : ∃ e', Answers S (oracles valid answer) st e' ∧
        system.step st e' = some st' := by
      match e with
      | .resolveWanted valid' infos =>
        exact ⟨.resolveWanted _ _, ⟨rfl, rfl⟩, step_resolveWanted hrely.caches hstep⟩
      | .attempt S' => exact ⟨.attempt S', hrely, hstep⟩
      | .push _ | .close | .join | .destroy | .proceed | .fail _ =>
        refine ⟨_, ?_, hstep⟩
        trivial
    obtain ⟨e', hrely', hstep'⟩ := hanswers
    exact ih.step hrely' hstep'

/-- **Failing lookups.** In any run, a batch leaves every path that does not fail with its
own answer exactly when no path that could be substituted comes after the failure the
query stopped at. In runs where this is so in every batch, attempts that succeed agree
for each job, whatever was in the batches, and what is sunk is the direct resolution. -/
theorem lookups_isolated (S : EvalStore) (valid : StorePath → Bool)
    (answer : StorePath → Answer) :
    (∀ st, system.Reachable (Reads S) st → ∀ valid infos handled rest,
      Lookup answer st.caches.wanted.toList infos handled rest →
      ((∀ path ∈ st.caches.wanted, answer path ≠ .failure →
        (st.caches.resolveWanted valid infos).probeCache[path]? = some (answer path == .yes)) ↔
        ∀ path ∈ rest, answer path ≠ .yes)) ∧
    ∀ st₁ st₂, system.Reachable (Isolated S valid answer) st₁ →
      system.Reachable (Isolated S valid answer) st₂ →
      (∀ drv drv₁ drv₂ caches₁ caches₂, st₁.caches.tryResolve S drv = .ok (true, drv₁, caches₁) →
        st₂.caches.tryResolve S drv = .ok (true, drv₂, caches₂) → drv₁ = drv₂) ∧
      ∀ s ∈ st₁.sunk, ∃ p ∈ st₁.pushed, DirectFor S (oracles valid answer) p s := by
  refine ⟨fun st hst valid infos handled rest hlookup => probeCache_iff hst hlookup,
    fun st₁ st₂ hst₁ hst₂ => ?_⟩
  -- both runs resolve jobs as the direct algorithm does
  have hconsistent₁ := consistent_reachable (reachable_answers hst₁)
  have hconsistent₂ := consistent_reachable (reachable_answers hst₂)
  refine ⟨fun drv drv₁ drv₂ caches₁ caches₂ htry₁ htry₂ => ?_, hconsistent₁.sunk⟩
  have hdirect₁ := (Resolver.tryResolve_direct hconsistent₁.caches htry₁).2
  have hdirect₂ := (Resolver.tryResolve_direct hconsistent₂.caches htry₂).2
  exact Except.ok.inj (hdirect₁.symm.trans hdirect₂)

/-! ### A job and its company -/

/-- The paths that are handled, by a store that takes them in order. -/
def handledIn (answer : StorePath → Answer) (batch : List StorePath) : List StorePath :=
  batch.takeWhile fun path => answer path != .failure

/-- The infos are what such a store leaves. -/
def looks (answer : StorePath → Answer) (st : CacheStatusResolver) (e : Event) : Bool :=
  match e with
  | .resolveWanted _ infos =>
    let batch := st.caches.wanted.toList
    batch.all fun path => infos path == ((handledIn answer batch).contains path &&
      answer path == .yes)
  | _ => true

/-- Besides, what it leaves out could not be substituted. -/
def isolated (answer : StorePath → Answer) (st : CacheStatusResolver) (e : Event) : Bool :=
  looks answer st e && (st.caches.wanted.toList.dropWhile fun path => answer path != .failure).all
    fun path => answer path != .yes

theorem lookup_of_looks {valid' : StorePath → Bool}
    (h : looks answer st (.resolveWanted valid' infos) = true) :
    Lookup answer st.caches.wanted.toList infos (handledIn answer st.caches.wanted.toList)
      (st.caches.wanted.toList.dropWhile fun path => answer path != .failure) := by
  refine ⟨?_, fun path hpath => ?_, fun path hpath => ?_⟩
  · rw [handledIn, List.takeWhile_append_dropWhile]
  · have hhead := List.head?_dropWhile_not (fun path => answer path != .failure)
      st.caches.wanted.toList
    rw [hpath] at hhead
    simpa using hhead
  · exact eq_of_beq (List.all_eq_true.mp h path hpath)

/-- Three derivations that need nothing. -/
def threeStore : EvalStore :=
  listStore [(toolDrv, demoDrv toolOut ∅), (libDrv, demoDrv libOut ∅), (siteDrv, demoDrv siteOut ∅)]
    (fun _ => 0) (by decide +kernel)

/-- A substituter that has `lib`, and fails for the others. -/
def threeAnswer (path : StorePath) : Answer := if path = libOut then .yes else .failure

/-- Two passes over the jobs, one after the other, with these infos for what is wanted in
the second one. -/
def twoPasses (jobs : List Drv) (infos : StorePath → Bool) : List Event :=
  jobs.map (fun drv => Event.push (demoResponse (.job drv none))) ++
    List.replicate (jobs.length + 4) Event.proceed ++
    (List.replicate 2 (List.replicate jobs.length (Event.attempt threeStore) ++
      [Event.proceed, .proceed, .proceed, .resolveWanted (fun _ => false) infos, .proceed])).flatten

/-- What is done in such a run, whoever is in it. -/
theorem twoPasses_cases {jobs : List Drv} (he : e ∈ twoPasses jobs infos) :
    e = .resolveWanted (fun _ => false) infos ∨ ∀ {st}, Isolated threeStore valid answer st e := by
  have hpass : e ∈ List.replicate jobs.length (.attempt threeStore) ++
      [.proceed, .proceed, .proceed, .resolveWanted (fun _ => false) infos, .proceed] →
      e = .resolveWanted (fun _ => false) infos ∨
        ∀ {st}, Isolated threeStore valid answer st e := by
    intro he
    rcases List.mem_append.mp he with he | he
    · obtain rfl := List.eq_of_mem_replicate he
      exact .inr rfl
    · simp only [List.mem_cons, List.not_mem_nil, or_false] at he
      rcases he with rfl | rfl | rfl | rfl | rfl
      · exact .inr trivial
      · exact .inr trivial
      · exact .inr trivial
      · exact .inl rfl
      · exact .inr trivial
  -- the pushes, the way to the first pass, and the passes
  rcases List.mem_append.mp he with he | he
  · rcases List.mem_append.mp he with he | he
    · obtain ⟨drv, -, rfl⟩ := List.mem_map.mp he
      exact .inr trivial
    · obtain rfl := List.eq_of_mem_replicate he
      exact .inr trivial
  · obtain ⟨pass, hmem, he⟩ := List.mem_flatten.mp he
    obtain rfl := List.eq_of_mem_replicate hmem
    exact hpass he

theorem Isolated.looks (h : Isolated S valid answer st e) : Looks S valid answer st e := by
  match e with
  | .attempt S' => exact h
  | .resolveWanted valid' infos =>
    obtain ⟨hvalid, handled, rest, hlookup, -⟩ := h
    exact ⟨hvalid, handled, rest, hlookup⟩
  | .push _ | .close | .join | .destroy | .proceed | .fail _ => trivial

theorem looks_of_check {jobs : List Drv} (he : e ∈ twoPasses jobs infos)
    (hcheck : looks answer st e = true) : Looks threeStore (fun _ => false) answer st e := by
  rcases twoPasses_cases he with rfl | hisolated
  · exact ⟨rfl, _, _, lookup_of_looks hcheck⟩
  · exact hisolated.looks

theorem isolated_of_check {jobs : List Drv} (he : e ∈ twoPasses jobs infos)
    (hcheck : isolated answer st e = true) :
    Isolated threeStore (fun _ => false) answer st e := by
  rcases twoPasses_cases he with rfl | hisolated
  · obtain ⟨hlooks, hrest⟩ := Bool.and_eq_true_iff.mp hcheck
    refine ⟨rfl, _, _, lookup_of_looks hlooks, fun path hpath => ?_⟩
    simpa using List.all_eq_true.mp hrest path hpath
  · exact hisolated

/-- The infos of a lookup that comes to `lib`. -/
def libInfos (path : StorePath) : Bool := path = libOut

theorem aloneRun_isSome : (system.run (isolated threeAnswer) system.init
    (twoPasses [libJob] libInfos)).isSome = true := by
  decide +kernel

theorem afterFailureRun_isSome : (system.run (looks threeAnswer) system.init
    (twoPasses [libJob, toolJob] fun _ => false)).isSome = true := by
  decide +kernel

theorem beforeFailureRun_isSome : (system.run (isolated threeAnswer) system.init
    (twoPasses [libJob, siteJob] libInfos)).isSome = true := by
  decide +kernel

/-- What an attempt that succeeds makes of the job. -/
def statusOf (result : Except Error (Bool × Drv × Resolver)) : Option CacheStatus :=
  (resolved result).map fun x => x.1.cacheStatus

theorem lookups_isolated_beforeFailure :
    let alone := system.after (isolated threeAnswer) (twoPasses [libJob] libInfos) aloneRun_isSome
    let inCompany := system.after (isolated threeAnswer) (twoPasses [libJob, siteJob] libInfos)
      beforeFailureRun_isSome
    ∃ drv caches₁ caches₂, alone.caches.tryResolve threeStore libJob = .ok (true, drv, caches₁) ∧
      inCompany.caches.tryResolve threeStore libJob = .ok (true, drv, caches₂) := by
  intro alone inCompany
  have halone : (resolved (alone.caches.tryResolve threeStore libJob)).isSome = true := by
    decide +kernel
  have hcompany : (resolved (inCompany.caches.tryResolve threeStore libJob)).isSome = true := by
    decide +kernel
  obtain ⟨⟨drv₁, caches₁⟩, hdone₁⟩ := Option.isSome_iff_exists.mp halone
  obtain ⟨⟨drv₂, caches₂⟩, hdone₂⟩ := Option.isSome_iff_exists.mp hcompany
  have htry₁ := eq_of_resolved hdone₁
  have htry₂ := eq_of_resolved hdone₂
  have hreaches : ∀ {jobs} (h : (system.run (isolated threeAnswer) system.init
      (twoPasses jobs libInfos)).isSome = true), system.Reachable
        (Isolated threeStore (fun _ => false) threeAnswer) (system.after _ _ h) := fun h =>
    System.Reachable.run_checked (fun _ he _ => isolated_of_check he) .init
      (Option.some_get h).symm
  have hsame : drv₁ = drv₂ := ((lookups_isolated threeStore (fun _ => false) threeAnswer).2 alone
    inCompany (hreaches aloneRun_isSome) (hreaches beforeFailureRun_isSome)).1
      libJob drv₁ drv₂ caches₁ caches₂ htry₁ htry₂
  exact ⟨drv₁, caches₁, caches₂, htry₁, hsame ▸ htry₂⟩

/-- **The company a job is in matters.** -/
theorem lookups_not_isolated :
    let alone := system.after (isolated threeAnswer) (twoPasses [libJob] libInfos) aloneRun_isSome
    let inCompany := system.after (looks threeAnswer) (twoPasses [libJob, toolJob] fun _ => false)
      afterFailureRun_isSome
    system.Reachable (Looks threeStore (fun _ => false) threeAnswer) alone ∧
      system.Reachable (Looks threeStore (fun _ => false) threeAnswer) inCompany ∧
      threeAnswer libOut = .yes ∧ inCompany.caches.probeCache[libOut]? = some false ∧
      statusOf (alone.caches.tryResolve threeStore libJob) = some .cached ∧
      statusOf (inCompany.caches.tryResolve threeStore libJob) = some .notBuilt := by
  intro alone inCompany
  refine ⟨?_, ?_, by decide +kernel, by decide +kernel, by decide +kernel, by decide +kernel⟩
  · exact (System.Reachable.run_checked (fun _ he _ => isolated_of_check he) .init
      (Option.some_get aloneRun_isSome).symm).mono fun _ _ => Isolated.looks
  · exact System.Reachable.run_checked (fun _ he _ => looks_of_check he) .init
      (Option.some_get afterFailureRun_isSome).symm

end CacheStatusResolver

end NixEvalJobs
