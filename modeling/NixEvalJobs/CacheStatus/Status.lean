import NixEvalJobs.CacheStatus.NeededWork

/-!
# Cache status resolver — the status

The fast path looks at the outputs of the job only; the slow path starts with the
outputs of the job's derivation. For a job that has the outputs of its derivation
the two look at the same paths, and the slow path ends at once where the fast one
has an answer.

* `sortPaths_eq` — the order of the needed paths does not depend on how they were
  found.
* `slowPath_after_fast` — the slow path in the state that the fast path leaves.
* `tryResolve_status` — the status of a job by what the stores have of its outputs.
-/

namespace NixEvalJobs

/-! ## The order of paths -/

/-- The comparator of the source is the lexicographic order by name and path. -/
theorem pathLt_iff {lhs rhs : StorePath} : pathLt lhs rhs = true ↔
    toLex (StorePath.name lhs, lhs) < toLex (StorePath.name rhs, rhs) := by
  rw [pathLt, Prod.Lex.toLex_lt_toLex]
  dsimp only
  split
  · -- the names decide
    next hne =>
    have hor : StorePath.name lhs = StorePath.name rhs → ¬lhs < rhs := fun heq => absurd heq hne
    simp [hne]
  · next heq =>
    rw [not_not] at heq
    simp [heq]

/-- Its negation, with the arguments swapped, is that order with equality. -/
theorem pathLe_iff {lhs rhs : StorePath} : (!pathLt rhs lhs) = true ↔
    toLex (StorePath.name lhs, lhs) ≤ toLex (StorePath.name rhs, rhs) := by
  rw [Bool.not_eq_true', ← Bool.not_eq_true, pathLt_iff, not_lt]

/-- What is sorted is in order. -/
theorem sortPaths_pairwise (paths : List StorePath) :
    (sortPaths paths).Pairwise fun lhs rhs => (!pathLt rhs lhs) = true := by
  refine List.pairwise_mergeSort (fun a b c hab hbc => ?_) (fun a b => ?_) paths
  · rw [pathLe_iff] at hab hbc ⊢
    exact le_trans hab hbc
  · rw [Bool.or_eq_true, pathLe_iff, pathLe_iff]
    exact le_total _ _

/-- **The order is that of the paths alone.** -/
theorem sortPaths_eq {paths paths' : List StorePath} (h : paths.Perm paths') :
    sortPaths paths = sortPaths paths' := by
  refine List.Perm.eq_of_pairwise (fun a b _ _ hab hba => ?_) (sortPaths_pairwise paths)
    (sortPaths_pairwise paths') ?_
  · rw [pathLe_iff] at hab hba
    exact (Prod.mk.inj (toLex.injective (le_antisymm hab hba))).2
  · -- the order is antisymmetric, so two sorted lists with the same paths are one
    exact (List.mergeSort_perm paths _).trans (h.trans (List.mergeSort_perm paths' _).symm)

namespace Resolver

/-! ## The outputs of a job -/

/-- All output paths of the job are statically known. -/
def OutputsKnown (drv : Drv) : Prop := ∀ name : Str, drv.outputs[name]? ≠ some none

/-- The job has an output with this path. -/
def OutputOf (drv : Drv) (path : StorePath) : Prop :=
  ∃ name : Str, drv.outputs[name]? = some (some path)

/-- An output path that is not in the store. -/
def Absent (O : Oracles) (drv : Drv) (path : StorePath) : Prop :=
  OutputOf drv path ∧ O.valid path = false

/-- All outputs are known and in the store. -/
def Present (O : Oracles) (drv : Drv) : Prop :=
  OutputsKnown drv ∧ ∀ path, OutputOf drv path → O.valid path = true

/-- All outputs are known, some are absent, and those can be fetched. -/
def Fetchable (O : Oracles) (drv : Drv) : Prop :=
  OutputsKnown drv ∧ (∃ path, Absent O drv path) ∧
    ∀ path, Absent O drv path → O.substitutable path = true

/-- Different outputs have different paths. -/
def DistinctOutputs (drv : Drv) : Prop :=
  ∀ (name name' : Str) (path : StorePath), drv.outputs[name]? = some (some path) →
    drv.outputs[name']? = some (some path) → name = name'

variable {S : EvalStore} {O : Oracles} {R R' : Resolver} {drv drv' : Drv}

/-- An empty set of wanted outputs means all of them. -/
theorem wants_all (name : Str) : wants ∅ name = true := by simp [wants]

/-- What the loop over the outputs finds out about them. -/
theorem known_outputs : Known ∅ drv.outputs.toList ↔ OutputsKnown drv := by
  constructor
  · intro h name hnone
    exact h (name, none) (Std.ExtTreeMap.mem_toList_iff_getElem?_eq_some.mpr hnone)
      (wants_all name) rfl
  · intro h e he _ hnone
    refine h e.1 ?_
    rw [Std.ExtTreeMap.mem_toList_iff_getElem?_eq_some.mp he, hnone]

/-- The missing outputs of the job are the absent ones. -/
theorem mem_missingPaths_outputs {path : StorePath} :
    path ∈ missingPaths O ∅ drv.outputs.toList ↔ Absent O drv path := by
  simp only [missingPaths, wants_all, if_pos, List.mem_filterMap, Prod.exists,
    Std.ExtTreeMap.mem_toList_iff_getElem?_eq_some, Absent, OutputOf]
  constructor
  · rintro ⟨name, output, houtput, hpath⟩
    obtain ⟨rfl, hinvalid⟩ := Option.filter_eq_some_iff.mp hpath
    exact ⟨⟨name, houtput⟩, by simpa using hinvalid⟩
  · rintro ⟨⟨name, houtput⟩, hinvalid⟩
    exact ⟨name, some path, houtput, Option.filter_eq_some_iff.mpr ⟨rfl, by simp [hinvalid]⟩⟩

/-- Nothing is missing when every output is valid. -/
theorem missingPaths_eq_nil :
    missingPaths O ∅ drv.outputs.toList = [] ↔ ∀ path, OutputOf drv path → O.valid path = true := by
  rw [List.eq_nil_iff_forall_not_mem]
  simp only [mem_missingPaths_outputs, Absent, not_and, Bool.not_eq_false]

/-- What the substituters have to have. -/
theorem missingPaths_all : (missingPaths O ∅ drv.outputs.toList).all O.substitutable = true ↔
    ∀ path, Absent O drv path → O.substitutable path = true := by
  simp only [List.all_eq_true, mem_missingPaths_outputs]

/-- Then no path is missing twice. -/
theorem DistinctOutputs.nodup (h : DistinctOutputs drv) :
    (missingPaths O ∅ drv.outputs.toList).Nodup := by
  rw [missingPaths, List.Nodup, List.pairwise_filterMap]
  refine Std.ExtTreeMap.distinct_keys_toList.imp_of_mem fun he he' hne path hpath path' hpath' => ?_
  rw [if_pos (wants_all _)] at hpath hpath'
  obtain ⟨hpath, -⟩ := Option.filter_eq_some_iff.mp hpath
  obtain ⟨hpath', -⟩ := Option.filter_eq_some_iff.mp hpath'
  rw [Std.ExtTreeMap.mem_toList_iff_getElem?_eq_some] at he he'
  rw [hpath] at he
  rw [hpath'] at he'
  rintro rfl
  exact hne (Std.LawfulEqCmp.compare_eq_iff_eq.mpr (h _ _ _ he he'))

/-! ## Asking again -/

variable {R₂ : Resolver}

/-- A complete loop over outputs needs the answers about validity, and nothing else. -/
theorem missingFrom_again {wanted : StdSet Str} {outputs : List (Str × Option StorePath)}
    {result out : MissingOutputs} (hsame : R₂.validCache = R.validCache)
    (h : missingFrom wanted outputs R result = (out, R')) (hc : out.complete = true) :
    missingFrom wanted outputs R₂ result = (out, R₂) := by
  -- on the outputs; the two caches answer alike for each path
  induction outputs generalizing R R₂ result with
  | nil =>
    obtain ⟨rfl, rfl⟩ := Prod.mk.inj h
    rfl
  | cons e outputs ih =>
    obtain ⟨name, path⟩ := e
    rw [missingFrom.eq_def] at h ⊢
    dsimp only at h ⊢
    split at h
    · next hskip =>
      rw [if_pos hskip]
      exact ih hsame h
    next hskip =>
    rw [if_neg hskip]
    cases path with
    | none =>
      obtain ⟨rfl, rfl⟩ := Prod.mk.inj h
      rfl
    | some path =>
    dsimp only at h ⊢
    rw [probeValidity] at h ⊢
    rw [hsame]
    cases hcached : R.validCache[path]? with
    | none =>
      -- a probe that is pending stays in the result
      rw [hcached] at h
      cases (missingFrom_complete h hc).2
    | some cached =>
      rw [hcached] at h
      cases cached with
      | true => exact ih hsame h
      | false => exact ih hsame h

/-- The same for the loop over substituters. -/
theorem foldl_probePath_again (paths : List StorePath) (acc : Bool × Bool × Resolver)
    (hsame : R₂.probeCache = acc.2.2.probeCache)
    (hc : (paths.foldl probePath acc).2.1 = true) :
    paths.foldl probePath (acc.1, acc.2.1, R₂) = ((paths.foldl probePath acc).1, true, R₂) := by
  induction paths generalizing acc with
  | nil => rw [List.foldl_nil, List.foldl_nil, show acc.2.1 = true from hc]
  | cons path paths ih =>
    obtain ⟨all, complete, R⟩ := acc
    dsimp only at hsame
    rw [List.foldl_cons, probePath] at hc ⊢
    rw [List.foldl_cons, probePath, hsame]
    cases hcached : R.probeCache[path]? with
    | none =>
      -- it would have been wanted
      rw [hcached] at hc
      cases (foldl_probePath_complete _ _ hc).2
    | some cached =>
      rw [hcached] at hc
      exact ih (all && cached, complete, R) hsame hc

/-- An answer about all paths is the same in another state with these probes. -/
theorem allSubstitutable_again {paths : List StorePath} {all : Bool}
    (hsame : R₂.probeCache = R.probeCache)
    (h : R.allSubstitutable paths = (some all, R')) :
    R₂.allSubstitutable paths = (some all, R₂) := by
  obtain ⟨hall, rfl⟩ := Prod.mk.inj h
  by_cases hc : (paths.foldl probePath (true, true, R)).2.1 = true
  · rw [if_pos hc] at hall
    rw [allSubstitutable, foldl_probePath_again paths (true, true, R) hsame hc]
    exact Prod.ext hall rfl
  · rw [if_neg hc] at hall
    cases hall

/-- Reading a derivation does not touch the probes. -/
theorem readDerivation_again (hR : R.Agrees S O) {drvPath : StorePath} {derivation : Derivation}
    (hread : S.readDerivation drvPath = some derivation) :
    ∃ R', R.readDerivation S drvPath = .ok (derivation, R') ∧ R'.validCache = R.validCache ∧
      R'.probeCache = R.probeCache ∧ R'.attemptComplete = R.attemptComplete := by
  rw [readDerivation]
  cases hcached : R.drvCache[drvPath]? with
  | some cached =>
    obtain rfl := Option.some.inj ((hR.drv drvPath cached hcached).symm.trans hread)
    exact ⟨R, rfl, rfl, rfl, rfl⟩
  | none =>
    rw [hread]
    exact ⟨_, rfl, rfl, rfl, rfl⟩

/-! ## The slow path after the fast one -/

/-- The slow path has one status to give. -/
theorem slowPath_notBuilt (h : R.slowPath S drv = .ok (true, drv', R')) :
    drv'.cacheStatus = .notBuilt := by
  rw [slowPath] at h
  obtain ⟨⟨t, R₁⟩, -, hrest⟩ := bind_eq_ok.mp h
  dsimp only at hrest
  split at hrest
  · cases (result_inj hrest).1
  · obtain ⟨-, rfl, -⟩ := result_inj hrest
    rfl

/-- What the fast path has found when it answers, and it leaves all its answers in the
caches. -/
theorem tryResolve_fast (h : R.tryResolve S drv = .ok (true, drv', R'))
    (hstatus : drv'.cacheStatus ≠ .notBuilt) : ∃ job : MissingOutputs,
      missingFrom ∅ drv.outputs.toList R' {} = (job, R') ∧ job.known = true ∧
      job.complete = true ∧ R'.allSubstitutable job.missing = (some true, R') ∧
      R'.attemptComplete = true ∧ drv'.neededSubstitutes = sortPaths job.missing := by
  rw [tryResolve] at h
  dsimp only at h
  cases hjob : missingFrom ∅ drv.outputs.toList { R with attemptComplete := true } {} with
  | mk job R₁ =>
  rw [hjob] at h
  dsimp only at h
  split at h
  · -- an unknown output goes to the slow path, which ends otherwise
    exact absurd (slowPath_notBuilt h) hstatus
  next hknown =>
  split at h
  · cases (result_inj h).1
  next hcomplete =>
  -- nothing was asked, so the caches are as they were
  have hcomplete : job.complete = true := by simpa using hcomplete
  obtain ⟨rfl, -⟩ := missingFrom_complete hjob hcomplete
  split at h
  · cases (result_inj h).1
  · next R₂ hall =>
    obtain ⟨-, rfl, rfl⟩ := result_inj h
    obtain rfl := allSubstitutable_complete hall
    exact ⟨job, hjob, by simpa using hknown, hcomplete, hall, rfl, rfl⟩
  · exact absurd (slowPath_notBuilt h) hstatus

/-- **The slow path ends at the job's own derivation when the fast path has answered.** -/
theorem slowPath_after_fast (hR : R.Agrees S O) {derivation : Derivation}
    (hread : S.readDerivation drv.drvPath = some derivation)
    (houtputs : drv.outputs = derivation.outputsAndOptPaths) {job : MissingOutputs}
    (hjob : missingFrom ∅ drv.outputs.toList R {} = (job, R)) (hknown : job.known = true)
    (hcomplete : job.complete = true) (hall : R.allSubstitutable job.missing = (some true, R))
    (hR' : R.attemptComplete = true) :
    ∃ slow R', R.slowPath S drv = .ok (true, slow, R') ∧ slow.neededBuilds = [] ∧
      slow.neededSubstitutes =
        sortPaths ((∅ : StdSet StorePath).insertMany job.missing).toList := by
  obtain ⟨R₁, hread, hvalid, hprobe, hattempt⟩ := readDerivation_again hR hread
  have houtputs : R₁.missingOutputs derivation ∅ = (job, R₁) := by
    rw [missingOutputs, ← houtputs]
    exact missingFrom_again hvalid hjob hcomplete
  -- the visit of the job's derivation finds the same paths and stops there
  have hvisit : ∃ t : Traversal, visitDrv S (S.depth drv.drvPath + 1) drv.drvPath ∅ ({}, R) =
      .ok (t, R₁) ∧ t.neededBuilds = [] ∧
      t.substitutePaths = (∅ : StdSet StorePath).insertMany job.missing := by
    rw [visitDrv, if_neg (by simp), hread, ok_bind]
    dsimp only
    rw [houtputs]
    dsimp only
    rw [if_neg (by simp [hknown]), if_neg (by simp [hcomplete])]
    -- nothing missing, or all of it substitutable: either way the visit does not recurse
    split
    · next hempty =>
      refine ⟨_, rfl, rfl, ?_⟩
      rw [List.isEmpty_iff.mp hempty, Std.ExtTreeSet.insertMany_nil]
    · rw [allSubstitutable_again hprobe hall]
      exact ⟨_, rfl, rfl, rfl⟩
  obtain ⟨t, hvisit, hbuilds, hsubstitutes⟩ := hvisit
  rw [slowPath, hvisit, ok_bind]
  dsimp only
  rw [if_neg (by simp [hattempt, hR'])]
  exact ⟨_, _, rfl, hbuilds, congrArg (fun paths => sortPaths paths.toList) hsubstitutes⟩

/-! ## The status -/

/-- The direct resolution takes the fast path, or has a reason not to. -/
theorem direct_resolved (h : Direct.tryResolve S O drv = .ok drv') :
    (OutputsKnown drv ∧ (missingPaths O ∅ drv.outputs.toList).all O.substitutable = true ∧
      drv' = { drv with
        neededSubstitutes := sortPaths (missingPaths O ∅ drv.outputs.toList)
        cacheStatus :=
          if (missingPaths O ∅ drv.outputs.toList).isEmpty then .local_ else .cached }) ∨
    (OutputsKnown drv →
      (missingPaths O ∅ drv.outputs.toList).all O.substitutable = false) ∧
      Direct.slowPath S O drv = .ok drv' := by
  rw [Direct.tryResolve] at h
  -- an output without a path makes the job unknown to the fast path
  by_cases hknown : OutputsKnown drv
  · rw [missingFrom_known (known_outputs.mpr hknown), List.nil_append] at h
    dsimp only at h
    split at h
    · next hall => exact .inl ⟨hknown, hall, (Except.ok.inj h).symm⟩
    · next hall => exact .inr ⟨fun _ => by simpa using hall, h⟩
  · rw [missingFrom_unknown (mt known_outputs.mp hknown)] at h
    exact .inr ⟨fun hc => absurd hc hknown, h⟩

/-- The slow path of a job that it has to build, or cannot know. -/
theorem slowPath_root {derivation : Derivation}
    (hread : S.readDerivation drv.drvPath = some derivation)
    (houtputs : drv.outputs = derivation.outputsAndOptPaths)
    (hmissing : OutputsKnown drv →
      (missingPaths O ∅ drv.outputs.toList).all O.substitutable = false)
    (h : Direct.slowPath S O drv = .ok drv') :
    drv'.cacheStatus = .notBuilt ∧
      (OutputsKnown drv → drv'.neededBuilds.getLast? = some drv.drvPath) ∧
      (¬OutputsKnown drv → drv.drvPath ∈ drv'.unknownPaths) := by
  rw [Direct.slowPath] at h
  obtain ⟨t, hvisit, hrest⟩ := bind_eq_ok.mp h
  obtain rfl := Except.ok.inj hrest
  refine ⟨rfl, ?_⟩
  have hknown : ∀ {d}, S.readDerivation drv.drvPath = some d →
      (Known ∅ d.outputsAndOptPaths.toList ↔ OutputsKnown drv) := by
    intro d hd
    obtain rfl := Option.some.inj (hread.symm.trans hd)
    rw [← houtputs]
    exact known_outputs
  -- how the visit of the job's own derivation ends
  cases direct_visited hvisit with
  | again hvisited =>
    -- the walk begins there
    exact absurd hvisited Std.ExtTreeSet.not_mem_empty
  | unknown _ hd hunknown =>
    refine ⟨fun hc => absurd ((hknown hd).mpr hc) hunknown, fun _ => ?_⟩
    exact List.mem_append_right _ (List.mem_singleton_self _)
  | leaf _ hd hall hbuilds =>
    -- the outputs of the derivation are those of the job
    have hno := hmissing ((hknown hd).mp hall)
    rw [builds, missingAt_eq hread, ← houtputs, hno] at hbuilds
    cases hbuilds
  | built _ hd hall _ _ =>
    exact ⟨fun _ => List.getLast?_concat, fun hc => absurd ((hknown hd).mp hall) hc⟩

/-- The slow path would have found what the fast one did. -/
def SlowPathAgrees (S : EvalStore) (R : Resolver) (drv drv' : Drv) : Prop :=
  ∃ slow R', R.slowPath S drv = .ok (true, slow, R') ∧ slow.neededBuilds = [] ∧
    (∀ path, path ∈ slow.neededSubstitutes ↔ path ∈ drv'.neededSubstitutes) ∧
    (DistinctOutputs drv → slow.neededSubstitutes = drv'.neededSubstitutes)

/-- The status of a job, and what it says is needed. -/
structure StatusCorrect (S : EvalStore) (O : Oracles) (R : Resolver) (drv drv' : Drv) : Prop where
  isLocal : drv'.cacheStatus = .local_ ↔ Present O drv
  isCached : drv'.cacheStatus = .cached ↔ Fetchable O drv
  isNotBuilt : drv'.cacheStatus = .notBuilt ↔ ¬Present O drv ∧ ¬Fetchable O drv
  substitutes : drv'.cacheStatus = .cached →
    ∀ path, path ∈ drv'.neededSubstitutes ↔ Absent O drv path
  lastBuild : drv'.cacheStatus = .notBuilt → OutputsKnown drv →
    drv'.neededBuilds.getLast? = some drv.drvPath
  unknownPath : drv'.cacheStatus = .notBuilt → ¬OutputsKnown drv →
    drv.drvPath ∈ drv'.unknownPaths
  slowPath : drv'.cacheStatus ≠ .notBuilt → SlowPathAgrees S R drv drv'

/-- The three cases of the status, in terms of what the loop finds missing. -/
theorem present_iff (hknown : OutputsKnown drv) :
    Present O drv ↔ missingPaths O ∅ drv.outputs.toList = [] := by
  rw [Present, missingPaths_eq_nil, and_iff_right hknown]

/-- The same for what can be fetched. -/
theorem fetchable_iff (hknown : OutputsKnown drv) :
    Fetchable O drv ↔ missingPaths O ∅ drv.outputs.toList ≠ [] ∧
      (missingPaths O ∅ drv.outputs.toList).all O.substitutable = true := by
  rw [Fetchable, and_iff_right hknown, missingPaths_all, ne_eq, List.eq_nil_iff_forall_not_mem,
    not_forall_not]
  simp only [mem_missingPaths_outputs]

/-- After the fast path, the slow one would find the same. -/
theorem slowPath_agrees (hR' : R'.Agrees S O) {derivation : Derivation}
    (hread : S.readDerivation drv.drvPath = some derivation)
    (houtputs : drv.outputs = derivation.outputsAndOptPaths)
    (hresolve : R.tryResolve S drv = .ok (true, drv', R'))
    (hfast : drv'.cacheStatus ≠ .notBuilt)
    (hsubstitutes : drv'.neededSubstitutes =
      sortPaths (missingPaths O ∅ drv.outputs.toList)) : SlowPathAgrees S R' drv drv' := by
  obtain ⟨job, hjob, hjobKnown, hcomplete, hjobAll, hattempt, hfound⟩ :=
    tryResolve_fast hresolve hfast
  obtain ⟨slow, R'', hslow, hbuilds, hslowFound⟩ := slowPath_after_fast hR' hread houtputs hjob
    hjobKnown hcomplete hjobAll hattempt
  -- the slow path collects in a set what the fast one has in a list
  have hmem : ∀ path, path ∈ ((∅ : StdSet StorePath).insertMany job.missing).toList ↔
      path ∈ job.missing := by
    intro path
    rw [Std.ExtTreeSet.mem_toList, Std.ExtTreeSet.mem_insertMany_list]
    simp
  refine ⟨slow, R'', hslow, hbuilds, fun path => ?_, fun hdistinct => ?_⟩
  · rw [hslowFound, hfound, mem_sortPaths, mem_sortPaths, hmem]
  · rw [hslowFound, hfound]
    refine sortPaths_eq ((List.perm_ext_iff_of_nodup (StdSet.nodup_toList _) ?_).mpr hmem)
    -- the missing paths of the job are those of the direct loop
    have hperm : job.missing.Perm (missingPaths O ∅ drv.outputs.toList) :=
      (List.mergeSort_perm _ _).symm.trans
        ((List.Perm.of_eq (hfound.symm.trans hsubstitutes)).trans (List.mergeSort_perm _ _))
    exact hperm.nodup_iff.mpr hdistinct.nodup

/-- **The cache status of a job is right, and both ways to find it agree.** A job with
the outputs of its derivation is there when all of them are known and valid, it can be
fetched when all are known and those that are not valid are substitutable, and it is to
be built otherwise. -/
theorem tryResolve_status (h : (system S O).Reachable System.anyEnv R) {derivation : Derivation}
    (hread : S.readDerivation drv.drvPath = some derivation)
    (houtputs : drv.outputs = derivation.outputsAndOptPaths)
    (hresolve : R.tryResolve S drv = .ok (true, drv', R')) : StatusCorrect S O R' drv drv' := by
  obtain ⟨hR', hdirect⟩ := tryResolve_direct (agrees_reachable h) hresolve
  rcases direct_resolved hdirect with ⟨hknown, hall, hdrv'⟩ | ⟨hmissing, hslow⟩
  · -- the fast path
    have hstatus : drv'.cacheStatus =
        if (missingPaths O ∅ drv.outputs.toList).isEmpty then .local_ else .cached := by
      rw [hdrv']
    have hsubstitutes : drv'.neededSubstitutes =
        sortPaths (missingPaths O ∅ drv.outputs.toList) := by
      rw [hdrv']
    have hfast : drv'.cacheStatus ≠ .notBuilt := by
      rw [hstatus]
      split <;> simp
    have hagrees : SlowPathAgrees S R' drv drv' :=
      slowPath_agrees hR' hread houtputs hresolve hfast hsubstitutes
    refine ⟨?_, ?_, ?_, fun _ path => ?_, fun hc => absurd hc hfast, fun hc => absurd hc hfast,
      fun _ => hagrees⟩
    · rw [hstatus, present_iff hknown]
      simp
    · rw [hstatus, fetchable_iff hknown]
      simp [hall]
    · rw [present_iff hknown, fetchable_iff hknown]
      simp [hfast, hall]
    · rw [hsubstitutes, mem_sortPaths, mem_missingPaths_outputs]
  · -- the slow path
    obtain ⟨hstatus, hlast, hunknown⟩ := slowPath_root hread houtputs hmissing hslow
    -- something is unknown, or missing and not substitutable
    have hpresent : ¬Present O drv := by
      intro hc
      have hno := hmissing hc.1
      rw [(present_iff hc.1).mp hc] at hno
      cases hno
    have hfetchable : ¬Fetchable O drv := fun hc =>
      absurd ((hmissing hc.1).symm.trans ((fetchable_iff hc.1).mp hc).2) (by simp)
    refine ⟨?_, ?_, ?_, fun hc => ?_, fun _ => hlast, fun _ => hunknown,
      fun hc => absurd hstatus hc⟩
    · simp [hstatus, hpresent]
    · simp [hstatus, hfetchable]
    · simp [hstatus, hpresent, hfetchable]
    · rw [hstatus] at hc
      cases hc

/-! ### A job that can be fetched -/

/-- The output of the diamond's job is in a cache. -/
def cachedOracles : Oracles where
  valid path := path = libOut
  substitutable path := path = jobOut

/-- Two attempts, each followed by a batch of queries. -/
def cachedRun : List Event :=
  (List.replicate 2 [.attempt diamondJob, .resolveWanted]).flatten

/-- The run goes through. -/
theorem cachedRun_isSome :
    ((system diamondStore cachedOracles).run System.anyCheck
      (system diamondStore cachedOracles).init cachedRun).isSome = true := by
  decide +kernel

/-- The third attempt has the answer about the output, and the job is cached. -/
theorem tryResolve_status_cached :
    let R := (system diamondStore cachedOracles).after System.anyCheck cachedRun cachedRun_isSome
    ∃ drv' R', R.tryResolve diamondStore diamondJob = .ok (true, drv', R') ∧
      drv'.cacheStatus = .cached ∧ StatusCorrect diamondStore cachedOracles R' diamondJob drv' := by
  intro R
  have hR : (system diamondStore cachedOracles).Reachable System.anyEnv R :=
    System.reachable_after (fun _ _ _ => trivial) cachedRun cachedRun_isSome
  have hresolved : (resolved (R.tryResolve diamondStore diamondJob)).any
      (fun result => decide (result.1.cacheStatus = .cached)) = true := by
    decide +kernel
  obtain ⟨⟨drv', R'⟩, hdone, hstatus⟩ := (Option.any_eq_true _ _).mp hresolved
  have htry := eq_of_resolved hdone
  have houtputs : (diamondStore.readDerivation diamondJob.drvPath).map
      Derivation.outputsAndOptPaths = some diamondJob.outputs := by
    decide +kernel
  obtain ⟨derivation, hread, houtputs⟩ := Option.map_eq_some_iff.mp houtputs
  exact ⟨drv', R', htry, by simpa using hstatus,
    tryResolve_status hR hread houtputs.symm htry⟩

end Resolver

end NixEvalJobs
