import NixEvalJobs.Derivation
import NixEvalJobs.Response
import NixEvalJobs.Lib.Transition
import NixEvalJobs.Lib.Walk

/-!
# Cache status resolver

`CacheStatusResolver` finds out what a job still needs: which derivations will be
built and which store paths fetched. It knows the stores only through caches of
earlier queries; an attempt that meets an unknown path notes it and is repeated
after the next batch of queries.

The slow path walks the input graph and remembers which derivations it has
visited. What is missing of a derivation depends on the outputs that are wanted,
and every edge wants its own; the ones of a second edge are never looked at.
-/

namespace NixEvalJobs

/-- The eval store. Derivations are acyclic: `depth` bounds every path down from
one. -/
structure EvalStore where
  readDerivation : StorePath → Option Derivation
  depth : StorePath → Nat
  depth_lt : ∀ {path drv input}, readDerivation path = some drv → input ∈ drv.inputDrvs →
    depth input < depth path

/-- The data members of `CacheStatusResolver` that an attempt uses. -/
structure Resolver where
  probeCache : StdMap StorePath Bool := ∅
  wanted : StdSet StorePath := ∅
  validCache : StdMap StorePath Bool := ∅
  wantedValid : StdSet StorePath := ∅
  drvCache : StdMap StorePath Derivation := ∅
  attemptComplete : Bool := true

/-- Per-attempt state of the slow-path input graph walk. -/
structure Traversal where
  visited : StdSet StorePath := ∅
  neededBuilds : List StorePath := []
  unknownPaths : List StorePath := []
  substitutePaths : StdSet StorePath := ∅

structure MissingOutputs where
  known : Bool := true
  complete : Bool := true
  missing : List StorePath := []

/-- `StorePath::name`: what follows the 32 characters of the hash and a dash. -/
def StorePath.name (path : StorePath) : Str := List.drop 33 path

/-- Deterministic output order: by name, then full path. -/
def pathLt (lhs rhs : StorePath) : Bool :=
  if StorePath.name lhs ≠ StorePath.name rhs then StorePath.name lhs < StorePath.name rhs
  else lhs < rhs

def sortPaths (paths : List StorePath) : List StorePath :=
  paths.mergeSort fun lhs rhs => !pathLt rhs lhs

theorem mem_sortPaths {paths : List StorePath} {path : StorePath} :
    path ∈ sortPaths paths ↔ path ∈ paths := by
  rw [sortPaths, List.mem_mergeSort]

namespace Resolver

/-! ## Probes -/

/-- The loop body of `allSubstitutable`; the state is `all`, `complete`. -/
def probePath : Bool × Bool × Resolver → StorePath → Bool × Bool × Resolver
  | (all, complete, R), path =>
    match R.probeCache[path]? with
    | some cached => (all && cached, complete, R)
    | none =>
      (all, false, { R with wanted := R.wanted.insert path, attemptComplete := false })

def allSubstitutable (R : Resolver) (paths : List StorePath) : Option Bool × Resolver :=
  let (all, complete, R) := paths.foldl probePath (true, true, R)
  (if complete then some all else none, R)

def probeValidity (R : Resolver) (path : StorePath) : Option Bool × Resolver :=
  match R.validCache[path]? with
  | some cached => (some cached, R)
  | none =>
    (none, { R with wantedValid := R.wantedValid.insert path, attemptComplete := false })

def readDerivation (S : EvalStore) (R : Resolver) (drvPath : StorePath) :
    Except Error (Derivation × Resolver) :=
  match R.drvCache[drvPath]? with
  | some cached => pure (cached, R)
  | none =>
    match S.readDerivation drvPath with
    | some drv => pure (drv, { R with drvCache := R.drvCache.insert drvPath drv })
    | none => throw .nixLib

/-- The loop over output paths, which ends at a path that is statically unknown.
An empty `wantedOutputs` wants all of them. -/
def missingFrom (wantedOutputs : StdSet Str) :
    List (Str × Option StorePath) → Resolver → MissingOutputs → MissingOutputs × Resolver
  | [], R, result => (result, R)
  | (outputName, outputPath) :: outputs, R, result =>
    if !wantedOutputs.isEmpty && !wantedOutputs.contains outputName then
      missingFrom wantedOutputs outputs R result
    else
      match outputPath with
      | none => ({ result with known := false }, R)
      | some path =>
        match R.probeValidity path with
        | (none, R) => missingFrom wantedOutputs outputs R { result with complete := false }
        | (some true, R) => missingFrom wantedOutputs outputs R result
        | (some false, R) =>
          missingFrom wantedOutputs outputs R { result with missing := result.missing ++ [path] }

def missingOutputs (R : Resolver) (derivation : Derivation) (wantedOutputs : StdSet Str) :
    MissingOutputs × Resolver :=
  missingFrom wantedOutputs derivation.outputsAndOptPaths.toList R {}

/-! ## The walk -/

/-- The recursion goes down the graph, so its depth is fuel enough. -/
def visitDrv (S : EvalStore) : Nat → StorePath → StdSet Str → Traversal × Resolver →
    Except Error (Traversal × Resolver)
  | 0, _, _, _ => throw .outOfFuel
  | fuel + 1, drvPath, wantedOutputs, (traversal, R) =>
    if traversal.visited.contains drvPath then pure (traversal, R)
    else do
      let traversal := { traversal with visited := traversal.visited.insert drvPath }
      let (derivation, R) ← R.readDerivation S drvPath
      let (outputs, R) := R.missingOutputs derivation wantedOutputs
      if !outputs.known then
        pure ({ traversal with unknownPaths := traversal.unknownPaths ++ [drvPath] }, R)
      else if !outputs.complete then
        -- every visit widens the next batch
        derivation.inputDrvs.toList.foldlM
          (fun state input => visitDrv S fuel input.1 input.2 state) (traversal, R)
      else if outputs.missing.isEmpty then pure (traversal, R)
      else
        match R.allSubstitutable outputs.missing with
        | (none, R) => pure (traversal, R)
        | (some true, R) =>
          pure ({ traversal with
            substitutePaths := traversal.substitutePaths.insertMany outputs.missing }, R)
        | (some false, R) => do
          let (traversal, R) ← derivation.inputDrvs.toList.foldlM
            (fun state input => visitDrv S fuel input.1 input.2 state) (traversal, R)
          -- post-order: dependencies before their dependants
          pure ({ traversal with neededBuilds := traversal.neededBuilds ++ [drvPath] }, R)

/-- The part of `tryResolve` that walks the input graph. -/
def slowPath (S : EvalStore) (R : Resolver) (drv : Drv) :
    Except Error (Bool × Drv × Resolver) := do
  let (traversal, R) ← visitDrv S (S.depth drv.drvPath + 1) drv.drvPath ∅ ({}, R)
  if !R.attemptComplete then return (false, drv, R)
  else return (true, { drv with
    neededBuilds := traversal.neededBuilds
    unknownPaths := traversal.unknownPaths
    neededSubstitutes := sortPaths traversal.substitutePaths.toList
    cacheStatus := .notBuilt }, R)

/-- `tryResolve`: whether the job could be resolved from the caches. The loop over
the outputs of the job is the one over all outputs of a derivation. -/
def tryResolve (S : EvalStore) (R : Resolver) (drv : Drv) :
    Except Error (Bool × Drv × Resolver) :=
  let R := { R with attemptComplete := true }
  let (job, R) := missingFrom ∅ drv.outputs.toList R {}
  if !job.known then slowPath S R drv
  else if !job.complete then pure (false, drv, R)
  else
    match R.allSubstitutable job.missing with
    | (none, R) => pure (false, drv, R)
    | (some true, R) =>
      pure (true, { drv with
        neededSubstitutes := sortPaths job.missing
        cacheStatus := if job.missing.isEmpty then .local_ else .cached }, R)
    | (some false, R) => slowPath S R drv

/-- `resolveWanted`, given what the build store answers: `valid` for a path in the
store, `substitutable` for one that a substituter has. -/
def resolveWanted (valid substitutable : StorePath → Bool) (R : Resolver) : Resolver :=
  { R with
    validCache := R.wantedValid.foldl
      (fun cache path => cache.insertIfNew path (valid path)) R.validCache
    wantedValid := ∅
    probeCache := R.wanted.foldl
      (fun cache path => cache.insertIfNew path (substitutable path)) R.probeCache
    wanted := ∅ }

/-! ## What an attempt changes -/

/-- The parts of the result of an attempt. -/
theorem result_inj {done done' : Bool} {drv drv' : Drv} {R R' : Resolver}
    (h : (.ok (done, drv, R) : Except Error (Bool × Drv × Resolver)) = .ok (done', drv', R')) :
    done = done' ∧ drv = drv' ∧ R = R' := by
  obtain ⟨hdone, hrest⟩ := Prod.mk.inj (Except.ok.inj h)
  exact ⟨hdone, Prod.mk.inj hrest⟩

/-- The same job, up to what is known about its cache status. -/
def SameJob (drv drv' : Drv) : Prop :=
  drv' = { drv with
    neededBuilds := drv'.neededBuilds
    neededSubstitutes := drv'.neededSubstitutes
    unknownPaths := drv'.unknownPaths
    cacheStatus := drv'.cacheStatus }

/-- What `tryResolve` may do to a job. -/
def Changed (drv : Drv) (done : Bool) (drv' : Drv) : Prop :=
  if done then SameJob drv drv' else drv' = drv

theorem slowPath_changed {S : EvalStore} {R R' : Resolver} {drv drv' : Drv} {done : Bool}
    (h : R.slowPath S drv = .ok (done, drv', R')) : Changed drv done drv' := by
  rw [slowPath] at h
  obtain ⟨⟨t, R₁⟩, -, h⟩ := bind_eq_ok.mp h
  dsimp only at h
  split at h
  · obtain ⟨rfl, hsame, -⟩ := result_inj h
    exact hsame.symm
  · obtain ⟨rfl, rfl, -⟩ := result_inj h
    rfl

/-- An attempt fills in the cache status of the job or leaves the job alone. -/
theorem tryResolve_changed {S : EvalStore} {R R' : Resolver} {drv drv' : Drv} {done : Bool}
    (h : R.tryResolve S drv = .ok (done, drv', R')) : Changed drv done drv' := by
  rw [tryResolve] at h
  dsimp only at h
  split at h
  · exact slowPath_changed h
  split at h
  · obtain ⟨rfl, hsame, -⟩ := result_inj h
    exact hsame.symm
  split at h
  · obtain ⟨rfl, hsame, -⟩ := result_inj h
    exact hsame.symm
  · obtain ⟨rfl, rfl, -⟩ := result_inj h
    rfl
  · exact slowPath_changed h

end Resolver

end NixEvalJobs
