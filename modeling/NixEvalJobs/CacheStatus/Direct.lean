import NixEvalJobs.CacheStatus.Resolver

/-!
# Cache status resolver — direct resolution

What the resolver is for, without its caches: the stores answer as fixed oracles,
every probe is answered at once, and a job is resolved in one attempt.

An attempt over the caches keeps walking after a probe it has no answer for, with
what it knows so far; it goes where the direct one does not go and leaves out what
the direct one finds. One flag says that this has happened, and then the attempt is
thrown away. The caches keep what was asked for, and they only ever hold answers.

* `Attempted` — what every part of an attempt keeps: the caches agree with the
  oracles, and an attempt that is complete at the end was complete all the way.
* `tryResolve_direct` — an attempt that comes to an end is the direct one.
-/

namespace NixEvalJobs

/-- What the build store and its substituters answer. -/
structure Oracles where
  /-- The path is in the build store. -/
  valid : StorePath → Bool
  /-- Some substituter has the path. -/
  substitutable : StorePath → Bool

namespace Direct

variable (S : EvalStore) (O : Oracles)

/-! ## The algorithm -/

/-- The loop over output paths; there is no result when one is statically unknown. -/
def missingFrom (wantedOutputs : StdSet Str) :
    List (Str × Option StorePath) → List StorePath → Option (List StorePath)
  | [], missing => some missing
  | (outputName, outputPath) :: outputs, missing =>
    if !wantedOutputs.isEmpty && !wantedOutputs.contains outputName then
      missingFrom wantedOutputs outputs missing
    else
      match outputPath with
      | none => none
      | some path =>
        missingFrom wantedOutputs outputs (if O.valid path then missing else missing ++ [path])

/-- One derivation and what it needs, in the order of the source, with all answers at hand. -/
def visitDrv : Nat → StorePath → StdSet Str → Traversal → Except Error Traversal
  | 0, _, _, _ => throw .outOfFuel
  | fuel + 1, drvPath, wantedOutputs, traversal =>
    if traversal.visited.contains drvPath then pure traversal
    else
      let traversal := { traversal with visited := traversal.visited.insert drvPath }
      match S.readDerivation drvPath with
      | none => throw .nixLib
      | some derivation =>
        match missingFrom O wantedOutputs derivation.outputsAndOptPaths.toList [] with
        | none => pure { traversal with unknownPaths := traversal.unknownPaths ++ [drvPath] }
        | some missing =>
          if missing.isEmpty then pure traversal
          else if missing.all O.substitutable then
            pure { traversal with
              substitutePaths := traversal.substitutePaths.insertMany missing }
          else do
            let traversal ← derivation.inputDrvs.toList.foldlM
              (fun traversal input => visitDrv fuel input.1 input.2 traversal) traversal
            pure { traversal with neededBuilds := traversal.neededBuilds ++ [drvPath] }

/-- The slow path with all answers at hand. -/
def slowPath (drv : Drv) : Except Error Drv := do
  let traversal ← visitDrv S O (S.depth drv.drvPath + 1) drv.drvPath ∅ {}
  return { drv with
    neededBuilds := traversal.neededBuilds
    unknownPaths := traversal.unknownPaths
    neededSubstitutes := sortPaths traversal.substitutePaths.toList
    cacheStatus := .notBuilt }

/-- An attempt with all answers at hand, which always comes to an end. -/
def tryResolve (drv : Drv) : Except Error Drv :=
  match missingFrom O ∅ drv.outputs.toList [] with
  | none => slowPath S O drv
  | some missing =>
    if missing.all O.substitutable then
      pure { drv with
        neededSubstitutes := sortPaths missing
        cacheStatus := if missing.isEmpty then .local_ else .cached }
    else slowPath S O drv

end Direct

namespace Resolver

/-! ## Parts of an attempt -/

/-- The caches hold answers of the oracles. -/
structure Agrees (S : EvalStore) (O : Oracles) (R : Resolver) : Prop where
  valid : ∀ path cached, R.validCache[path]? = some cached → cached = O.valid path
  probe : ∀ path cached, R.probeCache[path]? = some cached → cached = O.substitutable path
  drv : ∀ path drv, R.drvCache[path]? = some drv → S.readDerivation path = some drv

/-- A part of an attempt: the caches stay right; if nothing was missing from a cache
up to its end, then not before it either, and it gave the direct result. -/
structure Attempted (S : EvalStore) (O : Oracles) (R R' : Resolver) (direct : Prop) : Prop where
  agrees : R'.Agrees S O
  complete : R'.attemptComplete = true → R.attemptComplete = true ∧ direct

variable {S : EvalStore} {O : Oracles} {R R' R'' : Resolver}

/-- Doing nothing. -/
theorem Attempted.refl {P : Prop} (hR : R.Agrees S O) (h : P) : Attempted S O R R P :=
  ⟨hR, fun hc => ⟨hc, h⟩⟩

/-- The parts of an attempt, one after the other. -/
theorem Attempted.trans {P Q T : Prop} (h : Attempted S O R R' P)
    (h' : Attempted S O R' R'' Q) (hT : P → Q → T) : Attempted S O R R'' T := by
  refine ⟨h'.agrees, fun hc => ?_⟩
  obtain ⟨hc', hq⟩ := h'.complete hc
  obtain ⟨hc, hp⟩ := h.complete hc'
  exact ⟨hc, hT hp hq⟩

/-- An attempt that misses a probe is thrown away, whatever it does then. -/
theorem Attempted.discarded {P Q T : Prop} (h : Attempted S O R R' P)
    (h' : Attempted S O R' R'' Q) (hP : ¬P) : Attempted S O R R'' T :=
  h.trans h' fun hp _ => absurd hp hP

/-- A cached answer is the oracle's; without one the attempt is incomplete. -/
theorem probeValidity_spec (hR : R.Agrees S O) {path : StorePath} {valid : Option Bool}
    (h : R.probeValidity path = (valid, R')) :
    Attempted S O R R' (valid = some (O.valid path)) := by
  rw [probeValidity] at h
  split at h
  · next cached hcached =>
    obtain ⟨rfl, rfl⟩ := Prod.mk.inj h
    exact .refl hR (congrArg some (hR.valid path cached hcached))
  · obtain ⟨rfl, rfl⟩ := Prod.mk.inj h
    exact ⟨⟨hR.valid, hR.probe, hR.drv⟩, by simp⟩

/-- Reading a derivation, from the cache or the store, asks nobody. -/
theorem readDerivation_spec (hR : R.Agrees S O) {path : StorePath} {drv : Derivation}
    (h : R.readDerivation S path = .ok (drv, R')) :
    Attempted S O R R' True ∧ S.readDerivation path = some drv := by
  rw [readDerivation] at h
  split at h
  · next cached hcached =>
    obtain ⟨rfl, rfl⟩ := Prod.mk.inj (Except.ok.inj h)
    exact ⟨.refl hR trivial, hR.drv path _ hcached⟩
  · split at h
    · next hread =>
      obtain ⟨rfl, rfl⟩ := Prod.mk.inj (Except.ok.inj h)
      refine ⟨⟨⟨hR.valid, hR.probe, fun path' drv' h' => ?_⟩, fun hc => ⟨hc, trivial⟩⟩, hread⟩
      -- the new entry of the cache is what the store has
      rw [Std.ExtTreeMap.getElem?_insert] at h'
      split at h'
      · next heq =>
        rw [Std.LawfulEqCmp.compare_eq_iff_eq] at heq
        obtain rfl := heq
        rw [← Option.some.inj h']
        exact hread
      · exact hR.drv path' drv' h'
    · cases h

/-- There is one way for it to fail. -/
theorem readDerivation_error {drvPath : StorePath} {e : Error}
    (h : R.readDerivation S drvPath = .error e) : e = .nixLib := by
  rw [readDerivation] at h
  split at h
  · cases h
  · split at h
    · cases h
    · exact (Except.error.inj h).symm

/-- What a complete loop over outputs has made of `result`, by the direct one. -/
def Found (result out : MissingOutputs) (direct : Option (List StorePath)) : Prop :=
  match direct with
  | none => out.known = false
  | some missing => out = { result with missing := missing }

/-- An unknown output is unknown to the direct loop too. -/
theorem Found.unknown {out : MissingOutputs} {direct : Option (List StorePath)}
    (h : Found {} out direct) (hknown : (!out.known) = true) : direct = none := by
  cases direct with
  | none => rfl
  | some missing =>
    rw [show out = _ from h] at hknown
    cases hknown

/-- Known outputs are missing in the same way. -/
theorem Found.missing {out : MissingOutputs} {direct : Option (List StorePath)}
    (h : Found {} out direct) (hknown : ¬(!out.known) = true) :
    ∃ missing, direct = some missing ∧ out = { missing } := by
  cases direct with
  | none =>
    rw [show out.known = false from h] at hknown
    exact absurd rfl hknown
  | some missing => exact ⟨missing, rfl, h⟩

/-- The loop over outputs is the direct one, unless a probe was pending. -/
theorem missingFrom_spec {wanted : StdSet Str} {outputs : List (Str × Option StorePath)}
    {result out : MissingOutputs} (hR : R.Agrees S O)
    (h : missingFrom wanted outputs R result = (out, R')) :
    Attempted S O R R'
      (Found result out (Direct.missingFrom O wanted outputs result.missing)) := by
  -- on the outputs, with the result so far
  induction outputs generalizing R result with
  | nil =>
    obtain ⟨rfl, rfl⟩ := Prod.mk.inj h
    exact .refl hR rfl
  | cons e outputs ih =>
    obtain ⟨name, path⟩ := e
    rw [missingFrom.eq_def] at h
    rw [Direct.missingFrom.eq_def]
    dsimp only at h ⊢
    split at h
    · next hskip =>
      rw [if_pos hskip]
      exact ih hR h
    next hskip =>
    rw [if_neg hskip]
    split at h
    · obtain ⟨rfl, rfl⟩ := Prod.mk.inj h
      exact .refl hR rfl
    next path =>
    -- the direct loop goes on with the answer
    show Attempted S O R R' (Found result out (Direct.missingFrom O wanted outputs
      (if O.valid path then result.missing else result.missing ++ [path])))
    split at h
    · next hprobe => exact (probeValidity_spec hR hprobe).discarded (ih
        (probeValidity_spec hR hprobe).agrees h) (by simp)
    -- a cached answer: both loops take the same branch
    all_goals
      next hprobe =>
      have hvalid := probeValidity_spec hR hprobe
      refine hvalid.trans (ih hvalid.agrees h) fun hp hout => ?_
      rw [← Option.some.inj hp]
      exact hout

/-- The loop over substituters, which goes on after a pending probe to ask for all of them. -/
theorem foldl_probePath_spec (paths : List StorePath) (acc : Bool × Bool × Resolver)
    (hacc : acc.2.2.Agrees S O) :
    Attempted S O acc.2.2 (paths.foldl probePath acc).2.2
      ((paths.foldl probePath acc).2.1 = acc.2.1 ∧
        (paths.foldl probePath acc).1 = (acc.1 && paths.all O.substitutable)) := by
  induction paths generalizing acc with
  | nil => exact .refl hacc ⟨rfl, by simp⟩
  | cons path paths ih =>
    obtain ⟨all, complete, R⟩ := acc
    rw [List.foldl_cons, probePath]
    split
    · -- an answer from the cache joins the others
      next cached hcached =>
      have hrest := ih (all && cached, complete, R) hacc
      refine ⟨hrest.agrees, fun hc => ?_⟩
      obtain ⟨hR', hsame, hall⟩ := hrest.complete hc
      refine ⟨hR', hsame, hall.trans ?_⟩
      rw [List.all_cons, ← hacc.probe path cached hcached, Bool.and_assoc]
    · have hrest := ih
        (all, false, { R with wanted := R.wanted.insert path, attemptComplete := false })
        ⟨hacc.valid, hacc.probe, hacc.drv⟩
      exact ⟨hrest.agrees, fun hc => by cases (hrest.complete hc).1⟩

/-- Either every answer is there and they are the oracles', or the attempt is incomplete. -/
theorem allSubstitutable_spec (hR : R.Agrees S O) {paths : List StorePath} {all : Option Bool}
    (h : R.allSubstitutable paths = (all, R')) :
    Attempted S O R R' (all = some (paths.all O.substitutable)) := by
  obtain ⟨rfl, rfl⟩ := Prod.mk.inj h
  have hfold := foldl_probePath_spec paths (true, true, R) hR
  refine ⟨hfold.agrees, fun hc => ?_⟩
  obtain ⟨hRc, hsame, hall⟩ := hfold.complete hc
  exact ⟨hRc, by rw [hsame, hall, if_pos rfl, Bool.true_and]⟩

/-- A loop over outputs that calls itself complete has asked for nothing. -/
theorem missingFrom_complete {wanted : StdSet Str} {outputs : List (Str × Option StorePath)}
    {result out : MissingOutputs} (h : missingFrom wanted outputs R result = (out, R'))
    (hc : out.complete = true) : R' = R ∧ result.complete = true := by
  induction outputs generalizing R result with
  | nil =>
    obtain ⟨rfl, rfl⟩ := Prod.mk.inj h
    exact ⟨rfl, hc⟩
  | cons e outputs ih =>
    obtain ⟨name, path⟩ := e
    rw [missingFrom.eq_def] at h
    dsimp only at h
    -- a skipped output, an unknown one, or a probe
    split at h
    · exact ih h
    split at h
    · obtain ⟨rfl, rfl⟩ := Prod.mk.inj h
      exact ⟨rfl, hc⟩
    next path =>
    rw [probeValidity] at h
    split at h
    · -- a pending probe makes the loop incomplete for good
      next hprobe =>
      split at hprobe
      · cases hprobe
      · cases (ih h).2
    all_goals
      next hprobe =>
      split at hprobe
      · obtain ⟨-, rfl⟩ := Prod.mk.inj hprobe
        have hrest := ih h
        exact hrest
      · cases hprobe

/-- The same for the loop over substituters. -/
theorem foldl_probePath_complete (paths : List StorePath) (acc : Bool × Bool × Resolver)
    (hc : (paths.foldl probePath acc).2.1 = true) :
    (paths.foldl probePath acc).2.2 = acc.2.2 ∧ acc.2.1 = true := by
  induction paths generalizing acc with
  | nil => exact ⟨rfl, hc⟩
  | cons path paths ih =>
    obtain ⟨all, complete, R⟩ := acc
    rw [List.foldl_cons, probePath] at hc ⊢
    split at hc
    · exact ih _ hc
    · cases (ih _ hc).2

/-- The answer about all paths is there only when the one about each path was. -/
theorem allSubstitutable_complete {paths : List StorePath} {all : Bool}
    (h : R.allSubstitutable paths = (some all, R')) : R' = R := by
  obtain ⟨hall, rfl⟩ := Prod.mk.inj h
  refine (foldl_probePath_complete paths (true, true, R) ?_).1
  by_contra hc
  rw [if_neg hc] at hall
  cases hall

/-! ## The walk -/

/-- A loop over inputs is the direct one if each visit is. -/
theorem visitInputs_direct {f : Traversal × Resolver → StorePath × StdSet Str →
      Except Error (Traversal × Resolver)}
    {g : Traversal → StorePath × StdSet Str → Except Error Traversal}
    (hf : ∀ {t t' R R'} v, R.Agrees S O → f (t, R) v = .ok (t', R') →
      Attempted S O R R' (g t v = .ok t'))
    {vs : List (StorePath × StdSet Str)} {t t' : Traversal} (hR : R.Agrees S O)
    (h : vs.foldlM f (t, R) = .ok (t', R')) : Attempted S O R R' (vs.foldlM g t = .ok t') := by
  induction vs generalizing t R with
  | nil =>
    obtain ⟨rfl, rfl⟩ := Prod.mk.inj (Except.ok.inj h)
    exact .refl hR rfl
  | cons v vs ih =>
    rw [List.foldlM_cons] at h
    obtain ⟨⟨t₁, R₁⟩, hvisit, hrest⟩ := bind_eq_ok.mp h
    have hvisit := hf v hR hvisit
    refine hvisit.trans (ih hvisit.agrees hrest) fun hv hvs => ?_
    rw [List.foldlM_cons, hv]
    exact hvs

/-- **A visit over the caches is the direct visit**, unless the attempt is thrown away. -/
theorem visitDrv_direct {fuel : Nat} {drvPath : StorePath} {wanted : StdSet Str}
    {t t' : Traversal} (hR : R.Agrees S O)
    (h : visitDrv S fuel drvPath wanted (t, R) = .ok (t', R')) :
    Attempted S O R R' (Direct.visitDrv S O fuel drvPath wanted t = .ok t') := by
  -- on the fuel, which bounds the depth; the cases are the branches of the source in order
  induction fuel generalizing drvPath wanted t t' R R' with
  | zero => cases h
  | succ fuel ih =>
    rw [visitDrv] at h
    rw [Direct.visitDrv]
    split at h
    · next hvisited =>
      obtain ⟨rfl, rfl⟩ := Prod.mk.inj (Except.ok.inj h)
      exact .refl hR (if_pos hvisited)
    next hvisited =>
    rw [if_neg hvisited]
    obtain ⟨⟨drv, R₁⟩, hread, hrest⟩ := bind_eq_ok.mp h
    clear h
    obtain ⟨hattempt, hread⟩ := readDerivation_spec hR hread
    dsimp only at hrest
    rw [hread]
    dsimp only
    cases hmissing : R₁.missingOutputs drv wanted with
    | mk outputs R₂ =>
    rw [hmissing] at hrest
    have hfound := missingFrom_spec hattempt.agrees hmissing
    dsimp only at hrest hfound
    -- the derivation has been read and its outputs have been looked at
    have hstart := hattempt.trans hfound fun _ => id
    clear hattempt hfound
    split at hrest
    · -- a statically unknown output
      next hknown =>
      obtain ⟨rfl, rfl⟩ := Prod.mk.inj (Except.ok.inj hrest)
      refine hstart.trans (.refl hstart.agrees trivial) fun hfound _ => ?_
      rw [hfound.unknown hknown]
      rfl
    next hknown =>
    split at hrest
    · next hcomplete =>
      -- a pending probe: siblings and inputs are visited for the next batch only
      refine hstart.discarded (visitInputs_direct (fun v hR h => ih hR h) hstart.agrees hrest) ?_
      intro hfound
      obtain ⟨missing, -, rfl⟩ := hfound.missing hknown
      cases hcomplete
    split at hrest
    · -- nothing missing
      next hempty =>
      obtain ⟨rfl, rfl⟩ := Prod.mk.inj (Except.ok.inj hrest)
      refine hstart.trans (.refl hstart.agrees trivial) fun hfound _ => ?_
      obtain ⟨missing, hdirect, rfl⟩ := hfound.missing hknown
      rw [hdirect]
      exact if_pos hempty
    next hempty =>
    split at hrest
    · -- some answer pending
      next R₃ hall =>
      obtain ⟨rfl, rfl⟩ := Prod.mk.inj (Except.ok.inj hrest)
      exact hstart.trans (allSubstitutable_spec hstart.agrees hall) fun _ => by simp
    · -- all substitutable: the walk stops here
      next R₃ hall =>
      obtain ⟨rfl, rfl⟩ := Prod.mk.inj (Except.ok.inj hrest)
      refine hstart.trans (allSubstitutable_spec hstart.agrees hall) fun hfound hsub => ?_
      obtain ⟨missing, hdirect, rfl⟩ := hfound.missing hknown
      rw [hdirect]
      dsimp only
      rw [if_neg hempty, if_pos (Option.some.inj hsub).symm]
      rfl
    · -- not all of them: the derivation is built, after its inputs
      next R₃ hall =>
      obtain ⟨⟨t₄, R₄⟩, hfold, hrest⟩ := bind_eq_ok.mp hrest
      obtain ⟨rfl, rfl⟩ := Prod.mk.inj (Except.ok.inj hrest)
      have hsub := allSubstitutable_spec hstart.agrees hall
      have hfold := visitInputs_direct (fun v hR h => ih hR h) hsub.agrees hfold
      refine (hstart.trans hsub And.intro).trans hfold fun hfound hinputs => ?_
      obtain ⟨missing, hdirect, rfl⟩ := hfound.1.missing hknown
      rw [hdirect]
      dsimp only
      rw [if_neg hempty, if_neg (by rw [← Option.some.inj hfound.2]; simp), hinputs]
      rfl

/-! ## A whole attempt -/

/-- What an attempt has come to, by the direct resolution of the job. -/
def Resolves (S : EvalStore) (O : Oracles) (drv : Drv) (done : Bool) (drv' : Drv) : Prop :=
  if done then Direct.tryResolve S O drv = .ok drv' else drv' = drv

/-- The slow path comes to an end when its walk was complete, and then it is the direct one. -/
theorem slowPath_direct (hR : R.Agrees S O) {drv drv' : Drv} {done : Bool}
    (h : R.slowPath S drv = .ok (done, drv', R')) :
    R'.Agrees S O ∧
      if done then R.attemptComplete = true ∧ Direct.slowPath S O drv = .ok drv'
      else drv' = drv := by
  rw [slowPath] at h
  obtain ⟨⟨t, R₁⟩, hvisit, hrest⟩ := bind_eq_ok.mp h
  clear h
  have hvisit := visitDrv_direct hR hvisit
  dsimp only at hrest
  split at hrest
  · obtain ⟨rfl, rfl, rfl⟩ := result_inj hrest
    exact ⟨hvisit.agrees, rfl⟩
  · next hcomplete =>
    obtain ⟨rfl, rfl, rfl⟩ := result_inj hrest
    obtain ⟨hRc, hdirect⟩ := hvisit.complete (by simpa using hcomplete)
    refine ⟨hvisit.agrees, hRc, ?_⟩
    rw [Direct.slowPath, hdirect]
    rfl

/-- The slow path of an attempt whose fast path has led there. -/
theorem slowPath_resolves (hR : R.Agrees S O) {drv drv' : Drv} {done : Bool}
    (hdirect : R.attemptComplete = true → Direct.tryResolve S O drv = Direct.slowPath S O drv)
    (h : R.slowPath S drv = .ok (done, drv', R')) :
    R'.Agrees S O ∧ Resolves S O drv done drv' := by
  obtain ⟨hR', hslow⟩ := slowPath_direct hR h
  refine ⟨hR', ?_⟩
  unfold Resolves
  cases done with
  | false => exact hslow
  | true => exact (hdirect hslow.1).trans hslow.2

/-- **An attempt that comes to an end is the direct one**, and one that does not
leaves the job alone; neither spoils the caches. -/
theorem tryResolve_direct (hR : R.Agrees S O) {drv drv' : Drv} {done : Bool}
    (h : R.tryResolve S drv = .ok (done, drv', R')) :
    R'.Agrees S O ∧ Resolves S O drv done drv' := by
  have hbegin : Agrees S O { R with attemptComplete := true } := ⟨hR.valid, hR.probe, hR.drv⟩
  rw [tryResolve] at h
  dsimp only at h
  cases hjob : missingFrom ∅ drv.outputs.toList { R with attemptComplete := true } {} with
  | mk job R₁ =>
  rw [hjob] at h
  have hfound := missingFrom_spec hbegin hjob
  dsimp only at h hfound
  split at h
  · -- an output is unknown, so the fast path is no way to go
    next hknown =>
    refine slowPath_resolves hfound.agrees (fun hc => ?_) h
    rw [Direct.tryResolve, (hfound.complete hc).2.unknown hknown]
  next hknown =>
  split at h
  · obtain ⟨rfl, rfl, rfl⟩ := result_inj h
    exact ⟨hfound.agrees, rfl⟩
  next hcomplete =>
  -- all outputs have been probed, so what is missing is what the direct loop finds
  have hR₁c : R₁.attemptComplete = true := by
    rw [(missingFrom_complete hjob (by simpa using hcomplete)).1]
  obtain ⟨missing, hdirect, rfl⟩ := (hfound.complete hR₁c).2.missing hknown
  split at h
  · -- some answer is pending
    next R₂ hall =>
    obtain ⟨rfl, rfl, rfl⟩ := result_inj h
    exact ⟨(allSubstitutable_spec hfound.agrees hall).agrees, rfl⟩
  · -- the fast path has an answer
    next R₂ hall =>
    obtain ⟨rfl, rfl, rfl⟩ := result_inj h
    have hsub := allSubstitutable_spec hfound.agrees hall
    obtain ⟨-, hyes⟩ := hsub.complete (allSubstitutable_complete hall ▸ hR₁c)
    refine ⟨hsub.agrees, ?_⟩
    change Direct.tryResolve S O drv = _
    rw [Direct.tryResolve, hdirect]
    exact if_pos (Option.some.inj hyes).symm
  · -- something is not substitutable: on to the slow path
    next R₂ hall =>
    have hsub := allSubstitutable_spec hfound.agrees hall
    obtain ⟨-, hno⟩ := hsub.complete (allSubstitutable_complete hall ▸ hR₁c)
    refine slowPath_resolves hsub.agrees (fun _ => ?_) h
    rw [Direct.tryResolve, hdirect]
    exact if_neg (by rw [← Option.some.inj hno]; simp)

/-! ## Batches -/

/-- Nothing has been asked yet. -/
theorem agrees_empty : Agrees S O {} := ⟨by simp, by simp, by simp⟩

/-- Inserting what a function says about every path of a list. -/
theorem foldl_insertIfNew_spec {f : StorePath → Bool} (paths : List StorePath)
    {cache : StdMap StorePath Bool}
    (h : ∀ path cached, cache[path]? = some cached → cached = f path) :
    ∀ path cached, (paths.foldl (fun cache path => cache.insertIfNew path (f path))
      cache)[path]? = some cached → cached = f path := by
  induction paths generalizing cache with
  | nil => exact h
  | cons p paths ih =>
    refine ih fun path cached hcached => ?_
    rw [Std.ExtTreeMap.getElem?_insertIfNew] at hcached
    split at hcached
    · next heq =>
      rw [Std.LawfulEqCmp.compare_eq_iff_eq] at heq
      obtain rfl := heq.1
      exact (Option.some.inj hcached).symm
    · exact h path cached hcached

/-- A batch puts answers of the oracles into the caches. -/
theorem resolveWanted_spec (hR : R.Agrees S O) :
    (resolveWanted O.valid O.substitutable R).Agrees S O := by
  refine ⟨?_, ?_, hR.drv⟩
  · dsimp only [resolveWanted]
    rw [Std.ExtTreeSet.foldl_eq_foldl_toList]
    exact foldl_insertIfNew_spec _ hR.valid
  · dsimp only [resolveWanted]
    rw [Std.ExtTreeSet.foldl_eq_foldl_toList]
    exact foldl_insertIfNew_spec _ hR.probe

/-! ## The recursion ends -/

/-- Only a derivation that cannot be read stops the walk. -/
theorem visitDrv_error {fuel : Nat} {drvPath : StorePath} {wanted : StdSet Str} {t : Traversal}
    {e : Error} (hR : R.Agrees S O) (hfuel : S.depth drvPath < fuel)
    (h : visitDrv S fuel drvPath wanted (t, R) = .error e) : e = .nixLib := by
  induction fuel generalizing drvPath wanted t R with
  | zero => omega
  | succ fuel ih =>
    -- the inputs are less deep, and the caches stay right from one to the next
    have hinputs : ∀ {drv : Derivation} {t : Traversal} {R : Resolver}, R.Agrees S O →
        S.readDerivation drvPath = some drv →
        drv.inputDrvs.toList.foldlM (fun state input => visitDrv S fuel input.1 input.2 state)
          (t, R) = .error e → e = .nixLib := by
      intro drv t R hR hread hfold
      obtain ⟨input, hinput, ⟨t', R'⟩, hR', herror⟩ := foldlM_error
        (P := fun state : Traversal × Resolver => state.2.Agrees S O)
        (fun input _ hs hok => (visitDrv_direct hs hok).agrees) hR hfold
      have hmem : input.1 ∈ drv.inputDrvs := StdMap.mem_of_mem_toList hinput
      have hdepth := S.depth_lt hread hmem
      exact ih hR' (by omega) herror
    rw [visitDrv] at h
    split at h
    · cases h
    rcases bind_eq_error.mp h with hread | ⟨⟨drv, R₁⟩, hread, hrest⟩
    · exact readDerivation_error hread
    obtain ⟨hattempt, hread⟩ := readDerivation_spec hR hread
    dsimp only at hrest
    cases hmissing : R₁.missingOutputs drv wanted with
    | mk outputs R₂ =>
    rw [hmissing] at hrest
    have hR₂ := (missingFrom_spec hattempt.agrees hmissing).agrees
    dsimp only at hrest
    split at hrest
    · cases hrest
    split at hrest
    · -- the inputs of a pending derivation are visited too
      exact hinputs hR₂ hread hrest
    split at hrest
    · cases hrest
    split at hrest
    · cases hrest
    · cases hrest
    · next R₃ hall =>
      have hR₃ := (allSubstitutable_spec hR₂ hall).agrees
      rcases bind_eq_error.mp hrest with hfold | ⟨_, _, hrest⟩
      · exact hinputs hR₃ hread hfold
      · cases hrest

/-- An attempt fails only at a derivation that cannot be read. -/
theorem tryResolve_error {drv : Drv} {e : Error} (hR : R.Agrees S O)
    (h : R.tryResolve S drv = .error e) : e = .nixLib := by
  -- the fast path reads no derivation and cannot fail
  have hslow : ∀ {R : Resolver}, R.Agrees S O → R.slowPath S drv = .error e → e = .nixLib := by
    intro R hR h
    rw [slowPath] at h
    rcases bind_eq_error.mp h with hvisit | ⟨⟨t, R₁⟩, -, hrest⟩
    · exact visitDrv_error hR (Nat.lt_succ_self _) hvisit
    · dsimp only at hrest
      split at hrest <;> cases hrest
  have hbegin : Agrees S O { R with attemptComplete := true } := ⟨hR.valid, hR.probe, hR.drv⟩
  rw [tryResolve] at h
  dsimp only at h
  cases hjob : missingFrom ∅ drv.outputs.toList { R with attemptComplete := true } {} with
  | mk job R₁ =>
  rw [hjob] at h
  have hR₁ := (missingFrom_spec hbegin hjob).agrees
  dsimp only at h
  split at h
  · exact hslow hR₁ h
  split at h
  · cases h
  split at h
  · cases h
  · cases h
  · next R₂ hall => exact hslow (allSubstitutable_spec hR₁ hall).agrees h

end Resolver

end NixEvalJobs
