import NixEvalJobs.CacheStatus.Direct

/-!
# Cache status resolver — visits

When all output paths are statically known, the direct walk is the plain `walk` over
visits: a derivation with the outputs wanted by the edge it was first reached
through. What is printed are the visits that build and the missing outputs of the
others.

* `direct_visited` — what a direct visit can do.
* `visitDrv_follows` — the walk with caches follows the plain one.
* `slowPath_spec` — what a completed attempt prints.
* `agrees_reachable` — the caches only ever hold answers of the stores.
-/

namespace NixEvalJobs

/-- All output paths are statically known. -/
def EvalStore.Static (S : EvalStore) : Prop :=
  ∀ path drv, S.readDerivation path = some drv →
    ∀ e ∈ drv.outputsAndOptPaths.toList, e.2 ≠ none

/-- The traversal once the visit of a derivation has begun. -/
def Traversal.enter (t : Traversal) (drvPath : StorePath) : Traversal :=
  { t with visited := t.visited.insert drvPath }

/-- A derivation and the outputs wanted of it. -/
abbrev Visit := StorePath × StdSet Str

namespace Resolver

/-- Without a set of names all outputs are wanted. -/
def wants (wanted : StdSet Str) (name : Str) : Bool := wanted.isEmpty || wanted.contains name

/-- The wanted output paths that are not valid. -/
def missingPaths (O : Oracles) (wanted : StdSet Str) (outputs : List (Str × Option StorePath)) :
    List StorePath :=
  outputs.filterMap fun e =>
    if wants wanted e.1 then e.2.filter fun path => !O.valid path else none

variable {S : EvalStore} {O : Oracles} {R R' : Resolver}

/-! ## The walk over visits -/

/-- The paths of all wanted outputs are statically known. -/
def Known (wanted : StdSet Str) (outputs : List (Str × Option StorePath)) : Prop :=
  ∀ e ∈ outputs, wants wanted e.1 = true → e.2 ≠ none

/-- The other outputs are known, too. -/
theorem Known.tail {wanted : StdSet Str} {e : Str × Option StorePath}
    {outputs : List (Str × Option StorePath)} (h : Known wanted (e :: outputs)) :
    Known wanted outputs :=
  fun e' he' => h e' (List.mem_cons_of_mem _ he')

/-- The loop over outputs is a filter, unless it ends early. -/
theorem missingFrom_known {wanted : StdSet Str} {outputs : List (Str × Option StorePath)}
    (h : Known wanted outputs) (missing : List StorePath) :
    Direct.missingFrom O wanted outputs missing =
      some (missing ++ missingPaths O wanted outputs) := by
  induction outputs generalizing missing with
  | nil => simp [Direct.missingFrom, missingPaths]
  | cons e outputs ih =>
    obtain ⟨name, path⟩ := e
    have hskip : (!wanted.isEmpty && !wanted.contains name) = !wants wanted name := by
      rw [wants, Bool.not_or]
    rw [Direct.missingFrom.eq_def, missingPaths, List.filterMap_cons]
    dsimp only
    rw [hskip]
    -- an output that is not wanted is passed over
    cases hwants : wants wanted name with
    | false => exact ih h.tail missing
    | true =>
      obtain ⟨path, rfl⟩ := Option.ne_none_iff_exists'.mp (h _ (List.mem_cons_self ..) hwants)
      rw [if_neg (by decide), if_pos rfl]
      cases hvalid : O.valid path with
      | true => simp [ih h.tail, missingPaths, Option.filter, hvalid]
      | false => simp [ih h.tail, missingPaths, Option.filter, hvalid]

/-- At an unknown output the loop gives up. -/
theorem missingFrom_unknown {wanted : StdSet Str} {outputs : List (Str × Option StorePath)}
    (h : ¬Known wanted outputs) (missing : List StorePath) :
    Direct.missingFrom O wanted outputs missing = none := by
  induction outputs generalizing missing with
  | nil => exact absurd (fun _ he => absurd he List.not_mem_nil) h
  | cons e outputs ih =>
    obtain ⟨name, path⟩ := e
    have hskip : (!wanted.isEmpty && !wanted.contains name) = !wants wanted name := by
      rw [wants, Bool.not_or]
    -- an output that is passed over, or has a path, is not the unknown one
    have hrest : (wants wanted name = true → path ≠ none) → ¬Known wanted outputs := by
      intro hpath hknown
      refine h fun e he => ?_
      rcases List.mem_cons.mp he with rfl | he
      · exact hpath
      · exact hknown e he
    rw [Direct.missingFrom.eq_def]
    dsimp only
    rw [hskip]
    cases hwants : wants wanted name with
    | false => exact ih (hrest fun hc => absurd (hwants.symm.trans hc) (by simp)) missing
    | true =>
      rw [if_neg (by decide)]
      cases path with
      | none => rfl
      | some path => exact ih (hrest fun _ => by simp) _

/-- The missing outputs of a visit. -/
def missingAt (S : EvalStore) (O : Oracles) (v : Visit) : List StorePath :=
  match S.readDerivation v.1 with
  | some drv => missingPaths O v.2 drv.outputsAndOptPaths.toList
  | none => []

/-- Something is missing that no substituter has. -/
def builds (S : EvalStore) (O : Oracles) (v : Visit) : Bool :=
  !(missingAt S O v).all O.substitutable

/-- The input edges. -/
def inputs (S : EvalStore) (drvPath : StorePath) : List Visit :=
  match S.readDerivation drvPath with
  | some drv => drv.inputDrvs.toList
  | none => []

/-- Where a visit goes on: to the inputs of what has to be built. -/
def nextVisits (S : EvalStore) (O : Oracles) (v : Visit) : List Visit :=
  if builds S O v then inputs S v.1 else []

/-- The first visit of every derivation that the walk from `drvPath` reaches. -/
def firstVisits (S : EvalStore) (O : Oracles) (drvPath : StorePath) : List Visit :=
  walk Prod.fst (nextVisits S O) (S.depth drvPath + 1) [] (drvPath, ∅)

/-- For a derivation that can be read. -/
theorem missingAt_eq {drvPath : StorePath} {drv : Derivation} {wanted : StdSet Str}
    (h : S.readDerivation drvPath = some drv) :
    missingAt S O (drvPath, wanted) = missingPaths O wanted drv.outputsAndOptPaths.toList := by
  rw [missingAt, h]

/-- What a direct visit can do. -/
inductive DirectVisit (S : EvalStore) (O : Oracles) (fuel : Nat) (v : Visit) (t : Traversal) :
    Traversal → Prop where
  /-- It was visited before. -/
  | again : v.1 ∈ t.visited → DirectVisit S O fuel v t t
  /-- A wanted output has no known path. -/
  | unknown {drv : Derivation} : v.1 ∉ t.visited → S.readDerivation v.1 = some drv →
      ¬Known v.2 drv.outputsAndOptPaths.toList →
      DirectVisit S O fuel v t { t.enter v.1 with unknownPaths := t.unknownPaths ++ [v.1] }
  /-- Nothing is missing, or all that is can be substituted. -/
  | leaf {drv : Derivation} : v.1 ∉ t.visited → S.readDerivation v.1 = some drv →
      Known v.2 drv.outputsAndOptPaths.toList → builds S O v = false →
      DirectVisit S O fuel v t { t.enter v.1 with
        substitutePaths := t.substitutePaths.insertMany (missingAt S O v) }
  /-- It has to be built, after its inputs. -/
  | built {drv : Derivation} {t' : Traversal} : v.1 ∉ t.visited →
      S.readDerivation v.1 = some drv → Known v.2 drv.outputsAndOptPaths.toList →
      builds S O v = true →
      (inputs S v.1).foldlM (fun t input => Direct.visitDrv S O fuel input.1 input.2 t)
        (t.enter v.1) = .ok t' →
      DirectVisit S O fuel v t { t' with neededBuilds := t'.neededBuilds ++ [v.1] }

/-- A direct visit does one of these. -/
theorem direct_visited {fuel : Nat} {drvPath : StorePath} {wanted : StdSet Str}
    {t t' : Traversal} (h : Direct.visitDrv S O (fuel + 1) drvPath wanted t = .ok t') :
    DirectVisit S O fuel (drvPath, wanted) t t' := by
  rw [Direct.visitDrv] at h
  split at h
  · next hvisited =>
    obtain rfl := Except.ok.inj h
    exact .again hvisited
  next hfresh =>
  dsimp only at h
  cases hread : S.readDerivation drvPath with
  | none =>
    rw [hread] at h
    cases h
  | some drv =>
  rw [hread] at h
  dsimp only at h
  -- the loop over outputs stops at one that is unknown
  by_cases hknown : Known wanted drv.outputsAndOptPaths.toList
  · rw [missingFrom_known hknown, List.nil_append,
      ← (missingAt_eq hread : missingAt S O (drvPath, wanted) = _)] at h
    dsimp only at h
    split at h
    · next hempty =>
      obtain rfl := Except.ok.inj h
      have hnone : missingAt S O (drvPath, wanted) = [] := List.isEmpty_iff.mp hempty
      -- with nothing missing, nothing is added to the substitutes
      have hleaf : DirectVisit S O fuel (drvPath, wanted) t { t.enter drvPath with
          substitutePaths := t.substitutePaths.insertMany (missingAt S O (drvPath, wanted)) } :=
        .leaf hfresh hread hknown (by rw [builds, hnone]; rfl)
      rwa [hnone, Std.ExtTreeSet.insertMany_nil] at hleaf
    split at h
    · next hsub =>
      obtain rfl := Except.ok.inj h
      exact .leaf hfresh hread hknown (by rw [builds, hsub]; rfl)
    · next hsub =>
      -- it has to be built, and so its inputs come before it
      obtain ⟨t₁, hfold, hrest⟩ := bind_eq_ok.mp h
      obtain rfl := Except.ok.inj hrest
      have hinputs : inputs S drvPath = drv.inputDrvs.toList := by rw [inputs, hread]
      refine .built hfresh hread hknown (by rw [builds, Bool.eq_false_iff.mpr hsub]; rfl) ?_
      rw [hinputs]
      exact hfold
  · rw [missingFrom_unknown hknown] at h
    obtain rfl := Except.ok.inj h
    exact .unknown hfresh hread hknown

/-- An edge leads down the graph. -/
theorem depth_inputs {drvPath : StorePath} {edge : Visit} (h : edge ∈ inputs S drvPath) :
    S.depth edge.1 < S.depth drvPath := by
  rw [inputs] at h
  split at h
  · next hread =>
    exact S.depth_lt hread (StdMap.mem_of_mem_toList h)
  · exact absurd h List.not_mem_nil

/-- The walk goes down the graph. -/
theorem depth_nextVisits (v : Visit) : ∀ n ∈ nextVisits S O v, S.depth n.1 < S.depth v.1 := by
  intro n hn
  rw [nextVisits] at hn
  split at hn
  · exact depth_inputs hn
  · exact absurd hn List.not_mem_nil

/-- What the visits `new` add to a traversal. -/
structure Collects (S : EvalStore) (O : Oracles) (t t' : Traversal) (new : List Visit) : Prop where
  visited : ∀ path, path ∈ t'.visited ↔ path ∈ t.visited ∨ Entered Prod.fst new path
  neededBuilds : ∀ path, path ∈ t'.neededBuilds ↔
    path ∈ t.neededBuilds ∨ ∃ v ∈ new, builds S O v = true ∧ v.1 = path
  substitutePaths : ∀ path, path ∈ t'.substitutePaths ↔
    path ∈ t.substitutePaths ∨ ∃ v ∈ new, builds S O v = false ∧ path ∈ missingAt S O v

/-- The traversal has visited what the walk has entered. -/
def Tracks (t : Traversal) (seen : List Visit) : Prop :=
  ∀ path, path ∈ t.visited ↔ Entered Prod.fst seen path

/-- No visit adds nothing. -/
theorem Collects.refl (t : Traversal) : Collects S O t t [] :=
  ⟨by simp [Entered], by simp, by simp⟩

/-- The visits of two parts together. -/
theorem Collects.trans {t t' t'' : Traversal} {new new' : List Visit}
    (h : Collects S O t t' new) (h' : Collects S O t' t'' new') :
    Collects S O t t'' (new ++ new') := by
  refine ⟨fun path => ?_, fun path => ?_, fun path => ?_⟩
  · rw [h'.visited, h.visited, entered_append, or_assoc]
  · rw [h'.neededBuilds, h.neededBuilds, or_assoc]
    simp only [List.mem_append, or_and_right, exists_or]
  · rw [h'.substitutePaths, h.substitutePaths, or_assoc]
    simp only [List.mem_append, or_and_right, exists_or]

/-- What the visits enter is visited. -/
theorem Tracks.collects {t t' : Traversal} {seen new : List Visit} (h : Tracks t seen)
    (hnew : Collects S O t t' new) : Tracks t' (seen ++ new) := by
  intro path
  rw [hnew.visited, h path, entered_append]

/-- A completed visit adds what the walk over visits adds. -/
def Follows (S : EvalStore) (O : Oracles) (t : Traversal) (R : Resolver) (t' : Traversal)
    (R' : Resolver) (visit : List Visit → List Visit) : Prop :=
  R'.Agrees S O ∧ (R'.attemptComplete = true → R.attemptComplete = true ∧
    ∀ seen, Tracks t seen → ∃ new, visit seen = seen ++ new ∧ Collects S O t t' new)

/-- The inputs of a derivation, one after the other. -/
theorem directInputs_follow {f : Traversal → Visit → Except Error Traversal}
    {g : List Visit → Visit → List Visit}
    (hf : ∀ {t t'} v, f t v = .ok t' → ∀ seen, Tracks t seen →
      ∃ new, g seen v = seen ++ new ∧ Collects S O t t' new)
    {vs : List Visit} {t t' : Traversal} (h : vs.foldlM f t = .ok t') (seen : List Visit)
    (htracks : Tracks t seen) :
    ∃ new, vs.foldl g seen = seen ++ new ∧ Collects S O t t' new := by
  induction vs generalizing t seen with
  | nil =>
    obtain rfl := Except.ok.inj h
    exact ⟨[], (List.append_nil _).symm, .refl t⟩
  | cons v vs ih =>
    rw [List.foldlM_cons] at h
    obtain ⟨t₁, hvisit, hrest⟩ := bind_eq_ok.mp h
    obtain ⟨new, hnew, hcollects⟩ := hf v hvisit seen htracks
    obtain ⟨new', hnew', hcollects'⟩ := ih hrest (seen ++ new) (htracks.collects hcollects)
    -- the visits of the first input come before those of the others
    refine ⟨new ++ new', ?_, hcollects.trans hcollects'⟩
    rw [List.foldl_cons, hnew, hnew', List.append_assoc]

/-- A visit that builds nothing and leads nowhere. -/
theorem collects_leaf {t t' : Traversal} {v : Visit} (hbuilds : builds S O v = false)
    (hvisited : t'.visited = t.visited.insert v.1) (hneeded : t'.neededBuilds = t.neededBuilds)
    (hsubstitute : ∀ path, path ∈ t'.substitutePaths ↔
      path ∈ t.substitutePaths ∨ path ∈ missingAt S O v) : Collects S O t t' [v] := by
  refine ⟨fun path => ?_, fun path => ?_, fun path => ?_⟩
  · rw [hvisited, Std.ExtTreeSet.mem_insert, Std.LawfulEqCmp.compare_eq_iff_eq]
    simp [Entered, or_comm]
  · simp [hneeded, hbuilds]
  · simp [hsubstitute, hbuilds]

/-- A visit that builds, after its inputs. -/
theorem collects_build {t t' : Traversal} {v : Visit} {new : List Visit}
    (hbuilds : builds S O v = true)
    (h : Collects S O { t with visited := t.visited.insert v.1 } t' new) :
    Collects S O t { t' with neededBuilds := t'.neededBuilds ++ [v.1] } (v :: new) := by
  refine ⟨fun path => ?_, fun path => ?_, fun path => ?_⟩
  · dsimp only
    rw [h.visited, Std.ExtTreeSet.mem_insert, Std.LawfulEqCmp.compare_eq_iff_eq]
    simp only [Entered, List.mem_cons, exists_eq_or_imp]
    tauto
  · rw [List.mem_append, h.neededBuilds, List.mem_singleton, eq_comm (a := path) (b := v.1)]
    simp only [List.mem_cons, exists_eq_or_imp, hbuilds, true_and]
    rw [or_right_comm, or_assoc]
  · rw [h.substitutePaths]
    simp [hbuilds]

/-- A derivation is marked when it is entered. -/
theorem tracks_insert {t : Traversal} {seen : List Visit} (h : Tracks t seen) (v : Visit) :
    Tracks { t with visited := t.visited.insert v.1 } (seen ++ [v]) := by
  intro path
  rw [Std.ExtTreeSet.mem_insert, Std.LawfulEqCmp.compare_eq_iff_eq, h path, entered_append]
  simp [Entered, or_comm]

/-- **The direct visit is a step of the walk.** -/
theorem direct_follows (hstatic : S.Static) {fuel : Nat} {drvPath : StorePath}
    {wanted : StdSet Str} {t t' : Traversal}
    (h : Direct.visitDrv S O fuel drvPath wanted t = .ok t') (seen : List Visit)
    (htracks : Tracks t seen) :
    ∃ new, walk Prod.fst (nextVisits S O) fuel seen (drvPath, wanted) = seen ++ new ∧
      Collects S O t t' new := by
  induction fuel generalizing drvPath wanted t t' seen with
  | zero => cases h
  | succ fuel ih =>
    match direct_visited h with
    | .again hvisited =>
      -- visited before, for whatever outputs
      refine ⟨[], ?_, .refl t⟩
      rw [List.append_nil]
      exact walk_of_entered ((htracks drvPath).mp hvisited) fuel
    -- all outputs are known
    | .unknown hfresh hread hunknown =>
      exact absurd (fun e he _ => hstatic drvPath _ hread e he) hunknown
    | .leaf hfresh hread hknown hbuilds =>
      rw [walk_of_not_entered (fun hc => hfresh ((htracks drvPath).mpr hc)) fuel, nextVisits,
        hbuilds]
      refine ⟨_, rfl, collects_leaf hbuilds rfl rfl fun path => ?_⟩
      rw [Std.ExtTreeSet.mem_insertMany_list]
      simp
    -- its inputs are walked with it marked
    | .built hfresh hread hknown hbuilds hfold =>
      rw [walk_of_not_entered (fun hc => hfresh ((htracks drvPath).mpr hc)) fuel]
      obtain ⟨new, hnew, hcollects⟩ := directInputs_follow (fun v hv => ih hv) hfold _
        (tracks_insert htracks (drvPath, wanted))
      refine ⟨(drvPath, wanted) :: new, ?_, collects_build hbuilds hcollects⟩
      rw [nextVisits, if_pos hbuilds, hnew, List.append_assoc, List.singleton_append]

/-- **A completed visit is a step of the walk.** -/
theorem visitDrv_follows (hstatic : S.Static) {fuel : Nat} {drvPath : StorePath}
    {wanted : StdSet Str} {t t' : Traversal} (hR : R.Agrees S O)
    (h : visitDrv S fuel drvPath wanted (t, R) = .ok (t', R')) :
    Follows S O t R t' R' fun seen =>
      walk Prod.fst (nextVisits S O) fuel seen (drvPath, wanted) := by
  have hvisit := visitDrv_direct hR h
  refine ⟨hvisit.agrees, fun hc => ?_⟩
  obtain ⟨hRc, hdirect⟩ := hvisit.complete hc
  exact ⟨hRc, direct_follows hstatic hdirect⟩

/-! ## A completed attempt -/

/-- A completed slow path prints the visits that build, and what the others lack. -/
theorem slowPath_spec (hstatic : S.Static) (hR : R.Agrees S O) {drv drv' : Drv} {done : Bool}
    (h : R.slowPath S drv = .ok (done, drv', R')) :
    R'.Agrees S O ∧ (done = true →
      (∀ path, path ∈ drv'.neededBuilds ↔
        ∃ v ∈ firstVisits S O drv.drvPath, builds S O v = true ∧ v.1 = path) ∧
      ∀ path, path ∈ drv'.neededSubstitutes ↔
        ∃ v ∈ firstVisits S O drv.drvPath, builds S O v = false ∧ path ∈ missingAt S O v) := by
  rw [slowPath] at h
  obtain ⟨⟨t, R₁⟩, hvisit, hrest⟩ := bind_eq_ok.mp h
  clear h
  obtain ⟨hR₁, hvisit⟩ := visitDrv_follows hstatic hR hvisit
  dsimp only at hrest
  split at hrest
  · cases Except.ok.inj hrest
    exact ⟨hR₁, by simp⟩
  · next hcomplete =>
    cases Except.ok.inj hrest
    refine ⟨hR₁, fun _ => ?_⟩
    -- the walk starts with nothing visited, so what it entered is what it visits first
    obtain ⟨-, hwalk⟩ := hvisit (by simpa using hcomplete)
    obtain ⟨new, hnew, hcollects⟩ := hwalk [] fun path => by simp [Entered]
    rw [List.nil_append] at hnew
    have hvisits : firstVisits S O drv.drvPath = new := hnew
    rw [hvisits]
    refine ⟨fun path => ?_, fun path => ?_⟩
    · simp [hcollects.neededBuilds]
    · rw [mem_sortPaths, Std.ExtTreeSet.mem_toList, hcollects.substitutePaths]
      simp

/-- An attempt takes the slow path, or is not about builds. -/
theorem tryResolve_cases {drv drv' : Drv} {done : Bool} (hR : R.Agrees S O)
    (h : R.tryResolve S drv = .ok (done, drv', R')) :
    (∃ R₁ : Resolver, R₁.Agrees S O ∧ R₁.slowPath S drv = .ok (done, drv', R')) ∨
      (R'.Agrees S O ∧ (done = true → drv'.cacheStatus ≠ .notBuilt)) := by
  have hstart : Agrees S O { R with attemptComplete := true } := ⟨hR.valid, hR.probe, hR.drv⟩
  rw [tryResolve] at h
  dsimp only at h
  cases hjob : missingFrom ∅ drv.outputs.toList { R with attemptComplete := true } {} with
  | mk job R₁ =>
  rw [hjob] at h
  have hR₁ := (missingFrom_spec hstart hjob).agrees
  dsimp only at h
  -- an unknown output takes the slow path at once
  split at h
  · exact .inl ⟨R₁, hR₁, h⟩
  split at h
  · cases Except.ok.inj h
    exact .inr ⟨hR₁, by simp⟩
  split at h
  · next R₂ hall =>
    cases Except.ok.inj h
    exact .inr ⟨(allSubstitutable_spec hR₁ hall).agrees, by simp⟩
  · next R₂ hall =>
    cases Except.ok.inj h
    refine .inr ⟨(allSubstitutable_spec hR₁ hall).agrees, fun _ => ?_⟩
    dsimp only
    -- the job is cached or local
    split <;> simp
  · next R₂ hall => exact .inl ⟨R₂, (allSubstitutable_spec hR₁ hall).agrees, h⟩

/-! ## Attempts and batches -/

/-- What the thread does with the resolver. -/
inductive Event where
  /-- one attempt at a job -/
  | attempt (drv : Drv)
  /-- the batch -/
  | resolveWanted

/-- The loop of `CacheStatusResolver::run`, for stores whose answers do not change. -/
def system (S : EvalStore) (O : Oracles) : System Resolver Event where
  init := {}
  step R
    | .attempt drv =>
      match R.tryResolve S drv with
      | .ok (_, _, R) => some R
      | .error _ => none
    | .resolveWanted => some (resolveWanted O.valid O.substitutable R)

/-- So the caches agree with the stores in every run. -/
theorem agrees_reachable (h : (system S O).Reachable System.anyEnv R) : R.Agrees S O := by
  refine h.invariant agrees_empty ?_
  intro R R' e _ hR _ hstep
  match e with
  | .attempt drv =>
    change (match R.tryResolve S drv with | .ok (_, _, R) => some R | .error _ => none) = _
      at hstep
    split at hstep
    · next htry =>
      obtain rfl := Option.some.inj hstep
      exact (tryResolve_direct hR htry).1
    · cases hstep
  | .resolveWanted =>
    obtain rfl := Option.some.inj hstep
    exact resolveWanted_spec hR

end Resolver

end NixEvalJobs
