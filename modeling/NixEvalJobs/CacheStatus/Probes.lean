import NixEvalJobs.CacheStatus.Visits

/-!
# Cache status resolver — what an attempt asks for

An attempt leaves the answers in the caches alone and notes what it would like to
know. Where it goes is decided by the caches before it: past a derivation with a
wanted output of unknown validity, for the next batch, and past one that has to be
built. It asks the substituters about what is known to be missing, and goes no
further there.

* `Probes` — what every part of an attempt does to the caches and the wanted paths.
* `visitDrv_probes` — a visit asks about what the walk comes to.
* `tryResolve_probes` — an attempt without a result wants something that no cache has.
-/

namespace NixEvalJobs

namespace Resolver

/-! ## What the caches say -/

/-- The validity of one of the paths is not known. -/
def pends (R : Resolver) (paths : List StorePath) : Bool :=
  paths.any fun path => !R.validCache.contains path

/-- The paths that are known not to be valid. -/
def absent (R : Resolver) (paths : List StorePath) : List StorePath :=
  paths.filter fun path => R.validCache[path]? == some false

/-- One of them has not been looked up. -/
def unprobed (R : Resolver) (paths : List StorePath) : Bool :=
  (R.absent paths).any fun path => !R.probeCache.contains path

/-- One of them was looked up and no substituter has it. -/
def refused (R : Resolver) (paths : List StorePath) : Bool :=
  (R.absent paths).any fun path => R.probeCache[path]? == some false

/-- The known ones among the wanted output paths. -/
def pathsOf (wanted : StdSet Str) (outputs : List (Str × Option StorePath)) : List StorePath :=
  outputs.filterMap fun e => if wants wanted e.1 then e.2 else none

/-- All wanted outputs have a path. -/
def allKnown (wanted : StdSet Str) (outputs : List (Str × Option StorePath)) : Bool :=
  outputs.all fun e => !wants wanted e.1 || e.2.isSome

/-- The outputs that a visit looks at. -/
def outputsAt (S : EvalStore) (v : Visit) : List (Str × Option StorePath) :=
  match S.readDerivation v.1 with
  | some drv => drv.outputsAndOptPaths.toList
  | none => []

/-- The paths that a visit looks at. -/
def wantedPaths (S : EvalStore) (v : Visit) : List StorePath := pathsOf v.2 (outputsAt S v)

/-- The known output paths of a derivation. -/
def outputsOf (S : EvalStore) (drvPath : StorePath) : List StorePath :=
  pathsOf ∅ (outputsAt S (drvPath, ∅))

/-- The visit goes on to the inputs. -/
def goesOn (S : EvalStore) (R : Resolver) (v : Visit) : Bool :=
  allKnown v.2 (outputsAt S v) && (R.pends (wantedPaths S v) ||
    (!R.unprobed (wantedPaths S v) && R.refused (wantedPaths S v)))

/-- The visit asks the substituters. -/
def asks (S : EvalStore) (R : Resolver) (v : Visit) : Bool :=
  allKnown v.2 (outputsAt S v) && !R.pends (wantedPaths S v) && R.unprobed (wantedPaths S v)

/-- The attempt does not end with the fast path. -/
def takesSlowPath (R : Resolver) (drv : Drv) : Bool :=
  !allKnown ∅ drv.outputs.toList || (!R.pends (pathsOf ∅ drv.outputs.toList) &&
    !R.unprobed (pathsOf ∅ drv.outputs.toList) && R.refused (pathsOf ∅ drv.outputs.toList))

/-- An edge out of a derivation that `passes` lets the walk leave. -/
def Passes (S : EvalStore) (passes : Visit → Bool) (u v : Visit) : Prop :=
  passes u = true ∧ v ∈ inputs S u.1

/-- The walk over the caches comes from one visit to the other. -/
def Walked (S : EvalStore) (R : Resolver) : Visit → Visit → Prop :=
  Relation.ReflTransGen (Passes S (goesOn S R))

/-- The walk from the visit comes to a derivation with this wanted path. -/
def AsksValidity (S : EvalStore) (R : Resolver) (v : Visit) (path : StorePath) : Prop :=
  ∃ u, Walked S R v u ∧ path ∈ wantedPaths S u

/-- The walk comes to a derivation that asks for this path. -/
def AsksSubstituters (S : EvalStore) (R : Resolver) (v : Visit) (path : StorePath) : Prop :=
  ∃ u, Walked S R v u ∧ asks S R u = true ∧ path ∈ R.absent (wantedPaths S u)

/-- Something is wanted that is in no cache. -/
def Asking (R : Resolver) : Prop :=
  (∃ path ∈ R.wantedValid, path ∉ R.validCache) ∨ ∃ path ∈ R.wanted, path ∉ R.probeCache

/-! ## Parts of an attempt -/

/-- A part of an attempt that may ask for the validity of `V` and for substitutes of
`Q`. -/
structure Probes (V Q : StorePath → Prop) (R R' : Resolver) : Prop where
  validCache : R'.validCache = R.validCache
  probeCache : R'.probeCache = R.probeCache
  keepsValid : ∀ path ∈ R.wantedValid, path ∈ R'.wantedValid
  keeps : ∀ path ∈ R.wanted, path ∈ R'.wanted
  wantedValid : ∀ path ∈ R'.wantedValid, path ∈ R.wantedValid ∨ V path ∧ path ∉ R.validCache
  wanted : ∀ path ∈ R'.wanted, path ∈ R.wanted ∨ Q path ∧ path ∉ R.probeCache
  incomplete : R'.attemptComplete = false → R.attemptComplete = false ∨ R'.Asking

variable {S : EvalStore} {O : Oracles} {R R' R'' : Resolver} {V V' Q Q' : StorePath → Prop}

/-- A known path is that of a wanted output. -/
theorem mem_pathsOf {wanted : StdSet Str} {outputs : List (Str × Option StorePath)}
    {path : StorePath} : path ∈ pathsOf wanted outputs ↔
      ∃ name, wants wanted name = true ∧ (name, some path) ∈ outputs := by
  simp only [pathsOf, List.mem_filterMap, Prod.exists]
  constructor
  · rintro ⟨name, output, hmem, houtput⟩
    split at houtput
    · next hwants => exact ⟨name, hwants, houtput ▸ hmem⟩
    · cases houtput
  · rintro ⟨name, hwants, hmem⟩
    exact ⟨name, some path, hmem, if_pos hwants⟩

/-- A visit looks at outputs of its derivation. -/
theorem wantedPaths_subset {v : Visit} {path : StorePath} (h : path ∈ wantedPaths S v) :
    path ∈ outputsOf S v.1 := by
  obtain ⟨name, -, hmem⟩ := mem_pathsOf.mp h
  exact mem_pathsOf.mpr ⟨name, by simp [wants], hmem⟩

namespace Probes

/-- Nothing was asked for. -/
theorem refl (R : Resolver) : Probes V Q R R :=
  ⟨rfl, rfl, fun _ => id, fun _ => id, fun _ => .inl, fun _ => .inl, .inl⟩

/-- What was open stays open. -/
theorem asking (h : Probes V Q R R') (hR : R.Asking) : R'.Asking := by
  rcases hR with ⟨path, hpath, hnew⟩ | ⟨path, hpath, hnew⟩
  · exact .inl ⟨path, h.keepsValid path hpath, h.validCache ▸ hnew⟩
  · exact .inr ⟨path, h.keeps path hpath, h.probeCache ▸ hnew⟩

/-- One part after the other. -/
theorem trans (h : Probes V Q R R') (h' : Probes V Q R' R'') : Probes V Q R R'' where
  validCache := h'.validCache.trans h.validCache
  probeCache := h'.probeCache.trans h.probeCache
  keepsValid := fun path hpath => h'.keepsValid path (h.keepsValid path hpath)
  keeps := fun path hpath => h'.keeps path (h.keeps path hpath)
  wantedValid := by
    intro path hpath
    rcases h'.wantedValid path hpath with hold | hnew
    · exact h.wantedValid path hold
    · exact .inr (h.validCache ▸ hnew)
  wanted := by
    intro path hpath
    rcases h'.wanted path hpath with hold | hnew
    · exact h.wanted path hold
    · exact .inr (h.probeCache ▸ hnew)
  -- what the first part left open is still open after the second
  incomplete := fun hc => (h'.incomplete hc).elim
    (fun hc' => (h.incomplete hc').imp_right h'.asking) .inr

/-- The parts may be said to ask for more. -/
theorem mono (hV : ∀ path, V path → V' path)
    (hQ : ∀ path, Q path → path ∉ R.probeCache → Q' path) (h : Probes V Q R R') :
    Probes V' Q' R R' :=
  { h with
    wantedValid := fun path hpath => (h.wantedValid path hpath).imp_right fun hnew =>
      ⟨hV path hnew.1, hnew.2⟩
    wanted := fun path hpath => (h.wanted path hpath).imp_right fun hnew =>
      ⟨hQ path hnew.1 hnew.2, hnew.2⟩ }

/-- The walk is the same before and after. -/
theorem goesOn (h : Probes V Q R R') : Resolver.goesOn S R' = Resolver.goesOn S R := by
  funext v
  simp only [Resolver.goesOn, pends, unprobed, refused, absent, h.validCache, h.probeCache]

/-- So the questions about validity are the same before and after. -/
theorem asksValidity (h : Probes V Q R R') : AsksValidity S R' = AsksValidity S R := by
  unfold AsksValidity Walked
  rw [h.goesOn]

/-- And so are those for the substituters. -/
theorem asksSubstituters (h : Probes V Q R R') :
    AsksSubstituters S R' = AsksSubstituters S R := by
  unfold AsksSubstituters Walked
  rw [h.goesOn]
  simp only [asks, pends, unprobed, absent, h.validCache, h.probeCache]

end Probes

/-- `probeValidity` wants what the cache does not say, and says what it does. -/
theorem probeValidity_probes {path : StorePath} {valid : Option Bool}
    (h : R.probeValidity path = (valid, R')) :
    Probes (· = path) Q R R' ∧ valid = R.validCache[path]? := by
  rw [probeValidity] at h
  split at h
  · -- the cache answers
    next cached hcached =>
    obtain ⟨rfl, rfl⟩ := Prod.mk.inj h
    exact ⟨.refl R, hcached.symm⟩
  · -- the path is noted for the next batch
    next hnone =>
    obtain ⟨rfl, rfl⟩ := Prod.mk.inj h
    have hnew : path ∉ R.validCache := StdMap.not_mem_iff.mpr hnone
    have hmem : ∀ p, p ∈ R.wantedValid.insert path ↔ p = path ∨ p ∈ R.wantedValid := by
      intro p
      rw [Std.ExtTreeSet.mem_insert, Std.LawfulEqCmp.compare_eq_iff_eq, eq_comm]
    refine ⟨⟨rfl, rfl, fun p hp => (hmem p).mpr (.inr hp), fun _ => id, fun p hp => ?_,
      fun _ => .inl, fun _ => .inr (.inl ⟨path, (hmem path).mpr (.inl rfl), hnew⟩)⟩, hnone.symm⟩
    rcases (hmem p).mp hp with rfl | hold
    · exact .inr ⟨rfl, hnew⟩
    · exact .inl hold

/-- Reading a derivation asks nothing. -/
theorem readDerivation_probes {drvPath : StorePath} {drv : Derivation}
    (h : R.readDerivation S drvPath = .ok (drv, R')) : Probes V Q R R' := by
  rw [readDerivation] at h
  split at h
  · obtain ⟨-, rfl⟩ := Prod.mk.inj (Except.ok.inj h)
    exact .refl R
  · split at h
    · obtain ⟨-, rfl⟩ := Prod.mk.inj (Except.ok.inj h)
      exact ⟨rfl, rfl, fun _ => id, fun _ => id, fun _ => .inl, fun _ => .inl, .inl⟩
    · cases h

/-- What the loop over outputs finds, unless it ends early. -/
structure Looked (R : Resolver) (wanted : StdSet Str) (outputs : List (Str × Option StorePath))
    (result out : MissingOutputs) : Prop where
  known : allKnown wanted outputs = true
  complete : out.complete = (result.complete && !R.pends (pathsOf wanted outputs))
  missing : out.missing = result.missing ++ R.absent (pathsOf wanted outputs)

/-- The caches about validity are all that the loop over outputs sees. -/
theorem Looked.of_validCache {wanted : StdSet Str} {outputs : List (Str × Option StorePath)}
    {result out : MissingOutputs} (hsame : R'.validCache = R.validCache)
    (h : Looked R' wanted outputs result out) : Looked R wanted outputs result out :=
  ⟨h.known, by rw [h.complete, pends, pends, hsame], by rw [h.missing, absent, absent, hsame]⟩

/-- The loop over outputs asks for the validity of the wanted ones. -/
theorem missingFrom_probes {wanted : StdSet Str} {outputs : List (Str × Option StorePath)}
    {result out : MissingOutputs} (h : missingFrom wanted outputs R result = (out, R')) :
    Probes (· ∈ pathsOf wanted outputs) Q R R' ∧
      (out.known = true → Looked R wanted outputs result out) := by
  induction outputs generalizing R result with
  | nil =>
    obtain ⟨rfl, rfl⟩ := Prod.mk.inj h
    refine ⟨.refl R, fun _ => ⟨rfl, ?_, ?_⟩⟩
    · simp [pathsOf, pends]
    · simp [pathsOf, absent]
  | cons e outputs ih =>
    obtain ⟨name, path⟩ := e
    -- the test of the source, in terms of `wants`
    have hskip : (!wanted.isEmpty && !wanted.contains name) = !wants wanted name := by
      rw [wants, Bool.not_or]
    rw [missingFrom.eq_def] at h
    dsimp only at h
    rw [hskip] at h
    cases hwants : wants wanted name with
    -- an output that is not wanted is skipped
    | false =>
      have hpaths : pathsOf wanted ((name, path) :: outputs) = pathsOf wanted outputs := by
        simp [pathsOf, hwants]
      rw [hwants, if_pos (by decide)] at h
      obtain ⟨hprobes, hlooked⟩ := ih h
      rw [hpaths]
      refine ⟨hprobes, fun hknown => ?_⟩
      obtain ⟨hall, hcomplete, hmissing⟩ := hlooked hknown
      exact ⟨by simpa [allKnown, hwants] using hall, hpaths ▸ hcomplete, hpaths ▸ hmissing⟩
    | true =>
    rw [hwants, if_neg (by decide)] at h
    cases path with
    -- an output without a path ends the loop
    | none =>
      obtain ⟨rfl, rfl⟩ := Prod.mk.inj h
      exact ⟨.refl R, fun hknown => absurd hknown (by simp)⟩
    | some path =>
    have hpaths : pathsOf wanted ((name, some path) :: outputs) =
        path :: pathsOf wanted outputs := by
      simp [pathsOf, hwants]
    rw [hpaths]
    dsimp only at h
    cases hprobe : R.probeValidity path with
    | mk valid R₁ =>
    obtain ⟨hpath, hvalid⟩ : Probes (· = path) Q R R₁ ∧ valid = R.validCache[path]? :=
      probeValidity_probes hprobe
    -- the output itself is asked about first
    have hstart : Probes (· ∈ path :: pathsOf wanted outputs) Q R R₁ :=
      hpath.mono (fun p hp => List.mem_cons.mpr (.inl hp)) fun _ h _ => h
    -- one more output, with what the cache says about it
    have hcons : ∀ {result₁ : MissingOutputs},
        missingFrom wanted outputs R₁ result₁ = (out, R') →
        result₁.complete = (result.complete && R.validCache.contains path) →
        result₁.missing = result.missing ++ R.absent [path] →
        Probes (· ∈ path :: pathsOf wanted outputs) Q R R' ∧
          (out.known = true → Looked R wanted ((name, some path) :: outputs) result out) := by
      intro result₁ hrest hcomplete₁ hmissing₁
      obtain ⟨hprobes, hlooked⟩ := ih hrest
      refine ⟨hstart.trans (hprobes.mono (fun p hp => List.mem_cons_of_mem _ hp) fun _ h _ => h),
        fun hknown => ?_⟩
      obtain ⟨hall, hcomplete, hmissing⟩ := (hlooked hknown).of_validCache hpath.validCache
      refine ⟨?_, ?_, ?_⟩
      · rw [allKnown, List.all_cons]
        exact Bool.and_eq_true_iff.mpr ⟨by simp, hall⟩
      · rw [hcomplete, hcomplete₁, hpaths, pends, pends, List.any_cons, Bool.not_or, Bool.not_not,
          Bool.and_assoc]
      · rw [hmissing, hmissing₁, hpaths, List.append_assoc, absent, absent, absent,
          ← List.filter_append, List.singleton_append]
    rw [hprobe] at h
    rw [Std.ExtTreeMap.contains_eq_isSome_getElem?, ← hvalid, absent, List.filter_singleton,
      ← hvalid] at hcons
    cases valid with
    | none => exact hcons h (by simp) (by simp)
    | some valid =>
      cases valid with
      | true => exact hcons h (by simp) (by simp)
      | false => exact hcons h (by simp) (by simp)

/-- Only an output without a path makes the loop say that one is unknown. -/
theorem missingFrom_allKnown {wanted : StdSet Str} {outputs : List (Str × Option StorePath)}
    {result out : MissingOutputs} (h : missingFrom wanted outputs R result = (out, R'))
    (hall : allKnown wanted outputs = true) : out.known = result.known := by
  induction outputs generalizing R result with
  | nil =>
    obtain ⟨rfl, rfl⟩ := Prod.mk.inj h
    rfl
  | cons e outputs ih =>
    obtain ⟨name, path⟩ := e
    have hskip : (!wanted.isEmpty && !wanted.contains name) = !wants wanted name := by
      rw [wants, Bool.not_or]
    rw [allKnown, List.all_cons, Bool.and_eq_true_iff] at hall
    obtain ⟨hhead, hall⟩ := hall
    rw [missingFrom.eq_def] at h
    dsimp only at h hhead
    rw [hskip] at h
    cases hwants : wants wanted name with
    | false =>
      rw [hwants, if_pos (by decide)] at h
      exact ih h hall
    | true =>
    rw [hwants, if_neg (by decide)] at h
    cases path with
    -- a wanted output without a path is excluded
    | none =>
      rw [hwants] at hhead
      cases hhead
    | some path =>
      -- whatever is known about its validity
      dsimp only at h
      split at h <;>
      · have hrest := ih h hall
        exact hrest

/-- The loop over missing paths asks the substituters for these. -/
theorem foldl_probePath_probes (paths : List StorePath) (acc : Bool × Bool × Resolver) :
    Probes V (· ∈ paths) acc.2.2 (paths.foldl probePath acc).2.2 := by
  induction paths generalizing acc with
  | nil => exact .refl _
  | cons path paths ih =>
    obtain ⟨all, complete, R⟩ := acc
    have hrest : ∀ acc : Bool × Bool × Resolver, Probes V (· ∈ path :: paths) acc.2.2
        (paths.foldl probePath acc).2.2 := fun acc =>
      (ih acc).mono (fun _ => id) fun p hp _ => List.mem_cons_of_mem _ hp
    rw [List.foldl_cons, probePath]
    split
    · -- an answer that is cached is only taken into account
      next cached _ => exact hrest (all && cached, complete, R)
    · -- a path that was not looked up is noted
      next hnone =>
      refine Probes.trans ?_ (hrest (all, false, _))
      have hnew : path ∉ R.probeCache := StdMap.not_mem_iff.mpr hnone
      have hmem : ∀ p, p ∈ R.wanted.insert path ↔ p = path ∨ p ∈ R.wanted := by
        intro p
        rw [Std.ExtTreeSet.mem_insert, Std.LawfulEqCmp.compare_eq_iff_eq, eq_comm]
      refine ⟨rfl, rfl, fun _ => id, fun p hp => (hmem p).mpr (.inr hp), fun _ => .inl,
        fun p hp => ?_, fun _ => .inr (.inr ⟨path, (hmem path).mpr (.inl rfl), hnew⟩)⟩
      rcases (hmem p).mp hp with rfl | hold
      · exact .inr ⟨List.mem_cons_self .., hnew⟩
      · exact .inl hold

/-- `allSubstitutable` asks for what it is given. -/
theorem allSubstitutable_probes {paths : List StorePath} {all : Option Bool}
    (h : R.allSubstitutable paths = (all, R')) : Probes V (· ∈ paths) R R' := by
  obtain ⟨-, rfl⟩ := Prod.mk.inj h
  exact foldl_probePath_probes paths (true, true, R)

/-- A path that was not looked up is wanted. -/
theorem foldl_probePath_wanted {paths : List StorePath} (acc : Bool × Bool × Resolver)
    {path : StorePath} (hpath : path ∈ paths) (hnew : path ∉ acc.2.2.probeCache) :
    path ∈ (paths.foldl probePath acc).2.2.wanted := by
  induction paths generalizing acc with
  | nil => cases hpath
  | cons p paths ih =>
    obtain ⟨all, complete, R⟩ := acc
    change path ∉ R.probeCache at hnew
    rw [List.foldl_cons, probePath]
    -- the path itself is noted, and the rest of the loop keeps it
    rcases List.mem_cons.mp hpath with rfl | hpath
    · rw [StdMap.not_mem_iff.mp hnew]
      refine (foldl_probePath_probes (V := fun _ => True) paths _).keeps path ?_
      exact Std.ExtTreeSet.mem_insert_self
    · split
      · exact ih _ hpath hnew
      · exact ih _ hpath hnew

/-- So it is wanted after `allSubstitutable`. -/
theorem allSubstitutable_wanted {paths : List StorePath} {all : Option Bool} {path : StorePath}
    (h : R.allSubstitutable paths = (all, R')) (hpath : path ∈ paths)
    (hnew : path ∉ R.probeCache) : path ∈ R'.wanted := by
  obtain ⟨-, rfl⟩ := Prod.mk.inj h
  exact foldl_probePath_wanted (true, true, R) hpath hnew

/-- The answer about all paths, from the answers about each. -/
theorem foldl_probePath_answers (paths : List StorePath) (acc : Bool × Bool × Resolver)
    (hc : (paths.foldl probePath acc).2.1 = true) :
    (∀ path ∈ paths, acc.2.2.probeCache.contains path = true) ∧
      (paths.foldl probePath acc).1 =
        (acc.1 && !paths.any fun path => acc.2.2.probeCache[path]? == some false) := by
  induction paths generalizing acc with
  | nil => exact ⟨fun _ hmem => absurd hmem List.not_mem_nil, by simp⟩
  | cons path paths ih =>
    obtain ⟨all, complete, R⟩ := acc
    rw [List.foldl_cons, probePath] at hc ⊢
    cases hcached : R.probeCache[path]? with
    | none =>
      rw [hcached] at hc
      -- an answer that is missing leaves the loop incomplete
      cases (foldl_probePath_complete _ _ hc).2
    | some cached =>
      rw [hcached] at hc
      obtain ⟨hcontains, hall⟩ := ih (all && cached, complete, R) hc
      refine ⟨fun p hp => ?_, ?_⟩
      · rcases List.mem_cons.mp hp with rfl | hp
        · rw [Std.ExtTreeMap.contains_eq_isSome_getElem?, hcached]
          rfl
        · exact hcontains p hp
      · rw [hall, List.any_cons, hcached]
        cases cached <;> simp

/-- An answer about all of them needs every path to be looked up. -/
theorem allSubstitutable_answers {paths : List StorePath} {all : Bool}
    (h : R.allSubstitutable paths = (some all, R')) :
    (∀ path ∈ paths, R.probeCache.contains path = true) ∧
      all = !paths.any fun path => R.probeCache[path]? == some false := by
  obtain ⟨hall, rfl⟩ := Prod.mk.inj h
  by_cases hc : (paths.foldl probePath (true, true, R)).2.1 = true
  · rw [if_pos hc] at hall
    obtain ⟨hcontains, hall'⟩ := foldl_probePath_answers paths (true, true, R) hc
    exact ⟨hcontains, by rw [← Option.some.inj hall, hall', Bool.true_and]⟩
  · rw [if_neg hc] at hall
    cases hall

/-- An answer that is missing is that about a path which has not been looked up. -/
theorem foldl_probePath_gap (paths : List StorePath) (acc : Bool × Bool × Resolver)
    (hstart : acc.2.1 = true) (h : (paths.foldl probePath acc).2.1 = false) :
    ∃ path ∈ paths, path ∉ acc.2.2.probeCache := by
  induction paths generalizing acc with
  | nil => cases hstart.symm.trans h
  | cons path paths ih =>
    obtain ⟨all, complete, R⟩ := acc
    rw [List.foldl_cons, probePath] at h
    cases hcached : R.probeCache[path]? with
    | none => exact ⟨path, List.mem_cons_self .., StdMap.not_mem_iff.mpr hcached⟩
    | some cached =>
      rw [hcached] at h
      obtain ⟨p, hp, hnew⟩ := ih (all && cached, complete, R) hstart h
      exact ⟨p, List.mem_cons_of_mem _ hp, hnew⟩

/-- The answer about what is absent, in terms of the caches it was found in. -/
theorem allSubstitutable_absent {paths : List StorePath} {all : Bool}
    (hsame : R'.probeCache = R.probeCache)
    (h : R'.allSubstitutable (R.absent paths) = (some all, R'')) :
    R.unprobed paths = false ∧ R.refused paths = !all := by
  obtain ⟨hprobed, hall⟩ := allSubstitutable_answers h
  rw [hsame] at hprobed hall
  refine ⟨List.any_eq_false.mpr fun path hpath => ?_, ?_⟩
  · simp [hprobed path hpath]
  · rw [hall, Bool.not_not, refused]

/-- Without an answer, one of the absent paths has not been looked up. -/
theorem allSubstitutable_gap {paths : List StorePath} (hsame : R'.probeCache = R.probeCache)
    (h : R'.allSubstitutable (R.absent paths) = (none, R'')) : R.unprobed paths = true := by
  obtain ⟨hgap, -⟩ := Prod.mk.inj h
  have hincomplete : ((R.absent paths).foldl probePath (true, true, R')).2.1 = false := by
    by_contra hc
    rw [if_pos (by simpa using hc)] at hgap
    cases hgap
  obtain ⟨path, hpath, hnew⟩ := foldl_probePath_gap _ _ rfl hincomplete
  refine List.any_eq_true.mpr ⟨path, hpath, ?_⟩
  change path ∉ R'.probeCache at hnew
  rw [hsame] at hnew
  rw [Bool.not_eq_true', ← Bool.not_eq_true]
  exact hnew

/-! ## A visit -/

/-- The substitutes that the visit itself asks for. -/
def Asks (S : EvalStore) (R : Resolver) (v : Visit) (path : StorePath) : Prop :=
  asks S R v = true ∧ path ∈ R.absent (wantedPaths S v)

/-- What a visit of an attempt can do. -/
inductive AttemptVisit (S : EvalStore) (O : Oracles) (fuel : Nat) (v : Visit) (t : Traversal)
    (R : Resolver) : Traversal → Resolver → Prop where
  | again : v.1 ∈ t.visited → AttemptVisit S O fuel v t R t R
  | ends {t' : Traversal} {R' : Resolver} : v.1 ∉ t.visited → goesOn S R v = false →
      t'.visited = (t.enter v.1).visited → Probes (· ∈ wantedPaths S v) (Asks S R v) R R' →
      (∀ path, Asks S R v path → path ∉ R.probeCache → path ∈ R'.wanted) →
      AttemptVisit S O fuel v t R t' R'
  | goes {t₁ t₂ t' : Traversal} {R₁ R' : Resolver} : v.1 ∉ t.visited → goesOn S R v = true →
      R₁.Agrees S O → Probes (· ∈ wantedPaths S v) (Asks S R v) R R₁ →
      t₁.visited = (t.enter v.1).visited →
      (inputs S v.1).foldlM (fun state input => visitDrv S fuel input.1 input.2 state) (t₁, R₁) =
        .ok (t₂, R') →
      t'.visited = t₂.visited → AttemptVisit S O fuel v t R t' R'

/-- A visit begins with the validity of the wanted outputs. -/
theorem visit_begins {v : Visit} {drv : Derivation} {outputs : MissingOutputs} {R₁ R₂ : Resolver}
    (hR : R.Agrees S O) (hread : R.readDerivation S v.1 = .ok (drv, R₁))
    (hmissing : R₁.missingOutputs drv v.2 = (outputs, R₂)) :
    R₂.Agrees S O ∧ Probes (· ∈ wantedPaths S v) Q R R₂ ∧
      (outputs.known = true → allKnown v.2 (outputsAt S v) = true ∧
        outputs.complete = (!R.pends (wantedPaths S v)) ∧
        outputs.missing = R.absent (wantedPaths S v)) ∧
      (outputs.known = false → allKnown v.2 (outputsAt S v) = false) := by
  have hread₁ : Probes (· ∈ wantedPaths S v) Q R R₁ := readDerivation_probes hread
  obtain ⟨hattempt, hstored⟩ := readDerivation_spec hR hread
  have houtputs : outputsAt S v = drv.outputsAndOptPaths.toList := by rw [outputsAt, hstored]
  obtain ⟨hprobes, hlooked⟩ := missingFrom_probes hmissing
  rw [← houtputs] at hprobes hlooked
  refine ⟨(missingFrom_spec hattempt.agrees hmissing).agrees, hread₁.trans hprobes,
    fun hknown => ?_, fun hunknown => ?_⟩
  · -- the loop starts with nothing missing
    obtain ⟨hall, hcomplete, hfound⟩ := (hlooked hknown).of_validCache hread₁.validCache
    exact ⟨hall, hcomplete.trans (Bool.true_and _), hfound.trans (List.nil_append _)⟩
  · by_contra hall
    rw [missingFrom_allKnown hmissing (houtputs ▸ (by simpa using hall))] at hunknown
    cases hunknown

/-- What is missing is asked for, if it is not known. -/
theorem visit_substitutes {v : Visit} {all : Option Bool} {R₂ R₃ : Resolver}
    (hprobes : Probes V (Asks S R v) R R₂)
    (hall : allKnown v.2 (outputsAt S v) = true) (hpends : R.pends (wantedPaths S v) = false)
    (h : R₂.allSubstitutable (R.absent (wantedPaths S v)) = (all, R₃)) :
    Probes V (Asks S R v) R R₃ := by
  refine hprobes.trans ((allSubstitutable_probes h).mono (fun _ => id) fun path hpath hnew => ?_)
  rw [hprobes.probeCache] at hnew
  refine ⟨?_, hpath⟩
  have hunprobed : R.unprobed (wantedPaths S v) = true := by
    refine List.any_eq_true.mpr ⟨path, hpath, ?_⟩
    rw [Bool.not_eq_true', ← Bool.not_eq_true]
    exact hnew
  rw [asks, hall, hpends, hunprobed]
  rfl

/-- A visit that goes on does not ask. -/
theorem asks_of_goesOn {v : Visit} (h : goesOn S R v = true) : asks S R v = false := by
  unfold goesOn at h
  unfold asks
  cases hpends : R.pends (wantedPaths S v) with
  | true => simp
  | false =>
    rw [hpends, Bool.false_or, Bool.and_eq_true, Bool.and_eq_true] at h
    have hprobed : R.unprobed (wantedPaths S v) = false := by simpa using h.2.1
    rw [hprobed, Bool.and_false]

/-- **What a visit can do.** The caches before it decide whether it goes on. -/
theorem visitDrv_cases {fuel : Nat} {drvPath : StorePath} {wanted : StdSet Str}
    {t t' : Traversal} (hR : R.Agrees S O)
    (h : visitDrv S (fuel + 1) drvPath wanted (t, R) = .ok (t', R')) :
    AttemptVisit S O fuel (drvPath, wanted) t R t' R' := by
  rw [visitDrv] at h
  split at h
  · next hvisited =>
    obtain ⟨rfl, rfl⟩ := Prod.mk.inj (Except.ok.inj h)
    exact .again hvisited
  next hfresh =>
  obtain ⟨⟨drv, R₁⟩, hread, hrest⟩ := bind_eq_ok.mp h
  clear h
  have hinputs : inputs S drvPath = drv.inputDrvs.toList := by
    rw [inputs, (readDerivation_spec hR hread).2]
  dsimp only at hrest
  cases hmissing : R₁.missingOutputs drv wanted with
  | mk outputs R₂ =>
  rw [hmissing] at hrest
  obtain ⟨hR₂, hstart, hlooked, hgap⟩ := visit_begins (v := (drvPath, wanted))
    (Q := Asks S R (drvPath, wanted)) hR hread hmissing
  dsimp only at hrest
  split at hrest
  · -- an output without a path
    next hunknown =>
    obtain ⟨rfl, rfl⟩ := Prod.mk.inj (Except.ok.inj hrest)
    have hall := hgap (by simpa using hunknown)
    refine .ends hfresh ?_ rfl hstart fun path hasks => ?_
    · rw [goesOn, hall]
      rfl
    · have hasks := hasks.1
      rw [asks, hall] at hasks
      cases hasks
  next hknown =>
  obtain ⟨hall, hcomplete, hfound⟩ := hlooked (by simpa using hknown)
  split at hrest
  · -- the walk goes on before the answers are there
    next hpending =>
    have hpends : R.pends (wantedPaths S (drvPath, wanted)) = true := by
      simpa [hcomplete] using hpending
    refine .goes hfresh ?_ hR₂ hstart rfl (hinputs ▸ hrest) rfl
    rw [goesOn, hall, hpends]
    rfl
  next hpending =>
  have hpends : R.pends (wantedPaths S (drvPath, wanted)) = false := by
    simpa [hcomplete] using hpending
  rw [hfound] at hrest
  split at hrest
  · next hempty =>
    obtain ⟨rfl, rfl⟩ := Prod.mk.inj (Except.ok.inj hrest)
    have hnone : R.absent (wantedPaths S (drvPath, wanted)) = [] := List.isEmpty_iff.mp hempty
    refine .ends hfresh ?_ rfl hstart fun path hasks => ?_
    · rw [goesOn, hpends, refused, hnone, List.any_nil, Bool.and_false, Bool.or_false,
        Bool.and_false]
    · have hmem := hasks.2
      rw [hnone] at hmem
      cases hmem
  -- what is asked for and has not been looked up is wanted
  have hasked : ∀ {all R₃}, R₂.allSubstitutable (R.absent (wantedPaths S (drvPath, wanted))) =
      (all, R₃) → ∀ path, Asks S R (drvPath, wanted) path → path ∉ R.probeCache →
      path ∈ R₃.wanted := fun hall₃ path hasks hnew =>
    allSubstitutable_wanted hall₃ hasks.2 (hstart.probeCache ▸ hnew)
  split at hrest
  · next hall₃ =>
    obtain ⟨rfl, rfl⟩ := Prod.mk.inj (Except.ok.inj hrest)
    refine .ends hfresh ?_ rfl (visit_substitutes hstart hall hpends hall₃) (hasked hall₃)
    rw [goesOn, hpends, allSubstitutable_gap hstart.probeCache hall₃]
    simp
  · next hall₃ =>
    obtain ⟨rfl, rfl⟩ := Prod.mk.inj (Except.ok.inj hrest)
    refine .ends hfresh ?_ rfl (visit_substitutes hstart hall hpends hall₃) (hasked hall₃)
    rw [goesOn, hpends, (allSubstitutable_absent hstart.probeCache hall₃).2]
    simp
  · -- it has to be built
    next R₃ hall₃ =>
    obtain ⟨⟨t₄, R₄⟩, hfold, hrest⟩ := bind_eq_ok.mp hrest
    obtain ⟨rfl, rfl⟩ := Prod.mk.inj (Except.ok.inj hrest)
    rw [← hinputs] at hfold
    refine .goes hfresh ?_ (allSubstitutable_spec hR₂ hall₃).agrees
      (visit_substitutes hstart hall hpends hall₃) rfl hfold rfl
    -- everything was looked up, and something is refused
    obtain ⟨hunprobed, hrefused⟩ := allSubstitutable_absent hstart.probeCache hall₃
    rw [goesOn, hall, hpends, hunprobed, hrefused]
    rfl

/-! ## The walk -/

/-- What an input asks for is asked for on behalf of the derivation. -/
theorem AsksValidity.input {u v : Visit} {path : StorePath} (hpasses : Passes S (goesOn S R) u v)
    (h : AsksValidity S R v path) : AsksValidity S R u path :=
  h.imp fun _ hv => ⟨.head hpasses hv.1, hv.2⟩

/-- So is what an input asks the substituters for. -/
theorem AsksSubstituters.input {u v : Visit} {path : StorePath}
    (hpasses : Passes S (goesOn S R) u v) (h : AsksSubstituters S R v path) :
    AsksSubstituters S R u path :=
  h.imp fun _ hv => ⟨.head hpasses hv.1, hv.2⟩

/-- The visits of the inputs ask what the walk from the derivation comes to. -/
theorem visitInputs_probes {f : Traversal × Resolver → Visit → Except Error (Traversal × Resolver)}
    {v : Visit} (hf : ∀ {s s'} edge, edge ∈ inputs S v.1 → s.2.Agrees S O → f s edge = .ok s' →
      s'.2.Agrees S O ∧
        Probes (AsksValidity S s.2 edge) (AsksSubstituters S s.2 edge) s.2 s'.2)
    {s s' : Traversal × Resolver} (hs : s.2.Agrees S O) (hgoes : goesOn S s.2 v = true)
    (h : (inputs S v.1).foldlM f s = .ok s') :
    Probes (AsksValidity S s.2 v) (AsksSubstituters S s.2 v) s.2 s'.2 := by
  -- the walk goes on for all inputs alike, as the caches stay
  have hloop := foldlM_related
    (R := fun s s' => s.2.Agrees S O → goesOn S s.2 v = true → s'.2.Agrees S O ∧
      Probes (AsksValidity S s.2 v) (AsksSubstituters S s.2 v) s.2 s'.2)
    (fun s hs _ => ⟨hs, .refl s.2⟩)
    (fun hsm hms hs hgoes => by
      obtain ⟨hm, hprobes⟩ := hsm hs hgoes
      obtain ⟨hs', hprobes'⟩ := hms hm (hprobes.goesOn ▸ hgoes)
      rw [hprobes.asksValidity, hprobes.asksSubstituters] at hprobes'
      exact ⟨hs', hprobes.trans hprobes'⟩)
    (fun edge hedge hstep hs hgoes => by
      obtain ⟨hs', hprobes⟩ := hf edge hedge hs hstep
      exact ⟨hs', hprobes.mono (fun _ hp => hp.input ⟨hgoes, hedge⟩)
        fun _ hp _ => hp.input ⟨hgoes, hedge⟩⟩) h
  exact (hloop hs hgoes).2

/-- What a visit itself asks for. -/
theorem Probes.visit {v : Visit} (h : Probes (· ∈ wantedPaths S v) (Asks S R v) R R') :
    Probes (AsksValidity S R v) (AsksSubstituters S R v) R R' :=
  h.mono (fun _ hpath => ⟨v, .refl, hpath⟩) fun _ hasks _ => ⟨v, .refl, hasks⟩

/-- **A visit asks about what the walk comes to.** -/
theorem visitDrv_probes {fuel : Nat} {drvPath : StorePath} {wanted : StdSet Str}
    {t t' : Traversal} (hR : R.Agrees S O)
    (h : visitDrv S fuel drvPath wanted (t, R) = .ok (t', R')) :
    Probes (AsksValidity S R (drvPath, wanted)) (AsksSubstituters S R (drvPath, wanted)) R R' := by
  -- the inputs are visited with less fuel
  induction fuel generalizing drvPath wanted t t' R R' with
  | zero => cases h
  | succ fuel ih =>
    match visitDrv_cases hR h with
    | .again _ => exact .refl R
    | .ends _ _ _ hprobes _ => exact hprobes.visit
    -- its own questions, and then those of the inputs
    | .goes _ hgoes hR₁ hprobes _ hfold _ =>
      have hstart := hprobes.visit
      have hinputs := visitInputs_probes
        (fun edge _ hs hvisit => ⟨(visitDrv_direct hs hvisit).agrees, ih hs hvisit⟩) hR₁
        (hstart.goesOn ▸ hgoes) hfold
      rw [hstart.asksValidity, hstart.asksSubstituters] at hinputs
      exact hstart.trans hinputs

/-! ## A whole attempt -/

/-- What an attempt for a job may ask the build store. -/
def JobAsksValidity (S : EvalStore) (R : Resolver) (drv : Drv) (path : StorePath) : Prop :=
  path ∈ pathsOf ∅ drv.outputs.toList ∨
    takesSlowPath R drv = true ∧ AsksValidity S R (drv.drvPath, ∅) path

/-- What an attempt for a job may ask the substituters. -/
def JobAsksSubstituters (S : EvalStore) (R : Resolver) (drv : Drv) (path : StorePath) : Prop :=
  path ∈ pathsOf ∅ drv.outputs.toList ∨
    takesSlowPath R drv = true ∧ AsksSubstituters S R (drv.drvPath, ∅) path

/-- The slow path asks what the walk from the job's derivation comes to. -/
theorem slowPath_probes (hR : R.Agrees S O) {drv drv' : Drv} {done : Bool}
    (h : R.slowPath S drv = .ok (done, drv', R')) :
    Probes (AsksValidity S R (drv.drvPath, ∅)) (AsksSubstituters S R (drv.drvPath, ∅)) R R' ∧
      (done = false → R'.attemptComplete = false) := by
  rw [slowPath] at h
  obtain ⟨⟨t, R₁⟩, hvisit, hrest⟩ := bind_eq_ok.mp h
  have hvisit := visitDrv_probes hR hvisit
  dsimp only at hrest
  -- the attempt gives a result if all answers were there
  split at hrest
  · next hincomplete =>
    obtain ⟨-, -, rfl⟩ := result_inj hrest
    exact ⟨hvisit, fun _ => by simpa using hincomplete⟩
  · obtain ⟨rfl, -, rfl⟩ := result_inj hrest
    exact ⟨hvisit, by simp⟩

/-- A loop over outputs that is not complete has asked for one. -/
theorem missingFrom_pending {wanted : StdSet Str} {outputs : List (Str × Option StorePath)}
    {out : MissingOutputs} (hR : R.Agrees S O)
    (h : missingFrom wanted outputs R {} = (out, R')) (hknown : out.known = true)
    (hpending : out.complete = false) : R'.attemptComplete = false := by
  by_contra hc
  -- otherwise it is the direct loop, which is always complete
  obtain ⟨-, hfound⟩ := (missingFrom_spec hR h).complete (by simpa using hc)
  obtain ⟨missing, -, rfl⟩ := hfound.missing (by simp [hknown])
  cases hpending

/-- **What an attempt is.** It ends on the fast path, having looked at the outputs of the job
only, or takes the slow one. -/
theorem tryResolve_paths {drv drv' : Drv} {done : Bool} (hR : R.Agrees S O)
    (hV : ∀ path ∈ pathsOf ∅ drv.outputs.toList, V path)
    (hQ : ∀ path ∈ pathsOf ∅ drv.outputs.toList, Q path)
    (h : R.tryResolve S drv = .ok (done, drv', R')) :
    (takesSlowPath R drv = false ∧ Probes V Q { R with attemptComplete := true } R' ∧
        (done = false → R'.attemptComplete = false)) ∨
      takesSlowPath R drv = true ∧ ∃ R₂ : Resolver, R₂.Agrees S O ∧
        Probes V Q { R with attemptComplete := true } R₂ ∧
        R₂.slowPath S drv = .ok (done, drv', R') := by
  have hbegin : Agrees S O { R with attemptComplete := true } := ⟨hR.valid, hR.probe, hR.drv⟩
  rw [tryResolve] at h
  dsimp only at h
  -- both paths begin with the outputs of the job
  cases hjob : missingFrom ∅ drv.outputs.toList { R with attemptComplete := true } {} with
  | mk job R₁ =>
  rw [hjob] at h
  have hfound := missingFrom_spec hbegin hjob
  obtain ⟨hprobes, hlooked⟩ := missingFrom_probes hjob
  have hstart : Probes V Q { R with attemptComplete := true } R₁ :=
    hprobes.mono hV fun _ hp _ => hp
  dsimp only at h
  split at h
  · next hunknown =>
    refine .inr ⟨?_, R₁, hfound.agrees, hstart, h⟩
    have hall : allKnown ∅ drv.outputs.toList = false := by
      by_contra hall
      rw [missingFrom_allKnown hjob (by simpa using hall)] at hunknown
      cases hunknown
    rw [takesSlowPath, hall]
    rfl
  next hknown =>
  obtain ⟨hall, hcomplete, hmissing⟩ := hlooked (by simpa using hknown)
  change job.complete = (true && !R.pends (pathsOf ∅ drv.outputs.toList)) at hcomplete
  change job.missing = [] ++ R.absent (pathsOf ∅ drv.outputs.toList) at hmissing
  rw [Bool.true_and] at hcomplete
  rw [List.nil_append] at hmissing
  split at h
  · -- the validity of an output is still open
    next hpending =>
    obtain ⟨-, -, rfl⟩ := result_inj h
    refine .inl ⟨?_, hstart, fun _ => missingFrom_pending hbegin hjob (by simpa using hknown)
      (by simpa using hpending)⟩
    have hpends : R.pends (pathsOf ∅ drv.outputs.toList) = true := by
      simpa [hcomplete] using hpending
    rw [takesSlowPath, hall, hpends]
    rfl
  next hpending =>
  have hpends : R.pends (pathsOf ∅ drv.outputs.toList) = false := by
    rw [hcomplete] at hpending
    simpa using hpending
  rw [hmissing] at h
  -- the fast path asks about outputs of the job
  have hfast : ∀ {all R₂}, R₁.allSubstitutable (R.absent (pathsOf ∅ drv.outputs.toList)) =
      (all, R₂) → Probes V Q { R with attemptComplete := true } R₂ := fun hall₂ =>
    hstart.trans ((allSubstitutable_probes hall₂).mono (fun _ => id) fun path hpath _ =>
      hQ path (List.mem_filter.mp hpath).1)
  split at h
  · -- a lookup is still open
    next R₂ hall₂ =>
    obtain ⟨-, -, rfl⟩ := result_inj h
    refine .inl ⟨?_, hfast hall₂, fun _ => ?_⟩
    · have hunprobed : R.unprobed (pathsOf ∅ drv.outputs.toList) = true :=
        allSubstitutable_gap hstart.probeCache hall₂
      rw [takesSlowPath, hall, hunprobed]
      simp
    · by_contra hc
      cases ((allSubstitutable_spec hfound.agrees hall₂).complete (by simpa using hc)).2
  · next R₂ hall₂ =>
    -- all that is missing can be substituted
    obtain ⟨rfl, -, rfl⟩ := result_inj h
    refine .inl ⟨?_, hfast hall₂, by simp⟩
    obtain ⟨-, hrefused⟩ : R.unprobed (pathsOf ∅ drv.outputs.toList) = false ∧
        R.refused (pathsOf ∅ drv.outputs.toList) = !true :=
      allSubstitutable_absent hstart.probeCache hall₂
    rw [takesSlowPath, hall, hrefused]
    simp
  · -- something has to be built, so the slow path decides
    next R₂ hall₂ =>
    refine .inr ⟨?_, R₂, (allSubstitutable_spec hfound.agrees hall₂).agrees, hfast hall₂, h⟩
    obtain ⟨hunprobed, hrefused⟩ : R.unprobed (pathsOf ∅ drv.outputs.toList) = false ∧
        R.refused (pathsOf ∅ drv.outputs.toList) = !false :=
      allSubstitutable_absent hstart.probeCache hall₂
    rw [takesSlowPath, hall, hpends, hunprobed, hrefused]
    rfl

/-- **What an attempt asks for.** An attempt without a result wants something that is in
no cache. -/
theorem tryResolve_probes (hR : R.Agrees S O) {drv drv' : Drv} {done : Bool}
    (h : R.tryResolve S drv = .ok (done, drv', R')) :
    Probes (JobAsksValidity S R drv) (JobAsksSubstituters S R drv)
        { R with attemptComplete := true } R' ∧ (done = false → R'.Asking) := by
  -- an incomplete attempt has begun as a complete one
  suffices hsuff : Probes (JobAsksValidity S R drv) (JobAsksSubstituters S R drv)
      { R with attemptComplete := true } R' ∧ (done = false → R'.attemptComplete = false) from
    ⟨hsuff.1, fun hdone => (hsuff.1.incomplete (hsuff.2 hdone)).resolve_left (by simp)⟩
  rcases tryResolve_paths (V := JobAsksValidity S R drv) (Q := JobAsksSubstituters S R drv) hR
    (fun _ => .inl) (fun _ => .inl) h with ⟨-, hfast⟩ | ⟨htakes, R₂, hR₂, hprobes, hslow⟩
  · -- the fast path asks about the outputs of the job only
    exact hfast
  · obtain ⟨hwalk, hincomplete⟩ := slowPath_probes hR₂ hslow
    rw [hprobes.asksValidity, hprobes.asksSubstituters] at hwalk
    have hasks : Probes (JobAsksValidity S R drv) (JobAsksSubstituters S R drv) R₂ R' :=
      hwalk.mono (fun _ hp => .inr ⟨htakes, hp⟩) fun _ hp _ => .inr ⟨htakes, hp⟩
    exact ⟨hprobes.trans hasks, hincomplete⟩

end Resolver

end NixEvalJobs
