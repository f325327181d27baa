import NixEvalJobs.CacheStatus.Thread
import NixEvalJobs.CacheStatus.Probes

/-!
# Cache status resolver — are substituter probes pruned?

A walk goes on past a derivation whose validity is not known yet, to have the
validity of the whole closure in the next batch. What it comes to there may have been
looked at for an earlier job, and then it is known to be missing, and the
substituters are asked about it, although the derivation it went past may turn out to
be valid or substitutable.

* `attemptVisits` — the visits that an attempt makes, and which of them strayed.
* `visitDrv_attempts` — an attempt makes these visits, and asks what they ask.
* `wanted_pruned` — a run in which no visit that strayed asks the substituters asks
  them only about outputs of pushed jobs, and of what is reached from them through
  derivations that have to be built.
* `not_pruned_shared` — two jobs, with tools that can be fetched, and a library that
  both tools are built from.
-/

namespace NixEvalJobs

namespace Resolver

/-- Reached through derivations that have to be built. -/
def ReachedByBuilds (S : EvalStore) (O : Oracles) (root : StorePath) : Visit → Prop :=
  Relation.ReflTransGen (Passes S (builds S O)) (root, ∅)

/-- A reason to ask the substituters: an output of the job, or of a derivation reached
through derivations that have to be built. -/
def Justified (S : EvalStore) (O : Oracles) (drv : Drv) (path : StorePath) : Prop :=
  path ∈ pathsOf ∅ drv.outputs.toList ∨
    ∃ v, ReachedByBuilds S O drv.drvPath v ∧ path ∈ outputsOf S v.1

/-! ## The visits of an attempt -/

/-- Where an attempt goes from a visit. A visit has strayed when it is made past a
derivation that has not to be built. -/
def nextAttempted (S : EvalStore) (O : Oracles) (R : Resolver) (v : Visit × Bool) :
    List (Visit × Bool) :=
  if goesOn S R v.1 then (inputs S v.1.1).map fun input => (input, v.2 || !builds S O v.1)
  else []

/-- Every derivation is visited once. -/
def visitedDrv (v : Visit × Bool) : StorePath := v.1.1

/-- The visits that an attempt makes on the slow path, in order, over the caches that it
begins with. -/
def attemptVisits (S : EvalStore) (O : Oracles) (R : Resolver) (drvPath : StorePath) :
    List (Visit × Bool) :=
  walk visitedDrv (nextAttempted S O R) (S.depth drvPath + 1) [] ((drvPath, ∅), false)

/-- No visit of the attempt that has strayed asks the substituters. -/
def StaysPruned (S : EvalStore) (O : Oracles) (R : Resolver) (drv : Drv) : Prop :=
  takesSlowPath R drv = true →
    ∀ v ∈ attemptVisits S O R drv.drvPath, v.2 = true → asks S R v.1 = false

instance (S : EvalStore) (O : Oracles) (R : Resolver) (drv : Drv) :
    Decidable (StaysPruned S O R drv) :=
  inferInstanceAs (Decidable (takesSlowPath R drv = true → ∀ v ∈ _, _ → _))

variable {S : EvalStore} {O : Oracles} {R R' : Resolver}

theorem tracks_visitedDrv {t : Traversal} {seen : List (Visit × Bool)} :
    Tracks t (seen.map Prod.fst) ↔ ∀ path, path ∈ t.visited ↔ Entered visitedDrv seen path := by
  unfold Tracks Entered visitedDrv
  simp only [List.mem_map, exists_exists_and_eq_and]

theorem Tracks.same {t t' : Traversal} {seen : List Visit} (h : Tracks t seen)
    (hvisited : t'.visited = t.visited) : Tracks t' seen := fun path => by
  rw [hvisited]
  exact h path

/-- What one of the visits asks for. -/
def AskedBy (S : EvalStore) (R : Resolver) (visits : List (Visit × Bool)) (path : StorePath) :
    Prop := ∃ v ∈ visits, Asks S R v.1 path

/-- With the same answers in the caches a visit asks the same. -/
theorem Probes.asks {V Q : StorePath → Prop} (h : Probes V Q R R') (v : Visit) :
    Asks S R' v = Asks S R v := by
  funext path
  simp only [Asks, Resolver.asks, pends, unprobed, absent, h.validCache, h.probeCache]

/-- Part of an attempt makes the visits `new` and asks what they ask. -/
structure Attempts (S : EvalStore) (R₀ : Resolver) (t' : Traversal) (R R' : Resolver)
    (seen new : List (Visit × Bool)) : Prop where
  tracks : Tracks t' ((seen ++ new).map Prod.fst)
  probes : Probes (fun _ => True) (AskedBy S R₀ new) R R'
  asked : ∀ path, AskedBy S R₀ new path → path ∉ R₀.probeCache → path ∈ R'.wanted

theorem Attempts.trans {R₀ R'' : Resolver} {t' t'' : Traversal}
    {seen new new' : List (Visit × Bool)} (h : Attempts S R₀ t' R R' seen new)
    (h' : Attempts S R₀ t'' R' R'' (seen ++ new) new') :
    Attempts S R₀ t'' R R'' seen (new ++ new') where
  tracks := List.append_assoc .. ▸ h'.tracks
  probes := by
    refine (h.probes.mono (fun _ => id) fun path hpath _ => ?_).trans
      (h'.probes.mono (fun _ => id) fun path hpath _ => ?_)
    · obtain ⟨v, hv, hasks⟩ := hpath
      exact ⟨v, List.mem_append_left _ hv, hasks⟩
    · obtain ⟨v, hv, hasks⟩ := hpath
      exact ⟨v, List.mem_append_right _ hv, hasks⟩
  asked := by
    rintro path ⟨v, hv, hasks⟩ hnew
    rcases List.mem_append.mp hv with hv | hv
    · exact h'.probes.keeps path (h.asked path ⟨v, hv, hasks⟩ hnew)
    · exact h'.asked path ⟨v, hv, hasks⟩ hnew

/-- An attempt asks nothing where it makes no visit. -/
theorem Attempts.refl {R₀ : Resolver} {t : Traversal} {seen : List (Visit × Bool)}
    (h : Tracks t (seen.map Prod.fst)) : Attempts S R₀ t R R seen [] :=
  ⟨(List.append_nil seen).symm ▸ h, .refl R, fun _ ⟨_, hv, _⟩ => by cases hv⟩

/-- The inputs of a derivation, one after the other. -/
theorem inputs_attempts {fuel : Nat} (strayed : Bool) {R₀ : Resolver}
    (ih : ∀ {v : Visit} {t t' : Traversal} {R R' : Resolver}, R.Agrees S O →
      Probes (fun _ => True) (fun _ => True) R₀ R →
      visitDrv S fuel v.1 v.2 (t, R) = .ok (t', R') → ∀ seen, Tracks t (seen.map Prod.fst) →
      ∃ new, walk visitedDrv (nextAttempted S O R₀) fuel seen (v, strayed) = seen ++ new ∧
        Attempts S R₀ t' R R' seen new)
    {edges : List Visit} {t t' : Traversal} (hR : R.Agrees S O)
    (h₀ : Probes (fun _ => True) (fun _ => True) R₀ R)
    (h : edges.foldlM (fun state input => visitDrv S fuel input.1 input.2 state) (t, R) =
      .ok (t', R')) (seen : List (Visit × Bool)) (htracks : Tracks t (seen.map Prod.fst)) :
    ∃ new, (edges.map fun input => (input, strayed)).foldl
        (walk visitedDrv (nextAttempted S O R₀) fuel) seen = seen ++ new ∧
      Attempts S R₀ t' R R' seen new := by
  induction edges generalizing t R seen with
  | nil =>
    obtain ⟨rfl, rfl⟩ := Prod.mk.inj (Except.ok.inj h)
    exact ⟨[], (List.append_nil _).symm, .refl htracks⟩
  | cons edge edges ihedges =>
    rw [List.foldlM_cons] at h
    obtain ⟨⟨t₁, R₁⟩, hvisit, hrest⟩ := bind_eq_ok.mp h
    obtain ⟨new, hnew, hattempts⟩ := ih hR h₀ hvisit seen htracks
    have h₁ := h₀.trans (hattempts.probes.mono (fun _ => id) fun _ _ _ => trivial)
    obtain ⟨new', hnew', hattempts'⟩ :=
      ihedges (visitDrv_direct hR hvisit).agrees h₁ hrest (seen ++ new) hattempts.tracks
    refine ⟨new ++ new', ?_, hattempts.trans hattempts'⟩
    rw [List.map_cons, List.foldl_cons, hnew, hnew', List.append_assoc]

/-- **An attempt makes the visits of the walk**, and asks the substituters what these ask. -/
theorem visitDrv_attempts {R₀ : Resolver} {fuel : Nat} {v : Visit} (strayed : Bool)
    {t t' : Traversal} (hR : R.Agrees S O) (h₀ : Probes (fun _ => True) (fun _ => True) R₀ R)
    (h : visitDrv S fuel v.1 v.2 (t, R) = .ok (t', R')) (seen : List (Visit × Bool))
    (htracks : Tracks t (seen.map Prod.fst)) :
    ∃ new, walk visitedDrv (nextAttempted S O R₀) fuel seen (v, strayed) = seen ++ new ∧
      Attempts S R₀ t' R R' seen new := by
  induction fuel generalizing v strayed t t' R R' seen with
  | zero => cases h
  | succ fuel ih =>
    have hentered := tracks_visitedDrv.mp htracks
    -- the visit itself, which is the first one of its derivation
    have hown : ∀ {t₁ : Traversal} {R₁ : Resolver}, t₁.visited = (t.enter v.1).visited →
        Probes (· ∈ wantedPaths S v) (Asks S R v) R R₁ →
        (∀ path, Asks S R v path → path ∉ R.probeCache → path ∈ R₁.wanted) →
        Attempts S R₀ t₁ R R₁ seen [(v, strayed)] := by
      intro t₁ R₁ hvisited hprobes hasked
      refine ⟨?_, hprobes.mono (fun _ _ => trivial) fun path hpath _ => ?_, ?_⟩
      · rw [List.map_append]
        exact (tracks_insert htracks v).same hvisited
      · exact ⟨_, List.mem_singleton_self _, h₀.asks v ▸ hpath⟩
      · rintro path ⟨u, hu, hasks⟩ hnew
        obtain rfl := List.mem_singleton.mp hu
        exact hasked path (h₀.asks v ▸ hasks) (h₀.probeCache ▸ hnew)
    match visitDrv_cases hR h with
    | .again hvisited =>
      -- visited before, for whatever outputs
      refine ⟨[], ?_, .refl htracks⟩
      rw [List.append_nil]
      exact walk_of_entered ((hentered v.1).mp hvisited) fuel
    | .ends hfresh hstops hvisited hprobes hasked =>
      refine ⟨_, ?_, hown hvisited hprobes hasked⟩
      rw [walk_of_not_entered fun hc => hfresh ((hentered v.1).mpr hc), nextAttempted,
        ← h₀.goesOn, hstops]
      rfl
    | .goes hfresh hgoes hR₁ hprobes hvisited hfold hvisited' =>
      have hattempts := hown hvisited hprobes fun path hasks => by
        cases (asks_of_goesOn hgoes).symm.trans hasks.1
      have h₁ := h₀.trans (hattempts.probes.mono (fun _ => id) fun _ _ _ => trivial)
      obtain ⟨new, hnew, hinputs⟩ := inputs_attempts (strayed || !builds S O v)
        (fun hR h₀ hvisit seen => ih _ hR h₀ hvisit seen) hR₁ h₁ hfold _ hattempts.tracks
      have hall := hattempts.trans hinputs
      refine ⟨_, ?_, hall.tracks.same hvisited', hall.probes, hall.asked⟩
      rw [walk_of_not_entered fun hc => hfresh ((hentered v.1).mpr hc), nextAttempted,
        ← h₀.goesOn, if_pos hgoes, hnew, List.append_assoc]

/-- **What an attempt asks the substituters**: about outputs of the job, and, on the slow
path, all that its visits ask. -/
theorem tryResolve_asked (hR : R.Agrees S O) {drv drv' : Drv} {done : Bool}
    (h : R.tryResolve S drv = .ok (done, drv', R')) :
    (∀ path ∈ R'.wanted, path ∈ R.wanted ∨ path ∈ pathsOf ∅ drv.outputs.toList ∨
      takesSlowPath R drv = true ∧ AskedBy S R (attemptVisits S O R drv.drvPath) path) ∧
    (takesSlowPath R drv = true → ∀ path, AskedBy S R (attemptVisits S O R drv.drvPath) path →
      path ∉ R.probeCache → path ∈ R'.wanted) := by
  rcases tryResolve_paths (V := fun _ => True) (Q := (· ∈ pathsOf ∅ drv.outputs.toList)) hR
    (fun _ _ => trivial) (fun _ => id) h with
    ⟨hends, hfast, -⟩ | ⟨htakes, R₂, hR₂, hprobes, hslow⟩
  · refine ⟨fun path hpath => ?_, fun htakes => ?_⟩
    · exact (hfast.wanted path hpath).imp_right fun hasked => .inl hasked.1
    · cases hends.symm.trans htakes
  · rw [slowPath] at hslow
    obtain ⟨⟨t, R₃⟩, hvisit, hrest⟩ := bind_eq_ok.mp hslow
    obtain rfl : R' = R₃ := by
      dsimp only at hrest
      split at hrest
      · exact (result_inj hrest).2.2.symm
      · exact (result_inj hrest).2.2.symm
    obtain ⟨new, hnew, hattempts⟩ := visitDrv_attempts (v := (drv.drvPath, ∅)) false
      hR₂ (hprobes.mono (fun _ => id) fun _ _ _ => trivial) hvisit []
      (fun path => by simp [Entered])
    -- the walk starts with nothing visited
    obtain rfl : attemptVisits S O R drv.drvPath = new := hnew
    refine ⟨fun path hpath => ?_, fun _ => hattempts.asked⟩
    rcases hattempts.probes.wanted path hpath with hold | ⟨hasked, -⟩
    · exact (hprobes.wanted path hold).imp_right fun hasked => .inl hasked.1
    · exact .inr (.inr ⟨htakes, hasked⟩)

/-! ## Staying pruned -/

/-- A visit that has not strayed is made past derivations that have to be built. -/
theorem reachedByBuilds_of_attempted {drvPath : StorePath} {v : Visit × Bool}
    (h : Relation.ReflTransGen (fun a b => b ∈ nextAttempted S O R a) ((drvPath, ∅), false) v)
    (hkept : v.2 = false) : ReachedByBuilds S O drvPath v.1 := by
  induction h with
  | refl => exact .refl
  | @tail u v _ hnext ih =>
    unfold nextAttempted at hnext
    split at hnext
    · obtain ⟨input, hinput, rfl⟩ := List.mem_map.mp hnext
      obtain ⟨hold, hbuilds⟩ := Bool.or_eq_false_iff.mp hkept
      exact (ih hold).tail ⟨by simpa using hbuilds, hinput⟩
    · cases hnext

/-- **What an attempt that stays pruned asks for is justified.** -/
theorem StaysPruned.justified {drv : Drv} {path : StorePath} (h : StaysPruned S O R drv)
    (hasked : path ∈ pathsOf ∅ drv.outputs.toList ∨ takesSlowPath R drv = true ∧
      AskedBy S R (attemptVisits S O R drv.drvPath) path) : Justified S O drv path := by
  rcases hasked with hjob | ⟨hslow, v, hv, hasks, hmem⟩
  · exact .inl hjob
  have hkept : v.2 = false := by
    by_contra hstrayed
    rw [h hslow v hv (by simpa using hstrayed)] at hasks
    cases hasks
  rcases leads_of_mem_walk hv with hnone | hleads
  · cases hnone
  · exact .inr ⟨v.1, reachedByBuilds_of_attempted hleads hkept,
      wantedPaths_subset (List.mem_filter.mp hmem).1⟩

/-- **An attempt that does not stay pruned asks about a derivation that it strayed to.** -/
theorem asked_of_strayed (hR : R.Agrees S O) {drv drv' : Drv} {done : Bool}
    (h : R.tryResolve S drv = .ok (done, drv', R')) (hstrays : ¬StaysPruned S O R drv) :
    ∃ v ∈ attemptVisits S O R drv.drvPath, v.2 = true ∧
      ∃ path ∈ outputsOf S v.1.1, path ∉ R.probeCache ∧ path ∈ R'.wanted := by
  unfold StaysPruned at hstrays
  simp only [Classical.not_imp, not_forall] at hstrays
  obtain ⟨htakes, v, hv, hstrayed, hasks⟩ := hstrays
  have hasks : asks S R v.1 = true := by simpa using hasks
  have hunprobed : R.unprobed (wantedPaths S v.1) = true := by
    unfold asks at hasks
    exact (Bool.and_eq_true_iff.mp hasks).2
  obtain ⟨path, hpath, hnew⟩ := List.any_eq_true.mp hunprobed
  have hnew : path ∉ R.probeCache := by
    rw [Bool.not_eq_true', ← Bool.not_eq_true] at hnew
    exact hnew
  exact ⟨v, hv, hstrayed, path, wantedPaths_subset (List.mem_filter.mp hpath).1, hnew,
    (tryResolve_asked hR h).2 htakes path ⟨v, hv, hasks, hpath⟩ hnew⟩

/-- A set of visits that no build leads out of. -/
theorem mem_of_reachedByBuilds {root : StorePath} {vs : List Visit} (hroot : (root, ∅) ∈ vs)
    (hclosed : ∀ u ∈ vs, builds S O u = true → ∀ v ∈ inputs S u.1, v ∈ vs) {v : Visit}
    (h : ReachedByBuilds S O root v) : v ∈ vs := by
  induction h with
  | refl => exact hroot
  | tail _ hpasses ih => exact hclosed _ ih hpasses.1 _ hpasses.2

end Resolver

namespace CacheStatusResolver

open Resolver

variable {S : EvalStore} {O : Oracles} {st st' : CacheStatusResolver} {e : Event}

/-- The stores answer as `O`, and the attempts stay pruned. -/
def Pruned (S : EvalStore) (O : Oracles) (st : CacheStatusResolver) (e : Event) : Prop :=
  Answers S O st e ∧ ∀ S' kept rest job, e = .attempt S' →
    st.position = .filtering kept (job :: rest) → StaysPruned S O st.caches job.drv

/-- A pushed job is a reason to ask about the path. -/
def JustifiedBy (S : EvalStore) (O : Oracles) (pushed : List Response) (path : StorePath) : Prop :=
  ∃ job : JobResponse, job.response ∈ pushed ∧ Justified S O job.drv path

/-- The job that is tried next was pushed. -/
theorem Consistent.pushed (h : Consistent S O st) {kept rest : List JobResponse}
    {job : JobResponse} (hpos : st.position = .filtering kept (job :: rest)) :
    job.response ∈ st.pushed := by
  refine h.inFlight job.response (Multiset.mem_add.mpr (.inl (Multiset.mem_add.mpr (.inr ?_))))
  rw [hpos]
  simp [Position.held]

/-- A path is wanted only if it is an output of a pushed job or of a derivation reached
from a pushed job through derivations that have to be built. -/
theorem justified_reachable (h : system.Reachable (Pruned S O) st) :
    ∀ path ∈ st.caches.wanted, JustifiedBy S O st.pushed path := by
  refine h.invariant
    (I := fun st => ∀ path ∈ st.caches.wanted, JustifiedBy S O st.pushed path)
    (fun path hpath => absurd hpath Std.ExtTreeSet.not_mem_empty) ?_
  intro st st' e hst hjustified hrely hstep path hpath
  have hsteps := step_steps hstep
  have hconsistent := consistent_reachable (hst.mono fun _ _ hr => hr.1)
  -- a justification stays one when more is pushed
  have hold : path ∈ st.caches.wanted → JustifiedBy S O st'.pushed path := by
    intro hwanted
    obtain ⟨job, hpushed, hreason⟩ := hjustified path hwanted
    exact ⟨job, hsteps.pushed_mono hpushed, hreason⟩
  match hsteps.caches with
  | .same hsame => exact hold (hsame ▸ hpath)
  | @CachesStep.attempt _ _ _ S' _ _ job _ _ he hpos htry =>
    obtain rfl : S' = S := by
      subst he
      exact hrely.1
    rcases (tryResolve_asked hconsistent.caches htry).1 path hpath with hwanted | hasked
    · exact hold hwanted
    · exact ⟨job, hsteps.pushed_mono (hconsistent.pushed hpos),
        (hrely.2 S' _ _ job he hpos).justified hasked⟩
  | .batch _ _ hbatch =>
    rw [hbatch] at hpath
    exact absurd hpath Std.ExtTreeSet.not_mem_empty

/-- **Substituter probes are pruned in a run where no visit that strayed asks**: what is
wanted is justified by a pushed job. An attempt in which one does asks about an output of
a derivation that it has come to past one that has not to be built. -/
theorem wanted_pruned :
    (∀ st, system.Reachable (Pruned S O) st →
      ∀ path ∈ st.caches.wanted, JustifiedBy S O st.pushed path) ∧
    ∀ (st : CacheStatusResolver) (kept rest : List JobResponse) (job : JobResponse) (done : Bool)
      (drv : Drv) (caches : Resolver), system.Reachable (Answers S O) st →
      st.position = .filtering kept (job :: rest) →
      st.caches.tryResolve S job.drv = .ok (done, drv, caches) →
      ¬StaysPruned S O st.caches job.drv →
      ∃ v ∈ attemptVisits S O st.caches job.drv.drvPath, v.2 = true ∧
        ∃ path ∈ outputsOf S v.1.1, path ∉ st.caches.probeCache ∧ path ∈ caches.wanted := by
  refine ⟨fun st hst => justified_reachable hst, ?_⟩
  intro st kept rest job done drv caches hst _ htry hstrays
  exact asked_of_strayed (consistent_reachable hst).caches htry hstrays

/-! ### Two jobs that share a library -/

def kitDrv : StorePath := demoPath 'i' "kit.drv"
def kitOut : StorePath := demoPath 'k' "kit"

def demoInput (drvPath : StorePath) : StdMap StorePath (StdSet Str) :=
  (∅ : StdMap StorePath (StdSet Str)).insert drvPath (outputNames "out")

def sharedDrvs : List (StorePath × Derivation) :=
  [(jobDrv, demoDrv jobOut (demoInput toolDrv)), (siteDrv, demoDrv siteOut (demoInput kitDrv)),
    (toolDrv, demoDrv toolOut (demoInput libDrv)), (kitDrv, demoDrv kitOut (demoInput libDrv)),
    (libDrv, demoDrv libOut ∅)]

/-- `job` needs `tool` and `site` needs `kit`, and both of these need `lib`. -/
def sharedStore : EvalStore :=
  listStore sharedDrvs
    (fun path => if path = jobDrv ∨ path = siteDrv then 2
      else if path = toolDrv ∨ path = kitDrv then 1 else 0)
    (by decide +kernel)

/-- Only the tools can be fetched. -/
def sharedOracles : Oracles where
  valid _ := false
  substitutable path := path = toolOut || path = kitOut

/-- What follows a pass over the jobs, when nothing has arrived. -/
def sharedRest : List Event :=
  [.proceed, .proceed, .proceed,
    .resolveWanted sharedOracles.valid sharedOracles.substitutable, .proceed]

/-- `site` arrives while `job` is tried for the last time; its third attempt finds `kit`
pending and comes to `lib`. -/
def sharedRun : List Event :=
  Event.push (demoResponse (.job diamondJob none)) :: List.replicate 5 .proceed ++
    (List.replicate 4 (Event.attempt sharedStore :: sharedRest)).flatten ++
    [Event.attempt sharedStore, .push (demoResponse (.job siteJob none)), .proceed] ++ sharedRest ++
    (List.replicate 2 (Event.attempt sharedStore :: sharedRest)).flatten ++
    [Event.attempt sharedStore]

theorem sharedRun_isSome :
    (system.run System.anyCheck system.init sharedRun).isSome = true := by
  decide +kernel

theorem sharedRun_answers : ∀ e ∈ sharedRun, ∀ st, Answers sharedStore sharedOracles st e := by
  simp [sharedRun, sharedRest, Answers, List.replicate]

/-- The library is no output of the job, whose derivation is one of the two. -/
def ofJobOrSite (response : Response) : Bool :=
  match response.payload with
  | .job drv _ => !(pathsOf ∅ drv.outputs.toList).contains libOut &&
      (drv.drvPath == jobDrv || drv.drvPath == siteDrv)
  | _ => true

/-- The library that no job needs is asked about. -/
theorem not_pruned_shared :
    let st := system.after System.anyCheck sharedRun sharedRun_isSome
    system.Reachable (Answers sharedStore sharedOracles) st ∧ libOut ∈ st.caches.wanted ∧
      ¬JustifiedBy sharedStore sharedOracles st.pushed libOut := by
  intro st
  refine ⟨System.Reachable.run_all sharedRun_answers .init
    (Option.some_get sharedRun_isSome).symm, by decide +kernel, ?_⟩
  rintro ⟨job, hpushed, hjustified⟩
  -- the jobs, and the visits that builds lead to from them
  have hjobs : st.pushed.all ofJobOrSite = true := by decide +kernel
  have hjob := List.all_eq_true.mp hjobs job.response hpushed
  rw [ofJobOrSite, job.payload] at hjob
  obtain ⟨houtputs, hroot⟩ := Bool.and_eq_true_iff.mp hjob
  have hunreached : ∀ root tool : StorePath,
      (∀ u ∈ [(root, ∅), (tool, outputNames "out")], builds sharedStore sharedOracles u = true →
        ∀ v ∈ inputs sharedStore u.1, v ∈ [(root, ∅), (tool, outputNames "out")]) →
      (∀ u ∈ [(root, ∅), (tool, outputNames "out")], libOut ∉ outputsOf sharedStore u.1) →
      job.drv.drvPath = root → False := by
    intro root tool hclosed hnone hdrvPath
    rcases hjustified with hown | ⟨v, hreached, hmem⟩
    · simp [hown] at houtputs
    · rw [hdrvPath] at hreached
      exact hnone v (mem_of_reachedByBuilds (List.mem_cons_self ..) hclosed hreached) hmem
  rcases Bool.or_eq_true_iff.mp hroot with hjob | hsite
  · exact hunreached jobDrv toolDrv (by decide +kernel) (by decide +kernel)
      (eq_of_beq hjob)
  · exact hunreached siteDrv kitDrv (by decide +kernel) (by decide +kernel)
      (eq_of_beq hsite)

/-- The first four attempts of a job. The third one walks past `tool`, which can be fetched,
and asks for the validity of `lib`; the fourth one asks for substitutes of `tool`. -/
def slowRun : List Event :=
  Event.push (demoResponse (.job diamondJob none)) :: List.replicate 5 .proceed ++
    (List.replicate 3 (Event.attempt sharedStore :: sharedRest)).flatten ++
    [Event.attempt sharedStore]

/-- The attempt that may come next stays pruned. -/
def checksPruned (st : CacheStatusResolver) (_ : Event) : Bool :=
  match st.position with
  | .filtering _ (job :: _) => StaysPruned sharedStore sharedOracles st.caches job.drv
  | _ => true

theorem slowRun_isSome : (system.run checksPruned system.init slowRun).isSome = true := by
  decide +kernel

theorem slowRun_pruned : ∀ e ∈ slowRun, ∀ st, checksPruned st e = true →
    Pruned sharedStore sharedOracles st e := by
  intro e he st hcheck
  refine ⟨sharedRun_answers e ?_ st, fun S' kept rest job _ hpos => ?_⟩
  · simp only [slowRun, sharedRun, List.mem_append, List.mem_cons, List.replicate,
      List.flatten_cons] at he ⊢
    tauto
  · rw [checksPruned, hpos] at hcheck
    exact of_decide_eq_true hcheck

/-- The attempt that comes next strays, and does not throw. -/
def straysNext (st : CacheStatusResolver) : Bool :=
  match st.position with
  | .filtering _ (job :: _) =>
    !decide (StaysPruned sharedStore sharedOracles st.caches job.drv) &&
      (st.caches.tryResolve sharedStore job.drv).toOption.isSome
  | _ => false

theorem sharedRun_strays : (system.run System.anyCheck system.init sharedRun.dropLast).any
    straysNext = true := by
  decide +kernel

/-- Where the four attempts end. -/
def slowEnd : CacheStatusResolver := system.after checksPruned slowRun slowRun_isSome

/-- Where the two jobs come to the attempt that strays. -/
def strayEnd : CacheStatusResolver :=
  system.after System.anyCheck sharedRun.dropLast (Option.isSome_of_any sharedRun_strays)

/-- What the slow path has asked for is justified; with the two jobs it asks about a
derivation that it strayed to. -/
theorem wanted_pruned_slow :
    (toolOut ∈ slowEnd.caches.wanted ∧
      JustifiedBy sharedStore sharedOracles slowEnd.pushed toolOut) ∧
    ∃ (v : Visit × Bool) (caches : Resolver), v.2 = true ∧
      ∃ path ∈ outputsOf sharedStore v.1.1, path ∉ strayEnd.caches.probeCache ∧
        path ∈ caches.wanted := by
  constructor
  · have hst : system.Reachable (Pruned sharedStore sharedOracles) slowEnd :=
      System.Reachable.run_checked slowRun_pruned .init (Option.some_get slowRun_isSome).symm
    have hwanted : toolOut ∈ slowEnd.caches.wanted := by decide +kernel
    exact ⟨hwanted, wanted_pruned.1 _ hst toolOut hwanted⟩
  · have hst : system.Reachable (Answers sharedStore sharedOracles) strayEnd :=
      System.Reachable.run_all (fun e he => sharedRun_answers e (List.mem_of_mem_dropLast he))
        .init (Option.some_get (Option.isSome_of_any sharedRun_strays)).symm
    have hnext : straysNext strayEnd = true := System.after_of_any sharedRun_strays _
    unfold straysNext at hnext
    split at hnext
    · next kept job rest hpos =>
      obtain ⟨hstrays, hok⟩ := Bool.and_eq_true_iff.mp hnext
      cases htry : strayEnd.caches.tryResolve sharedStore job.drv with
      | error e =>
        rw [htry] at hok
        cases hok
      | ok result =>
        obtain ⟨done, drv, caches⟩ := result
        obtain ⟨v, -, hstrayed, hasked⟩ :=
          wanted_pruned.2 _ _ _ job done drv caches hst hpos htry (by simpa using hstrays)
        exact ⟨v, caches, hstrayed, hasked⟩
    · cases hnext

end CacheStatusResolver

end NixEvalJobs
