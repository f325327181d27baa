import NixEvalJobs.CacheStatus.Thread
import NixEvalJobs.CacheStatus.Probes

/-!
# Cache status resolver — batches

A path can be asked about in two ways, for its validity and for a substitute. What is
wanted goes to the stores with the next batch, and the answers, whatever they are, stay
in the caches; what is there is not wanted again.

* `answered_resolveWanted` — after a batch, all that was wanted is answered.
* `tidy_reachable` — what is wanted is not answered yet, and outside of a pass over the
  jobs nothing is wanted.
* `queries_disjoint` — no path is asked about twice in the same way.
-/

namespace NixEvalJobs

namespace Resolver

/-! ## Questions -/

/-- A question about a path: left for its validity, right for a substitute. -/
abbrev Question := StorePath ⊕ StorePath

/-- What the caches answer. -/
def answered (R : Resolver) : Finset Question :=
  R.validCache.keys.toFinset.disjSum R.probeCache.keys.toFinset

/-- What the next batch asks. -/
def questions (R : Resolver) : Finset Question :=
  R.wantedValid.toList.toFinset.disjSum R.wanted.toList.toFinset

variable {S : EvalStore} {O : Oracles} {R R' : Resolver} {V Q : StorePath → Prop}
  {path : StorePath}

@[simp] theorem inl_mem_answered : .inl path ∈ R.answered ↔ path ∈ R.validCache := by
  rw [answered, Finset.inl_mem_disjSum, List.mem_toFinset, Std.ExtTreeMap.mem_keys]

@[simp] theorem inr_mem_answered : .inr path ∈ R.answered ↔ path ∈ R.probeCache := by
  rw [answered, Finset.inr_mem_disjSum, List.mem_toFinset, Std.ExtTreeMap.mem_keys]

@[simp] theorem inl_mem_questions : .inl path ∈ R.questions ↔ path ∈ R.wantedValid := by
  rw [questions, Finset.inl_mem_disjSum, List.mem_toFinset, Std.ExtTreeSet.mem_toList]

@[simp] theorem inr_mem_questions : .inr path ∈ R.questions ↔ path ∈ R.wanted := by
  rw [questions, Finset.inr_mem_disjSum, List.mem_toFinset, Std.ExtTreeSet.mem_toList]

/-- Something is asked when a question has no answer yet. -/
theorem asking_iff : R.Asking ↔ ∃ question ∈ R.questions, question ∉ R.answered := by
  simp only [Asking, Sum.exists, inl_mem_questions, inl_mem_answered, inr_mem_questions,
    inr_mem_answered]

/-- A part of an attempt, as far as questions go. -/
theorem Probes.questions (h : Probes V Q R R') : R'.answered = R.answered ∧
    R.questions ⊆ R'.questions ∧ ∀ question ∈ R'.questions,
      question ∈ R.questions ∨ question ∉ R.answered ∧ Sum.elim V Q question := by
  refine ⟨by rw [answered, answered, h.validCache, h.probeCache], fun question hold => ?_,
    fun question hnew => ?_⟩
  · match question with
    | .inl path => exact inl_mem_questions.mpr (h.keepsValid path (inl_mem_questions.mp hold))
    | .inr path => exact inr_mem_questions.mpr (h.keeps path (inr_mem_questions.mp hold))
  · match question with
    | .inl path =>
      rw [inl_mem_questions, inl_mem_answered]
      exact (h.wantedValid path (inl_mem_questions.mp hnew)).imp_right fun hp => ⟨hp.2, hp.1⟩
    | .inr path =>
      rw [inr_mem_questions, inr_mem_answered]
      exact (h.wanted path (inr_mem_questions.mp hnew)).imp_right fun hp => ⟨hp.2, hp.1⟩

/-! ## A batch -/

/-- Inserting what a function says about the paths that have no entry yet. -/
theorem getElem?_foldl_insertIfNew (f : StorePath → Bool) (paths : List StorePath)
    (cache : StdMap StorePath Bool) (path : StorePath) :
    (paths.foldl (fun cache path => cache.insertIfNew path (f path)) cache)[path]? =
      cache[path]?.or (if path ∈ paths then some (f path) else none) := by
  induction paths generalizing cache with
  | nil => simp
  | cons p paths ih =>
    have hcompare : compare p path = .eq ↔ p = path := Std.LawfulEqCmp.compare_eq_iff_eq
    rw [List.foldl_cons, ih, Std.ExtTreeMap.getElem?_insertIfNew]
    by_cases hp : p = path
    · -- an entry that is there stays
      subst hp
      simp only [hcompare, Std.ExtTreeMap.mem_iff_isSome_getElem?]
      cases cache[p]? <;> simp
    · simp [hcompare, hp, Ne.symm hp]

/-- What the cache says about validity after a batch. -/
theorem validCache_resolveWanted (valid substitutable : StorePath → Bool) (R : Resolver)
    (path : StorePath) : (R.resolveWanted valid substitutable).validCache[path]? =
      R.validCache[path]?.or (if path ∈ R.wantedValid then some (valid path) else none) := by
  dsimp only [resolveWanted]
  rw [Std.ExtTreeSet.foldl_eq_foldl_toList, getElem?_foldl_insertIfNew]
  simp only [Std.ExtTreeSet.mem_toList]

/-- And about substitutes. -/
theorem probeCache_resolveWanted (valid substitutable : StorePath → Bool) (R : Resolver)
    (path : StorePath) : (R.resolveWanted valid substitutable).probeCache[path]? =
      R.probeCache[path]?.or (if path ∈ R.wanted then some (substitutable path) else none) := by
  dsimp only [resolveWanted]
  rw [Std.ExtTreeSet.foldl_eq_foldl_toList, getElem?_foldl_insertIfNew]
  simp only [Std.ExtTreeSet.mem_toList]

/-- **A batch answers all that was wanted.** -/
theorem answered_resolveWanted (valid substitutable : StorePath → Bool) (R : Resolver) :
    (R.resolveWanted valid substitutable).answered = R.answered ∪ R.questions ∧
      (R.resolveWanted valid substitutable).questions = ∅ := by
  constructor
  · ext question
    -- validity, or a substitute
    match question with
    | .inl path =>
      rw [Finset.mem_union, inl_mem_answered, inl_mem_answered, inl_mem_questions,
        Std.ExtTreeMap.mem_iff_isSome_getElem?, Std.ExtTreeMap.mem_iff_isSome_getElem?,
        validCache_resolveWanted]
      split <;> simp [*]
    | .inr path =>
      rw [Finset.mem_union, inr_mem_answered, inr_mem_answered, inr_mem_questions,
        Std.ExtTreeMap.mem_iff_isSome_getElem?, Std.ExtTreeMap.mem_iff_isSome_getElem?,
        probeCache_resolveWanted]
      split <;> simp [*]
  · rfl

/-! ## Derivations that are read -/

/-- The derivations that were read are those of the store. -/
def Faithful (S : EvalStore) (R : Resolver) : Prop :=
  ∀ path drv, R.drvCache[path]? = some drv → S.readDerivation path = some drv

/-- The caches as stores that know nothing else. -/
def remembered (R : Resolver) : Oracles where
  valid path := R.validCache[path]? == some true
  substitutable path := R.probeCache[path]? == some true

/-- Whatever the answers were, they are right about themselves. -/
theorem Faithful.agrees (h : Faithful S R) : R.Agrees S R.remembered := by
  -- an entry is the answer it records
  refine ⟨fun path cached hcached => ?_, fun path cached hcached => ?_, h⟩
  · change cached = (R.validCache[path]? == some true)
    rw [hcached]
    cases cached <;> rfl
  · change cached = (R.probeCache[path]? == some true)
    rw [hcached]
    cases cached <;> rfl

/-- What an attempt asks, in terms of questions. -/
theorem tryResolve_questions (hR : Faithful S R) {drv drv' : Drv} {done : Bool}
    (h : R.tryResolve S drv = .ok (done, drv', R')) :
    Faithful S R' ∧ R'.answered = R.answered ∧ R.questions ⊆ R'.questions ∧
      (∀ question ∈ R'.questions, question ∈ R.questions ∨ question ∉ R.answered ∧
        Sum.elim (JobAsksValidity S R drv) (JobAsksSubstituters S R drv) question) ∧
      (done = false → R'.Asking) := by
  obtain ⟨hprobes, hasking⟩ := tryResolve_probes hR.agrees h
  obtain ⟨hanswered, hkept, hnew⟩ := hprobes.questions
  exact ⟨(tryResolve_direct hR.agrees h).1.drv, hanswered, hkept, hnew, hasking⟩

end Resolver

/-! ## The thread -/

/-- The thread is not in a pass over its jobs, nor in what follows one. -/
def Position.between : Position → Bool
  | .waiting | .swapping true | .sorting _ true | .checking => true
  | _ => false

namespace CacheStatusResolver

open Resolver

/-- The eval store is `S`; the build store answers whatever it wants, or throws. -/
def Reads (S : EvalStore) (_ : CacheStatusResolver) : Event → Prop
  | .attempt S' => S' = S
  | _ => True

/-- What is wanted is not known. -/
structure Tidy (S : EvalStore) (st : CacheStatusResolver) : Prop where
  jobsFree : st.JobsFree
  faithful : Faithful S st.caches
  fresh : Disjoint st.caches.questions st.caches.answered
  calm : st.position.between = true → st.caches.questions = ∅

variable {S : EvalStore} {st st' : CacheStatusResolver} {e : Event}

/-- A step of the caches keeps what is wanted apart from what is known. -/
theorem Tidy.caches (hrely : Reads S st e) (h : Tidy S st) {caches : Resolver}
    (hstep : CachesStep st e caches) :
    Faithful S caches ∧ Disjoint caches.questions caches.answered := by
  match hstep with
  | .same hsame => exact hsame ▸ ⟨h.faithful, h.fresh⟩
  -- an attempt asks only about what has no answer
  | .attempt he _ htry =>
    subst he
    obtain rfl : _ = S := hrely
    obtain ⟨hfaithful, hanswered, -, hnew, -⟩ := tryResolve_questions h.faithful htry
    refine ⟨hfaithful, Finset.disjoint_left.mpr fun question hquestion => ?_⟩
    rw [hanswered]
    rcases hnew question hquestion with hold | ⟨hunknown, -⟩
    · exact Finset.disjoint_left.mp h.fresh hold
    · exact hunknown
  | .batch _ _ hbatch =>
    rw [hbatch, (answered_resolveWanted _ _ _).2]
    exact ⟨h.faithful, Finset.disjoint_empty_left _⟩

/-- Outside of a pass, the thread only gets there after a batch. -/
theorem Runs.calm (hcalm : st.position.between = true → st.caches.questions = ∅)
    (h : Runs st e st') : st'.position.between = true → st'.caches.questions = ∅ := by
  intro hbetween
  match h with
  | .ended _ _ | .gaveUp _ _ | .began _ | .kept _ _ | .resolved _ _ | .erased _ =>
    cases hbetween
  | .woken hpos | .drained hpos _ => exact hcalm (by rw [hpos]; rfl)
  | @Runs.swapped _ first hpos | @Runs.queued _ _ _ first _ hpos _
  | @Runs.passed _ _ _ first hpos _ =>
    cases first with
    | true => exact hcalm (by rw [hpos]; rfl)
    | false => cases hbetween
  | @Runs.sorted _ first hpos =>
    cases first with
    | true => exact hcalm (by rw [hpos]; rfl)
    | false => cases hbetween
  -- the batch has just emptied the questions
  | .answered _ => rfl

/-- The invariant survives every step. -/
theorem Tidy.step (hrely : Reads S st e) (h : Tidy S st) (hstep : Steps st e st') :
    Tidy S st' := by
  obtain ⟨hfaithful, hfresh⟩ := h.caches hrely hstep.caches
  refine ⟨hstep.jobsFree h.jobsFree, hfaithful, hfresh, ?_⟩
  match hstep with
  | .pushed _ _ _ | .dropped _ _ | .closed _ | .joined _ _ | .destroyed => exact h.calm
  | .ran hrun => exact (run_runs hrun).calm h.calm
  | .threw _ =>
    intro hbetween
    cases hbetween

/-- **What is wanted is not known**, in every reachable state. -/
theorem tidy_reachable (h : system.Reachable (Reads S) st) : Tidy S st := by
  induction h with
  | init =>
    refine ⟨jobsFree_init, fun path drv hread => ?_, ?_, fun _ => rfl⟩
    · exact absurd hread (by simp [system])
    · exact Finset.disjoint_empty_left _
  | step _ hrely hstep ih => exact ih.step hrely (step_steps hstep)

/-! ## The queries of a run -/

/-- What a step asks the build store. A batch that throws may have been asked too. -/
def queried (x : CacheStatusResolver × Event) : Finset Question :=
  match x.1.position, x.2 with
  | .resolving, .resolveWanted _ _ | .resolving, .fail _ => x.1.caches.questions
  | _, _ => ∅

/-- A step asks nothing, or is the batch. -/
theorem queried_cases (st : CacheStatusResolver) (e : Event) : queried (st, e) = ∅ ∨
    st.position = .resolving ∧ queried (st, e) = st.caches.questions ∧
      ((∃ valid substitutable, e = .resolveWanted valid substitutable) ∨ ∃ err, e = .fail err) := by
  unfold queried
  split
  · next hpos he => exact .inr ⟨hpos, rfl, .inl ⟨_, _, he⟩⟩
  · next hpos he => exact .inr ⟨hpos, rfl, .inr ⟨_, he⟩⟩
  · exact .inl rfl

/-- The questions of a run so far are answered, unless the thread has ended. -/
def Remembers (h : List (CacheStatusResolver × Event)) (st : CacheStatusResolver) : Prop :=
  st.position = .stopped ∨ ∀ earlier ∈ h, queried earlier ⊆ st.caches.answered

/-- A thread that has ended stays so. -/
theorem Steps.stopped (h : Steps st e st') (hpos : st.position = .stopped) :
    st'.position = .stopped := by
  match h with
  | .pushed _ _ _ | .dropped _ _ | .closed _ | .joined _ _ | .destroyed => exact hpos
  | .ran hrun => cases (run_stopped hpos).symm.trans hrun
  | .threw _ => rfl

/-- Where the thread may throw. -/
theorem run_error {err : Error} (h : st.run e = some (.error err)) :
    (∃ err, e = .fail err) ∨ ∃ S, e = .attempt S := by
  unfold run at h
  -- in the order of the cases of `run`; all others have a state as their result
  split at h
  · cases h
  · exact .inl ⟨_, rfl⟩
  · split at h
    · cases h
    split at h
    · cases h
    · cases h
  · cases h
  · cases h
  · split at h
    · cases h
    · cases h
  · split at h
    · cases h
    split at h
    · cases h
    · cases h
  · exact .inr ⟨_, rfl⟩
  · cases h
  · cases h
  · cases h

/-- A batch leaves its answers. -/
theorem Steps.answered {valid substitutable : StorePath → Bool}
    (h : Steps st (.resolveWanted valid substitutable) st') :
    st'.caches = st.caches.resolveWanted valid substitutable := by
  match h with
  | .ran hrun =>
    match run_runs hrun with
    | .answered _ => rfl
  | .threw hrun =>
    rcases run_error hrun with ⟨_, he⟩ | ⟨_, he⟩
    · cases he
    · cases he

/-- A batch that throws ends the thread. -/
theorem Steps.failed {err : Error} (h : Steps st (.fail err) st') : st'.position = .stopped := by
  match h with
  | .ran hrun => cases run_runs hrun
  | .threw _ => rfl

/-- An answer stays. -/
theorem Tidy.answered_mono (hrely : Reads S st e) (h : Tidy S st) {caches : Resolver}
    (hstep : CachesStep st e caches) : st.caches.answered ⊆ caches.answered := by
  match hstep with
  | .same hsame => rw [hsame]
  | .attempt he _ htry =>
    subst he
    obtain rfl : _ = S := hrely
    rw [(tryResolve_questions h.faithful htry).2.1]
  | .batch _ _ hbatch =>
    rw [hbatch, (answered_resolveWanted _ _ _).1]
    exact Finset.subset_union_left

/-- What was asked stays answered. -/
theorem Remembers.step {h : List (CacheStatusResolver × Event)} (hrely : Reads S st e)
    (htidy : Tidy S st) (hremembers : Remembers h st) (hstep : Steps st e st') :
    Remembers ((st, e) :: h) st' := by
  rcases hremembers with hstopped | hsubset
  · exact .inl (hstep.stopped hstopped)
  have hmono := htidy.answered_mono hrely hstep.caches
  have hold : ∀ earlier ∈ h, queried earlier ⊆ st'.caches.answered := fun earlier hmem =>
    (hsubset earlier hmem).trans hmono
  -- the step asks nothing, or is a batch that returns, or one that throws
  rcases queried_cases st e with hnone |
    ⟨hpos, hquestions, ⟨valid, substitutable, rfl⟩ | ⟨err, rfl⟩⟩
  · refine .inr fun earlier hmem => ?_
    rcases List.mem_cons.mp hmem with rfl | hmem
    · rw [hnone]
      exact Finset.empty_subset _
    · exact hold earlier hmem
  · refine .inr fun earlier hmem => ?_
    rcases List.mem_cons.mp hmem with rfl | hmem
    · -- the batch that answers them
      rw [hquestions]
      rw [hstep.answered, (answered_resolveWanted _ _ _).1]
      exact Finset.subset_union_right
    · exact hold earlier hmem
  · -- after a query that throws there is no other one
    exact .inl hstep.failed

variable {st₀ : CacheStatusResolver} {h : List (CacheStatusResolver × Event)}

/-- So it holds along every run. -/
theorem remembers_trail (h₀ : system.Reachable (Reads S) st₀)
    (ht : (system.startingAt st₀).Trail (Reads S) h st) : Remembers h st := by
  induction ht with
  | init => exact .inr fun _ hmem => absurd hmem List.not_mem_nil
  | step ht hrely hstep ih =>
    exact ih.step hrely (tidy_reachable (ht.reachable_from h₀)) (step_steps hstep)

/-- **No path is asked about twice** in the same way, whatever was pushed and whenever
it was tried. -/
theorem queries_disjoint (h₀ : system.Reachable (Reads S) st₀)
    (ht : (system.startingAt st₀).Trail (Reads S) h st) :
    h.Pairwise fun later earlier => Disjoint (queried later) (queried earlier) := by
  -- the latest step against all earlier ones
  induction ht with
  | init => exact .nil
  | @step h st _ e ht hrely hstep ih =>
    refine List.pairwise_cons.mpr ⟨fun earlier hmem => ?_, ih⟩
    rcases queried_cases st e with hnone | ⟨hpos, hquestions, -⟩
    · rw [hnone]
      exact Finset.disjoint_empty_left _
    · -- what was asked before is answered, and what is wanted now is not
      rw [hquestions]
      have hfresh := (tidy_reachable (ht.reachable_from h₀)).fresh
      rcases remembers_trail h₀ ht with hstopped | hanswered
      · cases hpos.symm.trans hstopped
      · exact hfresh.mono_right (hanswered earlier hmem)

end CacheStatusResolver

end NixEvalJobs
