import NixEvalJobs.CacheStatus.Batches

/-!
# Cache status resolver — the retry loop ends

A pass over the jobs that leaves one of them blocked wants something that is not known;
the batch after it answers that, and the answers are finitely many. A pass that leaves
none blocked is the last one, unless other jobs have arrived in the meantime, as
`takeInbox` takes these over before the loop is left.

* `rounds_le` — the passes are paid for by answers and by arrivals.
* `loopSteps_le` — every pass is a bounded number of steps.
* `retryLoop_ends` — both, with what a blocked job and a batch do.
* `late_rounds` — jobs that arrive one after the other keep the loop going without a
  question.
-/

namespace NixEvalJobs

namespace Resolver

/-! ## The questions of a job -/

/-- A derivation and all it depends on. -/
def below (S : EvalStore) : Nat → StorePath → List StorePath
  | 0, _ => []
  | fuel + 1, drvPath => drvPath :: (inputs S drvPath).flatMap fun edge => below S fuel edge.1

/-- The output paths of the job, of its derivation and of all this depends on. -/
def closure (S : EvalStore) (drv : Drv) : List StorePath :=
  pathsOf ∅ drv.outputs.toList ++
    (below S (S.depth drv.drvPath + 1) drv.drvPath).flatMap (outputsOf S)

variable {S : EvalStore} {R : Resolver}

/-- What the walk comes to is below its beginning. -/
theorem mem_below {fuel : Nat} {v u : Visit} (h : Walked S R v u) (hfuel : S.depth v.1 < fuel) :
    u.1 ∈ below S fuel v.1 := by
  induction h using Relation.ReflTransGen.head_induction_on generalizing fuel with
  | refl =>
    obtain ⟨fuel, rfl⟩ := Nat.exists_eq_succ_of_ne_zero (Nat.ne_of_gt (Nat.zero_lt_of_lt hfuel))
    exact List.mem_cons_self ..
  -- an edge takes one from the depth, so the fuel is enough
  | head hpasses _ ih =>
    obtain ⟨fuel, rfl⟩ := Nat.exists_eq_succ_of_ne_zero (Nat.ne_of_gt (Nat.zero_lt_of_lt hfuel))
    have hdepth := depth_inputs hpasses.2
    exact List.mem_cons_of_mem _
      (List.mem_flatMap.mpr ⟨_, hpasses.2, ih (by omega)⟩)

/-- What an attempt asks about is in the closure of its job. -/
theorem mem_closure {drv : Drv} {path : StorePath} (h : path ∈ pathsOf ∅ drv.outputs.toList ∨
    ∃ u, Walked S R (drv.drvPath, ∅) u ∧ path ∈ wantedPaths S u) : path ∈ closure S drv := by
  rcases h with hjob | ⟨u, hwalked, hpath⟩
  · exact List.mem_append_left _ hjob
  · exact List.mem_append_right _ (List.mem_flatMap.mpr
      ⟨u.1, mem_below hwalked (Nat.lt_succ_self _), wantedPaths_subset hpath⟩)

end Resolver

/-- The thread is in a pass over its jobs, or in what follows it. -/
def Position.inRound : Position → Bool
  | .filtering _ _ | .swapping false | .sorting _ false | .resolving => true
  | _ => false

/-- The steps of the thread that are left of the pass. -/
def Position.left : Position → Nat
  | .filtering _ rest => rest.length + 4
  | .swapping false => 3
  | .sorting taken false => taken.length + 2
  | .resolving => 1
  | _ => 0

/-- In a pass there is a step left. -/
theorem Position.left_pos {position : Position} (h : position.inRound = true) :
    1 ≤ position.left := by
  unfold Position.inRound at h
  unfold Position.left
  split at h
  · exact Nat.le_add_left _ _
  · exact Nat.le_add_left _ _
  · exact Nat.le_add_left _ _
  · exact le_rfl
  · cases h

namespace CacheStatusResolver

open Resolver

/-- The paths of the jobs among the responses. -/
def closures (S : EvalStore) (responses : List Response) : Finset StorePath :=
  (responses.flatMap fun response =>
    match JobResponse.of? response with
    | some job => closure S job.drv
    | none => []).toFinset

/-- All that can be asked about the jobs. -/
def questionsOf (S : EvalStore) (responses : List Response) : Finset Question :=
  (closures S responses).disjSum (closures S responses)

variable {S : EvalStore} {R : Resolver} {st st' st₀ : CacheStatusResolver} {e : Event}
  {h : List (CacheStatusResolver × Event)}

/-- The paths of a job are among those of all jobs. -/
theorem mem_closures {job : JobResponse} {responses : List Response} {path : StorePath}
    (hjob : job.response ∈ responses) (hpath : path ∈ closure S job.drv) :
    path ∈ closures S responses := by
  refine List.mem_toFinset.mpr (List.mem_flatMap.mpr ⟨job.response, hjob, ?_⟩)
  rw [JobResponse.of?_response]
  exact hpath

/-- More responses have more paths. -/
theorem closures_mono {responses responses' : List Response} (hsub : responses ⊆ responses') :
    closures S responses ⊆ closures S responses' := by
  intro path hpath
  obtain ⟨response, hmem, hpath⟩ := List.mem_flatMap.mp (List.mem_toFinset.mp hpath)
  exact List.mem_toFinset.mpr (List.mem_flatMap.mpr ⟨response, hsub hmem, hpath⟩)

/-- More responses ask more questions. -/
theorem questionsOf_mono {responses responses' : List Response} (hsub : responses ⊆ responses') :
    questionsOf S responses ⊆ questionsOf S responses' :=
  Finset.disjSum_mono (closures_mono hsub) (closures_mono hsub)

/-- What an attempt asks for is a question about its job. -/
theorem mem_questionsOf {job : JobResponse} {responses : List Response} {question : Question}
    (hjob : job.response ∈ responses)
    (hasks : Sum.elim (JobAsksValidity S R job.drv) (JobAsksSubstituters S R job.drv) question) :
    question ∈ questionsOf S responses := by
  match question with
  | .inl path =>
    refine Finset.inl_mem_disjSum.mpr (mem_closures hjob (mem_closure (R := R) ?_))
    exact hasks.imp_right fun hslow => hslow.2
  | .inr path =>
    refine Finset.inr_mem_disjSum.mpr (mem_closures hjob (mem_closure (R := R) ?_))
    exact hasks.imp_right fun ⟨_, u, hwalked, _, hpath⟩ =>
      ⟨u, hwalked, (List.mem_filter.mp hpath).1⟩

/-! ## What is counted -/

/-- A response that the thread keeps for its passes. -/
def isJob (response : Response) : Bool := (JobResponse.of? response).isSome

/-- The thread begins a pass over its jobs. -/
def beginsRound (x : CacheStatusResolver × Event) : Bool :=
  match x.1.position, x.2 with
  | .checking, .proceed => !x.1.jobs.isEmpty && !x.1.aborted
  | _, _ => false

/-- The passes of a run. -/
def rounds (h : List (CacheStatusResolver × Event)) : Nat := h.countP beginsRound

/-- `takeInbox` takes a job over. -/
def takesJobs (x : CacheStatusResolver × Event) : Bool :=
  match x.1.position, x.2 with
  | .swapping _, .proceed => x.1.inbox.any isJob
  | _, _ => false

/-- How often jobs were taken over. -/
def arrivals (h : List (CacheStatusResolver × Event)) : Nat := h.countP takesJobs

/-- The response of a push. -/
def Event.pushes : Event → Option Response
  | .push response => some response
  | _ => none

/-- What was pushed in a run, latest first. -/
def pushedIn (h : List (CacheStatusResolver × Event)) : List Response :=
  h.filterMap fun x => x.2.pushes

/-- There is a job for the next pass. -/
def loaded (st : CacheStatusResolver) : Bool :=
  !st.jobs.isEmpty ||
    match st.position with
    | .sorting taken _ => taken.any isJob
    | .filtering kept _ => !kept.isEmpty
    | _ => false

/-- Only the beginning of a pass counts. -/
theorem rounds_cons (x : CacheStatusResolver × Event) :
    rounds (x :: h) = rounds h + if beginsRound x = true then 1 else 0 :=
  List.countP_cons

/-- Only `takeInbox` with a job counts. -/
theorem arrivals_cons (x : CacheStatusResolver × Event) :
    arrivals (x :: h) = arrivals h + if takesJobs x = true then 1 else 0 :=
  List.countP_cons

/-! ## Where the questions come from -/

/-- What is on its way was there when the run began, or was pushed in it, and questions
are about that. -/
structure Within (S : EvalStore) (st₀ : CacheStatusResolver)
    (h : List (CacheStatusResolver × Event)) (st : CacheStatusResolver) : Prop where
  inFlight : ∀ response ∈ st.inFlight, response ∈ st₀.inbox ++ pushedIn h
  questions : st.caches.questions ⊆ questionsOf S (st₀.inbox ++ pushedIn h)
  answered : st.caches.answered ⊆
    st₀.caches.answered ∪ questionsOf S (st₀.inbox ++ pushedIn h)

/-- A longer run has pushed more. -/
theorem pushedIn_subset (x : CacheStatusResolver × Event) (inbox : List Response) :
    inbox ++ pushedIn h ⊆ inbox ++ pushedIn (x :: h) := by
  have hcons : pushedIn h ⊆ pushedIn (x :: h) := by
    rw [pushedIn, pushedIn, List.filterMap_cons]
    split
    · exact List.Subset.refl _
    · exact List.subset_cons_self ..
  intro response hmem
  exact (List.mem_append.mp hmem).elim (List.mem_append_left _)
    fun hpushed => List.mem_append_right _ (hcons hpushed)

/-- Whatever happens, questions and answers are about what was pushed. -/
theorem Within.step (hrely : Reads S st e) (htidy : Tidy S st) (hwithin : Within S st₀ h st)
    (hstep : Steps st e st') : Within S st₀ ((st, e) :: h) st' := by
  have hsub := pushedIn_subset (h := h) (st, e) st₀.inbox
  have hquestions := hwithin.questions.trans (questionsOf_mono (S := S) hsub)
  have hanswered : st.caches.answered ⊆
      st₀.caches.answered ∪ questionsOf S (st₀.inbox ++ pushedIn ((st, e) :: h)) :=
    hwithin.answered.trans (Finset.union_subset_union_right (questionsOf_mono hsub))
  refine ⟨fun response hmem => ?_, ?_, ?_⟩
  · rcases hstep.inFlight_subset htidy.jobsFree response hmem with hold | rfl
    · exact hsub (hwithin.inFlight response hold)
    · exact List.mem_append_right _ (List.mem_cons_self ..)
  · -- new questions are about the job that is tried, which is on its way
    match hstep.caches with
    | .same hsame => rwa [hsame]
    | .batch _ _ hbatch =>
      rw [hbatch, (answered_resolveWanted _ _ _).2]
      exact Finset.empty_subset _
    | @CachesStep.attempt _ _ _ S' kept rest job _ _ he hpos htry =>
      obtain rfl : S' = S := by
        subst he
        exact hrely
      intro question hquestion
      obtain ⟨-, -, -, hnew, -⟩ := tryResolve_questions htidy.faithful htry
      rcases hnew question hquestion with hold | ⟨-, hasks⟩
      · exact hquestions hold
      · refine mem_questionsOf (hsub (hwithin.inFlight job.response ?_)) hasks
        refine Multiset.mem_add.mpr (.inl (Multiset.mem_add.mpr (.inr ?_)))
        rw [hpos]
        simp [Position.held]
  · -- new answers are those to the questions
    match hstep.caches with
    | .same hsame => rwa [hsame]
    | .batch _ _ hbatch =>
      rw [hbatch, (answered_resolveWanted _ _ _).1]
      exact Finset.union_subset hanswered (hquestions.trans Finset.subset_union_right)
    | .attempt he _ htry =>
      subst he
      obtain rfl : _ = S := hrely
      rwa [(tryResolve_questions htidy.faithful htry).2.1]

/-! ## Every pass is paid for -/

/-- The passes so far are paid for by answers and arrivals, and so is the next one, or
there is a question that will pay for this one. -/
structure Paid (st₀ : CacheStatusResolver) (h : List (CacheStatusResolver × Event))
    (st : CacheStatusResolver) : Prop where
  passes : st₀.caches.answered.card + rounds h ≤ st.caches.answered.card + arrivals h
  next : st.loaded = true →
    st₀.caches.answered.card + rounds h + 1 ≤ st.caches.answered.card + arrivals h ∨
      st.caches.Asking

/-- An event that begins no pass does not count. -/
theorem rounds_uncounted (hbegins : beginsRound (st, e) = false) :
    rounds ((st, e) :: h) = rounds h := by
  rw [rounds_cons, hbegins]
  rfl

/-- Nor does one that takes no job over. -/
theorem arrivals_uncounted (htakes : takesJobs (st, e) = false) :
    arrivals ((st, e) :: h) = arrivals h := by
  rw [arrivals_cons, htakes]
  rfl

/-- A pass begins when the thread goes on by itself. -/
theorem beginsRound_of_ne (he : e ≠ .proceed) : beginsRound (st, e) = false := by
  unfold beginsRound
  split
  · next he' => exact absurd he' he
  · rfl

/-- Only steps of the thread without an outcome are counted. -/
theorem uncounted_of_ne (he : e ≠ .proceed) :
    rounds ((st, e) :: h) = rounds h ∧ arrivals ((st, e) :: h) = arrivals h := by
  refine ⟨rounds_uncounted (beginsRound_of_ne he), arrivals_uncounted ?_⟩
  unfold takesJobs
  split
  · next he' => exact absurd he' he
  · rfl

/-- A step that is not counted and leaves the caches alone. -/
theorem Paid.uncounted (hpaid : Paid st₀ h st)
    (hcount : rounds ((st, e) :: h) = rounds h ∧ arrivals ((st, e) :: h) = arrivals h)
    (hcaches : st'.caches = st.caches) (hloaded : st'.loaded = true → st.loaded = true) :
    Paid st₀ ((st, e) :: h) st' := by
  refine ⟨?_, fun hnext => ?_⟩
  · rw [hcount.1, hcount.2, hcaches]
    exact hpaid.passes
  · rw [hcount.1, hcount.2, hcaches]
    exact hpaid.next (hloaded hnext)

/-- **An arrival** pays for the next pass. -/
theorem Paid.arrived (hpaid : Paid st₀ h st) (hrounds : rounds ((st, e) :: h) = rounds h)
    (harrivals : arrivals ((st, e) :: h) = arrivals h + 1) (hcaches : st'.caches = st.caches) :
    Paid st₀ ((st, e) :: h) st' := by
  have hpasses := hpaid.passes
  refine ⟨?_, fun _ => .inl ?_⟩
  · rw [hrounds, harrivals, hcaches]
    omega
  · rw [hrounds, harrivals, hcaches]
    omega

/-- **A pass that begins** has been paid for, as nothing is wanted before it. -/
theorem Paid.began (hpaid : Paid st₀ h st) (hcalm : st.caches.questions = ∅)
    (harrivals : arrivals ((st, e) :: h) = arrivals h)
    (hbegins : beginsRound (st, e) = true → st.loaded = true)
    (hcaches : st'.caches = st.caches) (hloaded : st'.loaded = false) :
    Paid st₀ ((st, e) :: h) st' := by
  have hpasses := hpaid.passes
  refine ⟨?_, fun hnext => absurd hnext (by rw [hloaded]; exact Bool.false_ne_true)⟩
  rw [rounds_cons, harrivals, hcaches]
  split
  · next hpass =>
    -- it was paid before, or a question is open; but a pass begins with none
    rcases hpaid.next (hbegins hpass) with hnext | hasking
    · omega
    · obtain ⟨question, hquestion, -⟩ := asking_iff.mp hasking
      rw [hcalm] at hquestion
      exact absurd hquestion (Finset.notMem_empty question)
  · omega

/-- **An attempt** is not counted; it only asks more. -/
theorem Paid.attempted (hpaid : Paid st₀ h st) (he : e ≠ .proceed)
    (hanswered : st'.caches.answered = st.caches.answered)
    (hnext : st'.caches.Asking ∨
      st.caches.questions ⊆ st'.caches.questions ∧ (st'.loaded = true → st.loaded = true)) :
    Paid st₀ ((st, e) :: h) st' := by
  obtain ⟨hrounds, harrivals⟩ := @uncounted_of_ne st e h he
  refine ⟨?_, fun hloaded => ?_⟩
  · rw [hrounds, harrivals, hanswered]
    exact hpaid.passes
  · rw [hrounds, harrivals, hanswered]
    rcases hnext with hasking | ⟨hquestions, hkeeps⟩
    · exact .inr hasking
    · refine (hpaid.next (hkeeps hloaded)).imp_right fun hasking => ?_
      obtain ⟨question, hquestion, hunknown⟩ := asking_iff.mp hasking
      exact asking_iff.mpr ⟨question, hquestions hquestion, hanswered ▸ hunknown⟩

/-- **A batch** pays for the pass that follows it, if the one before it asked anything. -/
theorem Paid.batched (hpaid : Paid st₀ h st) (he : e ≠ .proceed)
    (hanswered : st'.caches.answered = st.caches.answered ∪ st.caches.questions)
    (hkeeps : st'.loaded = true → st.loaded = true) : Paid st₀ ((st, e) :: h) st' := by
  obtain ⟨hrounds, harrivals⟩ := @uncounted_of_ne st e h he
  have hsub : st.caches.answered ⊆ st'.caches.answered := by
    rw [hanswered]
    exact Finset.subset_union_left
  have hmono := Finset.card_le_card hsub
  have hpasses := hpaid.passes
  refine ⟨?_, fun hloaded => .inl ?_⟩
  · rw [hrounds, harrivals]
    omega
  · rw [hrounds, harrivals]
    rcases hpaid.next (hkeeps hloaded) with hnext | hasking
    · omega
    · -- the answers have become more
      obtain ⟨question, hquestion, hunknown⟩ := asking_iff.mp hasking
      have hgrows : st.caches.answered.card < st'.caches.answered.card := by
        refine Finset.card_lt_card ⟨hsub, fun hback => hunknown (hback ?_)⟩
        rw [hanswered]
        exact Finset.mem_union_right _ hquestion
      omega

/-- A step of the thread. -/
theorem Paid.run (hrely : Reads S st e) (htidy : Tidy S st) (hpaid : Paid st₀ h st)
    (hruns : Runs st e st') : Paid st₀ ((st, e) :: h) st' := by
  -- only the swap and the beginning of a pass count
  match hruns with
  | .ended hpos _ | .woken hpos | .drained hpos _ | .erased hpos =>
    refine hpaid.uncounted ⟨rounds_uncounted ?_, arrivals_uncounted ?_⟩ rfl fun hloaded => ?_
    all_goals simp_all [beginsRound, takesJobs, loaded]
  | @Runs.sorted _ first hpos =>
    refine hpaid.uncounted ⟨rounds_uncounted ?_, arrivals_uncounted ?_⟩ rfl fun hloaded => ?_
    · simp [beginsRound, hpos]
    · simp [takesJobs, hpos]
    · cases first <;> simpa [loaded, hpos] using hloaded
  -- a job that was taken was a reason for the next pass already
  | .queued hpos hjob =>
    refine hpaid.uncounted ⟨rounds_uncounted ?_, arrivals_uncounted ?_⟩ rfl fun _ => ?_
    · simp [beginsRound, hpos]
    · simp [takesJobs, hpos]
    · simp [loaded, hpos, ← hjob, isJob, JobResponse.of?_response]
  | .passed hpos hother =>
    refine hpaid.uncounted ⟨rounds_uncounted ?_, arrivals_uncounted ?_⟩ rfl fun hloaded => ?_
    · simp [beginsRound, hpos]
    · simp [takesJobs, hpos]
    · simpa [loaded, hpos, isJob, hother] using hloaded
  | .gaveUp hpos haborted =>
    refine hpaid.uncounted ⟨rounds_uncounted ?_, arrivals_uncounted ?_⟩ rfl fun hloaded => ?_
    · simp [beginsRound, hpos, haborted]
    · simp [takesJobs, hpos]
    · simpa [loaded, hpos] using hloaded
  | .swapped hpos =>
    -- the end of a pass, or the beginning of the loop: there may be jobs
    have hrounds : rounds ((st, .proceed) :: h) = rounds h :=
      rounds_uncounted (by simp [beginsRound, hpos])
    have htakes : takesJobs (st, .proceed) = st.inbox.any isJob := by simp [takesJobs, hpos]
    cases hany : st.inbox.any isJob with
    | true =>
      refine hpaid.arrived hrounds ?_ rfl
      rw [arrivals_cons, htakes, hany, if_pos rfl]
    | false =>
      refine hpaid.uncounted ⟨hrounds, arrivals_uncounted (htakes.trans hany)⟩ rfl fun hloaded => ?_
      simpa [loaded, hpos, hany] using hloaded
  | .began hpos =>
    refine hpaid.began (htidy.calm (by rw [hpos]; rfl)) (arrivals_uncounted ?_)
      (fun hbegins => ?_) rfl (by simp [loaded])
    · simp [takesJobs, hpos]
    · have hjobs : ¬st.jobs = [] := by
        intro hnone
        simp [beginsRound, hpos, hnone] at hbegins
      simp [loaded, hjobs]
  | @Runs.kept _ _ _ _ _ S' _ hpos htry =>
    obtain rfl : S' = S := hrely
    obtain ⟨-, hanswered, -, -, hasking⟩ := tryResolve_questions htidy.faithful htry
    exact hpaid.attempted (by simp) hanswered (.inl (hasking rfl))
  | @Runs.resolved _ _ _ _ _ S' _ hpos htry =>
    obtain rfl : S' = S := hrely
    obtain ⟨-, hanswered, hquestions, -, -⟩ := tryResolve_questions htidy.faithful htry
    refine hpaid.attempted (by simp) hanswered (.inr ⟨hquestions, fun hloaded => ?_⟩)
    simpa [loaded, hpos] using hloaded
  | .answered hpos =>
    refine hpaid.batched (by simp) (answered_resolveWanted _ _ _).1 fun hloaded => ?_
    simpa [loaded, hpos] using hloaded

/-- Every step keeps the passes paid for. -/
theorem Paid.step (hrely : Reads S st e) (htidy : Tidy S st) (hpaid : Paid st₀ h st)
    (hstep : Steps st e st') : Paid st₀ ((st, e) :: h) st' := by
  match hstep with
  | .pushed _ _ _ | .dropped _ _ | .closed _ | .joined _ _ | .destroyed =>
    exact hpaid.uncounted (uncounted_of_ne (by simp)) rfl id
  | .ran hrun => exact hpaid.run hrely htidy (run_runs hrun)
  | .threw hrun =>
    refine hpaid.uncounted (uncounted_of_ne ?_) rfl fun hloaded => ?_
    · rcases run_error hrun with ⟨_, rfl⟩ | ⟨_, rfl⟩
      · simp
      · simp
    · -- the locals of `run` are gone, and so is the next pass
      have hjobs : (!st.jobs.isEmpty) = true := by simpa [loaded, caught] using hloaded
      rw [loaded, hjobs, Bool.true_or]

/-- In every run the passes so far are paid for. -/
theorem paid_trail (h₀ : system.Reachable (Reads S) st₀) (hwaits : st₀.position = .waiting)
    (ht : (system.startingAt st₀).Trail (Reads S) h st) :
    Within S st₀ h st ∧ Paid st₀ h st := by
  have htidy₀ := tidy_reachable h₀
  have hjobs : st₀.jobs = [] := htidy₀.jobsFree.1 hwaits
  induction ht with
  -- `inboxCv.wait` is outside the loop, so nothing is wanted and there are no jobs
  | init =>
    have hcalm : st₀.caches.questions = ∅ := htidy₀.calm (by rw [hwaits]; rfl)
    refine ⟨⟨fun response hmem => ?_, ?_, Finset.subset_union_left⟩, le_rfl, fun hloaded => ?_⟩
    · refine List.mem_append_left _ ?_
      simpa [inFlight, System.startingAt, hjobs, hwaits, Position.held] using hmem
    · change st₀.caches.questions ⊆ _
      rw [hcalm]
      exact Finset.empty_subset _
    · simp [loaded, System.startingAt, hjobs, hwaits] at hloaded
  | step ht hrely hstep ih =>
    have htidy := tidy_reachable (ht.reachable_from h₀)
    exact ⟨ih.1.step hrely htidy (step_steps hstep), ih.2.step hrely htidy (step_steps hstep)⟩

/-- **The passes of a run** are at most as many as the questions about its jobs, and the
times that jobs were taken over. -/
theorem rounds_le (h₀ : system.Reachable (Reads S) st₀) (hwaits : st₀.position = .waiting)
    (ht : (system.startingAt st₀).Trail (Reads S) h st) :
    rounds h ≤ (questionsOf S (st₀.inbox ++ pushedIn h)).card + arrivals h := by
  obtain ⟨hwithin, hpaid⟩ := paid_trail h₀ hwaits ht
  -- new answers are among the questions
  have hcard := (Finset.card_le_card hwithin.answered).trans (Finset.card_union_le _ _)
  have hpasses := hpaid.passes
  omega

/-! ## A pass is finite -/

/-- An event of the collector's thread. -/
def isCollector : Event → Bool
  | .push _ | .close | .join | .destroy => true
  | _ => false

/-- A step of the thread in the loop over its jobs. -/
def loopStep (x : CacheStatusResolver × Event) : Bool :=
  beginsRound x || (x.1.position.inRound && !isCollector x.2)

/-- The steps of the thread in the loop. -/
def loopSteps (h : List (CacheStatusResolver × Event)) : Nat := h.countP loopStep

/-- The responses of a run. -/
def responses (st₀ : CacheStatusResolver) (h : List (CacheStatusResolver × Event)) : Nat :=
  (st₀.inbox ++ pushedIn h).length

/-- The steps so far, and those that are left, are paid for by the passes and by what
was pushed. -/
structure Bounded (st₀ : CacheStatusResolver) (h : List (CacheStatusResolver × Event))
    (st : CacheStatusResolver) : Prop where
  inFlight : Multiset.card st.inFlight ≤ responses st₀ h
  steps : loopSteps h + st.position.left + st.inbox.length ≤
    responses st₀ h + rounds h * (responses st₀ h + 5)

/-- Only a step in the loop counts. -/
theorem loopSteps_cons (x : CacheStatusResolver × Event) :
    loopSteps (x :: h) = loopSteps h + if loopStep x = true then 1 else 0 :=
  List.countP_cons

/-- A push is one response more. -/
theorem responses_push (response : Response) :
    responses st₀ ((st, .push response) :: h) = responses st₀ h + 1 := by
  have hpushed : pushedIn ((st, .push response) :: h) = response :: pushedIn h := rfl
  rw [responses, responses, hpushed, List.length_append, List.length_append, List.length_cons,
    Nat.add_assoc]

/-- Nothing else is. -/
theorem responses_of_none (he : e.pushes = none) :
    responses st₀ ((st, e) :: h) = responses st₀ h := by
  have hpushed : pushedIn ((st, e) :: h) = pushedIn h := List.filterMap_cons_none he
  rw [responses, responses, hpushed]

/-- A step that is neither a push nor the beginning of a pass uses up what is left. -/
theorem Bounded.uses (hbounded : Bounded st₀ h st) (he : e.pushes = none)
    (hrounds : rounds ((st, e) :: h) = rounds h)
    (hinFlight : Multiset.card st'.inFlight ≤ Multiset.card st.inFlight)
    (hleft : (if loopStep (st, e) = true then 1 else 0) + st'.position.left +
      st'.inbox.length ≤ st.position.left + st.inbox.length) :
    Bounded st₀ ((st, e) :: h) st' := by
  have hsteps := hbounded.steps
  refine ⟨?_, ?_⟩
  · rw [responses_of_none he]
    exact hinFlight.trans hbounded.inFlight
  · rw [responses_of_none he, hrounds, loopSteps_cons]
    omega

/-- A step of the thread brings no response. -/
theorem Runs.inFlight_card (hfree : st.JobsFree) (h : Runs st e st') :
    Multiset.card st'.inFlight ≤ Multiset.card st.inFlight := by
  rcases h.inFlight hfree with ⟨hsame, -⟩ | ⟨p, s, hmoved, -, -⟩
  · rw [hsame]
  · rw [hmoved, Multiset.card_add]
    exact Nat.le_add_left _ _

/-- The thread begins a pass when it comes to one. -/
theorem beginsRound_of_run (hrun : st.run e = some (.ok st')) (hpos : st.position = .checking)
    {kept rest : List JobResponse} (hpos' : st'.position = .filtering kept rest) :
    beginsRound (st, e) = true := by
  match e with
  | .proceed =>
    simp only [CacheStatusResolver.run, hpos] at hrun
    split at hrun
    · obtain rfl := Except.ok.inj (Option.some.inj hrun)
      cases hpos'
    split at hrun
    · obtain rfl := Except.ok.inj (Option.some.inj hrun)
      cases hpos'
    · next hjobs haborted => simp [beginsRound, hpos, hjobs, haborted]
  | .fail _ | .attempt _ | .resolveWanted _ _ | .push _ | .close | .join | .destroy =>
    simp [CacheStatusResolver.run, hpos] at hrun

/-- An event of the collector is no step of the loop and begins no pass. -/
theorem uncounted_of_collector (st : CacheStatusResolver)
    (h : List (CacheStatusResolver × Event)) (he : isCollector e = true) :
    loopStep (st, e) = false ∧ rounds ((st, e) :: h) = rounds h := by
  have hne : e ≠ .proceed := by
    rintro rfl
    cases he
  have hbegins : beginsRound (st, e) = false := beginsRound_of_ne hne
  refine ⟨?_, rounds_uncounted hbegins⟩
  rw [loopStep, hbegins, he, Bool.not_true, Bool.and_false, Bool.or_false]

/-- A pass pays for all of its steps. -/
theorem Bounded.began (hbounded : Bounded st₀ h st) (hpos : st.position = .checking)
    (hbegins : beginsRound (st, .proceed) = true) (hinbox : st'.inbox = st.inbox)
    (hnext : st'.position = .filtering [] st.jobs)
    (hinFlight : Multiset.card st'.inFlight ≤ Multiset.card st.inFlight) :
    Bounded st₀ ((st, .proceed) :: h) st' := by
  -- the jobs of the pass are on their way
  have hjobs : st.jobs.length ≤ responses st₀ h := by
    have hcard := hbounded.inFlight
    simp only [CacheStatusResolver.inFlight, Multiset.card_add, Multiset.coe_card,
      List.length_map] at hcard
    omega
  have hsteps := hbounded.steps
  have hloop : loopStep (st, .proceed) = true := by rw [loopStep, hbegins, Bool.true_or]
  refine ⟨?_, ?_⟩
  · rw [responses_of_none rfl]
    exact hinFlight.trans hbounded.inFlight
  · rw [responses_of_none rfl, rounds_cons, loopSteps_cons, hbegins, hloop, if_pos rfl,
      Nat.succ_mul, hinbox, hnext]
    simp only [hpos, Position.left] at hsteps ⊢
    omega

/-- A step of the thread is paid for. -/
theorem Bounded.run (htidy : Tidy S st) (hbounded : Bounded st₀ h st)
    (hrun : st.run e = some (.ok st')) : Bounded st₀ ((st, e) :: h) st' := by
  have hruns := run_runs hrun
  have hinFlight := hruns.inFlight_card htidy.jobsFree
  match hruns with
  | .ended hpos _ | .woken hpos | .drained hpos _ | .gaveUp hpos _ =>
    refine hbounded.uses rfl (rounds_uncounted ?_) hinFlight ?_
    all_goals simp_all [loopStep, beginsRound, Position.inRound, Position.left]
  | @Runs.swapped _ first hpos =>
    refine hbounded.uses rfl (rounds_uncounted (by simp [beginsRound, hpos])) hinFlight ?_
    cases first with
    | true => simp [loopStep, beginsRound, hpos, Position.inRound, Position.left]
    | false =>
      simp [loopStep, beginsRound, hpos, Position.inRound, Position.left, isCollector]
      omega
  | @Runs.sorted _ first hpos =>
    refine hbounded.uses rfl (rounds_uncounted (by simp [beginsRound, hpos])) hinFlight ?_
    cases first with
    | true => simp [loopStep, beginsRound, hpos, Position.inRound, Position.left]
    | false => simp [loopStep, beginsRound, hpos, Position.inRound, Position.left, isCollector]
  | @Runs.queued _ _ _ first _ hpos _ | @Runs.passed _ _ _ first hpos _ =>
    refine hbounded.uses rfl (rounds_uncounted (by simp [beginsRound, hpos])) hinFlight ?_
    cases first with
    | true => simp [loopStep, beginsRound, hpos, Position.inRound, Position.left]
    | false =>
      simp [loopStep, beginsRound, hpos, Position.inRound, Position.left, isCollector]
      omega
  | .began hpos =>
    exact hbounded.began hpos (beginsRound_of_run hrun hpos rfl) rfl rfl hinFlight
  | .kept hpos _ | .resolved hpos _ =>
    refine hbounded.uses rfl (rounds_uncounted (beginsRound_of_ne (by simp))) hinFlight ?_
    simp [loopStep, beginsRound, hpos, Position.inRound, Position.left, isCollector]
    omega
  | .erased hpos =>
    refine hbounded.uses rfl (rounds_uncounted (by simp [beginsRound, hpos])) hinFlight ?_
    simp [loopStep, beginsRound, hpos, Position.inRound, Position.left, isCollector]
  | .answered hpos =>
    refine hbounded.uses rfl (rounds_uncounted (beginsRound_of_ne (by simp))) hinFlight ?_
    simp [loopStep, beginsRound, hpos, Position.inRound, Position.left, isCollector]

/-- Every step keeps the bound. -/
theorem Bounded.step (htidy : Tidy S st) (hbounded : Bounded st₀ h st)
    (hstep : Steps st e st') : Bounded st₀ ((st, e) :: h) st' := by
  have hsteps := hbounded.steps
  have hcard := hbounded.inFlight
  -- a push also makes the passes so far longer in the bound
  have hmore : rounds h * (responses st₀ h + 5) ≤ rounds h * (responses st₀ h + 1 + 5) :=
    Nat.mul_le_mul_left _ (by omega)
  match hstep with
  | @Steps.pushed _ response _ _ _ =>
    obtain ⟨hloop, hrounds⟩ := @uncounted_of_collector (.push response) st h rfl
    refine ⟨?_, ?_⟩
    · rw [responses_push]
      simp only [CacheStatusResolver.inFlight, Multiset.card_add, Multiset.coe_card,
        List.length_append, List.length_singleton] at hcard ⊢
      omega
    · rw [responses_push, hrounds, loopSteps_cons, hloop]
      simp only [Bool.false_eq_true, if_false, List.length_append, List.length_singleton]
      omega
  | @Steps.dropped _ response _ _ =>
    obtain ⟨hloop, hrounds⟩ := @uncounted_of_collector (.push response) st h rfl
    refine ⟨?_, ?_⟩
    · rw [responses_push]
      exact hcard.trans (Nat.le_succ _)
    · rw [responses_push, hrounds, loopSteps_cons, hloop]
      simp only [Bool.false_eq_true, if_false]
      omega
  | .closed _ | .joined _ _ | .destroyed =>
    refine hbounded.uses rfl (uncounted_of_collector st h rfl).2 le_rfl ?_
    rw [(uncounted_of_collector st h rfl).1]
    simp
  | .ran hrun => exact hbounded.run htidy hrun
  | .threw hrun =>
    have hne : e ≠ .proceed ∧ e.pushes = none := by
      rcases run_error hrun with ⟨_, rfl⟩ | ⟨_, rfl⟩
      · exact ⟨by simp, rfl⟩
      · exact ⟨by simp, rfl⟩
    have hbegins : beginsRound (st, e) = false := beginsRound_of_ne hne.1
    refine hbounded.uses hne.2 (rounds_uncounted hbegins) ?_ ?_
    · simp only [CacheStatusResolver.inFlight, caught, Position.held, Multiset.card_add,
        Multiset.coe_card, List.length_nil, add_zero]
      omega
    · -- the end of the thread uses up all that was left
      rw [loopStep, hbegins, Bool.false_or]
      split
      · next hloop =>
        have hleft := Position.left_pos (Bool.and_eq_true_iff.mp hloop).1
        simp only [caught, Position.left] at hleft ⊢
        omega
      · simp only [caught, Position.left]
        omega

/-- A step of the thread is a step of the resolver. -/
theorem step_isSome (he : isCollector e = false) (hrun : (st.run e).isSome = true) :
    (st.step e).isSome = true := by
  unfold CacheStatusResolver.step
  split
  · cases he
  · cases he
  · cases he
  · cases he
  · cases he
  · rw [Option.isSome_map]
    exact hrun

/-- In the loop the thread has a next step. -/
theorem loop_progress (S : EvalStore) (st : CacheStatusResolver)
    (h : st.position = .checking ∨ st.position.inRound = true) :
    ∃ e, isCollector e = false ∧ Reads S st e ∧ (st.step e).isSome = true := by
  -- most positions go on by themselves
  have hproceeds : (st.run .proceed).isSome = true → ∃ e, isCollector e = false ∧
      Reads S st e ∧ (st.step e).isSome = true :=
    fun hrun => ⟨.proceed, rfl, trivial, step_isSome rfl hrun⟩
  match hpos : st.position with
  | .filtering kept (job :: rest) =>
    refine ⟨.attempt S, rfl, rfl, step_isSome rfl ?_⟩
    simp only [CacheStatusResolver.run, hpos]
    split <;> rfl
  | .resolving =>
    refine ⟨.resolveWanted (fun _ => false) (fun _ => false), rfl, trivial, step_isSome rfl ?_⟩
    simp only [CacheStatusResolver.run, hpos]
    rfl
  | .checking =>
    refine hproceeds ?_
    simp only [CacheStatusResolver.run, hpos]
    split
    · rfl
    · split <;> rfl
  | .sorting (response :: taken) first =>
    refine hproceeds ?_
    simp only [CacheStatusResolver.run, hpos]
    split <;> rfl
  | .filtering kept [] | .swapping _ | .sorting [] _ =>
    refine hproceeds ?_
    simp only [CacheStatusResolver.run, hpos]
    rfl
  | .waiting | .stopped =>
    rw [hpos] at h
    exact absurd h (by simp [Position.inRound])

/-- In every run the steps so far are paid for. -/
theorem bounded_trail (h₀ : system.Reachable (Reads S) st₀) (hwaits : st₀.position = .waiting)
    (ht : (system.startingAt st₀).Trail (Reads S) h st) : Bounded st₀ h st := by
  induction ht with
  | init =>
    have hjobs : st₀.jobs = [] := (tidy_reachable h₀).jobsFree.1 hwaits
    refine ⟨?_, ?_⟩
    · simp [inFlight, System.startingAt, hjobs, hwaits, Position.held, responses, pushedIn]
    · simp [System.startingAt, hwaits, Position.left, responses, pushedIn, loopSteps, rounds]
  | step ht _ hstep ih =>
    exact ih.step (tidy_reachable (ht.reachable_from h₀)) (step_steps hstep)

/-- What is taken over was pushed before. -/
theorem arrivals_trail (ht : (system.startingAt st₀).Trail (Reads S) h st) :
    arrivals h + st.inbox.length ≤ responses st₀ h := by
  induction ht with
  | init => simp [System.startingAt, responses, pushedIn, arrivals]
  | @step h st _ e ht _ hstep ih =>
    -- only the swap counts
    have hother : ∀ {st'' : CacheStatusResolver}, e.pushes = none → takesJobs (st, e) = false →
        st''.inbox = st.inbox →
        arrivals ((st, e) :: h) + st''.inbox.length ≤ responses st₀ ((st, e) :: h) := by
      intro st'' he htakes hinbox
      rw [arrivals_uncounted htakes, responses_of_none he, hinbox]
      exact ih
    have hpush : ∀ response, takesJobs (st, .push response) = false := by simp [takesJobs]
    match step_steps hstep with
    | .pushed _ _ _ =>
      rw [arrivals_uncounted (hpush _), responses_push, List.length_append]
      exact Nat.succ_le_succ ih
    | .dropped _ _ =>
      rw [arrivals_uncounted (hpush _), responses_push]
      exact ih.trans (Nat.le_succ _)
    | .closed _ | .joined _ _ | .destroyed => exact hother rfl (by simp [takesJobs]) rfl
    | .threw hrun =>
      rcases run_error hrun with ⟨_, rfl⟩ | ⟨_, rfl⟩
      · exact hother rfl (by simp [takesJobs]) rfl
      · exact hother rfl (by simp [takesJobs]) rfl
    | .ran hrun =>
      match run_runs hrun with
      | .swapped hpos =>
        rw [responses_of_none rfl, arrivals_cons]
        split
        · next htakes =>
          -- a job was there
          have hinbox : 0 < st.inbox.length := by
            simp only [takesJobs, hpos] at htakes
            obtain ⟨response, hmem, -⟩ := List.any_eq_true.mp htakes
            exact List.length_pos_of_mem hmem
          simp only [List.length_nil]
          omega
        · simp only [List.length_nil]
          omega
      | .ended hpos _ | .woken hpos | .sorted hpos | .queued hpos _ | .passed hpos _
      | .drained hpos _ | .gaveUp hpos _ | .began hpos | .erased hpos =>
        exact hother rfl (by simp [takesJobs, hpos]) rfl
      | .kept _ _ | .resolved _ _ | .answered _ => exact hother rfl (by simp [takesJobs]) rfl

/-! ## The loop -/

/-- What holds of the loop over the jobs, in a run that began before `inboxCv.wait`. -/
structure RetryLoop (S : EvalStore) (st₀ : CacheStatusResolver)
    (h : List (CacheStatusResolver × Event)) (st : CacheStatusResolver) : Prop where
  /-- An attempt that leaves its job blocked asks what no cache answers. -/
  blocked : ∀ (drv drv' : Drv) (caches : Resolver),
    st.caches.tryResolve S drv = .ok (false, drv', caches) → caches.Asking
  /-- A batch answers all that was asked. -/
  batch : ∀ valid substitutable : StorePath → Bool,
    (st.caches.resolveWanted valid substitutable).answered =
        st.caches.answered ∪ st.caches.questions ∧
      (st.caches.resolveWanted valid substitutable).questions = ∅
  /-- Answers and arrivals pay for the passes. -/
  rounds : rounds h ≤ (questionsOf S (st₀.inbox ++ pushedIn h)).card + arrivals h
  arrivals : arrivals h ≤ responses st₀ h
  /-- The steps of all passes together. -/
  steps : loopSteps h ≤ responses st₀ h + CacheStatusResolver.rounds h * (responses st₀ h + 5)
  /-- Nothing but these bounds ends the loop. -/
  progress : st.position = .checking ∨ st.position.inRound = true →
    ∃ e, isCollector e = false ∧ Reads S st e ∧ (st.step e).isSome = true
  once : h.Pairwise fun later earlier => Disjoint (queried later) (queried earlier)

/-- **The retry loop ends** over every store and whatever the queries answer, and no path
is asked about twice. -/
theorem retryLoop_ends (h₀ : system.Reachable (Reads S) st₀) (hwaits : st₀.position = .waiting)
    (ht : (system.startingAt st₀).Trail (Reads S) h st) : RetryLoop S st₀ h st where
  blocked _ _ _ htry :=
    (tryResolve_questions (tidy_reachable (ht.reachable_from h₀)).faithful htry).2.2.2.2 rfl
  batch valid substitutable := answered_resolveWanted valid substitutable st.caches
  rounds := rounds_le h₀ hwaits ht
  arrivals := (Nat.le_add_right _ _).trans (arrivals_trail ht)
  steps := by
    have hsteps := (bounded_trail h₀ hwaits ht).steps
    omega
  progress := loop_progress S st
  once := queries_disjoint h₀ ht

/-! ### Jobs that arrive late -/

/-- A library alone. -/
def libStore : EvalStore :=
  listStore [(libDrv, demoDrv libOut ∅)] (fun _ => 0) (by decide +kernel)

/-- The library is there, which the second pass finds; it comes again before that pass has
ended, and before the next one has. -/
def lateRun : List Event :=
  Event.push (demoResponse (.job libJob none)) :: List.replicate 5 .proceed ++
    [Event.attempt libStore, .proceed, .proceed, .proceed,
      .resolveWanted (fun _ => true) (fun _ => false), .proceed] ++
    (List.replicate 2 [Event.attempt libStore, .push (demoResponse (.job libJob none)), .proceed,
      .proceed, .proceed, .proceed, .resolveWanted (fun _ => true) (fun _ => false),
      .proceed]).flatten

/-- Every event of the run can happen. -/
theorem lateRun_isSome : (system.trailOf lateRun).isSome = true := by
  decide +kernel

/-- So there is such a run. -/
theorem lateRun_trail : system.Trail (Reads libStore)
    ((system.trailOf lateRun).get lateRun_isSome).1
    ((system.trailOf lateRun).get lateRun_isSome).2 :=
  System.trail_of_trailOf (by simp [lateRun, Reads, List.replicate])
    (Option.some_get lateRun_isSome).symm

/-- Two questions, one run of the loop, and four passes. -/
theorem late_rounds : ∃ h st, system.Trail (Reads libStore) h st ∧
    (h.countP fun x => x.1.position matches .waiting && x.2 matches .proceed) = 1 ∧
    (questionsOf libStore (pushedIn h)).card + 1 < rounds h := by
  refine ⟨_, _, lateRun_trail, ?_, ?_⟩
  · decide +kernel
  · decide +kernel

/-- Three arrivals and one answer pay for the four passes. -/
theorem retryLoop_ends_lateRun :
    let h := ((system.trailOf lateRun).get lateRun_isSome).1
    let st := ((system.trailOf lateRun).get lateRun_isSome).2
    rounds h = 4 ∧ arrivals h = 3 ∧ RetryLoop libStore system.init h st := by
  intro h st
  exact ⟨by decide +kernel, by decide +kernel, retryLoop_ends .init rfl lateRun_trail⟩

end CacheStatusResolver

end NixEvalJobs
