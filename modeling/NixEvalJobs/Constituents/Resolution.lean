import NixEvalJobs.Constituents.Aggregates

/-!
# Aggregates — what resolution finds

`resolveNamedConstituents` in terms of the `JobMap` alone: which jobs a name or a
pattern stands for, which of them become dependencies, and what is broken. The
sort neither loses nor adds an aggregate.

* `collectAggregates_spec` — the dependencies and broken jobs of every aggregate.
* `mem_topoSort` — sorting permutes.
* `resolveNamedConstituents_spec` — both together.
-/

namespace NixEvalJobs

namespace Aggregates

/-! ## Names and patterns -/

/-- The job is there and has no error. -/
def GoodJob (jobs : JobMap) (name : Str) : Prop :=
  ∃ job, jobs[name]? = some job ∧ job.find (lit "error") = none

/-- The job is there and has an error. -/
def HasError (jobs : JobMap) (name : Str) : Prop :=
  ∃ job, jobs[name]? = some job ∧ job.find (lit "error") ≠ none

/-- `name` is what `child` stands for among the constituents of `jobName`: itself if
there is such a job, else what matches it as a pattern, if patterns are on. -/
def Selects (L : AggregateLibs) (jobs : JobMap) (jobName : Str) (glob : Bool)
    (child name : Str) : Prop :=
  (child ∈ jobs ∧ name = child) ∨
    (child ∉ jobs ∧ glob = true ∧ name ≠ jobName ∧ L.fnmatch child name = true)

/-- `child` makes the aggregate broken, and `name` is what is noted. -/
def BreaksOn (L : AggregateLibs) (jobs : JobMap) (jobName : Str) (glob : Bool)
    (child name : Str) : Prop :=
  (Selects L jobs jobName glob child name ∧ HasError jobs name) ∨
    (name = child ∧ ∀ name', Selects L jobs jobName glob child name' → ¬GoodJob jobs name')

variable {L : AggregateLibs} {jobs : JobMap} {jobName : Str} {glob : Bool}

/-- Such a job is in the map. -/
theorem GoodJob.mem {name : Str} (h : GoodJob jobs name) : name ∈ jobs := by
  obtain ⟨job, hjob, -⟩ := h
  exact StdMap.mem_iff_exists.mpr ⟨_, hjob⟩

/-- Such a job is in the map, too. -/
theorem HasError.mem {name : Str} (h : HasError jobs name) : name ∈ jobs := by
  obtain ⟨job, hjob, -⟩ := h
  exact StdMap.mem_iff_exists.mpr ⟨_, hjob⟩

/-- The entry decides. -/
theorem goodJob_of_find {name : Str} {job : Json} (hjob : jobs[name]? = some job) :
    GoodJob jobs name ↔ job.find (lit "error") = none := by
  rw [GoodJob, hjob]
  simp

/-- Good is what is there without an error. -/
theorem goodJob_iff {name : Str} : GoodJob jobs name ↔ name ∈ jobs ∧ ¬HasError jobs name := by
  rw [StdMap.mem_iff_exists, GoodJob, HasError]
  cases jobs[name]? with
  | none => simp
  | some job => simp

/-- A job that is there is good or has an error. -/
theorem hasError_of_mem {name : Str} (h : name ∈ jobs) :
    HasError jobs name ↔ ¬GoodJob jobs name := by
  rw [goodJob_iff, and_iff_right h, not_not]

/-- `isBroken` notes the error of a job, if it has one. -/
theorem isBroken_cases {brokenJobs brokenJobs' : StdMap Str Str} {name : Str} {job : Json}
    {broken : Bool} (h : isBroken brokenJobs name job = .ok (broken, brokenJobs')) :
    (broken = true ∧ job.find (lit "error") ≠ none ∧
        ∃ error, brokenJobs' = brokenJobs.insert name error) ∨
      (broken = false ∧ job.find (lit "error") = none ∧ brokenJobs' = brokenJobs) := by
  rw [isBroken] at h
  split at h
  · next error herror =>
    obtain ⟨text, -, h⟩ := bind_eq_ok.mp h
    cases h
    exact .inl ⟨rfl, by rw [herror]; simp, text, rfl⟩
  · next hnone =>
    cases h
    exact .inr ⟨rfl, hnone, rfl⟩

/-- A key is inserted into a map. -/
theorem mem_insert_key {α : Type} {m : StdMap Str α} {key : Str} {value : α} {name : Str} :
    name ∈ m.insert key value ↔ name ∈ m ∨ name = key := by
  rw [Std.ExtTreeMap.mem_insert, Std.LawfulEqCmp.compare_eq_iff_eq, or_comm, eq_comm]

/-- An element is inserted into a set. -/
theorem mem_insert_elem {s : StdSet Str} {elem name : Str} :
    name ∈ s.insert elem ↔ name ∈ s ∨ name = elem := by
  rw [Std.ExtTreeSet.mem_insert, Std.LawfulEqCmp.compare_eq_iff_eq, or_comm, eq_comm]

/-- An entry that the pattern matches. -/
def Matches (L : AggregateLibs) (jobName child : Str) (entry : Str × Json) : Prop :=
  entry.1 ≠ jobName ∧ L.fnmatch child entry.1 = true

/-- What one entry of the map does for a pattern: nothing, a note, or a dependency. -/
theorem insertMatching_cases {child : Str} {e : Str × Json} {found found' : Bool}
    {r r' : Resolving}
    (h : insertMatching L child jobName (found, r) e = .ok (found', r')) :
    (¬Matches L jobName child e ∧ found' = found ∧ r' = r) ∨
      (Matches L jobName child e ∧ e.2.find (lit "error") ≠ none ∧ found' = found ∧
        ∃ text, r' = { r with brokenJobs := r.brokenJobs.insert e.1 text }) ∨
      (Matches L jobName child e ∧ e.2.find (lit "error") = none ∧ found' = true ∧
        r' = { r with results := r.results.insert e.1 }) := by
  rw [insertMatching] at h
  dsimp only at h
  split at h
  · -- an aggregate does not match itself
    next hself =>
    cases Except.ok.inj h
    exact .inl ⟨fun hm => hm.1 hself, rfl, rfl⟩
  next hself =>
  split at h
  · next hmatch =>
    obtain ⟨⟨broken, brokenJobs⟩, hbroken, hrest⟩ := bind_eq_ok.mp h
    dsimp only at hrest
    rcases isBroken_cases hbroken with ⟨rfl, herror, text, rfl⟩ | ⟨rfl, herror, rfl⟩
    · cases Except.ok.inj hrest
      exact .inr (.inl ⟨⟨hself, hmatch⟩, herror, rfl, text, rfl⟩)
    · cases Except.ok.inj hrest
      exact .inr (.inr ⟨⟨hself, hmatch⟩, herror, rfl, rfl⟩)
  · next hmatch =>
    cases Except.ok.inj h
    exact .inl ⟨fun hm => hmatch hm.2, rfl, rfl⟩

/-- What the entries of the map add for one pattern. -/
theorem insertMatching_spec {child : Str} {entries : List (Str × Json)} {found found' : Bool}
    {r r' : Resolving}
    (h : entries.foldlM (insertMatching L child jobName) (found, r) = .ok (found', r')) :
    (∀ name, name ∈ r'.results ↔ name ∈ r.results ∨ ∃ e ∈ entries,
        Matches L jobName child e ∧ e.2.find (lit "error") = none ∧ name = e.1) ∧
      (∀ name, name ∈ r'.brokenJobs ↔ name ∈ r.brokenJobs ∨ ∃ e ∈ entries,
        Matches L jobName child e ∧ e.2.find (lit "error") ≠ none ∧ name = e.1) ∧
      (found' = true ↔ found = true ∨ ∃ e ∈ entries,
        Matches L jobName child e ∧ e.2.find (lit "error") = none) := by
  -- the entries in order; each adds itself at most
  induction entries generalizing found r with
  | nil =>
    cases Except.ok.inj h
    simp
  | cons e entries ih =>
    rw [List.foldlM_cons] at h
    obtain ⟨⟨found₁, r₁⟩, hstep, hrest⟩ := bind_eq_ok.mp h
    obtain ⟨hresults, hbroken, hfound⟩ := ih hrest
    simp only [hresults, hbroken, hfound, List.mem_cons, exists_eq_or_imp]
    rcases insertMatching_cases hstep with ⟨hno, rfl, rfl⟩ | ⟨hyes, herror, rfl, text, rfl⟩ |
      ⟨hyes, herror, rfl, rfl⟩
    · simp [hno]
    · simp [hyes, herror, -Std.ExtTreeMap.mem_insert, mem_insert_key, or_assoc]
    · simp [hyes, herror, -Std.ExtTreeSet.mem_insert, mem_insert_elem, or_assoc]

/-- A job stands for itself. -/
theorem selects_of_job {child name : Str} (hmem : child ∈ jobs) :
    Selects L jobs jobName glob child name ↔ name = child := by
  simp [Selects, hmem]

/-- What breaks on a name of a job is that job. -/
theorem breaksOn_of_job {child name : Str} (hmem : child ∈ jobs) :
    BreaksOn L jobs jobName glob child name ↔ name = child ∧ ¬GoodJob jobs child := by
  simp only [BreaksOn, selects_of_job hmem]
  constructor
  · rintro (⟨rfl, herror⟩ | ⟨rfl, hnone⟩)
    · exact ⟨rfl, (hasError_of_mem hmem).mp herror⟩
    · exact ⟨rfl, hnone _ rfl⟩
  · rintro ⟨rfl, hbad⟩
    exact .inl ⟨rfl, (hasError_of_mem hmem).mpr hbad⟩

/-- Without patterns, what is not a job stands for nothing. -/
theorem not_selects_of_plain {child name : Str} (hmem : child ∉ jobs) :
    ¬Selects L jobs jobName false child name := by
  simp [Selects, hmem]

/-- The entries that a pattern matches are the jobs it stands for. -/
theorem exists_matches {child name : Str} (hmem : child ∉ jobs) (P : Json → Prop) :
    (∃ e ∈ jobs.toList, Matches L jobName child e ∧ P e.2 ∧ name = e.1) ↔
      Selects L jobs jobName true child name ∧ ∃ job, jobs[name]? = some job ∧ P job := by
  have hselects : ∀ job, Matches L jobName child (name, job) ↔
      Selects L jobs jobName true child name := by
    intro job
    simp [Matches, Selects, hmem]
  constructor
  · rintro ⟨⟨name, job⟩, hentry, hmatch, hjob, rfl⟩
    exact ⟨(hselects job).mp hmatch, job,
      Std.ExtTreeMap.mem_toList_iff_getElem?_eq_some.mp hentry, hjob⟩
  · rintro ⟨hsel, job, hget, hjob⟩
    exact ⟨(name, job), Std.ExtTreeMap.mem_toList_iff_getElem?_eq_some.mpr hget,
      (hselects job).mpr hsel, hjob, rfl⟩

/-- What a pattern adds. -/
theorem insertMatchingConstituents_spec {child : Str} {found : Bool} {r r' : Resolving}
    (hmem : child ∉ jobs)
    (h : insertMatchingConstituents L child jobName jobs r = .ok (found, r')) :
    (∀ name, name ∈ r'.results ↔ name ∈ r.results ∨
        Selects L jobs jobName true child name ∧ GoodJob jobs name) ∧
      (∀ name, name ∈ r'.brokenJobs ↔ name ∈ r.brokenJobs ∨
        Selects L jobs jobName true child name ∧ HasError jobs name) ∧
      (found = true ↔ ∃ name, Selects L jobs jobName true child name ∧ GoodJob jobs name) := by
  rw [insertMatchingConstituents] at h
  obtain ⟨hresults, hbroken, hfound⟩ := insertMatching_spec h
  refine ⟨fun name => ?_, fun name => ?_, ?_⟩
  · rw [hresults, exists_matches hmem (fun job => job.find (lit "error") = none)]
    rfl
  · rw [hbroken, exists_matches hmem (fun job => job.find (lit "error") ≠ none)]
    rfl
  · -- something was found when an error-free job matched
    rw [hfound]
    constructor
    · rintro (hfalse | ⟨e, he, hmatch, herror⟩)
      · cases hfalse
      · exact ⟨e.1, (exists_matches hmem fun job => job.find (lit "error") = none).mp
          ⟨e, he, hmatch, herror, rfl⟩⟩
    · rintro ⟨name, hgood⟩
      obtain ⟨e, he, hmatch, herror, -⟩ :=
        (exists_matches hmem fun job => job.find (lit "error") = none).mpr hgood
      exact .inr ⟨e, he, hmatch, herror⟩

/-- What one name or pattern adds. -/
theorem resolveChild_spec {child : Json} {r r' : Resolving}
    (h : resolveChild L jobs jobName glob r child = .ok r') :
    ∃ childJobName, child.asString = .ok childJobName ∧
      (∀ name, name ∈ r'.results ↔ name ∈ r.results ∨
        Selects L jobs jobName glob childJobName name ∧ GoodJob jobs name) ∧
      ∀ name, name ∈ r'.brokenJobs ↔ name ∈ r.brokenJobs ∨
        BreaksOn L jobs jobName glob childJobName name := by
  rw [resolveChild] at h
  obtain ⟨childJobName, hchild, hrest⟩ := bind_eq_ok.mp h
  refine ⟨childJobName, hchild, ?_⟩
  cases hjob : jobs[childJobName]? with
  -- no such job, so it is a pattern or nothing
  | none =>
    rw [hjob] at hrest
    dsimp only at hrest
    have hmem : childJobName ∉ jobs := StdMap.not_mem_iff.mpr hjob
    cases glob with
    | false =>
      cases Except.ok.inj hrest
      refine ⟨fun name => by simp [not_selects_of_plain hmem], fun name => ?_⟩
      rw [mem_insert_key]
      simp [BreaksOn, not_selects_of_plain hmem]
    | true =>
      rw [if_neg (by decide)] at hrest
      obtain ⟨⟨found, r₁⟩, hinsert, hrest⟩ := bind_eq_ok.mp hrest
      obtain ⟨hresults, hbroken, hfound⟩ := insertMatchingConstituents_spec hmem hinsert
      dsimp only at hrest
      split at hrest
      · next hyes =>
        -- something was selected, so only what has an error is noted
        cases Except.ok.inj hrest
        refine ⟨hresults, fun name => (hbroken name).trans (or_congr_right ?_)⟩
        refine (or_iff_left ?_).symm
        rintro ⟨rfl, hnone⟩
        obtain ⟨name, hsel, hgood⟩ := hfound.mp hyes
        exact hnone name hsel hgood
      · next hno =>
        -- the pattern itself is noted too
        cases Except.ok.inj hrest
        refine ⟨hresults, fun name => ?_⟩
        dsimp only
        rw [mem_insert_key, hbroken, or_assoc]
        refine or_congr_right (or_congr_right (and_iff_left ?_).symm)
        exact fun name' hsel hgood => hno (hfound.mpr ⟨name', hsel, hgood⟩)
  -- the name of a job, which stands for itself
  | some job =>
    rw [hjob] at hrest
    dsimp only at hrest
    have hmem : childJobName ∈ jobs := StdMap.mem_iff_exists.mpr ⟨_, hjob⟩
    simp only [selects_of_job hmem, breaksOn_of_job hmem, goodJob_of_find hjob]
    obtain ⟨⟨broken, brokenJobs⟩, hbroken, hrest⟩ := bind_eq_ok.mp hrest
    dsimp only at hrest
    rcases isBroken_cases hbroken with ⟨rfl, herror, text, rfl⟩ | ⟨rfl, herror, rfl⟩
    · cases Except.ok.inj hrest
      refine ⟨fun name => (or_iff_left ?_).symm, fun name => ?_⟩
      · rintro ⟨rfl, hgood⟩
        exact herror ((goodJob_of_find hjob).mp hgood)
      · dsimp only
        rw [mem_insert_key, and_iff_left herror]
    · cases Except.ok.inj hrest
      refine ⟨fun name => ?_, fun name => (or_iff_left fun h => h.2 herror).symm⟩
      dsimp only
      rw [mem_insert_elem]
      refine or_congr_right ⟨?_, And.left⟩
      rintro rfl
      exact ⟨rfl, (goodJob_of_find hjob).mpr herror⟩

/-! ## Aggregates -/

/-- The job names constituents. -/
def IsAggregate (jobs : JobMap) (name : Str) : Prop :=
  ∃ job, jobs[name]? = some job ∧ namedConstituents job ≠ []

/-- `child` is written among the constituents of `name`, with patterns on or off. -/
def Lists (jobs : JobMap) (name : Str) (glob : Bool) (child : Str) : Prop :=
  ∃ job, jobs[name]? = some job ∧ job.boolValue (lit "globConstituents") = .ok glob ∧
    ∃ value ∈ namedConstituents job, value.asString = .ok child

/-- `dependency` is an error-free job that `name` lists or matches. -/
def DependsOn (L : AggregateLibs) (jobs : JobMap) (name dependency : Str) : Prop :=
  ∃ glob child, Lists jobs name glob child ∧
    Selects L jobs name glob child dependency ∧ GoodJob jobs dependency

/-- `cause` is noted as broken for the aggregate `name`. -/
def BrokenBy (L : AggregateLibs) (jobs : JobMap) (name cause : Str) : Prop :=
  ∃ glob child, Lists jobs name glob child ∧ BreaksOn L jobs name glob child cause

/-- `agg` says about its name what the map does. -/
structure Describes (L : AggregateLibs) (jobs : JobMap) (agg : AggregateJob) : Prop where
  isAggregate : IsAggregate jobs agg.name
  dependencies : ∀ dependency, dependency ∈ agg.dependencies ↔ DependsOn L jobs agg.name dependency
  brokenJobs : ∀ cause, cause ∈ agg.brokenJobs ↔ BrokenBy L jobs agg.name cause

/-- What the names and patterns of an aggregate add. -/
theorem foldl_resolveChild_spec {children : List Json} {r r' : Resolving}
    (h : children.foldlM (resolveChild L jobs jobName glob) r = .ok r') :
    (∀ name, name ∈ r'.results ↔ name ∈ r.results ∨ ∃ value ∈ children, ∃ child,
        value.asString = .ok child ∧ Selects L jobs jobName glob child name ∧ GoodJob jobs name) ∧
      ∀ name, name ∈ r'.brokenJobs ↔ name ∈ r.brokenJobs ∨ ∃ value ∈ children, ∃ child,
        value.asString = .ok child ∧ BreaksOn L jobs jobName glob child name := by
  induction children generalizing r with
  | nil =>
    cases Except.ok.inj h
    simp
  | cons value children ih =>
    rw [List.foldlM_cons] at h
    obtain ⟨r₁, hstep, hrest⟩ := bind_eq_ok.mp h
    obtain ⟨hresults, hbroken⟩ := ih hrest
    obtain ⟨child, hchild, hresults₁, hbroken₁⟩ := resolveChild_spec hstep
    -- the value is this one string
    have hsame : ∀ {P : Str → Prop}, (∃ c, value.asString = .ok c ∧ P c) ↔ P child := by
      intro P
      constructor
      · rintro ⟨c, hc, hp⟩
        rw [hchild] at hc
        exact Except.ok.inj hc ▸ hp
      · exact fun hp => ⟨child, hchild, hp⟩
    simp only [List.mem_cons, exists_eq_or_imp]
    refine ⟨fun name => ?_, fun name => ?_⟩
    · rw [hresults, hresults₁, or_assoc, hsame]
    · rw [hbroken, hbroken₁, or_assoc, hsame]

/-- What a job lists are the names in its entry. -/
theorem exists_lists {job : Json} {glob : Bool} (hjob : jobs[jobName]? = some job)
    (hglob : job.boolValue (lit "globConstituents") = .ok glob) (P : Bool → Str → Prop) :
    (∃ value ∈ namedConstituents job, ∃ child, value.asString = .ok child ∧ P glob child) ↔
      ∃ glob' child, Lists jobs jobName glob' child ∧ P glob' child := by
  constructor
  · rintro ⟨value, hvalue, child, hchild, hP⟩
    exact ⟨glob, child, ⟨job, hjob, hglob, value, hvalue, hchild⟩, hP⟩
  · rintro ⟨glob', child, ⟨job', hjob', hglob', value, hvalue, hchild⟩, hP⟩
    obtain rfl := Option.some.inj (hjob.symm.trans hjob')
    obtain rfl := Except.ok.inj (hglob'.symm.trans hglob)
    exact ⟨value, hvalue, child, hchild, hP⟩

/-- The entry of an aggregate describes it. -/
theorem resolveAggregate_spec {job : Json} {agg : AggregateJob} (hjob : jobs[jobName]? = some job)
    (hnamed : namedConstituents job ≠ []) (h : resolveAggregate L jobs jobName job = .ok agg) :
    agg.name = jobName ∧ Describes L jobs agg := by
  rw [resolveAggregate] at h
  obtain ⟨glob, hglob, h⟩ := bind_eq_ok.mp h
  obtain ⟨r, hfold, h⟩ := bind_eq_ok.mp h
  cases Except.ok.inj h
  obtain ⟨hresults, hbroken⟩ := foldl_resolveChild_spec hfold
  refine ⟨rfl, ⟨job, hjob, hnamed⟩, fun dependency => ?_, fun cause => ?_⟩
  · rw [hresults, exists_lists hjob hglob fun glob child =>
      Selects L jobs jobName glob child dependency ∧ GoodJob jobs dependency]
    exact or_iff_right Std.ExtTreeSet.not_mem_empty
  · rw [hbroken, exists_lists hjob hglob fun glob child =>
      BreaksOn L jobs jobName glob child cause]
    exact or_iff_right Std.ExtTreeMap.not_mem_empty

/-- The loop over the map collects the aggregates. -/
theorem foldl_collectAggregate_spec {entries : List (Str × Json)}
    {acc aggregates : StdMap Str AggregateJob} (hentries : ∀ e ∈ entries, jobs[e.1]? = some e.2)
    (hacc : ∀ name agg, acc[name]? = some agg → agg.name = name ∧ Describes L jobs agg)
    (h : entries.foldlM (collectAggregate L jobs) acc = .ok aggregates) :
    (∀ name agg, aggregates[name]? = some agg → agg.name = name ∧ Describes L jobs agg) ∧
      (∀ name, name ∈ acc → name ∈ aggregates) ∧
      ∀ e ∈ entries, namedConstituents e.2 ≠ [] → e.1 ∈ aggregates := by
  induction entries generalizing acc with
  | nil =>
    cases Except.ok.inj h
    exact ⟨hacc, fun _ hn => hn, fun _ he => by cases he⟩
  | cons e entries ih =>
    rw [List.foldlM_cons] at h
    obtain ⟨acc₁, hstep, hrest⟩ := bind_eq_ok.mp h
    have htail : ∀ e ∈ entries, jobs[e.1]? = some e.2 :=
      fun e he => hentries e (List.mem_cons_of_mem _ he)
    rw [collectAggregate] at hstep
    split at hstep
    · -- a job that lists nothing is no aggregate
      next hempty =>
      cases Except.ok.inj hstep
      obtain ⟨hdescribes, hkept, hnew⟩ := ih htail hacc hrest
      refine ⟨hdescribes, hkept, fun e' he' hne => ?_⟩
      rcases List.mem_cons.mp he' with rfl | he'
      · exact absurd (List.isEmpty_iff.mp hempty) hne
      · exact hnew e' he' hne
    · next hnamed =>
      obtain ⟨agg, hagg, hstep⟩ := bind_eq_ok.mp hstep
      cases Except.ok.inj hstep
      have hspec := resolveAggregate_spec (hentries e (List.mem_cons_self ..))
        (fun hc => hnamed (List.isEmpty_iff.mpr hc)) hagg
      -- the new entry is filed under its own name; older ones stay
      have hacc₁ : ∀ name agg', (acc.insertIfNew e.1 agg)[name]? = some agg' →
          agg'.name = name ∧ Describes L jobs agg' := by
        intro name agg' hget
        rw [Std.ExtTreeMap.getElem?_insertIfNew] at hget
        split at hget
        · next heq =>
          rw [Std.LawfulEqCmp.compare_eq_iff_eq] at heq
          obtain rfl := Option.some.inj hget
          exact heq.1 ▸ hspec
        · exact hacc name agg' hget
      obtain ⟨hdescribes, hkept, hnew⟩ := ih htail hacc₁ hrest
      refine ⟨hdescribes, fun name hname => hkept name ?_, fun e' he' hne => ?_⟩
      · exact Std.ExtTreeMap.mem_insertIfNew.mpr (.inr hname)
      · rcases List.mem_cons.mp he' with rfl | he'
        · exact hkept _ (Std.ExtTreeMap.mem_insertIfNew.mpr
            (.inl (Std.LawfulEqCmp.compare_eq_iff_eq.mpr rfl)))
        · exact hnew e' he' hne

/-- **Resolution is exact**: there is one entry per aggregate, and it describes the
map. -/
theorem collectAggregates_spec {aggregates : StdMap Str AggregateJob}
    (h : collectAggregates L jobs = .ok aggregates) :
    (∀ name agg, aggregates[name]? = some agg → agg.name = name ∧ Describes L jobs agg) ∧
      ∀ name, IsAggregate jobs name → name ∈ aggregates := by
  obtain ⟨hdescribes, -, hnew⟩ := foldl_collectAggregate_spec
    (fun e he => Std.ExtTreeMap.mem_toList_iff_getElem?_eq_some.mp he)
    (fun name agg hget => by rw [Std.ExtTreeMap.getElem?_empty] at hget; cases hget) h
  refine ⟨hdescribes, fun name ⟨job, hjob, hnamed⟩ => ?_⟩
  exact hnew (name, job) (Std.ExtTreeMap.mem_toList_iff_getElem?_eq_some.mpr hjob) hnamed

/-- The collected aggregates are those of the map. -/
theorem mem_collectAggregates {aggregates : StdMap Str AggregateJob}
    (h : collectAggregates L jobs = .ok aggregates) (name : Str) :
    name ∈ aggregates ↔ IsAggregate jobs name := by
  obtain ⟨hdescribes, hcomplete⟩ := collectAggregates_spec h
  refine ⟨fun hname => ?_, hcomplete name⟩
  obtain ⟨agg, hagg⟩ := StdMap.mem_iff_exists.mp hname
  obtain ⟨rfl, hdescribed⟩ := hdescribes name agg hagg
  exact hdescribed.isAggregate

/-! ## Sorting -/

variable {items : StdMap Str AggregateJob}

/-- The sorted items are the visited ones whose visit has ended. -/
def SortedVisited (items : StdMap Str AggregateJob) (s : TopoState) : Prop :=
  ∀ agg, agg ∈ s.sorted ↔ ∃ path, path ∈ s.visited ∧ path ∉ s.parents ∧ items[path]? = some agg

/-- A visit that has ended left the stack as it was. -/
structure Visits (items : StdMap Str AggregateJob) (s s' : TopoState) : Prop where
  sorted : SortedVisited items s → SortedVisited items s'
  parents : s'.parents = s.parents
  visited : ∀ path, path ∈ s.visited → path ∈ s'.visited

/-- A visit that does nothing. -/
theorem Visits.refl (s : TopoState) : Visits items s s := ⟨id, rfl, fun _ h => h⟩

/-- One visit after another. -/
theorem Visits.trans {s s' s'' : TopoState} (h : Visits items s s') (h' : Visits items s' s'') :
    Visits items s s'' :=
  ⟨h'.sorted ∘ h.sorted, h'.parents.trans h.parents,
    fun path hp => h'.visited path (h.visited path hp)⟩

/-- Visits in a loop. -/
theorem foldlM_visits {f : TopoState → Str → Except TopoError TopoState} {refs : List Str}
    (hf : ∀ {s s'} ref, ref ∈ refs → f s ref = .ok s' → Visits items s s') {s s' : TopoState}
    (h : refs.foldlM f s = .ok s') : Visits items s s' :=
  foldlM_related Visits.refl Visits.trans hf h

/-- The state in which the children of `path` are visited. -/
def TopoState.enter (s : TopoState) (path : Str) : TopoState :=
  { s with visited := s.visited.insert path, parents := s.parents.insert path }

/-- The state in which the visit of `path` ends. -/
def TopoState.leave (s : TopoState) (path : Str) (item : AggregateJob) : TopoState :=
  { s with sorted := s.sorted ++ [item], parents := s.parents.erase path }

/-- A visit that enters an item and visits its children ends with the item in place. -/
theorem visits_leave {s m : TopoState} {path : Str} {item : AggregateJob}
    (hitem : items[path]? = some item) (hparents : path ∉ s.parents) (hvisited : path ∉ s.visited)
    (hchildren : Visits items (s.enter path) m) :
    Visits items s (m.leave path item) := by
  have hentered : path ∈ m.visited := hchildren.visited path (mem_insert_elem.mpr (.inr rfl))
  have hstack : ∀ p, p ∈ m.parents ↔ p ∈ s.parents ∨ p = path := by
    intro p
    rw [hchildren.parents]
    exact mem_insert_elem
  have hpopped : ∀ p, p ∈ m.parents.erase path ↔ p ∈ s.parents := by
    intro p
    rw [Std.ExtTreeSet.mem_erase, ne_eq, Std.LawfulEqCmp.compare_eq_iff_eq, hstack]
    constructor
    · rintro ⟨hne, hp | rfl⟩
      · exact hp
      · exact absurd rfl hne
    · intro hp
      exact ⟨fun hc => hparents (hc ▸ hp), .inl hp⟩
  refine ⟨fun hs agg => ?_, ?_, fun p hp => ?_⟩
  · -- `path` is on the stack while its children are visited, so it is not sorted yet
    have hs₀ : SortedVisited items (s.enter path) := by
      intro agg
      refine (hs agg).trans (exists_congr fun p => ?_)
      rw [TopoState.enter, mem_insert_elem, mem_insert_elem]
      constructor
      · rintro ⟨hv, hp, hagg⟩
        refine ⟨.inl hv, ?_, hagg⟩
        rintro (hp' | rfl)
        · exact hp hp'
        · exact hvisited hv
      · rintro ⟨hv | rfl, hp, hagg⟩
        · exact ⟨hv, fun hp' => hp (.inl hp'), hagg⟩
        · exact absurd (.inr rfl) hp
    have hm := hchildren.sorted hs₀ agg
    rw [TopoState.leave, List.mem_append, List.mem_singleton, hm]
    simp only [hpopped, hstack]
    constructor
    · rintro (⟨p, hv, hp, hagg⟩ | rfl)
      · exact ⟨p, hv, fun hp' => hp (.inl hp'), hagg⟩
      · exact ⟨path, hentered, hparents, hitem⟩
    · rintro ⟨p, hv, hp, hagg⟩
      by_cases hpath : p = path
      · subst hpath
        exact .inr (Option.some.inj (hagg.symm.trans hitem))
      · exact .inl ⟨p, hv, fun hp' => hp'.elim hp hpath, hagg⟩
  · exact Std.ExtTreeSet.ext_mem hpopped
  · exact hchildren.visited p (mem_insert_elem.mpr (.inl hp))

/-- A visit of an item is such a visit. -/
theorem dfsVisit_visits {fuel : Nat} {path : Str} {parent : Option Str} {s s' : TopoState}
    (hpath : path ∈ items) (h : dfsVisit items fuel path parent s = .ok s') :
    Visits items s s' ∧ path ∈ s'.visited := by
  induction fuel generalizing path parent s s' with
  | zero => cases h
  | succ fuel ih =>
    rw [dfsVisit.eq_def] at h
    dsimp only at h
    -- an item on the stack is a cycle, one that was visited is done
    split at h
    · split at h <;> cases h
    next hparents =>
    split at h
    · next hvisited =>
      cases Except.ok.inj h
      exact ⟨.refl _, hvisited⟩
    next hvisited =>
    obtain ⟨m, hfold, h⟩ := bind_eq_ok.mp h
    cases Except.ok.inj h
    -- the references are visited while `path` is on the stack
    have hchildren : Visits items (s.enter path) m := by
      refine foldlM_visits (fun {s s'} ref _ hok => ?_) hfold
      split at hok
      · next href => exact (ih href.2 hok).1
      · cases Except.ok.inj hok
        exact .refl _
    obtain ⟨item, hitem⟩ := StdMap.mem_iff_exists.mp hpath
    rw [hitem]
    exact ⟨visits_leave hitem hparents hvisited hchildren,
      hchildren.visited path (mem_insert_elem.mpr (.inr rfl))⟩

/-- A loop over `refs` visits each of them. -/
theorem foldlM_visited {f : TopoState → Str → Except TopoError TopoState} {refs : List Str}
    (hf : ∀ {s s'} ref, ref ∈ refs → f s ref = .ok s' → Visits items s s' ∧ ref ∈ s'.visited)
    {s s' : TopoState} (h : refs.foldlM f s = .ok s') : ∀ ref ∈ refs, ref ∈ s'.visited := by
  induction refs generalizing s with
  | nil => simp
  | cons ref refs ih =>
    rw [List.foldlM_cons] at h
    obtain ⟨m, hm, hrest⟩ := bind_eq_ok.mp h
    have htail : ∀ {s s'} ref, ref ∈ refs → f s ref = .ok s' →
        Visits items s s' ∧ ref ∈ s'.visited :=
      fun ref' hr => hf ref' (List.mem_cons_of_mem _ hr)
    intro ref' hr
    -- the first one stays visited while the others are
    rcases List.mem_cons.mp hr with rfl | hr
    · exact (foldlM_visits (fun ref' hr hok => (htail ref' hr hok).1) hrest).visited _
        (hf _ (List.mem_cons_self ..) hm).2
    · exact ih htail hrest ref' hr

/-- **Sorting neither loses nor adds an aggregate.** -/
theorem mem_topoSort {sorted : List AggregateJob} (h : topoSort items = .ok sorted)
    (agg : AggregateJob) : agg ∈ sorted ↔ ∃ name : Str, items[name]? = some agg := by
  rw [topoSort] at h
  obtain ⟨s, hfold, h⟩ := bind_eq_ok.mp h
  cases Except.ok.inj h
  have hvisit : ∀ {s s'} key, key ∈ items.keys →
      dfsVisit items (items.size + 1) key none s = .ok s' → Visits items s s' ∧ key ∈ s'.visited :=
    fun key hkey hok => dfsVisit_visits (Std.ExtTreeMap.mem_keys.mp hkey) hok
  -- the loop starts with nothing visited and nothing on the stack
  have hrun : Visits items {} s :=
    foldlM_visits (fun key hkey hok => (hvisit key hkey hok).1) hfold
  have hsorted : SortedVisited items s := by
    refine hrun.sorted fun agg => ⟨fun hc => (by cases hc), ?_⟩
    rintro ⟨path, hv, -⟩
    exact absurd hv Std.ExtTreeSet.not_mem_empty
  refine (hsorted agg).trans (exists_congr fun name => ⟨fun h => h.2.2, fun hagg => ?_⟩)
  rw [hrun.parents]
  refine ⟨?_, Std.ExtTreeSet.not_mem_empty, hagg⟩
  have hkey : name ∈ items.keys :=
    Std.ExtTreeMap.mem_keys.mpr (StdMap.mem_iff_exists.mpr ⟨_, hagg⟩)
  exact foldlM_visited hvisit hfold name hkey

/-- A set of items is no larger than the items. -/
theorem size_le_of_subset {s : StdSet Str} {m : StdMap Str AggregateJob}
    (h : ∀ p ∈ s, p ∈ m) : s.size ≤ m.size := by
  have hnodup : s.toList.Nodup := StdSet.nodup_toList s
  have hsubset : s.toList ⊆ m.keys := fun p hp =>
    Std.ExtTreeMap.mem_keys.mpr (h p (Std.ExtTreeSet.mem_toList.mp hp))
  have hlength := (hnodup.subperm hsubset).length_le
  rwa [Std.ExtTreeSet.length_toList, Std.ExtTreeMap.length_keys] at hlength

/-- The stack holds different items, so the fuel outlasts it. -/
theorem dfsVisit_error {fuel : Nat} {path : Str} {parent : Option Str} {s : TopoState}
    {e : TopoError} (hpath : path ∈ items) (hparent : parent = none → path ∉ s.parents)
    (hstack : ∀ p ∈ s.parents, p ∈ items) (hfuel : items.size < s.parents.size + fuel)
    (h : dfsVisit items fuel path parent s = .error e) : ∃ cycle, e = .cycle cycle := by
  induction fuel generalizing path parent s with
  | zero =>
    -- the stack holds different aggregates, so it never outgrows the fuel
    have := size_le_of_subset hstack
    omega
  | succ fuel ih =>
    rw [dfsVisit.eq_def] at h
    dsimp only at h
    split at h
    · -- a reference back into the stack is the only error
      next hparents =>
      split at h
      · exact absurd hparents (hparent rfl)
      · exact ⟨_, (Except.error.inj h).symm⟩
    next hparents =>
    split at h
    · cases h
    next hvisited =>
    rcases bind_eq_error.mp h with hfold | ⟨m, -, hend⟩
    · -- the first reference that fails is visited with `path` on the stack
      obtain ⟨ref, -, m, hm, hstep⟩ := foldlM_error
        (P := fun m => m.parents = s.parents.insert path) (fun ref _ hm hok => by
          split at hok
          · next href => exact (dfsVisit_visits href.2 hok).1.parents.trans hm
          · cases Except.ok.inj hok
            exact hm) rfl hfold
      split at hstep
      · next href =>
        refine ih href.2 (fun hc => by cases hc) (fun p hp => ?_) ?_ hstep
        · rw [hm] at hp
          rcases mem_insert_elem.mp hp with hp | rfl
          · exact hstack p hp
          · exact hpath
        · rw [hm, Std.ExtTreeSet.size_insert, if_neg hparents]
          omega
      · cases hstep
    · cases hend

/-- **A sort that does not end has found a cycle**, and nothing undefined happens. -/
theorem topoSort_error {e : TopoError} (h : topoSort items = .error e) :
    ∃ cycle, e = .cycle cycle := by
  rw [topoSort] at h
  rcases bind_eq_error.mp h with hfold | ⟨m, -, hend⟩
  · obtain ⟨key, hkey, m, hm, hstep⟩ := foldlM_error
      (P := fun m => m.parents = ∅) (fun key hkey hm hok =>
        (dfsVisit_visits (Std.ExtTreeMap.mem_keys.mp hkey) hok).1.parents.trans hm) rfl hfold
    have hempty : ∀ p, p ∉ m.parents := fun p hp =>
      absurd (hm ▸ hp) Std.ExtTreeSet.not_mem_empty
    exact dfsVisit_error (Std.ExtTreeMap.mem_keys.mp hkey) (fun _ => hempty key)
      (fun p hp => absurd hp (hempty p)) (by omega) hstep
  · cases hend

/-! ## Resolution as a whole -/

/-- **What `resolveNamedConstituents` returns**: the aggregates of the map, each
once, and each described. -/
theorem resolveNamedConstituents_spec {aggregates : List AggregateJob}
    (h : resolveNamedConstituents L jobs = .ok (.inr aggregates)) :
    (∀ agg ∈ aggregates, Describes L jobs agg) ∧
      (∀ name, IsAggregate jobs name → ∃ agg ∈ aggregates, agg.name = name) ∧
      ∀ agg ∈ aggregates, ∀ agg' ∈ aggregates, agg.name = agg'.name → agg = agg' := by
  rw [resolveNamedConstituents] at h
  obtain ⟨items, hitems, h⟩ := bind_eq_ok.mp h
  obtain ⟨hdescribes, hcomplete⟩ := collectAggregates_spec hitems
  split at h
  · next hsort =>
    cases Except.ok.inj h
    have hmem := mem_topoSort hsort
    -- what is sorted is what was collected
    refine ⟨fun agg hagg => ?_, fun name hname => ?_, fun agg hagg agg' hagg' hname => ?_⟩
    · obtain ⟨name, hget⟩ := (hmem agg).mp hagg
      exact (hdescribes name agg hget).2
    · obtain ⟨agg, hget⟩ := StdMap.mem_iff_exists.mp (hcomplete name hname)
      exact ⟨agg, (hmem agg).mpr ⟨name, hget⟩, (hdescribes name agg hget).1⟩
    · obtain ⟨name, hget⟩ := (hmem agg).mp hagg
      obtain ⟨name', hget'⟩ := (hmem agg').mp hagg'
      -- both are filed under their common name
      rw [← (hdescribes name agg hget).1, hname, (hdescribes name' agg' hget').1] at hget
      exact Option.some.inj (hget.symm.trans hget')
  · cases h
  · cases h

end Aggregates

end NixEvalJobs
