import NixEvalJobs.Constituents.Links

/-!
# Aggregates — which rewritten derivations have output paths

Rewriting resets the output paths of an aggregate and has `fillInOutputPaths` compute
them again. That works unless the derivation is deferred: one of its outputs floats, or
it has an input that is itself deferred, so that the paths are only known once something
has been built. The constituents are inputs, and a constituent that is an aggregate has
constituents of its own, so a floating derivation far below defers the ones above it.

* `paths_known_iff` — after a derivation is registered all its output paths are known
  exactly when it is not deferred.
* `rewriteAggregates_tracks` — which derivations are deferred once the aggregates are
  rewritten, said of the map and the store before that.
-/

namespace NixEvalJobs

namespace Aggregates

variable {L : AggregateLibs} {jobs : JobMap} {store : DrvStore}

/-! ## Deferred derivations -/

/-- `DrvHash::Kind::Deferred` of `hashDerivationModulo`: an output floats, or an input of
the derivation is deferred. What a fixed derivation depends on does not matter. -/
inductive Deferred (store : DrvStore) : Derivation → Prop where
  | floats {drv : Derivation} {name : Str} {output : DerivationOutput} :
      drv.outputs[name]? = some output → output.Floats → Deferred store drv
  | input {drv inputDrv : Derivation} {path : StorePath} :
      ¬drv.Fixed → path ∈ drv.inputDrvs → store[path]? = some inputDrv →
      Deferred store inputDrv → Deferred store drv

/-- Why a derivation is deferred. -/
theorem deferred_iff {drv : Derivation} : Deferred store drv ↔
    (∃ (name : Str) (output : _), drv.outputs[name]? = some output ∧ output.Floats) ∨
      (¬drv.Fixed ∧ ∃ path ∈ drv.inputDrvs, ∃ inputDrv, store[path]? = some inputDrv ∧
        Deferred store inputDrv) := by
  constructor
  · rintro (⟨houtput, hfloats⟩ | ⟨hfixed, hpath, hread, hinput⟩)
    · exact .inl ⟨_, _, houtput, hfloats⟩
    · exact .inr ⟨hfixed, _, hpath, _, hread, hinput⟩
  · rintro (⟨name, output, houtput, hfloats⟩ | ⟨hfixed, path, hpath, inputDrv, hread, hinput⟩)
    · exact .floats houtput hfloats
    · exact .input hfixed hpath hread hinput

/-- The inputs of the derivation can be read from the store. -/
def InputsIn (store : DrvStore) (drv : Derivation) : Prop :=
  ∀ path ∈ drv.inputDrvs, ∃ inputDrv, store[path]? = some inputDrv

/-- The store holds the inputs of the derivations it holds. -/
def Closed (store : DrvStore) : Prop :=
  ∀ (path : StorePath) drv, store[path]? = some drv → InputsIn store drv

/-- A larger store has them as well. -/
theorem InputsIn.mono {store' : DrvStore} (hextends : Extends store store') {drv : Derivation}
    (h : InputsIn store drv) : InputsIn store' drv := by
  intro path hpath
  obtain ⟨inputDrv, hread⟩ := h path hpath
  exact ⟨inputDrv, hextends path inputDrv hread⟩

/-- What is deferred stays so when the store grows. -/
theorem Deferred.mono {store' : DrvStore} (hextends : Extends store store') {drv : Derivation}
    (h : Deferred store drv) : Deferred store' drv := by
  induction h with
  | floats houtput hfloats => exact .floats houtput hfloats
  | input hfixed hpath hread _ ih => exact .input hfixed hpath (hextends _ _ hread) ih

/-- What is added to a closed store defers nothing that it held before. -/
theorem Deferred.of_extends {store' : DrvStore} (hclosed : Closed store)
    (hextends : Extends store store') {drv : Derivation} (hinputs : InputsIn store drv)
    (h : Deferred store' drv) : Deferred store drv := by
  induction h with
  | floats houtput hfloats => exact .floats houtput hfloats
  | @input drv inputDrv path hfixed hpath hread _ ih =>
    -- the input that is read later is the one that was there
    obtain ⟨old, hold⟩ := hinputs path hpath
    obtain rfl := Option.some.inj ((hextends path old hold).symm.trans hread)
    exact .input hfixed hpath hold (ih (hclosed path old hold))

/-- Deferral depends on the kinds of the outputs and on the inputs. -/
structure SameKinds (drv drv' : Derivation) : Prop where
  floats : (∃ (name : Str) (output : _), drv.outputs[name]? = some output ∧ output.Floats) ↔
    ∃ (name : Str) (output : _), drv'.outputs[name]? = some output ∧ output.Floats
  fixed : drv.Fixed ↔ drv'.Fixed
  inputs : drv.inputDrvs = drv'.inputDrvs

/-- So both are deferred or neither is. -/
theorem SameKinds.deferred_iff {drv drv' : Derivation} (h : SameKinds drv drv') :
    Deferred store drv ↔ Deferred store drv' := by
  rw [Aggregates.deferred_iff, Aggregates.deferred_iff, h.floats, h.fixed, h.inputs]

/-! ## Resetting and filling in -/

/-- What becomes of an output when it is reset. -/
def resetOutput : DerivationOutput → DerivationOutput
  | .inputAddressed _ => .deferred
  | output => output

/-- Whether an output floats does not change. -/
theorem resetOutput_floats {output : DerivationOutput} :
    (resetOutput output).Floats ↔ output.Floats := by
  cases output <;> rfl

/-- Nor does whether it is fixed. -/
theorem resetOutput_isFixed {output : DerivationOutput} :
    (resetOutput output).IsFixed ↔ output.IsFixed := by
  cases output <;> rfl

/-- The loop of `resetOutputs`: the listed outputs that have a path lose it, the others
are as they were. -/
theorem foldl_resetOutputs (entries : List (Str × DerivationOutput)) (drv : Derivation)
    (name : Str) :
    let drv' := entries.foldl (fun drv e => match e.2 with
      | .inputAddressed _ =>
        { drv with outputs := drv.outputs.insert e.1 .deferred, env := drv.env.insert e.1 [] }
      | _ => drv) drv
    ((∃ path, (name, .inputAddressed path) ∈ entries) → drv'.outputs[name]? = some .deferred) ∧
      ((∀ path, (name, .inputAddressed path) ∉ entries) →
        drv'.outputs[name]? = drv.outputs[name]?) := by
  -- along the listed outputs; the last entry of a name counts
  induction entries generalizing drv with
  | nil => exact ⟨fun ⟨_, hmem⟩ => absurd hmem List.not_mem_nil, fun _ => rfl⟩
  | cons e entries ih =>
    obtain ⟨key, output⟩ := e
    obtain ⟨hreset, hkept⟩ := ih (match output with
      | .inputAddressed _ =>
        { drv with outputs := drv.outputs.insert key .deferred, env := drv.env.insert key [] }
      | _ => drv)
    refine ⟨fun ⟨path, hmem⟩ => ?_, fun hnone => ?_⟩
    · by_cases hrest : ∃ path, (name, .inputAddressed path) ∈ entries
      · exact hreset hrest
      -- it is the first one, and nothing after it changes its output
      rcases List.mem_cons.mp hmem with heq | hmem
      · obtain ⟨rfl, rfl⟩ := Prod.mk.inj heq
        exact (hkept fun path hmem => hrest ⟨path, hmem⟩).trans
          Std.ExtTreeMap.getElem?_insert_self
      · exact absurd ⟨path, hmem⟩ hrest
    · refine (hkept fun path hmem => hnone path (List.mem_cons_of_mem _ hmem)).trans ?_
      cases output with
      | inputAddressed path =>
        refine Std.ExtTreeMap.getElem?_insert.trans (if_neg ?_)
        rw [Std.LawfulEqCmp.compare_eq_iff_eq]
        rintro rfl
        exact hnone path (List.mem_cons_self ..)
      | caFixed _ | caFloating | deferred | impure => rfl

/-- **The outputs after resetting.** -/
theorem resetOutputs_outputs (drv : Derivation) (name : Str) :
    (resetOutputs drv).outputs[name]? = (drv.outputs[name]?).map resetOutput := by
  obtain ⟨hreset, hkept⟩ := foldl_resetOutputs drv.outputs.toList drv name
  simp only [Std.ExtTreeMap.mem_toList_iff_getElem?_eq_some] at hreset hkept
  cases houtput : drv.outputs[name]? with
  | none => exact (hkept fun path => by rw [houtput]; simp).trans houtput
  | some output =>
    cases output with
    | inputAddressed path => exact hreset ⟨path, houtput⟩
    | caFixed _ | caFloating | deferred | impure =>
      exact (hkept fun path => by rw [houtput]; simp).trans houtput

/-- The names of the outputs stay. -/
theorem mem_resetOutputs {drv : Derivation} {name : Str} :
    name ∈ (resetOutputs drv).outputs ↔ name ∈ drv.outputs := by
  rw [Std.ExtTreeMap.mem_iff_isSome_getElem?, Std.ExtTreeMap.mem_iff_isSome_getElem?,
    resetOutputs_outputs, Option.isSome_map]

/-- Resetting keeps the kinds of the outputs. -/
theorem sameKinds_resetOutputs (drv : Derivation) : SameKinds (resetOutputs drv) drv where
  floats := by
    constructor
    · rintro ⟨name, output, houtput, hfloats⟩
      rw [resetOutputs_outputs] at houtput
      obtain ⟨old, hold, rfl⟩ := Option.map_eq_some_iff.mp houtput
      exact ⟨name, old, hold, resetOutput_floats.mp hfloats⟩
    · rintro ⟨name, output, houtput, hfloats⟩
      refine ⟨name, resetOutput output, ?_, resetOutput_floats.mpr hfloats⟩
      rw [resetOutputs_outputs, houtput]
      rfl
  fixed := by
    constructor
    · intro h name output houtput
      refine resetOutput_isFixed.mp (h name _ ?_)
      rw [resetOutputs_outputs, houtput]
      rfl
    · intro h name output houtput
      rw [resetOutputs_outputs] at houtput
      obtain ⟨old, hold, rfl⟩ := Option.map_eq_some_iff.mp houtput
      exact resetOutput_isFixed.mpr (h name old hold)
  inputs := resetOutputs_inputDrvs drv

/-- What `fillInOutputPaths` does: it keeps the names of the outputs, gives a path to the
deferred ones unless the derivation is deferred, leaves the others alone, and puts every
path that is known into the environment. And `writeDerivation` adds nothing to the store
but the derivation. -/
structure RegisterLaws (L : AggregateLibs) : Prop where
  names : ∀ {store drv filled}, L.fillInOutputPaths store drv = some filled →
    ∀ name, name ∈ filled.outputs ↔ name ∈ drv.outputs
  fills : ∀ {store drv filled}, L.fillInOutputPaths store drv = some filled →
    ∀ name : Str, drv.outputs[name]? = some .deferred → ¬Deferred store drv →
      ∃ path, filled.outputs[name]? = some (.inputAddressed path)
  keeps : ∀ {store drv filled}, L.fillInOutputPaths store drv = some filled →
    ∀ (name : Str) output, drv.outputs[name]? = some output →
      (output = .deferred → Deferred store drv) → filled.outputs[name]? = some output
  env : ∀ {store drv filled}, L.fillInOutputPaths store drv = some filled →
    ∀ (name : Str) output path, filled.outputs[name]? = some output → output.path = some path →
      filled.env[name]? = some (L.printStorePath path)
  adds : ∀ {store drv path store'}, L.writeDerivation store drv = some (path, store') →
    ∀ (other : StorePath) otherDrv, store'[other]? = some otherDrv →
      store[other]? = some otherDrv ∨ otherDrv = drv

/-- An output that is filled in was deferred before, or is as it was. -/
theorem RegisterLaws.cases (hfill : RegisterLaws L) {drv filled : Derivation}
    (h : L.fillInOutputPaths store drv = some filled) {name : Str} {output : DerivationOutput}
    (houtput : filled.outputs[name]? = some output) : drv.outputs[name]? = some output ∨
      (drv.outputs[name]? = some .deferred ∧ ¬Deferred store drv ∧
        ∃ path, output = .inputAddressed path) := by
  obtain ⟨old, hold⟩ := StdMap.mem_iff_exists.mp
    ((hfill.names h name).mp (StdMap.mem_iff_exists.mpr ⟨output, houtput⟩))
  by_cases hkept : old = .deferred → Deferred store drv
  · left
    rw [hold, ← houtput, hfill.keeps h name old hold hkept]
  · obtain ⟨rfl, hdeferred⟩ := Classical.not_imp.mp hkept
    obtain ⟨path, hpath⟩ := hfill.fills h name hold hdeferred
    exact .inr ⟨hold, hdeferred, path, Option.some.inj (houtput.symm.trans hpath)⟩

/-- Filling in keeps the kinds of the outputs. -/
theorem sameKinds_filled (hlaws : StoreLaws L) (hfill : RegisterLaws L) {drv filled : Derivation}
    (h : L.fillInOutputPaths store drv = some filled) : SameKinds filled drv where
  floats := by
    constructor
    · rintro ⟨name, output, houtput, hfloats⟩
      rcases hfill.cases h houtput with hold | ⟨-, -, path, rfl⟩
      · exact ⟨name, output, hold, hfloats⟩
      · cases hfloats
    · rintro ⟨name, output, houtput, hfloats⟩
      refine ⟨name, output, hfill.keeps h name output houtput ?_, hfloats⟩
      rintro rfl
      cases hfloats
  fixed := by
    constructor
    · intro hfixed name output houtput
      by_cases hkept : output = .deferred → Deferred store drv
      · exact hfixed name output (hfill.keeps h name output houtput hkept)
      · -- an output that got a path is not fixed
        obtain ⟨rfl, hdeferred⟩ := Classical.not_imp.mp hkept
        obtain ⟨path, hpath⟩ := hfill.fills h name houtput hdeferred
        exact absurd (hfixed name (.inputAddressed path) hpath) id
    · intro hfixed name output houtput
      rcases hfill.cases h houtput with hold | ⟨hold, -, -⟩
      · exact hfixed name output hold
      · exact absurd (hfixed name _ hold) id
  inputs := hlaws.fill h

/-- **When all output paths are known**: exactly when the derivation is not deferred.
Every output without a path is one that was reset, or one that floats. -/
theorem paths_known_iff (hfill : RegisterLaws L) {drv written : Derivation}
    (hfilled : L.fillInOutputPaths store (resetOutputs drv) = some written) :
    (∀ (name : Str) output, written.outputs[name]? = some output → output.path ≠ none) ↔
      ¬Deferred store drv := by
  rw [← (sameKinds_resetOutputs drv).deferred_iff]
  constructor
  · -- a deferred derivation has an output without a path
    intro hknown hdeferred
    rcases deferred_iff.mp hdeferred with ⟨name, output, houtput, hfloats⟩ | ⟨hfixed, -⟩
    · refine hknown name output (hfill.keeps hfilled name output houtput fun _ => hdeferred) ?_
      cases output with
      | caFloating | impure => rfl
      | inputAddressed _ | caFixed _ | deferred => cases hfloats
    · -- an output that is not fixed has been reset, or has no path anyway
      simp only [Derivation.Fixed, not_forall] at hfixed
      obtain ⟨name, output, houtput, hfixed⟩ := hfixed
      refine hknown name output (hfill.keeps hfilled name output houtput fun _ => hdeferred) ?_
      rw [resetOutputs_outputs] at houtput
      obtain ⟨old, -, rfl⟩ := Option.map_eq_some_iff.mp houtput
      cases old with
      | inputAddressed _ | caFloating | deferred | impure => rfl
      | caFixed path => exact absurd trivial hfixed
  · -- the others get all of their paths
    intro hdeferred name output houtput hnone
    rcases hfill.cases hfilled houtput with hold | ⟨-, -, path, rfl⟩
    · cases output with
      | inputAddressed _ | caFixed _ => cases hnone
      | caFloating | impure => exact hdeferred (.floats hold trivial)
      | deferred =>
        obtain ⟨path, hpath⟩ := hfill.fills hfilled name hold hdeferred
        cases houtput.symm.trans hpath
    · cases hnone

/-! ## Inputs -/

/-- Constituents only change the inputs. -/
theorem addConstituents_drv {names : List Str} {job job' : Json} {drv drv' : Derivation}
    (h : names.foldlM (addConstituent L jobs store) (job, drv) = .ok (job', drv')) :
    drv' = { drv with inputDrvs := drv'.inputDrvs } := by
  refine foldlM_related (R := fun s s' : Json × Derivation =>
    s'.2 = { s.2 with inputDrvs := s'.2.inputDrvs }) (fun _ => rfl) (fun h h' => ?_)
    (fun {s s'} name _ hok => ?_) h
  · rw [h', h]
  · obtain ⟨path, childDrv, first, -, -, hdrv, -⟩ := addConstituent_cases hok
    rw [hdrv]

/-- **The inputs are those from before and the constituents.** -/
theorem mem_addConstituents_inputs {names : List Str} {job job' : Json} {drv drv' : Derivation}
    (h : names.foldlM (addConstituent L jobs store) (job, drv) = .ok (job', drv'))
    (input : StorePath) : input ∈ drv'.inputDrvs ↔ input ∈ drv.inputDrvs ∨
      ∃ name ∈ names, ∃ childDrv, constituentDrv L jobs store name = .ok (input, childDrv) := by
  obtain ⟨hnamed, hother⟩ := addConstituents_inputs h
  -- the input is the derivation of a constituent, or is not touched
  by_cases hchild : ∃ name ∈ names, ∃ childDrv,
      constituentDrv L jobs store name = .ok (input, childDrv)
  · refine iff_of_true ?_ (.inr hchild)
    obtain ⟨name, hname, childDrv, hchild⟩ := hchild
    obtain ⟨path, drv₁, first, hpath, -, hinput⟩ := hnamed name hname
    obtain ⟨rfl, rfl⟩ := Prod.mk.inj (Except.ok.inj (hchild.symm.trans hpath))
    exact StdMap.mem_iff_exists.mpr ⟨_, hinput⟩
  · have hsame := hother input fun name hname childDrv hok => hchild ⟨name, hname, childDrv, hok⟩
    rw [or_iff_left hchild, StdMap.mem_iff_exists, StdMap.mem_iff_exists, hsame]

/-! ## Along the run -/

/-- The store holds the derivations of the jobs. -/
def HoldsJobs (L : AggregateLibs) (jobs : JobMap) (store : DrvStore) : Prop :=
  ∀ (name : Str) job drvPathS drvPath, jobs[name]? = some job →
    job.find (lit "drvPath") = some (.string drvPathS) →
      L.parseStorePath drvPathS = some drvPath → ∃ drv, store[drvPath]? = some drv

/-- The store before anything is rewritten: the paths are those of the contents, so that
registering a derivation again gives the path it is read from; and the inputs of what it
holds and the derivations of the jobs can be read. -/
structure Settled (L : AggregateLibs) (jobs : JobMap) (store : DrvStore) : Prop where
  paths : ∀ (drvPath : StorePath) drv, store[drvPath]? = some drv →
    ∀ {store' written newDrvPath store''}, Extends store store' →
      Registered L store' drv written newDrvPath store'' → newDrvPath = drvPath
  closed : Closed store
  jobs : HoldsJobs L jobs store

/-- The derivation that the job has in the end is deferred, said of the map and the store
before anything is rewritten: its own is, or it is an aggregate that nothing is broken
about and that is not fixed, and one of its constituents has such a derivation. -/
inductive DeferredJob (L : AggregateLibs) (jobs : JobMap) (store : DrvStore)
    (aggregates : List AggregateJob) : Str → Prop where
  | own {name : Str} {job : Json} {drvPath : StorePath} {drv : Derivation} :
      Located L { jobs, store } name job drvPath drv → Deferred store drv →
      DeferredJob L jobs store aggregates name
  | constituent {agg : AggregateJob} {job : Json} {drvPath : StorePath} {drv : Derivation}
      {dependency : Str} : agg ∈ aggregates → agg.brokenJobs.isEmpty = true →
      Located L { jobs, store } agg.name job drvPath drv → ¬drv.Fixed →
      dependency ∈ agg.dependencies → DeferredJob L jobs store aggregates dependency →
      DeferredJob L jobs store aggregates agg.name

/-- Where the loop stands: the store has only grown, the aggregates still to come are as
they were, and every other job has a derivation that is deferred when it should be. -/
structure Tracks (L : AggregateLibs) (jobs : JobMap) (store : DrvStore)
    (aggregates before : List AggregateJob) (r : Rewriting) : Prop where
  grown : Extends store r.store
  closed : Closed r.store
  holds : HoldsJobs L r.jobs r.store
  untouched : ∀ name, (∀ agg ∈ before, agg.name ≠ name) → r.jobs[name]? = jobs[name]?
  deferred : ∀ {name job drvPath drv}, (∀ agg ∈ aggregates, agg.name = name → agg ∈ before) →
    Located L r name job drvPath drv →
      (Deferred r.store drv ↔ DeferredJob L jobs store aggregates name)

variable {aggregates before after : List AggregateJob} {agg : AggregateJob} {r : Rewriting}

/-- A job that has not been rewritten is located as it was at first. -/
theorem Tracks.located (hsettled : Settled L jobs store)
    (htracks : Tracks L jobs store aggregates before r) {name : Str} {job : Json}
    {drvPath : StorePath} {drv : Derivation} (hname : ∀ agg ∈ before, agg.name ≠ name)
    (h : Located L r name job drvPath drv) :
    Located L { jobs, store } name job drvPath drv := by
  obtain ⟨hentry, ⟨drvPathS, hfind, hparse⟩, hread⟩ := h
  have hentry₀ : jobs[name]? = some job := (htracks.untouched name hname).symm.trans hentry
  obtain ⟨drv₀, hread₀⟩ := hsettled.jobs name job drvPathS drvPath hentry₀ hfind hparse
  obtain rfl := Option.some.inj ((htracks.grown drvPath drv₀ hread₀).symm.trans hread)
  exact ⟨hentry₀, ⟨drvPathS, hfind, hparse⟩, hread₀⟩

/-- A job is located at one derivation. -/
theorem Located.unique {name : Str} {job job' : Json} {drvPath drvPath' : StorePath}
    {drv drv' : Derivation} (h : Located L r name job drvPath drv)
    (h' : Located L r name job' drvPath' drv') : job = job' ∧ drvPath = drvPath' ∧ drv = drv' := by
  obtain rfl := Option.some.inj (h.entry.symm.trans h'.entry)
  obtain ⟨drvPathS, hfind, hparse⟩ := h.path
  obtain ⟨drvPathS', hfind', hparse'⟩ := h'.path
  obtain rfl := Json.string.inj (Option.some.inj (hfind.symm.trans hfind'))
  obtain rfl := Option.some.inj (hparse.symm.trans hparse')
  exact ⟨rfl, rfl, Option.some.inj (h.read.symm.trans h'.read)⟩

/-- A derivation that was there at first is deferred when it was at first. -/
theorem Tracks.deferred_own (hsettled : Settled L jobs store)
    (htracks : Tracks L jobs store aggregates before r) {drvPath : StorePath} {drv : Derivation}
    (hread : store[drvPath]? = some drv) : Deferred r.store drv ↔ Deferred store drv :=
  ⟨Deferred.of_extends hsettled.closed htracks.grown (hsettled.closed drvPath drv hread),
    Deferred.mono htracks.grown⟩

/-- The order of the list: names differ, and nothing depends on what comes later. -/
structure Precedes (aggregates before : List AggregateJob) (agg : AggregateJob) : Prop where
  names : ∀ other ∈ before, other.name ≠ agg.name
  same : ∀ other ∈ aggregates, other.name = agg.name → other = agg
  dependencies : ∀ dependency ∈ agg.dependencies, dependency ≠ agg.name →
    ∀ other ∈ aggregates, other.name = dependency → other ∈ before

/-- The sorted list is in such an order. -/
theorem precedes_of_sorted (hresolve : resolveNamedConstituents L jobs = .ok (.inr aggregates))
    (hsplit : aggregates = before ++ agg :: after) : Precedes aggregates before agg := by
  have hbefore : ∀ other ∈ before, other.name ≠ agg.name := fun other hother =>
    (resolveNamedConstituents_before hresolve hsplit other hother).1.symm
  -- what comes later has another name, and is not needed here
  have hafter : ∀ other ∈ after, other.name ≠ agg.name ∧ other.name ∉ agg.dependencies := by
    intro other hother
    obtain ⟨middle, rest, rfl⟩ := List.append_of_mem hother
    have hsplit' : aggregates = (before ++ agg :: middle) ++ other :: rest := by
      rw [hsplit, List.append_assoc, List.cons_append]
    exact resolveNamedConstituents_before hresolve hsplit' agg (by simp)
  have hmem : ∀ other ∈ aggregates, other ∈ before ∨ other = agg ∨ other ∈ after := by
    intro other hother
    simpa [hsplit] using hother
  refine ⟨hbefore, fun other hother hname => ?_, fun dependency hdependency hne other hother
    hname => ?_⟩
  · rcases hmem other hother with h | h | h
    · exact absurd hname (hbefore other h)
    · exact h
    · exact absurd hname (hafter other h).1
  · rcases hmem other hother with h | rfl | h
    · exact h
    · exact absurd hname.symm hne
    · exact absurd (hname.symm ▸ hdependency) (hafter other h).2

/-- The derivation of a constituent is the one its job is located at. -/
theorem located_of_constituentDrv {name : Str} {drvPath : StorePath} {drv : Derivation}
    (h : constituentDrv L r.jobs r.store name = .ok (drvPath, drv)) :
    ∃ job, Located L r name job drvPath drv := by
  obtain ⟨hread, job, drvPathS, hentry, hfind, hparse⟩ := store_of_constituentDrv h
  exact ⟨job, hentry, ⟨drvPathS, hfind, hparse⟩, hread⟩

/-- A constituent comes before the aggregate, so it is deferred when it should be. -/
theorem Tracks.deferred_constituent (htracks : Tracks L jobs store aggregates before r)
    (hprecedes : Precedes aggregates before agg) {dependency : Str} {drvPath : StorePath}
    {drv : Derivation} (hdependency : dependency ∈ agg.dependencies) (hne : dependency ≠ agg.name)
    (hok : constituentDrv L r.jobs r.store dependency = .ok (drvPath, drv)) :
    Deferred r.store drv ↔ DeferredJob L jobs store aggregates dependency := by
  obtain ⟨child, hchild⟩ := located_of_constituentDrv hok
  exact htracks.deferred (hprecedes.dependencies dependency hdependency hne) hchild

/-- Constituents take away nothing that the derivation is deferred by. -/
theorem Deferred.addConstituents {names : List Str} {job job' : Json} {drv drv' : Derivation}
    (hadd : names.foldlM (addConstituent L jobs store) (job, drv) = .ok (job', drv'))
    (h : Deferred store drv) : Deferred store drv' := by
  have hdrv' := addConstituents_drv hadd
  have hfixed : drv'.Fixed ↔ drv.Fixed := by rw [hdrv']; rfl
  rcases deferred_iff.mp h with ⟨name, output, houtput, hfloats⟩ |
    ⟨hnot, path, hpath, inputDrv, hread, hinput⟩
  · exact @Deferred.floats _ drv' name output (by rw [hdrv']; exact houtput) hfloats
  · exact .input (mt hfixed.mp hnot) ((mem_addConstituents_inputs hadd path).mpr (.inl hpath))
      hread hinput

/-- A derivation with constituents is deferred on its own account or on that of one of them. -/
theorem deferredJob_of_constituents (hsettled : Settled L jobs store)
    (htracks : Tracks L jobs store aggregates before r) (hprecedes : Precedes aggregates before agg)
    (hagg : agg ∈ aggregates) (hempty : agg.brokenJobs.isEmpty = true) {job job' : Json}
    {drvPath : StorePath} {drv drv' : Derivation}
    (hlocated : Located L { jobs, store } agg.name job drvPath drv)
    (hadd : addConstituents L job drv agg.dependencies r.jobs r.store = .ok (job', drv'))
    (h : Deferred r.store drv') : DeferredJob L jobs store aggregates agg.name := by
  have hown := htracks.deferred_own hsettled hlocated.read
  have hdrv' := addConstituents_drv hadd
  have hfixed : drv'.Fixed ↔ drv.Fixed := by rw [hdrv']; rfl
  rcases deferred_iff.mp h with ⟨name, output, houtput, hfloats⟩ |
    ⟨hnot, path, hpath, inputDrv, hread, hinput⟩
  · rw [hdrv'] at houtput
    exact .own hlocated (.floats houtput hfloats)
  -- the deferred input was there before, or is a constituent
  rcases (mem_addConstituents_inputs hadd path).mp hpath with hpath |
    ⟨dependency, hdependency, childDrv, hok⟩
  · exact .own hlocated (hown.mp (.input (mt hfixed.mpr hnot) hpath hread hinput))
  rw [Std.ExtTreeSet.mem_toList] at hdependency
  obtain ⟨child, hchild⟩ := located_of_constituentDrv hok
  obtain rfl := Option.some.inj (hchild.read.symm.trans hread)
  by_cases hne : dependency = agg.name
  · -- an aggregate that names itself gets its own old derivation as an input
    subst hne
    have hnow : Located L r agg.name job drvPath drv :=
      hlocated.mono (htracks.untouched agg.name hprecedes.names) htracks.grown
    exact .own hlocated (hown.mp ((hchild.unique hnow).2.2 ▸ hinput))
  · exact .constituent hagg hempty hlocated (mt hfixed.mpr hnot) hdependency
      ((htracks.deferred_constituent hprecedes hdependency hne hok).mp hinput)

/-- An aggregate that is to be deferred gets a derivation that is. -/
theorem deferred_of_deferredJob (hsettled : Settled L jobs store)
    (htracks : Tracks L jobs store aggregates before r) (hprecedes : Precedes aggregates before agg)
    {job job' : Json} {drvPath : StorePath} {drv drv' : Derivation}
    (hlocated : Located L { jobs, store } agg.name job drvPath drv)
    (hadd : addConstituents L job drv agg.dependencies r.jobs r.store = .ok (job', drv'))
    {name : Str} (h : DeferredJob L jobs store aggregates name) (hname : name = agg.name) :
    Deferred r.store drv' := by
  have hfixed : drv'.Fixed ↔ drv.Fixed := by rw [addConstituents_drv hadd]; rfl
  -- an induction for the aggregate that is its own constituent
  induction h with
  | own hlocated' hdeferred =>
    subst hname
    obtain ⟨-, -, rfl⟩ := hlocated.unique hlocated'
    exact .addConstituents hadd ((htracks.deferred_own hsettled hlocated.read).mpr hdeferred)
  | @constituent other job₁ path₁ drv₁ dependency hother _ hlocated' hnot hdependency hbelow ih =>
    obtain rfl := hprecedes.same other hother hname
    obtain ⟨-, -, rfl⟩ := hlocated.unique hlocated'
    by_cases hne : dependency = other.name
    · exact ih hne
    obtain ⟨path, childDrv, first, hok, -, hinput⟩ :=
      (addConstituents_inputs hadd).1 dependency (Std.ExtTreeSet.mem_toList.mpr hdependency)
    exact .input (mt hfixed.mp hnot) (StdMap.mem_iff_exists.mpr ⟨_, hinput⟩)
      (store_of_constituentDrv hok).1
      ((htracks.deferred_constituent hprecedes hdependency hne hok).mpr hbelow)

/-- **The derivation with the constituents.** It is deferred exactly when the job is, said
of the map and the store at first. -/
theorem deferred_constituents (hsettled : Settled L jobs store)
    (htracks : Tracks L jobs store aggregates before r) (hprecedes : Precedes aggregates before agg)
    (hagg : agg ∈ aggregates) (hempty : agg.brokenJobs.isEmpty = true) {job job' : Json}
    {drvPath : StorePath} {drv drv' : Derivation}
    (hlocated : Located L { jobs, store } agg.name job drvPath drv)
    (hadd : addConstituents L job drv agg.dependencies r.jobs r.store = .ok (job', drv')) :
    Deferred r.store drv' ↔ DeferredJob L jobs store aggregates agg.name :=
  ⟨deferredJob_of_constituents hsettled htracks hprecedes hagg hempty hlocated hadd,
    fun h => deferred_of_deferredJob hsettled htracks hprecedes hlocated hadd h rfl⟩

/-- The constituents that become inputs have been read from the store. -/
theorem InputsIn.addConstituents {names : List Str} {job job' : Json} {drv drv' : Derivation}
    (h : InputsIn store drv)
    (hadd : names.foldlM (addConstituent L jobs store) (job, drv) = .ok (job', drv')) :
    InputsIn store drv' := by
  intro input hinput
  rcases (mem_addConstituents_inputs hadd input).mp hinput with hinput | ⟨_, _, childDrv, hok⟩
  · exact h input hinput
  · exact ⟨childDrv, (store_of_constituentDrv hok).1⟩

/-- Registering keeps the store closed. -/
theorem Closed.register (hlaws : StoreLaws L) (hfill : RegisterLaws L) (hclosed : Closed store)
    {drv written : Derivation} {newDrvPath : StorePath} {store' : DrvStore}
    (hinputs : InputsIn store drv) (h : Registered L store drv written newDrvPath store') :
    Closed store' := by
  intro path other hread
  rcases hfill.adds h.write path other hread with hold | rfl
  · exact (hclosed path other hold).mono (hlaws.keep h.write)
  · -- the inputs of the new derivation are those of the one that is registered
    intro input hinput
    rw [(hlaws.fill h.fill).trans (resetOutputs_inputDrvs drv)] at hinput
    exact hinputs.mono (hlaws.keep h.write) input hinput

/-- Before the loop everything is as it was. -/
theorem tracks_start (hsettled : Settled L jobs store) :
    Tracks L jobs store aggregates [] { jobs, store } where
  grown _ _ hread := hread
  closed := hsettled.closed
  holds := hsettled.jobs
  untouched _ _ := rfl
  deferred hnone hlocated := by
    refine ⟨fun h => .own hlocated h, fun h => ?_⟩
    cases h with
    | own hlocated' hdeferred =>
      obtain ⟨-, -, rfl⟩ := hlocated.unique hlocated'
      exact hdeferred
    -- no aggregate has been rewritten
    | constituent hagg _ _ _ _ _ => exact absurd (hnone _ hagg rfl) List.not_mem_nil

/-- **Where an aggregate is located** before and after it is rewritten: at the derivation it
had, or at the one that is registered with its constituents. -/
theorem rewriteAggregate_located (hlaws : StoreLaws L) {r' : Rewriting}
    (h : rewriteAggregate L r agg = .ok r') :
    ∃ job drvPath drv job' drvPath' drv', Located L r agg.name job drvPath drv ∧
      Located L r' agg.name job' drvPath' drv' ∧
      ((agg.brokenJobs.isEmpty = false ∧ drv' = drv ∧ r'.store = r.store) ∨
        (agg.brokenJobs.isEmpty = true ∧ ∃ job₁ drv₁,
          addConstituents L job drv agg.dependencies r.jobs r.store = .ok (job₁, drv₁) ∧
            Registered L r.store drv₁ drv' drvPath' r'.store)) := by
  match rewriteAggregate_rewrites h with
  -- a broken aggregate gets an error and keeps its derivation
  | @Rewrites.broken _ _ _ job _ job' drvPath drv hbroken hlocated herase herror _ =>
    refine ⟨job, drvPath, drv, job', drvPath, drv, hlocated, ⟨?_, ?_, hlocated.read⟩,
      .inl ⟨hbroken, rfl, rfl⟩⟩
    · rw [getElem?_insert_name, if_pos rfl]
    · rw [addBrokenJobsError] at herror
      rw [sameBut_assign herror _ (by decide), sameBut_eraseKey herase _ (by decide)]
      exact hlocated.path
  -- any other gets the path of the new one
  | @Rewrites.rewritten _ _ _ job job₁ job₂ job' drvPath drv drv₁ store₁ hempty hlocated hadd
      hregister herase _ =>
    have hadded : job₁.find (lit "drvPath") = job.find (lit "drvPath") :=
      (addConstituents_job hadd).1 _ (by decide)
    obtain ⟨written, newDrvPath, hregistered, -, hpath⟩ :=
      rewriteAndRegisterDrv_located hlaws hregister (hadded ▸ hlocated.path)
    refine ⟨job, drvPath, drv, job', newDrvPath, written, hlocated,
      ⟨?_, ?_, hlaws.read hregistered.write⟩, .inr ⟨hempty, job₁, drv₁, hadd, hregistered⟩⟩
    · rw [getElem?_insert_name, if_pos rfl]
    · rw [sameBut_eraseKey herase _ (by decide)]
      exact hpath

/-- Registering keeps what is deferred. -/
theorem Registered.deferred_iff (hlaws : StoreLaws L) (hfill : RegisterLaws L)
    (hclosed : Closed store) {drv written : Derivation} {newDrvPath : StorePath}
    {store' : DrvStore} (hinputs : InputsIn store drv)
    (h : Registered L store drv written newDrvPath store') :
    Deferred store' written ↔ Deferred store drv := by
  rw [(sameKinds_filled hlaws hfill h.fill).deferred_iff,
    (sameKinds_resetOutputs drv).deferred_iff]
  exact ⟨Deferred.of_extends hclosed (hlaws.keep h.write) hinputs,
    Deferred.mono (hlaws.keep h.write)⟩

/-- A broken aggregate is deferred when its own derivation is. -/
theorem deferredJob_broken (hprecedes : Precedes aggregates before agg)
    (hbroken : agg.brokenJobs.isEmpty = false) {job : Json} {drvPath : StorePath}
    {drv : Derivation} (hlocated : Located L { jobs, store } agg.name job drvPath drv) :
    DeferredJob L jobs store aggregates agg.name ↔ Deferred store drv := by
  refine ⟨fun hdeferred => ?_, fun hdeferred => .own hlocated hdeferred⟩
  generalize hother : agg.name = name at hdeferred hlocated
  cases hdeferred with
  | own hlocated₀ hdeferred =>
    obtain ⟨-, -, rfl⟩ := hlocated.unique hlocated₀
    exact hdeferred
  | constituent hmem hempty _ _ _ _ =>
    obtain rfl := hprecedes.same _ hmem hother.symm
    exact absurd hempty (by rw [hbroken]; simp)

/-- Another job is located where it was before the step. -/
theorem Tracks.located_other (hlaws : StoreLaws L)
    (htracks : Tracks L jobs store aggregates before r) {r' : Rewriting}
    (h : rewriteAggregate L r agg = .ok r') {name : Str} {job : Json} {drvPath : StorePath}
    {drv : Derivation} (hname : agg.name ≠ name) (hlocated : Located L r' name job drvPath drv) :
    Located L r name job drvPath drv := by
  obtain ⟨hentry, ⟨drvPathS, hfind, hparse⟩, hread⟩ := hlocated
  have hentry₀ := (rewriteAggregate_other h hname).symm.trans hentry
  obtain ⟨old, hold⟩ := htracks.holds name job drvPathS drvPath hentry₀ hfind hparse
  obtain rfl := Option.some.inj
    ((rewriteAggregate_extends hlaws h drvPath old hold).symm.trans hread)
  exact ⟨hentry₀, ⟨drvPathS, hfind, hparse⟩, hold⟩

/-- **One aggregate is rewritten.** The jobs before it keep their derivations, and its own
is deferred when it should be. -/
theorem rewriteAggregate_tracks (hlaws : StoreLaws L) (hfill : RegisterLaws L)
    (hsettled : Settled L jobs store) (htracks : Tracks L jobs store aggregates before r)
    (hprecedes : Precedes aggregates before agg) (hagg : agg ∈ aggregates) {r' : Rewriting}
    (h : rewriteAggregate L r agg = .ok r') :
    Tracks L jobs store aggregates (before ++ [agg]) r' := by
  have hextends := rewriteAggregate_extends hlaws h
  obtain ⟨job, drvPath, drv, job', drvPath', drv', hlocated, hlocated', hcases⟩ :=
    rewriteAggregate_located hlaws h
  have hfirst := htracks.located hsettled hprecedes.names hlocated
  refine ⟨fun path drv hread => hextends path drv (htracks.grown path drv hread), ?_, ?_, ?_, ?_⟩
  · -- the store is closed
    rcases hcases with ⟨-, -, hsame⟩ | ⟨-, job₁, drv₁, hadd, hregistered⟩
    · rw [hsame]
      exact htracks.closed
    · exact htracks.closed.register hlaws hfill
        ((htracks.closed _ _ hlocated.read).addConstituents hadd) hregistered
  · -- it holds the jobs
    intro name child drvPathS path hentry hfind hparse
    by_cases hname : agg.name = name
    · subst hname
      obtain rfl := Option.some.inj (hentry.symm.trans hlocated'.entry)
      obtain ⟨drvPathS', hfind', hparse'⟩ := hlocated'.path
      obtain rfl := Json.string.inj (Option.some.inj (hfind.symm.trans hfind'))
      obtain rfl := Option.some.inj (hparse.symm.trans hparse')
      exact ⟨drv', hlocated'.read⟩
    · obtain ⟨childDrv, hread⟩ := htracks.holds name child drvPathS path
        ((rewriteAggregate_other h hname).symm.trans hentry) hfind hparse
      exact ⟨childDrv, hextends path childDrv hread⟩
  · -- what comes later is not touched
    intro name hname
    rw [rewriteAggregate_other h (hname agg (by simp))]
    exact htracks.untouched name fun other hother => hname other (List.mem_append_left _ hother)
  · -- and what is done is deferred when it should be
    intro name child path childDrv hbefore hchild
    by_cases hname : agg.name = name
    · subst hname
      obtain ⟨-, -, rfl⟩ := hchild.unique hlocated'
      rcases hcases with ⟨hbroken, rfl, hsame⟩ | ⟨hempty, job₁, drv₁, hadd, hregistered⟩
      · -- a broken aggregate has the derivation that it was evaluated to
        rw [hsame, htracks.deferred_own hsettled hfirst.read]
        exact (deferredJob_broken hprecedes hbroken hfirst).symm
      · have hinputs : InputsIn r.store drv₁ :=
          (htracks.closed _ _ hlocated.read).addConstituents hadd
        exact (hregistered.deferred_iff hlaws hfill htracks.closed hinputs).trans
          (deferred_constituents hsettled htracks hprecedes hagg hempty hfirst hadd)
    · -- another job is located where it was, and nothing new defers it
      have hchild₀ := htracks.located_other hlaws h hname hchild
      have hbefore' : ∀ other ∈ aggregates, other.name = name → other ∈ before := by
        intro other hother heq
        rcases List.mem_append.mp (hbefore other hother heq) with hmem | hmem
        · exact hmem
        · exact absurd (List.mem_singleton.mp hmem ▸ heq) hname
      rw [← htracks.deferred hbefore' hchild₀]
      exact ⟨Deferred.of_extends htracks.closed hextends
        (htracks.closed path childDrv hchild₀.read), Deferred.mono hextends⟩

/-- **The whole run tracks the deferred derivations**, up to any aggregate. -/
theorem rewriteAggregates_tracks (hlaws : StoreLaws L) (hfill : RegisterLaws L)
    (hsettled : Settled L jobs store)
    (hresolve : resolveNamedConstituents L jobs = .ok (.inr aggregates))
    (hsplit : aggregates = before ++ after)
    (h : before.foldlM (rewriteAggregate L) { jobs, store } = .ok r) :
    Tracks L jobs store aggregates before r := by
  refine foldlM_prefix (I := fun done r => Tracks L jobs store aggregates done r)
    (fun {done agg rest r r'} hdone htracks hstep => ?_) (tracks_start hsettled) h
  have hsplit' : aggregates = done ++ agg :: (rest ++ after) := by
    rw [hsplit, hdone, List.append_assoc, List.cons_append]
  refine rewriteAggregate_tracks hlaws hfill hsettled htracks
    (precedes_of_sorted hresolve hsplit') ?_ hstep
  rw [hsplit']
  exact List.mem_append_right _ (List.mem_cons_self ..)

end Aggregates

end NixEvalJobs
