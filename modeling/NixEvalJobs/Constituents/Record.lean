import NixEvalJobs.Codec
import NixEvalJobs.Constituents.Addressing

/-!
# Aggregates — the record of a rewritten aggregate

The JSON of an aggregate describes the derivation it had when it was evaluated. Once
that derivation is replaced, `drvPath` and `outputs` are patched. The outputs are taken from
the environment of the new derivation, which has a text for every output, also for one
whose path is not known and that the record of a job has as null. `inputDrvs` and
`neededBuilds` depend on the derivation as well, and stay.

* `rewriteAggregates_describes_iff` — a replaced record is about its new derivation
  exactly when it names no other outputs, the new derivation is not deferred, there is no
  `inputDrvs`, and `neededBuilds` does not list it.
-/

namespace NixEvalJobs

namespace Aggregates

variable {L : AggregateLibs} {jobs : JobMap} {store : DrvStore}

/-! ## What a record says -/

/-- `inputDrvs` of a derivation. -/
def inputDrvsValue (L : AggregateLibs) (drv : Derivation) : Json :=
  .object (Fields.ofMap L.printStorePath .ofStringSet drv.inputDrvs)

/-- What `to_json` prints for an output of a derivation: its path, or null while it has
none. -/
def outputValue (L : AggregateLibs) (drv : Derivation) (name : Str) : Option Json :=
  match drv.outputs[name]? with
  | none => none
  | some output =>
    match output.path with
    | some path => some (.string (L.printStorePath path))
    | none => some .null

/-- The `outputs` member. -/
def outputsOf (job : Json) : Json := (job.find (lit "outputs")).getD .null

/-- The elements of the member `neededBuilds`. -/
def neededBuildsOf (job : Json) : List Json :=
  ((job.find (lit "neededBuilds")).getD .null).elements

/-- `Drv::fromPackageInfo`: with `--show-input-drvs` the record lists the inputs of the
derivation. -/
def ListsInputs (L : AggregateLibs) (drv : Derivation) (job : Json) : Prop :=
  ∀ value, job.find (lit "inputDrvs") = some value → value = inputDrvsValue L drv

/-- The record names outputs of the derivation only. -/
def KnownOutputs (drv : Derivation) (job : Json) : Prop :=
  ∀ name, (outputsOf job).find name ≠ none → name ∈ drv.outputs

/-- The printed value is about the derivation at its `drvPath`, and does not list the
derivation that was replaced among those that have to be built. -/
def DescribesDerivation (L : AggregateLibs) (store : DrvStore) (replaced json : Json) : Prop :=
  ∃ drvPathS drvPath drv, json.find (lit "drvPath") = some (.string drvPathS) ∧
    L.parseStorePath drvPathS = some drvPath ∧ store[drvPath]? = some drv ∧
    (∀ name, (outputsOf json).find name = outputValue L drv name) ∧
    (∀ value, json.find (lit "inputDrvs") = some value → value = inputDrvsValue L drv) ∧
    ∀ value, replaced.find (lit "drvPath") = some value → value ∉ neededBuildsOf json

/-! ## Inputs -/

/-- Different inputs are listed differently. -/
theorem inputDrvsValue_inj (hlaws : StoreLaws L) {drv drv' : Derivation}
    (h : inputDrvsValue L drv = inputDrvsValue L drv') : drv.inputDrvs = drv'.inputDrvs := by
  have hdecode : ∀ inputs : StdMap StorePath (StdSet Str),
      (Fields.ofMap L.printStorePath .ofStringSet inputs).toMap (fun s =>
        match L.parseStorePath s with
        | some path => .ok path
        | none => .error .nixLib) Json.asStringSet = .ok inputs := by
    intro inputs
    refine Fields.toMap_ofMap inputs (fun path _ => ?_) fun _ names _ =>
      Json.asStringSet_ofStringSet names
    rw [hlaws.parse_print]
  have hfields := Json.object.inj h
  have hinputs := hdecode drv.inputDrvs
  rw [hfields, hdecode drv'.inputDrvs] at hinputs
  exact (Except.ok.inj hinputs).symm

/-! ## Outputs -/

/-- Setting an output. -/
theorem setOutput_outputs {env : StdMap Str Str} {job job' : Json} {name : Str}
    (h : setOutput env job name = .ok job') (name' : Str) :
    (outputsOf job').find name' =
      if name' = name then (env[name]?).map .string else (outputsOf job).find name' := by
  rw [setOutput] at h
  split at h
  · cases h
  next path hpath =>
  obtain ⟨member, hmember, h⟩ := bind_eq_ok.mp h
  obtain ⟨outputs, houtputs, h⟩ := bind_eq_ok.mp h
  have hjob' : outputsOf job' = outputs := by
    rw [outputsOf, Json.find_assign h, if_pos rfl]
    rfl
  rw [hjob', Json.find_assign houtputs, Json.member_eq_ok hmember, hpath]
  rfl

/-- Setting outputs one after the other. -/
theorem setOutputs_outputs {env : StdMap Str Str} {names : List Str} {job job' : Json}
    (h : names.foldlM (setOutput env) job = .ok job') (name' : Str) :
    (outputsOf job').find name' =
      if name' ∈ names then (env[name']?).map .string else (outputsOf job).find name' := by
  induction names generalizing job with
  | nil =>
    obtain rfl := Except.ok.inj h
    rfl
  | cons name names ih =>
    rw [List.foldlM_cons] at h
    obtain ⟨job₁, hset, hrest⟩ := bind_eq_ok.mp h
    rw [ih hrest, setOutput_outputs hset]
    by_cases hmem : name' ∈ names
    · rw [if_pos hmem, if_pos (List.mem_cons_of_mem _ hmem)]
    · rw [if_neg hmem]
      by_cases heq : name' = name
      · rw [if_pos heq, heq, if_pos (List.mem_cons_self ..)]
      · rw [if_neg heq, if_neg fun hc => (List.mem_cons.mp hc).elim heq hmem]

/-- **Whether the outputs are those of the new derivation.** The record must not name any
other, and every path must be known: what is printed is a string in any case. -/
theorem setOutputs_describes_iff (hfill : RegisterLaws L) {drv written : Derivation}
    {job job' : Json} (hfilled : L.fillInOutputPaths store drv = some written)
    (h : written.outputs.keys.foldlM (setOutput written.env) job = .ok job') :
    (∀ name, (outputsOf job').find name = outputValue L written name) ↔
      KnownOutputs drv job ∧
        ∀ (name : Str) output, written.outputs[name]? = some output → output.path ≠ none := by
  have hunknown : ∀ name ∉ written.outputs,
      (outputsOf job').find name = (outputsOf job).find name ∧
        outputValue L written name = none := by
    intro name hname
    rw [setOutputs_outputs h, if_neg (mt Std.ExtTreeMap.mem_keys.mp hname), outputValue,
      Std.ExtTreeMap.getElem?_eq_none hname]
    exact ⟨rfl, rfl⟩
  have hset : ∀ name ∈ written.outputs,
      (outputsOf job').find name = (written.env[name]?).map .string := by
    intro name hname
    rw [setOutputs_outputs h, if_pos (Std.ExtTreeMap.mem_keys.mpr hname)]
  constructor
  · refine fun hall => ⟨fun name hfind => ?_, fun name output houtput hnone => ?_⟩
    · -- a name that the derivation does not have stays in the record
      by_contra hname
      have hnot : name ∉ written.outputs := mt (hfill.names hfilled name).mp hname
      obtain ⟨hsame, hnone⟩ := hunknown name hnot
      exact hfind (hsame.symm.trans ((hall name).trans hnone))
    · -- the text that is set for an output without a path is not null
      have hvalue := (hset name (StdMap.mem_iff_exists.mpr ⟨output, houtput⟩)).symm.trans
        (hall name)
      rw [outputValue, houtput] at hvalue
      dsimp only at hvalue
      rw [hnone] at hvalue
      obtain ⟨text, -, hnull⟩ := Option.map_eq_some_iff.mp hvalue
      cases hnull
  · rintro ⟨hknown, hpaths⟩ name
    by_cases hmem : name ∈ written.outputs
    · rw [hset name hmem, outputValue]
      obtain ⟨output, houtput⟩ := StdMap.mem_iff_exists.mp hmem
      obtain ⟨path, hpath⟩ := Option.ne_none_iff_exists'.mp (hpaths name output houtput)
      rw [houtput, hfill.env hfilled name output path houtput hpath]
      dsimp only
      rw [hpath]
      rfl
    · obtain ⟨hsame, hnone⟩ := hunknown name hmem
      rw [hsame, hnone]
      by_contra hfind
      exact hmem ((hfill.names hfilled name).mpr (hknown name hfind))

/-! ## One aggregate -/

/-- A derivation that moves has got other inputs: with the same ones it would have been
written where it came from. -/
theorem inputDrvs_ne_of_moved (hlaws : StoreLaws L) (hsettled : Settled L jobs store)
    {names : List Str} {jobs' : JobMap} {store₁ store' : DrvStore} {job job' : Json}
    {drv drv₁ written : Derivation} {drvPath newDrvPath : StorePath}
    (hstore : Extends store store₁) (hread : store[drvPath]? = some drv)
    (hadd : names.foldlM (addConstituent L jobs' store₁) (job, drv) = .ok (job', drv₁))
    (hregistered : Registered L store₁ drv₁ written newDrvPath store')
    (hmoved : newDrvPath ≠ drvPath) : written.inputDrvs ≠ drv.inputDrvs := by
  intro hsame
  have hinputs : drv₁.inputDrvs = drv.inputDrvs :=
    ((hlaws.fill hregistered.fill).trans (resetOutputs_inputDrvs drv₁)).symm.trans hsame
  have hdrv : drv₁ = drv := by
    rw [addConstituents_drv hadd, hinputs]
  exact hmoved (hsettled.paths drvPath drv hread hstore (hdrv ▸ hregistered))

/-- **When a replaced record describes its new derivation**, at the point of the loop where
it is replaced. -/
theorem rewriteAggregate_describes_iff (hlaws : StoreLaws L) (hfill : RegisterLaws L)
    (hsettled : Settled L jobs store) {aggregates before : List AggregateJob} {r r' : Rewriting}
    {agg : AggregateJob} (htracks : Tracks L jobs store aggregates before r)
    (hprecedes : Precedes aggregates before agg) (hagg : agg ∈ aggregates) {job json : Json}
    {drvPath : StorePath} {drv : Derivation}
    (hfirst : Located L { jobs, store } agg.name job drvPath drv) (hlists : ListsInputs L drv job)
    (h : rewriteAggregate L r agg = .ok r') (hjson : r'.jobs[agg.name]? = some json)
    (hmoved : json.find (lit "drvPath") ≠ job.find (lit "drvPath")) {final : DrvStore}
    (hfinal : Extends r'.store final) :
    DescribesDerivation L final job json ↔ KnownOutputs drv job ∧
      ¬DeferredJob L jobs store aggregates agg.name ∧ job.find (lit "inputDrvs") = none ∧
      ∀ value, job.find (lit "drvPath") = some value → value ∉ neededBuildsOf job := by
  have hlocated : Located L r agg.name job drvPath drv :=
    hfirst.mono (htracks.untouched agg.name hprecedes.names) htracks.grown
  match rewriteAggregate_rewrites h with
  | @Rewrites.broken _ _ _ job₀ job₁ job' _ _ _ hlocated' herase herror _ =>
    -- an aggregate with an error keeps its path
    obtain ⟨rfl, -, -⟩ := hlocated.unique hlocated'
    rw [getElem?_insert_name, if_pos rfl] at hjson
    obtain rfl := Option.some.inj hjson
    refine absurd ?_ hmoved
    rw [addBrokenJobsError] at herror
    rw [sameBut_assign herror _ (by decide), sameBut_eraseKey herase _ (by decide)]
  | @Rewrites.rewritten _ _ _ job₀ job₁ job₂ job' path₀ drv₀ drv₁ store₁ hempty hlocated' hadd
      hregister herase _ =>
    obtain ⟨rfl, rfl, rfl⟩ := hlocated.unique hlocated'
    rw [getElem?_insert_name, if_pos rfl] at hjson
    obtain rfl := Option.some.inj hjson
    have hadded := (addConstituents_job hadd).1
    -- the members that are neither patched nor dropped are those of the record
    have hkept : SameBut [lit "constituents", lit "drvPath", lit "outputs",
        lit "namedConstituents"] job job' :=
      ((hadded.mono (by simp)).trans ((rewriteAndRegisterDrv_sameBut hregister).mono
        (by simp))).trans ((sameBut_eraseKey herase).mono (by simp))
    obtain ⟨written, newDrvPath, hregistered, ⟨-, rfl⟩ | ⟨hpath, moved, hassign, hset⟩⟩ :=
      rewriteAndRegisterDrv_cases hregister
    · refine absurd ?_ hmoved
      rw [sameBut_eraseKey herase _ (by decide), hadded _ (by decide)]
    have hnew : job'.find (lit "drvPath") = some (.string (L.printStorePath newDrvPath)) := by
      rw [sameBut_eraseKey herase _ (by decide), setOutputs_sameBut hset _ (by decide),
        Json.find_assign hassign, if_pos rfl]
    have hwritten : final[newDrvPath]? = some written := hfinal _ _ (hlaws.read hregistered.write)
    have hinputDrvs : job'.find (lit "inputDrvs") = job.find (lit "inputDrvs") :=
      hkept _ (by decide)
    have hneeded : neededBuildsOf job' = neededBuildsOf job := by
      rw [neededBuildsOf, hkept _ (by decide), ← neededBuildsOf]
    have houtputs : (∀ name, (outputsOf job').find name = outputValue L written name) ↔
        KnownOutputs drv job ∧ ¬DeferredJob L jobs store aggregates agg.name := by
      have hlast : outputsOf job' = outputsOf job₂ := by
        rw [outputsOf, sameBut_eraseKey herase _ (by decide), ← outputsOf]
      have hmovedOutputs : outputsOf moved = outputsOf job := by
        rw [outputsOf, sameBut_assign hassign _ (by decide), hadded _ (by decide), ← outputsOf]
      have hdrv : drv₁.outputs = drv.outputs := by
        rw [addConstituents_drv hadd]
      rw [hlast, setOutputs_describes_iff hfill hregistered.fill hset,
        paths_known_iff hfill hregistered.fill,
        deferred_constituents hsettled htracks hprecedes hagg hempty hfirst hadd, KnownOutputs,
        hmovedOutputs]
      simp only [mem_resetOutputs, hdrv, KnownOutputs]
    constructor
    · rintro ⟨drvPathS, path, new, hfind, hparse, hnewRead, hnewOutputs, hnewInputs, hnewNeeded⟩
      obtain rfl := Json.string.inj (Option.some.inj (hnew.symm.trans hfind))
      obtain rfl := Option.some.inj ((hlaws.parse_print newDrvPath).symm.trans hparse)
      obtain rfl := Option.some.inj (hwritten.symm.trans hnewRead)
      obtain ⟨hknown, hdeferred⟩ := houtputs.mp hnewOutputs
      refine ⟨hknown, hdeferred, ?_, fun value hvalue => hneeded ▸ hnewNeeded value hvalue⟩
      -- a list of the old inputs is not one of the new inputs
      rw [Option.eq_none_iff_forall_ne_some]
      intro value hvalue
      have hlisted := (hnewInputs value (hinputDrvs.trans hvalue)).symm.trans (hlists value hvalue)
      exact inputDrvs_ne_of_moved hlaws hsettled htracks.grown hfirst.read hadd hregistered hpath
        (inputDrvsValue_inj hlaws hlisted)
    · rintro ⟨hknown, hdeferred, hnone, hnotNeeded⟩
      refine ⟨_, newDrvPath, written, hnew, hlaws.parse_print newDrvPath, hwritten,
        houtputs.mpr ⟨hknown, hdeferred⟩, fun value hvalue => ?_, fun value hvalue => ?_⟩
      · cases hvalue.symm.trans (hinputDrvs.trans hnone)
      · rw [hneeded]
        exact hnotNeeded value hvalue

/-! ## All aggregates -/

/-- The store only grows. -/
theorem rewriteAggregates_extends (hlaws : StoreLaws L) {aggregates : List AggregateJob}
    {r r' : Rewriting} (h : aggregates.foldlM (rewriteAggregate L) r = .ok r') :
    Extends r.store r'.store :=
  foldlM_related (R := fun r r' : Rewriting => Extends r.store r'.store)
    (fun _ _ _ hread => hread) (fun h h' path drv hread => h' path drv (h path drv hread))
    (fun _ _ hok => rewriteAggregate_extends hlaws hok) h

/-- **The step that prints an aggregate**, with what is rewritten before it. No other
aggregate has its name, so the line that is printed then is its only one. -/
theorem rewriteAggregates_step (hlaws : StoreLaws L) {aggregates : List AggregateJob}
    {r : Rewriting} {agg : AggregateJob} {json : Json}
    (hresolve : resolveNamedConstituents L jobs = .ok (.inr aggregates))
    (hrewrite : rewriteAggregates L jobs aggregates store = .ok r) (hagg : agg ∈ aggregates)
    (hprinted : (agg.name, json) ∈ r.printed) :
    ∃ before after r₁ r₂, aggregates = before ++ agg :: after ∧
      before.foldlM (rewriteAggregate L) { jobs, store } = .ok r₁ ∧
      rewriteAggregate L r₁ agg = .ok r₂ ∧ r₂.jobs[agg.name]? = some json ∧
      Extends r₂.store r.store := by
  obtain ⟨before, after, rfl⟩ := List.append_of_mem hagg
  rw [rewriteAggregates, List.foldlM_append] at hrewrite
  obtain ⟨r₁, hbefore, hrewrite⟩ := bind_eq_ok.mp hrewrite
  rw [List.foldlM_cons] at hrewrite
  obtain ⟨r₂, hstep, hafter⟩ := bind_eq_ok.mp hrewrite
  -- no other aggregate of the list has this name
  have hnameBefore : ∀ other ∈ before, other.name ≠ agg.name := fun other hother =>
    (resolveNamedConstituents_before hresolve rfl other hother).1.symm
  have hnameAfter : ∀ other ∈ after, other.name ≠ agg.name := by
    intro other hother
    obtain ⟨middle, rest, rfl⟩ := List.append_of_mem hother
    have hsplit : before ++ agg :: (middle ++ other :: rest) =
        (before ++ agg :: middle) ++ other :: rest := by
      simp
    exact (resolveNamedConstituents_before hresolve hsplit agg (by simp)).1
  refine ⟨before, after, r₁, r₂, rfl, hbefore, hstep, ?_, rewriteAggregates_extends hlaws hafter⟩
  -- so its line is the one that the step adds
  obtain ⟨job, job', -, hjobs, hlines, -⟩ := rewriteAggregate_cases hstep
  have hline : (agg.name, json) ∈ r₂.printed := by
    refine ((rewriteAggregates_printed hafter).1 _ _ hprinted).resolve_right ?_
    rintro ⟨other, hother, hname, -⟩
    exact hnameAfter other hother hname
  rw [hlines, List.mem_append] at hline
  have hnew : (agg.name, json) = (agg.name, job') := by
    refine List.mem_singleton.mp (hline.resolve_left fun hold => ?_)
    rcases (rewriteAggregates_printed hbefore).1 _ _ hold with hold | ⟨other, hother, hname, -⟩
    · exact absurd hold List.not_mem_nil
    · exact hnameBefore other hother hname
  rw [hjobs, getElem?_insert_name, if_pos rfl, (Prod.mk.inj hnew).2]

/-- **When a replaced record describes its new derivation.** It does exactly when it names
no other outputs, the derivation is not deferred, there is no `inputDrvs`, and
`neededBuilds` does not list the derivation: the last two are not patched, and of the
outputs only those of the derivation, each with the text of the environment. -/
theorem rewriteAggregates_describes_iff (hlaws : StoreLaws L) (hfill : RegisterLaws L)
    (hsettled : Settled L jobs store) {aggregates : List AggregateJob} {r : Rewriting}
    {agg : AggregateJob} {job json : Json} {drvPath : StorePath} {drv : Derivation}
    (hresolve : resolveNamedConstituents L jobs = .ok (.inr aggregates))
    (hrewrite : rewriteAggregates L jobs aggregates store = .ok r) (hagg : agg ∈ aggregates)
    (hlocated : Located L { jobs, store } agg.name job drvPath drv) (hlists : ListsInputs L drv job)
    (hprinted : (agg.name, json) ∈ r.printed)
    (hmoved : json.find (lit "drvPath") ≠ job.find (lit "drvPath")) :
    DescribesDerivation L r.store job json ↔ KnownOutputs drv job ∧
      ¬DeferredJob L jobs store aggregates agg.name ∧ job.find (lit "inputDrvs") = none ∧
      ∀ value, job.find (lit "drvPath") = some value → value ∉ neededBuildsOf job := by
  obtain ⟨before, after, r₁, r₂, hsplit, hbefore, hstep, hjson, hgrown⟩ :=
    rewriteAggregates_step hlaws hresolve hrewrite hagg hprinted
  exact rewriteAggregate_describes_iff hlaws hfill hsettled
    (rewriteAggregates_tracks hlaws hfill hsettled hresolve hsplit hbefore)
    (precedes_of_sorted hresolve hsplit) hagg hlocated hlists hstep hjson hmoved hgrown

/-! ## A release whose record is out of date -/

/-- A derivation as it is instantiated, without inputs. -/
def recordedDrv (name : String) : Derivation :=
  let drv : Derivation :=
    { outputs := (∅ : StdMap Str DerivationOutput).insert (lit "out") .deferred
      env := ((∅ : StdMap Str Str).insert (lit "name") (lit name)).insert (lit "out") [] }
  withOutputs drv (drv.outputs.map fun name => fillOutput (outputPath drv name))

/-- The path of that derivation. -/
def recordedPath (name : String) : StorePath := addressOf (recordedDrv name)

def recordedStore : DrvStore :=
  ["release", "package"].foldl
    (fun store name => store.insert (recordedPath name) (recordedDrv name)) ∅

/-- The response of the aggregate `release`: with `--show-input-drvs` it lists no inputs,
with `--check-cache-status` that it has to be built. -/
def releaseResponse (showInputDrvs checkCacheStatus : Bool) : Response where
  attr := lit "release"
  attrPath := [lit "release"]
  payload := .job
    { name := lit "release", storeDir := lit "/nix/store", system := lit "x86_64-linux"
      drvPath := recordedPath "release"
      outputs := (recordedDrv "release").outputsAndOptPaths
      inputDrvs := if showInputDrvs then some (recordedDrv "release").inputDrvs else none
      neededBuilds := if checkCacheStatus then [recordedPath "release"] else []
      cacheStatus := if checkCacheStatus then .notBuilt else .unknown
      constituents := { namedConstituents := [lit "package"] } } none

def recordedJobs (showInputDrvs checkCacheStatus : Bool) : JobMap :=
  ((∅ : JobMap).insert (lit "package")
    (.object [(lit "drvPath", .string (addressedLibs.printStorePath (recordedPath "package")))])
    ).insert (lit "release")
      ((releaseResponse showInputDrvs checkCacheStatus).toJson StorePaths.plain)

/-- The derivations of the store are what they become when their outputs are reset and
filled in again, and they have no inputs; the jobs name derivations of the store. -/
theorem recordedStore_settled (showInputDrvs checkCacheStatus : Bool) :
    Settled addressedLibs (recordedJobs showInputDrvs checkCacheStatus) recordedStore := by
  have hempty : ∀ (path : StorePath) drv, recordedStore[path]? = some drv →
      drv.inputDrvs = ∅ := by
    have hall : (recordedStore.toList.all fun e => e.2.inputDrvs.isEmpty) = true := by
      decide +kernel
    intro path drv hread
    exact Std.ExtTreeMap.isEmpty_iff.mp (List.all_eq_true.mp hall (path, drv)
      (Std.ExtTreeMap.mem_toList_iff_getElem?_eq_some.mpr hread))
  refine ⟨?_, ?_, ?_⟩
  · intro path drv hread store' written newDrvPath store'' _ hregistered
    have hall : (recordedStore.toList.all fun e =>
        (addressedLibs.fillInOutputPaths ∅ (resetOutputs e.2)).all fun filled =>
          decide (addressOf filled = e.1)) = true := by
      decide +kernel
    have haddress := List.all_eq_true.mp hall (path, drv)
      (Std.ExtTreeMap.mem_toList_iff_getElem?_eq_some.mpr hread)
    -- without inputs it is filled in here as in any other store
    have hfilled : addressedLibs.fillInOutputPaths ∅ (resetOutputs drv) = some written :=
      (congrArg (Option.map _) (isDeferred_no_inputs
        ((resetOutputs_inputDrvs drv).trans (hempty path drv hread)) ..)).trans hregistered.fill
    dsimp only at haddress
    rw [hfilled, Option.all_some, decide_eq_true_eq] at haddress
    exact (writeAddressed_spec hregistered.write).1.trans haddress
  · intro path drv hread input hinput
    rw [hempty path drv hread] at hinput
    exact absurd hinput Std.ExtTreeMap.not_mem_empty
  · intro name job drvPathS drvPath hjob hfind hparse
    have hall : ∀ showInputDrvs checkCacheStatus,
        ((recordedJobs showInputDrvs checkCacheStatus).toList.all fun e =>
          (e.2.find (lit "drvPath")).all fun value => value.asString.toOption.all fun drvPathS =>
            (addressedLibs.parseStorePath drvPathS).all (recordedStore.contains ·)) = true := by
      decide +kernel
    have hheld := List.all_eq_true.mp (hall showInputDrvs checkCacheStatus) (name, job)
      (Std.ExtTreeMap.mem_toList_iff_getElem?_eq_some.mpr hjob)
    dsimp only at hheld
    rw [hfind, Option.all_some] at hheld
    change (addressedLibs.parseStorePath drvPathS).all (recordedStore.contains ·) = true at hheld
    rw [hparse, Option.all_some] at hheld
    exact StdMap.mem_iff_exists.mp (Std.ExtTreeMap.mem_iff_contains.mpr hheld)

/-- What becomes of the map. -/
def recordedResult (showInputDrvs checkCacheStatus : Bool) :
    Option (List AggregateJob × Rewriting) :=
  rewriteResult addressedLibs (recordedJobs showInputDrvs checkCacheStatus) recordedStore

theorem recordedResult_flags : (recordedResult true true).isSome = true := by decide +kernel

theorem recordedResult_plain : (recordedResult false false).isSome = true := by decide +kernel

/-- The record of a job whose `Drv` has the inputs of the derivation. -/
theorem listsInputs_response {X : StorePaths} {response : Response} {d : Drv}
    {extraValue : Option Json} {drv : Derivation} (hp : response.payload = .job d extraValue)
    (hprint : X.printStorePath d.storeDir = L.printStorePath)
    (hinputs : ∀ inputs, d.inputDrvs = some inputs → inputs = drv.inputDrvs) :
    ListsInputs L drv (response.toJson X) := by
  intro value hvalue
  have hmember : d.inputDrvs.map (d.inputDrvsJson X) = some value :=
    (Response.writtenIn_toFields_job hp).inputDrvs.symm.trans hvalue
  obtain ⟨inputs, hsome, rfl⟩ := Option.map_eq_some_iff.mp hmember
  rw [Drv.inputDrvsJson, hinputs inputs hsome, hprint, inputDrvsValue]

/-- The path that is printed for `release`. -/
def printedPath (r : Rewriting) : Option Str :=
  (r.printed.find? fun line => line.1 = lit "release").bind fun line =>
    (line.2.find (lit "drvPath")).bind fun value => value.asString.toOption

/-- The job of the response is that of the derivation, before it is rewritten. -/
theorem recordedJobs_located (showInputDrvs checkCacheStatus : Bool) :
    let job := (releaseResponse showInputDrvs checkCacheStatus).toJson StorePaths.plain
    Located addressedLibs ⟨recordedJobs showInputDrvs checkCacheStatus, recordedStore, []⟩
        (lit "release") job (recordedPath "release") (recordedDrv "release") ∧
      ListsInputs addressedLibs (recordedDrv "release") job := by
  intro job
  have hw := @Response.writtenIn_toFields_job StorePaths.plain
    (releaseResponse showInputDrvs checkCacheStatus) _ _ rfl
  refine ⟨⟨?_, ⟨_, hw.drvPath, ?_⟩, ?_⟩, listsInputs_response (d := _) rfl rfl ?_⟩
  · exact getElem?_insert_name.trans (if_pos rfl)
  · exact addressedLibs_laws.parse_print (recordedPath "release")
  · have hpaths : (["release", "package"].map recordedPath).Nodup := by
      decide +kernel
    exact (StdMap.getElem?_foldl_insert hpaths ∅ _ _).mpr (.inl ⟨"release", by simp, rfl, rfl⟩)
  · intro inputs hinputs
    match showInputDrvs with
    | true => exact (Option.some.inj hinputs).symm
    | false => cases hinputs

/-- The line of `release` names another derivation than its job did. -/
theorem recordedResult_moved {showInputDrvs checkCacheStatus : Bool} {r : Rewriting}
    (hpath : (printedPath r).any (fun path =>
      decide (path ≠ addressedLibs.printStorePath (recordedPath "release"))) = true) :
    ∃ json, (lit "release", json) ∈ r.printed ∧ json.find (lit "drvPath") ≠
      ((releaseResponse showInputDrvs checkCacheStatus).toJson StorePaths.plain).find
        (lit "drvPath") := by
  obtain ⟨path, hpath, hmoved⟩ := Option.any_eq_true _ _ |>.mp hpath
  obtain ⟨⟨name, json⟩, hline, hpath⟩ := Option.bind_eq_some_iff.mp hpath
  obtain ⟨value, hvalue, hstring⟩ := Option.bind_eq_some_iff.mp hpath
  have hname : name = lit "release" := by
    simpa using List.find?_some hline
  subst hname
  refine ⟨json, List.mem_of_find?_eq_some hline, fun hsame => of_decide_eq_true hmoved ?_⟩
  have hw := @Response.writtenIn_toFields_job StorePaths.plain
    (releaseResponse showInputDrvs checkCacheStatus) _ _ rfl
  have hold := hsame.symm.trans hvalue
  rw [Json.asString_eq_ok (eq_ok_of_toOption hstring)] at hold
  exact Json.string.inj (Option.some.inj (hold.symm.trans hw.drvPath))

/-- With both flags `release` gets a new derivation, and its record lists the inputs that
it had before. -/
theorem not_describesDerivation_release :
    let result := (recordedResult true true).get recordedResult_flags
    let job := (releaseResponse true true).toJson StorePaths.plain
    resolveNamedConstituents addressedLibs (recordedJobs true true) = .ok (.inr result.1) ∧
      rewriteAggregates addressedLibs (recordedJobs true true) result.1 recordedStore =
        .ok result.2 ∧
      ∃ agg ∈ result.1, ∃ json, (recordedJobs true true)[agg.name]? = some job ∧
        (agg.name, json) ∈ result.2.printed ∧
        json.find (lit "drvPath") ≠ job.find (lit "drvPath") ∧
        ¬DescribesDerivation addressedLibs result.2.store job json := by
  intro result job
  have hresult : recordedResult true true = some result := (Option.some_get _).symm
  have hpath : (printedPath result.2).any (fun path =>
      decide (path ≠ addressedLibs.printStorePath (recordedPath "release"))) = true := by
    decide +kernel
  have hrelease : (result.1.any fun agg => agg.name = lit "release") = true := by decide +kernel
  -- from here on only what the checks have shown about the result matters
  clear_value result
  obtain ⟨hresolve, hrewrite⟩ := rewriteResult_eq_some hresult
  refine ⟨hresolve, hrewrite, ?_⟩
  obtain ⟨agg, hagg, hname⟩ := List.any_eq_true.mp hrelease
  obtain ⟨hlocated, hlists⟩ := recordedJobs_located true true
  obtain ⟨json, hprinted, hmoved⟩ := recordedResult_moved (r := result.2) hpath
  rw [← of_decide_eq_true hname] at hprinted hlocated
  refine ⟨agg, hagg, json, hlocated.entry, hprinted, hmoved, fun hdescribes => ?_⟩
  obtain ⟨before, after, r₁, r₂, hsplit, hbefore, hstep, hjson, hgrown⟩ :=
    rewriteAggregates_step addressedLibs_laws hresolve hrewrite hagg hprinted
  have hsettled := recordedStore_settled true true
  have hcond := (rewriteAggregate_describes_iff addressedLibs_laws addressedLibs_registerLaws
    hsettled (rewriteAggregates_tracks addressedLibs_laws addressedLibs_registerLaws hsettled
      hresolve hsplit hbefore) (precedes_of_sorted hresolve hsplit) hagg hlocated hlists hstep
    hjson hmoved hgrown).mp hdescribes
  -- the record has the member
  have hw := @Response.writtenIn_toFields_job StorePaths.plain (releaseResponse true true) _ _ rfl
  cases hw.inputDrvs.symm.trans hcond.2.2.1

/-- Without the flags the record is that of the new derivation. -/
theorem rewriteAggregates_describes_iff_release :
    let result := (recordedResult false false).get recordedResult_plain
    let job := (releaseResponse false false).toJson StorePaths.plain
    ∃ agg ∈ result.1, ∃ json, (agg.name, json) ∈ result.2.printed ∧
      json.find (lit "drvPath") ≠ job.find (lit "drvPath") ∧
      (DescribesDerivation addressedLibs result.2.store job json ↔
        KnownOutputs (recordedDrv "release") job ∧
          ¬DeferredJob addressedLibs (recordedJobs false false) recordedStore result.1 agg.name ∧
          job.find (lit "inputDrvs") = none ∧
          ∀ value, job.find (lit "drvPath") = some value → value ∉ neededBuildsOf job) := by
  intro result job
  have hresult : recordedResult false false = some result := (Option.some_get _).symm
  have hpath : (printedPath result.2).any (fun path =>
      decide (path ≠ addressedLibs.printStorePath (recordedPath "release"))) = true := by
    decide +kernel
  have hrelease : (result.1.any fun agg => agg.name = lit "release") = true := by decide +kernel
  clear_value result
  obtain ⟨hresolve, hrewrite⟩ := rewriteResult_eq_some hresult
  obtain ⟨agg, hagg, hname⟩ := List.any_eq_true.mp hrelease
  obtain ⟨hlocated, hlists⟩ := recordedJobs_located false false
  obtain ⟨json, hprinted, hmoved⟩ := recordedResult_moved (r := result.2) hpath
  rw [← of_decide_eq_true hname] at hprinted hlocated
  exact ⟨agg, hagg, json, hprinted, hmoved,
    rewriteAggregates_describes_iff addressedLibs_laws addressedLibs_registerLaws
      (recordedStore_settled false false) hresolve hrewrite hagg hlocated hlists hprinted hmoved⟩

end Aggregates

end NixEvalJobs
