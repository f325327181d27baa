import NixEvalJobs.Constituents.Addressing
import NixEvalJobs.Constituents.Recording
import NixEvalJobs.Constituents.Success

/-!
# Aggregates — every job is printed once

A job is printed when it is recorded, or with the aggregates afterwards. Two tests decide
which: the typed response in `emitResponse`, the JSON in `resolveNamedConstituents`. They
agree, and whatever the graph of the aggregates looks like, `handleConstituents` prints
all of them.

* `handleConstituents_printsOnce` — one line for every recorded job or error.
-/

namespace NixEvalJobs

namespace Response

variable {X : StorePaths}

/-- The object of a job has no `error`. -/
theorem get_error_job {response : Response} {drv : Drv} {extraValue : Option Json}
    (hp : response.payload = .job drv extraValue) :
    (response.toFields X).get (lit "error") = none := by
  have hdrv : (drv.toFields X).get (lit "error") = none := drv.get_toFields_eq_none (by decide)
  rw [toFields, hp]
  simp (disch := decide) only [Fields.get_setOpt_ne, Fields.get_update, hdrv,
    Fields.get_set_ne, Fields.get_nil, Option.or_none]

/-- The object of an error has no `globConstituents`. -/
theorem get_globConstituents_error {response : Response} {error : Str} {fatal : Bool}
    (hp : response.payload = .error error fatal) :
    (response.toFields X).get (lit "globConstituents") = none := by
  rw [toFields, hp]
  simp (disch := decide) only [Fields.get_setOpt_ne, Fields.get_set_ne, Fields.get_nil]

end Response

namespace Aggregates

variable {X : StorePaths} {L : AggregateLibs} {store : DrvStore} {emissions : List Emission}

/-! ## Recorded values -/

/-- The derivation that the value names can be read from the store. -/
def StoreHolds (L : AggregateLibs) (store : DrvStore) (json : Json) : Prop :=
  ∀ drvPathS, json.find (lit "drvPath") = some (.string drvPathS) →
    ∃ drvPath drv, L.parseStorePath drvPathS = some drvPath ∧ store[drvPath]? = some drv ∧
      Instantiated drv

/-- The value of a response has its name. -/
theorem find_attr (response : Response) :
    (response.toJson X).find (lit "attr") = some (.string response.attr) :=
  (Response.headerWrittenIn_toFields response).attr

/-- A field that is a boolean or missing has a boolean value. -/
theorem boolValue_of_find {job : Json} {key : Str} {b : Bool} (hobject : job.IsObject)
    (h : job.find key = some (.bool b) ∨ job.find key = none) :
    ∃ b, job.boolValue key = .ok b := by
  obtain ⟨fields, rfl⟩ := hobject
  unfold Json.boolValue
  dsimp only
  rcases h with h | h
  · rw [show Fields.get fields key = some (.bool b) from h]
    exact ⟨b, rfl⟩
  · rw [show Fields.get fields key = none from h]
    exact ⟨false, rfl⟩

/-- The value of a job or an error can be resolved. -/
theorem resolvable_toJson {response : Response} (hkind : ∀ attrs, response.payload ≠ .attrs attrs)
    (hutf8 : (response.toJson X).All Utf8) : Resolvable response.attr (response.toJson X) := by
  have hobject : (response.toJson X).IsObject := ⟨_, rfl⟩
  refine ⟨Json.all_string.mp (hutf8.find (find_attr response)).2, hobject, hutf8, ?_, ?_, ?_⟩
  · -- a job writes the flag, and an error has the default
    match hp : response.payload with
    | .job drv extraValue =>
      exact boolValue_of_find hobject
        (.inl (Response.writtenIn_toFields_job hp).constituents.globConstituents)
    | .error text fatal =>
      exact boolValue_of_find (b := false) hobject (.inr (Response.get_globConstituents_error hp))
    | .attrs names => exact absurd hp (hkind names)
  · intro value hvalue
    -- only jobs have named constituents, and these are texts
    rw [namedConstituents_toJson hkind] at hvalue
    match hp : response.payload with
    | .job drv extraValue =>
      rw [hp] at hvalue
      obtain ⟨name, -, rfl⟩ := List.mem_map.mp hvalue
      exact ⟨name, rfl⟩
    | .error _ _ | .attrs _ =>
      rw [hp] at hvalue
      exact absurd hvalue List.not_mem_nil
  · intro value hfind
    -- only errors have an error
    rw [find_toJson] at hfind
    match hp : response.payload with
    | .job drv extraValue =>
      rw [Response.get_error_job hp] at hfind
      cases hfind
    | .error text fatal =>
      rw [(Response.get_error hp).2.1] at hfind
      exact ⟨text, (Option.some.inj hfind).symm⟩
    | .attrs names => exact absurd hp (hkind names)

/-- The value of a job can be patched. -/
theorem patchable_toJson {response : Response} {drv : Drv} {extraValue : Option Json}
    (hp : response.payload = .job drv extraValue) (hutf8 : (response.toJson X).All Utf8) :
    Patchable (response.toJson X) := by
  have hw := Response.writtenIn_toFields_job (X := X) hp
  refine ⟨⟨_, rfl⟩, hutf8, ?_, ?_⟩
  · rw [find_toJson, hw.constituents.constituents]
    exact .inr ⟨_, rfl⟩
  · rw [find_toJson, hw.outputs, Option.getD_some, Drv.outputsJson]
    -- a map without outputs is written as `null`
    cases Fields.ofMap id (drv.outputJson X) drv.outputs with
    | nil => exact .inl rfl
    | cons e rest => exact .inr ⟨e :: rest, rfl⟩

/-! ## The recorded map -/

/-- What is in the map under a name: the value of a job or an error with this name. -/
theorem emitAll_sent (hlaws : StoreSucceeds L store) (hvalid : ∀ e ∈ emissions, e.Valid X L.dump)
    (hdistinct : (emissions.map fun e => e.response.attr).Nodup)
    (hstore : ∀ e ∈ emissions, StoreHolds L store e.json) {name : Str} {json : Json}
    (h : (emitAll emissions).jobs[name]? = some json) :
    ∃ sent : Response, json = sent.toJson X ∧ sent.attr = name ∧
      (∀ attrs, sent.payload ≠ .attrs attrs) ∧ json.All Utf8 ∧ StoreHolds L store json := by
  obtain ⟨e, he, hattr, rfl⟩ := (emitAll_entry hdistinct).mp h
  obtain ⟨sent, hjson, hsent, -, hkind⟩ := (hvalid e he).sent
  -- what was printed can be dumped, so its texts are UTF-8
  refine ⟨sent, hjson, hsent.trans hattr, hkind, (hlaws.dump e.json).mp ?_, hstore e he⟩
  rw [(hvalid e he).dumped]
  rfl

/-- What is in the map can be resolved under its name. -/
theorem emitAll_resolvable (hlaws : StoreSucceeds L store)
    (hvalid : ∀ e ∈ emissions, e.Valid X L.dump)
    (hdistinct : (emissions.map fun e => e.response.attr).Nodup)
    (hstore : ∀ e ∈ emissions, StoreHolds L store e.json) {name : Str} {json : Json}
    (h : (emitAll emissions).jobs[name]? = some json) : Resolvable name json := by
  obtain ⟨sent, rfl, rfl, hkind, hutf8, -⟩ := emitAll_sent hlaws hvalid hdistinct hstore h
  exact resolvable_toJson hkind hutf8

/-- A job without an error, or one that names constituents, is ready. -/
theorem emitAll_ready (hlaws : StoreSucceeds L store) (hvalid : ∀ e ∈ emissions, e.Valid X L.dump)
    (hdistinct : (emissions.map fun e => e.response.attr).Nodup)
    (hstore : ∀ e ∈ emissions, StoreHolds L store e.json) {name : Str}
    (h : GoodJob (emitAll emissions).jobs name ∨ IsAggregate (emitAll emissions).jobs name) :
    Ready L { jobs := (emitAll emissions).jobs, store } name := by
  obtain ⟨json, hentry, hjob⟩ : ∃ json, (emitAll emissions).jobs[name]? = some json ∧
      (json.find (lit "error") = none ∨ namedConstituents json ≠ []) := by
    rcases h with ⟨json, hentry, hgood⟩ | ⟨json, hentry, hnamed⟩
    · exact ⟨json, hentry, .inl hgood⟩
    · exact ⟨json, hentry, .inr hnamed⟩
  obtain ⟨sent, rfl, -, hkind, hutf8, hholds⟩ := emitAll_sent hlaws hvalid hdistinct hstore hentry
  match hp : sent.payload with
  | .job drv extraValue =>
    have hfind := (Response.writtenIn_toFields_job (X := X) hp).drvPath
    obtain ⟨drvPath, drv', hparse, hread, hdrv⟩ := hholds _ hfind
    exact ⟨_, drvPath, drv', ⟨hentry, ⟨_, hfind, hparse⟩, hread⟩, patchable_toJson hp hutf8, hdrv⟩
  | .error text fatal =>
    -- it has an error, and names no constituents
    rcases hjob with hgood | hnamed
    · rw [find_toJson, (Response.get_error hp).2.1] at hgood
      cases hgood
    · rw [namedConstituents_toJson hkind, hp] at hnamed
      exact absurd rfl hnamed
  | .attrs names => exact absurd hp (hkind names)

/-! ## Handling succeeds -/

/-- The message of a cycle can be dumped if the two names can. -/
theorem utf8_cycle_message {cycle : DependencyCycle} (ha : Utf8 cycle.a) (hb : Utf8 cycle.b) :
    Utf8 cycle.message :=
  (((utf8_lit (by decide)).append ha).append (utf8_lit (by decide))).append hb

/-- **`handleConstituents` succeeds** on what was recorded. -/
theorem handleConstituents_ok (hlaws : StoreSucceeds L store)
    (hvalid : ∀ e ∈ emissions, e.Valid X L.dump)
    (hdistinct : (emissions.map fun e => e.response.attr).Nodup)
    (hstore : ∀ e ∈ emissions, StoreHolds L store e.json) :
    ∃ r, handleConstituents L (emitAll emissions).jobs store = .ok r := by
  have hjobs : ∀ (name : Str) job, (emitAll emissions).jobs[name]? = some job →
      Resolvable name job :=
    fun name job h => emitAll_resolvable hlaws hvalid hdistinct hstore h
  obtain ⟨items, hitems, hutf8, ⟨sorted, hsort, hresolve⟩ | ⟨cycle, hcycle, hresolve⟩⟩ :=
    resolveNamedConstituents_ok (L := L) hjobs
  · -- the aggregates are sorted, and all that they need is there
    obtain ⟨hdescribes, -, -⟩ := resolveNamedConstituents_spec hresolve
    have hready : ∀ agg ∈ sorted, Ready L { jobs := (emitAll emissions).jobs, store } agg.name ∧
        ∀ name ∈ agg.dependencies, Ready L { jobs := (emitAll emissions).jobs, store } name := by
      intro agg hagg
      have hdescribed := hdescribes agg hagg
      -- an aggregate names constituents, and only good jobs are its dependencies
      refine ⟨emitAll_ready hlaws hvalid hdistinct hstore (.inr hdescribed.isAggregate),
        fun name hname => emitAll_ready hlaws hvalid hdistinct hstore (.inl ?_)⟩
      obtain ⟨glob, child, -, -, hgood⟩ := (hdescribed.dependencies name).mp hname
      exact hgood
    have hbroken : ∀ agg ∈ sorted, Utf8Texts agg.brokenJobs := by
      intro agg hagg
      obtain ⟨name, hget⟩ := (mem_topoSort hsort agg).mp hagg
      exact hutf8 name agg hget
    obtain ⟨r, hrun⟩ := rewriteAggregates_ok hlaws hready hbroken
    exact ⟨r, bind_eq_ok.mpr ⟨_, hresolve, hrun⟩⟩
  · -- the jobs of the cycle and the remaining ones are recorded aggregates
    have hnamed : ∀ name ∈ items, IsAggregate (emitAll emissions).jobs name :=
      fun name hname => (mem_collectAggregates hitems name).mp hname
    have hresolvable : ∀ name, IsAggregate (emitAll emissions).jobs name →
        Resolvable name (entryOf (emitAll emissions).jobs name) := by
      rintro name ⟨job, hentry, -⟩
      rw [entryOf_of_getElem? hentry]
      exact hjobs name job hentry
    have ha := hnamed cycle.a hcycle.a_mem
    have hb := hnamed cycle.b hcycle.b_mem
    have hprintable : Printable (IsAggregate (emitAll emissions).jobs)
        { jobs := (emitAll emissions).jobs, store } :=
      fun name hname => ⟨(hresolvable name hname).object, (hresolvable name hname).utf8⟩
    obtain ⟨r, hrun⟩ := printCycle_ok hlaws hprintable ha hb
      (fun name hname => hnamed name ((hcycle.remaining name).mp hname).1)
      (utf8_cycle_message (hresolvable _ ha).name (hresolvable _ hb).name)
    exact ⟨r, bind_eq_ok.mpr ⟨_, hresolve, hrun⟩⟩

/-! ## Lines -/

/-- The line is the text of a value of the job `attr`. -/
def LineOf (dump : Json → Option Str) (line attr : Str) : Prop :=
  ∃ json, dump json = some line ∧ json.find (lit "attr") = some (.string attr)

/-- The lines of recorded responses are those of their jobs. -/
theorem emitAll_lines {dump : Json → Option Str} (hvalid : ∀ e ∈ emissions, e.Valid X dump) :
    List.Forall₂ (LineOf dump) (emitAll emissions).stdout
      ((emissions.filter fun e => !e.response.hasPendingConstituents).map
        fun e => e.response.attr) := by
  -- line by line, as both lists filter the same results
  rw [emitAll_stdout, List.forall₂_map_left_iff, List.forall₂_map_right_iff, List.forall₂_same]
  intro e he
  have hemission := hvalid e (List.mem_of_mem_filter he)
  obtain ⟨sent, hjson, hattr, -⟩ := hemission.sent
  refine ⟨e.json, hemission.dumped, ?_⟩
  rw [hjson, find_attr, hattr]

/-- The lines of printed values are those of their jobs. -/
theorem prints_lines {jobs : JobMap} {names : List Str} {r : Rewriting}
    (h : Prints L jobs names r)
    (hattr : ∀ name ∈ names, (entryOf jobs name).find (lit "attr") = some (.string name)) :
    List.Forall₂ (LineOf L.dump) (r.stdout L) names := by
  obtain ⟨rfl, hshows, -⟩ := h
  have hlines : ∀ printed : List (Str × Json),
      (∀ line ∈ printed, Shows L jobs line.1 line.2 ∧
        (entryOf jobs line.1).find (lit "attr") = some (.string line.1)) →
      List.Forall₂ (LineOf L.dump) (printed.filterMap fun line => L.dump line.2)
        (printed.map Prod.fst) := by
    intro printed
    -- along the printed values, of which each has its line
    induction printed with
    | nil => exact fun _ => .nil
    | cons line printed ih =>
      intro hall
      obtain ⟨⟨hshown, hname⟩, hrest⟩ := List.forall_mem_cons.mp hall
      obtain ⟨text, htext⟩ := Option.isSome_iff_exists.mp hshown.dumped
      rw [List.filterMap_cons, htext]
      exact .cons ⟨line.2, htext, hshown.attr.trans hname⟩ (ih hrest)
  exact hlines r.printed fun line hline =>
    ⟨hshows line hline, hattr line.1 (List.mem_map_of_mem hline)⟩

/-- What handling prints completes what recording has printed. -/
theorem handled_lines (hlaws : StoreSucceeds L store)
    (hvalid : ∀ e ∈ emissions, e.Valid X L.dump)
    (hdistinct : (emissions.map fun e => e.response.attr).Nodup)
    (hstore : ∀ e ∈ emissions, StoreHolds L store e.json) {r : Rewriting}
    (hrun : handleConstituents L (emitAll emissions).jobs store = .ok r) :
    ∃ attrs, attrs.Perm (emissions.map fun e => e.response.attr) ∧
      List.Forall₂ (LineOf L.dump) ((emitAll emissions).stdout ++ r.stdout L) attrs := by
  obtain ⟨names, hprints, hnodup, hmem⟩ := handleConstituents_printed hrun
  refine ⟨(emissions.filter fun e => !e.response.hasPendingConstituents).map
    (fun e => e.response.attr) ++ names, ?_, List.rel_append (emitAll_lines hvalid)
    (prints_lines hprints fun name hname => ?_)⟩
  · -- what handling prints are the jobs that recording has not
    have hpending : names.Perm
        ((emissions.filter fun e => e.response.hasPendingConstituents).map
          fun e => e.response.attr) := by
      refine (List.perm_ext_iff_of_nodup hnodup ?_).mpr fun name => ?_
      · exact hdistinct.sublist (List.filter_sublist.map _)
      · rw [hmem, isAggregate_emitAll hvalid hdistinct, List.mem_map]
        simp only [List.mem_filter]
        exact exists_congr fun e => by tauto
    refine (hpending.append_left _).trans ?_
    -- those that wait and those that do not are all of them
    rw [← List.map_append]
    exact ((List.perm_append_comm).trans (List.filter_append_perm _ emissions)).map _
  · obtain ⟨json, hentry, -⟩ := (hmem name).mp hname
    obtain ⟨sent, rfl, rfl, -⟩ := emitAll_sent hlaws hvalid hdistinct hstore hentry
    rw [entryOf_of_getElem? hentry]
    exact find_attr sent

/-- **Every job is printed exactly once.** The lines of recording and of handling
together are one for every recorded job or error. -/
theorem handleConstituents_printsOnce (hlaws : StoreSucceeds L store)
    (hvalid : ∀ e ∈ emissions, e.Valid X L.dump)
    (hdistinct : (emissions.map fun e => e.response.attr).Nodup)
    (hstore : ∀ e ∈ emissions, StoreHolds L store e.json) :
    ∃ r, handleConstituents L (emitAll emissions).jobs store = .ok r ∧
      ∃ attrs, attrs.Perm (emissions.map fun e => e.response.attr) ∧
        List.Forall₂ (LineOf L.dump) ((emitAll emissions).stdout ++ r.stdout L) attrs := by
  obtain ⟨r, hrun⟩ := handleConstituents_ok hlaws hvalid hdistinct hstore
  exact ⟨r, hrun, handled_lines hlaws hvalid hdistinct hstore hrun⟩

/-! ## Two aggregates, sorted or in a cycle -/

/-- A store below `/nix/store` whose paths are those of the contents, for texts that are
UTF-8. -/
def contentLibs : AggregateLibs where
  fnmatch pattern name := pattern = name
  printStorePath path := lit "/nix/store/" ++ path
  parseStorePath path :=
    if (lit "/nix/store/").isPrefixOf path ∧ Utf8 path then
      some (path.drop (lit "/nix/store/").length)
    else none
  dump := Json.plainDump
  fillInOutputPaths _ drv := some { drv with
    outputs := drv.outputs.map fun _ _ => .inputAddressed (demoDrvPath "output")
    env := drv.outputs.keys.foldl
      (fun env name => env.insert name (lit "/nix/store/" ++ demoDrvPath "output")) drv.env }
  writeDerivation := writeAddressed
  traverse brokenJobs := brokenJobs.toList

/-- The prefix of all paths is UTF-8. -/
theorem utf8_storeDir : Utf8 (lit "/nix/store/") := utf8_lit (by decide)

/-- A path that is printed is read back. -/
theorem contentLibs_parse_print {path : StorePath} (h : Utf8 path) :
    contentLibs.parseStorePath (contentLibs.printStorePath path) = some path := by
  show (if (lit "/nix/store/").isPrefixOf (lit "/nix/store/" ++ path) ∧
    Utf8 (lit "/nix/store/" ++ path) then
      some ((lit "/nix/store/" ++ path).drop (lit "/nix/store/").length) else none) = some path
  rw [if_pos ⟨List.isPrefixOf_iff_prefix.mpr (List.prefix_append _ _), utf8_storeDir.append h⟩,
    List.drop_left]

/-- An address is written in ASCII. -/
theorem utf8_addressOf (drv : Derivation) : Utf8 (addressOf drv) := .of_ascii (base16_ascii _)

/-- What is made of an addressed store by writing is addressed. -/
theorem Grown.addressed {store store' : DrvStore} (haddressed : Addressed store)
    (h : Grown contentLibs store store') : Addressed store' := by
  induction h with
  | start => exact haddressed
  | write _ hwrite ih => exact ih.write hwrite

/-- **Nothing is refused.** In a store that is addressed at first, another derivation is
never in the way. -/
theorem contentLibs_succeeds {store : DrvStore} (haddressed : Addressed store) :
    StoreSucceeds contentLibs store where
  dump := Json.plainDump_isSome
  traverse brokenJobs e he := Std.ExtTreeMap.mem_toList_iff_getElem?_eq_some.mp he
  parse s path h := by
    unfold contentLibs at h ⊢
    dsimp only at h ⊢
    split at h
    · next hs =>
      obtain ⟨rest, rfl⟩ := List.isPrefixOf_iff_prefix.mp hs.1
      obtain rfl := Option.some.inj h
      rw [List.drop_left]
      exact hs.2
    · cases h
  fill _ drv h := by
    refine ⟨_, rfl, ?_, fun name hname => ?_⟩
    · dsimp only
      rw [Std.ExtTreeMap.keys_map]
      exact h.outputs
    · have hold : name ∈ drv.outputs := Std.ExtTreeMap.mem_map.mp hname
      -- every output gets a path, in the outputs and in the environment
      have hkeys : (drv.outputs.keys.map fun name => name).Nodup := by
        rw [List.map_id']
        exact Std.ExtTreeMap.nodup_keys
      refine ⟨(h.env name hold).1, lit "/nix/store/" ++ demoDrvPath "output", ?_,
        utf8_storeDir.append (utf8_lit (by decide))⟩
      exact (StdMap.getElem?_foldl_insert hkeys drv.env name _).mpr
        (.inl ⟨name, Std.ExtTreeMap.mem_keys.mpr hold, rfl, rfl⟩)
  -- an address that is taken already has the same contents
  write hgrown drv _ := by
    obtain ⟨store'', hwrite⟩ := (hgrown.addressed haddressed).writes drv
    obtain ⟨-, hread, hextends, -⟩ := writeAddressed_spec hwrite
    exact ⟨_, store'', hwrite, hread, hextends, contentLibs_parse_print (utf8_addressOf drv)⟩

/-- The derivation of a job as it is instantiated: its environment has its output. -/
def instantiatedDrv (name : String) : Derivation where
  outputs := (∅ : StdMap Str DerivationOutput).insert (lit "out") .deferred
  env := ((∅ : StdMap Str Str).insert (lit "name") (lit name)).insert (lit "out") []

/-- The path of that derivation. -/
def instantiatedPath (name : String) : StorePath := addressOf (instantiatedDrv name)

/-- The derivations of three jobs. -/
def instantiatedStore : DrvStore :=
  ["all", "part", "package"].foldl
    (fun store name => store.insert (instantiatedPath name) (instantiatedDrv name)) ∅

/-- The store has these three and nothing else. -/
theorem instantiatedStore_getElem? {path : StorePath} {drv : Derivation} :
    instantiatedStore[path]? = some drv ↔
      ∃ name ∈ ["all", "part", "package"], instantiatedPath name = path ∧
        instantiatedDrv name = drv := by
  have hpaths : (["all", "part", "package"].map instantiatedPath).Nodup := by decide +kernel
  refine (StdMap.getElem?_foldl_insert hpaths ∅ path drv).trans (or_iff_left ?_)
  -- nothing comes from the empty store
  rintro ⟨-, hread⟩
  rw [Std.ExtTreeMap.getElem?_empty] at hread
  cases hread

/-- Each of them is at its own address. -/
theorem instantiatedStore_addressed : Addressed instantiatedStore := by
  intro path drv hread
  obtain ⟨name, -, rfl, rfl⟩ := instantiatedStore_getElem?.mp hread
  rfl

/-- The response of a job that names the given constituents. -/
def jobResponse (name : String) (constituents : List String) : Response where
  attr := lit name
  attrPath := [lit name]
  payload := .job
    { name := lit name, storeDir := lit "/nix/store", system := lit "x86_64-linux"
      drvPath := instantiatedPath name, outputs := ∅
      constituents := { namedConstituents := constituents.map lit } } none

/-- The response is recorded with its own JSON. -/
def emissionOf (response : Response) : Emission where
  response
  json := response.toJson StorePaths.plain
  dumped := ((response.toJson StorePaths.plain).plainDump).getD []

/-- `all` names `part`, `part` names one more job, and there is an error. -/
def nestedEmissions (constituent : String) : List Emission :=
  [jobResponse "package" [], jobResponse "all" ["part"], jobResponse "part" [constituent],
    Scheduler.errorResponse [lit "missing"] (lit "evaluation failed")].map emissionOf

/-- The results are printed as they are. -/
theorem nestedEmissions_valid {constituent : String}
    (hdumped : (nestedEmissions constituent).all (fun e => e.json.plainDump.isSome) = true) :
    ∀ e ∈ nestedEmissions constituent, e.Valid StorePaths.plain contentLibs.dump := by
  intro e he
  obtain ⟨text, htext⟩ := Option.isSome_iff_exists.mp (List.all_eq_true.mp hdumped e he)
  obtain ⟨response, hresponse, rfl⟩ := List.mem_map.mp he
  refine ⟨fun attrs hattrs => ?_, .inl rfl, ?_⟩
  · simp only [List.mem_cons, List.not_mem_nil, or_false] at hresponse
    rcases hresponse with rfl | rfl | rfl | rfl <;> cases hattrs
  · show (response.toJson StorePaths.plain).plainDump =
      some (((response.toJson StorePaths.plain).plainDump).getD [])
    rw [show (response.toJson StorePaths.plain).plainDump = some text from htext]
    rfl

/-- The output of the job is in its environment. -/
theorem instantiatedDrv_instantiated (name : String) : Instantiated (instantiatedDrv name) := by
  refine ⟨fun hempty => ?_, fun output houtput => ?_⟩
  · have hmem : lit "out" ∈ (instantiatedDrv name).outputs.keys :=
      Std.ExtTreeMap.mem_keys.mpr Std.ExtTreeMap.mem_insert_self
    rw [hempty] at hmem
    exact List.not_mem_nil hmem
  · obtain rfl := (mem_insert_key.mp houtput).resolve_left Std.ExtTreeMap.not_mem_empty
    exact ⟨utf8_lit (by decide), [], Std.ExtTreeMap.getElem?_insert_self, .nil⟩

/-- The derivation of a response is in the store. -/
theorem jobResponse_storeHolds {name : String} (constituents : List String)
    (hname : name ∈ ["all", "part", "package"]) :
    StoreHolds contentLibs instantiatedStore
      ((jobResponse name constituents).toJson StorePaths.plain) := by
  intro drvPathS hfind
  have hw := @Response.writtenIn_toFields_job StorePaths.plain (jobResponse name constituents)
    _ _ rfl
  obtain rfl := Json.string.inj (Option.some.inj (hw.drvPath.symm.trans hfind))
  exact ⟨instantiatedPath name, instantiatedDrv name, contentLibs_parse_print (utf8_addressOf _),
    instantiatedStore_getElem?.mpr ⟨name, hname, rfl, rfl⟩, instantiatedDrv_instantiated name⟩

/-- The derivations of all results are in the store. -/
theorem nestedEmissions_storeHolds (constituent : String) :
    ∀ e ∈ nestedEmissions constituent, StoreHolds contentLibs instantiatedStore e.json := by
  intro e he
  obtain ⟨response, hresponse, rfl⟩ := List.mem_map.mp he
  simp only [List.mem_cons, List.not_mem_nil, or_false] at hresponse
  rcases hresponse with rfl | rfl | rfl | rfl
  · exact jobResponse_storeHolds _ (by decide)
  · exact jobResponse_storeHolds _ (by decide)
  · exact jobResponse_storeHolds _ (by decide)
  · -- an error has no derivation
    intro drvPathS hfind
    have hnone : (((Scheduler.errorResponse [lit "missing"] (lit "evaluation failed")).toJson
        StorePaths.plain).find (lit "drvPath")).isNone = true := by
      decide +kernel
    rw [show ((Scheduler.errorResponse [lit "missing"] (lit "evaluation failed")).toJson
      StorePaths.plain).find (lit "drvPath") = some (.string drvPathS) from hfind] at hnone
    cases hnone

/-- With `package` the aggregates are sorted, with `all` they are in a cycle. -/
theorem handleConstituents_printsOnce_nested :
    (∃ r, handleConstituents contentLibs (emitAll (nestedEmissions "package")).jobs
        instantiatedStore = .ok r ∧
      ∃ attrs, attrs.Perm [lit "package", lit "all", lit "part", lit "missing"] ∧
        List.Forall₂ (LineOf contentLibs.dump)
          ((emitAll (nestedEmissions "package")).stdout ++ r.stdout contentLibs) attrs) ∧
    ∃ r, handleConstituents contentLibs (emitAll (nestedEmissions "all")).jobs
        instantiatedStore = .ok r ∧
      ∃ attrs, attrs.Perm [lit "package", lit "all", lit "part", lit "missing"] ∧
        List.Forall₂ (LineOf contentLibs.dump)
          ((emitAll (nestedEmissions "all")).stdout ++ r.stdout contentLibs) attrs :=
  ⟨handleConstituents_printsOnce (contentLibs_succeeds instantiatedStore_addressed)
      (nestedEmissions_valid (by decide +kernel)) (by decide +kernel)
      (nestedEmissions_storeHolds _),
    handleConstituents_printsOnce (contentLibs_succeeds instantiatedStore_addressed)
      (nestedEmissions_valid (by decide +kernel)) (by decide +kernel)
      (nestedEmissions_storeHolds _)⟩

end Aggregates

end NixEvalJobs
