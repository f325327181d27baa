import NixEvalJobs.Constituents.Handling
import NixEvalJobs.Constituents.Links
import NixEvalJobs.ResponseTexts

/-!
# Aggregates — handling succeeds

When the store operations succeed, nothing in `handleConstituents` throws: the members
that are assigned are those of objects, what is pushed to is an array, every job that is
looked up is there, and every string that is printed is UTF-8.

* `collectAggregates_ok` — resolution succeeds.
* `rewriteAggregates_ok` — rewriting succeeds.
* `printCycle_ok` — so does printing a cycle.
-/

namespace NixEvalJobs

/-! ## Values that can be patched -/

variable {P : Str → Prop}

/-- An object by its members. -/
theorem Fields.all_iff {fields : Fields} :
    fields.All P ↔ ∀ e ∈ fields, P e.1 ∧ e.2.All P := by
  induction fields with
  | nil => exact ⟨fun _ _ he => absurd he List.not_mem_nil, fun _ => Fields.all_nil⟩
  | cons e rest ih => rw [Fields.all_cons, ih, List.forall_mem_cons, and_assoc]

/-- Erasing a member leaves the others. -/
theorem Fields.All.erase {fields : Fields} (h : fields.All P) (key : Str) :
    (fields.erase key).All P := by
  rw [Fields.all_iff] at h ⊢
  exact fun e he => h e (List.mem_of_mem_filter he)

namespace Json

/-- The value is an object. -/
def IsObject (json : Json) : Prop := ∃ fields, json = .object fields

/-- A member of the value can be assigned. -/
def CanAssign (json : Json) : Prop := json = .null ∨ json.IsObject

/-- The value can be pushed to. -/
def CanPush (json : Json) : Prop := json = .null ∨ ∃ elems, json = .array elems

/-- Assignment to a member succeeds and gives an object. -/
theorem CanAssign.assign {json : Json} (h : json.CanAssign) (key : Str) (value : Json) :
    ∃ json', json.assign key value = .ok json' ∧ json'.IsObject := by
  rcases h with rfl | ⟨fields, rfl⟩
  · exact ⟨_, rfl, _, rfl⟩
  · exact ⟨_, rfl, _, rfl⟩

/-- So does reading a member, which is `null` when it is not there. -/
theorem CanAssign.member {json : Json} (h : json.CanAssign) (key : Str) :
    json.member key = .ok ((json.find key).getD .null) := by
  rcases h with rfl | ⟨fields, rfl⟩
  · rfl
  · rfl

/-- `push_back` on `null` makes an array. -/
theorem CanPush.pushBack {json : Json} (h : json.CanPush) (value : Json) :
    json.pushBack value = .ok (.array (json.elements ++ [value])) := by
  rcases h with rfl | ⟨elems, rfl⟩
  · rfl
  · rfl

/-- Erasing a key succeeds on objects. -/
theorem IsObject.eraseKey {json : Json} (h : json.IsObject) (key : Str) :
    ∃ json', json.eraseKey key = .ok json' ∧ json'.IsObject := by
  obtain ⟨fields, rfl⟩ := h
  exact ⟨_, rfl, _, rfl⟩

/-- The strings of an array are those of its elements. -/
theorem all_array {elems : List Json} : (Json.array elems).All P ↔ ∀ v ∈ elems, v.All P := by
  have h := all_array_map (P := P) (f := id) (l := elems)
  rwa [List.map_id] at h

/-- What is found in a good value is good. -/
theorem All.find {json value : Json} {key : Str} (h : json.All P)
    (hfind : json.find key = some value) : P key ∧ value.All P := by
  match json with
  | .object fields => exact Fields.All.get h hfind
  | .null | .bool _ | .unsigned _ | .integer _ | .float _ | .string _ | .array _ =>
    cases hfind

/-- A missing member reads as `null`, which has no strings. -/
theorem All.member {json : Json} (h : json.All P) (key : Str) :
    ((json.find key).getD .null).All P := by
  match hfind : json.find key with
  | none => exact all_null
  | some value => exact (h.find hfind).2

/-- Iteration over a value of any kind visits parts of it. -/
theorem All.elements {json : Json} (h : json.All P) : ∀ value ∈ json.elements, value.All P := by
  match json with
  -- a container yields its elements or the values of its members, anything else itself
  | .array elems => exact all_array.mp h
  | .object fields =>
    intro value hvalue
    obtain ⟨e, hmem, rfl⟩ := List.mem_map.mp hvalue
    exact (Fields.all_iff.mp h e hmem).2
  | .null => exact fun _ hv => absurd hv List.not_mem_nil
  | .bool _ | .unsigned _ | .integer _ | .float _ | .string _ =>
    intro value hvalue
    obtain rfl := List.mem_singleton.mp hvalue
    exact h

/-- Assignment of a good value keeps a value good. -/
theorem All.assign {json json' value : Json} {key : Str} (h : json.All P) (hkey : P key)
    (hvalue : value.All P) (hok : json.assign key value = .ok json') : json'.All P := by
  match json with
  | .object fields =>
    obtain rfl := Except.ok.inj hok
    exact Fields.All.set h hkey hvalue
  | .null =>
    obtain rfl := Except.ok.inj hok
    exact Fields.All.set Fields.all_nil hkey hvalue
  | .bool _ | .unsigned _ | .integer _ | .float _ | .string _ | .array _ => cases hok

/-- And so does erasing a key. -/
theorem All.eraseKey {json json' : Json} {key : Str} (h : json.All P)
    (hok : json.eraseKey key = .ok json') : json'.All P := by
  match json with
  | .object fields =>
    obtain rfl := Except.ok.inj hok
    exact Fields.All.erase h key
  | .null | .bool _ | .unsigned _ | .integer _ | .float _ | .string _ | .array _ =>
    cases hok

end Json

namespace Aggregates

variable {L : AggregateLibs} {jobs : JobMap} {store : DrvStore}

/-! ## The store operations -/

/-- A derivation as the evaluator makes it: it has an output, and the environment has
every output. -/
structure Instantiated (drv : Derivation) : Prop where
  outputs : drv.outputs.keys ≠ []
  env : ∀ name ∈ drv.outputs, Utf8 name ∧ ∃ text, drv.env[name]? = some text ∧ Utf8 text

/-- The stores that occur: the one at first, and what writing derivations makes of it. -/
inductive Grown (L : AggregateLibs) (store : DrvStore) : DrvStore → Prop where
  | start : Grown L store store
  | write {store' store'' : DrvStore} {drv : Derivation} {path : StorePath} :
      Grown L store store' → L.writeDerivation store' drv = some (path, store'') →
      Grown L store store''

/-- The store operations succeed on derivations as the evaluator makes them, and what is
at a path stays there: in `store` and in what is made of it by writing. `dump` throws on
strings that are not UTF-8 only, and the loop over an unordered map visits its entries. -/
structure StoreSucceeds (L : AggregateLibs) (store : DrvStore) : Prop where
  dump : ∀ json, (L.dump json).isSome = true ↔ json.All Utf8
  traverse : ∀ brokenJobs, ∀ e ∈ L.traverse brokenJobs, brokenJobs[e.1]? = some e.2
  parse : ∀ s path, L.parseStorePath s = some path → Utf8 (L.printStorePath path)
  /-- `resolveCAPaths` and `fillInOutputPaths`, wherever the run has got to. -/
  fill : ∀ {store'}, Grown L store store' → ∀ drv, Instantiated drv →
    ∃ filled, L.fillInOutputPaths store' drv = some filled ∧ Instantiated filled
  /-- `writeDerivation`: afterwards the derivation can be read at its path. -/
  write : ∀ {store'}, Grown L store store' → ∀ drv, Instantiated drv →
    ∃ path store'', L.writeDerivation store' drv = some (path, store'') ∧
      store''[path]? = some drv ∧ Extends store' store'' ∧
      L.parseStorePath (L.printStorePath path) = some path

/-- The JSON of a job can be patched. -/
structure Patchable (job : Json) : Prop where
  object : job.IsObject
  utf8 : job.All Utf8
  constituents : ((job.find (lit "constituents")).getD .null).CanPush
  outputs : ((job.find (lit "outputs")).getD .null).CanAssign

/-- The job is in the map, can be patched, and its derivation can be read. -/
def Ready (L : AggregateLibs) (r : Rewriting) (name : Str) : Prop :=
  ∃ job drvPath drv, Located L r name job drvPath drv ∧ Patchable job ∧ Instantiated drv

/-! ## Adding constituents -/

/-- Reading the derivation of a constituent that is ready succeeds. -/
theorem constituentDrv_ok (hlaws : StoreSucceeds L store) {r : Rewriting} {name : Str}
    (h : Ready L r name) : ∃ path drv, constituentDrv L r.jobs r.store name = .ok (path, drv) ∧
      Instantiated drv ∧ Utf8 (L.printStorePath path) := by
  obtain ⟨job, path, drv, ⟨hentry, ⟨drvPathS, hfind, hparse⟩, hread⟩, -, hdrv⟩ := h
  refine ⟨path, drv, ?_, hdrv, hlaws.parse drvPathS path hparse⟩
  rw [constituentDrv, hentry]
  refine bind_eq_ok.mpr ⟨_, Json.constMember_of_find hfind, bind_eq_ok.mpr ⟨drvPathS, rfl, ?_⟩⟩
  rw [hparse]
  dsimp only
  rw [hread]
  rfl

/-- The outputs and the environment are the same. -/
structure SameOutputs (drv drv' : Derivation) : Prop where
  outputs : drv'.outputs = drv.outputs
  env : drv'.env = drv.env

/-- Adding inputs changes neither the outputs nor the environment. -/
theorem Instantiated.of_sameOutputs {drv drv' : Derivation} (h : Instantiated drv)
    (hsame : SameOutputs drv drv') : Instantiated drv' :=
  ⟨by rw [hsame.outputs]; exact h.outputs, by rw [hsame.outputs, hsame.env]; exact h.env⟩

/-- One turn of the loop in `addConstituents`. -/
theorem addConstituent_ok (hlaws : StoreSucceeds L store) {r : Rewriting} {name : Str} {job : Json}
    {drv : Derivation} (hjob : Patchable job) (hdrv : Instantiated drv) (hname : Ready L r name) :
    ∃ state, addConstituent L r.jobs r.store (job, drv) name = .ok state ∧
      Patchable state.1 ∧ Instantiated state.2 := by
  obtain ⟨path, childDrv, hchild, hinstantiated, hprinted⟩ := constituentDrv_ok hlaws hname
  -- `outputs.begin()` of the constituent is dereferenced: there has to be an output
  obtain ⟨first, hfirst⟩ := Option.ne_none_iff_exists'.mp
    (mt List.head?_eq_none_iff.mp hinstantiated.outputs)
  have hpush := hjob.constituents.pushBack (.string (L.printStorePath path))
  obtain ⟨job', hassign, hobject⟩ := Json.CanAssign.assign (.inr hjob.object) (lit "constituents")
    (.array (((job.find (lit "constituents")).getD .null).elements ++
      [.string (L.printStorePath path)]))
  refine ⟨(job', { drv with
    inputDrvs := drv.inputDrvs.insert path ((∅ : StdSet Str).insert first) }), ?_, ?_, ?_⟩
  · -- the steps of the source one by one
    rw [addConstituent]
    refine bind_eq_ok.mpr ⟨(path, childDrv), hchild, bind_eq_ok.mpr ⟨_,
      Json.CanAssign.member (.inr hjob.object) _, bind_eq_ok.mpr ⟨_, hpush,
      bind_eq_ok.mpr ⟨job', hassign, ?_⟩⟩⟩⟩
    rw [hfirst]
    rfl
  · -- the list is an array now, the other members are as they were
    refine ⟨hobject, hjob.utf8.assign (utf8_lit (by decide)) (Json.all_array.mpr ?_) hassign,
      ?_, ?_⟩
    · intro value hvalue
      rcases List.mem_append.mp hvalue with hvalue | hvalue
      · exact (hjob.utf8.member _).elements value hvalue
      · obtain rfl := List.mem_singleton.mp hvalue
        exact Json.all_string.mpr hprinted
    · rw [Json.find_assign hassign, if_pos rfl]
      exact .inr ⟨_, rfl⟩
    · rw [sameBut_assign hassign _ (by decide)]
      exact hjob.outputs
  · exact hdrv.of_sameOutputs ⟨rfl, rfl⟩

/-- The whole loop: no constituent makes it throw. -/
theorem addConstituents_ok (hlaws : StoreSucceeds L store) {r : Rewriting} {names : StdSet Str}
    {job : Json} {drv : Derivation} (hjob : Patchable job) (hdrv : Instantiated drv)
    (hnames : ∀ name ∈ names, Ready L r name) :
    ∃ job' drv', addConstituents L job drv names r.jobs r.store = .ok (job', drv') ∧
      Patchable job' ∧ Instantiated drv' := by
  have hloop : ∃ state, names.toList.foldlM (addConstituent L r.jobs r.store) (job, drv) =
      .ok state ∧ Patchable state.1 ∧ Instantiated state.2 :=
    foldlM_ok (P := fun state : Json × Derivation => Patchable state.1 ∧ Instantiated state.2)
      (fun {state} name hname hstate => addConstituent_ok hlaws hstate.1 hstate.2
        (hnames name (Std.ExtTreeSet.mem_toList.mp hname))) ⟨hjob, hdrv⟩
  obtain ⟨⟨job', drv'⟩, hadd, hjob', hdrv'⟩ := hloop
  exact ⟨job', drv', hadd, hjob', hdrv'⟩

/-! ## Registering the derivation -/

/-- Resetting an output empties its entry in the environment, which stays there. -/
theorem Instantiated.resetOutput {drv : Derivation} (h : Instantiated drv) {name : Str}
    (hname : Utf8 name) : Instantiated { drv with
      outputs := drv.outputs.insert name .deferred, env := drv.env.insert name [] } := by
  refine ⟨fun hempty => ?_, fun name' hname' => ?_⟩
  · have hmem : name ∈ (drv.outputs.insert name .deferred).keys :=
      Std.ExtTreeMap.mem_keys.mpr Std.ExtTreeMap.mem_insert_self
    rw [hempty] at hmem
    exact List.not_mem_nil hmem
  · by_cases heq : name = name'
    · subst heq
      exact ⟨hname, [], Std.ExtTreeMap.getElem?_insert_self, .nil⟩
    · obtain ⟨hutf8, text, htext, htextUtf8⟩ :=
        h.env name' ((mem_insert_key.mp hname').resolve_right (Ne.symm heq))
      refine ⟨hutf8, text, ?_, htextUtf8⟩
      rw [Std.ExtTreeMap.getElem?_insert, if_neg, htext]
      rw [Std.LawfulEqCmp.compare_eq_iff_eq]
      exact heq

/-- The loop over the outputs that are input-addressed. -/
theorem Instantiated.resetOutputs {drv : Derivation} (h : Instantiated drv) :
    Instantiated (resetOutputs drv) := by
  have hnames : ∀ e ∈ drv.outputs.toList, Utf8 e.1 := by
    intro e he
    exact (h.env e.1 (StdMap.mem_of_mem_toList he)).1
  rw [Aggregates.resetOutputs]
  refine List.foldlRecOn (motive := Instantiated) drv.outputs.toList _ h
    fun drv' hdrv' e he => ?_
  split
  · exact hdrv'.resetOutput (hnames e he)
  · exact hdrv'

/-- One turn of the loop that copies the output paths into the entry. -/
theorem setOutput_ok {env : StdMap Str Str} {job : Json} {name path : Str} (hjob : Patchable job)
    (hname : Utf8 name) (hget : env[name]? = some path) (hpath : Utf8 path) :
    ∃ job', setOutput env job name = .ok job' ∧ Patchable job' := by
  obtain ⟨outputs, houtputs, hobject⟩ := hjob.outputs.assign name (.string path)
  obtain ⟨job', hassign, hjob'⟩ :=
    Json.CanAssign.assign (.inr hjob.object) (lit "outputs") outputs
  refine ⟨job', ?_, hjob', ?_, ?_, ?_⟩
  · rw [setOutput, hget]
    exact bind_eq_ok.mpr ⟨_, Json.CanAssign.member (.inr hjob.object) _,
      bind_eq_ok.mpr ⟨outputs, houtputs, hassign⟩⟩
  · exact hjob.utf8.assign (utf8_lit (by decide))
      ((hjob.utf8.member _).assign hname (Json.all_string.mpr hpath) houtputs) hassign
  · rw [sameBut_assign hassign _ (by decide)]
    exact hjob.constituents
  · rw [Json.find_assign hassign, if_pos rfl]
    exact .inr hobject

/-- The job after registering has a path at which the derivation can be read. -/
theorem rewriteAndRegisterDrv_ok (hlaws : StoreSucceeds L store) {store₁ : DrvStore}
    (hgrown : Grown L store store₁) {job : Json} {drv : Derivation} {drvPath : StorePath}
    (hjob : Patchable job) (hdrv : Instantiated drv)
    (hpath : ∃ drvPathS, job.find (lit "drvPath") = some (.string drvPathS) ∧
      L.parseStorePath drvPathS = some drvPath) :
    ∃ job' store', rewriteAndRegisterDrv L job drv drvPath store₁ = .ok (job', store') ∧
      Patchable job' ∧ Extends store₁ store' ∧ Grown L store store' ∧ ∃ newDrvPath written,
        (∃ drvPathS, job'.find (lit "drvPath") = some (.string drvPathS) ∧
          L.parseStorePath drvPathS = some newDrvPath) ∧
        store'[newDrvPath]? = some written ∧ Instantiated written := by
  obtain ⟨written, hfill, hwritten⟩ := hlaws.fill hgrown _ hdrv.resetOutputs
  obtain ⟨newDrvPath, store', hwrite, hread, hextends, hparse⟩ :=
    hlaws.write hgrown written hwritten
  have hgrown' : Grown L store store' := .write hgrown hwrite
  -- the source returns early when the path did not change
  by_cases hsame : newDrvPath = drvPath
  · refine ⟨job, store', ?_, hjob, hextends, hgrown', newDrvPath, written, hsame ▸ hpath, hread,
      hwritten⟩
    rw [rewriteAndRegisterDrv, hfill]
    dsimp only
    rw [hwrite]
    dsimp only
    rw [if_pos hsame]
    rfl
  · obtain ⟨moved, hassign, hobject⟩ := Json.CanAssign.assign (.inr hjob.object) (lit "drvPath")
      (.string (L.printStorePath newDrvPath))
    have hmoved : Patchable moved := by
      refine ⟨hobject, hjob.utf8.assign (utf8_lit (by decide)) ?_ hassign, ?_, ?_⟩
      · exact Json.all_string.mpr (hlaws.parse _ newDrvPath hparse)
      · rw [sameBut_assign hassign _ (by decide)]
        exact hjob.constituents
      · rw [sameBut_assign hassign _ (by decide)]
        exact hjob.outputs
    -- the environment has every output
    obtain ⟨job', hset, hjob'⟩ : ∃ job', written.outputs.keys.foldlM (setOutput written.env) moved =
        .ok job' ∧ Patchable job' := by
      refine foldlM_ok (fun {job} name hname hjob => ?_) hmoved
      obtain ⟨hutf8, text, hget, htext⟩ := hwritten.env name (Std.ExtTreeMap.mem_keys.mp hname)
      exact setOutput_ok hjob hutf8 hget htext
    refine ⟨job', store', ?_, hjob', hextends, hgrown', newDrvPath, written, ⟨_, ?_, hparse⟩,
      hread, hwritten⟩
    · rw [rewriteAndRegisterDrv, hfill]
      dsimp only
      rw [hwrite]
      dsimp only
      rw [if_neg hsame]
      exact bind_eq_ok.mpr ⟨moved, hassign, bind_eq_ok.mpr ⟨job', hset, rfl⟩⟩
    · rw [setOutputs_sameBut hset _ (by decide), Json.find_assign hassign, if_pos rfl]

/-! ## Rewriting -/

/-- The names and errors of broken jobs are UTF-8. -/
def Utf8Texts (brokenJobs : StdMap Str Str) : Prop :=
  ∀ (name : Str) text, brokenJobs[name]? = some text → Utf8 name ∧ Utf8 text

/-- The names have been resolved and are taken out of the entry. -/
theorem Patchable.eraseKey {job : Json} (h : Patchable job) :
    ∃ job', job.eraseKey (lit "namedConstituents") = .ok job' ∧ Patchable job' := by
  obtain ⟨job', herase, hobject⟩ := h.object.eraseKey (lit "namedConstituents")
  refine ⟨job', herase, hobject, h.utf8.eraseKey herase, ?_, ?_⟩
  · rw [sameBut_eraseKey herase _ (by decide)]
    exact h.constituents
  · rw [sameBut_eraseKey herase _ (by decide)]
    exact h.outputs

/-- An error can be assigned, and changes nothing else. -/
theorem Patchable.setError {job : Json} (h : Patchable job) {text : Str} (htext : Utf8 text) :
    ∃ job', job.assign (lit "error") (.string text) = .ok job' ∧ Patchable job' := by
  obtain ⟨job', hassign, hobject⟩ :=
    Json.CanAssign.assign (.inr h.object) (lit "error") (.string text)
  refine ⟨job', hassign, hobject, ?_, ?_, ?_⟩
  · exact h.utf8.assign (utf8_lit (by decide)) (Json.all_string.mpr htext) hassign
  · rw [sameBut_assign hassign _ (by decide)]
    exact h.constituents
  · rw [sameBut_assign hassign _ (by decide)]
    exact h.outputs

/-- The error that lists the broken constituents. -/
theorem utf8_brokenJobsError (hlaws : StoreSucceeds L store) {brokenJobs : StdMap Str Str}
    (h : Utf8Texts brokenJobs) : Utf8 (brokenJobsError L brokenJobs) := by
  have hentries : ∀ e ∈ L.traverse brokenJobs, Utf8 e.1 ∧ Utf8 e.2 :=
    fun e he => h e.1 e.2 (hlaws.traverse brokenJobs e he)
  rw [brokenJobsError]
  -- in whatever order the unordered map is traversed
  generalize L.traverse brokenJobs = entries at hentries ⊢
  induction entries with
  | nil => exact .nil
  | cons e rest ih =>
    obtain ⟨⟨hname, htext⟩, hrest⟩ := List.forall_mem_cons.mp hentries
    rw [List.flatMap_cons]
    exact (((hname.append (utf8_lit (by decide))).append htext).append
      (utf8_lit (by decide))).append (ih hrest)

/-- A job that is replaced leaves the others ready. -/
theorem ready_insert {r : Rewriting} {name : Str} {job : Json} {store : DrvStore}
    {printed : List (Str × Json)} (hextends : Extends r.store store)
    (hself : Ready L ⟨r.jobs.insert name job, store, printed⟩ name) :
    ∀ name', Ready L r name' → Ready L ⟨r.jobs.insert name job, store, printed⟩ name' := by
  intro name' hready
  by_cases heq : name = name'
  · exact heq ▸ hself
  · obtain ⟨job', drvPath, drv, hlocated, hrest⟩ := hready
    refine ⟨job', drvPath, drv, hlocated.mono ?_ hextends, hrest⟩
    rw [getElem?_insert_name, if_neg heq]

/-- **Rewriting one aggregate succeeds**, and every job stays ready. -/
theorem rewriteAggregate_ok (hlaws : StoreSucceeds L store) {r : Rewriting} {agg : AggregateJob}
    (hgrown : Grown L store r.store) (hagg : Ready L r agg.name)
    (hdeps : ∀ name ∈ agg.dependencies, Ready L r name)
    (hbroken : Utf8Texts agg.brokenJobs) :
    ∃ r', rewriteAggregate L r agg = .ok r' ∧ Grown L store r'.store ∧
      ∀ name, Ready L r name → Ready L r' name := by
  obtain ⟨job, drvPath, drv, hlocated, hjob, hdrv⟩ := hagg
  cases hempty : agg.brokenJobs.isEmpty with
  | true =>
    -- each step succeeds and leaves an entry that can be patched further
    obtain ⟨job₁, drv₁, hadd, hjob₁, hdrv₁⟩ := addConstituents_ok hlaws hjob hdrv hdeps
    have hpath₁ : job₁.find (lit "drvPath") = job.find (lit "drvPath") :=
      (addConstituents_job hadd).1 _ (by decide)
    obtain ⟨job₂, store₂, hregister, hjob₂, hextends, hgrown₂, newDrvPath, written, hpath₂, hread,
      hwritten⟩ := rewriteAndRegisterDrv_ok hlaws hgrown hjob₁ hdrv₁ (hpath₁ ▸ hlocated.path)
    obtain ⟨job', herase, hjob'⟩ := hjob₂.eraseKey
    refine ⟨_, rewriteAggregate_of_rewrites (.rewritten hempty hlocated hadd hregister herase
      ((hlaws.dump job').mpr hjob'.utf8)), hgrown₂, ready_insert hextends ⟨job', newDrvPath,
      written, ⟨?_, ?_, hread⟩, hjob', hwritten⟩⟩
    · rw [getElem?_insert_name, if_pos rfl]
    · rw [sameBut_eraseKey herase _ (by decide)]
      exact hpath₂
  | false =>
    -- a broken aggregate keeps its derivation
    obtain ⟨job₁, herase, hjob₁⟩ := hjob.eraseKey
    obtain ⟨job', herror, hjob'⟩ := hjob₁.setError (utf8_brokenJobsError hlaws hbroken)
    refine ⟨_, rewriteAggregate_of_rewrites (.broken hempty hlocated herase herror
      ((hlaws.dump job').mpr hjob'.utf8)), hgrown, ready_insert (fun _ _ hread => hread)
      ⟨job', drvPath, drv, ⟨?_, ?_, hlocated.read⟩, hjob', hdrv⟩⟩
    · rw [getElem?_insert_name, if_pos rfl]
    · rw [sameBut_assign herror _ (by decide), sameBut_eraseKey herase _ (by decide)]
      exact hlocated.path

/-- **Rewriting succeeds** when every aggregate and every dependency is ready. -/
theorem rewriteAggregates_ok (hlaws : StoreSucceeds L store) {aggregates : List AggregateJob}
    (hready : ∀ agg ∈ aggregates, Ready L { jobs, store } agg.name ∧
      ∀ name ∈ agg.dependencies, Ready L { jobs, store } name)
    (hbroken : ∀ agg ∈ aggregates, Utf8Texts agg.brokenJobs) :
    ∃ r, rewriteAggregates L jobs aggregates store = .ok r := by
  have hloop : ∃ r, aggregates.foldlM (rewriteAggregate L) { jobs, store } = .ok r ∧
      Grown L store r.store ∧ ∀ name, Ready L { jobs, store } name → Ready L r name := by
    -- on the aggregates; what is ready at first stays so while others are rewritten
    refine foldlM_ok (fun {r} agg hagg hloop => ?_) ⟨.start, fun _ h => h⟩
    obtain ⟨hgrown, hkeeps⟩ := hloop
    obtain ⟨hself, hdeps⟩ := hready agg hagg
    obtain ⟨r', hstep, hgrown', hkeeps'⟩ := rewriteAggregate_ok hlaws hgrown (hkeeps _ hself)
      (fun name hname => hkeeps name (hdeps name hname)) (hbroken agg hagg)
    exact ⟨r', hstep, hgrown', fun name h => hkeeps' name (hkeeps name h)⟩
  obtain ⟨r, hrun, -⟩ := hloop
  exact ⟨r, hrun⟩

/-! ## Resolving -/

/-- The JSON of a job or an error, as far as resolution looks at it. -/
structure Resolvable (name : Str) (job : Json) : Prop where
  name : Utf8 name
  object : job.IsObject
  utf8 : job.All Utf8
  glob : ∃ b, job.boolValue (lit "globConstituents") = .ok b
  named : ∀ value ∈ namedConstituents job, ∃ s, value = .string s
  error : ∀ value, job.find (lit "error") = some value → ∃ s, value = .string s

/-- Nothing is broken at first. -/
theorem Utf8Texts.empty : Utf8Texts ∅ := by
  intro name text h
  rw [Std.ExtTreeMap.getElem?_empty] at h
  cases h

/-- Recording a broken job with its error. -/
theorem Utf8Texts.insert {brokenJobs : StdMap Str Str} (h : Utf8Texts brokenJobs) {name text : Str}
    (hname : Utf8 name) (htext : Utf8 text) : Utf8Texts (brokenJobs.insert name text) := by
  intro name' text' hget
  rw [Std.ExtTreeMap.getElem?_insert] at hget
  split at hget
  · next heq =>
    rw [Std.LawfulEqCmp.compare_eq_iff_eq] at heq
    obtain rfl := Option.some.inj hget
    exact heq ▸ ⟨hname, htext⟩
  · exact h name' text' hget

/-- An error that is a string can be recorded. -/
theorem isBroken_ok {brokenJobs : StdMap Str Str} {name : Str} {job : Json}
    (hjob : Resolvable name job) (h : Utf8Texts brokenJobs) :
    ∃ result, isBroken brokenJobs name job = .ok result ∧ Utf8Texts result.2 := by
  rw [isBroken]
  cases hfind : job.find (lit "error") with
  | none => exact ⟨_, rfl, h⟩
  | some value =>
    obtain ⟨text, rfl⟩ := hjob.error value hfind
    exact ⟨_, rfl, h.insert hjob.name (Json.all_string.mp (hjob.utf8.find hfind).2)⟩

/-- One job against a pattern: the aggregate itself, no match, or a match that may be broken. -/
theorem insertMatching_ok {child jobName : Str} {entry : Str × Json} {state : Bool × Resolving}
    (hentry : Resolvable entry.1 entry.2) (h : Utf8Texts state.2.brokenJobs) :
    ∃ state', insertMatching L child jobName state entry = .ok state' ∧
      Utf8Texts state'.2.brokenJobs := by
  rw [insertMatching]
  by_cases hself : entry.1 = jobName
  · rw [if_pos hself]
    exact ⟨_, rfl, h⟩
  rw [if_neg hself]
  by_cases hmatch : L.fnmatch child entry.1 = true
  · rw [if_pos hmatch]
    obtain ⟨⟨broken, brokenJobs⟩, hbroken, hutf8⟩ := isBroken_ok hentry h
    rw [hbroken]
    cases broken with
    | true => exact ⟨_, rfl, hutf8⟩
    | false => exact ⟨_, rfl, hutf8⟩
  · rw [if_neg hmatch]
    exact ⟨_, rfl, h⟩

/-- One name of `namedConstituents`. -/
theorem resolveChild_ok (hjobs : ∀ (name : Str) job, jobs[name]? = some job → Resolvable name job)
    {jobName child : Str} {glob : Bool} {r : Resolving} (hchild : Utf8 child)
    (h : Utf8Texts r.brokenJobs) :
    ∃ r', resolveChild L jobs jobName glob r (.string child) = .ok r' ∧
      Utf8Texts r'.brokenJobs := by
  rw [resolveChild, show (Json.string child).asString = .ok child from rfl, ok_bind]
  cases hget : jobs[child]? with
  | none =>
    -- no such job: it does not exist, or the name is a pattern
    cases glob with
    | false => exact ⟨_, rfl, h.insert hchild (utf8_lit (by decide))⟩
    | true =>
      -- the matched jobs are resolvable, as all jobs are
      have hloop : ∃ state, insertMatchingConstituents L child jobName jobs r = .ok state ∧
          Utf8Texts state.2.brokenJobs :=
        foldlM_ok (P := fun state : Bool × Resolving => Utf8Texts state.2.brokenJobs)
          (fun {state} entry hentry hstate => insertMatching_ok
            (hjobs entry.1 entry.2 (Std.ExtTreeMap.mem_toList_iff_getElem?_eq_some.mp hentry))
            hstate) h
      obtain ⟨⟨found, r₁⟩, hinsert, hutf8⟩ := hloop
      dsimp only
      rw [hinsert]
      cases found with
      | true => exact ⟨_, rfl, hutf8⟩
      | false => exact ⟨_, rfl, hutf8.insert hchild (utf8_lit (by decide))⟩
  | some job =>
    obtain ⟨⟨broken, brokenJobs⟩, hbroken, hutf8⟩ := isBroken_ok (hjobs child job hget) h
    dsimp only
    rw [hbroken]
    cases broken with
    | true => exact ⟨_, rfl, hutf8⟩
    | false => exact ⟨_, rfl, hutf8⟩

/-- The names of an aggregate are strings of its entry. -/
theorem all_namedConstituents {job : Json} (h : job.All Utf8) :
    ∀ value ∈ namedConstituents job, value.All Utf8 := by
  intro value hvalue
  rw [namedConstituents] at hvalue
  split at hvalue
  · next named hfind => exact (h.find hfind).2.elements value hvalue
  · exact absurd hvalue List.not_mem_nil

/-- **Resolving one aggregate succeeds.** -/
theorem resolveAggregate_ok
    (hjobs : ∀ (name : Str) job, jobs[name]? = some job → Resolvable name job) {name : Str}
    {job : Json} (hjob : Resolvable name job) :
    ∃ agg, resolveAggregate L jobs name job = .ok agg ∧ Utf8Texts agg.brokenJobs := by
  obtain ⟨glob, hglob⟩ := hjob.glob
  obtain ⟨r, hfold, hutf8⟩ : ∃ r, (namedConstituents job).foldlM
      (resolveChild L jobs name glob) {} = .ok r ∧ Utf8Texts r.brokenJobs := by
    refine foldlM_ok (fun {r} value hvalue hr => ?_) .empty
    obtain ⟨child, rfl⟩ := hjob.named value hvalue
    exact resolveChild_ok hjobs (Json.all_string.mp (all_namedConstituents hjob.utf8 _ hvalue)) hr
  exact ⟨_, bind_eq_ok.mpr ⟨glob, hglob, bind_eq_ok.mpr ⟨r, hfold, rfl⟩⟩, hutf8⟩

/-- **Collecting the aggregates succeeds.** -/
theorem collectAggregates_ok
    (hjobs : ∀ (name : Str) job, jobs[name]? = some job → Resolvable name job) :
    ∃ items, collectAggregates L jobs = .ok items ∧
      ∀ (name : Str) agg, items[name]? = some agg → Utf8Texts agg.brokenJobs := by
  refine foldlM_ok (P := fun items : StdMap Str AggregateJob =>
    ∀ (name : Str) agg, items[name]? = some agg → Utf8Texts agg.brokenJobs)
    (fun {items} entry hentry hitems => ?_) fun name agg hget => ?_
  · rw [collectAggregate]
    -- entries without named constituents are passed over
    split
    · exact ⟨_, rfl, hitems⟩
    · obtain ⟨agg, hagg, hutf8⟩ := resolveAggregate_ok (L := L) hjobs
        (hjobs entry.1 entry.2 (Std.ExtTreeMap.mem_toList_iff_getElem?_eq_some.mp hentry))
      refine ⟨_, bind_eq_ok.mpr ⟨agg, hagg, rfl⟩, fun name agg' hget => ?_⟩
      rw [Std.ExtTreeMap.getElem?_insertIfNew] at hget
      split at hget
      · obtain rfl := Option.some.inj hget
        exact hutf8
      · exact hitems name agg' hget
  · rw [Std.ExtTreeMap.getElem?_empty] at hget
    cases hget

/-- **Resolution succeeds**, with sorted aggregates or with a cycle. -/
theorem resolveNamedConstituents_ok
    (hjobs : ∀ (name : Str) job, jobs[name]? = some job → Resolvable name job) :
    ∃ items, collectAggregates L jobs = .ok items ∧
      (∀ (name : Str) agg, items[name]? = some agg → Utf8Texts agg.brokenJobs) ∧
      ((∃ sorted, topoSort items = .ok sorted ∧
          resolveNamedConstituents L jobs = .ok (.inr sorted)) ∨
        ∃ cycle, ReportsCycle items cycle ∧
          resolveNamedConstituents L jobs = .ok (.inl cycle)) := by
  obtain ⟨items, hitems, hutf8⟩ := collectAggregates_ok (L := L) hjobs
  refine ⟨items, hitems, hutf8, ?_⟩
  rw [resolveNamedConstituents, hitems, ok_bind]
  -- sorting fails with a cycle only
  cases hsort : topoSort items with
  | ok sorted => exact .inl ⟨sorted, rfl, rfl⟩
  | error e =>
    obtain ⟨cycle, rfl⟩ := topoSort_error hsort
    exact .inr ⟨cycle, topoSort_cycle hsort, rfl⟩

/-! ## Printing a cycle -/

/-- Every entry with one of the names can get an error and be printed. -/
def Printable (names : Str → Prop) (r : Rewriting) : Prop :=
  ∀ name, names name → (entryOf r.jobs name).IsObject ∧ (entryOf r.jobs name).All Utf8

/-- Every entry of a cycle gets the same message. -/
theorem setError_ok {names : Str → Prop} {r : Rewriting} {name text : Str}
    (h : Printable names r) (hname : names name) (htext : Utf8 text) :
    ∃ r', setError text r name = .ok r' ∧ Printable names r' := by
  obtain ⟨hobject, hutf8⟩ := h name hname
  obtain ⟨job, hassign, hjob⟩ :=
    Json.CanAssign.assign (.inr hobject) (lit "error") (.string text)
  refine ⟨_, bind_eq_ok.mpr ⟨job, hassign, rfl⟩, fun name' hname' => ?_⟩
  rw [entryOf_insert]
  split
  · exact ⟨hjob, hutf8.assign (utf8_lit (by decide)) (Json.all_string.mpr htext) hassign⟩
  · exact h name' hname'

/-- An entry whose strings are UTF-8 can be printed. -/
theorem printJob_ok (hlaws : StoreSucceeds L store) {names : Str → Prop} {r : Rewriting}
    {name : Str} (h : Printable names r) (hname : names name) :
    ∃ r', printJob L r name = .ok r' ∧ Printable names r' := by
  obtain ⟨text, htext⟩ := Option.isSome_iff_exists.mp ((hlaws.dump _).mpr (h name hname).2)
  refine ⟨⟨r.jobs.insertIfNew name .null, r.store, r.printed ++ [(name, entryOf r.jobs name)]⟩,
    ?_, fun name' hname' => ?_⟩
  · rw [printJob, htext]
    rfl
  · rw [entryOf_insertIfNew]
    exact h name' hname'

/-- **Printing a cycle succeeds.** -/
theorem printCycle_ok (hlaws : StoreSucceeds L store) {names : Str → Prop} {cycle : DependencyCycle}
    (h : Printable names { jobs, store }) (ha : names cycle.a) (hb : names cycle.b)
    (hremaining : ∀ name ∈ cycle.remainingAggregates, names name) (hmessage : Utf8 cycle.message) :
    ∃ r, printCycle L jobs cycle store = .ok r := by
  -- the two members that are reported come first
  obtain ⟨r₁, herrorA, h₁⟩ := setError_ok h ha hmessage
  obtain ⟨r₂, herrorB, h₂⟩ := setError_ok h₁ hb hmessage
  obtain ⟨r₃, hprintA, h₃⟩ := printJob_ok hlaws h₂ ha
  obtain ⟨r₄, hprintB, h₄⟩ := printJob_ok hlaws h₃ hb
  obtain ⟨r₅, hloop, -⟩ : ∃ r, cycle.remainingAggregates.toList.foldlM (skipAggregate L) r₄ =
      .ok r ∧ Printable names r := by
    -- and each of the remaining aggregates after them
    refine foldlM_ok (fun {r} name hname hr => ?_) h₄
    have hnamed := hremaining name (Std.ExtTreeSet.mem_toList.mp hname)
    obtain ⟨m, herror, hm⟩ := setError_ok hr hnamed (utf8_lit (by decide) : Utf8 skippedMessage)
    obtain ⟨r', hprint, hr'⟩ := printJob_ok hlaws hm hnamed
    exact ⟨r', bind_eq_ok.mpr ⟨m, herror, hprint⟩, hr'⟩
  exact ⟨r₅, bind_eq_ok.mpr ⟨r₁, herrorA, bind_eq_ok.mpr ⟨r₂, herrorB, bind_eq_ok.mpr ⟨r₃, hprintA,
    bind_eq_ok.mpr ⟨r₄, hprintB, hloop⟩⟩⟩⟩⟩

end Aggregates

end NixEvalJobs
