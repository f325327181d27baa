import NixEvalJobs.Response

/-!
# nix-eval-jobs — decoding undoes encoding

The collector decodes every worker line, and with `--check-cache-status` it
prints the decoded value again. Both ends are written by hand, so what one
writes the other has to read.

The argument goes through one view of an object, `Drv.WrittenIn`: under which
key it holds which part of a derivation. The encoder establishes the view, also
after the members are merged into the object of the response, and the decoder
needs nothing else.

One value does not survive. `outputs` is built from a null `json` and stays
null when there is no output, and `getObject` refuses null (`inputDrvs`, next
to it, starts as `json::object()`).

* `Response.roundTrips_iff` — a response round-trips exactly when it is not a
  job without outputs.
* `Response.not_roundTrips_noOutputs` — such a job.
-/

namespace NixEvalJobs

/-! ## Constituents -/

/-- The members that every derivation merges in. -/
def constituentsKeys : List Str :=
  [lit "constituents", lit "namedConstituents", lit "globConstituents"]

namespace Constituents

/-- `json` holds the three members of `val`. -/
structure WrittenIn (val : Constituents) (json : Fields) : Prop where
  constituents : json.get (lit "constituents") = some (.ofStrings val.constituents)
  namedConstituents : json.get (lit "namedConstituents") = some (.ofStrings val.namedConstituents)
  globConstituents : json.get (lit "globConstituents") = some (.bool val.globConstituents)

/-- The encoder writes the three members. -/
theorem writtenIn_toFields (val : Constituents) : val.WrittenIn val.toFields := by
  constructor <;>
    simp (disch := decide) only [toFields, Fields.get_set_ne, Fields.get_set_self]

/-- It writes nothing else. -/
theorem get_toFields_eq_none (val : Constituents) {key : Str} (h : key ∉ constituentsKeys) :
    val.toFields.get key = none := by
  simp only [constituentsKeys, List.mem_cons, List.not_mem_nil, or_false, not_or] at h
  rw [toFields, Fields.get_set_ne h.2.2, Fields.get_set_ne h.2.1, Fields.get_set_ne h.1,
    Fields.get_nil]

/-- They are read back as they were written. -/
theorem fromFields_of_writtenIn {val : Constituents} {json : Fields} (h : val.WrittenIn json) :
    fromFields json = .ok val := by
  rw [fromFields, h.constituents, h.namedConstituents, h.globConstituents]
  simp only [Json.asStrings_ofStrings]
  rfl

end Constituents

/-! ## Derivations -/

/-- The members of the derivation itself. -/
def drvKeys : List Str :=
  [lit "name", lit "storeDir", lit "system", lit "drvPath", lit "outputs", lit "meta",
    lit "inputDrvs", lit "requiredSystemFeatures"]

/-- The members that only a known cache status puts into the object. -/
def cacheKeys : List Str :=
  [lit "isCached", lit "cacheStatus", lit "neededBuilds", lit "neededSubstitutes"]

namespace Drv

variable (X : StorePaths)

/-- `json` holds the members of `drv`. -/
structure WrittenIn (drv : Drv) (json : Fields) : Prop where
  name : json.get (lit "name") = some (.string drv.name)
  storeDir : json.get (lit "storeDir") = some (.string drv.storeDir)
  system : json.get (lit "system") = some (.string drv.system)
  drvPath : json.get (lit "drvPath") = some (drv.printPath X drv.drvPath)
  outputs : json.get (lit "outputs") = some (drv.outputsJson X)
  meta_ : json.get (lit "meta") = drv.meta_
  inputDrvs : json.get (lit "inputDrvs") = drv.inputDrvs.map (drv.inputDrvsJson X)
  requiredSystemFeatures :
    json.get (lit "requiredSystemFeatures") = drv.requiredSystemFeatures.map .ofStringSet
  constituents : drv.constituents.WrittenIn json
  cacheStatus : json.get (lit "cacheStatus") = (drv.cacheFields X).get (lit "cacheStatus")
  neededBuilds : json.get (lit "neededBuilds") = (drv.cacheFields X).get (lit "neededBuilds")
  neededSubstitutes :
    json.get (lit "neededSubstitutes") = (drv.cacheFields X).get (lit "neededSubstitutes")

/-- The derivation prints `path` somewhere. -/
def Mentions (drv : Drv) (path : StorePath) : Prop :=
  path = drv.drvPath ∨ (∃ name : Str, drv.outputs[name]? = some (some path)) ∨
    (∃ inputDrvs, drv.inputDrvs = some inputDrvs ∧ path ∈ inputDrvs) ∨
    path ∈ drv.neededBuilds ∨ path ∈ drv.neededSubstitutes

/-- The printed paths parse back, and the fields that are not printed are empty. -/
structure Encodable (drv : Drv) : Prop where
  parsePrint : ∀ path, drv.Mentions path →
    X.parseStorePath drv.storeDir (X.printStorePath drv.storeDir path) = some path
  unknownPaths : drv.unknownPaths = []
  unknown : drv.cacheStatus = .unknown → drv.neededBuilds = [] ∧ drv.neededSubstitutes = []

variable {X}

/-- A key that is no cache member is never among them. -/
theorem get_cacheFields_eq_none (drv : Drv) {key : Str} (h : key ∉ cacheKeys) :
    (drv.cacheFields X).get key = none := by
  simp only [cacheKeys, List.mem_cons, List.not_mem_nil, or_false, not_or] at h
  rw [cacheFields]
  -- an unknown status writes no member at all
  split
  · rfl
  · rw [Fields.get_set_ne h.2.2.2, Fields.get_set_ne h.2.2.1, Fields.get_set_ne h.2.1,
      Fields.get_set_ne h.1, Fields.get_nil]

/-- A known status writes all of them. -/
theorem get_cacheFields (drv : Drv) (h : drv.cacheStatus ≠ .unknown) :
    (drv.cacheFields X).get (lit "cacheStatus") =
        some (.string (cacheStatusText drv.cacheStatus)) ∧
      (drv.cacheFields X).get (lit "neededBuilds") =
        some (.array (drv.neededBuilds.map (drv.printPath X))) ∧
      (drv.cacheFields X).get (lit "neededSubstitutes") =
        some (.array (drv.neededSubstitutes.map (drv.printPath X))) := by
  rw [cacheFields, if_neg h]
  refine ⟨?_, ?_, ?_⟩ <;>
    simp (disch := decide) only [Fields.get_set_ne, Fields.get_set_self]

/-- Outside the constituents and the cache members an object of a derivation
reads as if these had not been merged in. -/
theorem get_update_update (drv : Drv) (res : Fields) {key : Str}
    (h : key ∉ constituentsKeys ++ cacheKeys) :
    ((res.update drv.constituents.toFields).update (drv.cacheFields X)).get key =
      res.get key := by
  rw [List.mem_append, not_or] at h
  rw [Fields.get_update, Fields.get_update, get_cacheFields_eq_none drv h.2,
    Constituents.get_toFields_eq_none _ h.1]
  rfl

/-- **The encoder writes every member.** -/
theorem writtenIn_toFields (drv : Drv) : drv.WrittenIn X (drv.toFields X) := by
  -- a member of the constituents is not overwritten by a cache member
  have hconst : ∀ (res : Fields) (key : Str), key ∉ cacheKeys →
      drv.constituents.toFields.get key ≠ none →
      ((res.update drv.constituents.toFields).update (drv.cacheFields X)).get key =
        drv.constituents.toFields.get key := by
    intro res key hkey hsome
    rw [Fields.get_update, get_cacheFields_eq_none drv hkey, Fields.get_update]
    obtain ⟨value, hvalue⟩ := Option.ne_none_iff_exists'.mp hsome
    rw [hvalue]
    rfl
  -- a cache member is not there before it is merged in
  have hcache : ∀ (res : Fields) (key : Str), key ∈ cacheKeys → res.get key = none →
      drv.constituents.toFields.get key = none →
      ((res.update drv.constituents.toFields).update (drv.cacheFields X)).get key =
        (drv.cacheFields X).get key := by
    intro res key _ hres hc
    rw [Fields.get_update, Fields.get_update, hres, hc]
    simp
  have hwritten := Constituents.writtenIn_toFields drv.constituents
  constructor
  case constituents =>
    constructor
    · rw [toFields, hconst _ _ (by decide) (by simp [hwritten.constituents]),
        hwritten.constituents]
    · rw [toFields, hconst _ _ (by decide) (by simp [hwritten.namedConstituents]),
        hwritten.namedConstituents]
    · rw [toFields, hconst _ _ (by decide) (by simp [hwritten.globConstituents]),
        hwritten.globConstituents]
  case cacheStatus | neededBuilds | neededSubstitutes =>
    rw [toFields, hcache _ _ (by decide) _ (Constituents.get_toFields_eq_none _ (by decide))]
    simp (disch := decide) only [Fields.get_setOpt_ne, Fields.get_set_ne, Fields.get_nil]
  -- the rest of the members is written first and kept
  all_goals
    rw [toFields, get_update_update drv _ (by decide)]
    simp (disch := decide) only [Fields.get_setOpt_ne, Fields.get_set_ne, Fields.get_setOpt_self,
      Fields.get_set_self, Fields.get_nil, Option.or_none]

/-- The keys of the object are the known ones. -/
theorem get_toFields_eq_none (drv : Drv) {key : Str}
    (h : key ∉ drvKeys ++ (constituentsKeys ++ cacheKeys)) : (drv.toFields X).get key = none := by
  rw [List.mem_append, not_or] at h
  obtain ⟨hown, hrest⟩ := h
  simp only [drvKeys, List.mem_cons, List.not_mem_nil, or_false, not_or] at hown
  rw [toFields, get_update_update drv _ hrest]
  simp only [Fields.get_setOpt, Fields.get_set, Fields.get_nil, hown, if_false]

/-- Another cache status changes nothing but the cache members. -/
theorem get_toFields_withCache (drv : Drv) {key : Str} (h : key ∉ cacheKeys)
    (cacheStatus : CacheStatus) (neededBuilds neededSubstitutes unknownPaths : List StorePath) :
    (Drv.toFields X { drv with
      cacheStatus, neededBuilds, neededSubstitutes, unknownPaths }).get key =
      (drv.toFields X).get key := by
  rw [toFields, toFields, Fields.get_update, Fields.get_update _ (drv.cacheFields X),
    get_cacheFields_eq_none _ h, get_cacheFields_eq_none _ h]
  rfl

/-- A path that the derivation mentions survives printing and parsing. -/
theorem parsePath_printPath {drv : Drv} (h : drv.Encodable X) {path : StorePath}
    (hpath : drv.Mentions path) : parsePath X drv.storeDir (drv.printPath X path) = .ok path := by
  rw [parsePath, printPath]
  change X.getStorePath drv.storeDir _ = _
  rw [StorePaths.getStorePath, h.parsePrint path hpath]

/-- So does a list of such paths. -/
theorem pathsFrom_printed {drv : Drv} (h : drv.Encodable X) (paths : List StorePath)
    (hpaths : ∀ path ∈ paths, drv.Mentions path) :
    pathsFrom X drv.storeDir (some (.array (paths.map (drv.printPath X)))) = .ok paths := by
  rw [pathsFrom]
  induction paths with
  | nil => rfl
  | cons path paths ih =>
    rw [List.map_cons, List.mapM_cons, parsePath_printPath h (hpaths path (List.mem_cons_self ..)),
      ih fun p hp => hpaths p (List.mem_cons_of_mem _ hp)]
    rfl

/-- So do the outputs, those without a known path included. -/
theorem outputs_decode {drv : Drv} (h : drv.Encodable X) :
    (Fields.ofMap id (drv.outputJson X) drv.outputs).toMap .ok (outputFrom X drv.storeDir) =
      .ok drv.outputs := by
  refine Fields.toMap_ofMap _ (fun _ _ => rfl) fun name optPath hget => ?_
  -- an output without a path is printed as null
  cases optPath with
  | none => rfl
  | some path =>
    change some <$> parsePath X drv.storeDir (drv.printPath X path) = _
    rw [parsePath_printPath h (.inr (.inl ⟨name, hget⟩))]
    rfl

/-- So do the input derivations, printed or not. -/
theorem inputDrvsFrom_printed {drv : Drv} (h : drv.Encodable X) :
    inputDrvsFrom X drv.storeDir (drv.inputDrvs.map (drv.inputDrvsJson X)) = .ok drv.inputDrvs := by
  cases hInputs : drv.inputDrvs with
  | none => rfl
  | some inputDrvs =>
    -- its keys are store paths, its values sets of output names
    have hdecode : (Fields.ofMap (X.printStorePath drv.storeDir) .ofStringSet inputDrvs).toMap
        (X.getStorePath drv.storeDir) Json.asStringSet = .ok inputDrvs := by
      refine Fields.toMap_ofMap _ (fun path hpath => ?_) fun _ names _ =>
        Json.asStringSet_ofStringSet names
      rw [StorePaths.getStorePath,
        h.parsePrint path (.inr (.inr (.inl ⟨inputDrvs, hInputs, hpath⟩)))]
    change some <$> Fields.toMap (X.getStorePath drv.storeDir) Json.asStringSet
      (Fields.ofMap (X.printStorePath drv.storeDir) .ofStringSet inputDrvs) = _
    rw [hdecode]
    rfl

/-- So do the system features. -/
theorem featuresFrom_printed (features : Option (StdSet Str)) :
    featuresFrom (features.map .ofStringSet) = .ok features := by
  cases features with
  | none => rfl
  | some names =>
    change some <$> (Json.ofStringSet names).asStringSet = _
    rw [Json.asStringSet_ofStringSet]
    rfl

/-- A known status is read back from its text. -/
theorem cacheStatusFrom_text {cacheStatus : CacheStatus} (h : cacheStatus ≠ .unknown) :
    cacheStatusFrom (cacheStatusText cacheStatus) = cacheStatus := by
  cases cacheStatus with
  | unknown => exact absurd rfl h
  | _ => decide

/-- The cache members are read into a derivation that has everything else. -/
theorem readCacheFields_of_writtenIn {drv : Drv} {json : Fields} (h : drv.Encodable X)
    (hw : drv.WrittenIn X json) :
    readCacheFields X json { drv with
      cacheStatus := .unknown, neededBuilds := [], neededSubstitutes := [] } = .ok drv := by
  rw [readCacheFields, hw.cacheStatus]
  -- an unknown status has not been written
  by_cases hStatus : drv.cacheStatus = .unknown
  · obtain ⟨hBuilds, hSubstitutes⟩ := h.unknown hStatus
    rw [cacheFields, if_pos hStatus, Fields.get_nil]
    -- nothing is read, and there was nothing to read
    cases drv
    simp_all [pure, Except.pure]
  · obtain ⟨hText, hBuilds, hSubstitutes⟩ := get_cacheFields (X := X) drv hStatus
    rw [hText, hw.neededBuilds, hw.neededSubstitutes, hBuilds, hSubstitutes]
    have hb := pathsFrom_printed h drv.neededBuilds fun _ hp =>
      .inr (.inr (.inr (.inl hp)))
    have hs := pathsFrom_printed h drv.neededSubstitutes fun _ hp =>
      .inr (.inr (.inr (.inr hp)))
    simp only [Json.getString, hb, hs, bind, Except.bind, pure, Except.pure,
      cacheStatusFrom_text hStatus]

/-- With an output, `outputs` is an object. -/
theorem outputsJson_of_ne_empty {drv : Drv} (h : drv.outputs ≠ ∅) :
    drv.outputsJson X = .object (Fields.ofMap id (drv.outputJson X) drv.outputs) := by
  rw [outputsJson]
  cases hfields : Fields.ofMap id (drv.outputJson X) drv.outputs with
  | nil => exact absurd (Fields.ofMap_eq_nil.mp hfields) h
  | cons e rest => rfl

/-- Without one it is null, because nothing was assigned to it. -/
theorem outputsJson_of_empty {drv : Drv} (h : drv.outputs = ∅) : drv.outputsJson X = .null := by
  rw [outputsJson, Fields.ofMap_eq_nil.mpr h]
  rfl

/-- **The decoder reads the members back**, when there is an output. -/
theorem fromFields_of_writtenIn {drv : Drv} {json : Fields} (h : drv.Encodable X)
    (hw : drv.WrittenIn X json) (hOutputs : drv.outputs ≠ ∅) : fromFields X json = .ok drv := by
  have hstart := readCacheFields_of_writtenIn h hw
  rw [fromFields, Json.valueAt_of_get hw.storeDir, Json.valueAt_of_get hw.outputs,
    Json.valueAt_of_get hw.name, Json.valueAt_of_get hw.system, Json.valueAt_of_get hw.drvPath,
    outputsJson_of_ne_empty hOutputs, hw.inputDrvs, hw.requiredSystemFeatures,
    Constituents.fromFields_of_writtenIn hw.constituents, hw.meta_]
  -- each getter succeeds on the kind of value that was written
  simp only [Json.getString, Json.getObject, bind, Except.bind]
  rw [outputs_decode h]
  simp only [parsePath_printPath h (.inl rfl), inputDrvsFrom_printed h, featuresFrom_printed]
  rw [← hstart, h.unknownPaths]

/-- **Without outputs the decoder throws.** -/
theorem fromFields_of_noOutputs {drv : Drv} {json : Fields} (hw : drv.WrittenIn X json)
    (hOutputs : drv.outputs = ∅) : fromFields X json = .error .nixLib := by
  -- `getObject` of `outputs` is the first getter that fails
  rw [fromFields, Json.valueAt_of_get hw.storeDir, Json.valueAt_of_get hw.outputs,
    outputsJson_of_empty hOutputs]
  rfl

end Drv

/-! ## Responses -/

/-- Equal up to what a derivation says. -/
def Payload.SameKind : Payload → Payload → Prop
  | .attrs names, .attrs names' => names = names'
  | .error text fatal, .error text' fatal' => text = text' ∧ fatal = fatal'
  | .job _ _, .job _ _ => True
  | _, _ => False

namespace Response

variable (X : StorePaths)

/-- The members every response has. -/
structure HeaderWrittenIn (response : Response) (json : Fields) : Prop where
  attr : json.get (lit "attr") = some (.string response.attr)
  attrPath : json.get (lit "attrPath") = some (.ofStrings response.attrPath)
  warnings : json.get (lit "warnings") = unlessEmpty response.warnings
  traces : json.get (lit "traces") = unlessEmpty response.traces
  stats : json.get (lit "stats") = response.stats.map Stats.toJson

/-- Only a job has conditions. -/
def Encodable (response : Response) : Prop :=
  ∀ drv extraValue, response.payload = .job drv extraValue → drv.Encodable X

/-- The payload is a job whose derivation has no output. -/
def HasNoOutputs (response : Response) : Prop :=
  ∃ drv extraValue, response.payload = .job drv extraValue ∧ drv.outputs = ∅

/-- What `tryResolve` does to the response of a job before it is printed again. -/
def withCache (response : Response) (status : CacheStatus)
    (neededBuilds neededSubstitutes unknownPaths : List StorePath) : Response :=
  match response.payload with
  | .job drv extraValue =>
    { response with payload := .job { drv with
        cacheStatus := status, neededBuilds, neededSubstitutes, unknownPaths } extraValue }
  | _ => response

/-- Decoding undoes encoding, and the decoded response, once it got a cache
status, prints the object of the worker except for the cache members. -/
def RoundTrips (response : Response) : Prop :=
  fromJson X (response.toJson X) = .ok response ∧
    ∀ status builds substitutes unknown, ∀ key ∉ cacheKeys,
      ((response.withCache status builds substitutes unknown).toFields X).get key =
        (response.toFields X).get key

variable {X}

/-- An empty list is not written, and read back as an empty list. -/
theorem stringList_unlessEmpty {json : Fields} {key : Str} {ss : List Str}
    (h : json.get key = unlessEmpty ss) : stringList json key = .ok ss := by
  rw [stringList, h, unlessEmpty]
  cases ss with
  | nil => rfl
  | cons s ss => exact Json.asStrings_ofStrings _

/-- Statistics are read back if they were written. -/
theorem statsFrom_toJson {json : Fields} {stats : Option Stats}
    (h : json.get (lit "stats") = stats.map Stats.toJson) : statsFrom json = .ok stats := by
  rw [statsFrom, h]
  cases stats with
  | none => rfl
  | some stats => rfl

/-- Once the payload is decoded, so is the response. -/
theorem fromJson_of_written {response : Response} {json : Fields}
    (h : response.HeaderWrittenIn json) {payload : Except Error Payload}
    (hp : payloadFrom X json = payload) :
    fromJson X (.object json) = payload.map fun payload => { response with payload } := by
  rw [fromJson]
  simp only [Json.getObject, Json.valueAt_of_get h.attr, Json.valueAt_of_get h.attrPath,
    Json.getString, Json.asStrings_ofStrings, statsFrom_toJson h.stats, hp,
    stringList_unlessEmpty h.warnings, stringList_unlessEmpty h.traces, bind, Except.bind, pure,
    Except.pure, Except.map]

/-- No payload writes a key of the header. -/
theorem headerWrittenIn_toFields (response : Response) :
    response.HeaderWrittenIn (response.toFields X) := by
  -- a job merges its derivation in, which has none of these keys
  have hdrv : ∀ (res : Fields) (drv : Drv) (extraValue : Option Json),
      ∀ key ∈ [lit "attr", lit "attrPath", lit "warnings", lit "traces", lit "stats"],
      ((res.update (drv.toFields X)).setOpt (lit "extraValue") extraValue).get key =
        res.get key := by
    intro res drv extraValue key hkey
    have hnone : key ≠ lit "extraValue" ∧ (drv.toFields X).get key = none := by
      fin_cases hkey <;> exact ⟨by decide, drv.get_toFields_eq_none (by decide)⟩
    rw [Fields.get_setOpt_ne hnone.1, Fields.get_update, hnone.2]
    rfl
  constructor <;> rw [toFields] <;> cases response.payload <;>
    simp (disch := decide) only [hdrv, Fields.get_setOpt_ne, Fields.get_set_ne,
      Fields.get_setOpt_self, Fields.get_set_self, Fields.get_nil, Option.or_none]

/-- The header has none of the derivation's keys, so its members survive the merge. -/
theorem get_toFields_job {response : Response} {drv : Drv} {extraValue : Option Json}
    (hp : response.payload = .job drv extraValue) {key : Str}
    (hkey : key ∈ drvKeys ++ (constituentsKeys ++ cacheKeys)) :
    (response.toFields X).get key = (drv.toFields X).get key := by
  have hne : ∀ k ∈ [lit "attr", lit "attrPath", lit "warnings", lit "traces", lit "stats",
      lit "extraValue"], key ≠ k := by
    rintro k hk rfl
    revert key
    decide
  simp only [List.mem_cons, List.not_mem_nil, or_false, forall_eq_or_imp, forall_eq] at hne
  rw [toFields, hp]
  simp only [Fields.get_setOpt, Fields.get_update, Fields.get_set, Fields.get_nil, hne, if_false,
    Option.or_none]

/-- The object of a job holds the members of its derivation. -/
theorem writtenIn_toFields_job {response : Response} {drv : Drv} {extraValue : Option Json}
    (hp : response.payload = .job drv extraValue) : drv.WrittenIn X (response.toFields X) := by
  have hw := drv.writtenIn_toFields (X := X)
  constructor
  case constituents =>
    constructor <;> rw [get_toFields_job hp (by decide)]
    · exact hw.constituents.constituents
    · exact hw.constituents.namedConstituents
    · exact hw.constituents.globConstituents
  all_goals rw [get_toFields_job hp (by decide)]
  · exact hw.name
  · exact hw.storeDir
  · exact hw.system
  · exact hw.drvPath
  · exact hw.outputs
  · exact hw.meta_
  · exact hw.inputDrvs
  · exact hw.requiredSystemFeatures
  · exact hw.cacheStatus
  · exact hw.neededBuilds
  · exact hw.neededSubstitutes

/-- Its own member is written after the merge. -/
theorem get_extraValue {response : Response} {drv : Drv} {extraValue : Option Json}
    (hp : response.payload = .job drv extraValue) :
    (response.toFields X).get (lit "extraValue") = extraValue := by
  rw [toFields, hp]
  simp (disch := decide) only [Fields.get_setOpt_self, Fields.get_update,
    drv.get_toFields_eq_none, Fields.get_setOpt_ne, Fields.get_set_ne, Fields.get_nil,
    Option.or_none]

/-- The attribute names of an attribute set are one member. -/
theorem get_attrs {response : Response} {attrs : List Str} (hp : response.payload = .attrs attrs) :
    (response.toFields X).get (lit "attrs") = some (.ofStrings attrs) := by
  rw [toFields, hp]
  exact Fields.get_set_self ..

/-- An error has two members, and does not look like an attribute set. -/
theorem get_error {response : Response} {error : Str} {fatal : Bool}
    (hp : response.payload = .error error fatal) :
    (response.toFields X).get (lit "attrs") = none ∧
      (response.toFields X).get (lit "error") = some (.string error) ∧
      (response.toFields X).get (lit "fatal") = some (.bool fatal) := by
  rw [toFields, hp]
  refine ⟨?_, ?_, ?_⟩ <;>
    simp (disch := decide) only [Fields.get_setOpt_ne, Fields.get_set_ne, Fields.get_set_self,
      Fields.get_nil]

/-- A job is told by its `drvPath`, and nothing else in it looks like another payload. -/
theorem payloadFrom_job {response : Response} {drv : Drv} {extraValue : Option Json}
    (hp : response.payload = .job drv extraValue) :
    payloadFrom X (response.toFields X) =
      (Drv.fromFields X (response.toFields X)).map fun drv => .job drv extraValue := by
  -- the decoder asks for these keys first
  have hother : ∀ key ∈ [lit "attrs", lit "error"], (response.toFields X).get key = none := by
    intro key hkey
    have hdrv : (drv.toFields X).get key = none := by
      refine drv.get_toFields_eq_none ?_
      fin_cases hkey <;> decide
    rw [toFields, hp]
    fin_cases hkey <;>
      simp (disch := decide) only [Fields.get_setOpt_ne, Fields.get_update, hdrv,
        Fields.get_set_ne, Fields.get_nil, Option.or_none]
  rw [payloadFrom, hother _ (by decide), hother _ (by decide), (writtenIn_toFields_job hp).drvPath,
    get_extraValue hp]
  rfl

/-- An attribute set is read back. -/
theorem payloadFrom_attrs {response : Response} {attrs : List Str}
    (hp : response.payload = .attrs attrs) :
    payloadFrom X (response.toFields X) = .ok response.payload := by
  rw [payloadFrom, get_attrs hp, hp]
  change (return Payload.attrs (← (Json.ofStrings attrs).asStrings)) = _
  rw [Json.asStrings_ofStrings]
  rfl

/-- An error is read back. -/
theorem payloadFrom_error {response : Response} {error : Str} {fatal : Bool}
    (hp : response.payload = .error error fatal) :
    payloadFrom X (response.toFields X) = .ok response.payload := by
  obtain ⟨hattrs, herror, hfatal⟩ := get_error (X := X) hp
  rw [payloadFrom, hattrs, herror, hfatal, hp]
  rfl

/-- A job is decoded as far as its derivation is. -/
theorem fromJson_toJson_job {response : Response} {drv : Drv} {extraValue : Option Json}
    (hp : response.payload = .job drv extraValue) :
    fromJson X (response.toJson X) =
      (Drv.fromFields X (response.toFields X)).map fun drv =>
        { response with payload := .job drv extraValue } := by
  rw [toJson, fromJson_of_written (headerWrittenIn_toFields response) (payloadFrom_job hp)]
  cases Drv.fromFields X (response.toFields X) <;> rfl

/-- **Decoding undoes encoding** for every response but a job without outputs. -/
theorem fromJson_toJson {response : Response} (h : response.Encodable X)
    (hOutputs : ¬ response.HasNoOutputs) : fromJson X (response.toJson X) = .ok response := by
  -- the header is the same for all payloads
  have hplain : payloadFrom X (response.toFields X) = .ok response.payload →
      fromJson X (response.toJson X) = .ok response := by
    intro hp
    rw [toJson, fromJson_of_written (headerWrittenIn_toFields response) hp]
    rfl
  cases hp : response.payload with
  -- only a job depends on its derivation
  | job drv extraValue =>
    have hne : drv.outputs ≠ ∅ := fun hc => hOutputs ⟨drv, extraValue, hp, hc⟩
    rw [fromJson_toJson_job hp,
      Drv.fromFields_of_writtenIn (h drv extraValue hp) (writtenIn_toFields_job hp) hne]
    change Except.ok { response with payload := .job drv extraValue } = _
    rw [← hp]
  | attrs attrs => exact hplain (payloadFrom_attrs hp)
  | error error fatal => exact hplain (payloadFrom_error hp)

/-- Whatever is decoded from an encoded response is a response to the same path, of
the same kind; only a derivation may differ. -/
theorem fromJson_toJson_kind {response decoded : Response}
    (h : fromJson X (response.toJson X) = .ok decoded) :
    decoded.attr = response.attr ∧ decoded.attrPath = response.attrPath ∧
      decoded.payload.SameKind response.payload := by
  -- without store paths the round trip is exact
  have hplain : payloadFrom X (response.toFields X) = .ok response.payload →
      decoded = response := by
    intro hp
    rw [toJson, fromJson_of_written (headerWrittenIn_toFields response) hp] at h
    exact (Except.ok.inj h).symm
  cases hp : response.payload with
  | job drv extraValue =>
    rw [fromJson_toJson_job hp] at h
    -- a job is decoded to a job, if at all
    cases hdrv : Drv.fromFields X (response.toFields X) with
    | error e =>
      rw [hdrv] at h
      cases h
    | ok drv' =>
      rw [hdrv] at h
      obtain rfl := Except.ok.inj h
      exact ⟨rfl, rfl, trivial⟩
  | attrs attrs =>
    obtain rfl := hplain (payloadFrom_attrs hp)
    exact ⟨rfl, rfl, by rw [hp]; exact rfl⟩
  | error error fatal =>
    obtain rfl := hplain (payloadFrom_error hp)
    exact ⟨rfl, rfl, by rw [hp]; exact ⟨rfl, rfl⟩⟩

/-- Re-encoding with a cache status keeps every other member. -/
theorem get_toFields_withCache (response : Response) (status : CacheStatus)
    (builds substitutes unknown : List StorePath) {key : Str} (h : key ∉ cacheKeys) :
    ((response.withCache status builds substitutes unknown).toFields X).get key =
      (response.toFields X).get key := by
  rw [withCache]
  cases hp : response.payload with
  | job drv extraValue =>
    rw [toFields, toFields, hp, Fields.get_setOpt, Fields.get_setOpt, Fields.get_update,
      Fields.get_update, Drv.get_toFields_withCache drv h]
  | attrs | error => rfl

/-- **A response round-trips exactly when it is not a job without outputs.** -/
theorem roundTrips_iff {response : Response} (h : response.Encodable X) :
    response.RoundTrips X ↔ ¬ response.HasNoOutputs := by
  constructor
  · -- a job without outputs makes the decoder throw
    rintro ⟨hdecode, -⟩ ⟨drv, extraValue, hp, hOutputs⟩
    rw [fromJson_toJson_job hp,
      Drv.fromFields_of_noOutputs (writtenIn_toFields_job hp) hOutputs] at hdecode
    exact absurd hdecode (by simp [Except.map])
  · -- every other response is read back, and a cache status is merged in last
    intro hOutputs
    exact ⟨fromJson_toJson h hOutputs, fun status builds substitutes unknown _ hkey =>
      get_toFields_withCache response status builds substitutes unknown hkey⟩

/-- The response of a job `hello` with the given outputs. -/
def helloJob (outputs : StdMap Str (Option StorePath)) : Response where
  attr := lit "hello"
  attrPath := [lit "hello"]
  payload := .job
    { name := lit "hello-1.0", storeDir := lit "/nix/store", system := lit "x86_64-linux"
      drvPath := lit "0123456789abcdfghijklmnpqrsvwxyz-hello-1.0.drv", outputs } none

/-- Its paths print and parse as they are. -/
theorem encodable_helloJob (outputs : StdMap Str (Option StorePath)) :
    (helloJob outputs).Encodable StorePaths.plain := by
  intro drv extraValue hp
  obtain ⟨rfl, -⟩ := Payload.job.inj hp
  exact ⟨fun path _ => StorePaths.plain_parse_print _ path, rfl, fun _ => ⟨rfl, rfl⟩⟩

/-- With an output it round-trips. -/
theorem roundTrips_helloJob :
    (helloJob (Std.ExtTreeMap.ofList
      [(lit "out", some (lit "zyxwvsrqpnmlkjihgfdcba9876543210-hello-1.0"))])).RoundTrips
      StorePaths.plain := by
  refine (roundTrips_iff (encodable_helloJob _)).mpr ?_
  rintro ⟨drv, extraValue, hp, hOutputs⟩
  obtain ⟨rfl, -⟩ := Payload.job.inj hp
  exact absurd hOutputs (by decide)

/-- Its `"outputs"` is `null`, and the decoder throws. -/
theorem not_roundTrips_noOutputs :
    (helloJob ∅).Encodable StorePaths.plain ∧
      fromJson StorePaths.plain ((helloJob ∅).toJson StorePaths.plain) = .error .nixLib ∧
      ¬ (helloJob ∅).RoundTrips StorePaths.plain := by
  have hdecode : fromJson StorePaths.plain ((helloJob ∅).toJson StorePaths.plain) =
      .error .nixLib := by
    rw [fromJson_toJson_job rfl, Drv.fromFields_of_noOutputs (writtenIn_toFields_job rfl) rfl]
    rfl
  refine ⟨encodable_helloJob ∅, hdecode, fun h => ?_⟩
  exact absurd (hdecode.symm.trans h.1) (by simp)

end Response

end NixEvalJobs
