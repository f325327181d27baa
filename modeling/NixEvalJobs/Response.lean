import NixEvalJobs.Json
import NixEvalJobs.AttrPath

/-!
# nix-eval-jobs — worker messages

The typed per-job messages between a worker and the collector, and the
hand-written encoders and decoders that carry them as JSON: `Constituents` and
`Drv` (`drv.cc`), `Response` (`response.cc`). A `Drv` is flattened into the
object of its response, and the decoder finds out which payload it reads from
the keys that are there.
-/

namespace NixEvalJobs

/-! ## Data -/

/-- `Constituents`: what an aggregate names, by store path and by attribute name or pattern. -/
structure Constituents where
  constituents : List Str := []
  namedConstituents : List Str := []
  globConstituents : Bool := false

/-- `Drv::CacheStatus`; `Unknown` is the status of a derivation nobody has looked up. -/
inductive CacheStatus where
  | local_
  | cached
  | notBuilt
  | unknown
  deriving DecidableEq

/-- The fields of a derivation that are printed in JSON form. -/
structure Drv where
  name : Str
  storeDir : Str
  system : Str
  drvPath : StorePath
  outputs : StdMap Str (Option StorePath)
  inputDrvs : Option (StdMap StorePath (StdSet Str)) := none
  requiredSystemFeatures : Option (StdSet Str) := none
  neededBuilds : List StorePath := []
  neededSubstitutes : List StorePath := []
  unknownPaths : List StorePath := []
  cacheStatus : CacheStatus := .unknown
  meta_ : Option Json := none
  constituents : Constituents := {}

/-- `Stats`: what the evaluation of one attribute has cost. -/
structure Stats where
  wallMs : UInt64
  allocBytes : UInt64

/-- The variant in `Response`: a derivation, the names of an attribute set, or an error. -/
inductive Payload where
  | job (drv : Drv) (extraValue : Option Json)
  | attrs (attrs : List Str)
  /-- A `fatal` error ends the whole run. -/
  | error (error : Str) (fatal : Bool)

/-- `Response`: the line a worker writes about one attribute path. -/
structure Response where
  attr : Str
  attrPath : AttrPath
  payload : Payload
  warnings : List Str := []
  traces : List Str := []
  stats : Option Stats := none

/-! ## Encoding -/

/-- `adl_serializer<Constituents>::to_json`. -/
def Constituents.toFields (val : Constituents) : Fields :=
  Fields.set (Fields.set (Fields.set []
    (lit "constituents") (.ofStrings val.constituents))
    (lit "namedConstituents") (.ofStrings val.namedConstituents))
    (lit "globConstituents") (.bool val.globConstituents)

/-- A `json` that starts as null and turns into an object at its first member. -/
def Json.ofMembers : Fields → Json
  | [] => .null
  | fields => .object fields

namespace Drv

variable (X : StorePaths)

/-- `store.printStorePath`, with the store directory of the derivation itself. -/
def printPath (drv : Drv) (path : StorePath) : Json :=
  .string (X.printStorePath drv.storeDir path)

/-- One output; `null` when its path is not known. -/
def outputJson (drv : Drv) : Option StorePath → Json
  | some path => drv.printPath X path
  | none => .null

/-- The `outputs` member; `json outputs;` starts as null. -/
def outputsJson (drv : Drv) : Json :=
  .ofMembers (Fields.ofMap id (drv.outputJson X) drv.outputs)

/-- The `inputDrvs` member; `json::object()` from the start. -/
def inputDrvsJson (drv : Drv) (inputDrvs : StdMap StorePath (StdSet Str)) : Json :=
  .object (Fields.ofMap (X.printStorePath drv.storeDir) .ofStringSet inputDrvs)

/-- The status as printed; `unknown` is not printed. -/
def cacheStatusText : CacheStatus → Str
  | .cached => lit "cached"
  | .local_ => lit "local"
  | _ => lit "notBuilt"

/-- What is printed once the cache status is known. -/
def cacheFields (drv : Drv) : Fields :=
  if drv.cacheStatus = .unknown then []
  else
    -- "isCached" is the deprecated form of "cacheStatus"
    Fields.set (Fields.set (Fields.set (Fields.set []
      (lit "isCached") (.bool (drv.cacheStatus = .cached ∨ drv.cacheStatus = .local_)))
      (lit "cacheStatus") (.string (cacheStatusText drv.cacheStatus)))
      (lit "neededBuilds") (.array (drv.neededBuilds.map (drv.printPath X))))
      (lit "neededSubstitutes") (.array (drv.neededSubstitutes.map (drv.printPath X)))

/-- `adl_serializer<Drv>::to_json`. -/
def toFields (drv : Drv) : Fields :=
  let res := Fields.set (Fields.set (Fields.set (Fields.set (Fields.set []
    (lit "name") (.string drv.name))
    (lit "storeDir") (.string drv.storeDir))
    (lit "system") (.string drv.system))
    (lit "drvPath") (drv.printPath X drv.drvPath))
    (lit "outputs") (drv.outputsJson X)
  let res := res.setOpt (lit "meta") drv.meta_
  let res := res.setOpt (lit "inputDrvs") (drv.inputDrvs.map (drv.inputDrvsJson X))
  let res := res.setOpt (lit "requiredSystemFeatures")
    (drv.requiredSystemFeatures.map .ofStringSet)
  let res := res.update drv.constituents.toFields
  res.update (drv.cacheFields X)

end Drv

/-- `adl_serializer<Stats>::to_json`. -/
def Stats.toJson (stats : Stats) : Json :=
  .object (Fields.set (Fields.set []
    (lit "wallMs") (.unsigned stats.wallMs))
    (lit "allocBytes") (.unsigned stats.allocBytes))

namespace Response

variable (X : StorePaths)

/-- A list that is left out of the object when it is empty. -/
def unlessEmpty (ss : List Str) : Option Json :=
  if ss.isEmpty then none else some (.ofStrings ss)

/-- `adl_serializer<Response>::to_json`. -/
def toFields (response : Response) : Fields :=
  let res := Fields.set (Fields.set []
    (lit "attr") (.string response.attr))
    (lit "attrPath") (.ofStrings response.attrPath)
  let res := res.setOpt (lit "warnings") (unlessEmpty response.warnings)
  let res := res.setOpt (lit "traces") (unlessEmpty response.traces)
  let res := res.setOpt (lit "stats") (response.stats.map Stats.toJson)
  match response.payload with
  | .job drv extraValue =>
    -- the Drv fields are merged at the top level
    (res.update (drv.toFields X)).setOpt (lit "extraValue") extraValue
  | .attrs attrs => res.set (lit "attrs") (.ofStrings attrs)
  | .error error fatal =>
    (res.set (lit "error") (.string error)).set (lit "fatal") (.bool fatal)

/-- A response is always printed as an object. -/
def toJson (response : Response) : Json := .object (response.toFields X)

end Response

/-! ## Decoding -/

/-- `adl_serializer<Constituents>::from_json`. -/
def Constituents.fromFields (json : Fields) : Except Error Constituents := do
  let constituents ← match json.get (lit "constituents") with
    | some value => value.asStrings
    | none => pure []
  let namedConstituents ← match json.get (lit "namedConstituents") with
    | some value => value.asStrings
    | none => pure []
  let globConstituents ← match json.get (lit "globConstituents") with
    | some value => value.getBoolean
    | none => pure false
  return { constituents, namedConstituents, globConstituents }

namespace Drv

variable (X : StorePaths)

/-- `store.parseStorePath` on a string member. -/
def parsePath (storeDir : Str) (value : Json) : Except Error StorePath := do
  X.getStorePath storeDir (← value.getString)

/-- The inverse of `outputJson`. -/
def outputFrom (storeDir : Str) : Json → Except Error (Option StorePath)
  | .null => pure none
  | value => some <$> parsePath X storeDir value

/-- The paths of `neededBuilds` and `neededSubstitutes`; iterating over a value
that is not a container yields nothing or the value itself. -/
def pathsFrom (storeDir : Str) : Option Json → Except Error (List StorePath)
  | some (.array elems) => elems.mapM (parsePath X storeDir)
  | some (.object fields) => fields.mapM fun e => parsePath X storeDir e.2
  | some .null => pure []
  | some value => return [← parsePath X storeDir value]
  | none => pure []

/-- The `inputDrvs` member; it may be missing, but not be anything but an object. -/
def inputDrvsFrom (storeDir : Str) :
    Option Json → Except Error (Option (StdMap StorePath (StdSet Str)))
  | some inputDrvsJson => do
    some <$> (← inputDrvsJson.getObject).toMap (X.getStorePath storeDir) Json.asStringSet
  | none => pure none

/-- The `requiredSystemFeatures` member. -/
def featuresFrom : Option Json → Except Error (Option (StdSet Str))
  | some rsf => some <$> rsf.asStringSet
  | none => pure none

/-- Every text that is neither of the two others is taken for `notBuilt`. -/
def cacheStatusFrom (status : Str) : CacheStatus :=
  if status = lit "cached" then .cached
  else if status = lit "local" then .local_
  else .notBuilt

/-- The cache members; the needed paths are only read next to a status. -/
def readCacheFields (json : Fields) (drv : Drv) : Except Error Drv :=
  match json.get (lit "cacheStatus") with
  | none => pure drv
  | some cacheStatus => do
    let status ← cacheStatus.getString
    let neededBuilds ← pathsFrom X drv.storeDir (json.get (lit "neededBuilds"))
    let neededSubstitutes ← pathsFrom X drv.storeDir (json.get (lit "neededSubstitutes"))
    return { drv with cacheStatus := cacheStatusFrom status, neededBuilds, neededSubstitutes }

/-- `adl_serializer<Drv>::from_json`. -/
def fromFields (json : Fields) : Except Error Drv := do
  let storeDir ← (← Json.valueAt json (lit "storeDir")).getString
  -- `null` in place of an object of outputs throws here
  let outputs ← (← (← Json.valueAt json (lit "outputs")).getObject).toMap .ok
    (outputFrom X storeDir)
  let name ← (← Json.valueAt json (lit "name")).getString
  let system ← (← Json.valueAt json (lit "system")).getString
  let drvPath ← parsePath X storeDir (← Json.valueAt json (lit "drvPath"))
  let inputDrvs ← inputDrvsFrom X storeDir (json.get (lit "inputDrvs"))
  let requiredSystemFeatures ← featuresFrom (json.get (lit "requiredSystemFeatures"))
  let constituents ← Constituents.fromFields json
  readCacheFields X json {
    name, storeDir, system, drvPath, outputs, inputDrvs, requiredSystemFeatures, constituents,
    meta_ := json.get (lit "meta") }

end Drv

namespace Response

variable (X : StorePaths)

/-- The `stringList` lambda of the decoder. -/
def stringList (json : Fields) (key : Str) : Except Error (List Str) :=
  match json.get key with
  | some value => value.asStrings
  | none => pure []

/-- The `stats` member, whose two numbers must be there and unsigned. -/
def statsFrom (json : Fields) : Except Error (Option Stats) :=
  match json.get (lit "stats") with
  | some s => do
    let fields ← s.getObject
    let wallMs ← (← Json.valueAt fields (lit "wallMs")).getUnsigned
    let allocBytes ← (← Json.valueAt fields (lit "allocBytes")).getUnsigned
    return some { wallMs, allocBytes }
  | none => return none

/-- The payload is told by the key that is there, in this order. -/
def payloadFrom (json : Fields) : Except Error Payload :=
  match json.get (lit "attrs") with
  | some attrs => return .attrs (← attrs.asStrings)
  | none =>
    match json.get (lit "error") with
    | some error => do
      let error ← error.getString
      let fatal ← match json.get (lit "fatal") with
        | some fatalJson => fatalJson.getBoolean
        | none => pure false
      return .error error fatal
    | none =>
      match json.get (lit "drvPath") with
      | some _ => return .job (← Drv.fromFields X json) (json.get (lit "extraValue"))
      | none => throw (.invalidArgument
          (lit "Response JSON must contain 'attrs', 'error', or 'drvPath'"))

/-- `adl_serializer<Response>::from_json`. -/
def fromJson (value : Json) : Except Error Response := do
  let json ← value.getObject
  let attr ← (← Json.valueAt json (lit "attr")).getString
  let attrPath ← (← Json.valueAt json (lit "attrPath")).asStrings
  let stats ← statsFrom json
  let payload ← payloadFrom X json
  return {
    attr, attrPath, payload, stats
    warnings := ← stringList json (lit "warnings")
    traces := ← stringList json (lit "traces") }

end Response

/-! ## Decoding uses nothing undefined -/

/-- Decoding constituents never meets undefined behaviour, whatever the object holds. -/
theorem Constituents.defined_fromFields (json : Fields) :
    Defined (Constituents.fromFields json) := by
  rw [Constituents.fromFields]
  -- every member is decoded, or has a default when it is not there
  repeat' first
    | exact defined_ok _
    | exact Json.defined_asStrings _
    | exact Json.defined_getBoolean _
    | refine Defined.bind ?_ fun _ _ => ?_
    | split

namespace Drv

variable (X : StorePaths) (storeDir : Str)

/-- A store path outside the store directory throws. -/
theorem defined_parsePath (value : Json) : Defined (parsePath X storeDir value) :=
  (Json.defined_getString value).bind fun path _ => X.defined_getStorePath storeDir path

/-- An output that is neither `null` nor a string throws. -/
theorem defined_outputFrom (value : Json) : Defined (outputFrom X storeDir value) := by
  rw [outputFrom.eq_def]
  split
  · exact defined_ok _
  · exact (defined_parsePath X storeDir _).map _

/-- Iterating over a value of any kind is defined. -/
theorem defined_pathsFrom (value : Option Json) : Defined (pathsFrom X storeDir value) := by
  rw [pathsFrom.eq_def]
  split
  · exact Defined.mapM fun elem _ => defined_parsePath X storeDir elem
  · exact Defined.mapM fun e _ => defined_parsePath X storeDir e.2
  · exact defined_ok _
  · exact (defined_parsePath X storeDir _).bind fun _ _ => defined_ok _
  · exact defined_ok _

/-- A value that is not an object throws, and so does a member that is not a list. -/
theorem defined_inputDrvsFrom (value : Option Json) :
    Defined (inputDrvsFrom X storeDir value) := by
  rw [inputDrvsFrom.eq_def]
  split
  · refine (Json.defined_getObject _).bind fun fields _ => Defined.map ?_ _
    exact defined_toMap (X.defined_getStorePath storeDir) Json.defined_asStringSet fields
  · exact defined_ok _

/-- A list of anything but strings throws. -/
theorem defined_featuresFrom (value : Option Json) : Defined (featuresFrom value) := by
  rw [featuresFrom.eq_def]
  split
  · exact (Json.defined_asStringSet _).map _
  · exact defined_ok _

/-- The needed paths are only looked at next to a status. -/
theorem defined_readCacheFields (json : Fields) (drv : Drv) :
    Defined (readCacheFields X json drv) := by
  rw [readCacheFields]
  split
  · exact defined_ok _
  · refine (Json.defined_getString _).bind fun _ _ => ?_
    refine (defined_pathsFrom X drv.storeDir _).bind fun _ _ => ?_
    exact (defined_pathsFrom X drv.storeDir _).bind fun _ _ => defined_ok _

/-- Decoding a derivation is defined for every object. -/
theorem defined_fromFields (json : Fields) : Defined (fromFields X json) := by
  -- the members that are plain strings: `at` throws on a missing key, `get` on another kind
  have hstring : ∀ key, Defined (Json.valueAt json key >>= Json.getString) := fun key =>
    (Json.defined_valueAt json key).bind fun value _ => value.defined_getString
  rw [fromFields]
  -- from here on in the order of the decoder
  refine (Json.defined_valueAt json _).bind fun storeDir _ => ?_
  refine storeDir.defined_getString.bind fun storeDir _ => ?_
  refine (Json.defined_valueAt json _).bind fun outputs _ => ?_
  refine outputs.defined_getObject.bind fun outputs _ => ?_
  refine (defined_toMap defined_ok (defined_outputFrom X storeDir) outputs).bind fun _ _ => ?_
  refine (Json.defined_valueAt json _).bind fun name _ => ?_
  refine name.defined_getString.bind fun _ _ => ?_
  refine (Json.defined_valueAt json _).bind fun system _ => ?_
  refine system.defined_getString.bind fun _ _ => ?_
  refine (Json.defined_valueAt json _).bind fun drvPath _ => ?_
  refine (defined_parsePath X storeDir drvPath).bind fun _ _ => ?_
  refine (defined_inputDrvsFrom X storeDir _).bind fun _ _ => ?_
  refine (defined_featuresFrom _).bind fun _ _ => ?_
  refine (Constituents.defined_fromFields json).bind fun _ _ => ?_
  exact defined_readCacheFields X json _

end Drv

namespace Response

variable (X : StorePaths)

/-- A missing list is empty. -/
theorem defined_stringList (json : Fields) (key : Str) : Defined (stringList json key) := by
  rw [stringList]
  split
  · exact Json.defined_asStrings _
  · exact defined_ok _

/-- Statistics without their two numbers throw. -/
theorem defined_statsFrom (json : Fields) : Defined (statsFrom json) := by
  rw [statsFrom]
  split
  · refine (Json.defined_getObject _).bind fun fields _ => ?_
    refine (Json.defined_valueAt fields _).bind fun wallMs _ => ?_
    refine wallMs.defined_getUnsigned.bind fun _ _ => ?_
    refine (Json.defined_valueAt fields _).bind fun allocBytes _ => ?_
    exact allocBytes.defined_getUnsigned.bind fun _ _ => defined_ok _
  · exact defined_ok _

/-- The decoder tries the three keys in turn and throws when it finds none of them. -/
theorem defined_payloadFrom (json : Fields) : Defined (payloadFrom X json) := by
  rw [payloadFrom]
  -- `attrs`, then `error` with or without `fatal`, then `drvPath`
  split
  · exact (Json.defined_asStrings _).bind fun _ _ => defined_ok _
  split
  · refine (Json.defined_getString _).bind fun error _ => ?_
    split
    · exact (Json.defined_getBoolean _).bind fun _ _ => defined_ok _
    · exact defined_ok _
  split
  · exact (Drv.defined_fromFields X json).bind fun _ _ => defined_ok _
  · exact defined_error (by simp)

/-- **Decoding a response is defined for every JSON value**: it gives a response or throws. -/
theorem defined_fromJson (value : Json) : Defined (fromJson X value) := by
  rw [fromJson]
  refine value.defined_getObject.bind fun json _ => ?_
  refine (Json.defined_valueAt json _).bind fun attr _ => ?_
  refine attr.defined_getString.bind fun _ _ => ?_
  refine (Json.defined_valueAt json _).bind fun attrPath _ => ?_
  refine attrPath.defined_asStrings.bind fun _ _ => ?_
  refine (defined_statsFrom json).bind fun _ _ => ?_
  refine (defined_payloadFrom X json).bind fun _ _ => ?_
  refine (defined_stringList json _).bind fun _ _ => ?_
  exact (defined_stringList json _).bind fun _ _ => defined_ok _

end Response

end NixEvalJobs
