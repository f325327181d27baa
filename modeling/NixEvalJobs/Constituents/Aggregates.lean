import NixEvalJobs.Derivation
import NixEvalJobs.Json

/-!
# Aggregates — resolving and rewriting constituents

After the evaluation, the jobs that name other jobs as constituents
(`constituents.cc`): the names and patterns are resolved against the `JobMap`, the
aggregates are sorted so that an aggregate comes after the ones it names, and
each is rewritten: its constituents become inputs of its derivation, or what is
broken about them becomes its error.

The store is what it holds of derivations; garbage collector roots and log
messages are left out.
-/

namespace NixEvalJobs

/-! ## JSON members -/

namespace Json

/-- `find(key)`. -/
def find (json : Json) (key : Str) : Option Json :=
  match json with
  | .object fields => Fields.get fields key
  | _ => none

/-- Reading `json[key]`; a missing member is null. -/
def member (json : Json) (key : Str) : Except Error Json :=
  match json with
  | .object fields => pure ((Fields.get fields key).getD .null)
  | .null => pure .null
  | _ => throw .json

/-- Reading `json[key]` of a const value; a missing member is undefined. -/
def constMember (json : Json) (key : Str) : Except Error Json :=
  match json with
  | .object fields =>
    match Fields.get fields key with
    | some value => pure value
    | none => throw (.undefined .missingKey)
  | _ => throw .json

/-- `json[key] = value`. -/
def assign (json : Json) (key : Str) (value : Json) : Except Error Json :=
  match json with
  | .object fields => pure (.object (Fields.set fields key value))
  | .null => pure (.object (Fields.set [] key value))
  | _ => throw .json

/-- `json.push_back(value)`. -/
def pushBack (json value : Json) : Except Error Json :=
  match json with
  | .array elems => pure (.array (elems ++ [value]))
  | .null => pure (.array [value])
  | _ => throw .json

/-- `json.erase(key)`. -/
def eraseKey (json : Json) (key : Str) : Except Error Json :=
  match json with
  | .object fields => pure (.object (Fields.erase fields key))
  | _ => throw .json

/-- What a loop over a value visits; it is `empty()` when this is. -/
def elements : Json → List Json
  | .array elems => elems
  | .object fields => fields.map Prod.snd
  | .null => []
  | value => [value]

/-- `json.value<bool>(key, false)`. -/
def boolValue (json : Json) (key : Str) : Except Error Bool :=
  match json with
  | .object fields =>
    match Fields.get fields key with
    | some (.bool b) => pure b
    | some _ => throw .json
    | none => pure false
  | _ => throw .json

end Json

/-! ## Data -/

/-- `AggregateJob`; what is broken is kept in an unordered map. -/
structure AggregateJob where
  name : Str
  dependencies : StdSet Str
  brokenJobs : StdMap Str Str

structure DependencyCycle where
  a : Str
  b : Str
  remainingAggregates : StdSet Str

abbrev JobMap := StdMap Str Json

/-- The derivations of the eval store. -/
abbrev DrvStore := StdMap StorePath Derivation

/-- The libraries `constituents.cc` calls. -/
structure AggregateLibs where
  /-- `fnmatch(pattern, string, 0) == 0`. -/
  fnmatch : Str → Str → Bool
  printStorePath : StorePath → Str
  parseStorePath : Str → Option StorePath
  dump : Json → Option Str
  fillInOutputPaths : DrvStore → Derivation → Option Derivation
  writeDerivation : DrvStore → Derivation → Option (StorePath × DrvStore)
  /-- The order in which an unordered map is traversed. -/
  traverse : StdMap Str Str → List (Str × Str)

namespace Aggregates

/-! ## Topological sort -/

structure TopoState where
  sorted : List AggregateJob := []
  visited : StdSet Str := ∅
  parents : StdSet Str := ∅

/-- What leaves `topoSort` as an exception. -/
inductive TopoError where
  | cycle (cycle : DependencyCycle)
  | other (e : Error)

/-- A set of aggregates is ordered by name, so it is a map from names, and so is
`dictIdentToObject`. Each call on the stack is for another of them. -/
def dfsVisit (items : StdMap Str AggregateJob) : Nat → Str → Option Str → TopoState →
    Except TopoError TopoState
  | 0, _, _, _ => throw (.other .outOfFuel)
  | fuel + 1, path, parent, s =>
    if s.parents.contains path then
      match parent with
      | none => throw (.other (.undefined .nullParent))
      | some parent => throw (.cycle
          { a := path, b := parent,
            remainingAggregates := .ofList ((items.erase path).erase parent).keys })
    else if s.visited.contains path then pure s
    else do
      let s := { s with visited := s.visited.insert path, parents := s.parents.insert path }
      -- `dictIdentToObject[path]` is there for every path that is visited
      let item := (items[path]?).getD ⟨[], ∅, ∅⟩
      let s ← item.dependencies.toList.foldlM (fun s ref =>
        -- don't traverse into items that don't exist in the starting set
        if ref ≠ path ∧ items.contains ref then dfsVisit items fuel ref (some path) s
        else pure s) s
      pure { s with sorted := s.sorted ++ [item], parents := s.parents.erase path }

def topoSort (items : StdMap Str AggregateJob) : Except TopoError (List AggregateJob) := do
  let s ← items.keys.foldlM (fun s key => dfsVisit items (items.size + 1) key none s) {}
  return s.sorted

/-! ## Resolving -/

variable (L : AggregateLibs)

/-- `isBroken`, which notes the error of a broken job. -/
def isBroken (brokenJobs : StdMap Str Str) (childJobName : Str) (job : Json) :
    Except Error (Bool × StdMap Str Str) :=
  match job.find (lit "error") with
  | some error => do
    return (true, brokenJobs.insert childJobName (← error.asString))
  | none => return (false, brokenJobs)

/-- The aggregate that is being put together. -/
structure Resolving where
  results : StdSet Str := ∅
  brokenJobs : StdMap Str Str := ∅

/-- The loop body of `insertMatchingConstituents`; the flag is `expansionFound`. -/
def insertMatching (childJobName jobName : Str) (state : Bool × Resolving) (entry : Str × Json) :
    Except Error (Bool × Resolving) :=
  let (expansionFound, r) := state
  -- never select the job itself as constituent
  if entry.1 = jobName then return (expansionFound, r)
  else if L.fnmatch childJobName entry.1 then do
    let (broken, brokenJobs) ← isBroken r.brokenJobs entry.1 entry.2
    if broken then return (expansionFound, { r with brokenJobs })
    else return (true, { r with results := r.results.insert entry.1, brokenJobs })
  else return (expansionFound, r)

def insertMatchingConstituents (childJobName jobName : Str) (jobs : JobMap) (r : Resolving) :
    Except Error (Bool × Resolving) :=
  jobs.toList.foldlM (insertMatching L childJobName jobName) (false, r)

/-- The loop body of `resolveNamedConstituents` over the names of one aggregate. -/
def resolveChild (jobs : JobMap) (jobName : Str) (globConstituents : Bool) (r : Resolving)
    (child : Json) : Except Error Resolving := do
  let childJobName ← child.asString
  match jobs[childJobName]? with
  | none =>
    if !globConstituents then
      return { r with brokenJobs := r.brokenJobs.insert childJobName (lit "does not exist") }
    else
      let (expansionFound, r) ← insertMatchingConstituents L childJobName jobName jobs r
      let noMatches := lit "constituent glob pattern had no matches"
      if expansionFound then return r
      else return { r with brokenJobs := r.brokenJobs.insert childJobName noMatches }
  | some job =>
    let (broken, brokenJobs) ← isBroken r.brokenJobs childJobName job
    if broken then return { r with brokenJobs }
    else return { r with results := r.results.insert childJobName, brokenJobs }

/-- The names and patterns of an aggregate. -/
def namedConstituents (job : Json) : List Json :=
  match job.find (lit "namedConstituents") with
  | some named => named.elements
  | none => []

def resolveAggregate (jobs : JobMap) (jobName : Str) (job : Json) :
    Except Error AggregateJob := do
  let globConstituents ← job.boolValue (lit "globConstituents")
  let r ← (namedConstituents job).foldlM (resolveChild L jobs jobName globConstituents) {}
  return { name := jobName, dependencies := r.results, brokenJobs := r.brokenJobs }

/-- The loop body of `resolveNamedConstituents` over the jobs. -/
def collectAggregate (jobs : JobMap) (aggregateJobs : StdMap Str AggregateJob)
    (entry : Str × Json) : Except Error (StdMap Str AggregateJob) :=
  if (namedConstituents entry.2).isEmpty then return aggregateJobs
  else do
    let aggregateJob ← resolveAggregate L jobs entry.1 entry.2
    return aggregateJobs.insertIfNew entry.1 aggregateJob

def collectAggregates (jobs : JobMap) : Except Error (StdMap Str AggregateJob) :=
  jobs.toList.foldlM (collectAggregate L jobs) ∅

/-- `resolveNamedConstituents`: the sorted aggregates, or a cycle among them. -/
def resolveNamedConstituents (jobs : JobMap) :
    Except Error (DependencyCycle ⊕ List AggregateJob) := do
  let aggregateJobs ← collectAggregates L jobs
  match topoSort aggregateJobs with
  | .ok sorted => return .inr sorted
  | .error (.cycle cycle) => return .inl cycle
  | .error (.other e) => throw e

/-! ## Rewriting -/

/-- The derivation of a job that is a constituent. -/
def constituentDrv (jobs : JobMap) (store : DrvStore) (childJobName : Str) :
    Except Error (StorePath × Derivation) :=
  match jobs[childJobName]? with
  | none => throw (.undefined .missingKey)
  | some child => do
    let drvPath ← (← child.constMember (lit "drvPath")).asString
    match L.parseStorePath drvPath with
    | none => throw .nixLib
    | some childDrvPath =>
      match store[childDrvPath]? with
      | none => throw .nixLib
      | some childDrv => return (childDrvPath, childDrv)

/-- The loop body of `addConstituents`. -/
def addConstituent (jobs : JobMap) (store : DrvStore) (state : Json × Derivation)
    (childJobName : Str) : Except Error (Json × Derivation) := do
  let (job, drv) := state
  let (childDrvPath, childDrv) ← constituentDrv L jobs store childJobName
  let constituents ← (← job.member (lit "constituents")).pushBack
    (.string (L.printStorePath childDrvPath))
  let job ← job.assign (lit "constituents") constituents
  match childDrv.outputs.keys.head? with
  | none => throw (.undefined .beginOfEmpty)
  | some first =>
    return (job, { drv with
      inputDrvs := drv.inputDrvs.insert childDrvPath ((∅ : StdSet Str).insert first) })

def addConstituents (job : Json) (drv : Derivation) (dependencies : StdSet Str) (jobs : JobMap)
    (store : DrvStore) : Except Error (Json × Derivation) :=
  dependencies.toList.foldlM (addConstituent L jobs store) (job, drv)

/-- Outputs are reset so that `fillInOutputPaths` recomputes them. -/
def resetOutputs (drv : Derivation) : Derivation :=
  drv.outputs.toList.foldl (fun drv e =>
    match e.2 with
    | .inputAddressed _ =>
      { drv with outputs := drv.outputs.insert e.1 .deferred, env := drv.env.insert e.1 [] }
    | _ => drv) drv

/-- `job["outputs"][name] = drv.env.at(name)`. -/
def setOutput (env : StdMap Str Str) (job : Json) (name : Str) : Except Error Json := do
  match env[name]? with
  | none => throw .outOfRange
  | some path =>
    job.assign (lit "outputs") (← (← job.member (lit "outputs")).assign name (.string path))

def rewriteAndRegisterDrv (job : Json) (drv : Derivation) (drvPath : StorePath)
    (store : DrvStore) : Except Error (Json × DrvStore) :=
  match L.fillInOutputPaths store (resetOutputs drv) with
  | none => throw .nixLib
  | some drv =>
    match L.writeDerivation store drv with
    | none => throw .nixLib
    | some (newDrvPath, store) => do
      if newDrvPath = drvPath then return (job, store)
      else
        let job ← job.assign (lit "drvPath") (.string (L.printStorePath newDrvPath))
        return (← drv.outputs.keys.foldlM (setOutput drv.env) job, store)

def brokenJobsError (brokenJobs : StdMap Str Str) : Str :=
  (L.traverse brokenJobs).flatMap fun e => e.1 ++ lit ": " ++ e.2 ++ lit "\n"

def addBrokenJobsError (job : Json) (brokenJobs : StdMap Str Str) : Except Error Json :=
  job.assign (lit "error") (.string (brokenJobsError L brokenJobs))

/-- What `rewriteAggregates` changes: the map, the store and the printed lines, each
kept as the name of its aggregate and the value that was dumped. -/
structure Rewriting where
  jobs : JobMap
  store : DrvStore
  printed : List (Str × Json) := []

/-- The loop body of `rewriteAggregates`. -/
def rewriteAggregate (r : Rewriting) (aggregateJob : AggregateJob) : Except Error Rewriting :=
  match r.jobs[aggregateJob.name]? with
  | none => throw (.undefined .missingKey)
  | some job => do
    let drvPathS ← (← job.member (lit "drvPath")).asString
    match L.parseStorePath drvPathS with
    | none => throw .nixLib
    | some drvPath =>
      match r.store[drvPath]? with
      | none => throw .nixLib
      | some drv => do
        let (job, store) ←
          if aggregateJob.brokenJobs.isEmpty then do
            let (job, drv) ← addConstituents L job drv aggregateJob.dependencies r.jobs r.store
            rewriteAndRegisterDrv L job drv drvPath r.store
          else pure (job, r.store)
        let job ← job.eraseKey (lit "namedConstituents")
        let job ←
          if aggregateJob.brokenJobs.isEmpty then pure job
          else addBrokenJobsError L job aggregateJob.brokenJobs
        match L.dump job with
        | none => throw .json
        | some _ => return {
            jobs := r.jobs.insert aggregateJob.name job
            store
            printed := r.printed ++ [(aggregateJob.name, job)] }

def rewriteAggregates (jobs : JobMap) (aggregateJobs : List AggregateJob) (store : DrvStore) :
    Except Error Rewriting :=
  aggregateJobs.foldlM (rewriteAggregate L) { jobs, store }

end Aggregates

end NixEvalJobs
