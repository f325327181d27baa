import NixEvalJobs.Response

/-!
# Worker — the evaluator

`Evaluator::select` and `Evaluator::evaluate` on values as far as they look at
them: a graph of attribute sets, which are identified by their `Bindings`, with
derivations and other values as leaves. There are no functions in it, so
`autoCallFunction` gives back its argument.

* `select` — follows a path and refuses to return to an ancestor.
* `collectAttrsForRecursion` — what the collector is told to look at next.
* `answer` — every exception of an evaluation becomes a response.
-/

namespace NixEvalJobs

/-! ## Exceptions of an evaluation -/

/-- `nix::ErrorInfo`, raised by the worker with its format and arguments, or inside
Nix with a text of its own. -/
inductive ErrorInfo where
  | own (format : Str) (args : List Str)
  | nix (text : Str)
  deriving DecidableEq

/-- What leaves an evaluation, as far as `evaluate` tells exceptions apart. -/
inductive Thrown where
  | stackOverflow (info : ErrorInfo)
  | evalError (info : ErrorInfo)
  | exception (what : Str)
  deriving DecidableEq

/-- How errors are rendered. -/
structure Rendering where
  showError : ErrorInfo → Str
  filterANSIEscapes : Str → Str

/-- The catch clauses of `Evaluator::evaluate`. -/
def Rendering.answer (R : Rendering) : Except Thrown Payload → Payload
  | .ok payload => payload
  | .error (.stackOverflow info) => .error (R.filterANSIEscapes (R.showError info)) true
  | .error (.evalError info) => .error (R.filterANSIEscapes (R.showError info)) false
  | .error (.exception what) => .error (R.filterANSIEscapes what) false

/-! ## Values -/

/-- A value in weak head normal form; sets are identified by their `Bindings`. -/
inductive Value (ν : Type) where
  | set (bindings : ν)
  | bool (b : Bool)
  | other
  deriving DecidableEq

/-- An evaluated value with everything below it. `package` is what
`processDerivation` makes of a set in which `getDerivation` finds a derivation;
`typeError` is what `forceAttrs` and `forceBool` say about a value. -/
structure ValueGraph (ν : Type) where
  root : Value ν
  attrs : ν → StdMap Str (Value ν)
  package : ν → Option (Except Thrown (Drv × Option Json))
  typeError : Value ν → Str

namespace ValueGraph

variable {ν : Type} [DecidableEq ν] (G : ValueGraph ν)

/-- The error of a path that comes back to an ancestor. -/
def cycleError : Thrown := .evalError (.own (lit "attribute set contains itself (cycle)") [])

/-- The error of a name that is not there. -/
def missingError (name : Str) : Thrown := .evalError (.own (lit "attribute '%s' missing") [name])

/-- One round of the loop of `select`: the value and its ancestors. -/
def descend : Value ν × List ν → Str → Except Thrown (Value ν × List ν)
  | (.set bindings, ancestors), name =>
    match (G.attrs bindings)[name]? with
    | some next => pure (next, ancestors ++ [bindings])
    | none => throw (missingError name)
  | (v, _), _ => throw (.evalError (.nix (G.typeError v)))

/-- `Evaluator::select`; the ancestors are looked at once, at the end of the path. -/
def select (path : AttrPath) : Except Thrown (Value ν) := do
  let (v, ancestors) ← path.foldlM G.descend (G.root, [])
  match v with
  -- `std::find` among the ancestors
  | .set bindings => if bindings ∈ ancestors then throw cycleError else pure v
  | _ => pure v

/-- Whether `collectAttrsForRecursion` returns the names: always for the root and
with `--force-recurse`, unless `recurseForDerivations` says otherwise. -/
def recurses (forceRecurse : Bool) (bindings : ν) (path : AttrPath) : Except Thrown Bool :=
  (G.attrs bindings).toList.foldlM (fun recurse (name, value) =>
    if forceRecurse = false ∧ name = lit "recurseForDerivations" then
      match value with
      | .bool b => pure b
      | v => throw (.evalError (.nix (G.typeError v)))
    else pure recurse) (forceRecurse || path.isEmpty)

/-- `collectAttrsForRecursion`: the names of the set, or none. -/
def collectAttrsForRecursion (forceRecurse : Bool) (bindings : ν) (path : AttrPath) :
    Except Thrown (List Str) := do
  let recurse ← G.recurses forceRecurse bindings path
  return if recurse then (G.attrs bindings).keys else []

/-- `processDerivation`, which answers with a job or with the names. -/
def processDerivation (forceRecurse : Bool) (bindings : ν) (path : AttrPath) :
    Except Thrown Payload :=
  match G.package bindings with
  | none => do
    let attrs ← G.collectAttrsForRecursion forceRecurse bindings path
    return .attrs attrs
  | some job => do
    let (drv, extraValue) ← job
    return .job drv extraValue

/-- The body of the `try` block of `Evaluator::evaluate`. -/
def tryEvaluate (forceRecurse : Bool) (path : AttrPath) : Except Thrown Payload := do
  match ← G.select path with
  | .set bindings => G.processDerivation forceRecurse bindings path
  | _ => return .attrs [] -- not buildable, ignore

/-- `Evaluator::evaluate`. -/
def evaluate (R : Rendering) (forceRecurse : Bool) (path : AttrPath) : Payload :=
  R.answer (G.tryEvaluate forceRecurse path)

end ValueGraph

end NixEvalJobs
