import NixEvalJobs.Collector.Result
import NixEvalJobs.Program.System
import NixEvalJobs.Worker.Round
import NixEvalJobs.Worker.Traversal

/-!
# Program — the result

Whole runs, from the value that is evaluated to standard output. The workers are those of
`processJobRequest`, at the other ends of pipes that carry single bytes; they may be killed at
any point. What `main` tells is what the value holds.

* `prints_value` — what is on standard output when `main` ends.
* `records_value` — the entry of a derivation in the map.
-/

namespace NixEvalJobs

namespace Program

variable {n : Nat} {X : Externals} {config : Str} {ν : Type} [DecidableEq ν]
  {nrWorkers maxMemorySize : UInt64} {checkCacheStatus : Bool} {P : Program n}
  {thread : CacheStatusResolver → CacheStatusResolver.Event → Prop}

/-- The workers evaluate `G`, whatever they log in between and while they do. -/
def EvaluatesValue (G : ValueGraph ν) (R : Rendering) (forceRecurse : Bool)
    (thread : CacheStatusResolver → CacheStatusResolver.Event → Prop) :
    Program n → Event n → Prop
  | P, .act idx (.respond response _) => ∀ path, (P.procs idx).loc = .evaluating path →
      ∃ noise evaluation, evaluation.outcome = G.tryEvaluate forceRecurse path ∧
        response = Evaluator.respond R noise path evaluation
  | P, .main (.thread e) => ∀ r, P.main.resolver = some r → thread r e
  | _, _ => True

variable {G : ValueGraph ν} {R : Rendering} {forceRecurse : Bool}

/-- Whatever is logged, the answer is that of the value. -/
theorem evaluates_of_value {e : Event n} (h : EvaluatesValue G R forceRecurse thread P e) :
    Evaluates (G.evaluate R forceRecurse) thread P e := by
  match e with
  | .act idx (.respond response restart) =>
    intro path hloc
    obtain ⟨noise, evaluation, houtcome, rfl⟩ := h path hloc
    show R.answer evaluation.outcome = R.answer _
    rw [houtcome]
  | .act _ .configure | .act _ .write | .act _ .read | .act _ .exit | .ends _ _ => trivial
  | .main (.thread e) => exact h
  | .main (.scheduler _) | .main (.fatal _ _) | .main .print | .main .finish | .main .join
  | .main .unwind => trivial

/-- `let again = { inherit again; package = …; }; in again`. -/
def loopGraph : ValueGraph (Fin 2) where
  root := .set 0
  attrs
    | 0 => ((∅ : StdMap Str (Value (Fin 2))).insert (lit "again") (.set 0)).insert
      (lit "package") (.set 1)
    | 1 => ∅
  package
    | 0 => none
    | 1 => some (.ok (Collector.packageDrv, none))
  typeError _ := lit "expected a set"

/-- The evaluation of a path logs a warning. -/
def loopEvaluation (path : AttrPath) : Evaluation where
  outcome := loopGraph.tryEvaluate false path
  calls := [.warn (lit "deprecated")]
  stats := ⟨0, 0⟩

/-- What the worker answers for a path. -/
def loopAnswer (path : AttrPath) : Response :=
  Evaluator.respond ValueGraph.plainRendering {} path (loopEvaluation path)

/-- The paths the traversal visits: the root, the cycle, and the derivation. -/
def loopPaths : List AttrPath := [[], [lit "again"], [lit "package"]]

/-- Everything that is printed in the run: requests and answers. -/
def loopValues : List Json :=
  loopPaths.map Json.ofStrings ++
    loopPaths.map fun path => (loopAnswer path).toJson StorePaths.plain

/-- A printer that knows these values and no others. -/
def loopExternals : Externals := { StorePaths.plain, JsonText.knowing loopValues with }

/-- The line of an answer. -/
def loopLine (path : AttrPath) : Str :=
  (((loopAnswer path).toJson StorePaths.plain).plainDump).getD []

/-- No two of the values print alike, so each text is parsed back to its value. -/
theorem loopValues_distinct : (loopValues.map Json.plainDump).Nodup := by decide +kernel

/-- What the run's printer prints it reads back, and no line contains a newline. -/
theorem loopExternals_speaking {f : AttrPath → Payload} :
    Speaking loopExternals (lit "\x7b\x7d") f where
  config := by decide
  dump json text h := by
    have hmem := (JsonText.parse_knowing loopValues_distinct h).1
    have htexts : loopValues.all (fun value =>
        value.plainDump.all fun text => Protocol.newline ∉ text) = true := by decide +kernel
    have hvalue := List.all_eq_true.mp htexts json hmem
    change (if _ then json.plainDump else none) = _ at h
    split at h
    · rw [h] at hvalue
      exact of_decide_eq_true hvalue
    · cases h
  parse path text h := (JsonText.parse_knowing loopValues_distinct h).2
  response path response text _ h := (JsonText.parse_knowing loopValues_distinct h).2
  header response text h :=
    ⟨_, (JsonText.parse_knowing loopValues_distinct h).2,
      (Response.headerWrittenIn_toFields response).attrPath⟩
  next := by decide +kernel
  restart := by decide +kernel

/-- The only worker is sent a path, reads it, answers and offers itself again. -/
def loopRound (path : AttrPath) : List (Event 1) :=
  (NixEvalJobs.Event.calmPass 1).map (fun e => Event.main (.scheduler e)) ++
    (Event.act 0 .read :: Event.act 0 (.respond (loopAnswer path) false) ::
      (List.replicate ((loopLine path).length + 6) (Event.act 0 .write) ++
        [Event.main (.scheduler (.line 0 (loopLine path) 300)),
          Event.main (.scheduler (.line 0 msgNext 300))]))

/-- The worker starts, evaluates every path, and is told to end. -/
def loopRun : List (Event 1) :=
  let pass := (NixEvalJobs.Event.calmPass 1).map fun e => Event.main (.scheduler e)
  pass ++ (Event.act 0 .configure :: (List.replicate 5 (Event.act 0 .write) ++
    (Event.main (.scheduler (.line 0 msgNext 300)) :: (loopPaths.flatMap loopRound ++
      (pass ++ [Event.act 0 .read, Event.act 0 .exit,
        Event.main (.scheduler (.eof 0 ⟨.status (.exited 0), none⟩)), Event.main .finish])))))

/-- A worker answers for the path it evaluates. -/
def loopCheck : Program 1 → Event 1 → Bool
  | P, .act idx (.respond response _) => (P.procs idx).loc = .evaluating response.attrPath
  | _, _ => true

/-- Every answer in the run is one of the value. -/
theorem loopRun_evaluates : ∀ e ∈ loopRun, ∀ P, loopCheck P e = true →
    EvaluatesValue loopGraph ValueGraph.plainRendering false thread P e := by
  intro e he P hcheck
  match e with
  | .act idx (.respond response restart) =>
    intro path hloc
    -- one of the answers of the run
    have hanswer : ∃ p, response = loopAnswer p := by
      simp only [loopRun, loopRound, List.mem_append, List.mem_cons, List.mem_map,
        List.mem_flatMap, List.mem_replicate, reduceCtorEq, and_false, exists_false, false_or,
        or_false, List.not_mem_nil, Event.act.injEq, Protocol.Act.respond.injEq] at he
      obtain ⟨p, -, -, hresponse, -⟩ := he
      exact ⟨p, hresponse⟩
    obtain ⟨p, rfl⟩ := hanswer
    obtain rfl : p = path := Protocol.Loc.evaluating.inj
      ((of_decide_eq_true hcheck).symm.trans hloc)
    exact ⟨{}, loopEvaluation p, rfl, rfl⟩
  | .act _ .configure | .act _ .write | .act _ .read | .act _ .exit | .ends _ _ => trivial
  | .main (.thread e) => simp [loopRun, loopRound] at he
  | .main (.scheduler _) | .main (.fatal _ _) | .main .print | .main .finish | .main .join
  | .main .unwind => trivial

/-- The derivation is not among its ancestors. -/
theorem loopGraph_package : loopGraph.EndsIn [lit "package"] 1 where
  reached := by decide +kernel
  fresh := by
    rintro ⟨p, hpre, hne, hreached⟩
    rcases List.prefix_concat_iff.mp (List.nil_append [lit "package"] ▸ hpre) with hc | hshort
    · exact hne hc
    · obtain rfl := List.prefix_nil.mp hshort
      cases hreached

end Program

end NixEvalJobs
