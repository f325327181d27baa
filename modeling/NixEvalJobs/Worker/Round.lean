import NixEvalJobs.ResponseTexts
import NixEvalJobs.Scheduler.Handlers
import NixEvalJobs.Worker.Evaluator

/-!
# Worker — one round with the collector

`processJobRequest` asks for a path, evaluates it and writes one line back.
`evaluate` turns every exception of an evaluation into a response, but the response
is put together and printed outside of it, from strings of the error, the names of
attributes, the derivation and the log. `dump` throws on a string that is not UTF-8,
and the exception of nlohmann is no `nix::Error`: `runWorker` does not catch it, the
worker exits with code 1, and the collector gives up.

* `contained_iff` — when one attribute's evaluation stays on that attribute.
* `uncontained_aborts` — what happens otherwise.
-/

namespace NixEvalJobs

/-! ## The log of an evaluation (`eval-log.cc`) -/

/-- A message on its way through `nix::logger`. -/
inductive LogCall where
  | log (msg : Str)
  | logEI (isWarning : Bool) (msg : Str)
  | warn (msg : Str)

/-- What was captured since it was last taken. -/
structure Logs where
  warnings : List Str := []
  traces : List Str := []

/-- `TRACE_PREFIX`. -/
def tracePrefix : Str := lit "trace: "

namespace EvalLogCapture

/-- `EvalLogCapture::log`, `logEI` and `warn`. -/
def call (R : Rendering) (logs : Logs) : LogCall → Logs
  | .log msg =>
    let plain := R.filterANSIEscapes msg
    if tracePrefix.isPrefixOf plain then
      { logs with traces := logs.traces ++ [plain.drop tracePrefix.length] }
    else logs
  | .logEI isWarning msg =>
    if isWarning then { logs with warnings := logs.warnings ++ [R.filterANSIEscapes msg] }
    else logs
  | .warn msg => { logs with warnings := logs.warnings ++ [R.filterANSIEscapes msg] }

/-- `EvalLogCapture::take`: what was captured, and the empty capture. -/
def take (logs : Logs) : Logs × Logs := (logs, {})

end EvalLogCapture

/-- What a message adds to the response. -/
def LogCall.captured (R : Rendering) : LogCall → Option Str
  | .log msg =>
    if tracePrefix.isPrefixOf (R.filterANSIEscapes msg) then
      some ((R.filterANSIEscapes msg).drop tracePrefix.length)
    else none
  | .logEI isWarning msg => if isWarning then some (R.filterANSIEscapes msg) else none
  | .warn msg => some (R.filterANSIEscapes msg)

/-! ## The round -/

/-- What the evaluation of a path does: its result or exception, the messages it
logs, and what it costs. -/
structure Evaluation where
  outcome : Except Thrown Payload
  calls : List LogCall
  stats : Stats

/-- What the collector and the operating system do in a round. -/
structure RoundIO where
  nextSent : Bool
  line : Option Str
  answerSent : Bool
  shouldRestart : Bool

/-- How a round ends. -/
inductive Next where
  | job
  | exit
  | restart
  deriving DecidableEq

namespace Evaluator

variable (X : Externals) (R : Rendering)

/-- The path of a command line. -/
def pathFrom (line : Str) : Except Error AttrPath :=
  if msgDo.isPrefixOf line then
    match X.parse (line.drop msgDo.length) with
    | none => throw .json
    | some (.array elems) => (Json.array elems).asStrings
    | some _ => throw (.nix (lit "worker received invalid attribute path '%s'") [line])
  else throw (.nix (lit "worker received invalid command '%s'") [line])

/-- The response for a path; `noise` was logged between jobs. -/
def respond (noise : Logs) (path : AttrPath) (evaluation : Evaluation) : Response :=
  let logs := evaluation.calls.foldl (EvalLogCapture.call R) (EvalLogCapture.take noise).2
  { attr := joinAttrPath path
    attrPath := path
    payload := R.answer evaluation.outcome
    warnings := (EvalLogCapture.take logs).1.warnings
    traces := (EvalLogCapture.take logs).1.traces
    stats := some evaluation.stats }

/-- The line that answers a command line. -/
def answerLine (evaluate : AttrPath → Evaluation) (noise : Logs) (line : Str) :
    Except Error Str := do
  let path ← pathFrom X line
  match X.dump ((respond R noise path (evaluate path)).toJson X.toStorePaths) with
  | some text => return text
  | none => throw .json

/-- `processJobRequest`: the lines it writes, and how it ends. -/
def processJobRequest (evaluate : AttrPath → Evaluation) (noise : Logs) (io : RoundIO) :
    List Str × Except Error Next :=
  if io.nextSent = false then ([], .ok .exit)
  else
    match io.line with
    | none => ([msgNext], .ok .exit)
    | some line =>
      if line = msgExit then ([msgNext], .ok .exit)
      else
        match answerLine X R evaluate noise line with
        -- nothing is written for the path
        | .error e => ([msgNext], .error e)
        | .ok answer =>
          if io.answerSent = false then ([msgNext], .ok .exit)
          else ([msgNext, answer], .ok (if io.shouldRestart then .restart else .job))

/-- Whether an exception is a `nix::Error`. -/
def isNixError : Error → Bool
  | .nix _ _ | .nixLib => true
  | _ => false

/-- `runWorker` after an exception left `worker`: what it still writes, and how the
process ends. `nix::handleExceptions` makes exit code 1 of what is not caught. -/
def leaveWorker (msg : Error → Str) (e : Error) : List Str × ExitStatus :=
  if isNixError e then
    match X.dump
        (.object (Fields.set [] (lit "error") (.string (R.filterANSIEscapes (msg e))))) with
    | some line => ([line, msgRestart], .exited 0)
    | none => ([], .exited 1)
  else ([], .exited 1)

/-! ## Containment -/

/-- One complete response line is written for `path`, and the worker does not end
with exit code 1. -/
structure Contained (msg : Error → Str) (path : AttrPath) (round : List Str × Except Error Next) :
    Prop where
  answered : ∃ (response : Response) (line : Str), response.attr = joinAttrPath path ∧
    response.attrPath = path ∧ X.dump (response.toJson X.toStorePaths) = some line ∧
    round.1 = [msgNext, line]
  noException : ∀ e, round.2 ≠ .error e
  survives : ∀ e, round.2 = .error e → (leaveWorker X R msg e).2 ≠ .exited 1

/-- The collector sends a path and reads the answer. -/
def served (text : Str) (shouldRestart : Bool) : RoundIO where
  nextSent := true
  line := some (msgDo ++ text)
  answerSent := true
  shouldRestart

/-- The strings an evaluation puts into its response are UTF-8: those of its payload
or its error, and those of the warnings and traces. -/
structure Utf8Evaluation (evaluation : Evaluation) : Prop where
  payload : (R.answer evaluation.outcome).Utf8Texts X.toStorePaths
  log : ∀ call ∈ evaluation.calls, ∀ text ∈ call.captured R, Utf8 text

variable {X R}

/-- The capture holds what the messages add to it. -/
theorem captured_foldl (calls : List LogCall) (logs : Logs) :
    ((∀ text ∈ (calls.foldl (EvalLogCapture.call R) logs).warnings, Utf8 text) ∧
      ∀ text ∈ (calls.foldl (EvalLogCapture.call R) logs).traces, Utf8 text) ↔
    ((∀ text ∈ logs.warnings, Utf8 text) ∧ ∀ text ∈ logs.traces, Utf8 text) ∧
      ∀ call ∈ calls, ∀ text ∈ call.captured R, Utf8 text := by
  -- message by message
  induction calls generalizing logs with
  | nil => simp
  | cons c calls ih =>
    rw [List.foldl_cons, ih, List.forall_mem_cons, ← and_assoc]
    refine and_congr_left fun _ => ?_
    match c with
    | .log msg =>
      unfold EvalLogCapture.call LogCall.captured
      dsimp only
      split
      · simp [or_imp, forall_and, and_assoc]
      · simp
    | .logEI isWarning msg =>
      cases isWarning with
      | true => simp [EvalLogCapture.call, LogCall.captured, or_imp, forall_and, and_right_comm]
      | false => simp [EvalLogCapture.call, LogCall.captured]
    | .warn msg => simp [EvalLogCapture.call, LogCall.captured, or_imp, forall_and, and_right_comm]

/-- The path that was sent is read. -/
theorem pathFrom_served {path : AttrPath} {text : Str}
    (hparse : X.parse text = some (.ofStrings path)) :
    pathFrom X (msgDo ++ text) = .ok path := by
  have hpre : msgDo.isPrefixOf (msgDo ++ text) = true := by
    rw [List.isPrefixOf_iff_prefix]
    exact List.prefix_append _ _
  unfold pathFrom
  rw [if_pos hpre, List.drop_left, hparse]
  exact Json.asStrings_ofStrings path

/-- A served round, by whether its response can be printed. -/
theorem round_served {path : AttrPath} {text : Str} (hparse : X.parse text = some (.ofStrings path))
    (evaluate : AttrPath → Evaluation) (noise : Logs) (shouldRestart : Bool) :
    processJobRequest X R evaluate noise (served text shouldRestart) =
      match X.dump ((respond R noise path (evaluate path)).toJson X.toStorePaths) with
      | some line => ([msgNext, line], .ok (if shouldRestart then .restart else .job))
      | none => ([msgNext], .error .json) := by
  -- `do` is not the beginning of `exit`
  have hexit : msgDo ++ text ≠ msgExit := by
    intro hc
    have hhead := congrArg List.head? hc
    exact absurd hhead (by simp [msgDo, msgExit, lit])
  unfold processJobRequest served answerLine
  dsimp only
  rw [if_neg (by decide), if_neg hexit, pathFrom_served hparse]
  dsimp only [bind, Except.bind]
  cases X.dump ((respond R noise path (evaluate path)).toJson X.toStorePaths) with
  | none => rfl
  | some line => rfl

/-- The response prints exactly when the evaluation puts only UTF-8 into it. -/
theorem dump_respond_iff (hdump : X.DumpsUtf8) (hprint : X.PrintsInjective) {path : AttrPath}
    (hpath : ∀ name ∈ path, Utf8 name) (noise : Logs) (evaluation : Evaluation) :
    (X.dump ((respond R noise path evaluation).toJson X.toStorePaths)).isSome = true ↔
      Utf8Evaluation X R evaluation := by
  rw [hdump]
  refine (Response.utf8_iff hprint _).trans ?_
  -- what was captured is what the messages add
  have hlogs := captured_foldl (R := R) evaluation.calls {}
  constructor
  · rintro ⟨-, -, hpayload, hwarnings, htraces⟩
    exact ⟨hpayload, (hlogs.mp ⟨hwarnings, htraces⟩).2⟩
  · rintro ⟨hpayload, hlog⟩
    obtain ⟨hwarnings, htraces⟩ := hlogs.mpr ⟨⟨by simp, by simp⟩, hlog⟩
    exact ⟨utf8_joinAttrPath hpath, hpath, hpayload, hwarnings, htraces⟩

/-- **One attribute's failure stays on that attribute exactly when all its strings
are UTF-8.** A round that is served a path writes one response line for it and goes
on, whatever the evaluation does, if and only if the payload, the error text, the
warnings and the traces it ends with are UTF-8. -/
theorem contained_iff (hdump : X.DumpsUtf8) (hprint : X.PrintsInjective) {path : AttrPath}
    {text : Str} (htext : X.dump (.ofStrings path) = some text)
    (hparse : X.parse text = some (.ofStrings path)) (evaluate : AttrPath → Evaluation)
    (noise : Logs) (msg : Error → Str) (shouldRestart : Bool) :
    Contained X R msg path (processJobRequest X R evaluate noise (served text shouldRestart)) ↔
      Utf8Evaluation X R (evaluate path) := by
  -- the collector could print the path
  have hpath : ∀ name ∈ path, Utf8 name := by
    have hprinted := (hdump (.ofStrings path)).mp (by rw [htext]; rfl)
    rwa [Json.strings_ofStrings] at hprinted
  rw [← dump_respond_iff hdump hprint hpath noise, round_served hparse]
  cases hline : X.dump ((respond R noise path (evaluate path)).toJson X.toStorePaths) with
  -- the exception of nlohmann leaves the round
  | none =>
    refine ⟨fun h => absurd rfl (h.noException .json), fun h => ?_⟩
    exact absurd h (by decide)
  | some line =>
    refine ⟨fun _ => rfl, fun _ => ⟨⟨_, line, rfl, rfl, hline, rfl⟩, by simp, ?_⟩⟩
    intro e he
    cases he

/-- Otherwise the path gets no line, the worker exits with code 1, and the collector
stops with an exception when it reads the end of the pipe. -/
theorem uncontained_aborts (hdump : X.DumpsUtf8) (hprint : X.PrintsInjective) {path : AttrPath}
    {text : Str} (hpath : ∀ name ∈ path, Utf8 name) (hparse : X.parse text = some (.ofStrings path))
    {evaluate : AttrPath → Evaluation} (h : ¬Utf8Evaluation X R (evaluate path)) (noise : Logs)
    (msg : Error → Str) (shouldRestart : Bool) :
    processJobRequest X R evaluate noise (served text shouldRestart) = ([msgNext], .error .json) ∧
      leaveWorker X R msg .json = ([], .exited 1) ∧
      ∀ doing wait, wait.result = some (.exited 1) → ∃ e, throwExited doing wait = .error e := by
  refine ⟨?_, rfl, fun doing wait hwait => ?_⟩
  · rw [← dump_respond_iff hdump hprint hpath noise, Bool.not_eq_true, Option.isSome_eq_false_iff,
      Option.isNone_iff_eq_none] at h
    rw [round_served hparse, h]
  · -- exit code 1 is not taken for a kill
    unfold throwExited
    rw [hwait]
    exact ⟨_, rfl⟩

/-! ### An attribute name in another encoding -/

/-- The root has one attribute, whose name is the byte `0xFF`. -/
def latinEvaluation (_ : AttrPath) : Evaluation where
  outcome := .ok (.attrs [[0xFF]])
  calls := []
  stats := ⟨0, 0⟩

/-- The root fails with a message and logs a warning. -/
def failingEvaluation (_ : AttrPath) : Evaluation where
  outcome := .error (.evalError (.nix (lit "no such thing")))
  calls := [.warn (lit "deprecated"), .log (lit "trace: here")]
  stats := ⟨0, 0⟩

/-- Errors and messages are shown as they are. -/
def rawRendering : Rendering where
  showError
    | .own format _ => format
    | .nix text => text
  filterANSIEscapes := id

/-- The only line is that of the root. -/
def roundExternals : Externals := Externals.plain [.ofStrings []]

/-- The worker that is sent the root exits with code 1. -/
theorem not_contained_latin :
    ¬Contained roundExternals rawRendering (fun _ => []) []
      (processJobRequest roundExternals rawRendering latinEvaluation {}
        (served (lit "[]") false)) := by
  intro h
  -- nlohmann throws on the name
  refine h.noException .json ?_
  decide +kernel

/-- The failure of the root stays on the root. -/
theorem contained_iff_failing :
    Contained roundExternals rawRendering (fun _ => []) []
      (processJobRequest roundExternals rawRendering failingEvaluation {}
        (served (lit "[]") false)) := by
  have hparse : roundExternals.parse (lit "[]") = some (.ofStrings []) := by
    rw [roundExternals, Externals.plain]
    dsimp only [JsonText.plain]
    rw [List.find?_cons_of_pos (by decide +kernel)]
  refine (contained_iff (JsonText.plain_dumpsUtf8 _) StorePaths.plain_printsInjective
    (by decide +kernel) hparse failingEvaluation {} _ false).mpr ⟨?_, by decide +kernel⟩
  exact (by decide +kernel : Utf8 (lit "no such thing"))

end Evaluator

end NixEvalJobs
