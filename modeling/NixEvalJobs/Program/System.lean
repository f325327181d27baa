import NixEvalJobs.Collector.Invariant
import NixEvalJobs.Collector.Schedule
import NixEvalJobs.Worker.Protocol

/-!
# Program — the collector and its workers

All processes of a run: `main` with the thread of the resolver, and the workers at the other
ends of the pipes. Nothing is assumed of the lines that the collector reads, but only of what
the evaluation of a path gives; a worker may end at any time, with any status.

* `Says` — what a process has on its way to the collector are messages.
* `sound_reachable` — so the collector of the program is one that is answered, and what is
  known of its runs holds of the program.
-/

namespace NixEvalJobs

open Protocol (newline)

/-- `main` and the worker processes, each at its slot. -/
structure Program (n : Nat) where
  main : Collector n
  procs : Fin n → Protocol.Process

namespace Program

inductive Event (n : Nat) where
  | act (idx : Fin n) (a : Protocol.Act)
  | ends (idx : Fin n) (status : ExitStatus)     -- by a signal or an exception
  | main (e : Collector.Event n)

variable {n : Nat} (X : Externals) (config : Str)

/-- The slots and the processes. -/
def joint (P : Program n) : Protocol.State n := ⟨P.main.config, P.procs⟩

def step (P : Program n) : Event n → Option (Program n)
  | .act idx a =>
    (Protocol.step X config P.joint (.act idx a)).map fun j => { P with procs := j.procs }
  | .ends idx status =>
    let p := P.procs idx
    some { P with
      procs := Function.update P.procs idx { p with status := p.status.or (some status) } }
  | .main (.scheduler e) => do
    let j ← Protocol.step X config P.joint (.collector e)
    let main ← P.main.step X (.scheduler e)
    return { main, procs := j.procs }
  | .main (.fatal idx line) =>
    -- nothing is read after this line, so it may as well stay in the pipe
    if Protocol.allows P.joint (.line idx line 0) then
      (P.main.step X (.fatal idx line)).map fun main => { P with main }
    else none
  | .main e => (P.main.step X e).map fun main => { P with main }

def system (nrWorkers maxMemorySize : UInt64) (checkCacheStatus : Bool) :
    System (Program n) (Event n) where
  init := {
    main := (Collector.system X nrWorkers maxMemorySize checkCacheStatus).init
    procs := fun _ => Protocol.Process.spawned config }
  step := step X config

/-- The evaluation of a path gives what `f` says, and the thread's environment is `thread`. -/
def Evaluates (f : AttrPath → Payload)
    (thread : CacheStatusResolver → CacheStatusResolver.Event → Prop) :
    Program n → Event n → Prop
  | P, .act idx (.respond response _) =>
    ∀ path, (P.procs idx).loc = .evaluating path → response.payload = f path
  | P, .main (.thread e) => ∀ r, P.main.resolver = some r → thread r e
  | _, _ => True

/-- What the pipes and the texts rely on: the answers of the evaluations are parsed back from
their texts, whatever is printed keeps its path, and the words of the protocol are no JSON.

Only for answers is it the value itself that comes back. What an evaluation gives was parsed
from text before, and a value that no text is parsed to, such as a signed number that is not
negative, would come back as another one. -/
structure Speaking (f : AttrPath → Payload) : Prop extends Protocol.Framing X config where
  response : ∀ (path : AttrPath) (response : Response) text, response.AnswerTo f path →
    X.dump (response.toJson X.toStorePaths) = some text →
    X.parse text = some (response.toJson X.toStorePaths)
  header : ∀ (response : Response) text, X.dump (response.toJson X.toStorePaths) = some text →
    ∃ fields : Fields, X.parse text = some (.object fields) ∧
      fields.get (lit "attrPath") = some (.ofStrings response.attrPath)
  next : X.parse msgNext = none
  restart : X.parse msgRestart = none

/-! ## Messages -/

/-- A line that a worker writes. -/
inductive Message (X : Externals) (f : AttrPath → Payload) : Str → Prop where
  | next : Message X f msgNext
  | restart : Message X f msgRestart
  | answer {path : AttrPath} {response : Response} {line : Str} : response.AnswerTo f path →
      X.dump (response.toJson X.toStorePaths) = some line → Message X f line

/-- The collector will read messages. -/
def Says (X : Externals) (f : AttrPath → Payload) (p : Protocol.Process) : Prop :=
  ∃ lines : List Str, (∀ line ∈ lines, Message X f line) ∧
    p.unread = lines.flatMap (frame newline)

variable {X} {config} {f : AttrPath → Payload} {p p' : Protocol.Process}

theorem Message.one_line (hX : Protocol.Framing X config) {line : Str} (h : Message X f line) :
    newline ∉ line := by
  cases h with
  | next => exact Protocol.newline_not_mem_msgNext
  | restart => exact Protocol.newline_not_mem_msgRestart
  | answer _ hdump => exact hX.dump _ _ hdump

/-- Nothing is on its way. -/
theorem says_nothing (h : p.unread = []) : Says X f p :=
  ⟨[], fun _ hline => absurd hline List.not_mem_nil, h⟩

theorem Says.same (h : Says X f p) (hunread : p'.unread = p.unread) : Says X f p' := by
  obtain ⟨lines, hlines, hsaid⟩ := h
  exact ⟨lines, hlines, hunread.trans hsaid⟩

/-- One more message. -/
theorem Says.tell (h : Says X f p) {line : Str} (hline : Message X f line)
    (hunread : p'.unread = p.unread ++ frame newline line) : Says X f p' := by
  obtain ⟨lines, hlines, hsaid⟩ := h
  refine ⟨lines ++ [line], List.forall_mem_append.mpr ⟨hlines, by simpa using hline⟩, ?_⟩
  rw [hunread, hsaid, List.flatMap_append, List.flatMap_singleton]

/-- What `worker` writes by itself. -/
theorem Says.goesOn (h : Says X f p) (next : Protocol.Then)
    (hunread : p'.unread = p.unread ++ next.loc.rest) : Says X f p' := by
  cases next with
  | read | exit => exact h.same (hunread.trans (List.append_nil _))
  | offer => exact h.tell .next hunread
  | restart => exact h.tell .restart hunread

theorem unread_of_loc (hloc : p.loc.rest = []) : p.unread = p.output := by
  rw [Protocol.Process.unread, hloc, List.append_nil]

theorem command_rest (line : Str) : (Protocol.Process.command X line).rest = [] := by
  unfold Protocol.Process.command
  split
  · rfl
  · split <;> rfl

/-- **A worker writes messages**, whose answers are what its evaluations give. -/
theorem Says.act {a : Protocol.Act}
    (hevaluates : ∀ response restart path, a = .respond response restart →
      p.loc = .evaluating path → response.payload = f path)
    (h : Says X f p) (hact : p.act X a = some p') : Says X f p' := by
  unfold Protocol.Process.act at hact
  split at hact
  · next hloc =>
    have hunread : p.unread = p.output := unread_of_loc (by rw [hloc]; rfl)
    obtain ⟨e, -, rfl⟩ := Option.map_eq_some_iff.mp hact
    exact h.goesOn .offer (hunread ▸ rfl)
  · next rest next _ hloc =>
    obtain rfl := Option.some.inj hact
    have hunread := Protocol.unread_wrote hloc
    by_cases hlast : rest = []
    · exact h.goesOn next (hunread.trans (by rw [if_pos hlast]))
    · exact h.same (hunread.trans (by rw [if_neg hlast, List.append_nil]))
  · next hloc =>
    have hunread : p.unread = p.output := unread_of_loc (by rw [hloc]; rfl)
    obtain ⟨e, -, rfl⟩ := Option.map_eq_some_iff.mp hact
    exact h.same ((unread_of_loc (command_rest e.1)).trans hunread.symm)
  · next path response restart _ hloc =>
    have hunread : p.unread = p.output := unread_of_loc (by rw [hloc]; rfl)
    split at hact
    · next hresponse =>
      obtain ⟨line, hdump, rfl⟩ := Option.map_eq_some_iff.mp hact
      have hpayload := hevaluates response restart path rfl hloc
      exact h.tell (.answer ⟨hresponse.1, hresponse.2, hpayload⟩ hdump) (hunread ▸ rfl)
    · cases hact
  · obtain rfl := Option.some.inj hact
    exact h.same rfl
  · cases hact

/-- What the collector reads is a message. -/
theorem Says.popped (hX : Protocol.Framing X config) {line : Str} (h : Says X f p)
    (hpop : (popLine newline p.output).map Prod.fst = some line) :
    Message X f line ∧ Says X f p.popped := by
  obtain ⟨lines, hlines, hsaid⟩ := h
  cases lines with
  | nil =>
    have houtput : p.output = [] := (List.append_eq_nil_iff.mp hsaid).1
    exact absurd hpop (Protocol.popLine_quiet houtput)
  | cons first lines =>
    obtain ⟨hfirst, hlater⟩ := List.forall_mem_cons.mp hlines
    rw [List.flatMap_cons] at hsaid
    obtain ⟨rfl, hrest⟩ := Protocol.unread_popped hpop (hfirst.one_line hX) hsaid
    exact ⟨hfirst, lines, hlater, hrest⟩

/-- What the collector does to a process is not on its way back. -/
theorem Says.follow (h : Says X f p) (before after : Worker) :
    Says X f (p.follow X config before after) := by
  unfold Protocol.Process.follow
  split
  · exact says_nothing rfl
  · exact h.same rfl
  · exact h.same rfl
  · exact h

/-- The path that is read from the text of a response. -/
theorem Speaking.attrPath_eq (hX : Speaking X config f) {response response' : Response}
    {line : Str} (hdump : X.dump (response.toJson X.toStorePaths) = some line)
    (hparse : X.parse line = some (response'.toJson X.toStorePaths)) :
    response'.attrPath = response.attrPath := by
  obtain ⟨fields, hfields, hpath⟩ := hX.header _ _ hdump
  have hsame : response'.toFields X.toStorePaths = fields :=
    Json.object.inj (Option.some.inj (hparse.symm.trans hfields))
  have hpath' := (Response.headerWrittenIn_toFields (X := X.toStorePaths) response').attrPath
  rw [hsame, hpath] at hpath'
  have hstrings := congrArg Json.asStrings (Option.some.inj hpath')
  rw [Json.asStrings_ofStrings, Json.asStrings_ofStrings] at hstrings
  exact (Except.ok.inj hstrings).symm

/-- A message that answers for a path is what the evaluation of that path gives. -/
theorem Message.reply (hX : Speaking X config f) {line : Str} {path : AttrPath}
    (h : Message X f line) (hresponse : Protocol.IsResponse X path line) :
    ∃ response : Response, response.AnswerTo f path ∧
      X.parse line = some (response.toJson X.toStorePaths) ∧
      X.dump (response.toJson X.toStorePaths) = some line := by
  obtain ⟨response', hattr, hpath, hdump'⟩ := hresponse
  obtain ⟨fields, hfields, -⟩ := hX.header _ _ hdump'
  cases h with
  | next => cases hX.next.symm.trans hfields
  | restart => cases hX.restart.symm.trans hfields
  | @answer path' response _ hanswer hdump =>
    have hparse := hX.response _ _ _ hanswer hdump
    -- the line is the text of one path, so that is the one that was evaluated
    have hsame := hX.attrPath_eq hdump' hparse
    obtain rfl : path' = path := hanswer.attrPath.symm.trans (hsame.trans hpath)
    exact ⟨response, hanswer, hparse, hdump⟩

/-! ## Runs -/

variable {nrWorkers maxMemorySize : UInt64} {checkCacheStatus : Bool} {P P' : Program n}
  {thread : CacheStatusResolver → CacheStatusResolver.Event → Prop}

/-- **The invariant** of the program: its collector is one whose workers answer with `f`, the
slots are in step with the processes, and these say what their evaluations give. -/
structure Sound (X : Externals) (config : Str) (f : AttrPath → Payload)
    (thread : CacheStatusResolver → CacheStatusResolver.Event → Prop)
    (nrWorkers maxMemorySize : UInt64) (checkCacheStatus : Bool) (P : Program n) : Prop where
  main : (Collector.system X nrWorkers maxMemorySize checkCacheStatus).Reachable
    (Collector.Serves X f thread) P.main
  inStep : Protocol.InStep X config P.joint
  messages : ∀ i, Says X f (P.procs i)

/-- **What the collector reads for a job is the answer to it.** -/
theorem Sound.replies (hX : Speaking X config f)
    (h : Sound X config f thread nrWorkers maxMemorySize checkCacheStatus P)
    {e : NixEvalJobs.Event n} (hallows : Protocol.allows P.joint e = true) :
    Scheduler.Replies X f P.main.config e := by
  cases e with
  | line idx line rss =>
    intro path hbusy hpath
    have hpop := Protocol.allows_line hallows
    have hmessage := ((h.messages idx).popped hX.toFraming hpop).1
    have hagrees := h.inStep.agrees idx
    have hphase : (P.joint.config.sched.workers idx).phase = .busy := hbusy
    unfold Protocol.Agrees at hagrees
    rw [hphase] at hagrees
    obtain ⟨path', hpath', hserving⟩ := hagrees
    obtain rfl : path' = path := Option.some.inj (hpath'.symm.trans hpath)
    exact hmessage.reply hX (hserving.line hX.toFraming hpop).1
  | _ => trivial

theorem Sound.poolOk (hfree : Collector.Free thread)
    (h : Sound X config f thread nrWorkers maxMemorySize checkCacheStatus P) :
    P.main.config.sched.PoolOk :=
  fun i => ((Collector.keeps_reachable hfree h.main).accurate.phases i).ok

/-- A process has taken a step, or has ended. -/
theorem Sound.process (h : Sound X config f thread nrWorkers maxMemorySize checkCacheStatus P)
    {j : Protocol.State n} (hconfig : j.config = P.main.config)
    (hinStep : Protocol.InStep X config j) (hmessages : ∀ i, Says X f (j.procs i)) :
    Sound X config f thread nrWorkers maxMemorySize checkCacheStatus
      { P with procs := j.procs } := by
  refine ⟨h.main, ?_, hmessages⟩
  obtain ⟨c, procs⟩ := j
  obtain rfl : c = P.main.config := hconfig
  exact hinStep

/-- What `main` does besides scheduling does not reach the workers. -/
theorem Sound.other (h : Sound X config f thread nrWorkers maxMemorySize checkCacheStatus P)
    (e : Collector.Event n) (hother : ∀ e', e ≠ .scheduler e')
    (hserves : Collector.Serves X f thread P.main e)
    (hstep : (P.main.step X e).map (fun main => { P with main }) = some P') :
    Sound X config f thread nrWorkers maxMemorySize checkCacheStatus P' := by
  obtain ⟨main, hmain, rfl⟩ := Option.map_eq_some_iff.mp hstep
  obtain ⟨jobs, stdout, hsched, -⟩ :=
    Collector.written_of_steps (Collector.step_steps hmain) hother
  refine ⟨h.main.step hserves hmain, ⟨fun i => ?_, h.inStep.known⟩, h.messages⟩
  show Protocol.Agrees X config (main.config.sched.workers i) (P.procs i)
  rw [hsched]
  exact h.inStep.agrees i

/-- What a step of one process leaves alone. -/
theorem says_update {procs : Fin n → Protocol.Process} {idx : Fin n} (h : ∀ i, Says X f (procs i))
    (hp : Says X f p) (i : Fin n) : Says X f (Function.update procs idx p i) := by
  by_cases hi : i = idx
  · subst hi
    rwa [Function.update_self]
  · rw [Function.update_of_ne hi]
    exact h i

theorem sound_init : Sound X config f thread nrWorkers maxMemorySize checkCacheStatus
    ((system X config nrWorkers maxMemorySize checkCacheStatus).init : Program n) :=
  ⟨.init, ⟨fun _ => trivial, fun _ hloc => by cases hloc⟩, fun _ => says_nothing rfl⟩

/-- **Every event keeps the program sound.** -/
theorem Sound.step (hX : Speaking X config f) (hfree : Collector.Free thread)
    (h : Sound X config f thread nrWorkers maxMemorySize checkCacheStatus P) {e : Event n}
    (hevaluates : Evaluates f thread P e) (hstep : P.step X config e = some P') :
    Sound X config f thread nrWorkers maxMemorySize checkCacheStatus P' := by
  have hpool := h.poolOk hfree
  match e with
  | .act idx a =>
    obtain ⟨j, hj, rfl⟩ := Option.map_eq_some_iff.mp hstep
    have hinStep := h.inStep.step hX.toFraming hpool hj
    -- the process acts, and the configuration stays
    simp only [Protocol.step] at hj
    split at hj
    · obtain ⟨p, hact, rfl⟩ := Option.map_eq_some_iff.mp hj
      refine h.process rfl hinStep (says_update h.messages ?_)
      refine (h.messages idx).act (fun response restart path ha hloc => ?_) hact
      subst ha
      exact hevaluates path hloc
    · cases hj
  | .ends idx status =>
    obtain rfl := Option.some.inj hstep
    have hagrees : Protocol.Agrees X config (P.joint.config.sched.workers idx)
        { P.procs idx with status := (P.procs idx).status.or (some status) } :=
      (h.inStep.agrees idx).acts hX.toFraming .ended
    refine h.process (j := { P.joint with procs := _ }) rfl
      (h.inStep.update hagrees (h.inStep.known idx)) (says_update h.messages ?_)
    exact (h.messages idx).same rfl
  | .main (.scheduler e) =>
    obtain ⟨j, hj, hstep⟩ := Option.bind_eq_some_iff.mp hstep
    obtain ⟨main, hmain, hret⟩ := Option.bind_eq_some_iff.mp hstep
    obtain rfl := Option.some.inj hret
    have hinStep := h.inStep.step hX.toFraming hpool hj
    have hconfig := Collector.config_of_schedule (Collector.step_steps hmain)
    simp only [Protocol.step] at hj
    split at hj
    · next hallows =>
      obtain ⟨c, hc, rfl⟩ := Option.map_eq_some_iff.mp hj
      obtain rfl : main.config = c := Option.some.inj (hconfig.symm.trans hc)
      refine ⟨h.main.step (e := .scheduler e) (h.replies hX hallows) hmain, hinStep, fun i => ?_⟩
      -- the collector has read a message, or none
      refine Says.follow ?_ _ _
      rcases Protocol.consume_cases P.procs e i with hc | ⟨line, rss, rfl, hc⟩
      · exact hc ▸ h.messages i
      · exact hc ▸ ((h.messages i).popped hX.toFraming (Protocol.allows_line hallows)).2
    · cases hj
  | .main (.fatal idx line) =>
    rw [Program.step] at hstep
    split at hstep
    · next hallows => exact h.other (.fatal idx line) (by simp) (h.replies hX hallows) hstep
    · cases hstep
  | .main (.thread e) => exact h.other (.thread e) (by simp) hevaluates hstep
  | .main .print => exact h.other .print (by simp) trivial hstep
  | .main .finish => exact h.other .finish (by simp) trivial hstep
  | .main .join => exact h.other .join (by simp) trivial hstep
  | .main .unwind => exact h.other .unwind (by simp) trivial hstep

/-- **The collector of the program is answered by its workers.** -/
theorem sound_reachable (hX : Speaking X config f) (hfree : Collector.Free thread)
    (h : (system X config nrWorkers maxMemorySize checkCacheStatus).Reachable
      (Evaluates f thread) P) :
    Sound X config f thread nrWorkers maxMemorySize checkCacheStatus P :=
  h.invariant sound_init fun _ hsound hevaluates hstep => hsound.step hX hfree hevaluates hstep

end Program

end NixEvalJobs
