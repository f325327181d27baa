import NixEvalJobs.Lib.Lines
import NixEvalJobs.Worker.Round

/-!
# Worker — the process and its pipes

A worker reads and writes complete lines on pipes of bytes. It writes a line byte
after byte and may be killed after any of them; the collector takes complete lines
off its end and drops what is unfinished when the pipe closes.

* `Acts` — what a process can do.
* `Booting`, `Announcing`, `Ready`, `Serving`, `Harmless` — the positions of a process
  in the protocol, each with what it keeps and what can be read in it.
-/

namespace NixEvalJobs

namespace Protocol

/-! ## Worker processes -/

/-- The end of a line. -/
def newline : Byte := 10

/-- What `worker` does after a line is written. -/
inductive Then where
  | read       -- `readLine` of the command
  | offer      -- the next round
  | restart    -- `Next::Restart`
  | exit
  deriving DecidableEq

/-- Where a process is in `worker`. -/
inductive Loc where
  | configuring                            -- in `readLine` of the configuration
  | writing (rest : Str) (next : Then)     -- in `tryWriteLine`, with `rest` still to write
  | reading                                -- in `readLine` of a command
  | evaluating (path : AttrPath)
  | returned
  | failed                                 -- an exception about the command line left the round
  deriving DecidableEq

/-- A worker process and its pipes: `input` are the bytes it has not read, `output`
the ones the collector has not taken off as lines. -/
structure Process where
  loc : Loc
  input : Str := []
  output : Str := []
  status : Option ExitStatus := none

/-- What can be next in `worker`, and what it answers with. -/
inductive Act where
  | configure
  | write
  | read
  | respond (response : Response) (restart : Bool)
  | exit

/-- Where this is. -/
def Then.loc : Then → Loc
  | .read => .reading
  | .offer => .writing (frame newline msgNext) .read
  | .restart => .writing (frame newline msgRestart) .exit
  | .exit => .returned

namespace Process

variable (X : Externals)

/-- A spawned process; `Proc::Proc` has sent the configuration. -/
def spawned (config : Str) : Process where
  loc := .configuring
  input := frame newline config

/-- Where `processJobRequest` goes with the line it has read. -/
def command (line : Str) : Loc :=
  if line = msgExit then .returned
  else
    match Evaluator.pathFrom X line with
    | .ok path => .evaluating path
    | .error _ => .failed

/-- A step of a worker without faults: its initialisation succeeds, and it answers for
the path it was sent. -/
def act (p : Process) (a : Act) : Option Process :=
  match p.status, p.loc, a with
  | none, .configuring, .configure =>
    (popLine newline p.input).map fun e => { p with input := e.2, loc := Then.offer.loc }
  | none, .writing (b :: rest) next, .write =>
    some { p with
      output := p.output ++ [b]
      loc := if rest = [] then next.loc else .writing rest next }
  | none, .reading, .read =>
    (popLine newline p.input).map fun e => { p with input := e.2, loc := command X e.1 }
  | none, .evaluating path, .respond response restart =>
    if response.attr = joinAttrPath path ∧ response.attrPath = path then
      (X.dump (response.toJson X.toStorePaths)).map fun line =>
        { p with loc := .writing (frame newline line) (if restart then .restart else .offer) }
    else none
  | none, .returned, .exit => some { p with status := some (.exited 0) }
  | _, _, _ => none

/-- `Proc::sendLine`. -/
def receive (p : Process) (line : Str) : Process :=
  { p with input := p.input ++ frame newline line }

/-- SIGKILL; a process that has ended keeps its status. -/
def kill (p : Process) : Process := { p with status := p.status.or (some (.signaled sigkill)) }

/-- `Proc::popLine`. -/
def popped (p : Process) : Process :=
  { p with output := ((popLine newline p.output).map Prod.snd).getD p.output }

end Process

variable (X : Externals) (config : Str)

/-- What the pipes rely on: texts have no line breaks, and a printed path is parsed
back. -/
structure Framing : Prop where
  config : newline ∉ config
  dump : ∀ json text, X.dump json = some text → newline ∉ text
  parse : ∀ path text, X.dump (.ofStrings path) = some text →
    X.parse text = some (.ofStrings path)

/-! ## What a process can do -/

/-- `act`, by where the process is, and its end. -/
inductive Acts (X : Externals) (p : Process) : Process → Prop where
  | configured {line rest : Str} : p.loc = .configuring →
      popLine newline p.input = some (line, rest) →
      Acts X p { p with input := rest, loc := Then.offer.loc }
  | wrote {b : Byte} {rest : Str} {next : Then} : p.loc = .writing (b :: rest) next →
      Acts X p { p with
        output := p.output ++ [b]
        loc := if rest = [] then next.loc else .writing rest next }
  | commanded {line rest : Str} : p.loc = .reading →
      popLine newline p.input = some (line, rest) →
      Acts X p { p with input := rest, loc := Process.command X line }
  | responded {path : AttrPath} {response : Response} {line : Str} {next : Then} :
      p.loc = .evaluating path → response.attr = joinAttrPath path → response.attrPath = path →
      X.dump (response.toJson X.toStorePaths) = some line → next = .offer ∨ next = .restart →
      Acts X p { p with loc := .writing (frame newline line) next }
  | ended {status : Option ExitStatus} : Acts X p { p with status := status }

variable {X} {config}

/-- What a process does is one of these. -/
theorem act_acts {p p' : Process} {a : Act} (h : p.act X a = some p') : Acts X p p' := by
  unfold Process.act at h
  split at h
  · next hloc =>
    obtain ⟨⟨line, rest⟩, hpop, rfl⟩ := Option.map_eq_some_iff.mp h
    exact .configured hloc hpop
  · next hloc =>
    obtain rfl := Option.some.inj h
    exact .wrote hloc
  · next hloc =>
    obtain ⟨⟨line, rest⟩, hpop, rfl⟩ := Option.map_eq_some_iff.mp h
    exact .commanded hloc hpop
  · next restart _ hloc =>
    split at h
    · next hresponse =>
      obtain ⟨line, hdump, rfl⟩ := Option.map_eq_some_iff.mp h
      refine .responded hloc hresponse.1 hresponse.2 hdump ?_
      cases restart with
      | true => exact .inr rfl
      | false => exact .inl rfl
    · cases h
  · obtain rfl := Option.some.inj h
    exact .ended
  · cases h

/-- Being killed ends it, if it has not ended. -/
theorem kill_acts (p : Process) : Acts X p p.kill := .ended

/-! ## What is on its way to the collector -/

/-- What is still to write of the current line. -/
def Loc.rest : Loc → Str
  | .writing rest _ => rest
  | _ => []

/-- What the collector will read before the process does anything else. -/
def Process.unread (p : Process) : Str := p.output ++ p.loc.rest

/-- A byte moves from the process to the pipe; after the last one comes what is next. -/
theorem unread_wrote {p : Process} {b : Byte} {rest : Str} {next : Then}
    (hloc : p.loc = .writing (b :: rest) next) :
    ({ p with
        output := p.output ++ [b]
        loc := if rest = [] then next.loc else .writing rest next } : Process).unread =
      p.unread ++ if rest = [] then next.loc.rest else [] := by
  unfold Process.unread
  rw [hloc]
  split
  · next hrest => simp [Loc.rest, hrest]
  · simp [Loc.rest]

/-- The collector takes off the line that comes first, and only when it is complete. -/
theorem unread_popped {p : Process} {line first tail : Str}
    (h : (popLine newline p.output).map Prod.fst = some line) (hfirst : newline ∉ first)
    (hunread : p.unread = frame newline first ++ tail) :
    line = first ∧ p.popped.unread = tail := by
  obtain ⟨⟨line, rest⟩, hpop, rfl⟩ := Option.map_eq_some_iff.mp h
  -- a line that is complete in the pipe is the first of all that is unread
  have hlonger : popLine newline p.unread = some (line, rest ++ p.loc.rest) :=
    popLine_append hpop
  rw [hunread, popLine_frame hfirst] at hlonger
  obtain ⟨rfl, rfl⟩ := Prod.mk.inj (Option.some.inj hlonger)
  refine ⟨rfl, ?_⟩
  unfold Process.unread Process.popped
  rw [hpop]
  rfl

/-- From a process that has said nothing, nothing is read. -/
theorem popLine_quiet {p : Process} {line : Str} (houtput : p.output = []) :
    (popLine newline p.output).map Prod.fst ≠ some line := by
  rw [houtput]
  simp [popLine]

/-! ## Positions in the protocol -/

/-- A line that answers for a path. -/
def IsResponse (X : Externals) (path : AttrPath) (line : Str) : Prop :=
  ∃ response : Response, response.attr = joinAttrPath path ∧ response.attrPath = path ∧
    X.dump (response.toJson X.toStorePaths) = some line

/-- What is dumped has no line break. -/
theorem IsResponse.one_line {path : AttrPath} {line : Str} (hX : Framing X config)
    (h : IsResponse X path line) : newline ∉ line := by
  obtain ⟨_, _, _, hdump⟩ := h
  exact hX.dump _ _ hdump

/-- The process has not read its configuration. -/
structure Booting (config : Str) (p : Process) : Prop where
  loc : p.loc = .configuring
  input : p.input = frame newline config
  output : p.output = []

/-- The process waits for a command, and the collector has read everything. -/
structure Ready (p : Process) : Prop where
  loc : p.loc = .reading
  input : p.input = []
  output : p.output = []

/-- After `pre`, the collector will read `line`; then the process is at `next`. -/
structure Telling (pre line : Str) (next : Then) (p : Process) : Prop where
  input : p.input = []
  unread : p.unread = pre ++ frame newline line
  loc : p.loc = next.loc ∨ ∃ rest, rest ≠ [] ∧ p.loc = .writing rest next

/-- After `pre`, the process offers itself for the next round or its restart. -/
def Announcing (pre : Str) (p : Process) : Prop :=
  Telling pre msgNext .read p ∨ Telling pre msgRestart .exit p

/-- The process and its pipes, between a command and the line that answers it. -/
inductive Serving (X : Externals) (path : AttrPath) (p : Process) : Prop where
  | commanded {text : Str} : X.dump (.ofStrings path) = some text → p.loc = .reading →
      p.input = frame newline (msgDo ++ text) → p.output = [] → Serving X path p
  | evaluating : p.loc = .evaluating path → p.input = [] → p.output = [] → Serving X path p
  | responding {line rest : Str} {next : Then} : IsResponse X path line →
      p.loc = .writing rest next → rest ≠ [] → next = .offer ∨ next = .restart →
      p.input = [] → p.unread = frame newline line → Serving X path p
  | answered {line : Str} : IsResponse X path line → Announcing (frame newline line) p →
      Serving X path p

/-- Nobody listens to the process any more; what it may still read is a command. -/
structure Harmless (X : Externals) (p : Process) : Prop where
  configured : p.loc ≠ .configuring
  loc : p.loc ≠ .failed
  input : p.input = [] ∨ p.input = frame newline msgExit ∨
    ∃ path text, X.dump (.ofStrings path) = some text ∧
      p.input = frame newline (msgDo ++ text)

/-! ## Steps of the process -/

/-- What stands in the way of a step in the wrong place. -/
theorem Then.loc_ne {next : Then} :
    next.loc ≠ .configuring ∧ next.loc ≠ .failed ∧ ∀ path, next.loc ≠ .evaluating path := by
  cases next with
  | read | offer | restart | exit => simp [loc]

/-- The process goes on writing, and then to what is next. -/
theorem Telling.acts {pre line : Str} {next : Then} {p p' : Process}
    (hnext : next = .read ∨ next = .exit) (h : Telling pre line next p) (hstep : Acts X p p') :
    Telling pre line next p' := by
  -- what is next writes nothing more
  have hstop : next.loc.rest = [] ∧ ∀ rest then', next.loc ≠ .writing rest then' := by
    rcases hnext with rfl | rfl <;> exact ⟨rfl, by simp [Then.loc]⟩
  match hstep with
  | .configured hloc _ =>
    rcases h.loc with hc | ⟨rest, -, hc⟩
    · exact absurd (hc.symm.trans hloc) Then.loc_ne.1
    · cases hc.symm.trans hloc
  | @Acts.wrote _ _ _ rest _ hloc =>
    rcases h.loc with hc | ⟨rest', -, hc⟩
    · exact absurd (hc.symm.trans hloc) (hstop.2 _ _)
    · -- one byte of the line is written
      obtain ⟨-, rfl⟩ := Loc.writing.inj (hc.symm.trans hloc)
      refine ⟨h.input, ?_, ?_⟩
      · rw [unread_wrote hloc, h.unread, hstop.1, ite_self, List.append_nil]
      · by_cases hrest : rest = []
        · exact .inl (if_pos hrest)
        · exact .inr ⟨rest, hrest, if_neg hrest⟩
  -- there is nothing to read
  | .commanded _ hpop =>
    rw [h.input] at hpop
    cases hpop
  | .responded hloc _ _ _ _ =>
    rcases h.loc with hc | ⟨rest, -, hc⟩
    · exact absurd (hc.symm.trans hloc) (Then.loc_ne.2.2 _)
    · cases hc.symm.trans hloc
  | .ended => exact ⟨h.input, h.unread, h.loc⟩

/-- So does one that announces itself. -/
theorem Announcing.acts {pre : Str} {p p' : Process} (h : Announcing pre p)
    (hstep : Acts X p p') : Announcing pre p' := by
  rcases h with h | h
  · exact .inl (h.acts (.inl rfl) hstep)
  · exact .inr (h.acts (.inr rfl) hstep)

/-- A configured process offers itself. -/
theorem Booting.acts {p p' : Process} (hX : Framing X config) (h : Booting config p)
    (hstep : Acts X p p') : Booting config p' ∨ Announcing [] p' := by
  match hstep with
  | .configured _ hpop =>
    -- all that it can read is the configuration
    have hread := popLine_frame hX.config []
    rw [List.append_nil] at hread
    rw [h.input, hread] at hpop
    obtain ⟨-, rfl⟩ := Prod.mk.inj (Option.some.inj hpop)
    refine .inr (.inl ⟨rfl, ?_, .inr ⟨frame newline msgNext, frame_ne_nil _, rfl⟩⟩)
    unfold Process.unread
    rw [h.output]
    rfl
  | .ended => exact .inl ⟨h.loc, h.input, h.output⟩
  | .wrote hloc | .commanded hloc _ | .responded hloc _ _ _ _ =>
    cases h.loc.symm.trans hloc

/-- A process without a command waits. -/
theorem Ready.acts {p p' : Process} (h : Ready p) (hstep : Acts X p p') : Ready p' := by
  match hstep with
  | .commanded _ hpop =>
    rw [h.input] at hpop
    cases hpop
  | .ended => exact ⟨h.loc, h.input, h.output⟩
  | .configured hloc _ | .wrote hloc | .responded hloc _ _ _ _ =>
    cases h.loc.symm.trans hloc

/-- The command line for a path, as the process reads it. -/
theorem command_do {path : AttrPath} {text line rest : Str} (hX : Framing X config)
    (hdump : X.dump (.ofStrings path) = some text)
    (hpop : popLine newline (frame newline (msgDo ++ text)) = some (line, rest)) :
    rest = [] ∧ Process.command X line = .evaluating path := by
  -- the command is one line
  have htext : newline ∉ msgDo ++ text := by
    rw [List.mem_append]
    rintro (hc | hc)
    · exact absurd hc (by decide)
    · exact hX.dump _ _ hdump hc
  have hread := popLine_frame htext []
  rw [List.append_nil, hpop] at hread
  obtain ⟨rfl, rfl⟩ := Prod.mk.inj (Option.some.inj hread)
  refine ⟨rfl, ?_⟩
  unfold Process.command
  -- a command starts with another letter than `exit`
  rw [if_neg (by intro hc; exact absurd (List.head_eq_of_cons_eq hc) (by decide)),
    Evaluator.pathFrom_served (hX.parse _ _ hdump)]

/-- A command is evaluated, answered, and followed by an announcement. -/
theorem Serving.acts {path : AttrPath} {p p' : Process} (hX : Framing X config)
    (h : Serving X path p) (hstep : Acts X p p') : Serving X path p' := by
  match h with
  | .commanded hdump hloc hinput houtput =>
    match hstep with
    | .commanded _ hpop =>
      rw [hinput] at hpop
      obtain ⟨rfl, hcommand⟩ := command_do hX hdump hpop
      exact .evaluating hcommand rfl houtput
    | .ended => exact .commanded hdump hloc hinput houtput
    | .configured hc _ | .wrote hc | .responded hc _ _ _ _ =>
      cases hloc.symm.trans hc
  | .evaluating hloc hinput houtput =>
    match hstep with
    | @Acts.responded _ _ _ _ line _ hc hattr hpath hdump hnext =>
      -- the path it evaluates is the one it was sent
      obtain rfl := Loc.evaluating.inj (hloc.symm.trans hc)
      refine .responding ⟨_, hattr, hpath, hdump⟩ rfl (frame_ne_nil line) hnext hinput ?_
      unfold Process.unread
      rw [houtput]
      rfl
    | .ended => exact .evaluating hloc hinput houtput
    | .configured hc _ | .wrote hc | .commanded hc _ =>
      cases hloc.symm.trans hc
  | .responding hline hloc hrest hnext hinput hunread =>
    match hstep with
    | @Acts.wrote _ _ _ rest _ hc =>
      obtain ⟨rfl, rfl⟩ := Loc.writing.inj (hloc.symm.trans hc)
      have hsaid := unread_wrote hc
      rw [hunread] at hsaid
      by_cases hlast : rest = []
      · -- the line is complete, and `next` or `restart` comes behind it
        have hsaid := hsaid.trans (congrArg _ (if_pos hlast))
        refine .answered hline ?_
        rcases hnext with rfl | rfl
        · exact .inl ⟨hinput, hsaid, .inr ⟨_, frame_ne_nil _, if_pos hlast⟩⟩
        · exact .inr ⟨hinput, hsaid, .inr ⟨_, frame_ne_nil _, if_pos hlast⟩⟩
      · have hsaid := hsaid.trans (congrArg _ (if_neg hlast))
        exact .responding hline (if_neg hlast) hlast hnext hinput
          (hsaid.trans (List.append_nil _))
    | .ended => exact .responding hline hloc hrest hnext hinput hunread
    | .configured hc _ | .commanded hc _ | .responded hc _ _ _ _ =>
      cases hloc.symm.trans hc
  | .answered hline hannouncing => exact .answered hline (hannouncing.acts hstep)

/-- Whatever it reads, it is a command. -/
theorem Harmless.acts {p p' : Process} (hX : Framing X config) (h : Harmless X p)
    (hstep : Acts X p p') : Harmless X p' := by
  match hstep with
  | .configured hloc _ => exact absurd hloc h.configured
  -- behind a line it reads, offers itself or ends
  | @Acts.wrote _ _ _ rest next hloc =>
    refine ⟨?_, ?_, h.input⟩ <;> dsimp only <;> split
    · exact Then.loc_ne.1
    · simp
    · exact Then.loc_ne.2.1
    · simp
  -- `exit` or a path
  | .commanded _ hpop =>
    rcases h.input with hinput | hinput | ⟨path, text, hdump, hinput⟩ <;> rw [hinput] at hpop
    · cases hpop
    · have hread : popLine newline (frame newline msgExit) = some (msgExit, []) := by decide
      rw [hread] at hpop
      obtain ⟨rfl, rfl⟩ := Prod.mk.inj (Option.some.inj hpop)
      have hcommand : Process.command X msgExit = .returned := if_pos rfl
      refine ⟨?_, ?_, .inl rfl⟩ <;> dsimp only <;> rw [hcommand] <;> simp
    · obtain ⟨rfl, hcommand⟩ := command_do hX hdump hpop
      refine ⟨?_, ?_, .inl rfl⟩ <;> dsimp only <;> rw [hcommand] <;> simp
  | .responded _ _ _ _ _ => exact ⟨by simp, by simp, h.input⟩
  | .ended => exact ⟨h.configured, h.loc, h.input⟩

/-- It has its configuration, and it has not failed. -/
theorem Telling.loc_ne {pre line : Str} {next : Then} {p : Process}
    (h : Telling pre line next p) : p.loc ≠ .configuring ∧ p.loc ≠ .failed := by
  rcases h.loc with hloc | ⟨rest, -, hloc⟩ <;> rw [hloc]
  · exact ⟨Then.loc_ne.1, Then.loc_ne.2.1⟩
  · exact ⟨by simp, by simp⟩

/-- Nor has one that announces itself. -/
theorem Announcing.loc_ne {pre : Str} {p : Process} (h : Announcing pre p) :
    p.loc ≠ .configuring ∧ p.loc ≠ .failed :=
  h.elim Telling.loc_ne Telling.loc_ne

/-- Nothing of a command is left that the process could not read. -/
theorem Serving.harmless {path : AttrPath} {p : Process} (h : Serving X path p) :
    Harmless X p := by
  match h with
  | .commanded hdump hloc hinput _ =>
    exact ⟨by rw [hloc]; simp, by rw [hloc]; simp, .inr (.inr ⟨path, _, hdump, hinput⟩)⟩
  | .evaluating hloc hinput _ | .responding _ hloc _ _ hinput _ =>
    exact ⟨by rw [hloc]; simp, by rw [hloc]; simp, .inl hinput⟩
  | .answered _ hannouncing =>
    have hinput : p.input = [] := hannouncing.elim Telling.input Telling.input
    exact ⟨hannouncing.loc_ne.1, hannouncing.loc_ne.2, .inl hinput⟩

/-! ## What is read from it -/

/-- `next` is one line. -/
theorem newline_not_mem_msgNext : newline ∉ msgNext := by decide

/-- So is `restart`. -/
theorem newline_not_mem_msgRestart : newline ∉ msgRestart := by decide

/-- The collector may read from it. -/
theorem Harmless.popped {p : Process} (h : Harmless X p) : Harmless X p.popped :=
  ⟨h.configured, h.loc, h.input⟩

/-- What is read from a process after `pre` was. -/
theorem Telling.popped {pre line line' : Str} {next : Then} {p : Process}
    (h : Telling (frame newline pre) line next p) (hpre : newline ∉ pre)
    (hpop : (popLine newline p.output).map Prod.fst = some line') :
    line' = pre ∧ Telling [] line next p.popped := by
  obtain ⟨hline, hunread⟩ := unread_popped hpop hpre h.unread
  exact ⟨hline, h.input, hunread, h.loc⟩

/-- What is read from a process that has nothing more to say. -/
theorem Telling.finished {line line' : Str} {next : Then} {p : Process}
    (h : Telling [] line next p) (hline : newline ∉ line)
    (hpop : (popLine newline p.output).map Prod.fst = some line') :
    line' = line ∧ p.popped.loc = next.loc ∧ p.popped.input = [] ∧ p.popped.output = [] := by
  have hunread : p.unread = frame newline line ++ [] := by rw [h.unread, List.append_nil]; rfl
  obtain ⟨hsame, hrest⟩ := unread_popped hpop hline hunread
  obtain ⟨houtput, hwritten⟩ := List.append_eq_nil_iff.mp hrest
  refine ⟨hsame, ?_, h.input, houtput⟩
  rcases h.loc with hloc | ⟨rest, hne, hloc⟩
  · exact hloc
  · -- the last byte of the line has been read, so nothing is left to write
    change p.loc.rest = [] at hwritten
    rw [hloc] at hwritten
    exact absurd hwritten hne

/-- A starting process says `next` or `restart`. -/
theorem starting_line {p : Process} {line : Str}
    (h : Booting config p ∨ Announcing [] p)
    (hpop : (popLine newline p.output).map Prod.fst = some line) :
    (line = msgNext ∧ Ready p.popped) ∨ line = msgRestart := by
  rcases h with h | h | h
  · -- before its configuration it has said nothing
    exact absurd hpop (popLine_quiet h.output)
  · obtain ⟨hline, hloc, hinput, houtput⟩ := h.finished newline_not_mem_msgNext hpop
    exact .inl ⟨hline, hloc, hinput, houtput⟩
  · exact .inr (h.finished newline_not_mem_msgRestart hpop).1

/-- A serving process answers for the path it was sent. -/
theorem Serving.line {path : AttrPath} {p : Process} {line : Str} (hX : Framing X config)
    (h : Serving X path p) (hpop : (popLine newline p.output).map Prod.fst = some line) :
    IsResponse X path line ∧ Announcing [] p.popped := by
  match h with
  | .commanded _ _ _ houtput | .evaluating _ _ houtput =>
    exact absurd hpop (popLine_quiet houtput)
  | @Serving.responding _ _ _ response _ _ hline hloc hrest _ _ hunread =>
    -- the response is not complete, as some of it is still to write
    have hnone : p.unread = frame newline response ++ [] := by rw [hunread, List.append_nil]
    obtain ⟨-, hend⟩ := unread_popped hpop (hline.one_line hX) hnone
    have hwritten : p.loc.rest = [] := (List.append_eq_nil_iff.mp hend).2
    rw [hloc] at hwritten
    exact absurd hwritten hrest
  | .answered hline hannouncing =>
    -- `next` or `restart` comes behind the response
    rcases hannouncing with htelling | htelling
    · obtain ⟨rfl, hafter⟩ := htelling.popped (hline.one_line hX) hpop
      exact ⟨hline, .inl hafter⟩
    · obtain ⟨rfl, hafter⟩ := htelling.popped (hline.one_line hX) hpop
      exact ⟨hline, .inr hafter⟩

end Protocol

end NixEvalJobs
