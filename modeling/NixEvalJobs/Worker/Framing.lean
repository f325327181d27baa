import NixEvalJobs.Lib.Transition
import NixEvalJobs.Worker.Process

/-!
# Worker — lines through a pipe

Both ends speak in lines. `tryWriteLine` writes a line in as many pieces as `write`
takes; `Proc::fill` appends what `read` returns to a buffer, in pieces of any size, and
`Proc::popLine` cuts lines off its front. It remembers up to where there is no line
break, so that a long line is not searched again for every piece.

What the system calls return is up to the environment. A call of the writer is one
step here: how much of it the reader gets, and when, is up to what `read` returns.

* `popLine_framed` — the remembered offset hides no line break.
* `framing_roundTrips` — the lines that come out are those that went in.
-/

namespace NixEvalJobs

namespace Framing

open Protocol (newline)

/-! ## Writing -/

/-- What `write` returns; an interrupt by the user ends the call like an error. -/
inductive WriteResult where
  | wrote (n : Nat)
  | eintr
  | failed (errno : Nat) (pos : 0 < errno)

/-- The loop of `tryWriteLine` over what is left of the line: the bytes it writes, and its
result, unless the last `write` has not returned. -/
def writeLoop : List WriteResult → Str → Str × Option Int
  | _, [] => ([], some 0)
  | [], _ :: _ => ([], none)
  | .eintr :: results, view => writeLoop results view
  | .failed errno _ :: _, _ => ([], some (-errno))
  | .wrote n :: results, view =>
    -- `write` may take less than what is left of the line
    let (written, result) := writeLoop results (view.drop n)
    (view.take n ++ written, result)

/-- `tryWriteLine`: the line and its line break. -/
def tryWriteLine (results : List WriteResult) (str : Str) : Str × Option Int :=
  writeLoop results (str ++ [newline])

/-! ## Reading -/

/-- The members of `Proc` that `fill` and `popLine` use: nothing before `scanned` is a
line break. -/
structure Proc where
  buf : Str := []
  scanned : Nat := 0

/-- What `read` returns; there are at most `n` bytes, and none at the end of the
stream. -/
inductive ReadResult where
  | bytes (n : Nat)
  | eagain
  | eintr
  | failed

/-- How much room `fill` makes for one `read`. -/
def CHUNK : Nat := 64 * 1024

/-- `std::string::resize`. -/
def resize (s : Str) (n : Nat) : Str := s.take n ++ List.replicate (n - s.length) 0

/-- `read` into the buffer at `old`. -/
def readInto (buf : Str) (old : Nat) (chunk : Str) : Str :=
  buf.take old ++ chunk ++ buf.drop (old + chunk.length)

/-- `Proc::fill` on what is in the pipe; there is no result while it goes on. -/
def Proc.fill : List ReadResult → Str → Proc → Str × Proc × Option (Except Error Bool)
  | [], pipe, p => (pipe, p, none)
  | result :: results, pipe, p =>
    let old := p.buf.length
    -- room at the end of the buffer, given back where it is not used
    let buf := resize p.buf (old + CHUNK)
    match result with
    | .bytes n =>
      let chunk := pipe.take (min n CHUNK)
      let buf := readInto buf old chunk
      if 0 < chunk.length then
        fill results (pipe.drop chunk.length) { p with buf := resize buf (old + chunk.length) }
      else (pipe, { p with buf := resize buf old }, some (.ok false))
    | .eagain => (pipe, { p with buf := resize buf old }, some (.ok true))
    | .eintr => fill results pipe { p with buf := resize buf old }
    | .failed =>
      (pipe, { p with buf := resize buf old }, some (.error (.nix (lit "reading from worker") [])))

/-- `std::string::find` of a line break. -/
def findNewline (s : Str) (pos : Nat) : Option Nat :=
  ((s.drop pos).findIdx? fun b => b = newline).map fun i => pos + i

/-- `Proc::popLine`. -/
def Proc.popLine (p : Proc) : Option Str × Proc :=
  match findNewline p.buf p.scanned with
  -- the next search begins behind what was searched
  | none => (none, { p with scanned := p.buf.length })
  | some nl => (some (p.buf.take nl), { buf := p.buf.drop (nl + 1), scanned := 0 })

/-! ## Both ends -/

/-- A pipe with its ends. `sent` are the lines that the writer was told are written, and
`popped` those that the reader got; a writer whose call fails or hangs writes no more. -/
structure Stream where
  sent : List Str := []
  stopped : Bool := false
  pipe : Str := []
  proc : Proc := {}
  popped : List Str := []

/-- A call at one of the ends. -/
inductive Event where
  /-- `tryWriteLine`, with what each `write` returns -/
  | send (line : Str) (results : List WriteResult)
  /-- `Proc::fill`, with what each `read` returns -/
  | fill (results : List ReadResult)
  /-- `Proc::popLine` -/
  | popLine

/-- One call. -/
def step (st : Stream) : Event → Option Stream
  | .send line results =>
    -- a line has no line break of its own, since JSON escapes it
    if st.stopped ∨ newline ∈ line then none
    else
      let (written, result) := tryWriteLine results line
      if result = some 0 then
        some { st with sent := st.sent ++ [line], pipe := st.pipe ++ written }
      else some { st with stopped := true, pipe := st.pipe ++ written }
  | .fill results =>
    let (pipe, proc, _) := Proc.fill results st.pipe st.proc
    some { st with pipe, proc }
  | .popLine =>
    let (line, proc) := st.proc.popLine
    some { st with proc, popped := st.popped ++ line.toList }

/-- An empty pipe with nothing read. -/
def system : System Stream Event where
  init := {}
  step := step

/-! ## What a call does -/

/-- A call writes a beginning of the line, and all of it when it says so; then it says
so, too. -/
theorem writeLoop_spec (results : List WriteResult) (view : Str) :
    (writeLoop results view).1 <+: view ∧
      ((writeLoop results view).2 = some 0 ↔ (writeLoop results view).1 = view) := by
  -- what `write` returns, call by call
  induction results generalizing view with
  | nil =>
    match view with
    | [] => exact ⟨List.prefix_rfl, by simp [writeLoop]⟩
    | b :: view => exact ⟨List.nil_prefix, by simp [writeLoop]⟩
  | cons result results ih =>
    match view with
    | [] => exact ⟨List.prefix_rfl, by simp [writeLoop]⟩
    | b :: view =>
      match result with
      | .eintr => exact ih (b :: view)
      | .failed errno pos =>
        refine ⟨List.nil_prefix, iff_of_false (fun hc => ?_) fun hc => ?_⟩
        · -- a negative errno is not zero
          have hzero : -(errno : Int) = 0 := Option.some.inj hc
          omega
        · cases hc
      | .wrote n =>
        -- the loop goes on with what is left of the view
        obtain ⟨⟨rest, hrest⟩, hdone⟩ := ih ((b :: view).drop n)
        have hsplit := List.take_append_drop n (b :: view)
        refine ⟨⟨rest, ?_⟩, hdone.trans ⟨fun hall => ?_, fun hall => ?_⟩⟩
        · show (b :: view).take n ++ _ ++ rest = b :: view
          rw [List.append_assoc, hrest, hsplit]
        · show (b :: view).take n ++ _ = b :: view
          rw [hall, hsplit]
        · exact List.append_cancel_left (Eq.trans hall hsplit.symm)

/-- What is left unfinished is not even a line without its line break. -/
theorem tryWriteLine_spec {line : Str} (hline : newline ∉ line) (results : List WriteResult) :
    if (tryWriteLine results line).2 = some 0 then
      (tryWriteLine results line).1 = frame newline line
    else newline ∉ (tryWriteLine results line).1 := by
  obtain ⟨hfront, hdone⟩ := writeLoop_spec results (line ++ [newline])
  split
  · next hzero => exact hdone.mp hzero
  · next hzero =>
    -- a beginning that is not everything is a beginning of the line
    rcases List.prefix_concat_iff.mp hfront with hall | hshort
    · exact absurd (hdone.mpr hall) hzero
    · exact fun hmem => hline (hshort.subset hmem)

/-- Room that is not used is given back. -/
theorem resize_resize (buf : Str) (n : Nat) :
    resize (resize buf (buf.length + n)) buf.length = buf := by
  unfold resize
  rw [List.take_of_length_le (Nat.le_add_right _ _), List.take_left]
  simp

/-- After a read the buffer is what it was, and the new bytes. -/
theorem resize_readInto (buf chunk : Str) (n : Nat) :
    resize (readInto (resize buf (buf.length + n)) buf.length chunk) (buf.length + chunk.length) =
      buf ++ chunk := by
  have hgrown : resize buf (buf.length + n) = buf ++ List.replicate n 0 := by
    unfold resize
    rw [List.take_of_length_le (Nat.le_add_right _ _), Nat.add_sub_cancel_left]
  unfold readInto
  rw [hgrown, List.take_left]
  unfold resize
  have hlength : (buf ++ chunk).length = buf.length + chunk.length := List.length_append ..
  rw [← hlength, List.take_left]
  simp

/-- The space that a read makes and does not use is given back. -/
theorem fill_bytes (n : Nat) (results : List ReadResult) (pipe : Str) (p : Proc) :
    p.fill (.bytes n :: results) pipe =
      if pipe.take (min n CHUNK) = [] then (pipe, p, some (.ok false))
      else Proc.fill results (pipe.drop (pipe.take (min n CHUNK)).length)
        { p with buf := p.buf ++ pipe.take (min n CHUNK) } := by
  rw [Proc.fill.eq_def]
  dsimp only
  by_cases hempty : pipe.take (min n CHUNK) = []
  · rw [if_pos hempty, hempty, if_neg (by simp)]
    have hbuf := resize_readInto p.buf [] CHUNK
    rw [List.append_nil] at hbuf
    exact congrArg (fun buf => (pipe, { p with buf }, _)) hbuf
  · rw [if_neg hempty, if_pos (List.length_pos_iff.mpr hempty), resize_readInto]

/-- An interrupted read is repeated. -/
theorem fill_eintr (results : List ReadResult) (pipe : Str) (p : Proc) :
    p.fill (.eintr :: results) pipe = p.fill results pipe := by
  rw [Proc.fill.eq_def]
  dsimp only
  rw [resize_resize]

/-- An empty pipe ends the call. -/
theorem fill_eagain (results : List ReadResult) (pipe : Str) (p : Proc) :
    p.fill (.eagain :: results) pipe = (pipe, p, some (.ok true)) := by
  rw [Proc.fill.eq_def]
  dsimp only
  rw [resize_resize]

/-- So does an error. -/
theorem fill_failed (results : List ReadResult) (pipe : Str) (p : Proc) :
    p.fill (.failed :: results) pipe =
      (pipe, p, some (.error (.nix (lit "reading from worker") []))) := by
  rw [Proc.fill.eq_def]
  dsimp only
  rw [resize_resize]

/-- **What `fill` does**: it moves bytes from the pipe to the end of the buffer. -/
theorem fill_spec (results : List ReadResult) (pipe : Str) (p : Proc) :
    ∃ taken, pipe = taken ++ (p.fill results pipe).1 ∧
      (p.fill results pipe).2.1 = { p with buf := p.buf ++ taken } := by
  have hnone : p = { p with buf := p.buf ++ [] } := by rw [List.append_nil]
  -- what `read` returns, call by call
  induction results generalizing pipe p with
  | nil => exact ⟨[], rfl, hnone⟩
  | cons result results ih =>
    match result with
    | .bytes n =>
      rw [fill_bytes]
      split
      · exact ⟨[], rfl, hnone⟩
      · -- a full read is followed by another one
        obtain ⟨taken, hpipe, hproc⟩ := ih (pipe.drop (pipe.take (min n CHUNK)).length)
          { p with buf := p.buf ++ pipe.take (min n CHUNK) } (by rw [List.append_nil])
        refine ⟨pipe.take (min n CHUNK) ++ taken, ?_, ?_⟩
        · rw [List.append_assoc, ← hpipe]
          exact List.prefix_append_drop (List.take_prefix ..)
        · rw [hproc, List.append_assoc]
    | .eagain =>
      rw [fill_eagain]
      exact ⟨[], rfl, hnone⟩
    | .failed =>
      rw [fill_failed]
      exact ⟨[], rfl, hnone⟩
    | .eintr =>
      rw [fill_eintr]
      exact ih pipe p hnone

/-! ## The remembered offset -/

/-- There is no line break before `scanned`. -/
structure Proc.Scanned (p : Proc) : Prop where
  le : p.scanned ≤ p.buf.length
  clean : newline ∉ p.buf.take p.scanned

/-- New bytes come after what was searched. -/
theorem Proc.Scanned.append {p : Proc} (h : p.Scanned) (bytes : Str) :
    Proc.Scanned { p with buf := p.buf ++ bytes } := by
  refine ⟨h.le.trans (by simp), ?_⟩
  dsimp only
  rw [List.take_append_of_le_length h.le]
  exact h.clean

/-- **The offset hides no line break.** `popLine` finds the first line of the buffer as
if it searched all of it, takes it off, and leaves a buffer for which this is so again. -/
theorem popLine_framed {p : Proc} (h : p.Scanned) :
    p.popLine = (match NixEvalJobs.popLine newline p.buf with
      | some (line, rest) => (some line, { buf := rest, scanned := 0 })
      | none => (none, { buf := p.buf, scanned := p.buf.length })) ∧ p.popLine.2.Scanned := by
  have hbuf := List.take_append_drop p.scanned p.buf
  unfold Proc.popLine findNewline
  -- what is found behind the offset is the first line break, if there is one
  match hfind : (p.buf.drop p.scanned).findIdx? fun b => b = newline with
  | none =>
    have hclean : newline ∉ p.buf := by
      rw [← hbuf, List.mem_append]
      rintro (hmem | hmem)
      · exact h.clean hmem
      · exact absurd rfl (of_decide_eq_false (List.findIdx?_eq_none_iff.mp hfind newline hmem))
    rw [popLine_eq_none.mpr hclean]
    refine ⟨rfl, Nat.le_refl _, ?_⟩
    dsimp only [Option.map_none]
    rw [List.take_length]
    exact hclean
  | some i =>
    obtain ⟨hi, hnewline, hbefore⟩ := List.findIdx?_eq_some_iff_getElem.mp hfind
    have hbreak : (p.buf.drop p.scanned)[i] = newline := of_decide_eq_true hnewline
    -- the line is what is before `scanned` and the `i` bytes behind it
    have hline : newline ∉ p.buf.take (p.scanned + i) := by
      rw [List.take_add, List.mem_append]
      rintro (hmem | hmem)
      · exact h.clean hmem
      · obtain ⟨j, hj, hget⟩ := List.mem_take_iff_getElem.mp hmem
        exact hbefore j (by omega) (decide_eq_true hget)
    have hsplit : p.buf = frame newline (p.buf.take (p.scanned + i)) ++
        p.buf.drop (p.scanned + i + 1) := by
      rw [List.length_drop] at hi
      rw [List.getElem_drop] at hbreak
      have hlt : p.scanned + i < p.buf.length := by omega
      rw [frame, ← hbreak, ← List.take_succ_eq_append_getElem hlt, List.take_append_drop]
    rw [popLine_eq_some.mpr ⟨hline, hsplit⟩]
    exact ⟨rfl, Nat.zero_le _, by simp⟩

/-- What `popLine` returns is what the protocol takes off the output of the process, which
is the buffer and what is still in the pipe. -/
theorem popLine_popped {p p' : Proc} (h : p.Scanned) {line pipe : Str}
    (hpop : p.popLine = (some line, p')) {process : Protocol.Process}
    (houtput : process.output = p.buf ++ pipe) :
    (NixEvalJobs.popLine newline process.output).map Prod.fst = some line ∧
      process.popped.output = p'.buf ++ pipe := by
  have hframed := (popLine_framed h).1
  rw [hpop] at hframed
  split at hframed
  · next line' rest hline =>
    obtain ⟨hsame, rfl⟩ := Prod.mk.inj hframed
    obtain rfl := Option.some.inj hsame
    have hlonger : NixEvalJobs.popLine newline process.output = some (line, rest ++ pipe) := by
      rw [houtput]
      exact popLine_append hline
    refine ⟨by rw [hlonger]; rfl, ?_⟩
    unfold Protocol.Process.popped
    rw [hlonger]
    rfl
  · cases (Prod.mk.inj hframed).1

/-! ## Everything between the ends -/

/-- What was read, is in the buffer and is in the pipe is what was sent, and the
beginning of a line that was not. -/
structure Framed (st : Stream) : Prop where
  scanned : st.proc.Scanned
  sent : ∀ line ∈ st.sent, newline ∉ line
  popped : ∀ line ∈ st.popped, newline ∉ line
  bytes : ∃ fragment, newline ∉ fragment ∧ (st.stopped = false → fragment = []) ∧
    st.popped.flatMap (frame newline) ++ (st.proc.buf ++ st.pipe) =
      st.sent.flatMap (frame newline) ++ fragment

variable {st st' : Stream} {e : Event}

/-- Nothing has been sent. -/
theorem framed_init : Framed system.init where
  scanned := ⟨Nat.le_refl _, List.not_mem_nil⟩
  sent := fun _ hmem => absurd hmem List.not_mem_nil
  popped := fun _ hmem => absurd hmem List.not_mem_nil
  bytes := ⟨[], List.not_mem_nil, fun _ => rfl, rfl⟩

/-- A call of the sender writes a line, or a beginning of one and then nothing more. -/
theorem Framed.send {line : Str} {results : List WriteResult} (h : Framed st)
    (hstep : system.step st (.send line results) = some st') : Framed st' := by
  obtain ⟨fragment, hfragment, hwhole, hbytes⟩ := h.bytes
  change (if st.stopped ∨ newline ∈ line then none
    else if (tryWriteLine results line).2 = some 0 then some { st with
      sent := st.sent ++ [line]
      pipe := st.pipe ++ (tryWriteLine results line).1 }
    else some { st with
      stopped := true
      pipe := st.pipe ++ (tryWriteLine results line).1 }) = some st' at hstep
  split at hstep
  · cases hstep
  next hguard =>
  -- the writer has not stopped, so there is no fragment yet
  obtain ⟨hrunning, hline⟩ := not_or.mp hguard
  obtain rfl := hwhole (Bool.eq_false_iff.mpr hrunning)
  have hwritten := tryWriteLine_spec hline results
  split at hstep
  · -- the whole line is in the pipe
    next hzero =>
    rw [if_pos hzero] at hwritten
    obtain rfl := Option.some.inj hstep
    refine ⟨h.scanned, fun l hl => ?_, h.popped, [], List.not_mem_nil, fun _ => rfl, ?_⟩
    · rcases List.mem_append.mp hl with hl | hl
      · exact h.sent l hl
      · rw [List.mem_singleton.mp hl]
        exact hline
    · dsimp only
      rw [← List.append_assoc, ← List.append_assoc, List.append_assoc _ st.proc.buf, hbytes,
        hwritten]
      simp
  · -- a beginning of it is, and nothing will follow
    next hzero =>
    rw [if_neg hzero] at hwritten
    obtain rfl := Option.some.inj hstep
    refine ⟨h.scanned, h.sent, h.popped, _, hwritten, by simp, ?_⟩
    dsimp only
    rw [← List.append_assoc, ← List.append_assoc, List.append_assoc _ st.proc.buf, hbytes,
      List.append_nil]

/-- A read moves bytes from the pipe to the end of the buffer. -/
theorem Framed.fill {results : List ReadResult} (h : Framed st)
    (hstep : system.step st (.fill results) = some st') : Framed st' := by
  obtain ⟨fragment, hfragment, hwhole, hbytes⟩ := h.bytes
  obtain ⟨taken, hpipe, hproc⟩ := fill_spec results st.pipe st.proc
  obtain rfl := Option.some.inj hstep
  rw [hproc]
  refine ⟨h.scanned.append taken, h.sent, h.popped, fragment, hfragment, hwhole, ?_⟩
  dsimp only
  rw [List.append_assoc st.proc.buf, ← hpipe]
  exact hbytes

/-- A line leaves the buffer, or only the offset moves. -/
theorem Framed.popLine (h : Framed st) (hstep : system.step st .popLine = some st') :
    Framed st' := by
  obtain ⟨fragment, hfragment, hwhole, hbytes⟩ := h.bytes
  obtain ⟨hpop, hscanned⟩ := popLine_framed h.scanned
  have hst' : st' = { st with
      proc := st.proc.popLine.2
      popped := st.popped ++ st.proc.popLine.1.toList } := (Option.some.inj hstep).symm
  cases hline : NixEvalJobs.popLine newline st.proc.buf with
  | none =>
    -- only the offset moves
    rw [hline] at hpop
    rw [hpop] at hscanned hst'
    subst hst'
    refine ⟨hscanned, h.sent, ?_, fragment, hfragment, hwhole, ?_⟩
    · simpa using h.popped
    · simpa using hbytes
  | some popped =>
    obtain ⟨line, rest⟩ := popped
    -- a line leaves the buffer
    rw [hline] at hpop
    rw [hpop] at hscanned hst'
    subst hst'
    obtain ⟨hclean, hbuf⟩ := popLine_eq_some.mp hline
    refine ⟨hscanned, h.sent, fun l hl => ?_, fragment, hfragment, hwhole, ?_⟩
    · rcases List.mem_append.mp hl with hl | hl
      · exact h.popped l hl
      · obtain rfl := List.mem_singleton.mp hl
        exact hclean
    · rw [hbuf] at hbytes
      simpa using hbytes

/-- Every call keeps the bytes in order. -/
theorem Framed.step (h : Framed st) (hstep : system.step st e = some st') : Framed st' := by
  cases e with
  | send => exact h.send hstep
  | fill => exact h.fill hstep
  | popLine => exact h.popLine hstep

/-- So it holds in every run. -/
theorem framed_reachable (h : system.Reachable System.anyEnv st) : Framed st :=
  h.invariant framed_init fun _ hst _ hstep => hst.step hstep

/-- **Lines come out as they went in.** Whatever the system calls return and in whatever
order both ends act: the lines that `popLine` has returned are the first of those sent, and
none is an unfinished one; they are all of them once everything was read and `popLine`
returns nothing; and it returns what it would if it searched the whole buffer. -/
theorem framing_roundTrips (h : system.Reachable System.anyEnv st) :
    st.popped <+: st.sent ∧
    (st.pipe = [] → st.proc.popLine.1 = none → st.popped = st.sent) ∧
    st.proc.popLine.1 = (NixEvalJobs.popLine newline st.proc.buf).map Prod.fst ∧
    st.proc.popLine.1 = (Proc.popLine { st.proc with scanned := 0 }).1 := by
  have hframed := framed_reachable h
  obtain ⟨fragment, hfragment, -, hbytes⟩ := hframed.bytes
  obtain ⟨later, hsent, hrest⟩ := frames_prefix hframed.popped hframed.sent hfragment hbytes
  -- `popLine` does what a search of the whole buffer does, whatever the offset is
  have hpop : ∀ {p : Proc}, p.Scanned →
      p.popLine.1 = (NixEvalJobs.popLine newline p.buf).map Prod.fst := by
    intro p hp
    rw [(popLine_framed hp).1]
    split
    · next hline => rw [hline]; rfl
    · next hline => rw [hline]; rfl
  refine ⟨⟨later, hsent.symm⟩, fun hpipe hnone => ?_, hpop hframed.scanned, ?_⟩
  · -- a line that is left would be in the buffer
    rw [hpop hframed.scanned, Option.map_eq_none_iff, popLine_eq_none] at hnone
    rw [hpipe, List.append_nil] at hrest
    match later with
    | [] => rw [hsent, List.append_nil]
    | line :: later =>
      refine absurd ?_ hnone
      rw [hrest]
      simp [frame]
  · rw [hpop hframed.scanned, hpop ⟨Nat.zero_le _, by simp⟩]

/-- Two lines, in pieces that are cut elsewhere than they are read. -/
def chunkedRun : List Event :=
  [.send (lit "ab") [.wrote 1, .eintr, .wrote 9], .fill [.bytes 2, .eagain], .popLine,
    .send (lit "c") [.wrote 0, .wrote 2], .fill [.bytes 2, .eintr, .bytes 7, .bytes 7],
    .popLine, .popLine, .popLine]

/-- All was read, and there is no line left. -/
theorem chunkedRun_ends :
    (system.run System.anyCheck system.init chunkedRun).any (fun st =>
      st.sent = [lit "ab", lit "c"] ∧ st.pipe = [] ∧ st.proc.popLine.1 = none) = true := by
  -- without the space that the reads make
  simp only [chunkedRun, System.run, system, step, List.foldlM_cons, fill_bytes, fill_eintr,
    fill_eagain]
  decide +kernel

/-- Every call of it returns. -/
theorem chunkedRun_isSome :
    (system.run System.anyCheck system.init chunkedRun).isSome = true :=
  Option.isSome_of_any chunkedRun_ends

/-- Both lines come out. -/
theorem framing_roundTrips_chunkedRun :
    let st := system.after System.anyCheck chunkedRun chunkedRun_isSome
    st.sent = [lit "ab", lit "c"] ∧ st.popped = st.sent := by
  intro st
  have hst : system.Reachable System.anyEnv st :=
    System.reachable_after (fun _ _ _ => trivial) chunkedRun chunkedRun_isSome
  obtain ⟨hsent, hpipe, hnone⟩ :=
    of_decide_eq_true (System.after_of_any chunkedRun_ends chunkedRun_isSome)
  exact ⟨hsent, (framing_roundTrips hst).2.1 hpipe hnone⟩

end Framing

end NixEvalJobs
