import NixEvalJobs.Codec
import NixEvalJobs.Scheduler.Conservation

/-!
# Scheduler — the result of a run

What the collector is for: the same result as a plain recursive traversal. A
function `f` from attribute paths to payloads says what the evaluation of each
path gives; `Reach f` is the set of paths the traversal visits. If the workers
answer with `f`, then a run that ends without a memory-budget error has settled
exactly these paths, each once, and its `JobMap` holds the encoding of every job
and error under the printed path, and nothing else.

The order in which workers start, answer, restart and die does not show in the
result: `Conserved` says where each path is, and `Recorded` ties the map to the
history. That no job overwrites another one is the injectivity of
`joinAttrPath`.

* `run_eq_traversal` — the result of a run that has ended.
-/

namespace NixEvalJobs

/-- The answer lists attributes, and is no result itself. -/
def Payload.isAttrs : Payload → Bool
  | .attrs _ => true
  | _ => false

/-- Decoding does not change what kind of answer it is. -/
theorem Payload.SameKind.isAttrs_eq {p q : Payload} (h : p.SameKind q) : p.isAttrs = q.isAttrs := by
  cases p <;> cases q <;> first | rfl | cases h

/-- The names of an attribute set are decoded as they were encoded. -/
theorem Payload.SameKind.eq_attrs {p : Payload} {attrs : List Str} (h : p.SameKind (.attrs attrs)) :
    p = .attrs attrs := by
  cases p with
  | attrs names => exact congrArg Payload.attrs h
  | job | error => cases h

/-- The same from the other side. -/
theorem Payload.SameKind.attrs_eq {attrs : List Str} {p : Payload}
    (h : Payload.SameKind (.attrs attrs) p) : p = .attrs attrs := by
  cases p with
  | attrs names => exact congrArg Payload.attrs h.symm
  | job | error => cases h

/-- The paths a plain traversal of `f` visits. -/
inductive Reach (f : AttrPath → Payload) : AttrPath → Prop where
  | root : Reach f []
  | child {path : AttrPath} {attrs : List Str} {attr : Str} : Reach f path →
      f path = .attrs attrs → attr ∈ attrs → Reach f (path ++ [attr])

/-- `response` answers `path` with `f path`; warnings, traces and statistics are
the worker's. -/
structure Response.AnswerTo (f : AttrPath → Payload) (path : AttrPath) (response : Response) :
    Prop where
  attr : response.attr = joinAttrPath path
  attrPath : response.attrPath = path
  payload : response.payload = f path

namespace Scheduler

variable {n : Nat} {X : Externals} {nrWorkers maxMemorySize : UInt64} {resolver : Bool}
  {f : AttrPath → Payload}

/-- The workers answer a dispatched path `p` with `f p`. -/
def Answers (X : Externals) (f : AttrPath → Payload) : Config n → Event n → Prop
  | c, .line idx line _ =>
    ∀ path, (c.sched.workers idx).phase = .busy → (c.sched.workers idx).attrPath = some path →
      ∃ response : Response, response.AnswerTo f path ∧
        X.parse line = some (response.toJson X.toStorePaths)
  | _, _ => True

/-- What the collector makes of an answer. -/
structure Decoded (X : Externals) (f : AttrPath → Payload) (path : AttrPath)
    (response : Response) (json : Json) : Prop where
  attr : response.attr = joinAttrPath path
  echo : response.attrPath = path
  kind : response.payload.SameKind (f path)
  json : ∃ answer : Response, answer.AnswerTo f path ∧ json = answer.toJson X.toStorePaths

/-- What is in the map comes from the history, and the other way round. -/
def Recorded (s : Scheduler n) : Prop :=
  (∀ path, .budgetError path ∉ s.trace) → ∀ key json,
    s.jobs[key]? = some json ↔ ∃ response, .responded response json ∈ s.trace ∧
      response.payload.isAttrs = false ∧ key = joinAttrPath response.attrPath

/-- The history holds answers only. -/
def Truthful (X : Externals) (f : AttrPath → Payload) (s : Scheduler n) : Prop :=
  ∀ response json, .responded response json ∈ s.trace →
    Decoded X f response.attrPath response json

/-- What workers answer, seen from the collector: it decodes it to an answer of the same kind. -/
theorem decoded_of_answers (c : Config n) (e : Event n) (h : Answers X f c e) :
    Answered X (Decoded X f) c e := by
  cases e with
  | line idx line rss =>
    intro path response json hbusy hpath hparse
    obtain ⟨answer, hanswer, htext⟩ := h path hbusy hpath
    rw [parseResponse, htext] at hparse
    dsimp only at hparse
    split at hparse
    · -- the one branch of `parseResponse` that does not throw
      next decoded hdecoded =>
      obtain ⟨rfl, rfl⟩ := Prod.mk.inj (Except.ok.inj hparse)
      obtain ⟨hattr, hecho, hkind⟩ := Response.fromJson_toJson_kind hdecoded
      exact ⟨hattr.trans hanswer.attr, hecho.trans hanswer.attrPath, hanswer.payload ▸ hkind,
        answer, hanswer, rfl⟩
    · cases hparse
    · cases hparse
  | _ => trivial

/-! ## The map -/

/-- The map and the responses of the history stay as they are. -/
theorem Recorded.of_eq {s s' : Scheduler n} (h : s.Recorded) (hjobs : s'.jobs = s.jobs)
    (hresponded : ∀ response json, .responded response json ∈ s'.trace ↔
      .responded response json ∈ s.trace)
    (hbudget : ∀ path, .budgetError path ∈ s.trace → .budgetError path ∈ s'.trace) :
    s'.Recorded := by
  intro hnone key json
  rw [hjobs, h (fun path hp => hnone path (hbudget path hp)) key json]
  simp only [hresponded]

/-- Recording an effect that is no response. -/
theorem Recorded.cons {s s' : Scheduler n} {e : Effect n} (h : s.Recorded)
    (hjobs : s'.jobs = s.jobs) (htrace : s'.trace = e :: s.trace)
    (he : ∀ response json, e ≠ .responded response json) : s'.Recorded := by
  refine h.of_eq hjobs (fun response json => ?_) fun path hp => ?_
  · rw [htrace, List.mem_cons]
    exact or_iff_right (he response json).symm
  · rw [htrace]
    exact List.mem_cons_of_mem _ hp

/-- A processed response adds its entry, under a key no other path prints to. -/
theorem recorded_finish {s m : Scheduler n} {i : Fin n} {path : AttrPath} {response : Response}
    {json : Json} {line : Str} {rss : UInt64} (h : s.Recorded) (hconserved : s.Conserved)
    (hresolver : s.cacheStatusResolver = false) (hholds : (s.workers i).holds path = true)
    (hdecoded : Decoded X f path response json)
    (haccept : s.acceptResponse response json line = .ok m) :
    ((m.record (.responded response json)).jobFinished i rss).Recorded := by
  obtain rfl := hdecoded.echo
  have htrace : ((m.record (.responded response json)).jobFinished i rss).trace =
      .responded response json :: s.trace := by
    rw [← (acceptResponse_frame haccept).2.1]
    rfl
  intro hnone key json'
  rw [htrace] at hnone ⊢
  have hold := h (fun p hp => hnone p (List.mem_cons_of_mem _ hp)) key json'
  rcases acceptResponse_cases haccept with ⟨attrs, hattrs, rfl⟩ | ⟨hother, hm⟩
  · -- an attribute set leaves the map alone, and is no result in the history either
    change s.jobs[key]? = some json' ↔ _
    rw [hold]
    refine exists_congr fun r => and_congr_left fun hr => ?_
    rw [List.mem_cons]
    refine (or_iff_right fun hc => ?_).symm
    cases hc
    rw [hattrs] at hr
    cases hr.1
  · -- a job or an error, without a cache status to wait for
    have hkind : response.payload.isAttrs = false := by
      cases hp : response.payload with
      | attrs attrs => exact absurd hp (hother attrs)
      | job | error => rfl
    obtain ⟨hon, -⟩ | rfl := hm
    · rw [hresolver] at hon
      cases hon
    change (s.jobs.insert response.attr json)[key]? = some json' ↔ _
    rw [Std.ExtTreeMap.getElem?_insert]
    by_cases hkey : response.attr = key
    · rw [if_pos (Std.LawfulEqCmp.compare_eq_iff_eq.mpr hkey)]
      constructor
      · intro hj
        obtain rfl := Option.some.inj hj
        exact ⟨response, List.mem_cons_self .., hkind, hkey.symm.trans hdecoded.attr⟩
      · rintro ⟨r, hmem, -, hr⟩
        rcases List.mem_cons.mp hmem with heq | hmem
        · cases heq
          rfl
        · -- the path was not settled before, so no response to it is in the history
          refine absurd ?_ (hconserved.not_responded hholds hmem)
          exact joinAttrPath_inj (hr.symm.trans (hkey.symm.trans hdecoded.attr))
    · rw [if_neg fun hc => hkey (Std.LawfulEqCmp.compare_eq_iff_eq.mp hc), hold]
      refine exists_congr fun r => and_congr_left fun hr => ?_
      rw [List.mem_cons]
      refine (or_iff_right fun hc => ?_).symm
      cases hc
      exact hkey (hdecoded.attr.trans hr.2.symm)

/-! ## Preservation -/

/-- Whether there is a cache status resolver is fixed. -/
theorem move_resolver {ok : AttrPath → Response → Json → Prop} {a b : Snapshot n}
    (hm : Move X ok a b) : b.sched.cacheStatusResolver = a.sched.cacheStatusResolver := by
  cases hm with
  | finish _ _ haccept =>
    rcases acceptResponse_cases haccept with ⟨attrs, -, rfl⟩ | ⟨-, ⟨-, rfl⟩ | rfl⟩ <;> rfl
  | _ => rfl

/-- It is as the options said. -/
theorem resolver_visited {ok : AttrPath → Response → Json → Prop} {a : Snapshot n}
    (h : Visited X ok nrWorkers maxMemorySize resolver a) :
    a.sched.cacheStatusResolver = resolver :=
  h.invariant (I := fun a : Snapshot n => a.sched.cacheStatusResolver = resolver) rfl
    fun _ ha hm => (move_resolver hm).trans ha

/-- The map and the history start empty. -/
theorem recorded_init : (init n nrWorkers maxMemorySize resolver).Recorded := by
  intro _ key json
  simp [init]

/-- Each move keeps the map in step with the history. -/
theorem recorded_move {a b : Snapshot n}
    (hvisited : Visited X (Decoded X f) nrWorkers maxMemorySize false a)
    (h : a.sched.Recorded) (hm : Move X (Decoded X f) a b) : b.sched.Recorded := by
  cases hm with
  | beginPass | endPass | started | restarted | exited | lost | sample =>
    exact h.of_eq rfl (fun _ _ => Iff.rfl) fun _ hp => hp
  | enterSolo | sendExit | takeSolo | takeTodo | spawn | requeue | evict =>
    exact h.cons rfl rfl fun _ _ he => by cases he
  | giveUp =>
    -- the map gains an entry no worker answered for, and the history says so
    intro hnone
    exact absurd (List.mem_cons_self ..) (hnone _)
  | @finish s m i response json line rss hbusy hdecoded haccept =>
    obtain ⟨path, hpath⟩ := (poolOk_visited hvisited i).path (Worker.running_iff.mpr (.inl hbusy))
    exact recorded_finish h
      (conserved_visited (fun _ _ _ hd => hd.echo) hvisited) (resolver_visited hvisited)
      (Worker.holds_iff.mpr ⟨.inl hbusy, hpath⟩) (hdecoded path hpath) haccept

/-- So it is in every state. -/
theorem recorded_visited {a : Snapshot n}
    (h : Visited X (Decoded X f) nrWorkers maxMemorySize false a) : a.sched.Recorded :=
  h.invariant recorded_init fun hvisited ha hm => recorded_move hvisited ha hm

/-- Recording an effect that is no response. -/
theorem Truthful.cons {s s' : Scheduler n} {e : Effect n} (h : s.Truthful X f)
    (htrace : s'.trace = e :: s.trace) (he : ∀ response json, e ≠ .responded response json) :
    s'.Truthful X f := by
  intro response json hmem
  rw [htrace] at hmem
  rcases List.mem_cons.mp hmem with heq | hmem
  · exact absurd heq.symm (he response json)
  · exact h response json hmem

/-- A move records answers only. -/
theorem truthful_move {a b : Snapshot n} (hpool : a.sched.PoolOk)
    (h : a.sched.Truthful X f) (hm : Move X (Decoded X f) a b) : b.sched.Truthful X f := by
  cases hm with
  | beginPass | endPass | started | restarted | exited | lost | sample => exact h
  | enterSolo | sendExit | takeSolo | takeTodo | spawn | requeue | evict | giveUp =>
    exact h.cons rfl fun _ _ he => by cases he
  | @finish s m i response json line rss hbusy hdecoded haccept =>
    obtain ⟨path, hpath⟩ := (hpool i).path (Worker.running_iff.mpr (.inl hbusy))
    have hthis := hdecoded path hpath
    intro r j hmem
    change _ ∈ Effect.responded response json :: m.trace at hmem
    rw [(acceptResponse_frame haccept).2.1] at hmem
    rcases List.mem_cons.mp hmem with heq | hmem
    · cases heq
      rwa [hthis.echo]
    · exact h r j hmem

/-- So the history of every state is truthful. -/
theorem truthful_visited {a : Snapshot n}
    (h : Visited X (Decoded X f) nrWorkers maxMemorySize resolver a) : a.sched.Truthful X f :=
  h.invariant (fun _ _ hmem => by cases hmem) fun hvisited ha hm =>
    truthful_move (poolOk_visited hvisited) ha hm

/-! ## Discovery is reachability -/

/-- What was discovered, the traversal visits. -/
theorem reach_of_discovered {s : Scheduler n} (h : s.Truthful X f)
    (hconserved : s.Conserved) {path : AttrPath} (hpath : discovered path s.trace = true) :
    Reach f path := by
  -- the parent of a discovered path was settled, so it was discovered itself
  -- on the path from its end, since a path is listed by its parent
  induction path using List.reverseRecOn with
  | nil => exact .root
  | append_singleton path attr ih =>
    have hsettled := settled_pos_of_discovered hpath
    have hparent : discovered path s.trace = true := by
      have hplaces := hconserved path
      rw [places] at hplaces
      rw [← Bool.toNat_eq_one]
      have hle := Bool.toNat_le (discovered path s.trace)
      omega
    rw [discovered, decide_eq_true_eq] at hpath
    rcases hpath with hnil | hany
    · simp at hnil
    obtain ⟨e, hmem, hlists⟩ := List.any_eq_true.mp hany
    obtain ⟨response, json, attrs, name, rfl, hattrs, hname, heq⟩ := Effect.lists_eq_true hlists
    obtain ⟨hpre, hlast⟩ := List.append_inj' heq rfl
    obtain rfl : name = attr := (List.cons.inj hlast).1
    have hkind := (h response json hmem).kind
    rw [hpre, hattrs] at hkind
    exact .child (ih hparent) hkind.attrs_eq hname

/-- When everything discovered is settled, the traversal visits nothing else. -/
theorem discovered_of_reach {s : Scheduler n} (h : s.Truthful X f)
    (hsettled : ∀ path, discovered path s.trace = true → ∃ response json,
      .responded response json ∈ s.trace ∧ response.attrPath = path)
    {path : AttrPath} (hpath : Reach f path) : discovered path s.trace = true := by
  induction hpath with
  | root => simp [discovered]
  | @child path attrs attr _ hattrs hattr ih =>
    -- the parent was settled by a response that lists the attribute
    obtain ⟨response, json, hmem, rfl⟩ := hsettled path ih
    have hkind := (h response json hmem).kind
    rw [hattrs] at hkind
    rw [discovered, decide_eq_true_eq]
    refine .inr (List.any_eq_true.mpr ⟨_, hmem, ?_⟩)
    rw [Effect.lists, hkind.eq_attrs]
    exact List.any_eq_true.mpr ⟨attr, hattr, by simp⟩

/-- At the end nothing is queued and nothing runs, so what was discovered is settled. -/
theorem settled_eq_discovered {s : Scheduler n} (hconserved : s.Conserved)
    (hend : s.loops = false) (path : AttrPath) :
    settled path s.trace = (discovered path s.trace).toNat := by
  rw [loops, Bool.or_eq_false_iff, Bool.not_eq_false'] at hend
  obtain ⟨htodo, hsolo, hrunning⟩ := finished_iff.mp hend.1
  have hheld : s.holders path = 0 := countSlots_eq_zero.mpr fun i =>
    holds_of_not_running (running_eq_zero.mp hrunning i) path
  rw [← hconserved path, places, htodo, hsolo, hheld]
  simp

/-- Without a memory-budget error, only responses settle. -/
theorem responded_of_settled {trace : List (Effect n)} {path : AttrPath}
    (hnone : ∀ path, .budgetError path ∉ trace) (h : 0 < settled path trace) :
    ∃ response json, .responded response json ∈ trace ∧ response.attrPath = path := by
  obtain ⟨e, hmem, he⟩ := List.countP_pos_iff.mp h
  cases e with
  | responded response json => exact ⟨response, json, hmem, of_decide_eq_true he⟩
  | budgetError p => exact absurd hmem (hnone p)
  | _ => cases he

/-- **The collector computes the traversal.** Workers answer every path `p` they
are sent with `f p`. When the loop of `run` has ended and no memory-budget error
was emitted, the paths the traversal of `f` visits are settled, each once, and no
other path is; and the map holds the encodings of their jobs and errors, under
the printed paths, and nothing else. -/
theorem run_eq_traversal {c : Config n}
    (h : (system X nrWorkers maxMemorySize false).Reachable (Answers X f) c)
    (hend : c.sched.loops = false)
    (hbudget : ∀ path, .budgetError path ∉ c.sched.trace) :
    (∀ path, Reach f path → settled path c.sched.trace = 1) ∧
    (∀ path, ¬Reach f path → settled path c.sched.trace = 0) ∧
    (∀ path, Reach f path → (f path).isAttrs = false →
      ∃ response : Response, response.AnswerTo f path ∧
        c.sched.jobs[joinAttrPath path]? = some (response.toJson X.toStorePaths)) ∧
    (∀ key json, c.sched.jobs[key]? = some json →
      ∃ path, Reach f path ∧ (f path).isAttrs = false ∧ key = joinAttrPath path) := by
  have hvisited := Visited.of_reachable (h.mono decoded_of_answers)
  have htruthful : c.sched.Truthful X f := truthful_visited hvisited
  have hconserved : c.sched.Conserved :=
    conserved_visited (fun _ _ _ hd => hd.echo) hvisited
  have hrecorded : c.sched.Recorded := recorded_visited hvisited
  -- when the loop has ended nothing waits or runs, so what is known is settled
  have hsettled := settled_eq_discovered hconserved hend
  have hanswered : ∀ path, discovered path c.sched.trace = true → ∃ response json,
      .responded response json ∈ c.sched.trace ∧ response.attrPath = path := by
    intro path hpath
    refine responded_of_settled hbudget ?_
    rw [hsettled, hpath]
    exact Nat.one_pos
  -- known are exactly the paths the traversal comes to
  have hreach : ∀ path, discovered path c.sched.trace = true ↔ Reach f path := fun path =>
    ⟨reach_of_discovered htruthful hconserved, discovered_of_reach htruthful hanswered⟩
  refine ⟨fun path hpath => ?_, fun path hpath => ?_, fun path hpath hkind => ?_,
    fun key json hjson => ?_⟩
  · rw [hsettled, (hreach path).mpr hpath]
    rfl
  · rw [hsettled, Bool.eq_false_iff.mpr fun hd => hpath ((hreach path).mp hd)]
    rfl
  · obtain ⟨response, json, hmem, rfl⟩ := hanswered path ((hreach path).mpr hpath)
    have hdecoded := htruthful response json hmem
    obtain ⟨answer, hanswer, rfl⟩ := hdecoded.json
    exact ⟨answer, hanswer, (hrecorded hbudget _ _).mpr
      ⟨response, hmem, hdecoded.kind.isAttrs_eq.trans hkind, rfl⟩⟩
  · obtain ⟨response, hmem, hkind, rfl⟩ := (hrecorded hbudget key json).mp hjson
    have hdecoded := htruthful response json hmem
    refine ⟨response.attrPath, (hreach _).mp ?_, hdecoded.kind.isAttrs_eq.symm.trans hkind, rfl⟩
    -- an entry is the value of a response, whose path is settled and so known
    have hpos : 0 < settled response.attrPath c.sched.trace :=
      List.countP_pos_iff.mpr ⟨_, hmem, by simp [Effect.settles]⟩
    rw [hsettled] at hpos
    by_contra hnot
    rw [Bool.eq_false_iff.mpr hnot] at hpos
    exact absurd hpos (Nat.lt_irrefl 0)

/-! ## A run to the end -/

/-- The root has the attributes `a`, which fails, and `b`, which is empty. -/
def rootEval : AttrPath → Payload
  | [] => rootResponse.payload
  | [name] => if name = lit "a" then .error (lit "no such thing") false else .attrs []
  | _ => .attrs []

def rootAnswer (path : AttrPath) : Response where
  attr := joinAttrPath path
  attrPath := path
  payload := rootEval path

def rootExternals : Externals :=
  Externals.plain
    [rootJson, (rootAnswer [lit "a"]).toJson StorePaths.plain,
      (rootAnswer [lit "b"]).toJson StorePaths.plain]

/-- The line a worker answers with. -/
def rootLine (path : AttrPath) : Str :=
  (((rootAnswer path).toJson StorePaths.plain).plainDump).getD []

/-- One worker answers for `a` and restarts, the other one answers for `b`; a last
pass tells the idle ones to exit. -/
def fullRun : List (Event 2) :=
  Event.rootRun ++ [Event.line 1 msgNext 300] ++ Event.calmPass 2 ++
    [Event.line 0 (rootLine [lit "a"]) 300, .line 1 (rootLine [lit "b"]) 300,
      .line 0 msgRestart 300, .line 1 msgNext 300] ++ Event.calmPass 2 ++
    [Event.eof 1 ⟨.failed, none⟩]

def rootCheck : Config 2 → Event 2 → Bool
  | c, .line idx line _ => ∀ path ∈ (c.sched.workers idx).attrPath,
      line = rootLine path ∧ (path = [] ∨ path = [lit "a"] ∨ path = [lit "b"])
  | _, _ => true

theorem rootExternals_parse {path : AttrPath}
    (h : path = [] ∨ path = [lit "a"] ∨ path = [lit "b"]) :
    rootExternals.parse (rootLine path) = some ((rootAnswer path).toJson StorePaths.plain) := by
  rw [rootExternals, Externals.plain]
  dsimp only [JsonText.plain]
  rcases h with rfl | rfl | rfl
  · rw [List.find?_cons_of_pos (by decide +kernel)]
    rfl
  · rw [List.find?_cons_of_neg (by decide +kernel), List.find?_cons_of_pos (by decide +kernel)]
  · rw [List.find?_cons_of_neg (by decide +kernel), List.find?_cons_of_neg (by decide +kernel),
      List.find?_cons_of_pos (by decide +kernel)]

theorem answers_of_rootCheck (c : Config 2) (e : Event 2) (h : rootCheck c e = true) :
    Answers rootExternals rootEval c e := by
  cases e with
  | line idx line rss =>
    intro path _ hpath
    obtain ⟨rfl, hmem⟩ := of_decide_eq_true h path hpath
    exact ⟨rootAnswer path, ⟨rfl, rfl, rfl⟩, rootExternals_parse hmem⟩
  | _ => trivial

/-- The run goes through. -/
theorem fullRun_isSome :
    ((system rootExternals 2 4096 false).run rootCheck (system rootExternals 2 4096 false).init
      fullRun).isSome = true := by
  decide +kernel

/-- The root and its attribute are settled once, and the attribute is in the map. -/
theorem run_eq_traversal_fullRun :
    let c := (system rootExternals 2 4096 false).after rootCheck fullRun fullRun_isSome
    settled [] c.sched.trace = 1 ∧ settled [lit "a"] c.sched.trace = 1 ∧
      ∃ response : Response, response.AnswerTo rootEval [lit "a"] ∧
        c.sched.jobs[lit "a"]? = some (response.toJson rootExternals.toStorePaths) := by
  intro c
  have hnone : c.sched.trace.all (fun e => e.gaveUp = none) = true := by decide +kernel
  have hbudget : ∀ path, .budgetError path ∉ c.sched.trace := by
    intro path hmem
    have hgaveUp := of_decide_eq_true (List.all_eq_true.mp hnone _ hmem)
    cases hgaveUp
  have h := run_eq_traversal (System.reachable_after answers_of_rootCheck fullRun fullRun_isSome)
    (by decide +kernel) hbudget
  have ha : Reach rootEval [lit "a"] := Reach.child .root rfl (List.mem_cons_self ..)
  exact ⟨h.1 _ .root, h.1 _ ha, h.2.2.1 _ ha (by decide +kernel)⟩

end Scheduler

end NixEvalJobs
