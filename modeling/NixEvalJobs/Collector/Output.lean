import NixEvalJobs.Collector.System
import NixEvalJobs.Constituents.Recording

/-!
# Collector — what both sides write

Every result is written once: a job or an error when its line is read, or, if it is a job
and there is a resolver, when the thread is done with it. So the results that have been
written and those the resolver still has are the results that are due, of the paths the
history has settled.

* `keeps_reachable` — the map and the output, in every run.
-/

namespace NixEvalJobs

/-! ## The scheduler -/

namespace Effect

variable {n : Nat}

/-- The path with a result, a job or an error, also that of the budget. -/
def due : Effect n → Option AttrPath
  | .responded response _ => if response.payload.isAttrs then none else some response.attrPath
  | .budgetError path => some path
  | _ => none

/-- What gets due is settled. -/
theorem settles_of_due {path : AttrPath} {e : Effect n} (h : e.due = some path) :
    e.settles path = true := by
  cases e with
  | responded response json =>
    rw [due] at h
    split at h
    · cases h
    · exact decide_eq_true (Option.some.inj h)
  | budgetError p => exact decide_eq_true (Option.some.inj h)
  | _ => cases h

end Effect

/-- `response` was decoded from what a worker answers for its path. -/
def Response.IsAnswer (X : Externals) (f : AttrPath → Payload) (response : Response) : Prop :=
  ∃ answer : Response, answer.AnswerTo f response.attrPath ∧
    Response.fromJson X.toStorePaths (answer.toJson X.toStorePaths) = .ok response

/-- Its name is that of its path. -/
theorem Response.IsAnswer.attr {X : Externals} {f : AttrPath → Payload} {response : Response}
    (h : response.IsAnswer X f) : response.attr = joinAttrPath response.attrPath := by
  obtain ⟨answer, hanswer, hdecode⟩ := h
  exact (Response.fromJson_toJson_kind hdecode).1.trans hanswer.attr

/-- It is a set, a job or an error as the worker says. -/
theorem Response.IsAnswer.kind {X : Externals} {f : AttrPath → Payload} {response : Response}
    (h : response.IsAnswer X f) : response.payload.SameKind (f response.attrPath) := by
  obtain ⟨answer, hanswer, hdecode⟩ := h
  exact hanswer.payload ▸ (Response.fromJson_toJson_kind hdecode).2.2

/-- Where a written result comes from: from the line of a worker, which is a job only if
`direct`, from the thread, or from a worker that was killed when it was alone. -/
inductive Emission.Origin (X : Externals) (f : AttrPath → Payload) (direct : Bool)
    (budget : UInt64) {n : Nat} (trace : List (Effect n)) (sunk : List Response)
    (e : Emission) : Prop where
  | answered {answer : Response} : answer.AnswerTo f e.response.attrPath →
      Response.fromJson X.toStorePaths e.json = .ok e.response →
      e.json = answer.toJson X.toStorePaths →
      direct = true ∨ (∀ drv extraValue, e.response.payload ≠ .job drv extraValue) →
      Emission.Origin X f direct budget trace sunk e
  | resolved {pushed : Response} : pushed.IsAnswer X f →
      pushed.attrPath = e.response.attrPath →
      pushed.hasPendingConstituents = e.response.hasPendingConstituents →
      e.response ∈ sunk → e.json = e.response.toJson X.toStorePaths →
      Emission.Origin X f direct budget trace sunk e
  | gaveUp : .budgetError e.response.attrPath ∈ trace →
      e.response = Scheduler.errorResponse e.response.attrPath (Scheduler.budgetMessage budget) →
      e.json = e.response.toJson X.toStorePaths → Emission.Origin X f direct budget trace sunk e

namespace Scheduler

variable {n : Nat} {X : Externals} {f : AttrPath → Payload} {s s' m : Scheduler n}

/-- The paths with a result. -/
def dues (trace : List (Effect n)) : List AttrPath := trace.filterMap Effect.due

/-- A path is due no more often than it is settled. -/
theorem count_dues_le (path : AttrPath) (trace : List (Effect n)) :
    (dues trace).count path ≤ settled path trace := by
  rw [dues, List.count_filterMap, settled]
  exact List.countP_mono_left fun e _ he => Effect.settles_of_due (beq_iff_eq.mp he)

/-- No path is settled twice, so no result is due twice. -/
theorem Conserved.nodup_dues (h : s.Conserved) : (dues s.trace).Nodup := by
  refine List.nodup_iff_count_le_one.mpr fun path => ?_
  have hplaces := h path
  have hle := Bool.toNat_le (discovered path s.trace)
  have hcount := count_dues_le path s.trace
  rw [places] at hplaces
  omega

/-- Workers answer a path `p` with a line that is the text of `f p`. -/
def Replies (X : Externals) (f : AttrPath → Payload) : Config n → Event n → Prop
  | c, .line idx line _ =>
    ∀ path, (c.sched.workers idx).phase = .busy → (c.sched.workers idx).attrPath = some path →
      ∃ response : Response, response.AnswerTo f path ∧
        X.parse line = some (response.toJson X.toStorePaths) ∧
        X.dump (response.toJson X.toStorePaths) = some line
  | _, _ => True

/-- So they answer in the sense of the scheduler. -/
theorem answers_of_replies {c : Config n} {e : Event n} (h : Replies X f c e) :
    Answers X f c e := by
  cases e with
  | line idx line rss =>
    intro path hbusy hpath
    obtain ⟨response, hanswer, hparse, -⟩ := h path hbusy hpath
    exact ⟨response, hanswer, hparse⟩
  | _ => trivial

/-- What a step writes or pushes is the result that gets due. -/
inductive Emits (X : Externals) (f : AttrPath → Payload) (s s' : Scheduler n) : Prop where
  | quiet : s'.jobs = s.jobs → s'.stdout = s.stdout → s'.pushed = s.pushed →
      dues s'.trace = dues s.trace → Emits X f s s'
  | wrote {e : Emission} : e.Valid X.toStorePaths X.dump →
      e.response.attr = joinAttrPath e.response.attrPath →
      e.Origin X f (!s.cacheStatusResolver) s.budget s'.trace [] →
      s'.jobs = s.jobs.insert e.response.attr e.json →
      s'.stdout = (NixEvalJobs.emitResponse ⟨s.jobs, s.stdout⟩ e).stdout →
      s'.pushed = s.pushed → dues s'.trace = e.response.attrPath :: dues s.trace →
      Emits X f s s'
  | pushed {response : Response} : s.cacheStatusResolver = true → response.IsAnswer X f →
      (∃ drv extraValue, response.payload = .job drv extraValue) → s'.jobs = s.jobs →
      s'.stdout = s.stdout → s'.pushed = s.pushed ++ [response] →
      dues s'.trace = response.attrPath :: dues s.trace → Emits X f s s'

/-- Two states with the same output. -/
structure SameOutput (s m : Scheduler n) : Prop where
  jobs : m.jobs = s.jobs
  stdout : m.stdout = s.stdout
  pushed : m.pushed = s.pushed
  dues : dues m.trace = dues s.trace
  resolver : m.cacheStatusResolver = s.cacheStatusResolver
  budget : m.budget = s.budget

/-- Taking a job writes nothing. -/
theorem takeJob_quiet {i : Fin n} {own : UInt64} {path : AttrPath} {source : Source}
    (h : s.takeJob i own = .ok (some (path, source), m)) :
    SameOutput s (m.handOut i path source) := by
  -- it is taken from `todo` or from the paths for a solo run
  rcases takeJob_cases h with ⟨hnone, -⟩ | ⟨p, -, -, -, -, rfl⟩ | ⟨p, -, -, -, -, -, rfl⟩
  · cases hnone
  · exact ⟨rfl, rfl, rfl, rfl, rfl, rfl⟩
  · exact ⟨rfl, rfl, rfl, rfl, rfl, rfl⟩

/-- The error of the budget is written for the path that is given up. -/
theorem emits_emitError {path : AttrPath}
    (h : s.emitError X path (budgetMessage s.budget) = .ok m) :
    Emits X f s (m.record (.budgetError path)) := by
  rw [emitError] at h
  split at h
  · next dumped hdump =>
    obtain rfl := Except.ok.inj h
    let response := errorResponse path (budgetMessage s.budget)
    let e : Emission := ⟨response, response.toJson X.toStorePaths, dumped⟩
    exact .wrote (e := e) ⟨fun _ h => (by cases h), .inl rfl, hdump⟩ rfl
      (.gaveUp (List.mem_cons_self ..) rfl rfl) rfl rfl rfl rfl
  · cases h

/-- The slot of a killed worker is forgotten, which writes nothing. -/
theorem Emits.forgetKilled {i : Fin n} (h : Emits X f s m) : Emits X f s (m.forgetKilled i) := by
  cases h with
  | quiet hjobs hstdout hpushed hdues => exact .quiet hjobs hstdout hpushed hdues
  | wrote hvalid hattr horigin hjobs hstdout hpushed hdues =>
    exact .wrote hvalid hattr horigin hjobs hstdout hpushed hdues
  | pushed hresolver hanswer hkind hjobs hstdout hpushed hdues =>
    exact .pushed hresolver hanswer hkind hjobs hstdout hpushed hdues

/-- A killed worker writes only the error of the budget. -/
theorem emits_onKilled {i : Fin n} (h : s.onKilled X i = .ok s') : Emits X f s s' := by
  rw [onKilled] at h
  obtain ⟨-, -, h⟩ := bind_eq_ok.mp h
  split at h
  · split at h
    · next path _ =>
      obtain ⟨m, hm, hret⟩ := bind_eq_ok.mp h
      obtain rfl := Except.ok.inj hret
      refine Emits.forgetKilled ?_
      rw [retryJob] at hm
      -- a worker that was alone is given up, any other is retried
      split at hm
      · obtain ⟨e, he, hret⟩ := bind_eq_ok.mp hm
        obtain rfl := Except.ok.inj hret
        exact emits_emitError he
      · obtain rfl := Except.ok.inj hm
        exact .quiet rfl rfl rfl rfl
    · cases h
  · obtain rfl := Except.ok.inj h
    exact .quiet rfl rfl rfl rfl

/-- So does the end of its output, which throws for any other worker that is not exiting. -/
theorem emits_onEof {i : Fin n} {wait : Wait} (h : s.onEof X i wait = .ok s') :
    Emits X f s s' := by
  rcases onEof_cases h with ⟨-, rfl⟩ | ⟨-, -, hkilled⟩
  · exact .quiet rfl rfl rfl rfl
  · exact emits_onKilled hkilled

/-- What comes before a step that writes, and writes nothing itself. -/
theorem Emits.after (h : Emits X f m s') (hsame : SameOutput s m) : Emits X f s s' := by
  obtain ⟨hjobs, hstdout, hpushed, hdues, hresolver, hbudget⟩ := hsame
  cases h with
  | quiet hj ho hp hd =>
    exact .quiet (hj.trans hjobs) (ho.trans hstdout) (hp.trans hpushed) (hd.trans hdues)
  | wrote hvalid hattr horigin hj ho hp hd =>
    refine .wrote hvalid hattr (hbudget ▸ hresolver ▸ horigin) (hjobs ▸ hj) ?_ (hp.trans hpushed)
      (hdues ▸ hd)
    rw [ho, hjobs, hstdout]
  | pushed hr hanswer hkind hj ho hp hd =>
    exact .pushed (hresolver ▸ hr) hanswer hkind (hj.trans hjobs) (ho.trans hstdout)
      (hpushed ▸ hp) (hdues ▸ hd)

/-- A response that a busy worker has written in one line, as the collector decodes it. -/
structure Received (X : Externals) (f : AttrPath → Payload) (response : Response) (json : Json)
    (line : Str) : Prop where
  answer : ∃ answer : Response,
    answer.AnswerTo f response.attrPath ∧ json = answer.toJson X.toStorePaths
  decoded : Response.fromJson X.toStorePaths json = .ok response
  dump : X.dump json = some line

/-- It has the name of its path. -/
theorem Received.named {response : Response} {json : Json} {line : Str}
    (h : Received X f response json line) : response.attr = joinAttrPath response.attrPath := by
  obtain ⟨answer, hanswer, rfl⟩ := h.answer
  exact (Response.fromJson_toJson_kind h.decoded).1.trans hanswer.attr

/-- It is what the worker answers. -/
theorem Received.isAnswer {response : Response} {json : Json} {line : Str}
    (h : Received X f response json line) : response.IsAnswer X f := by
  obtain ⟨answer, hanswer, rfl⟩ := h.answer
  exact ⟨answer, hanswer, h.decoded⟩

/-- What is written of it, if it is a result and there is no resolver for it. -/
theorem Received.emission {response : Response} {json : Json} {line : Str}
    (h : Received X f response json line) (direct : Bool) (budget : UInt64)
    (trace : List (Effect n))
    (hkind : ∀ attrs, response.payload ≠ .attrs attrs)
    (hdirect : direct = true ∨ (∀ drv extraValue, response.payload ≠ .job drv extraValue)) :
    Emission.Valid X.toStorePaths X.dump ⟨response, json, line⟩ ∧
      Emission.Origin X f direct budget trace [] ⟨response, json, line⟩ := by
  obtain ⟨answer, hanswer, hjson⟩ := h.answer
  exact ⟨⟨hkind, .inr ⟨answer, hjson, h.decoded⟩, h.dump⟩,
    .answered hanswer h.decoded hjson hdirect⟩

/-- What a busy worker is answered with is decoded to its answer. -/
theorem received_of_replies {c : Config n} {i : Fin n} {line : Str} {rss : UInt64}
    {response : Response} {json : Json} (hphases : c.sched.PhasesConsistent)
    (hreplies : Replies X f c (.line i line rss)) (hbusy : (c.sched.workers i).phase = .busy)
    (hparse : parseResponse X line = .ok (response, json)) :
    (c.sched.workers i).attrPath = some response.attrPath ∧
      Received X f response json line := by
  obtain ⟨path, hpath⟩ := (hphases i).ok.path (Worker.running_iff.mpr (.inl hbusy))
  obtain ⟨answer, hanswer, htext, hdump⟩ := hreplies path hbusy hpath
  rw [parseResponse, htext] at hparse
  dsimp only at hparse
  split at hparse
  · next decoded hdecoded =>
    obtain ⟨rfl, rfl⟩ := Prod.mk.inj (Except.ok.inj hparse)
    -- the path comes back as it was sent
    have hecho : decoded.attrPath = path :=
      (Response.fromJson_toJson_kind hdecoded).2.1.trans hanswer.attrPath
    exact ⟨hecho ▸ hpath, ⟨answer, hecho ▸ hanswer, rfl⟩, hdecoded, hdump⟩
  · cases hparse
  · cases hparse

/-- The line of a busy worker is its result, or the children of its path. -/
theorem emits_finish {i : Fin n} {response : Response} {json : Json} {line : Str} {rss : UInt64}
    (hreceived : Received X f response json line)
    (haccept : s.acceptResponse response json line = .ok m) :
    Emits X f s ((m.record (.responded response json)).jobFinished i rss) := by
  have hdues : dues ((m.record (.responded response json)).jobFinished i rss).trace =
      (Effect.due (n := n) (.responded response json)).toList ++ dues s.trace := by
    show dues (_ :: m.trace) = _
    rw [(acceptResponse_frame haccept).2.1, dues, List.filterMap_cons]
    cases Effect.due (n := n) (.responded response json) <;> rfl
  -- what is recorded at once, if it is no job or there is no resolver
  have hwrote : (∀ attrs, response.payload ≠ .attrs attrs) →
      (!s.cacheStatusResolver) = true ∨
        (∀ drv extraValue, response.payload ≠ .job drv extraValue) →
      m = s.emitResponse response json line →
      Effect.due (n := n) (.responded response json) = some response.attrPath →
      Emits X f s ((m.record (.responded response json)).jobFinished i rss) := by
    rintro hkind hdirect rfl hdue
    rw [hdue] at hdues
    obtain ⟨hvalid, horigin⟩ := hreceived.emission _ _ _ hkind hdirect
    exact .wrote hvalid hreceived.named horigin rfl rfl rfl hdues
  obtain ⟨-, hm⟩ := acceptResponse_ok_iff.mp haccept
  rw [recordResponse] at hm
  -- by the kind of the response
  split at hm
  · next attrs hattrs =>
    -- a set of attributes has no result of its own
    subst hm
    rw [Effect.due, hattrs] at hdues
    exact .quiet rfl rfl rfl hdues
  · next drv extraValue hjob =>
    have hkind : ∀ attrs, response.payload ≠ .attrs attrs := fun attrs hattrs => by
      cases hjob.symm.trans hattrs
    have hdue : Effect.due (n := n) (.responded response json) = some response.attrPath := by
      rw [Effect.due, hjob]
      rfl
    split at hm
    · -- `main` leaves jobs to the resolver, if there is one
      next hresolver =>
      subst hm
      rw [hdue] at hdues
      exact .pushed hresolver hreceived.isAnswer ⟨drv, extraValue, hjob⟩ rfl rfl rfl hdues
    · next hresolver => exact hwrote hkind (.inl (by simpa using hresolver)) hm.symm hdue
  · next error fatal herror =>
    have hdue : Effect.due (n := n) (.responded response json) = some response.attrPath := by
      rw [Effect.due, herror]
      rfl
    refine hwrote (fun attrs hattrs => ?_) (.inr fun drv extraValue hjob => ?_) hm.symm hdue
    · cases herror.symm.trans hattrs
    · cases herror.symm.trans hjob

/-- **What a step of the scheduler writes.** -/
theorem emits_step {c c' : Config n} {e : Event n} (hphases : c.sched.PhasesConsistent)
    (hreplies : Replies X f c e) (h : step X c e = some c') : Emits X f c.sched c'.sched := by
  -- only a line or a hang-up writes anything
  cases step_steps h with
  | @began s _ =>
    show Emits X f s s.beginDispatch
    rw [beginDispatch]
    split
    · exact .quiet rfl rfl rfl rfl
    · exact .quiet rfl rfl rfl rfl
  | turned hlt hslot =>
    cases dispatchSlot_turn hslot with
    | skip | exit | spawn => exact .quiet rfl rfl rfl rfl
    | sent _ htake _ =>
      obtain ⟨hjobs, hstdout, hpushed, hdues, -, -⟩ := takeJob_quiet htake
      exact .quiet hjobs hstdout hpushed hdues
    -- a failed send is handled like a hang-up
    | unsent _ _ htake heof => exact (emits_onEof heof).after (takeJob_quiet htake)
  | ended => exact .quiet rfl rfl rfl rfl
  | sampled hs' =>
    rcases sampleMemory_cases hs' with rfl | ⟨v, -, -, rfl⟩
    · exact .quiet rfl rfl rfl rfl
    · exact .quiet rfl rfl rfl rfl
  | @read s s' i line rss _ hs' =>
    -- a line of a busy worker is its response; the others are of the protocol
    rcases onLine_cases hs' with ⟨-, -, rfl⟩ | ⟨-, -, rfl⟩ |
      ⟨hbusy, response, json, m, hparse, haccept, rfl⟩ | ⟨-, rfl⟩
    · exact .quiet rfl rfl rfl rfl
    · exact .quiet rfl rfl rfl rfl
    · exact emits_finish (received_of_replies hphases hreplies hbusy hparse).2 haccept
    · exact .quiet rfl rfl rfl rfl
  | hungUp _ hs' => exact emits_onEof hs'

end Scheduler

end NixEvalJobs
