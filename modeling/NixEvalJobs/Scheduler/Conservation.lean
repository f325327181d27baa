import NixEvalJobs.Scheduler.Pool

/-!
# Scheduler — conservation of jobs

Every discovered path is in exactly one place: `todo`, `solo`, a running slot,
or the history as settled; an undiscovered one is nowhere. It is counted, so
"exactly one" includes "not twice in `solo`" and "not settled twice".

The Quint model states this for a fixed set of jobs. Here an accepted `Attrs`
response creates new ones, and the step for it needs the invariant itself: the
children of a path are new because the path was not settled before.

* `conservation` — for every reachable configuration, if workers echo the path
  they were sent.
-/

namespace NixEvalJobs

namespace Effect

variable {n : Nat}

/-- The effect ends the job `path`: its response was processed, or its error was
emitted. -/
def settles (path : AttrPath) : Effect n → Bool
  | .responded response _ => response.attrPath = path
  | .budgetError p => p = path
  | _ => false

/-- The effect is an accepted `Attrs` response that lists the last component of
`path` under the others. -/
def lists (path : AttrPath) : Effect n → Bool
  | .responded response _ =>
    match response.payload with
    | .attrs attrs => attrs.any fun attr => response.attrPath ++ [attr] = path
    | _ => false
  | _ => false

/-- What it means that an effect lists a path. -/
theorem lists_eq_true {path : AttrPath} {e : Effect n} (h : e.lists path = true) :
    ∃ response json attrs attr, e = .responded response json ∧
      response.payload = .attrs attrs ∧ attr ∈ attrs ∧ response.attrPath ++ [attr] = path := by
  cases e with
  | responded response json =>
    rw [lists] at h
    split at h
    · next attrs hattrs =>
      obtain ⟨attr, hattr, hpath⟩ := List.any_eq_true.mp h
      exact ⟨response, json, attrs, attr, rfl, hattrs, hattr, of_decide_eq_true hpath⟩
    · cases h
  | _ => cases h

/-- The path whose memory-budget error was emitted. -/
def gaveUp : Effect n → Option AttrPath
  | .budgetError path => some path
  | _ => none

/-- There is one effect that gives a path up. -/
theorem eq_budgetError {path : AttrPath} {e : Effect n} (h : e.gaveUp = some path) :
    e = .budgetError path := by
  cases e with
  | budgetError p => exact congrArg Effect.budgetError (Option.some.inj h)
  | _ => cases h

end Effect

/-- The workers echo the path they were sent. -/
def Echo (path : AttrPath) (response : Response) (_ : Json) : Prop := response.attrPath = path

namespace Scheduler

variable {n : Nat} {X : Externals} {nrWorkers maxMemorySize : UInt64} {resolver : Bool}
  {ok : AttrPath → Response → Json → Prop}

/-! ## Places -/

/-- How often `path` was settled. -/
def settled (path : AttrPath) (trace : List (Effect n)) : Nat :=
  trace.countP (Effect.settles path)

/-- The empty path, or listed by an accepted response. -/
def discovered (path : AttrPath) (trace : List (Effect n)) : Bool :=
  path = [] ∨ trace.any (Effect.lists path)

/-- How many slots evaluate `path`. -/
def holders (s : Scheduler n) (path : AttrPath) : Nat := countSlots (Worker.holds path) s.workers

/-- How often `path` occurs in the queues, the running slots and the history. -/
def places (s : Scheduler n) (path : AttrPath) : Nat :=
  (s.todo.contains path).toNat + s.solo.count path + s.holders path + settled path s.trace

/-- A discovered path is in one place, any other path in none. -/
def Conserved (s : Scheduler n) : Prop :=
  ∀ path, s.places path = (discovered path s.trace).toNat

/-- No job in the history was handed out after it was settled. -/
def NeverAgain : List (Effect n) → Prop
  | [] => True
  | e :: older =>
    (∀ i path source mode, e = .handedOut i path source mode → settled path older = 0) ∧
      NeverAgain older

/-- One more entry of the history, for what is settled -/
theorem settled_cons (path : AttrPath) (e : Effect n) (trace : List (Effect n)) :
    settled path (e :: trace) = settled path trace + (e.settles path).toNat := by
  rw [settled, List.countP_cons]
  cases e.settles path <;> rfl

/-- and for what is discovered. -/
theorem discovered_cons (path : AttrPath) (e : Effect n) (trace : List (Effect n)) :
    discovered path (e :: trace) = (discovered path trace || e.lists path) := by
  rw [Bool.eq_iff_iff]
  simp only [discovered, List.any_cons, Bool.or_eq_true, decide_eq_true_eq]
  tauto

/-- What is listed under a path was listed by a response that settled the path. -/
theorem settled_pos_of_discovered {path : AttrPath} {attr : Str} {trace : List (Effect n)}
    (h : discovered (path ++ [attr]) trace = true) : 0 < settled path trace := by
  rw [discovered, decide_eq_true_eq] at h
  rcases h with hnil | hany
  · simp at hnil
  · obtain ⟨e, he, hlists⟩ := List.any_eq_true.mp hany
    obtain ⟨response, json, attrs, a, rfl, -, -, ha⟩ := Effect.lists_eq_true hlists
    refine List.countP_pos_iff.mpr ⟨_, he, ?_⟩
    exact decide_eq_true (List.append_inj' ha rfl).1

/-! ## Slots -/

/-- A slot that does not run holds nothing. -/
theorem holds_of_not_running {w : Worker} (h : w.running = false) (path : AttrPath) :
    w.holds path = false := by
  simp [Worker.holds, h]

/-- A running slot holds its path and no other. -/
theorem holds_of_running {w : Worker} (path : AttrPath) (h : w.running = true)
    (hpath : w.attrPath = some path) (q : AttrPath) : w.holds q = decide (path = q) := by
  simp [Worker.holds, h, hpath]

/-- Assignment to a slot changes the number of holders by that slot. -/
theorem holders_update (s : Scheduler n) (i : Fin n) (w : Worker) (path : AttrPath) :
    countSlots (Worker.holds path) (Function.update s.workers i w) +
      ((s.workers i).holds path).toNat = s.holders path + (w.holds path).toNat :=
  countSlots_update (Worker.holds path) s.workers i w

/-- A slot that does not run, before and after, holds nothing. -/
theorem holders_of_not_running {s : Scheduler n} {i : Fin n} {w : Worker}
    (hold : (s.workers i).running = false) (hnew : w.running = false) (path : AttrPath) :
    countSlots (Worker.holds path) (Function.update s.workers i w) = s.holders path := by
  have h := holders_update s i w path
  rw [holds_of_not_running hold, holds_of_not_running hnew] at h
  omega

/-- A slot that gets a job. -/
theorem holders_take {s : Scheduler n} {i : Fin n} (hidle : (s.workers i).phase = .idle)
    (path : AttrPath) (source : Source) (q : AttrPath) :
    ((s.startJob i).handOut i path source).holders q =
      s.holders q + (decide (path = q)).toNat := by
  have h := holders_update s i { s.workers i with
    startRss := (s.workers i).rss, attrPath := some path, phase := .busy } q
  rw [holds_of_not_running (running_of_phase hidle (by simp) (by simp)),
    holds_of_running path rfl rfl] at h
  rw [holders, handOut_startJob_workers]
  simpa using h

/-- A slot that loses its job. -/
theorem holders_reset {s : Scheduler n} {i : Fin n} {path : AttrPath} {w : Worker}
    (hholds : (s.workers i).holds path = true) (hnew : w.running = false) (q : AttrPath) :
    countSlots (Worker.holds q) (Function.update s.workers i w) + (decide (path = q)).toNat =
      s.holders q := by
  obtain ⟨hrunning, hpath⟩ := Worker.holds_iff.mp hholds
  have h := holders_update s i w q
  rwa [holds_of_running _ (Worker.running_iff.mpr hrunning) hpath, holds_of_not_running hnew,
    Bool.toNat_false, Nat.add_zero] at h

/-! ## Preservation -/

/-- Neither the number of places nor what is known has changed. -/
theorem Conserved.of_places {s s' : Scheduler n} (h : s.Conserved)
    (hplaces : ∀ path, s'.places path = s.places path)
    (hdiscovered : ∀ path, discovered path s'.trace = discovered path s.trace) : s'.Conserved :=
  fun path => by rw [hplaces, hdiscovered, h path]

/-- Only slots that do not run have changed. -/
theorem Conserved.of_eq {s s' : Scheduler n} (h : s.Conserved) (htodo : s'.todo = s.todo)
    (hsolo : s'.solo = s.solo) (hholders : ∀ path, s'.holders path = s.holders path)
    (hsettled : ∀ path, settled path s'.trace = settled path s.trace)
    (hdiscovered : ∀ path, discovered path s'.trace = discovered path s.trace) : s'.Conserved :=
  h.of_places (fun path => by rw [places, htodo, hsolo, hholders, hsettled, places]) hdiscovered

/-- The places of a state, by its parts. -/
theorem places_of {s : Scheduler n} {path : AttrPath} (todo : StdSet AttrPath)
    (solo : List AttrPath) (held : Nat) (trace : List (Effect n)) (htodo : s.todo = todo)
    (hsolo : s.solo = solo) (hheld : s.holders path = held) (htrace : s.trace = trace) :
    s.places path = (todo.contains path).toNat + solo.count path + held + settled path trace := by
  rw [places, htodo, hsolo, hheld, htrace]

/-- At first the root is in `todo`, and nothing else is anywhere. -/
theorem conserved_init : (init n nrWorkers maxMemorySize resolver).Conserved := by
  intro path
  have hholders : (init n nrWorkers maxMemorySize resolver).holders path = 0 :=
    countSlots_eq_zero.mpr fun _ => rfl
  -- `todo` holds the empty path, which is what is discovered before anything happened
  have htodo : (init n nrWorkers maxMemorySize resolver).todo.contains path =
      discovered path (init n nrWorkers maxMemorySize resolver).trace := by
    rw [Bool.eq_iff_iff, ← Std.ExtTreeSet.mem_iff_contains, init, Std.ExtTreeSet.mem_insert,
      Std.LawfulEqCmp.compare_eq_iff_eq]
    simp only [Std.ExtTreeSet.not_mem_empty, or_false, discovered, List.any_nil,
      Bool.false_eq_true, decide_eq_true_eq]
    exact eq_comm
  rw [places, hholders, htodo]
  simp [init, settled]

/-- A path moves from the end of `solo` into the slot. -/
theorem conserved_takeSolo {s : Scheduler n} {i : Fin n} {path : AttrPath} (h : s.Conserved)
    (hidle : (s.workers i).phase = .idle) (hlast : s.solo.getLast? = some path) :
    ((startJob { s with solo := s.solo.dropLast } i).handOut i path .solo).Conserved := by
  refine h.of_places (fun q => ?_) fun q => (discovered_cons q _ _).trans (Bool.or_false _)
  -- `solo` loses one occurrence of its last path
  have hsolo : s.solo.count q = s.solo.dropLast.count q + (decide (path = q)).toNat := by
    conv_lhs => rw [← List.dropLast_append_getLast? path hlast]
    rw [List.count_append, List.count_singleton]
    by_cases hpq : path = q <;> simp [hpq]
  have hheld := holders_take (s := { s with solo := s.solo.dropLast }) hidle path .solo q
  refine Eq.trans (places_of s.todo s.solo.dropLast _ (.handedOut i path .solo s.mode :: s.trace)
    rfl rfl hheld rfl) ?_
  rw [settled_cons, places, hsolo]
  change _ + _ + (s.holders q + _) + (_ + 0) = _
  omega

/-- A path moves from `todo` into the slot. -/
theorem conserved_takeTodo {s : Scheduler n} {i : Fin n} {path : AttrPath} {source : Source}
    (h : s.Conserved)
    (hidle : (s.workers i).phase = .idle) (hfirst : StdSet.first s.todo = some path) :
    ((startJob { s with todo := s.todo.erase path } i).handOut i path source).Conserved := by
  refine h.of_places (fun q => ?_) fun q => (discovered_cons q _ _).trans (Bool.or_false _)
  have htodo : (s.todo.contains q).toNat =
      ((s.todo.erase path).contains q).toNat + (decide (path = q)).toNat := by
    rw [Std.ExtTreeSet.contains_erase]
    -- the erased path was in `todo`, the others are not touched
    by_cases hpq : path = q
    · subst hpq
      have hmem : s.todo.contains path = true := StdSet.mem_of_first hfirst
      simp [hmem]
    · have hne : (compare path q != .eq) = true := by
        rw [bne_iff_ne, ne_eq, Std.LawfulEqCmp.compare_eq_iff_eq]
        exact hpq
      simp [hpq, hne]
  have hheld := holders_take (s := { s with todo := s.todo.erase path }) hidle path source q
  refine Eq.trans (places_of (s.todo.erase path) s.solo _
    (.handedOut i path source s.mode :: s.trace) rfl rfl hheld rfl) ?_
  rw [settled_cons, places, htodo]
  change _ + _ + (s.holders q + _) + (_ + 0) = _
  omega

/-- A path moves from the slot of a killed worker to `solo`. -/
theorem conserved_requeue {s : Scheduler n} {i : Fin n} {path : AttrPath} (h : s.Conserved)
    (hholds : (s.workers i).holds path = true) :
    (({ s with solo := s.solo ++ [path] }.record (.requeued path)).forgetKilled i).Conserved := by
  refine h.of_places (fun q => ?_) fun q => (discovered_cons q _ _).trans (Bool.or_false _)
  have hheld := holders_reset hholds (w := {}) rfl q
  have hsolo : (s.solo ++ [path]).count q = s.solo.count q + (decide (path = q)).toNat := by
    rw [List.count_append, List.count_singleton]
    by_cases hpq : path = q <;> simp [hpq]
  refine Eq.trans (places_of s.todo (s.solo ++ [path])
    (countSlots (Worker.holds q) (Function.update s.workers i {})) (.requeued path :: s.trace)
    rfl rfl rfl rfl) ?_
  rw [settled_cons, hsolo, places]
  change _ + _ + _ + (_ + 0) = _
  omega

/-- A path moves from the slot of a killed worker into the history. -/
theorem conserved_giveUp {s : Scheduler n} {i : Fin n} {path : AttrPath} {response : Response}
    {json : Json} {dumped : Str} (h : s.Conserved) (hholds : (s.workers i).holds path = true) :
    (((s.emitResponse response json dumped).record (.budgetError path)).forgetKilled
      i).Conserved := by
  refine h.of_places (fun q => ?_) fun q => (discovered_cons q _ _).trans (Bool.or_false _)
  have hheld := holders_reset hholds (w := {}) rfl q
  refine Eq.trans (places_of s.todo s.solo
    (countSlots (Worker.holds q) (Function.update s.workers i {})) (.budgetError path :: s.trace)
    rfl rfl rfl rfl) ?_
  rw [settled_cons, places]
  change _ + _ + _ + (_ + (decide (path = q)).toNat) = _
  omega

/-- `todo` after the children of a path came in. -/
theorem contains_addChildren (s : Scheduler n) (path : AttrPath) (attrs : List Str)
    (q : AttrPath) : (s.addChildren path attrs).todo.contains q =
      (s.todo.contains q || attrs.any fun attr => path ++ [attr] = q) := by
  rw [Bool.eq_iff_iff, ← Std.ExtTreeSet.mem_iff_contains, addChildren,
    StdSet.mem_foldl_insert, Std.ExtTreeSet.mem_iff_contains]
  simp

/-- A running job is not settled: the slot is its one place. -/
theorem Conserved.settled_eq_zero {s : Scheduler n} (h : s.Conserved) {i : Fin n} {path : AttrPath}
    (hholds : (s.workers i).holds path = true) : settled path s.trace = 0 := by
  have hpath := h path
  have hheld : 0 < s.holders path := countSlots_pos.mpr ⟨i, hholds⟩
  have hle : (discovered path s.trace).toNat ≤ 1 := Bool.toNat_le _
  rw [places] at hpath
  omega

/-- A running job has not been answered. -/
theorem Conserved.not_responded {s : Scheduler n} (h : s.Conserved) {i : Fin n} {path : AttrPath}
    (hholds : (s.workers i).holds path = true) {response : Response} {json : Json}
    (hmem : .responded response json ∈ s.trace) : response.attrPath ≠ path := by
  intro heq
  have hzero := h.settled_eq_zero hholds
  have hpos : 0 < settled path s.trace :=
    List.countP_pos_iff.mpr ⟨_, hmem, by simpa [Effect.settles] using heq⟩
  omega

/-- What a running job lists is not known yet: its path was not settled before. -/
theorem Conserved.discovered_child {s : Scheduler n} (h : s.Conserved) {i : Fin n}
    {path : AttrPath} (hholds : (s.workers i).holds path = true) (attr : Str) :
    discovered (path ++ [attr]) s.trace = false := by
  rw [Bool.eq_false_iff]
  intro hold
  exact absurd (h.settled_eq_zero hholds) (settled_pos_of_discovered hold).ne'

/-- The slot gives up its path, and the history gains it. -/
theorem places_finish {s m : Scheduler n} {i : Fin n} {response : Response} {json : Json}
    {line : Str} (hholds : (s.workers i).holds response.attrPath = true)
    (haccept : s.acceptResponse response json line = .ok m) (rss : UInt64) (q : AttrPath) :
    ((m.record (.responded response json)).jobFinished i rss).places q +
      (s.todo.contains q).toNat = s.places q + (m.todo.contains q).toNat := by
  obtain ⟨hworkers, htrace, hsolo⟩ := acceptResponse_frame haccept
  have hheld := holders_reset (w := { (s.workers i).sampleRss rss with
    phase := .starting, attrPath := none }) hholds (by simp [Worker.running]) q
  have hnew : ((m.record (.responded response json)).jobFinished i rss).places q = _ :=
    places_of m.todo s.solo (countSlots (Worker.holds q)
      (Function.update s.workers i { (s.workers i).sampleRss rss with
        phase := .starting, attrPath := none })) (.responded response json :: s.trace)
      rfl hsolo (by rw [holders, ← hworkers]; rfl) (by rw [← htrace]; rfl)
  rw [hnew, settled_cons, places]
  change _ + _ + _ + (_ + (decide (response.attrPath = q)).toNat) + _ = _
  omega

/-- A processed response settles its path and discovers what it lists. -/
theorem conserved_finish {s m : Scheduler n} {i : Fin n} {path : AttrPath} {response : Response}
    {json : Json} {line : Str} {rss : UInt64} (h : s.Conserved)
    (hholds : (s.workers i).holds path = true) (hecho : response.attrPath = path)
    (haccept : s.acceptResponse response json line = .ok m) :
    ((m.record (.responded response json)).jobFinished i rss).Conserved := by
  intro q
  subst hecho
  have hplaces := places_finish hholds haccept rss q
  have hdiscovered : discovered q ((m.record (.responded response json)).jobFinished i rss).trace =
      (discovered q s.trace || Effect.lists q (.responded (n := n) response json)) := by
    rw [← (acceptResponse_frame haccept).2.1]
    exact discovered_cons q (.responded response json) m.trace
  rw [hdiscovered]
  have hq := h q
  rcases acceptResponse_cases haccept with ⟨attrs, hattrs, rfl⟩ | ⟨hother, hm⟩
  · have hlists : Effect.lists q (.responded (n := n) response json) =
        -- an attribute set: the path is settled, its children are new
        attrs.any fun attr => response.attrPath ++ [attr] = q := by
      rw [Effect.lists, hattrs]
    rw [contains_addChildren] at hplaces
    rw [hlists]
    cases hany : attrs.any fun attr => response.attrPath ++ [attr] = q with
    -- `q` is no child, so only its own places count
    | false =>
      rw [hany, Bool.or_false] at hplaces
      rw [Bool.or_false]
      omega
    | true =>
      obtain ⟨attr, -, hattr⟩ := List.any_eq_true.mp hany
      have hnew : discovered q s.trace = false :=
        of_decide_eq_true hattr ▸ h.discovered_child hholds attr
      rw [hany, Bool.or_true, Bool.toNat_true] at hplaces
      rw [hnew, Bool.toNat_false] at hq
      rw [hnew, Bool.false_or, Bool.toNat_true]
      -- so it is not in `todo` either
      have htodo : (s.todo.contains q).toNat = 0 := by
        rw [places] at hq
        omega
      omega
  · -- a job or an error lists nothing, and `todo` stays
    have hlists : Effect.lists q (.responded (n := n) response json) = false := by
      rw [Effect.lists]
      split
      · next attrs hattrs => exact absurd hattrs (hother attrs)
      · rfl
    have htodo : m.todo = s.todo := by
      rcases hm with ⟨-, rfl⟩ | rfl <;> rfl
    rw [htodo] at hplaces
    rw [hlists, Bool.or_false]
    omega

/-- **One move keeps every path where it belongs.** -/
theorem conserved_move {a b : Snapshot n}
    (hok : ∀ path response json, ok path response json → Echo path response json)
    (hpool : a.sched.PoolOk) (h : a.sched.Conserved) (hm : Move X ok a b) : b.sched.Conserved := by
  -- a move that records something that settles nothing and lists nothing
  have hsettled : ∀ {s : Scheduler n} {e : Effect n} (path : AttrPath),
      e.settles path = false → settled path (e :: s.trace) = settled path s.trace :=
    fun path he => (settled_cons path _ _).trans (by rw [he]; rfl)
  have hdiscovered : ∀ {s : Scheduler n} {e : Effect n} (path : AttrPath),
      e.lists path = false → discovered path (e :: s.trace) = discovered path s.trace :=
    fun path he => (discovered_cons path _ _).trans (by rw [he, Bool.or_false])
  cases hm with
  | @enterSolo s _ _ hrunning =>
    -- nothing runs at the switch to Solo mode, so nobody held a path
    have hold : ∀ path, s.holders path = 0 := fun path =>
      countSlots_eq_zero.mpr fun i => holds_of_not_running (running_eq_zero.mp hrunning i) path
    refine h.of_eq rfl rfl (fun path => ?_) (fun path => hsettled path rfl) fun path =>
      hdiscovered path rfl
    exact (countSlots_eq_zero.mpr fun _ => rfl).trans (hold path).symm
  | beginPass | endPass => exact h
  | @sendExit s k i hidle _ =>
    have hrunning := running_of_phase hidle (by simp) (by simp)
    exact h.of_eq rfl rfl (holders_of_not_running hrunning rfl)
      (fun path => hsettled path rfl) fun path => hdiscovered path rfl
  | takeSolo hidle _ _ hlast => exact conserved_takeSolo h hidle hlast
  | takeTodo hidle _ _ _ hfirst => exact conserved_takeTodo h hidle hfirst
  | @spawn s k i proc rss hnone _ =>
    have hrunning := running_of_phase hnone (by simp) (by simp)
    exact h.of_eq rfl rfl (holders_of_not_running hrunning rfl)
      (fun path => hsettled path rfl) fun path => hdiscovered path rfl
  | @started s i hstarting =>
    have hrunning := running_of_phase hstarting (by simp) (by simp)
    exact h.of_eq rfl rfl (holders_of_not_running hrunning rfl)
      (fun _ => rfl) fun _ => rfl
  | @restarted s i hstarting =>
    have hrunning := running_of_phase hstarting (by simp) (by simp)
    exact h.of_eq rfl rfl (holders_of_not_running hrunning rfl)
      (fun _ => rfl) fun _ => rfl
  | @finish s m i response json line rss hbusy hecho haccept =>
    have hrunning : (s.workers i).running = true := Worker.running_iff.mpr (.inl hbusy)
    obtain ⟨path, hpath⟩ := (hpool i).path hrunning
    exact conserved_finish h (Worker.holds_iff.mpr ⟨.inl hbusy, hpath⟩)
      (hok path response json (hecho path hpath)) haccept
  | @exited s p i hexiting =>
    have hrunning := running_of_phase hexiting (by simp) (by simp)
    exact h.of_eq rfl rfl (holders_of_not_running hrunning rfl)
      (fun _ => rfl) fun _ => rfl
  | @lost s p i _ _ hrunning =>
    exact h.of_eq rfl rfl (holders_of_not_running hrunning rfl) (fun _ => rfl) fun _ => rfl
  | requeue hholds _ => exact conserved_requeue h hholds
  | giveUp hholds _ => exact conserved_giveUp h hholds
  | sample => exact h
  | @evict s i hbusy =>
    refine h.of_eq rfl rfl (fun q => countSlots_congr (apply_update_of_eq (Worker.holds q) ?_))
      (fun path => hsettled path rfl) fun path => hdiscovered path rfl
    simp [Worker.holds, Worker.running, hbusy]

/-! ## Runs -/

/-- It holds whenever the program looks at its state. -/
theorem conserved_visited {a : Snapshot n}
    (hok : ∀ path response json, ok path response json → Echo path response json)
    (h : Visited X ok nrWorkers maxMemorySize resolver a) : a.sched.Conserved :=
  h.invariant conserved_init fun hvisited ha hm =>
    conserved_move hok (poolOk_visited hvisited) ha hm

/-- A path that is being evaluated is not settled. -/
theorem neverAgain_visited {a : Snapshot n}
    (h : Visited X Echo nrWorkers maxMemorySize resolver a) : NeverAgain a.sched.trace := by
  refine h.invariant (I := fun a : Snapshot n => NeverAgain a.sched.trace) trivial ?_
  intro a b hvisited ha hm
  rcases trace_move hm with heq | ⟨e, heq, he⟩
  · rwa [heq]
  · rw [heq]
    refine ⟨fun i path source mode hhand => ?_, ha⟩
    have hsettled := (conserved_visited (fun _ _ _ h => h) (.move hvisited hm)).settled_eq_zero
      (he i path source mode hhand).2.1
    rw [heq, settled_cons] at hsettled
    omega

/-- What the history says about one of its entries. -/
theorem NeverAgain.of_append {newer older : List (Effect n)} {i : Fin n} {path : AttrPath}
    {source : Source} {mode : Mode}
    (h : NeverAgain (newer ++ .handedOut i path source mode :: older)) :
    settled path older = 0 := by
  induction newer with
  | nil => exact h.1 i path source mode rfl
  | cons e newer ih => exact ih h.2

/-- **Conservation of jobs.** In every reachable configuration, also in the middle
of a pass, a discovered path is in exactly one of `todo`, `solo`, the running
slots and the settled ones, once, and any other path is in none. No path was
handed out after it was settled. -/
theorem conservation {c : Config n}
    (h : (system X nrWorkers maxMemorySize resolver).Reachable (Answered X Echo) c) :
    (∀ path, c.sched.places path = (discovered path c.sched.trace).toNat) ∧
    ∀ newer older i path source mode,
      c.sched.trace = newer ++ .handedOut i path source mode :: older → settled path older = 0 := by
  have hvisited := Visited.of_reachable h
  refine ⟨conserved_visited (fun _ _ _ h => h) hvisited,
    fun newer older i path source mode htrace => ?_⟩
  have hnever : NeverAgain c.sched.trace := neverAgain_visited hvisited
  exact (htrace ▸ hnever).of_append

/-- The run goes through, and its workers echo. -/
theorem rootRun_isSome :
    ((system (Externals.plain [rootJson]) 2 4096 false).run
      (answeredCheck (Externals.plain [rootJson]) fun path response _ => response.attrPath = path)
      (system (Externals.plain [rootJson]) 2 4096 false).init Event.rootRun).isSome = true := by
  decide +kernel

/-- After the root was answered, each of the three paths is in one place. -/
theorem conservation_rootRun :
    let c := (system (Externals.plain [rootJson]) 2 4096 false).after
      (answeredCheck (Externals.plain [rootJson]) fun path response _ => response.attrPath = path)
      Event.rootRun rootRun_isSome
    (c.sched.workers 0).holds [lit "a"] = true ∧ c.sched.places [lit "a"] = 1 ∧
      c.sched.places [lit "b"] = 1 ∧ c.sched.places [] = 1 := by
  intro c
  have h := conservation (System.reachable_after
    (answered_of_check fun path response json hecho => of_decide_eq_true hecho)
    Event.rootRun rootRun_isSome)
  exact ⟨by decide +kernel, (h.1 [lit "a"]).trans (by decide +kernel),
    (h.1 [lit "b"]).trans (by decide +kernel), (h.1 []).trans (by decide +kernel)⟩

end Scheduler

end NixEvalJobs
