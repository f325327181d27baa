import NixEvalJobs.Scheduler.Traversal
import NixEvalJobs.Worker.Evaluator

/-!
# Worker — cyclic values

`select` compares only the last value with its ancestors. That a path has no
earlier repetition follows from how the path came about: each of its prefixes was
answered with the names of a set, so `select` accepted it. A repetition-free path
is no longer than there are sets, which bounds what the collector can ever queue.

* `select_cycle_iff` — when `select` reports a cycle.
* `distinct_of_reach` — the sets along an expanded path.
* `finite_traversal` — the same for runs of the collector.
-/

namespace NixEvalJobs

namespace ValueGraph

section Paths

variable {ν : Type} {G : ValueGraph ν}

/-- The value of an attribute, if the value is a set that has it. -/
def follow (G : ValueGraph ν) : Value ν → Str → Option (Value ν)
  | .set bindings, name => (G.attrs bindings)[name]?
  | _, _ => none

/-- The value at the end of a path, cycle or not. -/
def reached (G : ValueGraph ν) (path : AttrPath) : Option (Value ν) :=
  path.foldlM G.follow G.root

/-- `bindings` is the set that a proper prefix of `path` reaches. -/
def IsAncestor (G : ValueGraph ν) (path : AttrPath) (bindings : ν) : Prop :=
  ∃ p, p <+: path ∧ p ≠ path ∧ G.reached p = some (.set bindings)

/-! ## What `select` reaches -/

/-- One more name is one more step. -/
theorem reached_append (path : AttrPath) (name : Str) :
    G.reached (path ++ [name]) = (G.reached path).bind fun v => G.follow v name := by
  unfold reached
  rw [List.foldlM_append]
  simp only [List.foldlM_cons, List.foldlM_nil, bind_pure]
  rfl

/-- The proper prefixes of a longer path are the path and its proper prefixes. -/
theorem isAncestor_append {path : AttrPath} {name : Str} {bindings : ν} :
    G.IsAncestor (path ++ [name]) bindings ↔
      G.IsAncestor path bindings ∨ G.reached path = some (.set bindings) := by
  constructor
  · rintro ⟨p, hpre, hne, hp⟩
    -- a prefix of the longer path is the path itself or a shorter one
    rcases List.prefix_concat_iff.mp hpre with heq | hshort
    · exact absurd heq hne
    · by_cases hpath : p = path
      · exact .inr (hpath ▸ hp)
      · exact .inl ⟨p, hshort, hpath, hp⟩
  · rintro (⟨p, hpre, -, hp⟩ | hpath)
    · refine ⟨p, hpre.trans (List.prefix_append _ _), fun hc => ?_, hp⟩
      have hle := hpre.length_le
      rw [hc, List.length_append, List.length_singleton] at hle
      omega
    · exact ⟨path, List.prefix_append _ _, by simp, hpath⟩

/-- What the loop of `select` does: it follows the path and collects the ancestors, or
fails with another error than the cycle. -/
theorem foldlM_descend (path : AttrPath) :
    (∃ v ancestors, path.foldlM G.descend (G.root, []) = .ok (v, ancestors) ∧
      G.reached path = some v ∧ ∀ bindings, bindings ∈ ancestors ↔ G.IsAncestor path bindings) ∨
    (∃ e, path.foldlM G.descend (G.root, []) = .error e ∧ e ≠ cycleError ∧
      G.reached path = none) := by
  -- the loop runs from the root, so the induction takes names off the end
  induction path using List.reverseRecOn with
  | nil =>
    refine .inl ⟨G.root, [], rfl, rfl, fun bindings => ⟨fun h => absurd h List.not_mem_nil, ?_⟩⟩
    rintro ⟨p, hpre, hne, -⟩
    exact absurd (List.prefix_nil.mp hpre) hne
  | append_singleton path name ih =>
    rw [List.foldlM_append, reached_append]
    -- one more name: the set that the path has reached is now an ancestor
    rcases ih with ⟨v, ancestors, hok, hreached, hancestors⟩ | ⟨e, herror, hne, hreached⟩
    · rw [hok, hreached]
      match v with
      | .set bindings =>
        cases hnext : (G.attrs bindings)[name]? with
        | some next =>
          refine .inl ⟨next, ancestors ++ [bindings], ?_, hnext, fun b => ?_⟩
          · show [name].foldlM G.descend (.set bindings, ancestors) = _
            simp only [List.foldlM_cons, descend, hnext, List.foldlM_nil]
            rfl
          · rw [List.mem_append, hancestors, isAncestor_append, hreached, List.mem_singleton]
            exact or_congr_right
              ⟨fun h => h ▸ rfl, fun h => (Value.set.inj (Option.some.inj h)).symm⟩
        | none =>
          refine .inr ⟨missingError name, ?_, ?_, hnext⟩
          · show [name].foldlM G.descend (.set bindings, ancestors) = _
            simp only [List.foldlM_cons, descend, hnext]
            rfl
          · unfold missingError cycleError
            simp [lit]
      | .bool b => exact .inr ⟨_, rfl, by unfold cycleError; simp, rfl⟩
      | .other => exact .inr ⟨_, rfl, by unfold cycleError; simp, rfl⟩
    · rw [herror, hreached]
      exact .inr ⟨e, rfl, hne, rfl⟩

end Paths

variable {ν : Type} [DecidableEq ν] {G : ValueGraph ν} {R : Rendering} {forceRecurse : Bool}

/-- What `select` gives is what the path reaches. -/
theorem select_ok {path : AttrPath} {v : Value ν} (h : G.select path = .ok v) :
    G.reached path = some v ∧ ∀ bindings, v = .set bindings → ¬G.IsAncestor path bindings := by
  unfold select at h
  obtain ⟨⟨w, ancestors⟩, hfold, h⟩ := bind_eq_ok.mp h
  rcases foldlM_descend (G := G) path with ⟨v', ancestors', hok, hreached, hancestors⟩ |
    ⟨e, herror, -, -⟩
  · obtain ⟨rfl, rfl⟩ := Prod.mk.inj (Except.ok.inj (hok.symm.trans hfold))
    -- only a set is compared with the ancestors
    match v' with
    | .set bindings =>
      dsimp only at h
      split at h
      · cases h
      · next hnew =>
        obtain rfl := Except.ok.inj h
        refine ⟨hreached, fun b hb => ?_⟩
        obtain rfl := Value.set.inj hb
        exact fun hc => hnew ((hancestors _).mpr hc)
    | .bool _ | .other =>
      obtain rfl := Except.ok.inj h
      exact ⟨hreached, by simp⟩
  · cases herror.symm.trans hfold

/-- **`select` reports a cycle exactly when it ends in an ancestor.** -/
theorem select_cycle_iff (path : AttrPath) :
    G.select path = .error cycleError ↔
      ∃ bindings, G.reached path = some (.set bindings) ∧ G.IsAncestor path bindings := by
  unfold select
  rcases foldlM_descend (G := G) path with ⟨v, ancestors, hok, hreached, hancestors⟩ |
    ⟨e, herror, hne, hreached⟩
  · rw [hok, hreached]
    match v with
    | .set bindings =>
      -- the check of `select` against the ancestors it has met
      by_cases hmem : bindings ∈ ancestors
      · refine ⟨fun _ => ⟨bindings, rfl, (hancestors bindings).mp hmem⟩, fun _ => ?_⟩
        exact if_pos hmem
      · refine ⟨fun h => ?_, ?_⟩
        · change (if bindings ∈ ancestors then _ else _) = _ at h
          rw [if_neg hmem] at h
          cases h
        · rintro ⟨b, hb, hancestor⟩
          obtain rfl := Value.set.inj (Option.some.inj hb)
          exact absurd ((hancestors _).mpr hancestor) hmem
    | .bool _ | .other =>
      refine ⟨fun h => ?_, ?_⟩
      · cases h
      · rintro ⟨b, hb, -⟩
        cases hb
  · rw [herror, hreached]
    refine ⟨fun h => absurd (Except.error.inj h) hne, ?_⟩
    rintro ⟨b, hb, -⟩
    cases hb

/-! ## Expanded paths -/

/-- A path that is answered with names ends in a new set, and the names are its
attributes. -/
theorem evaluate_attrs {path : AttrPath} {attrs : List Str}
    (h : G.evaluate R forceRecurse path = .attrs attrs) (hne : attrs ≠ []) :
    ∃ bindings, G.reached path = some (.set bindings) ∧ ¬G.IsAncestor path bindings ∧
      attrs = (G.attrs bindings).keys := by
  unfold evaluate at h
  -- only an evaluation that ended normally is answered with names
  have hok : G.tryEvaluate forceRecurse path = .ok (.attrs attrs) := by
    unfold Rendering.answer at h
    split at h
    · next payload hpayload => rw [hpayload, h]
    all_goals cases h
  unfold tryEvaluate at hok
  obtain ⟨v, hselect, hok⟩ := bind_eq_ok.mp hok
  obtain ⟨hreached, hnew⟩ := select_ok hselect
  -- only a set that is no derivation is answered with names
  match v with
  | .set bindings =>
    refine ⟨bindings, hreached, hnew bindings rfl, ?_⟩
    change G.processDerivation forceRecurse bindings path = _ at hok
    unfold processDerivation at hok
    split at hok
    · obtain ⟨names, hnames, hret⟩ := bind_eq_ok.mp hok
      obtain rfl := Payload.attrs.inj (Except.ok.inj hret)
      unfold collectAttrsForRecursion at hnames
      obtain ⟨recurse, -, hkeys⟩ := bind_eq_ok.mp hnames
      have hkeys := (Except.ok.inj hkeys).symm
      split at hkeys
      · exact hkeys
      · exact absurd hkeys hne
    · obtain ⟨⟨drv, extraValue⟩, -, hret⟩ := bind_eq_ok.mp hok
      cases Except.ok.inj hret
  | .bool _ | .other =>
    have hnil := Payload.attrs.inj (Except.ok.inj hok)
    exact absurd hnil.symm hne

/-- Every proper prefix of a path of the traversal was answered with names. -/
theorem expanded_of_reach {f : AttrPath → Payload} {path p : AttrPath} (h : Reach f path)
    (hpre : p <+: path) (hne : p ≠ path) : ∃ attrs, f p = .attrs attrs ∧ attrs ≠ [] := by
  induction h with
  | root => exact absurd (List.prefix_nil.mp hpre) hne
  | @child parent attrs attr _ hattrs hattr ih =>
    -- the parent was expanded, and so were its own prefixes
    rcases List.prefix_concat_iff.mp hpre with heq | hshort
    · exact absurd heq hne
    · by_cases hparent : p = parent
      · exact ⟨attrs, hparent ▸ hattrs, List.ne_nil_of_mem hattr⟩
      · exact ih hshort hparent

/-- The prefixes of a path reach pairwise distinct sets. -/
def Distinct (G : ValueGraph ν) (path : AttrPath) : Prop :=
  (∀ p, p <+: path → ∃ bindings, G.reached p = some (.set bindings)) ∧
    ∀ p q, p <+: path → q <+: path → p ≠ q → G.reached p ≠ G.reached q

/-- **No set occurs twice along an expanded path.** -/
theorem distinct_of_reach {path : AttrPath} (h : Reach (G.evaluate R forceRecurse) path)
    {attrs : List Str} (hattrs : G.evaluate R forceRecurse path = .attrs attrs)
    (hne : attrs ≠ []) : G.Distinct path := by
  -- every prefix ends in a set that none of its own prefixes reaches
  have hnew : ∀ p, p <+: path → ∃ bindings, G.reached p = some (.set bindings) ∧
      ¬G.IsAncestor p bindings := by
    intro p hpre
    have hexpanded : ∃ names, G.evaluate R forceRecurse p = .attrs names ∧ names ≠ [] := by
      by_cases hp : p = path
      · exact ⟨attrs, hp ▸ hattrs, hne⟩
      · exact expanded_of_reach h hpre hp
    obtain ⟨names, hnames, hnonempty⟩ := hexpanded
    obtain ⟨bindings, hreached, hfresh, -⟩ := evaluate_attrs hnames hnonempty
    exact ⟨bindings, hreached, hfresh⟩
  -- if two prefixes reached one set, the longer one would end in an ancestor
  have hshorter : ∀ p q, q <+: path → p <+: q → p ≠ q → G.reached p ≠ G.reached q := by
    intro p q hq hpq hpne hsame
    obtain ⟨bindings, hreached, hfresh⟩ := hnew q hq
    exact hfresh ⟨p, hpq, hpne, hsame.trans hreached⟩
  refine ⟨fun p hp => ?_, fun p q hp hq hpne => ?_⟩
  · obtain ⟨bindings, hreached, -⟩ := hnew p hp
    exact ⟨bindings, hreached⟩
  · -- of two prefixes of one path the shorter is a prefix of the longer
    rcases List.prefix_or_prefix_of_prefix hp hq with hpq | hqp
    · exact hshorter p q hq hpq hpne
    · exact (hshorter q p hp hqp hpne.symm).symm

omit [DecidableEq ν] in
/-- A path with distinct sets is shorter than their number. -/
theorem Distinct.length_lt [Fintype ν] {path : AttrPath} (h : G.Distinct path) :
    path.length < Fintype.card ν := by
  -- the prefixes, by their lengths, are as many sets
  choose bindings hbindings using fun i : Fin (path.length + 1) =>
    h.1 (path.take i) (List.take_prefix _ _)
  -- prefixes of different lengths reach different sets
  have hinj : Function.Injective bindings := by
    intro i j hij
    by_contra hne
    refine h.2 (path.take i) (path.take j) (List.take_prefix _ _) (List.take_prefix _ _) ?_ ?_
    · intro htake
      have hlen := congrArg List.length htake
      rw [List.length_take, List.length_take] at hlen
      omega
    · rw [hbindings, hbindings, hij]
  have hcard := Fintype.card_le_of_injective bindings hinj
  rw [Fintype.card_fin] at hcard
  omega

/-- A queued path is at most as long as there are sets. -/
theorem length_le_of_reach [Fintype ν] {path : AttrPath}
    (h : Reach (G.evaluate R forceRecurse) path) : path.length ≤ Fintype.card ν := by
  match h with
  | .root => exact Nat.zero_le _
  | .child hparent hattrs hattr =>
    have hlt := (distinct_of_reach hparent hattrs (List.ne_nil_of_mem hattr)).length_lt
    rw [List.length_append, List.length_singleton]
    omega

/-- Its components are names of attributes. -/
theorem mem_names_of_reach {path : AttrPath} (h : Reach (G.evaluate R forceRecurse) path)
    (name : Str) (hname : name ∈ path) : ∃ bindings, name ∈ (G.attrs bindings).keys := by
  induction h with
  | root => exact absurd hname List.not_mem_nil
  | @child parent attrs attr _ hattrs hattr ih =>
    rcases List.mem_append.mp hname with hold | hlast
    · exact ih hold
    · rw [List.mem_singleton.mp hlast]
      obtain ⟨bindings, -, -, rfl⟩ := evaluate_attrs hattrs (List.ne_nil_of_mem hattr)
      exact ⟨bindings, hattr⟩

/-- The queued paths are finitely many: bounded length, and finitely many names. -/
theorem finite_reach [Fintype ν] : {path | Reach (G.evaluate R forceRecurse) path}.Finite := by
  let names : Set Str := ⋃ bindings, {name | name ∈ (G.attrs bindings).keys}
  have hnames : names.Finite := Set.finite_iUnion fun bindings => List.finite_toSet _
  have : Finite names := hnames
  have hshort : {path : List names | path.length ≤ Fintype.card ν}.Finite :=
    List.finite_length_le names (Fintype.card ν)
  refine (hshort.image (List.map Subtype.val)).subset fun path h => ?_
  have hmem : ∀ name ∈ path, name ∈ names := fun name hname =>
    Set.mem_iUnion.mpr (mem_names_of_reach h name hname)
  refine ⟨path.attachWith (· ∈ names) hmem, ?_, List.attachWith_map_subtype_val hmem⟩
  show (path.attachWith _ _).length ≤ _
  rw [List.length_attachWith]
  exact length_le_of_reach h

end ValueGraph

/-! ## Runs -/

namespace Scheduler

variable {n : Nat} {X : Externals} {nrWorkers maxMemorySize : UInt64} {resolver : Bool}

/-- What an answer in the history says, the traversal visits. -/
theorem reach_of_responded {s : Scheduler n} {f : AttrPath → Payload} (h : s.Truthful X f)
    (hconserved : s.Conserved) {response : Response} {json : Json}
    (hmem : .responded response json ∈ s.trace) : Reach f response.attrPath := by
  refine reach_of_discovered h hconserved ?_
  have hsettled : 0 < settled response.attrPath s.trace :=
    List.countP_pos_iff.mpr ⟨_, hmem, by simp [Effect.settles]⟩
  have hplaces := hconserved response.attrPath
  rw [places] at hplaces
  rw [← Bool.toNat_eq_one]
  have hle := Bool.toNat_le (discovered response.attrPath s.trace)
  omega

end Scheduler

namespace ValueGraph

open Scheduler

variable {n : Nat} {X : Externals} {nrWorkers maxMemorySize : UInt64} {resolver : Bool}
  {ν : Type} [DecidableEq ν] [Fintype ν]

/-- **The traversal of a finite value ends, cyclic or not.** `select` reports a cycle
exactly for paths that end in the set one of their proper prefixes reaches; along a
path that was answered with names no set occurs twice; and the paths that runs of
the collector ever queue are finitely many, none longer than there are sets. -/
theorem finite_traversal (G : ValueGraph ν) (R : Rendering) (forceRecurse : Bool) :
    (∀ path, G.select path = .error cycleError ↔
      ∃ bindings, G.reached path = some (.set bindings) ∧ G.IsAncestor path bindings) ∧
    (∀ c, (system X nrWorkers maxMemorySize resolver (n := n)).Reachable
        (Answers X (G.evaluate R forceRecurse)) c →
      (∀ response json attrs, .responded response json ∈ c.sched.trace →
        response.payload = .attrs attrs → attrs ≠ [] → G.Distinct response.attrPath) ∧
      ∀ path, discovered path c.sched.trace = true → path.length ≤ Fintype.card ν) ∧
    {path | ∃ c, (system X nrWorkers maxMemorySize resolver (n := n)).Reachable
        (Answers X (G.evaluate R forceRecurse)) c ∧
      discovered path c.sched.trace = true}.Finite := by
  -- in every run only paths that the graph reaches are discovered
  have hreach : ∀ c, (system X nrWorkers maxMemorySize resolver (n := n)).Reachable
      (Answers X (G.evaluate R forceRecurse)) c →
      c.sched.Truthful X (G.evaluate R forceRecurse) ∧ c.sched.Conserved := by
    intro c hc
    have hvisited := Visited.of_reachable (hc.mono decoded_of_answers)
    exact ⟨truthful_visited hvisited,
      conserved_visited (fun _ _ _ hdecoded => hdecoded.echo) hvisited⟩
  refine ⟨select_cycle_iff, fun c hc => ⟨?_, fun path hpath => ?_⟩, ?_⟩
  · intro response json attrs hmem hattrs hne
    obtain ⟨htruthful, hconserved⟩ := hreach c hc
    have hkind := (htruthful response json hmem).kind
    rw [hattrs] at hkind
    exact distinct_of_reach (reach_of_responded htruthful hconserved hmem) hkind.attrs_eq hne
  · obtain ⟨htruthful, hconserved⟩ := hreach c hc
    exact length_le_of_reach (reach_of_discovered htruthful hconserved hpath)
  · -- the paths of all runs together
    have hfinite : {path | Reach (G.evaluate R forceRecurse) path}.Finite := finite_reach
    refine hfinite.subset ?_
    rintro path ⟨c, hc, hpath⟩
    obtain ⟨htruthful, hconserved⟩ := hreach c hc
    exact reach_of_discovered htruthful hconserved hpath

/-! ### A set that contains itself -/

/-- `let again = { inherit again; }; in again`. -/
def againGraph : ValueGraph (Fin 1) where
  root := .set 0
  attrs _ := (∅ : StdMap Str (Value (Fin 1))).insert (lit "again") (.set 0)
  package _ := none
  typeError _ := lit "expected a set"

/-- Errors are shown as they are. -/
def plainRendering : Rendering where
  showError
    | .own format _ => format
    | .nix text => text
  filterANSIEscapes := id

/-- What a worker answers for a path. -/
def againAnswer (path : AttrPath) : Response where
  attr := joinAttrPath path
  attrPath := path
  payload := againGraph.evaluate plainRendering false path

/-- The lines of the two answers. -/
def againExternals : Externals :=
  Externals.plain [(againAnswer []).toJson StorePaths.plain,
    (againAnswer [lit "again"]).toJson StorePaths.plain]

/-- The answer as a line. -/
def againLine (path : AttrPath) : Str :=
  (((againAnswer path).toJson StorePaths.plain).plainDump).getD []

/-- The root is expanded once; its attribute is answered with the cycle. -/
def againRun : List (Event 1) :=
  Event.calmPass 1 ++ [Event.line 0 msgNext 300] ++ Event.calmPass 1 ++
    [Event.line 0 (againLine []) 300, .line 0 msgNext 300] ++ Event.calmPass 1 ++
    [Event.line 0 (againLine [lit "again"]) 300]

/-- The worker answers for its path, and only two paths are asked for. -/
def againCheck : Config 1 → Event 1 → Bool
  | c, .line idx line _ => ∀ path ∈ (c.sched.workers idx).attrPath,
      line = againLine path ∧ (path = [] ∨ path = [lit "again"])
  | _, _ => true

/-- The two lines decode to the answers. -/
theorem againExternals_parse {path : AttrPath} (h : path = [] ∨ path = [lit "again"]) :
    againExternals.parse (againLine path) = some ((againAnswer path).toJson StorePaths.plain) := by
  rw [againExternals, Externals.plain]
  dsimp only [JsonText.plain]
  rcases h with rfl | rfl
  · rw [List.find?_cons_of_pos (by decide +kernel)]
  · rw [List.find?_cons_of_neg (by decide +kernel), List.find?_cons_of_pos (by decide +kernel)]

/-- So the check of the run is enough. -/
theorem answers_of_againCheck (c : Config 1) (e : Event 1) (h : againCheck c e = true) :
    Answers againExternals (againGraph.evaluate plainRendering false) c e := by
  match e with
  | .line idx line rss =>
    intro path _ hpath
    obtain ⟨rfl, hmem⟩ := of_decide_eq_true h path hpath
    exact ⟨againAnswer path, ⟨rfl, rfl, rfl⟩, againExternals_parse hmem⟩
  | .beginDispatch | .slot _ | .endDispatch | .sample _ _ | .eof _ _ => trivial

/-- Every event of the run passes the check. -/
theorem againRun_isSome :
    ((system againExternals 1 4096 false).run againCheck
      (system againExternals 1 4096 false).init againRun).isSome = true := by
  decide +kernel

/-- `again` is queued and answered with the cycle; `again.again` is never queued. -/
theorem finite_traversal_againRun :
    let c := (system againExternals 1 4096 false).after againCheck againRun againRun_isSome
    againGraph.select [lit "again"] = .error cycleError ∧
      discovered [lit "again"] c.sched.trace = true ∧
      discovered [lit "again", lit "again"] c.sched.trace = false ∧ againGraph.Distinct [] := by
  intro c
  have hrun := System.reachable_after answers_of_againCheck againRun againRun_isSome
  obtain ⟨hcycle, hruns, -⟩ :=
    @finite_traversal 1 againExternals 1 4096 false (Fin 1) _ _ againGraph plainRendering false
  have hancestor : againGraph.IsAncestor [lit "again"] 0 := ⟨[], List.nil_prefix, by simp, rfl⟩
  refine ⟨(hcycle _).mpr ⟨0, by decide +kernel, hancestor⟩, by decide +kernel,
    by decide +kernel, ?_⟩
  -- the answer for the root is in the history
  have hroot : c.sched.trace.any (Effect.lists [lit "again"]) = true := by decide +kernel
  obtain ⟨e, hmem, hlists⟩ := List.any_eq_true.mp hroot
  obtain ⟨response, json, attrs, attr, rfl, hattrs, hattr, hpath⟩ := Effect.lists_eq_true hlists
  have hnil : response.attrPath = [] :=
    (List.append_inj' (hpath.trans (List.nil_append _).symm) rfl).1
  exact hnil ▸ (hruns c hrun).1 _ _ _ hmem hattrs (List.ne_nil_of_mem hattr)

end ValueGraph

end NixEvalJobs
