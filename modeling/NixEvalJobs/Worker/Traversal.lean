import NixEvalJobs.Worker.Cycles

/-!
# Worker — what a value holds

The traversal in the terms of the value, as a user thinks of it: from a set that is no
derivation it goes on to the attributes, unless `recurseForDerivations` says otherwise or the
set contains itself. The code has no such function. It comes about from the answers of single
evaluations, each of which starts at the root again.

* `recurses_cases` — what `collectAttrsForRecursion` makes of the flag.
* `reach_iff_visits` — the traversal of the answers is that of the value.
* `evaluate_isAttrs_iff` — what is printed for a path of it.
-/

namespace NixEvalJobs

namespace ValueGraph

section Values

variable {ν : Type}

/-- The attribute that decides. -/
def flagName : Str := lit "recurseForDerivations"

/-- Whether the attributes of a set are looked at, too. -/
def Recurses (G : ValueGraph ν) (forceRecurse : Bool) (bindings : ν) (path : AttrPath) : Prop :=
  forceRecurse = true ∨
    match (G.attrs bindings)[flagName]? with
    | some value => value = .bool true
    | none => path = []

/-- `path` ends in a set that is none of those it has come through. -/
structure EndsIn (G : ValueGraph ν) (path : AttrPath) (bindings : ν) : Prop where
  reached : G.reached path = some (.set bindings)
  fresh : ¬G.IsAncestor path bindings

/-- The paths of the traversal; at those that are `lost` it does not go on. -/
inductive Visits (G : ValueGraph ν) (forceRecurse : Bool) (lost : AttrPath → Bool) :
    AttrPath → Prop where
  | root : Visits G forceRecurse lost []
  | attr {path : AttrPath} {bindings : ν} {name : Str} : Visits G forceRecurse lost path →
      lost path = false → G.EndsIn path bindings → G.package bindings = none →
      G.Recurses forceRecurse bindings path → name ∈ (G.attrs bindings).keys →
      Visits G forceRecurse lost (path ++ [name])

/-- There is something to tell about a path: a derivation, or why there is none. -/
inductive Prints (G : ValueGraph ν) (forceRecurse : Bool) (path : AttrPath) : Prop where
  | package {bindings : ν} {job : Except Thrown (Drv × Option Json)} : G.EndsIn path bindings →
      G.package bindings = some job → Prints G forceRecurse path
  | cycle {bindings : ν} : G.reached path = some (.set bindings) → G.IsAncestor path bindings →
      Prints G forceRecurse path
  | flag {bindings : ν} {value : Value ν} : G.EndsIn path bindings → G.package bindings = none →
      forceRecurse = false → (G.attrs bindings)[flagName]? = some value →
      (∀ b, value ≠ .bool b) → Prints G forceRecurse path

variable {G : ValueGraph ν} {forceRecurse : Bool}

/-! ## The flag -/

/-- What the loop over the attributes makes of one of them. -/
def readFlag (G : ValueGraph ν) (forceRecurse recurse : Bool) (attr : Str × Value ν) :
    Except Thrown Bool :=
  if forceRecurse = false ∧ attr.1 = flagName then
    match attr.2 with
    | .bool b => pure b
    | v => throw (.evalError (.nix (G.typeError v)))
  else pure recurse

/-- Other attributes say nothing. -/
theorem readFlag_others {attrs : List (Str × Value ν)}
    (h : ∀ attr ∈ attrs, ¬(forceRecurse = false ∧ attr.1 = flagName)) (recurse : Bool) :
    attrs.foldlM (G.readFlag forceRecurse) recurse = .ok recurse := by
  -- along the attributes
  induction attrs with
  | nil => rfl
  | cons attr attrs ih =>
    obtain ⟨hattr, hattrs⟩ := List.forall_mem_cons.mp h
    rw [List.foldlM_cons, readFlag, if_neg hattr]
    exact ih hattrs

/-- What `collectAttrsForRecursion` makes of the flag. -/
theorem recurses_cases (bindings : ν) (path : AttrPath) :
    G.recurses forceRecurse bindings path =
      if forceRecurse then .ok true
      else
        match (G.attrs bindings)[flagName]? with
        | some (.bool b) => .ok b
        | some v => .error (.evalError (.nix (G.typeError v)))
        | none => .ok path.isEmpty := by
  have hfold : G.recurses forceRecurse bindings path =
      (G.attrs bindings).toList.foldlM (G.readFlag forceRecurse)
        (forceRecurse || path.isEmpty) := rfl
  rw [hfold]
  cases forceRecurse with
  -- `--force-recurse` ignores the flag
  | true => exact readFlag_others (fun _ _ hc => by cases hc.1) true
  | false =>
    cases hflag : (G.attrs bindings)[flagName]? with
    -- without the flag only the root is opened
    | none =>
      refine readFlag_others (fun attr hattr hc => ?_) _
      rw [← hc.2, Std.ExtTreeMap.mem_toList_iff_getElem?_eq_some.mp hattr] at hflag
      cases hflag
    | some value =>
      -- the attributes before and behind it are others
      obtain ⟨before, behind, hattrs⟩ := List.append_of_mem
        (Std.ExtTreeMap.mem_toList_iff_getElem?_eq_some.mpr hflag)
      have hdistinct : (G.attrs bindings).toList.Pairwise fun x y => x.1 ≠ y.1 :=
        Std.ExtTreeMap.distinct_keys_toList.imp fun hne heq =>
          hne (Std.LawfulEqCmp.compare_eq_iff_eq.mpr heq)
      rw [hattrs] at hdistinct ⊢
      obtain ⟨-, hbehind, hbefore⟩ := List.pairwise_append.mp hdistinct
      rw [List.foldlM_append, readFlag_others fun attr hattr hc =>
        hbefore attr hattr _ (List.mem_cons_self ..) hc.2]
      have hrest : ∀ b, behind.foldlM (G.readFlag false) b = .ok b :=
        readFlag_others fun attr hattr hc =>
          (List.pairwise_cons.mp hbehind).1 attr hattr hc.2.symm
      change ((flagName, value) :: behind).foldlM (G.readFlag false) path.isEmpty = _
      rw [List.foldlM_cons, readFlag, if_pos ⟨rfl, rfl⟩]
      cases value with
      | bool b => exact hrest b
      | set | other => rfl

/-- The attributes are looked at when the flag says so. -/
theorem recurses_ok_iff {bindings : ν} {path : AttrPath} :
    G.recurses forceRecurse bindings path = .ok true ↔ G.Recurses forceRecurse bindings path := by
  rw [recurses_cases, Recurses]
  cases forceRecurse with
  | true => simp
  | false =>
    cases (G.attrs bindings)[flagName]? with
    | none => simp
    | some value => cases value <;> simp

end Values

/-! ## Evaluations -/

variable {ν : Type} [DecidableEq ν] {G : ValueGraph ν} {R : Rendering} {forceRecurse : Bool}
  {path : AttrPath}

/-- What `select` gives for a path that exists. -/
theorem select_of_reached {v : Value ν} (h : G.reached path = some v) :
    ((∃ bindings, v = .set bindings ∧ G.IsAncestor path bindings) ∧
      G.select path = .error cycleError) ∨
    ((∀ bindings, v = .set bindings → G.EndsIn path bindings) ∧ G.select path = .ok v) := by
  -- the last set of the path may be one that the path has come through
  by_cases hcycle : ∃ bindings, v = .set bindings ∧ G.IsAncestor path bindings
  · obtain ⟨bindings, rfl, hancestor⟩ := hcycle
    exact .inl ⟨⟨bindings, rfl, hancestor⟩, (select_cycle_iff path).mpr ⟨bindings, h, hancestor⟩⟩
  · have hfresh : ∀ bindings, v = .set bindings → ¬G.IsAncestor path bindings :=
      fun bindings hv hancestor => hcycle ⟨bindings, hv, hancestor⟩
    refine .inr ⟨fun bindings hv => ⟨hv ▸ h, hfresh bindings hv⟩, ?_⟩
    -- the loop of `select` comes to the value of the path
    rcases foldlM_descend (G := G) path with ⟨v', ancestors, hok, hreached, hancestors⟩ |
      ⟨e, -, -, hnone⟩
    · obtain rfl : v' = v := Option.some.inj (hreached.symm.trans h)
      unfold select
      rw [hok]
      match v' with
      | .set bindings => exact if_neg fun hmem => hfresh bindings rfl ((hancestors _).mp hmem)
      | .bool _ | .other => rfl
    · cases h.symm.trans hnone

/-- The answer for a set that the traversal opens. -/
theorem evaluate_set {bindings : ν} (h : G.EndsIn path bindings)
    (hpackage : G.package bindings = none) : G.evaluate R forceRecurse path =
      R.answer ((G.recurses forceRecurse bindings path).map fun recurse =>
        .attrs (if recurse then (G.attrs bindings).keys else [])) := by
  rcases select_of_reached h.reached with ⟨⟨b, hb, hancestor⟩, -⟩ | ⟨-, hselect⟩
  · obtain rfl := Value.set.inj hb
    exact absurd hancestor h.fresh
  · -- a set that is no derivation is asked for its attributes
    have htry : G.tryEvaluate forceRecurse path =
        (G.recurses forceRecurse bindings path).map fun recurse =>
          .attrs (if recurse then (G.attrs bindings).keys else []) := by
      rw [tryEvaluate, hselect]
      change G.processDerivation forceRecurse bindings path = _
      rw [processDerivation, hpackage]
      change (G.collectAttrsForRecursion forceRecurse bindings path >>= fun attrs => _) = _
      rw [collectAttrsForRecursion]
      cases G.recurses forceRecurse bindings path with
      | ok recurse => rfl
      | error e => rfl
    rw [evaluate, htry]

/-- No exception is answered with names. -/
theorem ok_of_answer {outcome : Except Thrown Payload} {names : List Str}
    (h : R.answer outcome = .attrs names) : outcome = .ok (.attrs names) := by
  cases outcome with
  | ok payload => exact congrArg Except.ok h
  | error e => cases e <;> cases h

/-- The answer for a derivation. -/
theorem evaluate_package {bindings : ν} {job : Except Thrown (Drv × Option Json)}
    (h : G.EndsIn path bindings) (hpackage : G.package bindings = some job) :
    G.evaluate R forceRecurse path = R.answer (job.map fun found => .job found.1 found.2) := by
  rcases select_of_reached h.reached with ⟨⟨b, hb, hancestor⟩, -⟩ | ⟨-, hselect⟩
  · obtain rfl := Value.set.inj hb
    exact absurd hancestor h.fresh
  · rw [evaluate, tryEvaluate, hselect]
    change R.answer (G.processDerivation forceRecurse bindings path) = _
    rw [processDerivation, hpackage]
    cases job with
    | ok found => rfl
    | error e => rfl

variable {lost : AttrPath → Bool}

/-- A set is opened when its evaluation gives its attributes. -/
theorem opened_of_evaluate {names : List Str}
    (h : G.evaluate R forceRecurse path = .attrs names) (hne : names ≠ []) :
    ∃ bindings, G.EndsIn path bindings ∧ G.package bindings = none ∧
      G.Recurses forceRecurse bindings path ∧ names = (G.attrs bindings).keys := by
  obtain ⟨bindings, hreached, hfresh, rfl⟩ := evaluate_attrs h hne
  have hends : G.EndsIn path bindings := ⟨hreached, hfresh⟩
  -- a derivation is not opened
  cases hpackage : G.package bindings with
  | some job =>
    rw [evaluate_package hends hpackage] at h
    cases job with
    | ok found => cases h
    | error e => cases ok_of_answer h
  | none =>
    rw [evaluate_set hends hpackage] at h
    have hok := ok_of_answer h
    refine ⟨bindings, hends, hpackage, recurses_ok_iff.mp ?_, rfl⟩
    cases hrecurses : G.recurses forceRecurse bindings path with
    | error e =>
      rw [hrecurses] at hok
      cases hok
    | ok recurse =>
      rw [hrecurses] at hok
      cases recurse with
      | true => rfl
      -- names were given, so there is a flag or the root
      | false => exact absurd (Payload.attrs.inj (Except.ok.inj hok)).symm hne

/-- **The traversal of the answers is that of the value**, as far as nothing is lost. -/
theorem reach_iff_visits {results : AttrPath → Payload}
    (hlost : ∀ path, lost path = true → (results path).isAttrs = false)
    (hkept : ∀ path, lost path = false → results path = G.evaluate R forceRecurse path) :
    Reach results path ↔ G.Visits forceRecurse lost path := by
  constructor
  · -- an answer with names comes from a set that is opened
    intro h
    induction h with
    | root => exact .root
    | @child path names name _ hnames hname ih =>
      -- what is lost is answered with an error
      have hheld : lost path = false := by
        by_contra hne
        have hleaf := hlost path (by simpa using hne)
        rw [hnames] at hleaf
        cases hleaf
      rw [hkept path hheld] at hnames
      obtain ⟨bindings, hends, hpackage, hrecurses, rfl⟩ :=
        opened_of_evaluate hnames (List.ne_nil_of_mem hname)
      exact .attr ih hheld hends hpackage hrecurses hname
  · -- and a set that is opened is answered with its names
    intro h
    induction h with
    | root => exact .root
    | @attr path bindings name _ hheld hends hpackage hrecurses hname ih =>
      refine .child ih ?_ hname
      rw [hkept path hheld, evaluate_set hends hpackage, recurses_ok_iff.mpr hrecurses]
      rfl

omit [DecidableEq ν] in
/-- A path ends in one set. -/
theorem EndsIn.unique {bindings bindings' : ν} (h : G.EndsIn path bindings)
    (hreached : G.reached path = some (.set bindings')) : bindings = bindings' :=
  Value.set.inj (Option.some.inj (h.reached.symm.trans hreached))

end ValueGraph

end NixEvalJobs
