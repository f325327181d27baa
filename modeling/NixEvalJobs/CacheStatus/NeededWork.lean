import NixEvalJobs.CacheStatus.Visits

/-!
# Cache status resolver — is the needed work complete?

An output that an edge wants is accounted for when the first visit of its
derivation wanted it too, or builds anyway. An edge whose derivation was first
reached for other outputs, and then needed no build, is overlooked: the walk does
not look at the outputs of the second edge.

The walk enters each derivation once, with the outputs of the edge it came by. So
everything below is about three facts of the entered nodes: there is one for each
derivation (`firstVisits_unique`), the inputs of what has to be built are among them
(`firstVisits_inputs`), and each of them but the job itself was come to by an edge
(`firstVisits_edge`).

* `neededWork_complete_iff` — what is needed is complete exactly when no edge is
  overlooked.
* `neededComplete_of_edgesAgree` — so nothing is left out where all edges into a
  derivation want the same of its outputs.
* `diamond_incomplete` — a job that builds a tool against the library `lib` and
  needs the headers of `lib` itself; they are not mentioned.
-/

namespace NixEvalJobs

/-- The path of an output, if the derivation can be read and the path is known. -/
def EvalStore.outputPath (S : EvalStore) (drvPath : StorePath) (name : Str) : Option StorePath :=
  match S.readDerivation drvPath with
  | some drv => drv.outputsAndOptPaths[name]?.join
  | none => none

namespace Resolver

/-- Every output that a derivation to build wants is valid, or fetched, or built. -/
def NeededComplete (S : EvalStore) (O : Oracles) (drv : Drv) : Prop :=
  ∀ drvPath ∈ drv.neededBuilds, ∀ edge ∈ inputs S drvPath, ∀ name ∈ edge.2, ∀ path,
    S.outputPath edge.1 name = some path → O.valid path = false →
      path ∈ drv.neededSubstitutes ∨ edge.1 ∈ drv.neededBuilds

/-- A derivation to build has an edge that wants an output which no visit fetches, not
even the first one of its derivation: that one builds nothing, and came by an edge that
wanted other outputs. -/
structure Overlooked (S : EvalStore) (O : Oracles) (visits : List Visit)
    (v edge first : Visit) (name : Str) (path : StorePath) : Prop where
  visited : v ∈ visits
  building : builds S O v = true
  input : edge ∈ inputs S v.1
  wanted : name ∈ edge.2
  output : S.outputPath edge.1 name = some path
  invalid : O.valid path = false
  visitedFirst : first ∈ visits
  same : first.1 = edge.1
  leaf : builds S O first = false
  unfetched : ∀ u ∈ visits, builds S O u = false → path ∉ missingAt S O u

variable {S : EvalStore} {O : Oracles} {R R' : Resolver}

/-- What a visit asks the substituters about: the outputs its edge wants that are not valid. -/
theorem mem_missingAt {v : Visit} {path : StorePath} :
    path ∈ missingAt S O v ↔ ∃ name, wants v.2 name = true ∧
      S.outputPath v.1 name = some path ∧ O.valid path = false := by
  rw [missingAt]
  cases hread : S.readDerivation v.1 with
  | none => simp [EvalStore.outputPath, hread]
  | some drv =>
    simp only [missingPaths, EvalStore.outputPath, hread, List.mem_filterMap, Prod.exists,
      Std.ExtTreeMap.mem_toList_iff_getElem?_eq_some]
    constructor
    · -- the filter of the source read as a conjunction
      rintro ⟨name, output, houtput, hpath⟩
      split at hpath
      · next hwants =>
        obtain ⟨rfl, hvalid⟩ := Option.filter_eq_some_iff.mp hpath
        exact ⟨name, hwants, by rw [houtput]; rfl, by simpa using hvalid⟩
      · cases hpath
    · rintro ⟨name, hwants, houtput, hvalid⟩
      refine ⟨name, some path, Option.join_eq_some_iff.mp houtput, ?_⟩
      rw [if_pos hwants]
      exact Option.filter_eq_some_iff.mpr ⟨rfl, by simp [hvalid]⟩

/-- The first visit has left the output out. -/
theorem Overlooked.unwanted {visits : List Visit} {v edge first : Visit} {name : Str}
    {path : StorePath} (h : Overlooked S O visits v edge first name path) :
    wants first.2 name = false := by
  rw [Bool.eq_false_iff]
  intro hwants
  refine h.unfetched first h.visitedFirst h.leaf (mem_missingAt.mpr ⟨name, hwants, ?_, h.invalid⟩)
  rw [h.same]
  exact h.output

/-! ## The entered nodes -/

section FirstVisits

variable {root : StorePath} {u v : Visit}

/-- The walk with nothing entered before, and fuel for the depth of its start. -/
theorem firstVisits_extends (S : EvalStore) (O : Oracles) (root : StorePath) :
    WalkExtends Prod.fst (nextVisits S O) [] (firstVisits S O root) (firstVisits S O root) := by
  obtain ⟨new, hwalk, -⟩ := walk_extends Prod.fst (depth_nextVisits (S := S) (O := O))
    (v := (root, ∅)) (Nat.lt_succ_self (S.depth root)) []
  obtain rfl : firstVisits S O root = new := hwalk.eq
  exact hwalk

/-- A derivation is entered once. -/
theorem firstVisits_unique (hu : u ∈ firstVisits S O root) (hv : v ∈ firstVisits S O root)
    (hsame : u.1 = v.1) : u = v :=
  eq_of_key_eq ((firstVisits_extends S O root).nodup List.nodup_nil) hu hv hsame

/-- The inputs of what has to be built are entered. -/
theorem firstVisits_inputs (hv : v ∈ firstVisits S O root) (hbuild : builds S O v = true)
    {edge : Visit} (hedge : edge ∈ inputs S v.1) :
    ∃ first ∈ firstVisits S O root, first.1 = edge.1 := by
  refine (firstVisits_extends S O root).closed v hv edge ?_
  rwa [nextVisits, if_pos hbuild]

/-- A visit is the one of the job itself, or that of an edge, and no deeper than the job. -/
theorem firstVisits_edge (hv : v ∈ firstVisits S O root) :
    S.depth v.1 ≤ S.depth root ∧ (v = (root, ∅) ∨ ∃ w : Visit, v ∈ inputs S w.1) := by
  have hleads := (leads_of_mem_walk hv).resolve_left List.not_mem_nil
  induction hleads with
  | refl => exact ⟨le_rfl, .inl rfl⟩
  -- a visit that is come to from another one that builds
  | @tail w v hw hnext ih =>
    have hedge : v ∈ inputs S w.1 := by
      rw [nextVisits] at hnext
      split at hnext
      · exact hnext
      · exact absurd hnext List.not_mem_nil
    refine ⟨(depth_inputs hedge).le.trans ?_, .inr ⟨w, hedge⟩⟩
    -- the depth only gets smaller on the way
    clear ih hnext hedge
    induction hw with
    | refl => exact le_rfl
    | tail _ hnext ih => exact (depth_nextVisits _ _ hnext).le.trans ih

end FirstVisits

/-! ## A completed attempt -/

/-- What a job that is not built needs is what the plain walk finds. -/
theorem needed_of_resolved (hstatic : S.Static) (h : (system S O).Reachable System.anyEnv R)
    {drv drv' : Drv} (hresolve : R.tryResolve S drv = .ok (true, drv', R'))
    (hstatus : drv'.cacheStatus = .notBuilt) :
    (∀ path, path ∈ drv'.neededBuilds ↔
      ∃ v ∈ firstVisits S O drv.drvPath, builds S O v = true ∧ v.1 = path) ∧
    ∀ path, path ∈ drv'.neededSubstitutes ↔
      ∃ v ∈ firstVisits S O drv.drvPath, builds S O v = false ∧ path ∈ missingAt S O v := by
  rcases tryResolve_cases (agrees_reachable h) hresolve with ⟨R₁, hR₁, hslow⟩ | ⟨-, hother⟩
  · exact (slowPath_spec hstatic hR₁ hslow).2 rfl
  · exact absurd hstatus (hother rfl)

/-- An overlooked edge wants an output that is neither fetched nor built. -/
theorem Overlooked.incomplete (hstatic : S.Static)
    (h : (system S O).Reachable System.anyEnv R) {drv drv' : Drv}
    (hresolve : R.tryResolve S drv = .ok (true, drv', R'))
    (hstatus : drv'.cacheStatus = .notBuilt) {v edge first : Visit} {name : Str} {path : StorePath}
    (ho : Overlooked S O (firstVisits S O drv.drvPath) v edge first name path) :
    ¬NeededComplete S O drv' := by
  intro hcomplete
  obtain ⟨hbuilds, hsubstitutes⟩ := needed_of_resolved hstatic h hresolve hstatus
  rcases hcomplete v.1 ((hbuilds _).mpr ⟨v, ho.visited, ho.building, rfl⟩) edge
    ho.input name ho.wanted path ho.output ho.invalid with hsubstitute | hbuild
  · -- something fetches it: excluded by `unfetched`
    obtain ⟨u, hu, hleaf, hmissing⟩ := (hsubstitutes path).mp hsubstitute
    exact ho.unfetched u hu hleaf hmissing
  · -- the only visit of the derivation is the one that builds nothing
    obtain ⟨u, hu, hbuild, heq⟩ := (hbuilds edge.1).mp hbuild
    have hfirst := firstVisits_unique hu ho.visitedFirst (heq.trans ho.same.symm)
    rw [hfirst, ho.leaf] at hbuild
    cases hbuild

/-- Without an overlooked edge nothing is left out. -/
theorem neededComplete_of_not_overlooked (hstatic : S.Static)
    (h : (system S O).Reachable System.anyEnv R) {drv drv' : Drv}
    (hresolve : R.tryResolve S drv = .ok (true, drv', R'))
    (hstatus : drv'.cacheStatus = .notBuilt)
    (hnone : ∀ v edge first name path,
      ¬Overlooked S O (firstVisits S O drv.drvPath) v edge first name path) :
    NeededComplete S O drv' := by
  obtain ⟨hbuilds, hsubstitutes⟩ := needed_of_resolved hstatic h hresolve hstatus
  intro drvPath hdrvPath edge hedge name hname path houtput hinvalid
  obtain ⟨v, hv, hbuild, rfl⟩ := (hbuilds drvPath).mp hdrvPath
  obtain ⟨first, hfirst, hsame⟩ := firstVisits_inputs hv hbuild hedge
  -- the first visit of the input builds, or it is the one that should have fetched the
  -- output
  cases hleaf : builds S O first with
  | true => exact .inr ((hbuilds edge.1).mpr ⟨first, hfirst, hleaf, hsame⟩)
  | false =>
    refine .inl ((hsubstitutes path).mpr ?_)
    by_contra hunfetched
    refine hnone v edge first name path ⟨hv, hbuild, hedge, hname, houtput, hinvalid, hfirst,
      hsame, hleaf, fun u hu hleaf hmissing => ?_⟩
    exact hunfetched ⟨u, hu, hleaf, hmissing⟩

/-- **What is needed is complete exactly when no edge is overlooked.** -/
theorem neededWork_complete_iff (hstatic : S.Static)
    (h : (system S O).Reachable System.anyEnv R) {drv drv' : Drv}
    (hresolve : R.tryResolve S drv = .ok (true, drv', R'))
    (hstatus : drv'.cacheStatus = .notBuilt) :
    NeededComplete S O drv' ↔ ∀ v edge first name path,
      ¬Overlooked S O (firstVisits S O drv.drvPath) v edge first name path :=
  ⟨fun hcomplete _ _ _ _ _ ho => ho.incomplete hstatic h hresolve hstatus hcomplete,
    neededComplete_of_not_overlooked hstatic h hresolve hstatus⟩

/-- All edges into a derivation want the same of its outputs, as far as these are not valid. -/
def EdgesAgree (S : EvalStore) (O : Oracles) : Prop :=
  ∀ u v : StorePath, ∀ edge ∈ inputs S u, ∀ edge' ∈ inputs S v, edge.1 = edge'.1 →
    ∀ name path, S.outputPath edge.1 name = some path → O.valid path = false →
      wants edge.2 name = true → wants edge'.2 name = true

/-- **Edges that agree leave nothing out**, in whatever order the walk takes them. -/
theorem neededComplete_of_edgesAgree (hstatic : S.Static)
    (h : (system S O).Reachable System.anyEnv R) {drv drv' : Drv}
    (hresolve : R.tryResolve S drv = .ok (true, drv', R'))
    (hstatus : drv'.cacheStatus = .notBuilt) (hagree : EdgesAgree S O) :
    NeededComplete S O drv' := by
  refine neededComplete_of_not_overlooked hstatic h hresolve hstatus ?_
  intro v edge first name path ho
  have hwanted : wants edge.2 name = true := by
    rw [wants, ho.wanted, Bool.or_true]
  rcases (firstVisits_edge ho.visitedFirst).2 with hroot | ⟨w, hw⟩
  · -- an input of the job is not the job itself
    have hdeep := (firstVisits_edge ho.visited).1
    have hless := depth_inputs ho.input
    rw [← ho.same, hroot] at hless
    exact absurd hdeep (Nat.not_le.mpr hless)
  · have hsame := hagree v.1 w.1 edge ho.input first hw ho.same.symm name path ho.output
      ho.invalid hwanted
    rw [ho.unwanted] at hsame
    cases hsame

/-! ## Small stores -/

/-- The derivations of a list; their inputs are less deep. -/
def listStore (drvs : List (StorePath × Derivation)) (depth : StorePath → Nat)
    (h : ∀ e ∈ drvs, ∀ input ∈ e.2.inputDrvs.keys, depth input < depth e.1) : EvalStore where
  readDerivation path := (drvs.find? fun e => e.1 == path).map Prod.snd
  depth
  depth_lt := by
    intro path drv input hread hinput
    obtain ⟨e, hfind, rfl⟩ := Option.map_eq_some_iff.mp hread
    have hpath : e.1 = path := by simpa using List.find?_some hfind
    rw [← hpath]
    exact h e (List.mem_of_find?_eq_some hfind) input (Std.ExtTreeMap.mem_keys.mpr hinput)

/-- A derivation with one output. -/
def demoDrv (out : StorePath) (inputDrvs : StdMap StorePath (StdSet Str)) : Derivation where
  outputs := (∅ : StdMap Str DerivationOutput).insert (lit "out") (.inputAddressed out)
  inputDrvs

/-- The job of such a derivation. -/
def demoJob (name : String) (drvPath out : StorePath) : Drv where
  name := lit name
  storeDir := lit "/nix/store"
  system := lit "x86_64-linux"
  drvPath
  outputs := (∅ : StdMap Str (Option StorePath)).insert (lit "out") (some out)

/-! ## A diamond -/

/-- Store paths of the examples: a hash of one character and a name. -/
def demoPath (hash : Char) (name : String) : StorePath :=
  lit (String.ofList (List.replicate 32 hash) ++ "-" ++ name)

def jobDrv : StorePath := demoPath 'c' "job.drv"
def toolDrv : StorePath := demoPath 'a' "tool.drv"
def libDrv : StorePath := demoPath 'b' "lib.drv"
def siteDrv : StorePath := demoPath 'h' "site.drv"
def jobOut : StorePath := demoPath 'd' "job"
def toolOut : StorePath := demoPath 'e' "tool"
def libOut : StorePath := demoPath 'f' "lib"
def libDev : StorePath := demoPath 'g' "lib-dev"
def siteOut : StorePath := demoPath 'j' "site"

/-- The jobs of the derivations, in the order the runs push them. -/
def libJob : Drv := demoJob "lib" libDrv libOut
def toolJob : Drv := demoJob "tool" toolDrv toolOut
def siteJob : Drv := demoJob "site" siteDrv siteOut

/-- The outputs an edge wants, when it is one. -/
def outputNames (name : String) : StdSet Str := (∅ : StdSet Str).insert (lit name)

/-- `job` needs `tool` and the output `dev` of `lib`, `tool` needs its `out`. -/
def diamondStore : EvalStore where
  readDerivation path :=
    if path = jobDrv then
      some {
        outputs := (∅ : StdMap Str DerivationOutput).insert (lit "out") (.inputAddressed jobOut)
        inputDrvs := ((∅ : StdMap StorePath (StdSet Str)).insert toolDrv
          (outputNames "out")).insert libDrv (outputNames "dev") }
    else if path = toolDrv then
      some {
        outputs := (∅ : StdMap Str DerivationOutput).insert (lit "out") (.inputAddressed toolOut)
        inputDrvs := (∅ : StdMap StorePath (StdSet Str)).insert libDrv (outputNames "out") }
    else if path = libDrv then
      some {
        outputs := ((∅ : StdMap Str DerivationOutput).insert (lit "out")
          (.inputAddressed libOut)).insert (lit "dev") (.inputAddressed libDev) }
    else none
  depth path := if path = jobDrv then 2 else if path = toolDrv then 1 else 0
  depth_lt := by
    intro path drv input hread hinput
    have hne : toolDrv ≠ jobDrv ∧ libDrv ≠ jobDrv ∧ libDrv ≠ toolDrv := by decide +kernel
    split at hread
    · next hjob =>
      obtain rfl := Option.some.inj hread
      simp only [Std.ExtTreeMap.mem_insert, Std.LawfulEqCmp.compare_eq_iff_eq,
        Std.ExtTreeMap.not_mem_empty, or_false] at hinput
      rcases hinput with rfl | rfl <;> simp [hjob, hne]
    · next hjob =>
      split at hread
      · next htool =>
        obtain rfl := Option.some.inj hread
        simp only [Std.ExtTreeMap.mem_insert, Std.LawfulEqCmp.compare_eq_iff_eq,
          Std.ExtTreeMap.not_mem_empty, or_false] at hinput
        subst hinput
        simp [htool, hne]
      · split at hread
        · obtain rfl := Option.some.inj hread
          simp at hinput
        · cases hread

/-- Only `lib` itself is there, and nothing can be fetched. -/
def diamondOracles : Oracles where
  valid path := path = libOut
  substitutable _ := false

/-- The job of the diamond, with its output known. -/
def diamondJob : Drv where
  name := lit "job"
  storeDir := lit "/nix/store"
  system := lit "x86_64-linux"
  drvPath := jobDrv
  outputs := (∅ : StdMap Str (Option StorePath)).insert (lit "out") (some jobOut)

/-- Four attempts, each followed by a batch of queries. -/
def diamondRun : List Event :=
  (List.replicate 4 [.attempt diamondJob, .resolveWanted]).flatten

/-- The run goes through. -/
theorem diamondRun_isSome :
    ((system diamondStore diamondOracles).run System.anyCheck
      (system diamondStore diamondOracles).init diamondRun).isSome = true := by
  decide +kernel

/-- What a completed attempt has found. -/
def resolved (result : Except Error (Bool × Drv × Resolver)) : Option (Drv × Resolver) :=
  match result with
  | .ok (true, drv, R) => some (drv, R)
  | _ => none

/-- An attempt that completes, back in the form the theorems speak about. -/
theorem eq_of_resolved {result : Except Error (Bool × Drv × Resolver)} {drv : Drv} {R : Resolver}
    (h : resolved result = some (drv, R)) : result = .ok (true, drv, R) := by
  rw [resolved.eq_def] at h
  split at h
  · cases h
    rfl
  · cases h

/-- By then every lookup the attempt wants has been made. -/
theorem diamond_resolved :
    (resolved (((system diamondStore diamondOracles).after System.anyCheck diamondRun
      diamondRun_isSome).tryResolve diamondStore diamondJob)).isSome = true := by
  decide +kernel

/-- The fifth attempt. -/
def diamondResult : Drv × Resolver := (resolved (((system diamondStore diamondOracles).after
  System.anyCheck diamondRun diamondRun_isSome).tryResolve diamondStore diamondJob)).get
    diamond_resolved

/-- It completes with this result. -/
theorem diamond_tryResolve :
    ((system diamondStore diamondOracles).after System.anyCheck diamondRun
      diamondRun_isSome).tryResolve diamondStore diamondJob =
        .ok (true, diamondResult.1, diamondResult.2) :=
  eq_of_resolved (Option.some_get diamond_resolved).symm

/-- Every output has a path. -/
def KnownOutputs (outputs : StdMap Str DerivationOutput) : Prop :=
  ∀ (name : Str) (output : DerivationOutput), outputs[name]? = some output → output.path ≠ none

theorem knownOutputs_empty : KnownOutputs ∅ := fun name output h => by simp at h

/-- Input-addressed outputs have one. -/
theorem KnownOutputs.insert {outputs : StdMap Str DerivationOutput} (h : KnownOutputs outputs)
    (name : Str) (path : StorePath) :
    KnownOutputs (outputs.insert name (.inputAddressed path)) := by
  intro name' output houtput
  rw [Std.ExtTreeMap.getElem?_insert] at houtput
  split at houtput
  · obtain rfl := Option.some.inj houtput
    simp [DerivationOutput.path]
  · exact h name' output houtput

/-- The same for the map the walk looks at. -/
theorem KnownOutputs.optPaths {drv : Derivation} (h : KnownOutputs drv.outputs) :
    ∀ e ∈ drv.outputsAndOptPaths.toList, e.2 ≠ none := by
  intro e he
  rw [Std.ExtTreeMap.mem_toList_iff_getElem?_eq_some, Derivation.outputsAndOptPaths,
    Std.ExtTreeMap.getElem?_map, Option.map_eq_some_iff] at he
  obtain ⟨output, houtput, hpath⟩ := he
  exact hpath ▸ h e.1 output houtput

/-- All outputs of the diamond are input-addressed. -/
theorem diamondStore_static : diamondStore.Static := by
  intro path drv hread
  refine KnownOutputs.optPaths ?_
  dsimp only [diamondStore] at hread
  split at hread
  · obtain rfl := Option.some.inj hread
    exact knownOutputs_empty.insert _ _
  split at hread
  · obtain rfl := Option.some.inj hread
    exact knownOutputs_empty.insert _ _
  split at hread
  · obtain rfl := Option.some.inj hread
    exact (knownOutputs_empty.insert _ _).insert _ _
  · cases hread

/-- The diamond asks for nothing that provides the output `dev`. -/
theorem diamond_incomplete :
    ((system diamondStore diamondOracles).after System.anyCheck diamondRun
      diamondRun_isSome).tryResolve diamondStore diamondJob =
        .ok (true, diamondResult.1, diamondResult.2) ∧
      diamondResult.1.cacheStatus = .notBuilt ∧
      ¬NeededComplete diamondStore diamondOracles diamondResult.1 := by
  refine ⟨diamond_tryResolve, by decide +kernel, fun hcomplete => ?_⟩
  -- the second edge into `lib`, which the walk comes to last
  have hedge : (libDrv, outputNames "dev") ∈ inputs diamondStore jobDrv := by
    rw [inputs, diamondStore]
    dsimp only
    rw [if_pos rfl, Std.ExtTreeMap.mem_toList_iff_getElem?_eq_some,
      Std.ExtTreeMap.getElem?_insert_self]
  have hname : lit "dev" ∈ outputNames "dev" := by
    rw [outputNames, Std.ExtTreeSet.mem_insert]
    exact .inl (Std.LawfulEqCmp.compare_eq_iff_eq.mpr rfl)
  have hjob : jobDrv ∈ diamondResult.1.neededBuilds := by decide +kernel
  rcases hcomplete jobDrv hjob _ hedge _ hname libDev (by decide +kernel) (by decide +kernel)
    with hfetched | hbuilt
  · exact absurd hfetched (by decide +kernel)
  · exact absurd hbuilt (by decide +kernel)

/-- In the diamond the two sides are both false: an edge is overlooked. -/
theorem neededWork_complete_iff_diamond :
    NeededComplete diamondStore diamondOracles diamondResult.1 ↔ ∀ v edge first name path,
      ¬Overlooked diamondStore diamondOracles (firstVisits diamondStore diamondOracles jobDrv)
        v edge first name path :=
  neededWork_complete_iff diamondStore_static
    (System.reachable_after (fun _ _ _ => trivial) diamondRun diamondRun_isSome)
    diamond_tryResolve (by decide +kernel)

end Resolver

end NixEvalJobs
