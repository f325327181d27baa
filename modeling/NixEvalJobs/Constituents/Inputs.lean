import NixEvalJobs.Constituents.Rewriting
import NixEvalJobs.JsonText

/-!
# Aggregates — the inputs of an aggregate

`addConstituents` makes every constituent an input of the aggregate, with the
alphabetically first output of its derivation wanted. It assigns the set of wanted
outputs, so an input that was there before for another output is lost.

* `addConstituents_keeps_iff` — nothing is lost exactly when no constituent was an
  input before for an output other than its first one.
-/

namespace NixEvalJobs

namespace Aggregates

variable {L : AggregateLibs} {jobs : JobMap} {store : DrvStore}

/-- **The inputs after `addConstituents`.** Every constituent is an input for its
first output, every other input is as it was. -/
theorem addConstituents_inputs {names : List Str} {job job' : Json} {drv drv' : Derivation}
    (h : names.foldlM (addConstituent L jobs store) (job, drv) = .ok (job', drv')) :
    (∀ name ∈ names, ∃ childDrvPath childDrv first,
      constituentDrv L jobs store name = .ok (childDrvPath, childDrv) ∧
        childDrv.outputs.keys.head? = some first ∧
        drv'.inputDrvs[childDrvPath]? = some ((∅ : StdSet Str).insert first)) ∧
    ∀ input, (∀ name ∈ names, ∀ childDrv,
      constituentDrv L jobs store name ≠ .ok (input, childDrv)) →
        drv'.inputDrvs[input]? = drv.inputDrvs[input]? := by
  -- the names in order; a later one may assign to the input of an earlier one
  induction names generalizing job drv with
  | nil =>
    cases Except.ok.inj h
    exact ⟨fun _ hname => (by cases hname), fun _ _ => rfl⟩
  | cons name names ih =>
    rw [List.foldlM_cons] at h
    obtain ⟨⟨job₁, drv₁⟩, hadd, hrest⟩ := bind_eq_ok.mp h
    obtain ⟨childDrvPath, childDrv, first, hchild, hfirst, rfl, -⟩ := addConstituent_cases hadd
    obtain ⟨hnamed, hother⟩ := ih hrest
    refine ⟨fun name' hname' => ?_, fun input hinput => ?_⟩
    · rcases List.mem_cons.mp hname' with rfl | hname'
      · refine ⟨childDrvPath, childDrv, first, hchild, hfirst, ?_⟩
        -- a later constituent with the same derivation assigns the same set
        by_cases hlater : ∃ name ∈ names, ∃ drv, constituentDrv L jobs store name =
            .ok (childDrvPath, drv)
        · obtain ⟨later, hmem, drv₂, hlater⟩ := hlater
          obtain ⟨path, drv₃, first', hpath, hfirst', hinput⟩ := hnamed later hmem
          obtain ⟨rfl, rfl⟩ := Prod.mk.inj (Except.ok.inj (hlater.symm.trans hpath))
          have hsame := (store_of_constituentDrv hchild).1.symm.trans
            (store_of_constituentDrv hlater).1
          obtain rfl := Option.some.inj hsame
          obtain rfl := Option.some.inj (hfirst.symm.trans hfirst')
          exact hinput
        · rw [hother childDrvPath fun name hname drv hdrv => hlater ⟨name, hname, drv, hdrv⟩]
          exact Std.ExtTreeMap.getElem?_insert_self
      · exact hnamed name' hname'
    · -- an input of no constituent is not touched
      rw [hother input fun name hname => hinput name (List.mem_cons_of_mem _ hname)]
      dsimp only
      rw [Std.ExtTreeMap.getElem?_insert, if_neg]
      rw [Std.LawfulEqCmp.compare_eq_iff_eq]
      rintro rfl
      exact hinput name (List.mem_cons_self ..) childDrv hchild

/-- Every input with its wanted outputs is still there, and every constituent is an
input with a wanted output. -/
def KeepsInputs (L : AggregateLibs) (jobs : JobMap) (store : DrvStore) (dependencies : StdSet Str)
    (drv drv' : Derivation) : Prop :=
  (∀ (input : StorePath) wanted, drv.inputDrvs[input]? = some wanted → ∀ output ∈ wanted,
    ∃ wanted', drv'.inputDrvs[input]? = some wanted' ∧ output ∈ wanted') ∧
  ∀ name ∈ dependencies, ∃ childDrvPath childDrv wanted,
    constituentDrv L jobs store name = .ok (childDrvPath, childDrv) ∧
      drv'.inputDrvs[childDrvPath]? = some wanted ∧ ∃ output, output ∈ wanted

/-- A set with one element. -/
theorem mem_singleton_iff {a b : Str} : b ∈ (∅ : StdSet Str).insert a ↔ b = a := by
  rw [Std.ExtTreeSet.mem_insert, Std.LawfulEqCmp.compare_eq_iff_eq]
  simp [eq_comm]

/-- **No input is lost exactly when** no constituent's derivation was an input
before for an output other than its first one. -/
theorem addConstituents_keeps_iff {job job' : Json} {drv drv' : Derivation}
    {dependencies : StdSet Str}
    (h : addConstituents L job drv dependencies jobs store = .ok (job', drv')) :
    KeepsInputs L jobs store dependencies drv drv' ↔
      ∀ name ∈ dependencies, ∀ childDrvPath childDrv wanted first,
        constituentDrv L jobs store name = .ok (childDrvPath, childDrv) →
          childDrv.outputs.keys.head? = some first → drv.inputDrvs[childDrvPath]? = some wanted →
            ∀ output ∈ wanted, output = first := by
  obtain ⟨hnamed, hother⟩ := addConstituents_inputs h
  -- the loop goes through the set in order
  simp only [Std.ExtTreeSet.mem_toList] at hnamed hother
  constructor
  · rintro ⟨hkeeps, -⟩ name hname childDrvPath childDrv wanted first hchild hfirst hwanted output
      houtput
    -- the entry of a constituent is its first output alone
    obtain ⟨wanted', hwanted', houtput'⟩ := hkeeps childDrvPath wanted hwanted output houtput
    obtain ⟨path, drv₁, first', hpath, hfirst', hinput⟩ := hnamed name hname
    obtain ⟨rfl, rfl⟩ := Prod.mk.inj (Except.ok.inj (hchild.symm.trans hpath))
    obtain rfl := Option.some.inj (hfirst.symm.trans hfirst')
    rw [← Option.some.inj (hinput.symm.trans hwanted')] at houtput'
    exact mem_singleton_iff.mp houtput'
  · intro honly
    refine ⟨fun input wanted hwanted output houtput => ?_, fun name hname => ?_⟩
    · -- an input that is no constituent is not touched
      by_cases hconstituent : ∃ name ∈ dependencies, ∃ childDrv,
          constituentDrv L jobs store name = .ok (input, childDrv)
      · obtain ⟨name, hname, childDrv, hchild⟩ := hconstituent
        obtain ⟨path, drv₁, first, hpath, hfirst, hinput⟩ := hnamed name hname
        obtain ⟨rfl, rfl⟩ := Prod.mk.inj (Except.ok.inj (hchild.symm.trans hpath))
        refine ⟨_, hinput, mem_singleton_iff.mpr ?_⟩
        exact honly name hname _ _ wanted first hchild hfirst hwanted output houtput
      · refine ⟨wanted, ?_, houtput⟩
        rw [hother input fun name hname drv hdrv => hconstituent ⟨name, hname, drv, hdrv⟩]
        exact hwanted
    · -- every constituent has an output, which is wanted
      obtain ⟨path, childDrv, first, hpath, -, hinput⟩ := hnamed name hname
      exact ⟨path, childDrv, _, hpath, hinput, first, mem_singleton_iff.mpr rfl⟩

/-! ## A release that refers to the library of a package -/

/-- Store paths below `/nix/store`; the outputs of a rewritten derivation and the
derivation itself get the given paths. -/
def plainLibs (outputPath drvPath : StorePath) : AggregateLibs where
  fnmatch pattern name := pattern = name
  printStorePath path := lit "/nix/store/" ++ path
  parseStorePath path :=
    if (lit "/nix/store/").isPrefixOf path then some (path.drop (lit "/nix/store/").length)
    else none
  dump := Json.plainDump
  fillInOutputPaths _ drv := some { drv with
    outputs := drv.outputs.map fun _ _ => .inputAddressed outputPath
    env := drv.outputs.keys.foldl
      (fun env name => env.insert name (lit "/nix/store/" ++ outputPath)) drv.env }
  writeDerivation store drv := some (drvPath, store.insert drvPath drv)
  traverse brokenJobs := brokenJobs.toList

/-- A path that is printed is found again after the store directory. -/
theorem drop_storeDir (path : StorePath) :
    (if (lit "/nix/store/").isPrefixOf (lit "/nix/store/" ++ path) then
      some ((lit "/nix/store/" ++ path).drop (lit "/nix/store/").length) else none) =
        some path := by
  rw [if_pos (List.isPrefixOf_iff_prefix.mpr (List.prefix_append _ _)), List.drop_left]

/-- A store path with a made-up hash. -/
def demoDrvPath (name : String) : StorePath := lit ("00000000000000000000000000000000-" ++ name)

/-- The libraries of the release. -/
def demoLibs : AggregateLibs := plainLibs (demoDrvPath "release") (demoDrvPath "release-new.drv")

/-- A package with the outputs `dev` and `out`. -/
def packageDrv : Derivation where
  outputs := ((∅ : StdMap Str DerivationOutput).insert (lit "out")
    (.inputAddressed (demoDrvPath "package"))).insert (lit "dev")
      (.inputAddressed (demoDrvPath "package-dev"))

/-- A job of that package. -/
def packageJobs : JobMap := (∅ : JobMap).insert (lit "package")
  (.object [(lit "drvPath", .string (lit "/nix/store/" ++ demoDrvPath "package.drv"))])

/-- An aggregate that refers to one output of the package. -/
def releaseDrv (output : String) : Derivation where
  outputs := (∅ : StdMap Str DerivationOutput).insert (lit "out")
    (.inputAddressed (demoDrvPath "release"))
  inputDrvs := (∅ : StdMap StorePath (StdSet Str)).insert (demoDrvPath "package.drv")
    ((∅ : StdSet Str).insert (lit output))

/-- The package and the release. -/
def releaseStore (output : String) : DrvStore :=
  ((∅ : DrvStore).insert (demoDrvPath "package.drv") packageDrv).insert
    (demoDrvPath "release.drv") (releaseDrv output)

/-- `addConstituents` of the release with the constituent `package`. -/
def releaseResult (output : String) : Except Error (Json × Derivation) :=
  addConstituents demoLibs (.object []) (releaseDrv output)
    ((∅ : StdSet Str).insert (lit "package")) packageJobs (releaseStore output)

/-- Adding the constituent succeeds, -/
theorem releaseResult_out : (releaseResult "out").toOption.isSome = true := by decide +kernel

/-- whichever output was wanted. -/
theorem releaseResult_dev : (releaseResult "dev").toOption.isSome = true := by decide +kernel

/-- The release referred to the output `out` of the package, and loses it. -/
theorem not_keepsInputs_release :
    let result := (releaseResult "out").toOption.get releaseResult_out
    releaseResult "out" = .ok result ∧ ¬KeepsInputs demoLibs packageJobs (releaseStore "out")
      ((∅ : StdSet Str).insert (lit "package")) (releaseDrv "out") result.2 := by
  intro result
  refine ⟨eq_ok_of_toOption (Option.some_get releaseResult_out).symm, fun ⟨hkeeps, _⟩ => ?_⟩
  obtain ⟨wanted, hwanted, hout⟩ := hkeeps (demoDrvPath "package.drv") _
    Std.ExtTreeMap.getElem?_insert_self (lit "out") (mem_singleton_iff.mpr rfl)
  have hlost : (result.2.inputDrvs[demoDrvPath "package.drv"]?).all
      (fun wanted => wanted.contains (lit "out")) = false := by
    decide +kernel
  rw [hwanted, Option.all_some] at hlost
  exact absurd hout (by rw [Std.ExtTreeSet.mem_iff_contains, hlost]; simp)

/-- The release that referred to `dev`, the first output, loses nothing. -/
theorem addConstituents_keeps_iff_release :
    let result := (releaseResult "dev").toOption.get releaseResult_dev
    KeepsInputs demoLibs packageJobs (releaseStore "dev")
      ((∅ : StdSet Str).insert (lit "package")) (releaseDrv "dev") result.2 ↔
        ∀ name ∈ (∅ : StdSet Str).insert (lit "package"), ∀ childDrvPath childDrv wanted first,
          constituentDrv demoLibs packageJobs (releaseStore "dev") name =
              .ok (childDrvPath, childDrv) →
            childDrv.outputs.keys.head? = some first →
              (releaseDrv "dev").inputDrvs[childDrvPath]? = some wanted →
                ∀ output ∈ wanted, output = first := by
  intro result
  have hresult : addConstituents demoLibs (.object []) (releaseDrv "dev")
      ((∅ : StdSet Str).insert (lit "package")) packageJobs (releaseStore "dev") =
        .ok (result.1, result.2) :=
    eq_ok_of_toOption (Option.some_get releaseResult_dev).symm
  exact addConstituents_keeps_iff hresult

end Aggregates

end NixEvalJobs
