import NixEvalJobs.AttrPath
import NixEvalJobs.Constituents.Deferral

/-!
# Aggregates — a store whose paths are those of the contents

The laws of the store speak of any store. Here is one that obeys them: a derivation is
written at a path that spells out all of it, so that two derivations never meet at one
path, and writing what is there already changes nothing. A store that starts out like this
stays like this, however much is written to it.

* `addressOf_injective` — no two derivations have the same path.
* `addressedLibs_registerLaws` — its output paths are those `fillInOutputPaths` knows.
-/

namespace NixEvalJobs

namespace Aggregates

deriving instance DecidableEq for Derivation

/-! ## Paths -/

/-- Two letters for each byte, so that a path is ASCII. -/
def base16 (s : Str) : Str :=
  s.flatMap fun b => [Fin.ofNat 256 (97 + b.val / 16), Fin.ofNat 256 (97 + b.val % 16)]

/-- The two letters of a byte tell which byte it is. -/
theorem base16_digits {b c : Byte}
    (hhigh : Fin.ofNat 256 (97 + b.val / 16) = Fin.ofNat 256 (97 + c.val / 16))
    (hlow : Fin.ofNat 256 (97 + b.val % 16) = Fin.ofNat 256 (97 + c.val % 16)) : b = c := by
  have hb := b.isLt
  have hc := c.isLt
  have hhigh' : (97 + b.val / 16) % 256 = (97 + c.val / 16) % 256 := congrArg Fin.val hhigh
  have hlow' : (97 + b.val % 16) % 256 = (97 + c.val % 16) % 256 := congrArg Fin.val hlow
  exact Fin.ext (by omega)

/-- So the letters tell the string. -/
theorem base16_injective : Function.Injective base16 := by
  intro s t h
  induction s generalizing t with
  | nil =>
    cases t with
    | nil => rfl
    | cons c t => cases h
  -- one byte of each after the other
  | cons b s ih =>
    cases t with
    | nil => cases h
    | cons c t =>
      obtain ⟨hhigh, h⟩ := List.cons.inj h
      obtain ⟨hlow, h⟩ := List.cons.inj h
      rw [base16_digits hhigh hlow, ih h]

/-- All letters are ASCII. -/
theorem base16_ascii (s : Str) : ∀ b ∈ base16 s, b.val < 128 := by
  intro b hb
  obtain ⟨c, -, hb⟩ := List.mem_flatMap.mp hb
  have hc := c.isLt
  rcases List.mem_cons.mp hb with rfl | hb
  · -- the high half, and then the low one
    show (97 + c.val / 16) % 256 < 128
    omega
  · obtain rfl := List.mem_singleton.mp hb
    show (97 + c.val % 16) % 256 < 128
    omega

/-- An output as text. -/
def unparseOutput (e : Str × DerivationOutput) : Str :=
  joinAttrPath (match e.2 with
    | .inputAddressed path => [e.1, lit "path", path]
    | .caFixed path => [e.1, lit "fixed", path]
    | .caFloating => [e.1, lit "floating"]
    | .deferred => [e.1, lit "deferred"]
    | .impure => [e.1, lit "impure"])

/-- An input with the outputs wanted of it. -/
def unparseInput (e : StorePath × StdSet Str) : Str := joinAttrPath (e.1 :: e.2.toList)

/-- A variable of the environment. -/
def unparseVariable (e : Str × Str) : Str := joinAttrPath [e.1, e.2]

/-- `Derivation::unparse`: a derivation as text. -/
def unparse (drv : Derivation) : Str :=
  joinAttrPath [joinAttrPath (drv.outputs.toList.map unparseOutput),
    joinAttrPath (drv.inputDrvs.toList.map unparseInput),
    joinAttrPath (drv.env.toList.map unparseVariable)]

/-- An output is known from its text. -/
theorem unparseOutput_injective : Function.Injective unparseOutput := by
  rintro ⟨name, output⟩ ⟨name', output'⟩ h
  have hparts := joinAttrPath_inj h
  cases output <;> cases output' <;> simp_all [lit]

/-- So is an input, whose outputs are listed in order. -/
theorem unparseInput_injective : Function.Injective unparseInput := by
  rintro ⟨path, wanted⟩ ⟨path', wanted'⟩ h
  obtain ⟨rfl, hwanted⟩ := List.cons.inj (joinAttrPath_inj h)
  refine congrArg (Prod.mk path) (Std.ExtTreeSet.ext_mem fun name => ?_)
  rw [← Std.ExtTreeSet.mem_toList, ← Std.ExtTreeSet.mem_toList, hwanted]

/-- So is a variable. -/
theorem unparseVariable_injective : Function.Injective unparseVariable := by
  rintro ⟨name, value⟩ ⟨name', value'⟩ h
  obtain ⟨rfl, h⟩ := List.cons.inj (joinAttrPath_inj h)
  obtain rfl := (List.cons.inj h).1
  rfl

/-- A map is known from the texts of its entries. -/
theorem toList_map_injective {α : Type} {f : Str × α → Str} (hf : Function.Injective f)
    {m m' : StdMap Str α}
    (h : joinAttrPath (m.toList.map f) = joinAttrPath (m'.toList.map f)) : m = m' :=
  Std.ExtTreeMap.toList_inj.mp (List.map_injective_iff.mpr hf (joinAttrPath_inj h))

/-- A derivation is known from its text. -/
theorem unparse_injective : Function.Injective unparse := by
  rintro ⟨outputs, inputDrvs, env⟩ ⟨outputs', inputDrvs', env'⟩ h
  obtain ⟨houtputs, h⟩ := List.cons.inj (joinAttrPath_inj h)
  obtain ⟨hinputs, h⟩ := List.cons.inj h
  obtain rfl := toList_map_injective unparseOutput_injective houtputs
  obtain rfl := toList_map_injective unparseInput_injective hinputs
  obtain rfl := toList_map_injective unparseVariable_injective (List.cons.inj h).1
  rfl

/-- The path of a derivation. The real one has a hash of this text, which for all that is
relied on does not collide. -/
def addressOf (drv : Derivation) : StorePath := base16 (unparse drv)

/-- No two derivations have the same path. -/
theorem addressOf_injective : Function.Injective addressOf :=
  base16_injective.comp unparse_injective

/-! ## Writing -/

/-- Every derivation is at its path. -/
def Addressed (store : DrvStore) : Prop :=
  ∀ (path : StorePath) drv, store[path]? = some drv → path = addressOf drv

/-- `writeDerivation`: what is there already is not written again. Something else at the
path is refused, which only a store that is not addressed can have. -/
def writeAddressed (store : DrvStore) (drv : Derivation) : Option (StorePath × DrvStore) :=
  match store[addressOf drv]? with
  | none => some (addressOf drv, store.insert (addressOf drv) drv)
  | some old => if old = drv then some (addressOf drv, store) else none

/-- What writing does: the derivation can be read at its path, what was there before stays,
and nothing else is added. -/
theorem writeAddressed_spec {store store' : DrvStore} {drv : Derivation} {path : StorePath}
    (h : writeAddressed store drv = some (path, store')) :
    path = addressOf drv ∧ store'[path]? = some drv ∧ Extends store store' ∧
      ∀ (other : StorePath) otherDrv, store'[other]? = some otherDrv →
        store[other]? = some otherDrv ∨ (other = path ∧ otherDrv = drv) := by
  rw [writeAddressed] at h
  split at h
  · -- nothing was at the path
    next hfresh =>
    obtain ⟨rfl, rfl⟩ := Prod.mk.inj (Option.some.inj h)
    refine ⟨rfl, Std.ExtTreeMap.getElem?_insert_self, fun other otherDrv hread => ?_,
      fun other otherDrv hread => ?_⟩
    · rw [Std.ExtTreeMap.getElem?_insert, if_neg, hread]
      rw [Std.LawfulEqCmp.compare_eq_iff_eq]
      rintro rfl
      cases hfresh.symm.trans hread
    · rw [Std.ExtTreeMap.getElem?_insert] at hread
      split at hread
      · next heq =>
        exact .inr ⟨(Std.LawfulEqCmp.compare_eq_iff_eq.mp heq).symm, (Option.some.inj hread).symm⟩
      · exact .inl hread
  · -- the same derivation was there, so nothing is written
    next old hold =>
    split at h
    · next hsame =>
      obtain ⟨rfl, rfl⟩ := Prod.mk.inj (Option.some.inj h)
      exact ⟨rfl, hsame ▸ hold, fun _ _ hread => hread, fun _ _ hread => .inl hread⟩
    · cases h

/-- **Writing keeps the store addressed.** -/
theorem Addressed.write {store store' : DrvStore} {drv : Derivation} {path : StorePath}
    (haddressed : Addressed store) (h : writeAddressed store drv = some (path, store')) :
    Addressed store' := by
  obtain ⟨rfl, -, -, hadds⟩ := writeAddressed_spec h
  intro other otherDrv hread
  rcases hadds other otherDrv hread with hold | ⟨rfl, rfl⟩
  · exact haddressed other otherDrv hold
  · rfl

/-- **Writing to an addressed store succeeds.** -/
theorem Addressed.writes {store : DrvStore} (haddressed : Addressed store) (drv : Derivation) :
    ∃ store', writeAddressed store drv = some (addressOf drv, store') := by
  rw [writeAddressed]
  split
  · exact ⟨_, rfl⟩
  · next old hold =>
    -- what is there has the same path, so it is the same derivation
    rw [if_pos (addressOf_injective (haddressed _ old hold)).symm]
    exact ⟨_, rfl⟩

/-! ## Filling in -/

/-- Whether the derivation is deferred, as `hashDerivationModulo` finds out. -/
def isDeferred (store : DrvStore) : Nat → Derivation → Option Bool
  | 0, _ => none
  | fuel + 1, drv =>
    -- a floating output makes it deferred, fixed outputs make it known
    if drv.outputs.toList.any fun e => e.2.Floats then some true
    else if drv.outputs.toList.all fun e => e.2.IsFixed then some false
    else drv.inputDrvs.keys.foldlM (fun found path =>
      match store[path]? with
      | none => some found
      | some inputDrv => (isDeferred store fuel inputDrv).map (found || ·)) false

/-- The fold over the inputs finds a deferred one, if there is one. -/
theorem isDeferred_inputs {store : DrvStore} {decideInput : Derivation → Option Bool}
    (hdecide : ∀ drv b, decideInput drv = some b → (b = true ↔ Deferred store drv))
    {paths : List StorePath} {found b : Bool}
    (h : paths.foldlM (fun found path =>
      match store[path]? with
      | none => some found
      | some inputDrv => (decideInput inputDrv).map (found || ·)) found = some b) :
    b = true ↔ found = true ∨ ∃ path ∈ paths, ∃ inputDrv, store[path]? = some inputDrv ∧
      Deferred store inputDrv := by
  induction paths generalizing found with
  | nil =>
    obtain rfl := Option.some.inj h
    simp
  | cons path paths ih =>
    rw [List.foldlM_cons] at h
    obtain ⟨found', hfound, hrest⟩ := Option.bind_eq_some_iff.mp h
    rw [ih hrest]
    split at hfound
    · -- the input is not in the store
      next hnone =>
      obtain rfl := Option.some.inj hfound
      simp [hnone]
    · next inputDrv hread =>
      obtain ⟨b', hinput, rfl⟩ := Option.map_eq_some_iff.mp hfound
      simp [hread, hdecide inputDrv b' hinput, or_assoc]

/-- The decision is right, whenever there was enough fuel for one. -/
theorem isDeferred_spec {store : DrvStore} {fuel : Nat} {drv : Derivation} {b : Bool}
    (h : isDeferred store fuel drv = some b) : b = true ↔ Deferred store drv := by
  induction fuel generalizing drv b with
  | zero => cases h
  | succ fuel ih =>
    rw [isDeferred] at h
    split at h
    · -- an output floats
      next hfloats =>
      obtain rfl := Option.some.inj h
      obtain ⟨⟨name, output⟩, hmem, hfloats⟩ := List.any_eq_true.mp hfloats
      exact iff_of_true rfl (.floats (Std.ExtTreeMap.mem_toList_iff_getElem?_eq_some.mp hmem)
        (of_decide_eq_true hfloats))
    · -- none does, so it depends on the inputs unless all outputs are fixed
      next hfloats =>
      have hnone : ¬∃ (name : Str) (output : _), drv.outputs[name]? = some output ∧
          output.Floats := by
        rintro ⟨name, output, houtput, hout⟩
        exact hfloats (List.any_eq_true.mpr ⟨(name, output),
          Std.ExtTreeMap.mem_toList_iff_getElem?_eq_some.mpr houtput, decide_eq_true hout⟩)
      have hfixed : drv.Fixed ↔ (drv.outputs.toList.all fun e => e.2.IsFixed) = true := by
        rw [List.all_eq_true]
        refine ⟨fun hfixed e he => decide_eq_true (hfixed e.1 e.2 ?_),
          fun hall name output houtput => of_decide_eq_true (hall (name, output) ?_)⟩
        · exact Std.ExtTreeMap.mem_toList_iff_getElem?_eq_some.mp he
        · exact Std.ExtTreeMap.mem_toList_iff_getElem?_eq_some.mpr houtput
      rw [deferred_iff, or_iff_right hnone]
      split at h
      · next hall =>
        obtain rfl := Option.some.inj h
        exact iff_of_false (by simp) fun hnot => hnot.1 (hfixed.mpr hall)
      · next hall =>
        rw [isDeferred_inputs (fun drv b hdrv => ih hdrv) h, and_iff_right (mt hfixed.mp hall)]
        simp only [Bool.false_eq_true, false_or, Std.ExtTreeMap.mem_keys]

/-- Without inputs the rest of the store does not matter. -/
theorem isDeferred_no_inputs {drv : Derivation} (h : drv.inputDrvs = ∅) (store store' : DrvStore)
    (fuel fuel' : Nat) : isDeferred store (fuel + 1) drv = isDeferred store' (fuel' + 1) drv := by
  rw [isDeferred, isDeferred, h, Std.ExtTreeMap.keys_eq_nil_iff.mpr rfl, List.foldlM_nil,
    List.foldlM_nil]

/-- A deferred output gets its path. -/
def fillOutput (path : StorePath) : DerivationOutput → DerivationOutput
  | .deferred => .inputAddressed path
  | output => output

/-- The path of an output, from the name of the derivation. -/
def outputPath (drv : Derivation) (name : Str) : StorePath :=
  lit "00000000000000000000000000000000-" ++ (drv.env[lit "name"]?).getD [] ++ lit "-" ++ name

/-- The derivation with the outputs, and with their paths in the environment. -/
def withOutputs (drv : Derivation) (outputs : StdMap Str DerivationOutput) : Derivation :=
  { drv with
    outputs
    env := outputs.toList.foldl (fun env e => env.insert e.1 (match e.2.path with
      | some path => lit "/nix/store/" ++ path
      | none => (drv.env[e.1]?).getD [])) drv.env }

/-- The path of an output is the value of its variable. -/
theorem withOutputs_env {drv : Derivation} {outputs : StdMap Str DerivationOutput} {name : Str}
    {output : DerivationOutput} {path : StorePath} (houtput : outputs[name]? = some output)
    (hpath : output.path = some path) :
    (withOutputs drv outputs).env[name]? = some (lit "/nix/store/" ++ path) := by
  have hkeys : (outputs.toList.map Prod.fst).Nodup := by
    rw [Std.ExtTreeMap.map_fst_toList_eq_keys]
    exact Std.ExtTreeMap.nodup_keys
  refine (StdMap.getElem?_foldl_insert hkeys drv.env name _).mpr (.inl ⟨(name, output),
    Std.ExtTreeMap.mem_toList_iff_getElem?_eq_some.mpr houtput, rfl, ?_⟩)
  rw [hpath]

/-- A store below `/nix/store` whose paths are those of the contents. -/
def addressedLibs : AggregateLibs where
  fnmatch := demoLibs.fnmatch
  printStorePath := demoLibs.printStorePath
  parseStorePath := demoLibs.parseStorePath
  dump := demoLibs.dump
  fillInOutputPaths store drv := (isDeferred store (store.size + 1) drv).map fun deferred =>
    withOutputs drv (if deferred then drv.outputs
      else drv.outputs.map fun name => fillOutput (outputPath drv name))
  writeDerivation := writeAddressed
  traverse := demoLibs.traverse

/-- It is a store in the sense of the laws. -/
theorem addressedLibs_laws : StoreLaws addressedLibs where
  parse_print := drop_storeDir
  fill h := by
    obtain ⟨deferred, -, rfl⟩ := Option.map_eq_some_iff.mp h
    rfl
  read h := (writeAddressed_spec h).2.1
  keep h := (writeAddressed_spec h).2.2.1

/-- Its output paths are filled in as the laws say. -/
theorem addressedLibs_registerLaws : RegisterLaws addressedLibs where
  names h name := by
    obtain ⟨deferred, -, rfl⟩ := Option.map_eq_some_iff.mp h
    cases deferred with
    | true => rfl
    | false => exact Std.ExtTreeMap.mem_map
  -- a deferred derivation has no path that must be filled in
  fills {store drv filled} h name houtput hnot := by
    obtain ⟨deferred, hdeferred, rfl⟩ := Option.map_eq_some_iff.mp h
    cases deferred with
    | true => exact absurd ((isDeferred_spec hdeferred).mp rfl) hnot
    | false =>
      refine ⟨outputPath drv name, Std.ExtTreeMap.getElem?_map.trans ?_⟩
      rw [houtput]
      rfl
  -- only deferred outputs change
  keeps h name output houtput hkept := by
    obtain ⟨deferred, hdeferred, rfl⟩ := Option.map_eq_some_iff.mp h
    cases deferred with
    | true => exact houtput
    | false =>
      refine Std.ExtTreeMap.getElem?_map.trans ?_
      rw [houtput]
      cases output with
      | deferred => cases (isDeferred_spec hdeferred).mpr (hkept rfl)
      | inputAddressed _ | caFixed _ | caFloating | impure => rfl
  env h name output path houtput hpath := by
    obtain ⟨deferred, -, rfl⟩ := Option.map_eq_some_iff.mp h
    exact withOutputs_env houtput hpath
  adds h other otherDrv hread :=
    ((writeAddressed_spec h).2.2.2 other otherDrv hread).imp_right And.right

end Aggregates

end NixEvalJobs
