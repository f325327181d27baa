import NixEvalJobs.Constituents.Resolution

/-!
# Aggregates — what rewriting changes

`rewriteAggregates` patches the JSON of an aggregate member by member. Each function
that takes part has one lemma that says which members it changes; all others it leaves
alone, and so does the whole rewriting.

* `rewriteAggregate_eq_ok` — what becomes of one aggregate.
-/

namespace NixEvalJobs

/-! ## Members that survive an assignment -/

namespace Json

/-- An assignment changes its own key; it throws on values that are no objects. -/
theorem find_assign {job job' : Json} {key : Str} {value : Json}
    (h : job.assign key value = .ok job') (key' : Str) :
    job'.find key' = if key' = key then some value else job.find key' := by
  match job with
  | .object fields =>
    obtain rfl := Except.ok.inj h
    exact Fields.get_set ..
  | .null =>
    obtain rfl := Except.ok.inj h
    exact Fields.get_set ..
  | .bool _ | .unsigned _ | .integer _ | .float _ | .string _ | .array _ => cases h

/-- Erasing a key removes it and no other. -/
theorem find_eraseKey {job job' : Json} {key : Str} (h : job.eraseKey key = .ok job')
    (key' : Str) : job'.find key' = if key' = key then none else job.find key' := by
  match job with
  | .object fields =>
    obtain rfl := Except.ok.inj h
    exact Fields.get_erase ..
  | .null | .bool _ | .unsigned _ | .integer _ | .float _ | .string _ | .array _ =>
    cases h

/-- Reading a member for changing it. -/
theorem member_eq_ok {job value : Json} {key : Str} (h : job.member key = .ok value) :
    value = (job.find key).getD .null := by
  match job with
  | .object fields => exact (Except.ok.inj h).symm
  | .null => exact (Except.ok.inj h).symm
  | .bool _ | .unsigned _ | .integer _ | .float _ | .string _ | .array _ => cases h

/-- Reading a member of a const value. -/
theorem constMember_eq_ok {job value : Json} {key : Str} (h : job.constMember key = .ok value) :
    job.find key = some value := by
  match job with
  | .object fields =>
    unfold constMember at h
    dsimp only at h
    split at h
    · next hget =>
      obtain rfl := Except.ok.inj h
      exact hget
    · cases h
  | .null | .bool _ | .unsigned _ | .integer _ | .float _ | .string _ | .array _ =>
    cases h

/-- A member that is there can be read. -/
theorem constMember_of_find {job value : Json} {key : Str} (h : job.find key = some value) :
    job.constMember key = .ok value := by
  match job with
  | .object fields =>
    unfold constMember
    dsimp only
    rw [show Fields.get fields key = some value from h]
    rfl
  | .null | .bool _ | .unsigned _ | .integer _ | .float _ | .string _ | .array _ =>
    cases h

/-- A value that is read as a string is one. -/
theorem asString_eq_ok {value : Json} {s : Str} (h : value.asString = .ok s) :
    value = .string s := by
  match value with
  | .string s' => exact congrArg Json.string (Except.ok.inj h)
  | .null | .bool _ | .unsigned _ | .integer _ | .float _ | .array _ | .object _ =>
    cases h

/-- `push_back` makes an array of what there is and the new element. -/
theorem pushBack_eq_ok {json json' value : Json} (h : json.pushBack value = .ok json') :
    json' = .array (json.elements ++ [value]) := by
  match json with
  | .array elems => exact (Except.ok.inj h).symm
  | .null => exact (Except.ok.inj h).symm
  | .bool _ | .unsigned _ | .integer _ | .float _ | .string _ | .object _ => cases h

end Json

namespace Aggregates

variable {L : AggregateLibs} {jobs : JobMap} {store : DrvStore}

/-- All members but the named ones are the same. -/
def SameBut (keys : List Str) (job job' : Json) : Prop :=
  ∀ key ∉ keys, job'.find key = job.find key

/-- Nothing changed. -/
theorem SameBut.refl (keys : List Str) (job : Json) : SameBut keys job job := fun _ _ => rfl

/-- One change after another. -/
theorem SameBut.trans {keys : List Str} {job job' job'' : Json} (h : SameBut keys job job')
    (h' : SameBut keys job' job'') : SameBut keys job job'' :=
  fun key hkey => (h' key hkey).trans (h key hkey)

/-- A larger set of members that may change. -/
theorem SameBut.mono {keys keys' : List Str} {job job' : Json} (h : SameBut keys job job')
    (hle : ∀ key ∈ keys, key ∈ keys') : SameBut keys' job job' :=
  fun key hkey => h key fun hmem => hkey (hle key hmem)

/-- An assignment changes one member. -/
theorem sameBut_assign {job job' : Json} {key : Str} {value : Json}
    (h : job.assign key value = .ok job') : SameBut [key] job job' := by
  intro key' hkey
  refine (Json.find_assign h key').trans (if_neg ?_)
  rintro rfl
  exact hkey (List.mem_singleton_self _)

/-- So does erasing. -/
theorem sameBut_eraseKey {job job' : Json} {key : Str} (h : job.eraseKey key = .ok job') :
    SameBut [key] job job' := by
  intro key' hkey
  refine (Json.find_eraseKey h key').trans (if_neg ?_)
  rintro rfl
  exact hkey (List.mem_singleton_self _)

/-! ## Adding constituents -/

/-- A derivation is read from the store. -/
theorem store_of_constituentDrv {name : Str} {drvPath : StorePath} {drv : Derivation}
    (h : constituentDrv L jobs store name = .ok (drvPath, drv)) :
    store[drvPath]? = some drv ∧ ∃ child drvPathS, jobs[name]? = some child ∧
      child.find (lit "drvPath") = some (.string drvPathS) ∧
      L.parseStorePath drvPathS = some drvPath := by
  rw [constituentDrv] at h
  split at h
  · cases h
  -- the entry of the constituent, its `drvPath`, and the derivation at that path
  next child hchild =>
  obtain ⟨value, hvalue, h⟩ := bind_eq_ok.mp h
  obtain ⟨drvPathS, hstring, h⟩ := bind_eq_ok.mp h
  split at h
  · cases h
  next childDrvPath hparse =>
  split at h
  · cases h
  next childDrv hstore =>
  obtain ⟨rfl, rfl⟩ := Prod.mk.inj (Except.ok.inj h)
  refine ⟨hstore, child, drvPathS, hchild, ?_, hparse⟩
  rw [Json.constMember_eq_ok hvalue, Json.asString_eq_ok hstring]

/-- The elements of the member `constituents`. -/
def constituentsOf (job : Json) : List Json :=
  ((job.find (lit "constituents")).getD .null).elements

/-- **What one constituent does** to the job and to its derivation. -/
theorem addConstituent_cases {job job' : Json} {drv drv' : Derivation} {name : Str}
    (h : addConstituent L jobs store (job, drv) name = .ok (job', drv')) :
    ∃ childDrvPath childDrv first,
      constituentDrv L jobs store name = .ok (childDrvPath, childDrv) ∧
      childDrv.outputs.keys.head? = some first ∧
      drv' = { drv with
        inputDrvs := drv.inputDrvs.insert childDrvPath ((∅ : StdSet Str).insert first) } ∧
      SameBut [lit "constituents"] job job' ∧
      job'.find (lit "constituents") =
        some (.array (constituentsOf job ++ [.string (L.printStorePath childDrvPath)])) := by
  -- the steps of the source one by one; `outputs.begin()` is the last that can fail
  rw [addConstituent] at h
  obtain ⟨⟨childDrvPath, childDrv⟩, hchild, h⟩ := bind_eq_ok.mp h
  obtain ⟨member, hmember, h⟩ := bind_eq_ok.mp h
  obtain ⟨constituents, hpush, h⟩ := bind_eq_ok.mp h
  obtain ⟨assigned, hassign, h⟩ := bind_eq_ok.mp h
  split at h
  · cases h
  next first hfirst =>
  obtain ⟨rfl, rfl⟩ := Prod.mk.inj (Except.ok.inj h)
  refine ⟨childDrvPath, childDrv, first, hchild, hfirst, rfl, sameBut_assign hassign, ?_⟩
  rw [Json.find_assign hassign, if_pos rfl, Json.pushBack_eq_ok hpush,
    Json.member_eq_ok hmember]
  rfl

/-- **What all constituents do to the job**: only `constituents` changes, it keeps what
it lists and gets the derivation of every constituent. -/
theorem addConstituents_job {names : List Str} {job job' : Json} {drv drv' : Derivation}
    (h : names.foldlM (addConstituent L jobs store) (job, drv) = .ok (job', drv')) :
    SameBut [lit "constituents"] job job' ∧
      (∀ value ∈ constituentsOf job, value ∈ constituentsOf job') ∧
      ∀ name ∈ names, ∀ childDrvPath childDrv,
        constituentDrv L jobs store name = .ok (childDrvPath, childDrv) →
          .string (L.printStorePath childDrvPath) ∈ constituentsOf job' := by
  -- on the names, in the order they are added
  induction names generalizing job drv with
  | nil =>
    obtain ⟨rfl, rfl⟩ := Prod.mk.inj (Except.ok.inj h)
    exact ⟨.refl _ _, fun _ hv => hv, by simp⟩
  | cons name names ih =>
    rw [List.foldlM_cons] at h
    obtain ⟨⟨job₁, drv₁⟩, hadd, hrest⟩ := bind_eq_ok.mp h
    obtain ⟨path, childDrv, first, hchild, -, -, hsame, hlist⟩ := addConstituent_cases hadd
    obtain ⟨hsame', hkept, hnew⟩ := ih hrest
    have hlist₁ : constituentsOf job₁ =
        constituentsOf job ++ [.string (L.printStorePath path)] := by
      rw [constituentsOf, hlist]
      rfl
    -- the list only grows, so what one name adds is still there at the end
    refine ⟨hsame.trans hsame', fun value hv => hkept value ?_, fun name' hname => ?_⟩
    · rw [hlist₁]
      exact List.mem_append_left _ hv
    · rcases List.mem_cons.mp hname with rfl | hname
      · intro path' childDrv' hchild'
        obtain ⟨rfl, -⟩ := Prod.mk.inj (Except.ok.inj (hchild.symm.trans hchild'))
        refine hkept _ ?_
        rw [hlist₁]
        exact List.mem_append_right _ (List.mem_singleton_self _)
      · exact hnew name' hname

/-! ## Registering the derivation -/

/-- A loop that leaves the inputs alone. -/
theorem foldl_inputDrvs {α : Type} {f : Derivation → α → Derivation}
    (hf : ∀ drv a, (f drv a).inputDrvs = drv.inputDrvs) (entries : List α) (drv : Derivation) :
    (entries.foldl f drv).inputDrvs = drv.inputDrvs := by
  induction entries generalizing drv with
  | nil => rfl
  | cons a entries ih =>
    rw [List.foldl_cons, ih, hf]

/-- Resetting outputs is one. -/
theorem resetOutputs_inputDrvs (drv : Derivation) :
    (resetOutputs drv).inputDrvs = drv.inputDrvs := by
  unfold resetOutputs
  refine foldl_inputDrvs (fun drv e => ?_) _ drv
  split <;> rfl

/-- Copying one output path changes `outputs`. -/
theorem setOutput_sameBut {env : StdMap Str Str} {job job' : Json} {name : Str}
    (h : setOutput env job name = .ok job') : SameBut [lit "outputs"] job job' := by
  rw [setOutput] at h
  split at h
  · cases h
  · obtain ⟨member, -, h⟩ := bind_eq_ok.mp h
    obtain ⟨outputs, -, h⟩ := bind_eq_ok.mp h
    exact sameBut_assign h

/-- Copying all of them changes nothing else. -/
theorem setOutputs_sameBut {env : StdMap Str Str} {names : List Str} {job job' : Json}
    (h : names.foldlM (setOutput env) job = .ok job') : SameBut [lit "outputs"] job job' :=
  foldlM_related (SameBut.refl _) SameBut.trans (fun _ _ hset => setOutput_sameBut hset) h

/-- What is registered: the derivation with its output paths filled in. -/
structure Registered (L : AggregateLibs) (store : DrvStore) (drv written : Derivation)
    (newDrvPath : StorePath) (store' : DrvStore) : Prop where
  fill : L.fillInOutputPaths store (resetOutputs drv) = some written
  write : L.writeDerivation store written = some (newDrvPath, store')

/-- **What registering does**: nothing to the job when the derivation has kept its path;
else `drvPath` is the new one and the outputs are those of its environment. -/
theorem rewriteAndRegisterDrv_cases {job job' : Json} {drv : Derivation} {drvPath : StorePath}
    {store' : DrvStore} (h : rewriteAndRegisterDrv L job drv drvPath store = .ok (job', store')) :
    ∃ written newDrvPath, Registered L store drv written newDrvPath store' ∧
      ((newDrvPath = drvPath ∧ job' = job) ∨
        (newDrvPath ≠ drvPath ∧ ∃ moved,
          job.assign (lit "drvPath") (.string (L.printStorePath newDrvPath)) = .ok moved ∧
          written.outputs.keys.foldlM (setOutput written.env) moved = .ok job')) := by
  rw [rewriteAndRegisterDrv] at h
  split at h
  · cases h
  next written hfill =>
  split at h
  · cases h
  next newDrvPath store₁ hwrite =>
  split at h
  · -- the early return of the source
    next hsame =>
    obtain ⟨rfl, rfl⟩ := Prod.mk.inj (Except.ok.inj h)
    exact ⟨written, newDrvPath, ⟨hfill, hwrite⟩, .inl ⟨hsame, rfl⟩⟩
  · -- `drvPath` first, then the outputs
    next hmoved =>
    obtain ⟨moved, hassign, h⟩ := bind_eq_ok.mp h
    obtain ⟨job₂, hset, h⟩ := bind_eq_ok.mp h
    obtain ⟨rfl, rfl⟩ := Prod.mk.inj (Except.ok.inj h)
    exact ⟨written, newDrvPath, ⟨hfill, hwrite⟩, .inr ⟨hmoved, moved, hassign, hset⟩⟩

/-- Registering changes two members at most, `inputDrvs` not among them. -/
theorem rewriteAndRegisterDrv_sameBut {job job' : Json} {drv : Derivation} {drvPath : StorePath}
    {store' : DrvStore} (h : rewriteAndRegisterDrv L job drv drvPath store = .ok (job', store')) :
    SameBut [lit "drvPath", lit "outputs"] job job' := by
  obtain ⟨written, newDrvPath, -, ⟨-, rfl⟩ | ⟨-, moved, hassign, hset⟩⟩ :=
    rewriteAndRegisterDrv_cases h
  · exact .refl _ _
  · have hmoved : SameBut [lit "drvPath", lit "outputs"] job moved :=
      (sameBut_assign hassign).mono (by simp)
    exact hmoved.trans ((setOutputs_sameBut hset).mono (by simp))

/-! ## One aggregate -/

/-- The job of an aggregate in the map, its path and its derivation. -/
structure Located (L : AggregateLibs) (r : Rewriting) (name : Str) (job : Json)
    (drvPath : StorePath) (drv : Derivation) : Prop where
  entry : r.jobs[name]? = some job
  path : ∃ drvPathS, job.find (lit "drvPath") = some (.string drvPathS) ∧
    L.parseStorePath drvPathS = some drvPath
  read : r.store[drvPath]? = some drv

/-- What becomes of one aggregate: its error is put together, or its constituents are
added and its derivation is registered. Either way the names are gone and the value is
printed. -/
inductive Rewrites (L : AggregateLibs) (r : Rewriting) (agg : AggregateJob) : Rewriting → Prop where
  | broken {job job₁ job' : Json} {drvPath : StorePath} {drv : Derivation} :
      agg.brokenJobs.isEmpty = false → Located L r agg.name job drvPath drv →
      job.eraseKey (lit "namedConstituents") = .ok job₁ →
      addBrokenJobsError L job₁ agg.brokenJobs = .ok job' → (L.dump job').isSome = true →
      Rewrites L r agg
        ⟨r.jobs.insert agg.name job', r.store, r.printed ++ [(agg.name, job')]⟩
  | rewritten {job job₁ job₂ job' : Json} {drvPath : StorePath} {drv drv₁ : Derivation}
      {store : DrvStore} :
      agg.brokenJobs.isEmpty = true → Located L r agg.name job drvPath drv →
      addConstituents L job drv agg.dependencies r.jobs r.store = .ok (job₁, drv₁) →
      rewriteAndRegisterDrv L job₁ drv₁ drvPath r.store = .ok (job₂, store) →
      job₂.eraseKey (lit "namedConstituents") = .ok job' → (L.dump job').isSome = true →
      Rewrites L r agg ⟨r.jobs.insert agg.name job', store, r.printed ++ [(agg.name, job')]⟩

/-- A member that is read as a string is there. -/
theorem find_of_asString {job value : Json} {key s : Str} (hmember : job.member key = .ok value)
    (hstring : value.asString = .ok s) : job.find key = some (.string s) := by
  rw [Json.member_eq_ok hmember] at hstring
  cases hfind : job.find key with
  | none =>
    rw [hfind] at hstring
    cases hstring
  | some found =>
    rw [hfind] at hstring
    exact congrArg some (Json.asString_eq_ok hstring)

/-- From the code to what may become of the aggregate. -/
theorem rewriteAggregate_rewrites {r r' : Rewriting} {agg : AggregateJob}
    (h : rewriteAggregate L r agg = .ok r') : Rewrites L r agg r' := by
  rw [rewriteAggregate] at h
  split at h
  · cases h
  next job hjob =>
  obtain ⟨value, hmember, h⟩ := bind_eq_ok.mp h
  obtain ⟨drvPathS, hstring, h⟩ := bind_eq_ok.mp h
  split at h
  · cases h
  next drvPath hparse =>
  split at h
  · cases h
  next drv hdrv =>
  have hlocated : Located L r agg.name job drvPath drv :=
    ⟨hjob, ⟨drvPathS, find_of_asString hmember hstring, hparse⟩, hdrv⟩
  cases hempty : agg.brokenJobs.isEmpty with
  | true =>
    -- nothing is broken: the constituents are added and the derivation is registered
    simp only [hempty, if_true] at h
    obtain ⟨⟨job₁, drv₁⟩, hadd, h⟩ := bind_eq_ok.mp h
    obtain ⟨⟨job₂, store₂⟩, hregister, h⟩ := bind_eq_ok.mp h
    obtain ⟨job₃, herase, h⟩ := bind_eq_ok.mp h
    rw [pure_bind] at h
    split at h
    · cases h
    next text hdump =>
    obtain rfl := Except.ok.inj h
    exact .rewritten hempty hlocated hadd hregister herase (by rw [hdump]; rfl)
  | false =>
    -- a broken aggregate gets its error instead
    simp only [hempty, Bool.false_eq_true, if_false] at h
    rw [pure_bind] at h
    obtain ⟨job₁, herase, h⟩ := bind_eq_ok.mp h
    obtain ⟨job₂, herror, h⟩ := bind_eq_ok.mp h
    split at h
    · cases h
    next text hdump =>
    obtain rfl := Except.ok.inj h
    exact .broken hempty hlocated herase herror (by rw [hdump]; rfl)

/-- A member that is there can be read for changing it. -/
theorem member_of_find {job value : Json} {key : Str} (h : job.find key = some value) :
    job.member key = .ok value := by
  match job with
  | .object fields =>
    refine congrArg Except.ok ?_
    rw [show Fields.get fields key = some value from h]
    rfl
  | .null | .bool _ | .unsigned _ | .integer _ | .float _ | .string _ | .array _ =>
    cases h

/-- What may become of an aggregate is what the code makes of it. -/
theorem rewriteAggregate_of_rewrites {r r' : Rewriting} {agg : AggregateJob}
    (h : Rewrites L r agg r') : rewriteAggregate L r agg = .ok r' := by
  rw [rewriteAggregate]
  match h with
  | @Rewrites.broken _ _ _ job job₁ job' drvPath drv hempty hlocated herase herror hdump =>
    obtain ⟨hentry, ⟨drvPathS, hfind, hparse⟩, hread⟩ := hlocated
    obtain ⟨text, htext⟩ := Option.isSome_iff_exists.mp hdump
    rw [hentry]
    refine bind_eq_ok.mpr ⟨_, member_of_find hfind, bind_eq_ok.mpr ⟨drvPathS, rfl, ?_⟩⟩
    rw [hparse]
    dsimp only
    rw [hread]
    dsimp only
    -- nothing is registered for a broken aggregate
    simp only [hempty, Bool.false_eq_true, if_false]
    rw [pure_bind]
    refine bind_eq_ok.mpr ⟨job₁, herase, bind_eq_ok.mpr ⟨job', herror, ?_⟩⟩
    rw [htext]
    rfl
  | @Rewrites.rewritten _ _ _ job job₁ job₂ job' drvPath drv drv₁ store hempty hlocated hadd
      hregister herase hdump =>
    obtain ⟨hentry, ⟨drvPathS, hfind, hparse⟩, hread⟩ := hlocated
    obtain ⟨text, htext⟩ := Option.isSome_iff_exists.mp hdump
    rw [hentry]
    refine bind_eq_ok.mpr ⟨_, member_of_find hfind, bind_eq_ok.mpr ⟨drvPathS, rfl, ?_⟩⟩
    rw [hparse]
    dsimp only
    rw [hread]
    dsimp only
    -- constituents, derivation, names, and the line
    simp only [hempty, if_true]
    refine bind_eq_ok.mpr ⟨(job₁, drv₁), hadd, bind_eq_ok.mpr ⟨(job₂, store), hregister,
      bind_eq_ok.mpr ⟨job', herase, ?_⟩⟩⟩
    rw [pure_bind, htext]
    rfl

/-- **What rewriting one aggregate does.** -/
theorem rewriteAggregate_eq_ok {r r' : Rewriting} {agg : AggregateJob} :
    rewriteAggregate L r agg = .ok r' ↔ Rewrites L r agg r' :=
  ⟨rewriteAggregate_rewrites, rewriteAggregate_of_rewrites⟩

end Aggregates

end NixEvalJobs
