import NixEvalJobs.CacheStatus.NeededWork
import NixEvalJobs.Lib.Order

/-!
# Cache status resolver — the order of builds

A derivation is put on the list of builds when the walk leaves it. All its inputs
have been visited by then, so none of them can be put there later, and what is put
there in between was entered below it.

* `visitDrv_extends` — what a direct visit adds, by the derivations outside that ask
  for it.
* `neededBuilds_ordered` — a job's list of builds is in order, without repetitions,
  and everything on it, or fetched next to it, is there for a reason.
-/

namespace NixEvalJobs

namespace Resolver

/-- There is an edge from `drvPath` to `input`. -/
def DirectInput (S : EvalStore) (drvPath input : StorePath) : Prop :=
  ∃ edge ∈ inputs S drvPath, edge.1 = input

/-- An output that is neither there nor to be had. -/
def Unavailable (S : EvalStore) (O : Oracles) (drvPath : StorePath) : Prop :=
  ∃ name path, S.outputPath drvPath name = some path ∧ O.valid path = false ∧
    O.substitutable path = false

/-- A path to fetch, which is an output of one of the derivations `of`. -/
def FetchedFor (S : EvalStore) (O : Oracles) (of : StorePath → Prop) (path : StorePath) : Prop :=
  O.valid path = false ∧ O.substitutable path = true ∧
    ∃ drvPath name, of drvPath ∧ S.outputPath drvPath name = some path

variable {S : EvalStore} {O : Oracles} {R R' : Resolver}

/-- Inputs are less deep. -/
theorem DirectInput.depth_lt {drvPath input : StorePath} (h : DirectInput S drvPath input) :
    S.depth input < S.depth drvPath := by
  obtain ⟨edge, hedge, rfl⟩ := h
  exact depth_inputs hedge

/-- No derivation is its own input. -/
theorem not_directInput_self (drvPath : StorePath) : ¬DirectInput S drvPath drvPath :=
  fun h => Nat.lt_irrefl _ h.depth_lt

/-- What is fetched for some is fetched for more. -/
theorem FetchedFor.mono {of of' : StorePath → Prop} {path : StorePath}
    (hle : ∀ drvPath, of drvPath → of' drvPath) (h : FetchedFor S O of path) :
    FetchedFor S O of' path := by
  obtain ⟨hinvalid, hsub, drvPath, name, hof, houtput⟩ := h
  exact ⟨hinvalid, hsub, drvPath, name, hle drvPath hof, houtput⟩

/-- A derivation is built because one of its outputs cannot be had. -/
theorem unavailable_of_builds {v : Visit} (h : builds S O v = true) : Unavailable S O v.1 := by
  have hall : (missingAt S O v).all O.substitutable = false := by
    rw [builds] at h
    simpa using h
  obtain ⟨path, hmissing, hsub⟩ := List.all_eq_false.mp hall
  obtain ⟨name, -, houtput, hinvalid⟩ := mem_missingAt.mp hmissing
  exact ⟨name, path, houtput, hinvalid, by simpa using hsub⟩

/-- What a derivation that is not built lacks can be fetched. -/
theorem fetchedFor_of_leaf {v : Visit} (h : builds S O v = false) {path : StorePath}
    (hpath : path ∈ missingAt S O v) : FetchedFor S O (· = v.1) path := by
  have hall : (missingAt S O v).all O.substitutable = true := by
    rw [builds] at h
    simpa using h
  obtain ⟨name, -, houtput, hinvalid⟩ := mem_missingAt.mp hpath
  exact ⟨hinvalid, List.all_eq_true.mp hall path hpath, v.1, name, rfl, houtput⟩

/-! ## What the walk adds -/

/-- Asked for from outside, or as an input of one of the builds. -/
def AskedFor (S : EvalStore) (outside : StorePath → Prop) (new : List StorePath)
    (drvPath : StorePath) : Prop :=
  outside drvPath ∨ ∃ dependant ∈ new, DirectInput S dependant drvPath

/-- The part of a walk that was asked for by `outside`, and the builds it adds. -/
structure Extends (S : EvalStore) (O : Oracles) (outside : StorePath → Prop) (bound : Nat)
    (t t' : Traversal) (new : List StorePath) : Prop where
  neededBuilds : t'.neededBuilds = t.neededBuilds ++ new
  visited : ∀ path ∈ t.visited, path ∈ t'.visited
  fresh : ∀ path ∈ new, path ∉ t.visited
  entered : ∀ path ∈ new, path ∈ t'.visited
  closed : ∀ path ∈ new, ∀ input, DirectInput S path input → input ∈ t'.visited
  depth : ∀ path ∈ new, S.depth path < bound
  nodup : new.Nodup
  ordered : new.Pairwise fun path later => ¬DirectInput S path later
  needed : NeededLater (DirectInput S) outside new
  unavailable : ∀ path ∈ new, Unavailable S O path
  fetched : ∀ path ∈ t'.substitutePaths,
    path ∈ t.substitutePaths ∨ FetchedFor S O (AskedFor S outside new) path

variable {outside outside' : StorePath → Prop} {bound bound' : Nat} {t t' t'' : Traversal}
  {new new' : List StorePath}

theorem AskedFor.left {path : StorePath} (h : AskedFor S outside new path)
    (new' : List StorePath) : AskedFor S outside (new ++ new') path :=
  h.imp_right fun ⟨dependant, hmem, hinput⟩ => ⟨dependant, List.mem_append_left _ hmem, hinput⟩

theorem AskedFor.right {path : StorePath} (h : AskedFor S outside new' path)
    (new : List StorePath) : AskedFor S outside (new ++ new') path :=
  h.imp_right fun ⟨dependant, hmem, hinput⟩ => ⟨dependant, List.mem_append_right _ hmem, hinput⟩

namespace Extends

/-- A visit that builds nothing. -/
theorem unbuilt (hbuilds : t'.neededBuilds = t.neededBuilds)
    (hvisited : ∀ path ∈ t.visited, path ∈ t'.visited)
    (hfetched : ∀ path ∈ t'.substitutePaths,
      path ∈ t.substitutePaths ∨ FetchedFor S O outside path) :
    Extends S O outside bound t t' [] where
  neededBuilds := by rw [hbuilds, List.append_nil]
  visited := hvisited
  fresh := fun _ hmem => absurd hmem List.not_mem_nil
  entered := fun _ hmem => absurd hmem List.not_mem_nil
  closed := fun _ hmem => absurd hmem List.not_mem_nil
  depth := fun _ hmem => absurd hmem List.not_mem_nil
  nodup := List.nodup_nil
  ordered := .nil
  needed := trivial
  unavailable := fun _ hmem => absurd hmem List.not_mem_nil
  fetched := fun path hpath => (hfetched path hpath).imp_right fun h => h.mono fun _ => .inl

/-- A visit that adds nothing. -/
theorem refl (t : Traversal) : Extends S O outside bound t t [] :=
  unbuilt rfl (fun _ => id) fun _ => .inl

/-- What comes later was not visited before, so nothing before has it as an input. -/
theorem trans (h : Extends S O outside bound t t' new)
    (h' : Extends S O outside bound t' t'' new') :
    Extends S O outside bound t t'' (new ++ new') where
  neededBuilds := by rw [h'.neededBuilds, h.neededBuilds, List.append_assoc]
  visited := fun path hpath => h'.visited path (h.visited path hpath)
  fresh := fun path hpath => (List.mem_append.mp hpath).elim (h.fresh path)
    fun hnew' hold => h'.fresh path hnew' (h.visited path hold)
  entered := fun path hpath => (List.mem_append.mp hpath).elim
    (fun hnew => h'.visited path (h.entered path hnew)) (h'.entered path)
  closed := fun path hpath input hinput => (List.mem_append.mp hpath).elim
    (fun hnew => h'.visited input (h.closed path hnew input hinput))
    fun hnew' => h'.closed path hnew' input hinput
  depth := fun path hpath => (List.mem_append.mp hpath).elim (h.depth path) (h'.depth path)
  nodup := by
    -- what the second part builds was not visited in the first
    refine List.nodup_append.mpr ⟨h.nodup, h'.nodup, fun a ha b hb => ?_⟩
    rintro rfl
    exact h'.fresh a hb (h.entered a ha)
  ordered := by
    -- the inputs of what the first part builds were visited in it
    refine List.pairwise_append.mpr ⟨h.ordered, h'.ordered, fun a ha b hb hinput => ?_⟩
    exact h'.fresh b hb (h.closed a ha b hinput)
  needed := h.needed.append h'.needed
  unavailable := fun path hpath =>
    (List.mem_append.mp hpath).elim (h.unavailable path) (h'.unavailable path)
  fetched := by
    intro path hpath
    rcases h'.fetched path hpath with hmid | hfetched
    · exact (h.fetched path hmid).imp_right fun hfetched => hfetched.mono fun _ hd => hd.left new'
    · exact .inr (hfetched.mono fun _ hd => hd.right new)

/-- More may ask, and it may be deeper. -/
theorem mono (hle : ∀ path, outside path → outside' path) (hbound : bound ≤ bound')
    (h : Extends S O outside bound t t' new) : Extends S O outside' bound' t t' new where
  neededBuilds := h.neededBuilds
  visited := h.visited
  fresh := h.fresh
  entered := h.entered
  closed := h.closed
  depth := fun path hpath => lt_of_lt_of_le (h.depth path hpath) hbound
  nodup := h.nodup
  ordered := h.ordered
  needed := h.needed.mono hle
  unavailable := h.unavailable
  fetched := fun path hpath => (h.fetched path hpath).imp_right fun hfetched =>
    hfetched.mono fun d hd => hd.imp_left (hle d)

/-- A derivation that builds, after its inputs. -/
theorem built {drvPath : StorePath} (hfresh : drvPath ∉ t.visited)
    (h : Extends S O (DirectInput S drvPath) (S.depth drvPath) (t.enter drvPath) t' new)
    (hinputs : ∀ input, DirectInput S drvPath input → input ∈ t'.visited)
    (hunavailable : Unavailable S O drvPath) :
    Extends S O (· = drvPath) (S.depth drvPath + 1) t
      { t' with neededBuilds := t'.neededBuilds ++ [drvPath] } (new ++ [drvPath]) := by
  have hentered : drvPath ∈ (t.enter drvPath).visited := Std.ExtTreeSet.mem_insert_self
  have hsub : ∀ path ∈ t.visited, path ∈ (t.enter drvPath).visited := fun path hpath =>
    Std.ExtTreeSet.mem_insert.mpr (.inr hpath)
  have hmem : ∀ {path}, path ∈ new ++ [drvPath] → path ∈ new ∨ path = drvPath := fun hpath =>
    (List.mem_append.mp hpath).imp_right List.mem_singleton.mp
  refine ⟨?_, fun path hpath => h.visited path (hsub path hpath),
    ?_, ?_, ?_, ?_, ?_, ?_, ?_, ?_, ?_⟩
  · rw [h.neededBuilds, List.append_assoc]
    rfl
  · intro path hpath
    rcases hmem hpath with hnew | rfl
    · exact fun hold => h.fresh path hnew (hsub path hold)
    · exact hfresh
  · intro path hpath
    rcases hmem hpath with hnew | rfl
    · exact h.entered path hnew
    · exact h.visited path hentered
  · intro path hpath
    rcases hmem hpath with hnew | rfl
    · exact h.closed path hnew
    · exact hinputs
  · intro path hpath
    rcases hmem hpath with hnew | rfl
    · exact Nat.lt_succ_of_lt (h.depth path hnew)
    · exact Nat.lt_succ_self _
  · refine List.nodup_append.mpr ⟨h.nodup, List.nodup_singleton _, fun a ha b hb => ?_⟩
    obtain rfl := List.mem_singleton.mp hb
    rintro rfl
    exact h.fresh a ha hentered
  · -- what was built below it is less deep
    refine List.pairwise_append.mpr ⟨h.ordered, List.pairwise_singleton .., fun a ha b hb => ?_⟩
    obtain rfl := List.mem_singleton.mp hb
    intro hinput
    have hbelow := h.depth a ha
    have hdepth := hinput.depth_lt
    omega
  · exact h.needed.snoc fun _ => id
  · intro path hpath
    rcases hmem hpath with hnew | rfl
    · exact h.unavailable path hnew
    · exact hunavailable
  · intro path hpath
    -- what was asked for from outside of the inputs is asked for by this derivation
    refine (h.fetched path hpath).imp_right fun hfetched => hfetched.mono fun d hd => .inr ?_
    rcases hd with hinput | ⟨dependant, hdependant, hinput⟩
    · exact ⟨drvPath, List.mem_append_right _ (List.mem_singleton_self _), hinput⟩
    · exact ⟨dependant, List.mem_append_left _ hdependant, hinput⟩

end Extends

/-- Derivations visited one after the other. -/
theorem visitInputs_extends {f : Traversal → Visit → Except Error Traversal} {vs : List Visit}
    (bound : Nat) (hf : ∀ {t t' : Traversal}, ∀ v ∈ vs, f t v = .ok t' →
      (∃ new, Extends S O (· = v.1) bound t t' new) ∧ v.1 ∈ t'.visited)
    {t t' : Traversal} (h : vs.foldlM f t = .ok t') :
    (∃ new, Extends S O (fun path => ∃ v ∈ vs, v.1 = path) bound t t' new) ∧
      ∀ v ∈ vs, v.1 ∈ t'.visited := by
  induction vs generalizing t with
  | nil =>
    obtain rfl := Except.ok.inj h
    exact ⟨⟨[], .refl t⟩, fun _ hmem => absurd hmem List.not_mem_nil⟩
  | cons v vs ih =>
    rw [List.foldlM_cons] at h
    obtain ⟨t₁, hvisit, hrest⟩ := bind_eq_ok.mp h
    obtain ⟨⟨new, hnew⟩, hentered⟩ := hf v (List.mem_cons_self ..) hvisit
    obtain ⟨⟨new', hnew'⟩, hall⟩ := ih (fun w hw => hf w (List.mem_cons_of_mem _ hw)) hrest
    -- the first one, then the others
    refine ⟨⟨new ++ new', (hnew.mono ?_ le_rfl).trans (hnew'.mono ?_ le_rfl)⟩, fun w hw => ?_⟩
    · rintro path rfl
      exact ⟨v, List.mem_cons_self .., rfl⟩
    · rintro path ⟨w, hw, rfl⟩
      exact ⟨w, List.mem_cons_of_mem _ hw, rfl⟩
    · rcases List.mem_cons.mp hw with rfl | hw
      · exact hnew'.visited _ hentered
      · exact hall w hw

/-- **What a direct visit adds.** -/
theorem visitDrv_extends {fuel : Nat} {drvPath : StorePath} {wanted : StdSet Str}
    {t t' : Traversal} (h : Direct.visitDrv S O fuel drvPath wanted t = .ok t') :
    (∃ new, Extends S O (· = drvPath) (S.depth drvPath + 1) t t' new) ∧
      drvPath ∈ t'.visited := by
  induction fuel generalizing drvPath wanted t t' with
  | zero => cases h
  | succ fuel ih =>
    have hsub : ∀ path ∈ t.visited, path ∈ (t.enter drvPath).visited := fun path hpath =>
      Std.ExtTreeSet.mem_insert.mpr (.inr hpath)
    match direct_visited h with
    | .again hvisited => exact ⟨⟨[], .refl t⟩, hvisited⟩
    | .unknown _ _ _ =>
      exact ⟨⟨[], .unbuilt rfl hsub fun _ => .inl⟩, Std.ExtTreeSet.mem_insert_self⟩
    | .leaf _ _ _ hleaf =>
      -- only substitutes are added, and they are of this derivation
      refine ⟨⟨[], .unbuilt rfl hsub fun path hpath => ?_⟩, Std.ExtTreeSet.mem_insert_self⟩
      rw [Std.ExtTreeSet.mem_insertMany_list] at hpath
      refine hpath.imp_right fun hmissing => fetchedFor_of_leaf hleaf ?_
      simpa using hmissing
    | .built hfresh _ _ hbuilds hfold =>
      -- the inputs are visited while `drvPath` is on the stack
      obtain ⟨⟨new, hnew⟩, hall⟩ := visitInputs_extends (S.depth drvPath)
        (fun v hv hvisit => by
          obtain ⟨⟨new, hnew⟩, hentered⟩ := ih hvisit
          exact ⟨⟨new, hnew.mono (fun _ => id) (depth_inputs hv)⟩, hentered⟩) hfold
      have hbuilt := hnew.built hfresh (fun input ⟨edge, hedge, heq⟩ => heq ▸ hall edge hedge)
        (unavailable_of_builds hbuilds)
      refine ⟨⟨_, hbuilt⟩, hbuilt.entered drvPath ?_⟩
      exact List.mem_append_right _ (List.mem_singleton_self _)

/-! ## The builds of a job -/

/-- The list of builds of a job, and what is fetched next to it. -/
structure BuildOrder (S : EvalStore) (O : Oracles) (drv : Drv) : Prop where
  nodup : drv.neededBuilds.Nodup
  inputsFirst : DependenciesFirst
    (fun drvPath input => DirectInput S drvPath input ∧ input ∈ drv.neededBuilds) drv.neededBuilds
  needed : ∀ before input after, drv.neededBuilds = before ++ input :: after →
    input = drv.drvPath ∨ ∃ drvPath ∈ after, DirectInput S drvPath input
  unavailable : ∀ drvPath ∈ drv.neededBuilds, Unavailable S O drvPath
  fetched : ∀ path ∈ drv.neededSubstitutes, FetchedFor S O (fun drvPath =>
    drvPath = drv.drvPath ∨ ∃ dependant ∈ drv.neededBuilds, DirectInput S dependant drvPath) path

/-- The slow path leaves the builds in order. -/
theorem slowPath_ordered {drv drv' : Drv} (h : Direct.slowPath S O drv = .ok drv') :
    BuildOrder S O drv' := by
  rw [Direct.slowPath] at h
  obtain ⟨t, hvisit, hrest⟩ := bind_eq_ok.mp h
  obtain rfl := Except.ok.inj hrest
  obtain ⟨⟨new, hnew⟩, -⟩ := visitDrv_extends hvisit
  have hbuilds : t.neededBuilds = new := hnew.neededBuilds
  -- each part of the order is one of the visit
  refine ⟨?_, ?_, fun before input after hsplit => ?_, ?_, fun path hpath => ?_⟩
  · rw [hbuilds]
    exact hnew.nodup
  · rw [hbuilds]
    exact .of_pairwise not_directInput_self hnew.ordered
  · have hneeded := hnew.needed
    rw [← hbuilds, show t.neededBuilds = before ++ input :: after from hsplit] at hneeded
    exact hneeded.split
  · rw [hbuilds]
    exact hnew.unavailable
  · rw [hbuilds]
    rw [mem_sortPaths, Std.ExtTreeSet.mem_toList] at hpath
    exact (hnew.fetched path hpath).resolve_left Std.ExtTreeSet.not_mem_empty

/-- **The builds of a job are in order**: no derivation is there twice, inputs stand
before what they are inputs of, and every derivation but the job's own is there as an
input of a later one, for an output that is neither valid nor substitutable. What is
fetched next to them is the job's own output or one of an input of a build. -/
theorem neededBuilds_ordered (h : (system S O).Reachable System.anyEnv R) {drv drv' : Drv}
    (hresolve : R.tryResolve S drv = .ok (true, drv', R'))
    (hstatus : drv'.cacheStatus = .notBuilt) :
    BuildOrder S O drv' := by
  -- only the slow path gives this status
  rcases tryResolve_cases (agrees_reachable h) hresolve with ⟨R₁, hR₁, hslow⟩ | ⟨-, hother⟩
  · exact slowPath_ordered (slowPath_direct hR₁ hslow).2.2
  · exact absurd hstatus (hother rfl)

theorem neededBuilds_ordered_diamond :
    BuildOrder diamondStore diamondOracles diamondResult.1 ∧
      diamondResult.1.neededBuilds = [toolDrv, jobDrv] :=
  ⟨neededBuilds_ordered
    (System.reachable_after (fun _ _ _ => trivial) diamondRun diamondRun_isSome)
    diamond_tryResolve (by decide +kernel), by decide +kernel⟩

end Resolver

end NixEvalJobs
