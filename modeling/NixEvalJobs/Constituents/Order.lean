import NixEvalJobs.Constituents.Resolution
import NixEvalJobs.Lib.Order

/-!
# Aggregates — the order of the sort

`topoSort` puts an aggregate behind the ones it depends on, and behind itself it puts
it once. That the depth-first search has come back from a dependency is not enough for
that: it also comes back from one that it is still inside of, unless this is reported
as a cycle.

* `topoSort_order` — dependencies first, and every name once.
* `topoSort_cycle` — a cycle that is reported is one.
* `topoSort_correct` — both together, for every set of aggregates.
-/

namespace NixEvalJobs

namespace Aggregates

variable {items : StdMap Str AggregateJob}

/-- Items are filed under their names. -/
def FiledByName (items : StdMap Str AggregateJob) : Prop :=
  ∀ (name : Str) (agg : AggregateJob), items[name]? = some agg → agg.name = name

/-- The aggregate `agg` depends on another aggregate of the set. -/
def Needs (items : StdMap Str AggregateJob) (agg dependency : AggregateJob) : Prop :=
  ∃ name ∈ agg.dependencies, name ≠ agg.name ∧ items[name]? = some dependency

/-- What is sorted is in order and has every name once. -/
structure Ordered (items : StdMap Str AggregateJob) (s : TopoState) : Prop where
  sorted : SortedVisited items s
  order : DependenciesFirst (Needs items) s.sorted
  names : (s.sorted.map AggregateJob.name).Nodup

/-- A visit only appends to what is sorted, and keeps it in order. -/
structure Orders (items : StdMap Str AggregateJob) (s s' : TopoState) : Prop where
  parents : s'.parents = s.parents
  append : ∀ agg ∈ s.sorted, agg ∈ s'.sorted
  ordered : Ordered items s → Ordered items s'

theorem Orders.refl (s : TopoState) : Orders items s s := ⟨rfl, fun _ h => h, id⟩

theorem Orders.trans {s s' s'' : TopoState} (h : Orders items s s') (h' : Orders items s' s'') :
    Orders items s s'' :=
  ⟨h'.parents.trans h.parents, fun agg hagg => h'.append agg (h.append agg hagg),
    h'.ordered ∘ h.ordered⟩

/-- When the children of an entered item are in order, so is the item behind them. -/
theorem orders_leave {s m : TopoState} {path : Str} {item : AggregateJob}
    (hnames : FiledByName items) (hitem : items[path]? = some item)
    (hparents : path ∉ s.parents) (hvisited : path ∉ s.visited)
    (hvisits : Visits items (s.enter path) m) (hchildren : Orders items (s.enter path) m)
    (hneeds : Ordered items (s.enter path) → ∀ dependency, Needs items item dependency →
      dependency ∈ m.sorted) :
    Orders items s (m.leave path item) := by
  have hleave := visits_leave hitem hparents hvisited hvisits
  refine ⟨hleave.parents, fun agg hagg => ?_, fun hs => ?_⟩
  · exact List.mem_append_left _ (hchildren.append agg hagg)
  -- entering the item leaves what is sorted alone
  have hentered : Ordered items (s.enter path) := by
    refine ⟨fun agg => ?_, hs.order, hs.names⟩
    refine (hs.sorted agg).trans (exists_congr fun p => ?_)
    rw [TopoState.enter, mem_insert_elem, mem_insert_elem]
    constructor
    · rintro ⟨hv, hp, hagg⟩
      refine ⟨.inl hv, ?_, hagg⟩
      rintro (hp' | rfl)
      · exact hp hp'
      · exact hvisited hv
    · rintro ⟨hv | rfl, hp, hagg⟩
      · exact ⟨hv, fun hp' => hp (.inl hp'), hagg⟩
      · exact absurd (.inr rfl) hp
  have hm := hchildren.ordered hentered
  refine ⟨hleave.sorted hs.sorted, hm.order.snoc (hneeds hentered), nodup_map_snoc hm.names ?_⟩
  -- the item is on the stack, so it is not sorted yet
  intro hmem
  obtain ⟨agg, hagg, hname⟩ := List.mem_map.mp hmem
  obtain ⟨p, -, hp, hget⟩ := (hm.sorted agg).mp hagg
  have hpath : p = path := by
    rw [← hnames p agg hget, hname, hnames path item hitem]
  refine hp ?_
  rw [hchildren.parents, hpath]
  exact mem_insert_elem.mpr (.inr rfl)

/-- **A visit that ends has its item in place**, behind what it needs. -/
theorem dfsVisit_orders {fuel : Nat} {path : Str} {parent : Option Str} {s s' : TopoState}
    (hnames : FiledByName items) (hpath : path ∈ items)
    (h : dfsVisit items fuel path parent s = .ok s') :
    Orders items s s' ∧
      (Ordered items s → ∀ agg, items[path]? = some agg → agg ∈ s'.sorted) := by
  induction fuel generalizing path parent s s' with
  | zero => cases h
  | succ fuel ih =>
    have hvisits := (dfsVisit_visits hpath h).1
    rw [dfsVisit.eq_def] at h
    dsimp only at h
    split at h
    · split at h <;> cases h
    next hparents =>
    split at h
    · -- visited and not on the stack: its visit has ended
      next hvisited =>
      obtain rfl := Except.ok.inj h
      exact ⟨.refl _, fun hs agg hagg => (hs.sorted agg).mpr ⟨path, hvisited, hparents, hagg⟩⟩
    next hvisited =>
    obtain ⟨m, hfold, h⟩ := bind_eq_ok.mp h
    obtain rfl := Except.ok.inj h
    obtain ⟨item, hitem⟩ := StdMap.mem_iff_exists.mp hpath
    rw [hitem] at hfold hvisits ⊢
    -- the loop over the dependencies
    have hloop : Visits items (s.enter path) m ∧ Orders items (s.enter path) m ∧
        (Ordered items (s.enter path) → ∀ ref ∈ item.dependencies.toList, ref ≠ path →
          ∀ agg, items[ref]? = some agg → agg ∈ m.sorted) := by
      refine foldlM_prefix (I := fun done m => Visits items (s.enter path) m ∧
          Orders items (s.enter path) m ∧ (Ordered items (s.enter path) → ∀ ref ∈ done,
            ref ≠ path → ∀ agg, items[ref]? = some agg → agg ∈ m.sorted))
        (fun {done ref _ m m'} _ hm hok => ?_)
        ⟨.refl _, .refl _, fun _ _ href => absurd href List.not_mem_nil⟩ hfold
      obtain ⟨hvisited, horders, hdone⟩ := hm
      split at hok
      · next href =>
        obtain ⟨hnew, hplaced⟩ := ih href.2 hok
        refine ⟨hvisited.trans (dfsVisit_visits href.2 hok).1, horders.trans hnew,
          fun hs ref' href' hne agg hagg => ?_⟩
        rcases List.mem_append.mp href' with href' | href'
        · exact hnew.append agg (hdone hs ref' href' hne agg hagg)
        · obtain rfl := List.mem_singleton.mp href'
          exact hplaced (horders.ordered hs) agg hagg
      · next href =>
        obtain rfl := Except.ok.inj hok
        refine ⟨hvisited, horders, fun hs ref' href' hne agg hagg => ?_⟩
        rcases List.mem_append.mp href' with href' | href'
        · exact hdone hs ref' href' hne agg hagg
        · -- an item that is skipped is the aggregate itself, or is not in the set
          obtain rfl := List.mem_singleton.mp href'
          refine absurd ⟨hne, ?_⟩ href
          rw [Std.ExtTreeMap.contains_eq_isSome_getElem?, hagg]
          rfl
    obtain ⟨hvisited', horders, hdone⟩ := hloop
    refine ⟨orders_leave hnames hitem hparents hvisited hvisited' horders ?_, fun _ agg hagg => ?_⟩
    · rintro hs dependency ⟨name, hname, hne, hget⟩
      have hother : name ≠ path := hnames path item hitem ▸ hne
      exact hdone hs name (Std.ExtTreeSet.mem_toList.mpr hname) hother dependency hget
    · obtain rfl := Option.some.inj hagg
      exact List.mem_append_right _ (List.mem_singleton_self _)

/-- **The order of `topoSort`.** -/
theorem topoSort_order {sorted : List AggregateJob} (hnames : FiledByName items)
    (h : topoSort items = .ok sorted) :
    DependenciesFirst (Needs items) sorted ∧ (sorted.map AggregateJob.name).Nodup := by
  rw [topoSort] at h
  obtain ⟨s, hfold, h⟩ := bind_eq_ok.mp h
  obtain rfl := Except.ok.inj h
  have hrun : Orders items {} s :=
    foldlM_related Orders.refl Orders.trans (fun key hkey hok =>
      (dfsVisit_orders hnames (Std.ExtTreeMap.mem_keys.mp hkey) hok).1) hfold
  have hempty : Ordered items {} := by
    refine ⟨fun agg => ⟨fun hc => absurd hc List.not_mem_nil, ?_⟩, .nil, List.nodup_nil⟩
    rintro ⟨path, hv, -⟩
    exact absurd hv Std.ExtTreeSet.not_mem_empty
  have hs := hrun.ordered hempty
  exact ⟨hs.order, hs.names⟩

/-! ## Cycles -/

/-- The aggregate filed under `name` depends on `dependency`. -/
def DependsOnItem (items : StdMap Str AggregateJob) (name dependency : Str) : Prop :=
  ∃ agg, items[name]? = some agg ∧ dependency ∈ agg.dependencies

/-- What is reported: two aggregates, the first of which depends on itself over others,
and the names of all the other aggregates. -/
structure ReportsCycle (items : StdMap Str AggregateJob) (cycle : DependencyCycle) : Prop where
  a_mem : cycle.a ∈ items
  b_mem : cycle.b ∈ items
  ne : cycle.a ≠ cycle.b
  cyclic : Relation.TransGen (DependsOnItem items) cycle.a cycle.a
  remaining : ∀ name, name ∈ cycle.remainingAggregates ↔
    name ∈ items ∧ name ≠ cycle.a ∧ name ≠ cycle.b

theorem mem_ofList_keys_erase {a b name : Str} :
    name ∈ (Std.ExtTreeSet.ofList ((items.erase a).erase b).keys : StdSet Str) ↔
      name ∈ items ∧ name ≠ a ∧ name ≠ b := by
  rw [Std.ExtTreeSet.mem_ofList, List.contains_iff_mem, Std.ExtTreeMap.mem_keys,
    Std.ExtTreeMap.mem_erase, Std.ExtTreeMap.mem_erase]
  simp only [ne_eq, Std.LawfulEqCmp.compare_eq_iff_eq, eq_comm (b := name)]
  tauto

/-- The aggregate filed under `name` depends on another one of the set. -/
def DependsOnOther (items : StdMap Str AggregateJob) (name dependency : Str) : Prop :=
  ∃ agg, items[name]? = some agg ∧ dependency ∈ agg.dependencies ∧ dependency ≠ name ∧
    dependency ∈ items

/-- What is reported closes a cycle: `b` depends on `a`, and `a` on `b` over others. -/
structure ClosesCycle (items : StdMap Str AggregateJob) (cycle : DependencyCycle) : Prop where
  edge : DependsOnOther items cycle.b cycle.a
  path : Relation.ReflTransGen (DependsOnOther items) cycle.a cycle.b
  remaining : ∀ name, name ∈ cycle.remainingAggregates ↔
    name ∈ items ∧ name ≠ cycle.a ∧ name ≠ cycle.b

/-- The items on the stack all lead to the parent of the visited one, so finding that
one there closes a cycle. -/
theorem dfsVisit_closes {fuel : Nat} {path : Str} {parent : Option Str} {s : TopoState}
    {cycle : DependencyCycle} (hpath : path ∈ items)
    (hparent : ∀ b, parent = some b → DependsOnOther items b path)
    (hstack : ∀ p ∈ s.parents, ∃ b, parent = some b ∧
      Relation.ReflTransGen (DependsOnOther items) p b)
    (h : dfsVisit items fuel path parent s = .error (.cycle cycle)) :
    ClosesCycle items cycle := by
  induction fuel generalizing path parent s with
  | zero => cases h
  | succ fuel ih =>
    rw [dfsVisit.eq_def] at h
    dsimp only at h
    split at h
    · next hparents =>
      obtain ⟨b, rfl, hleads⟩ := hstack path hparents
      obtain rfl := TopoError.cycle.inj (Except.error.inj h)
      exact ⟨hparent b rfl, hleads, fun name => mem_ofList_keys_erase⟩
    split at h
    · cases h
    obtain ⟨item, hitem⟩ := StdMap.mem_iff_exists.mp hpath
    rw [hitem] at h
    rcases bind_eq_error.mp h with hfold | ⟨m, -, hend⟩
    · -- the stack is the same before every dependency
      obtain ⟨ref, href, m, hm, hstep⟩ := foldlM_error
        (P := fun m => m.parents = s.parents.insert path) (fun ref _ hm hok => by
          split at hok
          · next href => exact (dfsVisit_visits href.2 hok).1.parents.trans hm
          · obtain rfl := Except.ok.inj hok
            exact hm) rfl hfold
      split at hstep
      · next hentered =>
        refine ih hentered.2 (fun b hb => ?_) (fun p hp => ⟨path, rfl, ?_⟩) hstep
        · obtain rfl := Option.some.inj hb
          exact ⟨item, hitem, Std.ExtTreeSet.mem_toList.mp href, hentered.1, hentered.2⟩
        · rw [hm] at hp
          rcases mem_insert_elem.mp hp with hp | rfl
          · obtain ⟨b, hb, hleads⟩ := hstack p hp
            exact hleads.tail (hparent b hb)
          · exact .refl
      · cases hstep
    · cases hend

theorem topoSort_closes {cycle : DependencyCycle} (h : topoSort items = .error (.cycle cycle)) :
    ClosesCycle items cycle := by
  rw [topoSort] at h
  rcases bind_eq_error.mp h with hfold | ⟨m, -, hend⟩
  · obtain ⟨key, hkey, m, hm, hstep⟩ := foldlM_error
      (P := fun m => m.parents = ∅) (fun key hkey hm hok =>
        (dfsVisit_visits (Std.ExtTreeMap.mem_keys.mp hkey) hok).1.parents.trans hm) rfl hfold
    refine dfsVisit_closes (Std.ExtTreeMap.mem_keys.mp hkey) ?_ (fun p hp => ?_) hstep
    · intro b hb
      cases hb
    · rw [hm] at hp
      exact absurd hp Std.ExtTreeSet.not_mem_empty
  · cases hend

theorem DependsOnOther.dependsOnItem {name dependency : Str}
    (h : DependsOnOther items name dependency) : DependsOnItem items name dependency := by
  obtain ⟨agg, hagg, hdependency, -, -⟩ := h
  exact ⟨agg, hagg, hdependency⟩

/-- **A reported cycle is one.** -/
theorem topoSort_cycle {cycle : DependencyCycle} (h : topoSort items = .error (.cycle cycle)) :
    ReportsCycle items cycle := by
  have hcloses := topoSort_closes h
  obtain ⟨agg, hagg, hdependency, hne, hmem⟩ := hcloses.edge
  have hcyclic : Relation.TransGen (DependsOnOther items) cycle.a cycle.a :=
    .tail' hcloses.path hcloses.edge
  refine ⟨hmem, ?_, hne, ?_, hcloses.remaining⟩
  · exact StdMap.mem_iff_exists.mpr ⟨_, hagg⟩
  · exact hcyclic.mono (fun _ _ => DependsOnOther.dependsOnItem) _ _

/-! ## Sorting is correct -/

/-- Each aggregate stands before those that depend on it, so none leads to itself. -/
theorem not_cyclic_of_sorted {sorted : List AggregateJob} (hnames : FiledByName items)
    (h : topoSort items = .ok sorted) (name : Str) :
    ¬Relation.TransGen (DependsOnOther items) name name := by
  obtain ⟨horder, hnodup⟩ := topoSort_order hnames h
  -- a chain of names is a chain of aggregates
  have hlift : ∀ {name dependency : Str}, Relation.TransGen (DependsOnOther items) name dependency →
      ∃ agg agg', items[name]? = some agg ∧ items[dependency]? = some agg' ∧
        Relation.TransGen (Needs items) agg agg' := by
    intro name dependency hchain
    induction hchain with
    | single hedge =>
      obtain ⟨agg, hagg, hdependency, hne, hmem⟩ := hedge
      obtain ⟨agg', hagg'⟩ := StdMap.mem_iff_exists.mp hmem
      exact ⟨agg, agg', hagg, hagg', .single ⟨_, hdependency, hnames _ agg hagg ▸ hne, hagg'⟩⟩
    | tail _ hedge ih =>
      obtain ⟨agg, mid, hagg, hmid, hneeds⟩ := ih
      obtain ⟨mid', hmid', hdependency, hne, hmem⟩ := hedge
      obtain rfl := Option.some.inj (hmid.symm.trans hmid')
      obtain ⟨agg', hagg'⟩ := StdMap.mem_iff_exists.mp hmem
      exact ⟨agg, agg', hagg, hagg', hneeds.tail ⟨_, hdependency, hnames _ mid hmid ▸ hne, hagg'⟩⟩
  intro hcyclic
  obtain ⟨agg, agg', hagg, hagg', hneeds⟩ := hlift hcyclic
  obtain rfl := Option.some.inj (hagg.symm.trans hagg')
  exact horder.acyclic hnodup.of_map ((mem_topoSort h agg).mpr ⟨name, hagg⟩) hneeds

/-- What is sorted are the items. -/
theorem topoSort_perm {sorted : List AggregateJob} (hnames : FiledByName items)
    (h : topoSort items = .ok sorted) : sorted.Perm (items.toList.map Prod.snd) := by
  obtain ⟨-, hnodup⟩ := topoSort_order hnames h
  have hitems : (items.toList.map Prod.snd).Nodup := by
    refine List.Nodup.of_map AggregateJob.name ?_
    have hkeys : (items.toList.map Prod.snd).map AggregateJob.name = items.keys := by
      rw [← Std.ExtTreeMap.map_fst_toList_eq_keys, List.map_map]
      refine List.map_congr_left fun e he => ?_
      exact hnames e.1 e.2 (Std.ExtTreeMap.mem_toList_iff_getElem?_eq_some.mp he)
    rw [hkeys]
    exact Std.ExtTreeMap.nodup_keys
  refine (List.perm_ext_iff_of_nodup hnodup.of_map hitems).mpr fun agg => ?_
  rw [mem_topoSort h, List.mem_map]
  constructor
  · rintro ⟨name, hagg⟩
    exact ⟨(name, agg), Std.ExtTreeMap.mem_toList_iff_getElem?_eq_some.mpr hagg, rfl⟩
  · rintro ⟨e, he, rfl⟩
    exact ⟨e.1, Std.ExtTreeMap.mem_toList_iff_getElem?_eq_some.mp he⟩

/-- **`topoSort` sorts what has no cycle, and reports one of what has.** Edges from an
aggregate to itself or out of the set do not count, and there is no other outcome: the
recursion ends, and the parent is there when it is read. -/
theorem topoSort_correct (hnames : FiledByName items) :
    ((∀ name, ¬Relation.TransGen (DependsOnOther items) name name) →
      ∃ sorted, topoSort items = .ok sorted ∧ sorted.Perm (items.toList.map Prod.snd) ∧
        DependenciesFirst (Needs items) sorted) ∧
    ((∃ name, Relation.TransGen (DependsOnOther items) name name) →
      ∃ cycle, topoSort items = .error (.cycle cycle) ∧ cycle.a ≠ cycle.b ∧
        ClosesCycle items cycle) := by
  rcases hsort : topoSort items with e | sorted
  · obtain ⟨cycle, rfl⟩ := topoSort_error hsort
    have hcloses := topoSort_closes hsort
    refine ⟨fun hacyclic => ?_, fun _ => ⟨cycle, rfl, (topoSort_cycle hsort).ne, hcloses⟩⟩
    exact absurd (.tail' hcloses.path hcloses.edge) (hacyclic cycle.a)
  · refine ⟨fun _ => ⟨sorted, rfl, topoSort_perm hnames hsort, (topoSort_order hnames hsort).1⟩, ?_⟩
    rintro ⟨name, hcyclic⟩
    exact absurd hcyclic (not_cyclic_of_sorted hnames hsort name)

/-- Two aggregates, each of which depends on the other. -/
def pairItems : StdMap Str AggregateJob :=
  [("a", "b"), ("b", "a")].foldl (fun items e => items.insert (lit e.1)
    { name := lit e.1, dependencies := (∅ : StdSet Str).insert (lit e.2), brokenJobs := ∅ }) ∅

theorem pairItems_getElem? {name : Str} {agg : AggregateJob} : pairItems[name]? = some agg ↔
    ∃ e ∈ [("a", "b"), ("b", "a")], lit e.1 = name ∧
      { name := lit e.1, dependencies := (∅ : StdSet Str).insert (lit e.2), brokenJobs := ∅ } =
        agg := by
  rw [pairItems, StdMap.getElem?_foldl_insert (by decide)]
  simp

theorem pairItems_dependsOnOther {e : String × String} (h : e ∈ [("a", "b"), ("b", "a")]) :
    DependsOnOther pairItems (lit e.1) (lit e.2) := by
  refine ⟨_, pairItems_getElem?.mpr ⟨e, h, rfl, rfl⟩, mem_insert_elem.mpr (.inr rfl), ?_, ?_⟩
  · revert e
    decide
  · revert e
    decide +kernel

theorem topoSort_correct_pair :
    ∃ cycle, topoSort pairItems = .error (.cycle cycle) ∧ cycle.a ≠ cycle.b ∧
      ClosesCycle pairItems cycle := by
  refine (topoSort_correct fun name agg hagg => ?_).2 ⟨lit "a", ?_⟩
  · obtain ⟨e, -, rfl, rfl⟩ := pairItems_getElem?.mp hagg
    rfl
  · exact .tail (.single (pairItems_dependsOnOther (e := ("a", "b")) (by simp)))
      (pairItems_dependsOnOther (e := ("b", "a")) (by simp))

/-! ## Resolution -/

variable {L : AggregateLibs} {jobs : JobMap}

theorem collectAggregates_filedByName (h : collectAggregates L jobs = .ok items) :
    FiledByName items :=
  fun name agg hagg => ((collectAggregates_spec h).1 name agg hagg).1

/-- What `resolveNamedConstituents` returns comes from sorting the collected
aggregates. -/
theorem resolveNamedConstituents_cases {resolved : DependencyCycle ⊕ List AggregateJob}
    (h : resolveNamedConstituents L jobs = .ok resolved) :
    ∃ items, collectAggregates L jobs = .ok items ∧
      ((∃ cycle, resolved = .inl cycle ∧ ReportsCycle items cycle) ∨
        ∃ sorted, resolved = .inr sorted ∧ topoSort items = .ok sorted) := by
  rw [resolveNamedConstituents] at h
  obtain ⟨items, hitems, h⟩ := bind_eq_ok.mp h
  refine ⟨items, hitems, ?_⟩
  split at h
  · next sorted hsort =>
    obtain rfl := Except.ok.inj h
    exact .inr ⟨sorted, rfl, hsort⟩
  · next cycle hsort =>
    obtain rfl := Except.ok.inj h
    exact .inl ⟨cycle, rfl, topoSort_cycle hsort⟩
  · cases h

theorem dependsOn_of_item (hitems : collectAggregates L jobs = .ok items) {name dependency : Str}
    (h : DependsOnItem items name dependency) : DependsOn L jobs name dependency := by
  obtain ⟨agg, hagg, hdependency⟩ := h
  obtain ⟨rfl, hdescribes⟩ := (collectAggregates_spec hitems).1 name agg hagg
  exact (hdescribes.dependencies dependency).mp hdependency

/-- **Without a cycle the aggregates are sorted.** -/
theorem resolveNamedConstituents_acyclic {resolved : DependencyCycle ⊕ List AggregateJob}
    (hacyclic : ∀ name, ¬Relation.TransGen (DependsOn L jobs) name name)
    (h : resolveNamedConstituents L jobs = .ok resolved) :
    ∃ aggregates, resolved = .inr aggregates := by
  obtain ⟨items, hitems, ⟨cycle, -, hcycle⟩ | ⟨sorted, hsorted, -⟩⟩ :=
    resolveNamedConstituents_cases h
  · have hcyclic := Relation.TransGen.mono (fun _ _ => dependsOn_of_item hitems) _ _ hcycle.cyclic
    exact absurd hcyclic (hacyclic cycle.a)
  · exact ⟨sorted, hsorted⟩

/-- **No aggregate is needed by one before it.** -/
theorem resolveNamedConstituents_before {aggregates before after : List AggregateJob}
    {agg : AggregateJob} (h : resolveNamedConstituents L jobs = .ok (.inr aggregates))
    (hsplit : aggregates = before ++ agg :: after) :
    ∀ other ∈ before, agg.name ≠ other.name ∧ agg.name ∉ other.dependencies := by
  obtain ⟨items, hitems, ⟨cycle, hc, -⟩ | ⟨sorted, hsorted, hsort⟩⟩ :=
    resolveNamedConstituents_cases h
  · cases hc
  obtain rfl := Sum.inr.inj hsorted
  have hnames := collectAggregates_filedByName hitems
  obtain ⟨horder, hnodup⟩ := topoSort_order hnames hsort
  intro other hother
  have hne : agg.name ≠ other.name := by
    rw [hsplit, List.map_append, List.map_cons, List.nodup_append] at hnodup
    exact fun heq => hnodup.2.2 other.name (List.mem_map_of_mem hother) agg.name
      (List.mem_cons_self ..) heq.symm
  refine ⟨hne, fun hdependency => ?_⟩
  -- the aggregate is in the set that was sorted, filed under its name
  obtain ⟨name, hagg⟩ := (mem_topoSort hsort agg).mp
    (hsplit ▸ List.mem_append_right _ (List.mem_cons_self ..))
  obtain rfl := hnames name agg hagg
  exact horder.not_needed_before hnodup.of_map hsplit hother ⟨agg.name, hdependency, hne, hagg⟩

end Aggregates

end NixEvalJobs
