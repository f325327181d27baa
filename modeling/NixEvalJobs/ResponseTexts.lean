import NixEvalJobs.Codec
import NixEvalJobs.JsonText

/-!
# nix-eval-jobs — the strings of a response

`dump` looks at every string of a value, the keys included. A response takes its
strings from many places: the attribute path, the names of attributes, the text of
an error, every member of a derivation, the warnings and the traces.

* `Fields.All` — what all strings of an object have in common, by its members.
* `Response.utf8_iff` — a response is UTF-8 when the strings that go into it are.
-/

namespace NixEvalJobs

/-! ## All strings of a value -/

/-- Every string of the value, keys included, satisfies `P`. -/
def Json.All (P : Str → Prop) (json : Json) : Prop := ∀ s ∈ json.strings, P s

def Fields.All (P : Str → Prop) (fields : Fields) : Prop := ∀ s ∈ Json.fieldStrings fields, P s

variable {P : Str → Prop}

namespace Fields

/-- An empty object has no string. -/
theorem all_nil : All P [] := fun _ hs => absurd hs (by simp [Json.fieldStrings])

/-- The strings of an object are those of its first member, the key included, and those of
the other members. -/
theorem all_cons {key : Str} {value : Json} {rest : Fields} :
    All P ((key, value) :: rest) ↔ P key ∧ value.All P ∧ All P rest := by
  unfold All Json.All
  rw [Json.fieldStrings, List.forall_mem_cons, List.forall_mem_append]

/-- Assigning a member of a good key and a good value keeps an object good; this is all the
encoders do. -/
theorem All.set {fields : Fields} (h : fields.All P) {key : Str} {value : Json} (hkey : P key)
    (hvalue : value.All P) : (fields.set key value).All P := by
  induction fields with
  | nil => exact all_cons.mpr ⟨hkey, hvalue, all_nil⟩
  -- the member is appended
  | cons e rest ih =>
    obtain ⟨k, v⟩ := e
    obtain ⟨hk, hv, hrest⟩ := all_cons.mp h
    rw [Fields.set]
    split
    -- the key is there and its value is replaced, the object is sorted and the member goes
    -- in front, or it goes further back
    · exact all_cons.mpr ⟨hkey, hvalue, hrest⟩
    · split
      · exact all_cons.mpr ⟨hkey, hvalue, h⟩
      · exact all_cons.mpr ⟨hk, hv, ih hrest⟩

/-- The same for a member that is written only when there is a value for it. -/
theorem All.setOpt {fields : Fields} (h : fields.All P) {key : Str} {value : Option Json}
    (hkey : P key) (hvalue : ∀ v ∈ value, Json.All P v) : (fields.setOpt key value).All P := by
  match value with
  | none => exact h
  | some v => exact h.set hkey (hvalue v rfl)

/-- `update` of a good object with a good one: the members come in one after the other. -/
theorem All.update {fields other : Fields} (h : fields.All P) (hother : other.All P) :
    (fields.update other).All P := by
  induction other with
  | nil => exact h
  | cons e other ih =>
    obtain ⟨hk, hv, hrest⟩ := all_cons.mp hother
    exact (ih hrest).set hk hv

/-- What is read from a good object is good. With the codec's lemmas about what `get` finds
this gives the direction from the object to the texts. -/
theorem All.get {fields : Fields} (h : fields.All P) {key : Str} {value : Json}
    (hget : fields.get key = some value) : P key ∧ value.All P := by
  induction fields with
  | nil => exact absurd hget (by simp)
  | cons e rest ih =>
    obtain ⟨k, v⟩ := e
    obtain ⟨hk, hv, hrest⟩ := all_cons.mp h
    rw [get_cons] at hget
    split at hget
    · next hkey =>
      obtain rfl := Option.some.inj hget
      exact ⟨hkey ▸ hk, hv⟩
    · exact ih hrest hget

section Maps

variable {K V : Type} [Ord K] [Std.TransOrd K] [Std.LawfulEqOrd K]

omit [Ord K] [Std.TransOrd K] [Std.LawfulEqOrd K] in
/-- Of the entries of a map, written one after the other under distinct keys, each can be
read back. -/
theorem get_foldl_set {encodeKey : K → Str} {encode : V → Json} (l : List (K × V))
    (fields : Fields) (hDistinct : l.Pairwise fun x y => encodeKey x.1 ≠ encodeKey y.1)
    {e : K × V} (he : e ∈ l) :
    (l.foldl (fun (fields : Fields) e => fields.set (encodeKey e.1) (encode e.2)) fields).get
      (encodeKey e.1) = some (encode e.2) := by
  -- a member is not touched by entries with other keys
  have hkeep : ∀ (l : List (K × V)) (fields : Fields) (key : Str),
      (∀ x ∈ l, encodeKey x.1 ≠ key) →
      (l.foldl (fun (fields : Fields) e => fields.set (encodeKey e.1) (encode e.2))
        fields).get key = fields.get key := by
    intro l
    induction l with
    | nil => exact fun _ _ _ => rfl
    | cons x l ih =>
      intro fields key hne
      rw [List.foldl_cons, ih _ _ fun y hy => hne y (List.mem_cons_of_mem _ hy),
        get_set_ne (hne x List.mem_cons_self).symm]
  induction l generalizing fields with
  | nil => exact absurd he List.not_mem_nil
  | cons x l ih =>
    obtain ⟨hhead, htail⟩ := List.pairwise_cons.mp hDistinct
    rw [List.foldl_cons]
    rcases List.mem_cons.mp he with rfl | hmem
    · rw [hkeep l _ _ fun y hy hc => hhead y hy hc.symm, get_set_self]
    · exact ih _ htail hmem

/-- The strings of an object that holds a map, when no two keys print alike. -/
theorem all_ofMap {encodeKey : K → Str} (hinj : Function.Injective encodeKey) {encode : V → Json}
    (m : StdMap K V) :
    (ofMap encodeKey encode m).All P ↔ ∀ e ∈ m.toList, P (encodeKey e.1) ∧ (encode e.2).All P := by
  constructor
  · intro h e he
    -- two entries that print alike would overwrite each other and hide a string
    have hdistinct : m.toList.Pairwise fun x y => encodeKey x.1 ≠ encodeKey y.1 := by
      refine Std.ExtTreeMap.distinct_keys_toList.imp fun hne heq => ?_
      exact hne (Std.LawfulEqCmp.compare_eq_iff_eq.mpr (hinj heq))
    exact h.get (get_foldl_set m.toList [] hdistinct he)
  · intro h
    -- in the other direction collisions do no harm
    have hfold : ∀ (l : List (K × V)) (fields : Fields), fields.All P →
        (∀ e ∈ l, P (encodeKey e.1) ∧ (encode e.2).All P) →
        (l.foldl (fun (fields : Fields) e =>
          fields.set (encodeKey e.1) (encode e.2)) fields).All P := by
      intro l
      induction l with
      | nil => exact fun _ hf _ => hf
      | cons e l ih =>
        intro fields hf hl
        obtain ⟨hk, hv⟩ := hl e List.mem_cons_self
        exact ih _ (hf.set hk hv) fun x hx => hl x (List.mem_cons_of_mem _ hx)
    exact hfold m.toList [] all_nil h

end Maps

end Fields

namespace Json

@[simp] theorem all_string {s : Str} : (Json.string s).All P ↔ P s := by
  simp [All, strings]

@[simp] theorem all_ofStrings {ss : List Str} : (ofStrings ss).All P ↔ ∀ s ∈ ss, P s := by
  unfold All
  rw [strings_ofStrings]

@[simp] theorem all_ofStringSet {ss : StdSet Str} :
    (ofStringSet ss).All P ↔ ∀ s ∈ ss.toList, P s :=
  all_ofStrings

@[simp] theorem all_object {fields : Fields} : (Json.object fields).All P ↔ fields.All P :=
  Iff.rfl

@[simp] theorem all_null : Json.null.All P := fun _ hs => absurd hs (by simp [strings])

@[simp] theorem all_bool {b : Bool} : (Json.bool b).All P :=
  fun _ hs => absurd hs (by simp [strings])

@[simp] theorem all_unsigned {n : UInt64} : (Json.unsigned n).All P :=
  fun _ hs => absurd hs (by simp [strings])

theorem all_array_map {α : Type} {f : α → Json} {l : List α} :
    (Json.array (l.map f)).All P ↔ ∀ x ∈ l, (f x).All P := by
  unfold All
  rw [strings]
  induction l with
  | nil => simp [elemStrings]
  | cons x l ih => rw [List.map_cons, elemStrings, List.forall_mem_append, ih, List.forall_mem_cons]

end Json

/-! ## The strings of a response -/

/-- The strings that go into the object of a derivation are UTF-8. -/
structure Drv.Utf8Texts (X : StorePaths) (drv : Drv) : Prop where
  name : Utf8 drv.name
  storeDir : Utf8 drv.storeDir
  system : Utf8 drv.system
  drvPath : Utf8 (X.printStorePath drv.storeDir drv.drvPath)
  /-- An output without a known path is printed as `null` and adds its name only. -/
  outputs : ∀ e ∈ drv.outputs.toList, Utf8 e.1 ∧
    ∀ path ∈ e.2, Utf8 (X.printStorePath drv.storeDir path)
  meta_ : ∀ value ∈ drv.meta_, value.All Utf8
  inputDrvs : ∀ inputDrvs ∈ drv.inputDrvs, ∀ e ∈ inputDrvs.toList,
    Utf8 (X.printStorePath drv.storeDir e.1) ∧ ∀ name ∈ e.2.toList, Utf8 name
  requiredSystemFeatures : ∀ names ∈ drv.requiredSystemFeatures, ∀ name ∈ names.toList, Utf8 name
  constituents : ∀ path ∈ drv.constituents.constituents, Utf8 path
  namedConstituents : ∀ name ∈ drv.constituents.namedConstituents, Utf8 name
  /-- The needed paths are printed only when the cache status is known. -/
  needed : drv.cacheStatus ≠ .unknown → ∀ path ∈ drv.neededBuilds ++ drv.neededSubstitutes,
    Utf8 (X.printStorePath drv.storeDir path)

/-- The strings that go into the part of a response that tells what the attribute is. -/
def Payload.Utf8Texts (X : StorePaths) : Payload → Prop
  | .job drv extraValue => drv.Utf8Texts X ∧ ∀ value ∈ extraValue, value.All Utf8
  | .attrs names => ∀ name ∈ names, Utf8 name
  | .error message _ => Utf8 message

/-- The strings that go into a response are UTF-8. -/
structure Response.Utf8Texts (X : StorePaths) (response : Response) : Prop where
  attr : Utf8 response.attr
  attrPath : ∀ name ∈ response.attrPath, Utf8 name
  payload : response.payload.Utf8Texts X
  warnings : ∀ text ∈ response.warnings, Utf8 text
  traces : ∀ text ∈ response.traces, Utf8 text

/-- Store paths are printed as the store directory and the base name. -/
def StorePaths.PrintsInjective (X : StorePaths) : Prop :=
  ∀ storeDir, Function.Injective (X.printStorePath storeDir)

/-- The printer of the concrete runs is injective. -/
theorem StorePaths.plain_printsInjective : StorePaths.plain.PrintsInjective :=
  fun _ _ _ h => List.append_cancel_left h

namespace Drv

variable {X : StorePaths}

/-- The strings of the printed outputs; an empty map is printed as `null`, which adds none. -/
theorem all_outputsJson (drv : Drv) : (drv.outputsJson X).All Utf8 ↔
    ∀ e ∈ drv.outputs.toList, Utf8 e.1 ∧
      ∀ path ∈ e.2, Utf8 (X.printStorePath drv.storeDir path) := by
  have hmembers : (drv.outputsJson X).All Utf8 ↔
      (Fields.ofMap id (drv.outputJson X) drv.outputs).All Utf8 := by
    unfold outputsJson
    cases Fields.ofMap id (drv.outputJson X) drv.outputs with
    | nil => exact ⟨fun _ => Fields.all_nil, fun _ => Json.all_null⟩
    | cons e rest => exact Iff.rfl
  rw [hmembers, Fields.all_ofMap Function.injective_id]
  refine forall₂_congr fun e _ => and_congr_right fun _ => ?_
  match e.2 with
  | none => simp [outputJson]
  | some path => simp [outputJson, printPath]

/-- The strings of the printed input derivations. -/
theorem all_inputDrvsJson (hX : X.PrintsInjective) (drv : Drv)
    (inputDrvs : StdMap StorePath (StdSet Str)) : (drv.inputDrvsJson X inputDrvs).All Utf8 ↔
    ∀ e ∈ inputDrvs.toList, Utf8 (X.printStorePath drv.storeDir e.1) ∧
      ∀ name ∈ e.2.toList, Utf8 name := by
  -- two input derivations never share a key, since store paths print apart
  unfold inputDrvsJson
  rw [Json.all_object, Fields.all_ofMap (hX drv.storeDir)]
  simp

/-- The strings of the three members about constituents; `globConstituents` is a Boolean. -/
theorem all_constituents {val : Constituents} :
    val.toFields.All Utf8 ↔ (∀ s ∈ val.constituents, Utf8 s) ∧
      ∀ s ∈ val.namedConstituents, Utf8 s := by
  constructor
  · intro h
    have hw := Constituents.writtenIn_toFields val
    -- what the codec says was written is read off
    exact ⟨Json.all_ofStrings.mp (h.get hw.constituents).2,
      Json.all_ofStrings.mp (h.get hw.namedConstituents).2⟩
  · rintro ⟨hpaths, hnames⟩
    -- the members are written in the order of the source, on fixed keys
    exact ((Fields.all_nil.set (utf8_lit (by decide)) (Json.all_ofStrings.mpr hpaths)).set
      (utf8_lit (by decide)) (Json.all_ofStrings.mpr hnames)).set (utf8_lit (by decide))
      Json.all_bool

/-- The strings of the cache fields: besides the fixed texts of the status they are the
needed store paths, and there are none without a status. -/
theorem all_cacheFields (drv : Drv) : (drv.cacheFields X).All Utf8 ↔
    (drv.cacheStatus ≠ .unknown → ∀ path ∈ drv.neededBuilds ++ drv.neededSubstitutes,
      Utf8 (X.printStorePath drv.storeDir path)) := by
  have hpaths : ∀ paths : List StorePath,
      (Json.array (paths.map (drv.printPath X))).All Utf8 ↔
        ∀ path ∈ paths, Utf8 (X.printStorePath drv.storeDir path) := by
    intro paths
    rw [Json.all_array_map]
    simp [printPath]
  -- without a cache status nothing is written
  by_cases hstatus : drv.cacheStatus = .unknown
  · unfold cacheFields
    rw [if_pos hstatus]
    exact ⟨fun _ hc => absurd hstatus hc, fun _ => Fields.all_nil⟩
  · have htext : Utf8 (cacheStatusText drv.cacheStatus) := by
      cases drv.cacheStatus <;> exact utf8_lit (by decide)
    constructor
    · intro h _
      -- both arrays can be read back, their strings are the printed paths
      obtain ⟨-, hbuilds, hsubstitutes⟩ := get_cacheFields (X := X) drv hstatus
      exact List.forall_mem_append.mpr
        ⟨(hpaths _).mp (h.get hbuilds).2, (hpaths _).mp (h.get hsubstitutes).2⟩
    · intro h
      obtain ⟨hbuilds, hsubstitutes⟩ := List.forall_mem_append.mp (h hstatus)
      unfold cacheFields
      rw [if_neg hstatus]
      exact (((Fields.all_nil.set (utf8_lit (by decide)) Json.all_bool).set (utf8_lit (by decide))
        (Json.all_string.mpr htext)).set (utf8_lit (by decide)) ((hpaths _).mpr hbuilds)).set
        (utf8_lit (by decide)) ((hpaths _).mpr hsubstitutes)

/-- An object that holds the members of a derivation holds its strings. -/
theorem utf8Texts_of_writtenIn (hX : X.PrintsInjective) {drv : Drv} {json : Fields}
    (hw : drv.WrittenIn X json) (h : json.All Utf8) : drv.Utf8Texts X := by
  have hconstituents := hw.constituents
  -- member by member, in the order of the structure: each is read back with `get`
  refine ⟨?_, ?_, ?_, ?_, ?_, fun v hv => ?_, fun v hv => ?_, fun v hv => ?_, ?_, ?_,
    fun hstatus => ?_⟩
  · exact Json.all_string.mp (h.get hw.name).2
  · exact Json.all_string.mp (h.get hw.storeDir).2
  · exact Json.all_string.mp (h.get hw.system).2
  · exact Json.all_string.mp (h.get hw.drvPath).2
  · exact drv.all_outputsJson.mp (h.get hw.outputs).2
  · exact (h.get (hw.meta_.trans hv)).2
  · have hget := hw.inputDrvs
    rw [hv] at hget
    exact (all_inputDrvsJson hX drv v).mp (h.get hget).2
  · have hget := hw.requiredSystemFeatures
    rw [hv] at hget
    exact Json.all_ofStringSet.mp (h.get hget).2
  · exact Json.all_ofStrings.mp (h.get hconstituents.constituents).2
  · exact Json.all_ofStrings.mp (h.get hconstituents.namedConstituents).2
  · obtain ⟨-, hbuilds, hsubstitutes⟩ := get_cacheFields (X := X) drv hstatus
    have hb := (h.get (hw.neededBuilds.trans hbuilds)).2
    have hs := (h.get (hw.neededSubstitutes.trans hsubstitutes)).2
    rw [Json.all_array_map] at hb hs
    exact List.forall_mem_append.mpr
      ⟨fun p hp => Json.all_string.mp (hb p hp), fun p hp => Json.all_string.mp (hs p hp)⟩

/-- The encoder adds no string that is not UTF-8. -/
theorem Utf8Texts.toFields (hX : X.PrintsInjective) {drv : Drv} (h : drv.Utf8Texts X) :
    (drv.toFields X).All Utf8 := by
  -- the derivation's own members, then the constituents, then the cache fields
  refine Fields.All.update (Fields.All.update ?_ ?_) (drv.all_cacheFields.mpr h.needed)
  · refine Fields.All.setOpt (Fields.All.setOpt (Fields.All.setOpt ?_ (utf8_lit (by decide))
      h.meta_) (utf8_lit (by decide)) fun v hv => ?_) (utf8_lit (by decide)) fun v hv => ?_
    · exact ((((Fields.all_nil.set (utf8_lit (by decide)) (Json.all_string.mpr h.name)).set
        (utf8_lit (by decide)) (Json.all_string.mpr h.storeDir)).set (utf8_lit (by decide))
        (Json.all_string.mpr h.system)).set (utf8_lit (by decide))
        (Json.all_string.mpr h.drvPath)).set (utf8_lit (by decide))
        (drv.all_outputsJson.mpr h.outputs)
    · obtain ⟨inputDrvs, hi, rfl⟩ := Option.map_eq_some_iff.mp hv
      exact (all_inputDrvsJson hX drv inputDrvs).mpr (h.inputDrvs inputDrvs hi)
    · obtain ⟨names, hn, rfl⟩ := Option.map_eq_some_iff.mp hv
      exact Json.all_ofStringSet.mpr (h.requiredSystemFeatures names hn)
  · exact all_constituents.mpr ⟨h.constituents, h.namedConstituents⟩

end Drv

namespace Response

variable {X : StorePaths}

/-- Warnings and traces are left out when there are none, which loses no string. -/
theorem all_unlessEmpty {ss : List Str} :
    (∀ v ∈ unlessEmpty ss, Json.All Utf8 v) ↔ ∀ s ∈ ss, Utf8 s := by
  unfold unlessEmpty
  match ss with
  | [] => simp
  | s :: ss => simp

/-- **A response is UTF-8 exactly when the strings that go into it are.** -/
theorem utf8_iff (hX : X.PrintsInjective) (response : Response) :
    (response.toJson X).All Utf8 ↔ response.Utf8Texts X := by
  unfold toJson
  rw [Json.all_object]
  constructor
  · intro h
    -- the header's members can be read back whatever the payload wrote after them
    have hheader := headerWrittenIn_toFields (X := X) response
    refine ⟨Json.all_string.mp (h.get hheader.attr).2,
      Json.all_ofStrings.mp (h.get hheader.attrPath).2, ?_,
      all_unlessEmpty.mp fun v hv => (h.get (hheader.warnings.trans hv)).2,
      all_unlessEmpty.mp fun v hv => (h.get (hheader.traces.trans hv)).2⟩
    -- and so can the payload's, whose keys the header does not use
    cases hp : response.payload with
    | job drv extraValue =>
      exact ⟨Drv.utf8Texts_of_writtenIn hX (writtenIn_toFields_job hp) h,
        fun v hv => (h.get ((get_extraValue hp).trans hv)).2⟩
    | attrs names => exact Json.all_ofStrings.mp (h.get (get_attrs hp)).2
    | error message fatal => exact Json.all_string.mp (h.get (get_error hp).2.1).2
  · rintro ⟨hattr, hattrPath, hpayload, hwarnings, htraces⟩
    -- statistics are numbers under fixed keys
    have hstats : ∀ v ∈ response.stats.map Stats.toJson, Json.All Utf8 v := by
      intro v hv
      obtain ⟨stats, -, rfl⟩ := Option.map_eq_some_iff.mp hv
      exact (Fields.all_nil.set (utf8_lit (by decide)) Json.all_unsigned).set
        (utf8_lit (by decide)) Json.all_unsigned
    -- the header, whatever comes after it
    have hres : (((Fields.set (Fields.set [] (lit "attr") (.string response.attr))
        (lit "attrPath") (.ofStrings response.attrPath)).setOpt (lit "warnings")
        (unlessEmpty response.warnings)).setOpt (lit "traces")
        (unlessEmpty response.traces)).setOpt (lit "stats") (response.stats.map Stats.toJson)
        |>.All Utf8 :=
      ((((Fields.all_nil.set (utf8_lit (by decide)) (Json.all_string.mpr hattr)).set
        (utf8_lit (by decide)) (Json.all_ofStrings.mpr hattrPath)).setOpt (utf8_lit (by decide))
        (all_unlessEmpty.mpr hwarnings)).setOpt (utf8_lit (by decide))
        (all_unlessEmpty.mpr htraces)).setOpt (utf8_lit (by decide)) hstats
    unfold toFields
    cases hp : response.payload with
    | job drv extraValue =>
      rw [hp] at hpayload
      exact (hres.update (hpayload.1.toFields hX)).setOpt (utf8_lit (by decide)) hpayload.2
    | attrs names =>
      rw [hp] at hpayload
      exact hres.set (utf8_lit (by decide)) (Json.all_ofStrings.mpr hpayload)
    | error message fatal =>
      rw [hp] at hpayload
      exact (hres.set (utf8_lit (by decide)) (Json.all_string.mpr hpayload)).set
        (utf8_lit (by decide)) Json.all_bool

end Response

end NixEvalJobs
