import NixEvalJobs.Basic

/-!
# nix-eval-jobs — JSON values

`nlohmann::json` as the program uses it: a value is one of eight kinds, an
object is a `std::map` (its members are kept in key order), and the readers of
`nix/util/json-utils.hh` check the kind before they give the value back.

A `nix::Error` raised by a reader is `Error.nixLib`, a type error raised by
nlohmann itself is `Error.json`; `parseResponse` treats the two differently.

The printing and parsing of store paths is third-party code and stays a parameter
(`StorePaths`).
-/

namespace NixEvalJobs

/-- `nlohmann::json`. Floats are kept as their bits, nothing looks inside. -/
inductive Json where
  | null
  | bool (b : Bool)
  | unsigned (n : UInt64)
  | integer (i : Int64)
  | float (bits : UInt64)
  | string (s : Str)
  | array (elems : List Json)
  | object (fields : List (Str × Json))

/-- `json::object_t`, members in key order. -/
abbrev Fields := List (Str × Json)

namespace Fields

/-- `nix::get`: the member, if the object has the key. -/
def get (fields : Fields) (key : Str) : Option Json := fields.lookup key

/-- `res[key] = value`. -/
def set : Fields → Str → Json → Fields
  | [], key, value => [(key, value)]
  | (k, v) :: rest, key, value =>
    if key = k then (key, value) :: rest
    else if key < k then (key, value) :: (k, v) :: rest
    else (k, v) :: set rest key value

/-- `if (value) res[key] = *value`. -/
def setOpt (fields : Fields) (key : Str) : Option Json → Fields
  | some value => fields.set key value
  | none => fields

/-- `res.update(other)`: the members of `other` win. -/
def update (fields other : Fields) : Fields :=
  other.foldr (fun e acc => acc.set e.1 e.2) fields

/-- `res.erase(key)`. -/
def erase (fields : Fields) (key : Str) : Fields := fields.filter fun e => e.1 ≠ key

/-- After an assignment the object is not empty. -/
theorem set_ne_nil (fields : Fields) (key : Str) (value : Json) : fields.set key value ≠ [] := by
  cases fields with
  | nil => simp [set]
  | cons e rest => rw [set]; split <;> [skip; split] <;> simp

@[simp] theorem get_nil (key : Str) : Fields.get [] key = none := rfl

/-- Looking a key up in a non-empty object. -/
theorem get_cons (k : Str) (v : Json) (rest : Fields) (key : Str) :
    Fields.get ((k, v) :: rest) key = if key = k then some v else Fields.get rest key := by
  rw [Fields.get, List.lookup_cons]
  by_cases h : key = k
  · simp [h]
  · rw [beq_eq_false_iff_ne.mpr h, if_neg h]
    rfl

/-- What an assignment changes is its own key. -/
theorem get_set (fields : Fields) (key : Str) (value : Json) (key' : Str) :
    (fields.set key value).get key' = if key' = key then some value else fields.get key' := by
  induction fields with
  | nil => rw [set, get_cons]
  | cons e rest ih =>
    obtain ⟨k, v⟩ := e
    rw [set]
    -- the key was there, it goes in front of this member, or it goes further back
    split
    · next h => subst h; rw [get_cons, get_cons]; split <;> rfl
    · next h =>
      split
      · rw [get_cons]
      · rw [get_cons, get_cons, ih]
        by_cases hk : key' = k
        · rw [if_pos hk, if_pos hk, if_neg fun hc : key' = key => h (hc.symm.trans hk)]
        · rw [if_neg hk, if_neg hk]

@[simp] theorem get_set_self (fields : Fields) (key : Str) (value : Json) :
    (fields.set key value).get key = some value := by
  rw [get_set, if_pos rfl]

/-- Other keys read as before. -/
theorem get_set_ne {key key' : Str} (h : key' ≠ key) (fields : Fields) (value : Json) :
    (fields.set key value).get key' = fields.get key' := by
  rw [get_set, if_neg h]

/-- An optional member is written or left as it was. -/
theorem get_setOpt (fields : Fields) (key : Str) (value : Option Json) (key' : Str) :
    (fields.setOpt key value).get key' =
      if key' = key then value.or (fields.get key') else fields.get key' := by
  cases value with
  | none => rw [setOpt]; simp
  | some value => rw [setOpt, get_set]; rfl

/-- Other keys read as before. -/
theorem get_setOpt_ne {key key' : Str} (h : key' ≠ key) (fields : Fields)
    (value : Option Json) : (fields.setOpt key value).get key' = fields.get key' := by
  rw [get_setOpt, if_neg h]

/-- Its own key reads as the value, if there is one. -/
theorem get_setOpt_self (fields : Fields) (key : Str) (value : Option Json) :
    (fields.setOpt key value).get key = value.or (fields.get key) := by
  rw [get_setOpt, if_pos rfl]

/-- The members of the second object win. -/
theorem get_update (fields other : Fields) (key : Str) :
    (fields.update other).get key = (other.get key).or (fields.get key) := by
  induction other with
  | nil => rfl
  | cons e other ih =>
    obtain ⟨k, v⟩ := e
    rw [show fields.update ((k, v) :: other) = (fields.update other).set k v from rfl,
      get_set, get_cons, ih]
    split <;> simp

/-- An erased key is gone, the others stay. -/
theorem get_erase (fields : Fields) (key key' : Str) :
    (fields.erase key).get key' = if key' = key then none else fields.get key' := by
  induction fields with
  | nil => simp [erase]
  | cons e rest ih =>
    obtain ⟨k, v⟩ := e
    rw [erase, List.filter_cons]
    rw [erase] at ih
    -- this member is the erased one, or it stays
    by_cases hk : k = key
    · subst hk
      rw [if_neg (by simp), ih, get_cons]
      split <;> rfl
    · rw [if_pos (by simpa using hk), get_cons, get_cons, ih]
      by_cases hk' : key' = k
      · rw [if_pos hk', if_pos hk', if_neg (hk' ▸ hk)]
      · rw [if_neg hk', if_neg hk']

/-! ### Objects that hold a `std::map` -/

section Maps

variable {K V : Type} [Ord K] [Std.TransOrd K]

/-- `for (const auto &[key, value] : map) obj[encode(key)] = encode(value)`. -/
def ofMap (encodeKey : K → Str) (encode : V → Json) (m : StdMap K V) : Fields :=
  m.toList.foldl (fun (fields : Fields) e => fields.set (encodeKey e.1) (encode e.2)) []

/-- `for (const auto &[key, value] : obj) map.emplace(decode(key), decode(value))`;
`emplace` keeps the first entry of a key. -/
def toMap (decodeKey : Str → Except Error K) (decode : Json → Except Error V)
    (fields : Fields) : Except Error (StdMap K V) :=
  fields.foldlM (fun m e => return m.insertIfNew (← decodeKey e.1) (← decode e.2)) ∅

/-- Only an empty map prints as an object without members. -/
theorem ofMap_eq_nil [Std.LawfulEqOrd K] {encodeKey : K → Str} {encode : V → Json}
    {m : StdMap K V} : ofMap encodeKey encode m = [] ↔ m = ∅ := by
  -- a member, once set, stays
  have hne : ∀ (l : List (K × V)) (fields : Fields), fields ≠ [] →
      l.foldl (fun (fields : Fields) e => fields.set (encodeKey e.1) (encode e.2)) fields ≠ [] := by
    intro l
    induction l with
    | nil => exact fun _ h => h
    | cons e l ih => exact fun fields _ => ih _ (set_ne_nil _ _ _)
  constructor
  · intro h
    rw [← Std.ExtTreeMap.toList_eq_nil_iff]
    cases hl : m.toList with
    | nil => rfl
    | cons e l =>
      rw [ofMap, hl, List.foldl_cons] at h
      exact absurd h (hne l _ (set_ne_nil _ _ _))
  · rintro rfl
    rfl

omit [Ord K] [Std.TransOrd K] in
/-- Setting a fresh key inserts one member and keeps the others. -/
theorem exists_perm_set {f : K × V → Str × Json} (l : List (K × V)) (e : K × V)
    (hFresh : ∀ x ∈ l, (f x).1 ≠ (f e).1) :
    ∃ l' : List (K × V), l'.Perm (e :: l) ∧ Fields.set (l.map f) (f e).1 (f e).2 = l'.map f := by
  induction l with
  | nil => exact ⟨[e], .refl _, rfl⟩
  | cons x l ih =>
    rw [List.map_cons, set, if_neg (hFresh x (List.mem_cons_self ..)).symm]
    -- in front of this member, or further back by induction
    split
    · exact ⟨e :: x :: l, .refl _, rfl⟩
    · obtain ⟨l', hperm, heq⟩ := ih fun y hy => hFresh y (List.mem_cons_of_mem _ hy)
      refine ⟨x :: l', (hperm.cons x).trans (.swap e x l), ?_⟩
      rw [heq, List.map_cons]

omit [Ord K] [Std.TransOrd K] in
/-- The object built from entries with distinct keys holds exactly these entries. -/
theorem exists_perm_foldl_set {f : K × V → Str × Json} (l done : List (K × V))
    (hDistinct : (done ++ l).Pairwise fun x y => (f x).1 ≠ (f y).1) :
    ∃ l' : List (K × V), l'.Perm (done ++ l) ∧
      l.foldl (fun (fields : Fields) e => fields.set (f e).1 (f e).2) (done.map f) =
        l'.map f := by
  induction l generalizing done with
  | nil => exact ⟨done, by simp, rfl⟩
  | cons e l ih =>
    have hFresh : ∀ x ∈ done, (f x).1 ≠ (f e).1 := fun x hx =>
      (List.pairwise_append.mp hDistinct).2.2 x hx e (List.mem_cons_self ..)
    obtain ⟨done', hperm, heq⟩ := exists_perm_set done e hFresh
    -- moving `e` to the processed entries only permutes the whole
    have hmove : (done' ++ l).Perm (done ++ e :: l) :=
      (hperm.append_right l).trans List.perm_middle.symm
    obtain ⟨l', hperm', heq'⟩ := ih done' (hDistinct.perm hmove.symm fun h => h.symm)
    refine ⟨l', hperm'.trans hmove, ?_⟩
    rw [List.foldl_cons, heq, heq']

variable [Std.LawfulEqOrd K]

/-- Emplacing entries one after the other keeps the first one of each key. -/
theorem getElem?_foldl_insertIfNew (l : List (K × V)) (m : StdMap K V) (k : K) (v : V)
    (hDistinct : l.Pairwise fun x y => x.1 ≠ y.1) :
    (l.foldl (fun m e => m.insertIfNew e.1 e.2) m)[k]? = some v ↔
      m[k]? = some v ∨ (m[k]? = none ∧ (k, v) ∈ l) := by
  induction l generalizing m with
  | nil => simp
  | cons e l ih =>
    obtain ⟨hHead, hTail⟩ := List.pairwise_cons.mp hDistinct
    rw [List.foldl_cons, ih _ hTail, Std.ExtTreeMap.getElem?_insertIfNew]
    by_cases hk : e.1 = k
    · subst hk
      have hnot : (e.1, v) ∉ l := fun hmem => hHead _ hmem rfl
      by_cases hm : e.1 ∈ m
      · simp [hm]
      · have hpair : (e.1, v) = e ↔ e.2 = v := by
          rw [Prod.ext_iff]
          exact ⟨fun h => h.2.symm, fun h => ⟨rfl, h.symm⟩⟩
        simp [hm, hnot, hpair]
    · have hne : (k, v) ≠ e := fun h => hk (by rw [← h])
      simp [hk, hne]

/-- **Decoding an encoded map gives the map back.** -/
theorem toMap_ofMap {encodeKey : K → Str} {encode : V → Json}
    {decodeKey : Str → Except Error K} {decode : Json → Except Error V}
    (m : StdMap K V) (hKey : ∀ k ∈ m, decodeKey (encodeKey k) = .ok k)
    (hValue : ∀ (k : K) (v : V), m[k]? = some v → decode (encode v) = .ok v) :
    (ofMap encodeKey encode m).toMap decodeKey decode = .ok m := by
  have hDecoded : ∀ {e : K × V}, e ∈ m.toList → decodeKey (encodeKey e.1) = .ok e.1 := fun he =>
    hKey _ (StdMap.mem_of_mem_toList he)
  -- keys that decode differently cannot have been encoded alike
  have hInj : ∀ {x y : K × V}, x ∈ m.toList → y ∈ m.toList →
      encodeKey x.1 = encodeKey y.1 → x.1 = y.1 := fun hx hy h =>
    Except.ok.inj ((hDecoded hx).symm.trans ((congrArg decodeKey h).trans (hDecoded hy)))
  have hNodup : m.toList.Pairwise fun x y => x.1 ≠ y.1 := by
    refine Std.ExtTreeMap.distinct_keys_toList.imp fun h heq => ?_
    exact h (Std.LawfulEqCmp.compare_eq_iff_eq.mpr heq)
  -- the members are a permutation of the encoded entries
  obtain ⟨l, hperm, heq⟩ := exists_perm_foldl_set
    (f := fun e : K × V => (encodeKey e.1, encode e.2)) m.toList []
    (hNodup.imp_of_mem fun hx hy h heq => h (hInj hx hy heq))
  rw [ofMap, show m.toList.foldl _ ([] : Fields) = _ from heq, toMap]
  -- each member is decoded to the entry it came from
  have hdecode : ∀ (l' : List (K × V)) (acc : StdMap K V), (∀ e ∈ l', e ∈ m.toList) →
      (l'.map fun e => (encodeKey e.1, encode e.2)).foldlM
        (fun m e => return m.insertIfNew (← decodeKey e.1) (← decode e.2)) acc =
      (.ok (l'.foldl (fun m e => m.insertIfNew e.1 e.2) acc) : Except Error (StdMap K V)) := by
    intro l'
    induction l' with
    | nil => intro acc _; rfl
    | cons e l' ih =>
      intro acc hmem
      have hv : decode (encode e.2) = .ok e.2 :=
        hValue e.1 e.2 (Std.ExtTreeMap.mem_toList_iff_getElem?_eq_some.mp
          (hmem e (List.mem_cons_self ..)))
      rw [List.map_cons, List.foldlM_cons, hDecoded (hmem e (List.mem_cons_self ..)), hv]
      exact ih _ fun x hx => hmem x (List.mem_cons_of_mem _ hx)
  rw [hdecode l ∅ fun e he => by simpa using hperm.mem_iff.mp he]
  -- the two maps agree at every key, whatever the order of insertion was
  refine congrArg Except.ok (Std.ExtTreeMap.ext_getElem? fun k => Option.ext fun v => ?_)
  have hl : l.Pairwise fun x y => x.1 ≠ y.1 :=
    hNodup.perm (by simpa using hperm.symm) fun h => h.symm
  rw [getElem?_foldl_insertIfNew l ∅ k v hl, hperm.mem_iff, List.nil_append,
    Std.ExtTreeMap.mem_toList_iff_getElem?_eq_some]
  simp

end Maps

end Fields

namespace Json

/-! ## `nix/util/json-utils.hh` and `json::get` -/

/-- `nix::getObject`. -/
def getObject : Json → Except Error Fields
  | .object fields => .ok fields
  | _ => .error .nixLib

/-- `nix::valueAt`. -/
def valueAt (fields : Fields) (key : Str) : Except Error Json :=
  match fields.get key with
  | some value => .ok value
  | none => .error .nixLib

/-- A member that is there is found. -/
theorem valueAt_of_get {fields : Fields} {key : Str} {value : Json}
    (h : fields.get key = some value) : valueAt fields key = .ok value := by
  rw [valueAt, h]

/-- `nix::getString`. -/
def getString : Json → Except Error Str
  | .string s => .ok s
  | _ => .error .nixLib

/-- `nix::getBoolean`. -/
def getBoolean : Json → Except Error Bool
  | .bool b => .ok b
  | _ => .error .nixLib

/-- `nix::getUnsigned`. -/
def getUnsigned : Json → Except Error UInt64
  | .unsigned n => .ok n
  | _ => .error .nixLib

/-- `json::get<std::string>`. -/
def asString : Json → Except Error Str
  | .string s => .ok s
  | _ => .error .json

/-- `json::get<std::vector<std::string>>`. -/
def asStrings : Json → Except Error (List Str)
  | .array elems => elems.mapM asString
  | _ => .error .json

/-- `json::get<std::set<std::string>>`. -/
def asStringSet (j : Json) : Except Error (StdSet Str) :=
  return Std.ExtTreeSet.ofList (← j.asStrings)

/-- `json(std::vector<std::string>)`. -/
def ofStrings (ss : List Str) : Json := .array (ss.map .string)

/-- `json(std::set<std::string>)`. -/
def ofStringSet (ss : StdSet Str) : Json := ofStrings ss.toList

/-- A list of strings is decoded as it was encoded. -/
@[simp] theorem asStrings_ofStrings (ss : List Str) : (ofStrings ss).asStrings = .ok ss := by
  rw [ofStrings, asStrings]
  induction ss with
  | nil => rfl
  | cons s ss ih => rw [List.map_cons, List.mapM_cons, asString, ih]; rfl

/-- So is a set of strings. -/
@[simp] theorem asStringSet_ofStringSet (ss : StdSet Str) :
    (ofStringSet ss).asStringSet = .ok ss := by
  rw [asStringSet, ofStringSet, asStrings_ofStrings]
  refine congrArg Except.ok (Std.ExtTreeSet.ext_mem fun k => ?_)
  rw [Std.ExtTreeSet.mem_ofList, List.contains_eq_mem, decide_eq_true_eq,
    Std.ExtTreeSet.mem_toList]

end Json

/-! ## Third-party code -/

/-- `nix::StoreDirConfig`: `parseStorePath` throws on a path outside the store
directory, and on one whose base name is not a store path's. -/
structure StorePaths where
  /-- The text of a store path, given the store directory. -/
  printStorePath : Str → StorePath → Str
  /-- The store path of a text, if it is one. -/
  parseStorePath : Str → Str → Option StorePath

/-- `storeDirConfig.parseStorePath`. -/
def StorePaths.getStorePath (X : StorePaths) (storeDir path : Str) : Except Error StorePath :=
  match X.parseStorePath storeDir path with
  | some storePath => .ok storePath
  | none => .error .nixLib

/-- Printing and parsing of base names below the store directory. -/
def StorePaths.plain : StorePaths where
  printStorePath storeDir path := storeDir ++ lit "/" ++ path
  parseStorePath storeDir path :=
    if (storeDir ++ lit "/").isPrefixOf path then some (path.drop (storeDir.length + 1)) else none

/-- What `plain` prints it parses back. -/
theorem StorePaths.plain_parse_print (storeDir : Str) (path : StorePath) :
    plain.parseStorePath storeDir (plain.printStorePath storeDir path) = some path := by
  have hlen : (storeDir ++ lit "/").length = storeDir.length + 1 := by
    rw [List.length_append]
    rfl
  have hpre : (storeDir ++ lit "/").isPrefixOf (storeDir ++ lit "/" ++ path) = true := by
    rw [List.isPrefixOf_iff_prefix]
    exact List.prefix_append _ _
  simp only [plain, hpre, if_true]
  rw [← hlen, List.drop_left]

/-! ## Decoding uses nothing undefined -/

namespace Json

variable (j : Json)

/-- The readers check the kind of a value and throw on any other: none of them can run into
undefined behaviour. -/
theorem defined_getObject : Defined j.getObject := by
  cases j <;> intro use h <;> cases h

theorem defined_getString : Defined j.getString := by
  cases j <;> intro use h <;> cases h

theorem defined_getBoolean : Defined j.getBoolean := by
  cases j <;> intro use h <;> cases h

theorem defined_getUnsigned : Defined j.getUnsigned := by
  cases j <;> intro use h <;> cases h

theorem defined_asString : Defined j.asString := by
  cases j <;> intro use h <;> cases h

/-- Each element is checked on its own. -/
theorem defined_asStrings : Defined j.asStrings := by
  cases j with
  | array elems => exact Defined.mapM fun elem _ => defined_asString elem
  | _ => intro use h; cases h

theorem defined_asStringSet : Defined j.asStringSet :=
  j.defined_asStrings.bind fun _ _ => defined_ok _

/-- A missing key throws. -/
theorem defined_valueAt (fields : Fields) (key : Str) : Defined (valueAt fields key) := by
  rw [valueAt]
  split
  · exact defined_ok _
  · exact defined_error (by simp)

end Json

/-- Decoding a map decodes keys and values, nothing else. -/
theorem defined_toMap {K V : Type} [Ord K] [Std.TransOrd K] {decodeKey : Str → Except Error K}
    {decode : Json → Except Error V} (hkey : ∀ key, Defined (decodeKey key))
    (hvalue : ∀ value, Defined (decode value)) (fields : Fields) :
    Defined (fields.toMap decodeKey decode) :=
  Defined.foldlM (fun _ e _ => (hkey e.1).bind fun _ _ => (hvalue e.2).bind fun _ _ =>
    defined_ok _) ∅

/-- A path that does not parse throws. -/
theorem StorePaths.defined_getStorePath (X : StorePaths) (storeDir path : Str) :
    Defined (X.getStorePath storeDir path) := by
  rw [StorePaths.getStorePath]
  split
  · exact defined_ok _
  · exact defined_error (by simp)

end NixEvalJobs
