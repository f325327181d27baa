import NixEvalJobs.Lib.Utf8

/-!
# nix-eval-jobs — strings, containers and errors

The vocabulary every other module shares: `std::string` is a list of bytes
(Nix strings are arbitrary byte strings, nothing forces them to be UTF-8),
`std::set` and `std::map` are the extensional ordered containers of `Std`
(iteration is in key order, as in C++), and an exception is an `Error` in
`Except`.

Reading through a null pointer or past the end of a container is undefined in
C++. The model gives each such use its own error, `Error.undefined`, so that
"it never happens" is a statement about the model.
-/

namespace NixEvalJobs

/-! ## Strings and containers -/

/-- A byte of a `std::string`; `char_traits<char>` compares bytes unsigned. -/
abbrev Byte := Fin 256

/-- `std::string`: any bytes, ordered lexicographically. -/
abbrev Str := List Byte

/-- An ASCII string literal of the source. -/
def lit (s : String) : Str := s.toList.map fun c => Fin.ofNat 256 c.toNat

/-- `std::to_string`. -/
def decimal (n : Nat) : Str := lit (toString n)

/-- `std::set`. -/
abbrev StdSet (α : Type) [Ord α] := Std.ExtTreeSet α compare

/-- `std::map`. -/
abbrev StdMap (α β : Type) [Ord α] := Std.ExtTreeMap α β compare

/-- Byte strings are ordered, so they can be keys. -/
instance transOrd_str : Std.TransOrd Str := inferInstance

/-- The components of an attribute path, outermost first. -/
abbrev AttrPath := List Str

/-- So are attribute paths. -/
instance transOrd_attrPath : Std.TransOrd AttrPath := inferInstance

/-- `nix::StorePath`: the base name `hash-name`, compared as a string. -/
abbrev StorePath := Str

/-! ## Exceptions -/

/-- Uses that C++ leaves undefined. -/
inductive Undefined where
  | nullProc      -- `w.proc->...` with a null `proc`
  | nullPath      -- a running slot without an attribute path
  | backOfEmpty   -- `back()` of an empty vector
  | nullParent    -- `*parent` with a null `parent`
  | missingKey    -- `find(key)->second` or a const `operator[]` without the key
  | beginOfEmpty  -- `begin()->first` of an empty map
  deriving DecidableEq, Repr

/-- The exceptions the program raises. `nix` is a `nix::Error` raised by the
program itself, with its format string and the arguments the model carries;
the texts of exceptions raised inside libraries are theirs. -/
inductive Error where
  | nix (format : Str) (args : List Str)
  /-- an error raised inside the Nix libraries -/
  | nixLib
  /-- an exception of the json library -/
  | json
  | invalidArgument (what : Str)
  | outOfRange
  | undefined (use : Undefined)
  /-- not an exception: a loop of the model was not given enough steps -/
  | outOfFuel
  deriving DecidableEq, Repr

/-- A value goes on to the rest of the computation. -/
theorem ok_bind {ε α β : Type} (a : α) (f : α → Except ε β) : Except.ok a >>= f = f a := rfl

/-- A computation that ends without an exception has a first part that does. -/
theorem bind_eq_ok {ε α β : Type} {x : Except ε α} {f : α → Except ε β} {b : β} :
    x >>= f = .ok b ↔ ∃ a, x = .ok a ∧ f a = .ok b := by
  cases x with
  | error e =>
    constructor
    · intro h
      cases h
    · rintro ⟨a, h, -⟩
      cases h
  | ok a =>
    constructor
    · intro h
      exact ⟨a, rfl, h⟩
    · rintro ⟨a', h, hf⟩
      cases h
      exact hf

/-- An exception comes from the first part, or from the rest after it. -/
theorem bind_eq_error {ε α β : Type} {x : Except ε α} {f : α → Except ε β} {e : ε} :
    x >>= f = .error e ↔ x = .error e ∨ ∃ a, x = .ok a ∧ f a = .error e := by
  cases x with
  | error e' =>
    refine ⟨fun h => .inl (congrArg Except.error (Except.error.inj h)), ?_⟩
    rintro (h | ⟨a, h, -⟩)
    · cases h
      rfl
    · cases h
  | ok a =>
    refine ⟨fun h => .inr ⟨a, rfl, h⟩, ?_⟩
    rintro (h | ⟨a', h, hf⟩)
    · cases h
    · cases h
      exact hf

/-- A value is the result of a computation that does not throw. -/
theorem eq_ok_of_toOption {ε α : Type} {x : Except ε α} {a : α} (h : x.toOption = some a) :
    x = .ok a := by
  cases x with
  | error e => cases h
  | ok b => exact congrArg Except.ok (Option.some.inj h)

/-- **The rule for a loop**: what relates the states before and after each step, and
composes, relates the states before and after the loop. -/
theorem foldlM_related {ε α σ : Type} {f : σ → α → Except ε σ} {R : σ → σ → Prop}
    (refl : ∀ s, R s s) (trans : ∀ {s m s'}, R s m → R m s' → R s s') {xs : List α}
    (step : ∀ {s s'} x, x ∈ xs → f s x = .ok s' → R s s') {s s' : σ}
    (h : xs.foldlM f s = .ok s') : R s s' := by
  induction xs generalizing s with
  | nil =>
    cases Except.ok.inj h
    exact refl _
  -- the first step, composed with the loop over the others
  | cons x xs ih =>
    rw [List.foldlM_cons] at h
    obtain ⟨m, hm, hrest⟩ := bind_eq_ok.mp h
    exact trans (step x (List.mem_cons_self ..) hm)
      (ih (fun x' hx => step x' (List.mem_cons_of_mem _ hx)) hrest)

/-- An exception of a loop is one of a step, in a state that the steps before led to. -/
theorem foldlM_error {ε α σ : Type} {f : σ → α → Except ε σ} {P : σ → Prop} {xs : List α}
    (step : ∀ {s s'} x, x ∈ xs → P s → f s x = .ok s' → P s') {s : σ} {e : ε} (hs : P s)
    (h : xs.foldlM f s = .error e) : ∃ x ∈ xs, ∃ s, P s ∧ f s x = .error e := by
  induction xs generalizing s with
  | nil => cases h
  | cons x xs ih =>
    rw [List.foldlM_cons] at h
    -- the first step throws, or a later one does
    rcases bind_eq_error.mp h with hx | ⟨s', hx, hrest⟩
    · exact ⟨x, List.mem_cons_self .., s, hs, hx⟩
    · obtain ⟨y, hy, t, ht, hyt⟩ := ih (fun x' hx' => step x' (List.mem_cons_of_mem _ hx'))
        (step x (List.mem_cons_self ..) hs hx) hrest
      exact ⟨y, List.mem_cons_of_mem _ hy, t, ht, hyt⟩

/-- **The rule for a loop with what it has done so far**: an invariant of the elements
before and the state that each step extends by its element. -/
theorem foldlM_prefix {ε α σ : Type} {f : σ → α → Except ε σ} {I : List α → σ → Prop}
    {xs : List α} (step : ∀ {before x after s s'}, xs = before ++ x :: after → I before s →
      f s x = .ok s' → I (before ++ [x]) s')
    {s s' : σ} (hs : I [] s) (h : xs.foldlM f s = .ok s') : I xs s' := by
  -- the elements still to come are a suffix of the list
  have hrun : ∀ {rest before s}, xs = before ++ rest → I before s → rest.foldlM f s = .ok s' →
      I xs s' := by
    intro rest
    induction rest with
    | nil =>
      intro before s hsplit hs h
      obtain rfl := Except.ok.inj h
      rw [hsplit, List.append_nil]
      exact hs
    | cons x rest ih =>
      intro before s hsplit hs h
      rw [List.foldlM_cons] at h
      obtain ⟨m, hm, hrest⟩ := bind_eq_ok.mp h
      refine ih ?_ (step hsplit hs hm) hrest
      rw [hsplit, List.append_assoc, List.singleton_append]
  exact hrun rfl hs h

/-- **The rule for a loop that ends without an exception**: every step does, in a state
that satisfies an invariant, and keeps it. -/
theorem foldlM_ok {ε α σ : Type} {f : σ → α → Except ε σ} {P : σ → Prop} {xs : List α}
    (step : ∀ {s} x, x ∈ xs → P s → ∃ s', f s x = .ok s' ∧ P s') {s : σ} (hs : P s) :
    ∃ s', xs.foldlM f s = .ok s' ∧ P s' := by
  induction xs generalizing s with
  | nil => exact ⟨s, rfl, hs⟩
  | cons x xs ih =>
    obtain ⟨m, hm, hP⟩ := step x (List.mem_cons_self ..) hs
    obtain ⟨s', hrest, hP'⟩ := ih (fun x' hx' => step x' (List.mem_cons_of_mem _ hx')) hP
    refine ⟨s', ?_, hP'⟩
    rw [List.foldlM_cons]
    exact bind_eq_ok.mpr ⟨m, hm, hrest⟩

/-! ## Defined computations -/

/-- The computation uses nothing that C++ leaves undefined. -/
def Defined {α : Type} (x : Except Error α) : Prop := ∀ use, x ≠ .error (.undefined use)

section Defined

variable {α β σ : Type}

/-- A value is defined. -/
theorem defined_ok (a : α) : Defined (.ok a) := by
  intro use h
  cases h

/-- So is every exception but an undefined use. -/
theorem defined_error {e : Error} (h : ∀ use, e ≠ .undefined use) :
    Defined (.error e : Except Error α) := by
  intro use he
  exact h use (Except.error.inj he)

/-- A computation is defined if its parts are. -/
theorem Defined.bind {x : Except Error α} {f : α → Except Error β} (hx : Defined x)
    (hf : ∀ a, x = .ok a → Defined (f a)) : Defined (x >>= f) := by
  intro use h
  rcases bind_eq_error.mp h with herror | ⟨a, ha, herror⟩
  · exact hx use herror
  · exact hf a ha use herror

/-- A function of the result changes nothing. -/
theorem Defined.map {x : Except Error α} (hx : Defined x) (f : α → β) : Defined (f <$> x) := by
  rw [map_eq_pure_bind]
  exact hx.bind fun a _ => defined_ok (f a)

/-- A loop is defined if its steps are. -/
theorem Defined.foldlM {f : σ → α → Except Error σ} {xs : List α}
    (hf : ∀ s, ∀ x ∈ xs, Defined (f s x)) (s : σ) : Defined (xs.foldlM f s) := by
  induction xs generalizing s with
  | nil => exact defined_ok s
  | cons x xs ih =>
    rw [List.foldlM_cons]
    refine (hf s x (List.mem_cons_self ..)).bind fun s' _ => ?_
    exact ih (fun s y hy => hf s y (List.mem_cons_of_mem _ hy)) s'

/-- So is one that collects results. -/
theorem Defined.mapM {f : α → Except Error β} {xs : List α} (hf : ∀ x ∈ xs, Defined (f x)) :
    Defined (xs.mapM f) := by
  induction xs with
  | nil => exact defined_ok []
  | cons x xs ih =>
    rw [List.mapM_cons]
    refine (hf x (List.mem_cons_self ..)).bind fun y _ => ?_
    exact (ih fun z hz => hf z (List.mem_cons_of_mem _ hz)).bind fun ys _ => defined_ok _

end Defined

/-! ## Ordered containers -/

/-- `*set.begin()`, if there is one. -/
def StdSet.first {α : Type} [Ord α] [Std.TransOrd α] (s : StdSet α) : Option α := s.toList.head?

/-- The first element is an element. -/
theorem StdSet.mem_of_first {α : Type} [Ord α] [Std.TransOrd α] [Std.LawfulEqOrd α]
    {s : StdSet α} {a : α} (h : s.first = some a) : a ∈ s :=
  Std.ExtTreeSet.mem_toList.mp (List.mem_of_mem_head? h)

/-- A set lists each element once. -/
theorem StdSet.nodup_toList {α : Type} [Ord α] [Std.TransOrd α] (s : StdSet α) :
    s.toList.Nodup :=
  s.distinct_toList.imp Std.ReflCmp.ne_of_cmp_ne_eq

/-- Only an empty set has no first element. -/
theorem StdSet.first_eq_none {α : Type} [Ord α] [Std.TransOrd α] {s : StdSet α} :
    s.first = none ↔ s.isEmpty = true := by
  rw [first, List.head?_eq_none_iff, ← Std.ExtTreeSet.isEmpty_toList, List.isEmpty_iff]

/-- Erasing an element makes the set smaller by one. -/
theorem StdSet.size_erase_of_mem {α : Type} [Ord α] [Std.TransOrd α] {s : StdSet α} {a : α}
    (h : a ∈ s) : (s.erase a).size + 1 = s.size := by
  have hcontains : s.contains a = true := h
  have hpos : s.size ≠ 0 := by
    rw [ne_eq, ← Std.ExtTreeSet.eq_empty_iff_size_eq_zero]
    rintro rfl
    exact absurd h Std.ExtTreeSet.not_mem_empty
  rw [Std.ExtTreeSet.size_erase, if_pos hcontains]
  omega

/-- Inserting the images of a list's elements one after the other. -/
theorem StdSet.mem_foldl_insert {α γ : Type} [Ord α] [Std.TransOrd α] [Std.LawfulEqOrd α]
    (f : γ → α) (xs : List γ) (s : StdSet α) (b : α) :
    b ∈ xs.foldl (fun s x => s.insert (f x)) s ↔ b ∈ s ∨ ∃ x ∈ xs, f x = b := by
  induction xs generalizing s with
  | nil => simp
  | cons x xs ih =>
    rw [List.foldl_cons, ih, Std.ExtTreeSet.mem_insert, Std.LawfulEqCmp.compare_eq_iff_eq]
    simp only [List.mem_cons, exists_eq_or_imp]
    tauto

/-- A key is in a map if it has a value. -/
theorem StdMap.mem_iff_exists {α β : Type} [Ord α] [Std.TransOrd α] {m : StdMap α β} {a : α} :
    a ∈ m ↔ ∃ b, m[a]? = some b := by
  rw [Std.ExtTreeMap.mem_iff_isSome_getElem?, Option.isSome_iff_exists]

/-- A key is not in a map if it has none. -/
theorem StdMap.not_mem_iff {α β : Type} [Ord α] [Std.TransOrd α] {m : StdMap α β} {a : α} :
    a ∉ m ↔ m[a]? = none := by
  rw [mem_iff_exists, ← Option.isSome_iff_exists, Option.not_isSome_iff_eq_none]

/-- The keys of the listed entries are keys of the map. -/
theorem StdMap.mem_of_mem_toList {α β : Type} [Ord α] [Std.TransOrd α] [Std.LawfulEqOrd α]
    {m : StdMap α β} {e : α × β} (h : e ∈ m.toList) : e.1 ∈ m :=
  mem_iff_exists.mpr ⟨e.2, Std.ExtTreeMap.mem_toList_iff_getElem?_eq_some.mp h⟩

/-- Inserting entries with different keys one after the other. -/
theorem StdMap.getElem?_foldl_insert {α β γ : Type} [Ord α] [Std.TransOrd α] [Std.LawfulEqOrd α]
    {key : γ → α} {value : γ → β} {xs : List γ} (hnodup : (xs.map key).Nodup) (m : StdMap α β)
    (a : α) (b : β) : (xs.foldl (fun m x => m.insert (key x) (value x)) m)[a]? = some b ↔
      (∃ x ∈ xs, key x = a ∧ value x = b) ∨ (∀ x ∈ xs, key x ≠ a) ∧ m[a]? = some b := by
  induction xs generalizing m with
  | nil => simp
  | cons x xs ih =>
    obtain ⟨hhead, htail⟩ := List.nodup_cons.mp hnodup
    have hcompare : compare (key x) a = .eq ↔ key x = a := Std.LawfulEqCmp.compare_eq_iff_eq
    rw [List.foldl_cons, ih htail, Std.ExtTreeMap.getElem?_insert]
    by_cases ha : key x = a
    · -- the keys after it are different
      have hfresh : ∀ y ∈ xs, key y ≠ a := fun y hy hc =>
        hhead (List.mem_map.mpr ⟨y, hy, hc.trans ha.symm⟩)
      have hnone : ¬∃ y ∈ xs, key y = a ∧ value y = b := fun ⟨y, hy, hc, _⟩ => hfresh y hy hc
      rw [if_pos (hcompare.mpr ha), Option.some.injEq]
      simp only [List.mem_cons, exists_eq_or_imp, forall_eq_or_imp, ha, hnone, true_and, false_or,
        or_false, ne_eq, not_true_eq_false, false_and]
      exact and_iff_right hfresh
    · rw [if_neg (mt hcompare.mp ha)]
      simp [ha]

end NixEvalJobs
