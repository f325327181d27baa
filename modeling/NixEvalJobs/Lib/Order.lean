import Mathlib

/-!
# Lists in which dependencies come first

A list is in order when everything an element needs stands before it. An order grows
at its end, by an element whose needs are already there.

* `DependenciesFirst.snoc` — the growing step.
* `DependenciesFirst.not_needed_before` — nothing needs what comes after it.
* `DependenciesFirst.acyclic` — nothing leads to itself.
* `NeededLater` — everything in the list is needed by something after it, or by
  something outside; lists of that kind can be appended.
-/

namespace NixEvalJobs

variable {α : Type} {needs : α → α → Prop}

/-- What an element of the list needs stands before it. -/
def DependenciesFirst (needs : α → α → Prop) (l : List α) : Prop :=
  ∀ before a after, l = before ++ a :: after → ∀ b, needs a b → b ∈ before

theorem DependenciesFirst.nil : DependenciesFirst needs [] := by
  intro before a after h
  exact absurd h.symm (List.append_ne_nil_of_right_ne_nil _ (List.cons_ne_nil a after))

/-- An element may follow when what it needs is there. -/
theorem DependenciesFirst.snoc {l : List α} {a : α} (h : DependenciesFirst needs l)
    (ha : ∀ b, needs a b → b ∈ l) : DependenciesFirst needs (l ++ [a]) := by
  intro before c after hsplit b hb
  rcases List.eq_nil_or_concat after with rfl | ⟨rest, last, rfl⟩
  · -- the element is the last one
    obtain ⟨rfl, hlast⟩ := List.append_inj' hsplit rfl
    obtain rfl := List.singleton_inj.mp hlast
    exact ha b hb
  · have hsplit' : l ++ [a] = (before ++ c :: rest) ++ [last] := by
      rw [hsplit, List.concat_eq_append, List.append_assoc, List.cons_append]
    obtain ⟨rfl, -⟩ := List.append_inj' hsplit' rfl
    exact h before c rest rfl b hb

/-- What stands before an element does not need it. -/
theorem DependenciesFirst.not_needed_before {l before after : List α} {a b : α}
    (h : DependenciesFirst needs l) (hnodup : l.Nodup) (hsplit : l = before ++ a :: after)
    (hb : b ∈ before) : ¬needs b a := by
  intro hneeds
  obtain ⟨first, rest, rfl⟩ := List.append_of_mem hb
  have ha : a ∈ first := by
    refine h first b (rest ++ a :: after) ?_ a hneeds
    rw [hsplit, List.append_assoc, List.cons_append]
  -- so it stands there twice
  rw [hsplit, List.nodup_append] at hnodup
  exact hnodup.2.2 a (List.mem_append_left _ ha) a (List.mem_cons_self ..) rfl

/-- **Nothing in order needs itself**, not over any others either. -/
theorem DependenciesFirst.acyclic {l : List α} {a : α} (h : DependenciesFirst needs l)
    (hnodup : l.Nodup) (ha : a ∈ l) : ¬Relation.TransGen needs a a := by
  -- all that an element leads to stands before it
  have hbefore : ∀ {a b before after}, Relation.TransGen needs a b → l = before ++ a :: after →
      b ∈ before := by
    intro a b before after hchain hsplit
    induction hchain with
    | single hb => exact h before a after hsplit _ hb
    | tail _ hneeds ih =>
      obtain ⟨first, rest, rfl⟩ := List.append_of_mem ih
      refine List.mem_append_left _ (h first _ (rest ++ a :: after) ?_ _ hneeds)
      rw [hsplit, List.append_assoc, List.cons_append]
  intro hcyclic
  obtain ⟨before, after, rfl⟩ := List.append_of_mem ha
  rw [List.nodup_append] at hnodup
  exact hnodup.2.2 a (hbefore hcyclic rfl) a (List.mem_cons_self ..) rfl

/-- A list without repetitions in which nothing needs what comes after it. -/
theorem DependenciesFirst.of_pairwise {l : List α} (hirrefl : ∀ a, ¬needs a a)
    (h : l.Pairwise fun a b => ¬needs a b) :
    DependenciesFirst (fun a b => needs a b ∧ b ∈ l) l := by
  intro before a after hsplit b ⟨hneeds, hmem⟩
  rw [hsplit] at h hmem
  rcases List.mem_append.mp hmem with hbefore | hrest
  · exact hbefore
  rcases List.mem_cons.mp hrest with rfl | hafter
  · exact absurd hneeds (hirrefl _)
  · have hcons := (List.pairwise_append.mp h).2.1
    exact absurd hneeds ((List.pairwise_cons.mp hcons).1 b hafter)

/-! ## What is needed later -/

/-- Every element is needed by one after it, or from outside the list. -/
def NeededLater (needs : α → α → Prop) (outside : α → Prop) : List α → Prop
  | [] => True
  | a :: l => (outside a ∨ ∃ b ∈ l, needs b a) ∧ NeededLater needs outside l

theorem NeededLater.append {outside : α → Prop} {l l' : List α}
    (h : NeededLater needs outside l) (h' : NeededLater needs outside l') :
    NeededLater needs outside (l ++ l') := by
  induction l with
  | nil => exact h'
  | cons a l ih =>
    refine ⟨h.1.imp_right ?_, ih h.2⟩
    rintro ⟨b, hb, hneeds⟩
    exact ⟨b, List.mem_append_left _ hb, hneeds⟩

/-- What was needed from outside is needed by a last element. -/
theorem NeededLater.snoc {outside : α → Prop} {l : List α} {a : α}
    (h : NeededLater needs outside l) (ha : ∀ b, outside b → needs a b) :
    NeededLater needs (· = a) (l ++ [a]) := by
  induction l with
  | nil => exact ⟨.inl rfl, trivial⟩
  | cons b l ih =>
    refine ⟨.inr ?_, ih h.2⟩
    rcases h.1 with houtside | ⟨c, hc, hneeds⟩
    · exact ⟨a, List.mem_append_right _ (List.mem_singleton_self a), ha b houtside⟩
    · exact ⟨c, List.mem_append_left _ hc, hneeds⟩

theorem NeededLater.mono {outside outside' : α → Prop} (hle : ∀ a, outside a → outside' a)
    {l : List α} (h : NeededLater needs outside l) : NeededLater needs outside' l := by
  induction l with
  | nil => trivial
  | cons a l ih => exact ⟨h.1.imp_left (hle a), ih h.2⟩

theorem NeededLater.split {outside : α → Prop} {before after : List α} {a : α}
    (h : NeededLater needs outside (before ++ a :: after)) :
    outside a ∨ ∃ b ∈ after, needs b a := by
  induction before with
  | nil => exact h.1
  | cons b before ih => exact ih h.2

/-- Elements with different keys, and one more. -/
theorem nodup_map_snoc {β : Type} {key : α → β} {l : List α} {a : α}
    (h : (l.map key).Nodup) (ha : key a ∉ l.map key) : ((l ++ [a]).map key).Nodup := by
  rw [List.map_append, List.map_singleton, List.nodup_append]
  refine ⟨h, List.nodup_singleton _, fun k hk k' hk' => ?_⟩
  obtain rfl := List.mem_singleton.mp hk'
  exact fun heq => ha (heq ▸ hk)

end NixEvalJobs
