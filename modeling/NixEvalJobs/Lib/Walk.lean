import Mathlib

/-!
# Depth-first walks

A walk over nodes that carry more than what they are identified by: a node is
entered once for each `key`, with the label it is first reached with, and what
it leads to may depend on that label. `walk` lists the entered nodes in order.

* `walk_extends` — what a walk adds: nodes with new keys, all their successors
  entered, and the start among them. Enough fuel is any bound on the `rank`, which
  every step decreases.
* `leads_of_mem_walk` — every node of a walk is led to, label included.
-/

namespace NixEvalJobs

variable {σ κ : Type} (key : σ → κ) (next : σ → List σ)

/-- The entered nodes after a walk from `v` that finds `seen` entered. The fuel bounds the
depth. -/
def walk [DecidableEq κ] : Nat → List σ → σ → List σ
  | 0, seen, _ => seen
  | fuel + 1, seen, v =>
    if ∃ u ∈ seen, key u = key v then seen else (next v).foldl (walk fuel) (seen ++ [v])

/-- The keys that have been entered. -/
def Entered (seen : List σ) (k : κ) : Prop := ∃ u ∈ seen, key u = k

/-- `seen'` is `seen` and the nodes `new`, whose successors have been entered. -/
structure WalkExtends (seen new seen' : List σ) : Prop where
  /-- Nothing that was entered is lost or moved. -/
  eq : seen' = seen ++ new
  /-- A new node has all its successors entered, by it or by others. -/
  closed : ∀ u ∈ new, ∀ n ∈ next u, Entered key seen' (key n)
  /-- No key comes in twice. -/
  nodup : (seen.map key).Nodup → (seen'.map key).Nodup

variable {key next}

/-- Entered keys stay entered. -/
theorem Entered.append {seen : List σ} {k : κ} (h : Entered key seen k) (new : List σ) :
    Entered key (seen ++ new) k := by
  obtain ⟨u, hu, hk⟩ := h
  exact ⟨u, List.mem_append_left _ hu, hk⟩

/-- The keys of two lists are those of either. -/
theorem entered_append {seen new : List σ} {k : κ} :
    Entered key (seen ++ new) k ↔ Entered key seen k ∨ Entered key new k := by
  simp only [Entered, List.mem_append, or_and_right, exists_or]

namespace WalkExtends

/-- Nothing new. -/
theorem refl (seen : List σ) : WalkExtends key next seen [] seen :=
  ⟨(List.append_nil _).symm, fun _ hu => (by cases hu), id⟩

/-- One walk after another one. -/
theorem trans {seen seen' seen'' new new' : List σ} (h : WalkExtends key next seen new seen')
    (h' : WalkExtends key next seen' new' seen'') :
    WalkExtends key next seen (new ++ new') seen'' := by
  refine ⟨by rw [h'.eq, h.eq, List.append_assoc], fun u hu n hn => ?_, h'.nodup ∘ h.nodup⟩
  rcases List.mem_append.mp hu with hu | hu
  · rw [h'.eq]
    obtain ⟨w, hw, hk⟩ := h.closed u hu n hn
    exact ⟨w, List.mem_append_left _ hw, hk⟩
  · exact h'.closed u hu n hn

end WalkExtends

/-- A node whose key has been entered is skipped. -/
theorem walk_of_entered [DecidableEq κ] {seen : List σ} {v : σ} (h : Entered key seen (key v))
    (fuel : Nat) : walk key next (fuel + 1) seen v = seen :=
  if_pos h

/-- Another one is entered, and its successors are walked to in turn. -/
theorem walk_of_not_entered [DecidableEq κ] {seen : List σ} {v : σ}
    (h : ¬Entered key seen (key v)) (fuel : Nat) :
    walk key next (fuel + 1) seen v = (next v).foldl (walk key next fuel) (seen ++ [v]) :=
  if_neg h

/-- The successors of a node, one after the other. -/
theorem foldl_extends {f : List σ → σ → List σ} {l : List σ}
    (hf : ∀ n ∈ l, ∀ seen, ∃ new, WalkExtends key next seen new (f seen n) ∧
      Entered key (f seen n) (key n)) (seen : List σ) :
    ∃ new, WalkExtends key next seen new (l.foldl f seen) ∧
      ∀ n ∈ l, Entered key (l.foldl f seen) (key n) := by
  induction l generalizing seen with
  | nil => exact ⟨[], .refl seen, fun _ hn => by cases hn⟩
  | cons n l ih =>
    obtain ⟨new, hnew, hentered⟩ := hf n (List.mem_cons_self ..) seen
    -- the first successor is entered before the others are walked to, and stays so
    obtain ⟨new', hnew', hall⟩ := ih (fun m hm => hf m (List.mem_cons_of_mem _ hm)) (f seen n)
    refine ⟨new ++ new', hnew.trans hnew', fun m hm => ?_⟩
    rcases List.mem_cons.mp hm with rfl | hm
    · rw [List.foldl_cons, hnew'.eq]
      exact hentered.append new'
    · exact hall m hm

/-- **What a walk adds.** -/
theorem walk_extends [DecidableEq κ] (key : σ → κ) {rank : σ → Nat}
    (hrank : ∀ v, ∀ n ∈ next v, rank n < rank v) {fuel : Nat} {v : σ} (hfuel : rank v < fuel)
    (seen : List σ) :
    ∃ new, WalkExtends key next seen new (walk key next fuel seen v) ∧
      Entered key (walk key next fuel seen v) (key v) := by
  -- a step decreases the rank, so the fuel left is enough for the successors
  induction fuel generalizing v seen with
  | zero => omega
  | succ fuel ih =>
    by_cases hseen : Entered key seen (key v)
    · rw [walk_of_entered hseen]
      exact ⟨[], .refl seen, hseen⟩
    · rw [walk_of_not_entered hseen]
      obtain ⟨new, hnew, hall⟩ := foldl_extends (f := walk key next fuel) (l := next v)
        (fun n hn seen => ih (lt_of_lt_of_le (hrank v n hn) (Nat.lt_succ_iff.mp hfuel)) seen)
        (seen ++ [v])
      -- the node itself, and what its successors add
      refine ⟨v :: new, ⟨?_, fun u hu n hn => ?_, fun hnodup => hnew.nodup ?_⟩, ?_⟩
      · rw [hnew.eq, List.append_assoc, List.singleton_append]
      · rcases List.mem_cons.mp hu with rfl | hu
        · exact hall n hn
        · exact hnew.closed u hu n hn
      · rw [List.map_append, List.nodup_append]
        refine ⟨hnodup, List.nodup_singleton _, fun a ha b hb => ?_⟩
        obtain ⟨u, hu, rfl⟩ := List.mem_map.mp ha
        rw [List.map_singleton, List.mem_singleton] at hb
        exact fun heq => hseen ⟨u, hu, heq.trans hb⟩
      · rw [hnew.eq]
        exact Entered.append ⟨v, by simp, rfl⟩ new

/-- **What a walk enters is led to** from where it starts, with the label it is entered
with. -/
theorem leads_of_mem_walk [DecidableEq κ] {fuel : Nat} {seen : List σ} {u v : σ}
    (h : u ∈ walk key next fuel seen v) :
    u ∈ seen ∨ Relation.ReflTransGen (fun a b => b ∈ next a) v u := by
  -- on the fuel, which is the depth of the recursion
  induction fuel generalizing seen v with
  | zero => exact .inl h
  | succ fuel ih =>
    by_cases hseen : Entered key seen (key v)
    · rw [walk_of_entered hseen] at h
      exact .inl h
    · rw [walk_of_not_entered hseen] at h
      -- one successor after the other
      have hloop : ∀ (l acc : List σ), (∀ n ∈ l, n ∈ next v) →
          u ∈ l.foldl (walk key next fuel) acc →
          u ∈ acc ∨ Relation.ReflTransGen (fun a b => b ∈ next a) v u := by
        intro l
        induction l with
        | nil => exact fun acc _ hmem => .inl hmem
        | cons n l ihl =>
          intro acc hl hmem
          rcases ihl _ (fun m hm => hl m (List.mem_cons_of_mem _ hm)) hmem with hmem | hleads
          · exact (ih hmem).imp_right fun hleads => .head (hl n (List.mem_cons_self ..)) hleads
          · exact .inr hleads
      rcases hloop (next v) _ (fun _ hn => hn) h with hmem | hleads
      · rcases List.mem_append.mp hmem with hmem | hmem
        · exact .inl hmem
        · rw [List.mem_singleton.mp hmem]
          exact .inr .refl
      · exact .inr hleads

/-- The first visit of a key is the only one. -/
theorem eq_of_key_eq {seen : List σ} (h : (seen.map key).Nodup) {u v : σ} (hu : u ∈ seen)
    (hv : v ∈ seen) (heq : key u = key v) : u = v :=
  List.inj_on_of_nodup_map h hu hv heq

end NixEvalJobs
