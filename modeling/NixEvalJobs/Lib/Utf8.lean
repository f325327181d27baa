import Mathlib

/-!
# UTF-8

Well-formed UTF-8 over byte strings: no overlong forms, no surrogates, nothing
above U+10FFFF. Every byte of a multi-byte character is at least `0x80`, so
text processing that only looks at ASCII bytes never cuts a character.
-/

namespace NixEvalJobs

/-- Literals stand for bytes. -/
instance neZero_byte : NeZero 256 := ⟨by decide⟩

/-- A continuation byte. -/
def isTail (b : Fin 256) : Bool := 0x80 ≤ b && b ≤ 0xBF

/-- The well-formed characters of more than one byte. -/
def isMultiByte : List (Fin 256) → Bool
  | [a, b] => 0xC2 ≤ a && a ≤ 0xDF && isTail b
  | [a, b, c] =>
    ((a == 0xE0 && 0xA0 ≤ b) || (0xE1 ≤ a && a ≤ 0xEF && a != 0xED) ||
      (a == 0xED && b ≤ 0x9F)) && isTail b && isTail c
  | [a, b, c, d] =>
    ((a == 0xF0 && 0x90 ≤ b) || (0xF1 ≤ a && a ≤ 0xF3) || (a == 0xF4 && b ≤ 0x8F)) &&
      isTail b && isTail c && isTail d
  | _ => false

/-- Well-formed UTF-8 text. -/
inductive Utf8 : List (Fin 256) → Prop where
  | nil : Utf8 []
  | ascii {b : Fin 256} {rest : List (Fin 256)} : b < 0x80 → Utf8 rest → Utf8 (b :: rest)
  | multiByte {c rest : List (Fin 256)} : isMultiByte c = true → Utf8 rest → Utf8 (c ++ rest)

/-- No byte of a multi-byte character is ASCII. -/
theorem le_of_mem_isMultiByte {c : List (Fin 256)} (h : isMultiByte c = true) :
    ∀ b ∈ c, 0x80 ≤ b := by
  unfold isMultiByte isTail at h
  intro x hx
  split at h
  all_goals
    simp only [Bool.and_eq_true, Bool.or_eq_true, beq_iff_eq, bne_iff_ne, decide_eq_true_eq,
      Bool.false_eq_true] at h
  all_goals
    simp only [List.mem_cons, List.not_mem_nil, or_false] at hx
    simp only [Fin.le_def, ← Fin.val_inj] at h ⊢
    rcases hx with rfl | rfl | rfl | rfl <;> omega

/-- Texts can be put together. -/
theorem Utf8.append {s t : List (Fin 256)} (hs : Utf8 s) (ht : Utf8 t) : Utf8 (s ++ t) := by
  -- character by character
  induction hs with
  | nil => exact ht
  | ascii hb _ ih => exact .ascii hb ih
  | multiByte hc _ ih => rw [List.append_assoc]; exact .multiByte hc ih

/-- A string of ASCII bytes is UTF-8. -/
theorem Utf8.of_ascii {s : List (Fin 256)} (h : ∀ b ∈ s, b < 0x80) : Utf8 s := by
  induction s with
  | nil => exact .nil
  | cons b s ih =>
    exact .ascii (h b (List.mem_cons_self ..)) (ih fun c hc => h c (List.mem_cons_of_mem _ hc))

/-- Replacing ASCII bytes by ASCII strings and keeping every other byte keeps
the text UTF-8. -/
theorem Utf8.flatMap {f : Fin 256 → List (Fin 256)} (hAscii : ∀ b < 0x80, ∀ c ∈ f b, c < 0x80)
    (hRest : ∀ b, 0x80 ≤ b → f b = [b]) {s : List (Fin 256)} (hs : Utf8 s) :
    Utf8 (s.flatMap f) := by
  induction hs with
  | nil => exact .nil
  | ascii hb _ ih =>
    rw [List.flatMap_cons]
    exact (Utf8.of_ascii (hAscii _ hb)).append ih
  | @multiByte c rest hc _ ih =>
    -- a character of several bytes is left alone
    have hkeep : c.flatMap f = c := by
      have : ∀ d : List (Fin 256), (∀ b ∈ d, 0x80 ≤ b) → d.flatMap f = d := by
        intro d hd
        induction d with
        | nil => rfl
        | cons b d ihd =>
          rw [List.flatMap_cons, hRest b (hd b (List.mem_cons_self ..)),
            ihd fun x hx => hd x (List.mem_cons_of_mem _ hx)]
          rfl
      exact this c (le_of_mem_isMultiByte hc)
    rw [List.flatMap_append, hkeep]
    exact .multiByte hc ih

/-! ## Deciding -/

/-- Takes characters off the front, at most `fuel` of them. -/
def utf8Within : Nat → List (Fin 256) → Bool
  | _, [] => true
  | 0, _ :: _ => false
  | fuel + 1, a :: s =>
    (a < 0x80 && utf8Within fuel s) ||
      [2, 3, 4].any fun k => isMultiByte ((a :: s).take k) && utf8Within fuel ((a :: s).drop k)

/-- What the decision accepts is well-formed. -/
theorem utf8_of_within {fuel : Nat} {s : List (Fin 256)} (h : utf8Within fuel s = true) :
    Utf8 s := by
  induction fuel generalizing s with
  | zero =>
    cases s with
    | nil => exact .nil
    | cons a s => cases h
  | succ fuel ih =>
    cases s with
    | nil => exact .nil
    | cons a s =>
      rw [utf8Within, Bool.or_eq_true, Bool.and_eq_true, decide_eq_true_eq] at h
      -- an ASCII byte, or a longer character at the front
      rcases h with ⟨ha, hs⟩ | hany
      · exact .ascii ha (ih hs)
      · obtain ⟨k, -, hk⟩ := List.any_eq_true.mp hany
        rw [Bool.and_eq_true] at hk
        rw [← List.take_append_drop k (a :: s)]
        exact .multiByte hk.1 (ih hk.2)

/-- A character has at most four bytes. -/
theorem length_of_isMultiByte {c : List (Fin 256)} (h : isMultiByte c = true) :
    c.length ∈ [2, 3, 4] := by
  unfold isMultiByte at h
  split at h
  · simp
  · simp
  · simp
  · cases h

/-- And it accepts all that is well-formed, given the length as fuel. -/
theorem Utf8.within {s : List (Fin 256)} (h : Utf8 s) {fuel : Nat} (hfuel : s.length ≤ fuel) :
    utf8Within fuel s = true := by
  induction h generalizing fuel with
  | nil => rw [utf8Within.eq_def]
  | @ascii b rest hb _ ih =>
    obtain ⟨fuel, rfl⟩ := Nat.exists_eq_add_one_of_ne_zero (by simp at hfuel; omega : fuel ≠ 0)
    rw [utf8Within, decide_eq_true hb, ih (by simpa using hfuel)]
    rfl
  -- its length is among those that are tried
  | @multiByte c rest hc _ ih =>
    have hlen := length_of_isMultiByte hc
    match c with
    | [] => simp at hlen
    | a :: c =>
      obtain ⟨fuel, rfl⟩ := Nat.exists_eq_add_one_of_ne_zero (by simp at hfuel; omega : fuel ≠ 0)
      have hrest : utf8Within fuel rest = true := ih (by simp at hfuel; omega)
      rw [List.cons_append, utf8Within, Bool.or_eq_true]
      refine .inr (List.any_eq_true.mpr ⟨(a :: c).length, hlen, ?_⟩)
      rw [← List.cons_append, List.take_left, List.drop_left, hc, hrest]
      rfl

/-- So it decides. -/
theorem utf8Within_iff {s : List (Fin 256)} : utf8Within s.length s = true ↔ Utf8 s :=
  ⟨utf8_of_within, fun h => h.within (Nat.le_refl _)⟩

instance : DecidablePred Utf8 := fun _ => decidable_of_iff _ utf8Within_iff

end NixEvalJobs
