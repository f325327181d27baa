import NixEvalJobs.Basic
import NixEvalJobs.Lib.Utf8

/-!
# nix-eval-jobs — attribute paths as text

`joinAttrPath` prints an attribute path the way Nix prints attribute names:
plain identifiers as they are, anything else in quotes with `"`, `\` and `$`
escaped, components separated by dots. The result is the key of the
collector's `JobMap`, so two paths must never print alike.

* `joinAttrPath_inj` — printing is injective on lists of arbitrary byte strings.
* `utf8_joinAttrPath` — a path of UTF-8 components prints as UTF-8.
-/

namespace NixEvalJobs

/-! ## Printing -/

/-- The bytes that mean something in a printed path. -/
def dquote : Byte := 34
def dollar : Byte := 36
def dot : Byte := 46
def backslash : Byte := 92

/-- `std::isalpha` in the C locale. -/
def isAlpha (c : Byte) : Bool := (65 ≤ c && c ≤ 90) || (97 ≤ c && c ≤ 122)

/-- `std::isalnum` in the C locale. -/
def isAlnum (c : Byte) : Bool := isAlpha c || (48 ≤ c && c ≤ 57)

/-- A name that needs no quotes. -/
def isPlainIdentifier : Str → Bool
  | [] => false
  | first :: rest =>
    -- underscore, apostrophe and hyphen are 95, 39 and 45
    (isAlpha first || first == 95) &&
      (first :: rest).all fun c => isAlnum c || c == 95 || c == 39 || c == 45

/-- One character of a quoted component. -/
def escapeChar (c : Byte) : Str :=
  if c = dquote ∨ c = backslash ∨ c = dollar then [backslash, c] else [c]

/-- One component: as it is when it is a plain identifier, else quoted. -/
def joinPart (part : Str) : Str :=
  if isPlainIdentifier part then part else dquote :: (part.flatMap escapeChar ++ [dquote])

def joinAttrPath : AttrPath → Str
  | [] => []
  | [part] => joinPart part
  | part :: next :: rest => joinPart part ++ dot :: joinAttrPath (next :: rest)

/-! ## Injectivity -/

/-- The end of a component: the end of the text or a separator. -/
def AtSeparator (s : Str) : Prop := ∀ c, s.head? = some c → c = dot

theorem not_mem_dot_of_plain {part : Str} (h : isPlainIdentifier part = true) :
    dot ∉ part := by
  intro hmem
  cases part with
  | nil => simp at hmem
  | cons first rest =>
    rw [isPlainIdentifier, Bool.and_eq_true, List.all_eq_true] at h
    exact absurd (h.2 dot hmem) (by decide)

theorem head_ne_dquote_of_plain {part : Str} (h : isPlainIdentifier part = true) :
    ∃ first rest, part = first :: rest ∧ first ≠ dquote := by
  cases part with
  | nil => simp [isPlainIdentifier] at h
  | cons first rest =>
    refine ⟨first, rest, rfl, ?_⟩
    rintro rfl
    rw [isPlainIdentifier, Bool.and_eq_true] at h
    exact absurd h.1 (by decide)

/-- Dot-free strings followed by a separator are cut in one way only. -/
theorem append_inj_of_not_mem_dot {a b s t : Str} (ha : dot ∉ a) (hb : dot ∉ b)
    (hs : AtSeparator s) (ht : AtSeparator t) (h : a ++ s = b ++ t) : a = b ∧ s = t := by
  induction a generalizing b with
  | nil =>
    cases b with
    | nil => exact ⟨rfl, h⟩
    | cons c b =>
      have : c = dot := hs c (by rw [show s = c :: (b ++ t) from h]; rfl)
      -- one string ends before the other, so the next byte of the other is the separator
      exact absurd (this ▸ List.mem_cons_self ..) hb
  | cons c a ih =>
    cases b with
    | nil =>
      have : c = dot := ht c (by rw [← show c :: (a ++ s) = t from h]; rfl)
      exact absurd (this ▸ List.mem_cons_self ..) ha
    | cons d b =>
      rw [List.cons_append, List.cons_append, List.cons.injEq] at h
      obtain ⟨rfl, h⟩ := h
      obtain ⟨rfl, rfl⟩ := ih (fun hc => ha (List.mem_cons_of_mem _ hc))
        (fun hc => hb (List.mem_cons_of_mem _ hc)) h
      exact ⟨rfl, rfl⟩

/-- The closing quote of an escaped component is the first unescaped one. -/
theorem flatMap_escapeChar_inj {a b s t : Str}
    (h : a.flatMap escapeChar ++ dquote :: s = b.flatMap escapeChar ++ dquote :: t) :
    a = b ∧ s = t := by
  induction a generalizing b with
  | nil =>
    cases b with
    | nil => exact ⟨rfl, by simpa using h⟩
    | cons d b =>
      -- no escape begins with the quote that ends the text
      rw [List.flatMap_nil, List.nil_append, List.flatMap_cons, escapeChar] at h
      split at h
      · exact absurd (List.cons.inj h).1 (by decide)
      · next hd => exact absurd (Or.inl (List.cons.inj h).1.symm) hd
  | cons c a ih =>
    cases b with
    | nil =>
      rw [List.flatMap_nil, List.nil_append, List.flatMap_cons, escapeChar] at h
      split at h
      · exact absurd (List.cons.inj h).1 (by decide)
      · next hc => exact absurd (Or.inl (List.cons.inj h).1) hc
    | cons d b =>
      rw [List.flatMap_cons, List.flatMap_cons, escapeChar, escapeChar] at h
      split at h <;> split at h
      -- an escape takes two bytes, of which the first is a backslash
      · -- both are escapes, and they escape the same byte
        obtain ⟨rfl, hrest⟩ := List.cons.inj (List.cons.inj h).2
        obtain ⟨rfl, rfl⟩ := ih hrest
        exact ⟨rfl, rfl⟩
      · next hd => exact absurd (Or.inr (Or.inl (List.cons.inj h).1.symm)) hd
      · next hc _ => exact absurd (Or.inr (Or.inl (List.cons.inj h).1)) hc
      · obtain ⟨rfl, hrest⟩ := List.cons.inj h
        obtain ⟨rfl, rfl⟩ := ih hrest
        exact ⟨rfl, rfl⟩

/-- One printed component followed by a separator is read back in one way only. -/
theorem joinPart_append_inj {a b s t : Str} (hs : AtSeparator s) (ht : AtSeparator t)
    (h : joinPart a ++ s = joinPart b ++ t) : a = b ∧ s = t := by
  unfold joinPart at h
  split at h <;> split at h
  -- both plain, one of them quoted, both quoted; a plain component does not begin with a
  -- quote
  · next ha hb =>
    exact append_inj_of_not_mem_dot (not_mem_dot_of_plain ha) (not_mem_dot_of_plain hb) hs ht h
  · next ha _ =>
    obtain ⟨first, rest, rfl, hne⟩ := head_ne_dquote_of_plain ha
    exact absurd (List.cons.inj h).1 hne
  · next _ hb =>
    obtain ⟨first, rest, rfl, hne⟩ := head_ne_dquote_of_plain hb
    exact absurd (List.cons.inj h).1.symm hne
  · exact flatMap_escapeChar_inj (by simpa using h)

/-- No component prints as nothing, not even the empty one. -/
theorem joinPart_ne_nil (part : Str) : joinPart part ≠ [] := by
  unfold joinPart
  split
  · next h =>
    obtain ⟨first, rest, rfl, -⟩ := head_ne_dquote_of_plain h
    simp
  · simp

/-- What follows the first component of a path. -/
def joinRest : AttrPath → Str
  | [] => []
  | next :: rest => dot :: joinAttrPath (next :: rest)

/-- Printing a path component by component. -/
theorem joinAttrPath_cons (part : Str) (rest : AttrPath) :
    joinAttrPath (part :: rest) = joinPart part ++ joinRest rest := by
  cases rest with
  | nil => rw [joinAttrPath, joinRest, List.append_nil]
  | cons next rest => rw [joinAttrPath, joinRest]

/-- What follows a component begins with a dot, or there is nothing. -/
theorem atSeparator_joinRest (rest : AttrPath) : AtSeparator (joinRest rest) := by
  cases rest with
  | nil => intro c h; simp [joinRest] at h
  | cons next rest => intro c h; simpa [joinRest] using h.symm

/-- Only the root prints as nothing. -/
theorem joinAttrPath_eq_nil {p : AttrPath} : joinAttrPath p = [] ↔ p = [] := by
  cases p with
  | nil => simp [joinAttrPath]
  | cons part rest => simp [joinAttrPath_cons, joinPart_ne_nil]

/-- **No two attribute paths print alike.** -/
theorem joinAttrPath_inj {p q : AttrPath} (h : joinAttrPath p = joinAttrPath q) : p = q := by
  induction p generalizing q with
  -- on the path: its first component is read off, the rest goes by induction
  | nil => exact (joinAttrPath_eq_nil.mp (by rw [← h]; rfl)).symm
  | cons a p ih =>
    cases q with
    | nil => exact joinAttrPath_eq_nil.mp h
    | cons b q =>
      rw [joinAttrPath_cons, joinAttrPath_cons] at h
      obtain ⟨rfl, hrest⟩ :=
        joinPart_append_inj (atSeparator_joinRest p) (atSeparator_joinRest q) h
      have hjoin : joinAttrPath p = joinAttrPath q := by
        cases p <;> cases q <;> simp_all [joinRest, joinAttrPath]
      rw [ih hjoin]

/-! ## Encoding -/

/-- Quotes and backslashes are put between whole characters: what is escaped is ASCII. -/
theorem utf8_joinPart {part : Str} (h : Utf8 part) : Utf8 (joinPart part) := by
  unfold joinPart
  split
  · exact h
  · refine .ascii (by decide) (Utf8.append ?_ (.ascii (by decide) .nil))
    refine Utf8.flatMap ?_ ?_ h
    · -- a byte above the ASCII range is never escaped
      intro b hb c hc
      unfold escapeChar at hc
      split at hc
      · rcases List.mem_cons.mp hc with rfl | hc'
        · decide
        · rwa [List.mem_singleton.mp hc']
      · rwa [List.mem_singleton.mp hc]
    · intro b hb
      rw [escapeChar, if_neg]
      rintro (rfl | rfl | rfl) <;> exact absurd hb (by decide)

/-- A path of UTF-8 components prints as UTF-8. -/
theorem utf8_joinAttrPath {p : AttrPath} (h : ∀ part ∈ p, Utf8 part) :
    Utf8 (joinAttrPath p) := by
  induction p with
  | nil => exact .nil
  | cons part rest ih =>
    rw [joinAttrPath_cons]
    refine (utf8_joinPart (h part (List.mem_cons_self ..))).append ?_
    cases rest with
    | nil => exact .nil
    | cons next rest =>
      exact .ascii (by decide) (ih fun q hq => h q (List.mem_cons_of_mem _ hq))

end NixEvalJobs
