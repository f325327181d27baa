import Mathlib

/-!
# Lines in a byte stream

A reader of a stream takes complete lines off its front; what comes after the last
separator stays until more arrives. Two streams that begin with a complete line
begin with the same one when they are equal, however much is behind it.

* `popLine` — the first complete line and the rest.
* `popLine_eq_some` — what it takes off.
* `frames_prefix` — a stream of lines is cut into lines in one way.
-/

namespace NixEvalJobs

variable {α : Type} [DecidableEq α] {sep : α}

/-- The first line of a stream, without its separator, and what is behind it. -/
def popLine (sep : α) : List α → Option (List α × List α)
  | [] => none
  | b :: s => if b = sep then some ([], s) else (popLine sep s).map fun e => (b :: e.1, e.2)

/-- A line with its separator. -/
def frame (sep : α) (line : List α) : List α := line ++ [sep]

omit [DecidableEq α] in
theorem frame_ne_nil (line : List α) : frame sep line ≠ [] := by
  unfold frame
  simp

theorem popLine_frame {line : List α} (h : sep ∉ line) (rest : List α) :
    popLine sep (frame sep line ++ rest) = some (line, rest) := by
  induction line with
  | nil => exact if_pos rfl
  | cons b line ih =>
    rw [List.mem_cons, not_or] at h
    have hrest : popLine sep (frame sep line ++ rest) = some (line, rest) := ih h.2
    change (if b = sep then some ([], frame sep line ++ rest)
      else (popLine sep (frame sep line ++ rest)).map fun e => (b :: e.1, e.2)) = _
    rw [if_neg fun hc => h.1 hc.symm, hrest]
    rfl

/-- **What is taken off is a complete line.** -/
theorem popLine_eq_some {s line rest : List α} :
    popLine sep s = some (line, rest) ↔ sep ∉ line ∧ s = frame sep line ++ rest := by
  constructor
  · intro h
    induction s generalizing line with
    | nil => cases h
    | cons b s ih =>
      unfold popLine at h
      split at h
      · next hb =>
        obtain ⟨rfl, rfl⟩ := Prod.mk.inj (Option.some.inj h)
        exact ⟨List.not_mem_nil, by rw [hb]; rfl⟩
      · next hb =>
        obtain ⟨e, he, hline⟩ := Option.map_eq_some_iff.mp h
        obtain ⟨rfl, rfl⟩ := Prod.mk.inj hline
        obtain ⟨hmem, hs⟩ := ih he
        refine ⟨fun hc => ?_, by rw [hs]; rfl⟩
        rcases List.mem_cons.mp hc with hc | hc
        · exact hb hc.symm
        · exact hmem hc
  · rintro ⟨h, rfl⟩
    exact popLine_frame h rest

/-- A stream has no complete line exactly when it has no separator. -/
theorem popLine_eq_none {s : List α} : popLine sep s = none ↔ sep ∉ s := by
  constructor
  · intro h hmem
    obtain ⟨line, rest, hs, hline⟩ := List.eq_append_cons_of_mem hmem
    have hsome : popLine sep s = some (line, rest) := by
      refine popLine_eq_some.mpr ⟨hline, ?_⟩
      rw [hs, frame, List.append_assoc, List.singleton_append]
    cases h.symm.trans hsome
  · intro h
    match hpop : popLine sep s with
    | none => rfl
    | some (line, rest) =>
      obtain ⟨-, rfl⟩ := popLine_eq_some.mp hpop
      exact absurd (List.mem_append_left _ (List.mem_append_right _ (List.mem_singleton_self _))) h

/-- **Streams of lines are read in one way.** What begins a stream of lines, up to its
unfinished end, is some of the lines, and the others are what is left. -/
theorem frames_prefix {lines sent : List (List α)} {rest fragment : List α}
    (hlines : ∀ line ∈ lines, sep ∉ line) (hsent : ∀ line ∈ sent, sep ∉ line)
    (hfragment : sep ∉ fragment)
    (h : lines.flatMap (frame sep) ++ rest = sent.flatMap (frame sep) ++ fragment) :
    ∃ later, sent = lines ++ later ∧ rest = later.flatMap (frame sep) ++ fragment := by
  induction lines generalizing sent with
  | nil => exact ⟨sent, rfl, h⟩
  | cons line lines ih =>
    rw [List.flatMap_cons, List.append_assoc] at h
    have hpop := popLine_frame (hlines line (List.mem_cons_self ..))
      (lines.flatMap (frame sep) ++ rest)
    rw [h] at hpop
    match sent with
    | [] =>
      -- an unfinished line is not a line
      cases hpop.symm.trans (popLine_eq_none.mpr hfragment)
    | first :: sent =>
      rw [List.flatMap_cons, List.append_assoc,
        popLine_frame (hsent first (List.mem_cons_self ..))] at hpop
      obtain ⟨rfl, hrest⟩ := Prod.mk.inj (Option.some.inj hpop)
      obtain ⟨later, rfl, hlater⟩ := ih (fun line hl => hlines line (List.mem_cons_of_mem _ hl))
        (fun line hl => hsent line (List.mem_cons_of_mem _ hl)) hrest.symm
      exact ⟨later, rfl, hlater⟩

/-- The first line of a stream is the first line of every longer one. -/
theorem popLine_append {s line rest more : List α} (h : popLine sep s = some (line, rest)) :
    popLine sep (s ++ more) = some (line, rest ++ more) := by
  obtain ⟨hline, rfl⟩ := popLine_eq_some.mp h
  rw [List.append_assoc]
  exact popLine_frame hline _

end NixEvalJobs
