import NixEvalJobs.Scheduler.Pool

/-!
# Scheduler — the memory budget in machine integers

The class comment makes workers * max-memory-size one budget for all workers. The
code computes it, and what it compares with it, in `size_t`, from two options that
are only checked to be positive.

* `parsePositive_decimal` — every positive `size_t` is accepted as an option.
* `totalRss_toNat`, `load_toNat` — the two sums that are compared with the budget do
  not wrap.
* `budget_exact_iff` — when the comparisons are those of unbounded integers.
-/

namespace NixEvalJobs

/-! ## The options (`eval-args.cc`) -/

/-- A decimal digit. -/
def isDigit (b : Byte) : Bool := 48 ≤ b ∧ b ≤ 57

/-- `std::from_chars` for `size_t`: the value of the leading decimal digits, if there are any
and it fits, and what follows them. -/
def fromChars (str : Str) : Option (UInt64 × Str) :=
  let digits := str.takeWhile isDigit
  let value := digits.foldl (fun value digit => 10 * value + (digit.val - 48)) 0
  if digits = [] ∨ UInt64.size ≤ value then none
  else some (UInt64.ofNat value, str.dropWhile isDigit)

/-- `parsePositive`: the whole text has to be a number, and a positive one. -/
def parsePositive (flag str : Str) : Except Error UInt64 :=
  let usageError : Error := .nix (lit "--%s expects a positive integer, got '%s'") [flag, str]
  match fromChars str with
  | some (value, []) => if value < 1 then throw usageError else pure value
  | _ => throw usageError

/-- What is accepted is positive. -/
theorem parsePositive_pos {flag str : Str} {value : UInt64}
    (h : parsePositive flag str = .ok value) : 0 < value.toNat := by
  rw [parsePositive] at h
  split at h
  · next parsed _ =>
    split at h
    · cases h
    · next hpos =>
      obtain rfl := Except.ok.inj h
      have hle : ¬parsed.toNat < 1 := hpos
      omega
  · cases h

/-- The digits that `std::to_string` prints. -/
theorem isDigit_of_mem_decimal {n : Nat} {b : Byte} (h : b ∈ decimal n) : isDigit b = true := by
  rw [decimal, lit, Nat.toString_eq_repr, Nat.toList_repr] at h
  obtain ⟨c, hc, rfl⟩ := List.mem_map.mp h
  have hdigit := Nat.isDigit_of_mem_toDigits (by decide) (by decide) hc
  rw [Char.isDigit, Bool.and_eq_true, decide_eq_true_eq, decide_eq_true_eq] at hdigit
  have hlow : 48 ≤ c.toNat := hdigit.1
  have hhigh : c.toNat ≤ 57 := hdigit.2
  rw [isDigit, decide_eq_true_eq, Fin.le_def, Fin.le_def, Fin.val_ofNat,
    Nat.mod_eq_of_lt (by omega)]
  exact ⟨hlow, hhigh⟩

/-- Reading the digits back gives the number. -/
theorem foldl_decimal (n : Nat) :
    (decimal n).foldl (fun value digit => 10 * value + (digit.val - 48)) 0 = n := by
  rw [decimal, lit, Nat.toString_eq_repr, Nat.toList_repr, List.foldl_map]
  refine Eq.trans ?_ (Nat.ofDigitChars_ten_toDigits (n := n))
  rw [Nat.ofDigitChars_eq_foldl]
  refine List.foldl_ext _ _ _ fun value c hc => ?_
  -- each digit contributes its value
  have hdigit := Nat.isDigit_of_mem_toDigits (by decide) (by decide) hc
  rw [Char.isDigit, Bool.and_eq_true, decide_eq_true_eq, decide_eq_true_eq] at hdigit
  have hhigh : c.toNat ≤ 57 := hdigit.2
  rw [Fin.val_ofNat, Nat.mod_eq_of_lt (by omega)]
  rfl

/-- `from_chars` inverts `to_string`. -/
theorem fromChars_decimal (value : UInt64) :
    fromChars (decimal value.toNat) = some (value, []) := by
  have htake : (decimal value.toNat).takeWhile isDigit = decimal value.toNat :=
    List.takeWhile_eq_self_iff.mpr fun _ => isDigit_of_mem_decimal
  have hdrop : (decimal value.toNat).dropWhile isDigit = [] :=
    List.dropWhile_eq_nil_iff.mpr fun _ => isDigit_of_mem_decimal
  have hne : decimal value.toNat ≠ [] := by
    rw [decimal, lit, Nat.toString_eq_repr, Nat.toList_repr]
    exact mt List.map_eq_nil_iff.mp Nat.toDigits_ne_nil
  -- a `size_t` does fit
  have hfits : ¬UInt64.size ≤ value.toNat := Nat.not_le.mpr value.toNat_lt
  rw [fromChars, htake, hdrop, foldl_decimal, if_neg (not_or.mpr ⟨hne, hfits⟩), UInt64.ofNat_toNat]

/-- Every positive `size_t` is accepted. -/
theorem parsePositive_decimal (flag : Str) {value : UInt64} (h : 0 < value.toNat) :
    parsePositive flag (decimal value.toNat) = .ok value := by
  rw [parsePositive, fromChars_decimal]
  exact if_neg (Nat.not_lt.mpr h)

namespace Scheduler

variable {n : Nat}

/-! ## Sums of machine integers -/

/-- Resident memory and estimate are below 2^40 MiB. -/
structure Bounded (s : Scheduler n) (own : UInt64) : Prop where
  own : own.toNat < 2 ^ 40
  rss : ∀ i, (s.workers i).rss.toNat < 2 ^ 40
  estimate : s.estimate.toNat < 2 ^ 40

/-- `totalRss` over unbounded integers. -/
def exactRss (s : Scheduler n) (own : UInt64) : Nat :=
  own.toNat + ∑ i, (s.workers i).rss.toNat

/-- What `fitsBudget` compares with the budget, over unbounded integers. -/
def exactLoad (s : Scheduler n) (own : UInt64) : Nat :=
  s.exactRss own + (s.count .busy + 1) * s.estimate.toNat

/-- A sum of machine integers is exact if the exact sum fits. -/
theorem foldl_add_toNat {f : Fin n → UInt64} {slots : List (Fin n)} {sum : UInt64}
    (h : sum.toNat + (slots.map fun i => (f i).toNat).sum < 2 ^ 64) :
    (slots.foldl (fun sum i => sum + f i) sum).toNat =
      sum.toNat + (slots.map fun i => (f i).toNat).sum := by
  induction slots generalizing sum with
  | nil => rfl
  | cons i slots ih =>
    rw [List.map_cons, List.sum_cons] at h ⊢
    -- the partial sums are below the whole one, so no addition wraps
    have hsum : (sum + f i).toNat = sum.toNat + (f i).toNat := by
      rw [UInt64.toNat_add, Nat.mod_eq_of_lt (by omega)]
    rw [List.foldl_cons, ih (by omega), hsum]
    omega

/-- `totalRss` is exact as long as it fits. -/
theorem totalRss_toNat {s : Scheduler n} {own : UInt64} (h : s.exactRss own < 2 ^ 64) :
    (s.totalRss own).toNat = s.exactRss own := by
  rw [exactRss, Fin.sum_univ_def] at h ⊢
  exact foldl_add_toNat h

/-- A pool of `n` workers below the bounds. -/
theorem exactRss_le {s : Scheduler n} {own : UInt64} (hown : own.toNat < 2 ^ 40)
    (hrss : ∀ i, (s.workers i).rss.toNat < 2 ^ 40) :
    s.exactRss own ≤ (n + 1) * (2 ^ 40 - 1) := by
  have hsum : ∑ i, (s.workers i).rss.toNat ≤ n * (2 ^ 40 - 1) := by
    refine (Finset.sum_le_card_nsmul Finset.univ _ (2 ^ 40 - 1) fun i _ => ?_).trans ?_
    · have := hrss i
      omega
    · rw [Finset.card_univ, Fintype.card_fin, smul_eq_mul]
  rw [exactRss]
  omega

/-- There are no more workers in a phase than workers. -/
theorem count_le (s : Scheduler n) (phase : Phase) : s.count phase ≤ n :=
  countSlots_le.trans_eq (Fintype.card_fin n)

/-- The largest load within the bounds: the collector, every worker, and the growth of every
worker and one more. -/
def maxLoad (n : Nat) : Nat := (2 * n + 2) * (2 ^ 40 - 1)

/-- The load by the number of busy workers. -/
theorem exactLoad_le_count {s : Scheduler n} {own : UInt64} (h : s.Bounded own) :
    s.exactLoad own ≤ (n + s.count .busy + 2) * (2 ^ 40 - 1) := by
  have hrss := exactRss_le h.own h.rss
  have hgrowth : (s.count .busy + 1) * s.estimate.toNat ≤ (s.count .busy + 1) * (2 ^ 40 - 1) :=
    Nat.mul_le_mul_left _ (Nat.le_pred_of_lt h.estimate)
  rw [exactLoad]
  omega

/-- All of them may be busy. -/
theorem exactLoad_le {s : Scheduler n} {own : UInt64} (h : s.Bounded own) :
    s.exactLoad own ≤ maxLoad n := by
  have hcount := s.count_le .busy
  refine (exactLoad_le_count h).trans (Nat.mul_le_mul_right _ ?_)
  omega

/-- An idle slot is not busy. -/
theorem count_busy_lt {s : Scheduler n} {i : Fin n} (hidle : (s.workers i).phase = .idle) :
    s.count .busy < n := by
  have hle : (s.setWorker i { s.workers i with phase := .busy }).count .busy ≤ n := count_le _ _
  have hcount := countSlots_update (fun w : Worker => decide (w.phase = .busy)) s.workers i
    { s.workers i with phase := .busy }
  rw [hidle] at hcount
  exact lt_of_lt_of_le (Nat.lt_of_succ_le hcount.ge) hle

/-- Below 2^16 workers the largest load fits in `size_t`. -/
theorem maxLoad_lt (hn : n < 2 ^ 16) : maxLoad n < 2 ^ 64 := by
  rw [maxLoad]
  omega

/-- The room check compares the exact load. -/
theorem load_toNat {s : Scheduler n} {own : UInt64} (hn : n < 2 ^ 16) (h : s.Bounded own) :
    (s.totalRss own + UInt64.ofNat (s.count .busy + 1) * s.estimate).toNat =
      s.exactLoad own := by
  have hload := (exactLoad_le h).trans_lt (maxLoad_lt hn)
  have hcount := s.count_le .busy
  rw [exactLoad] at hload ⊢
  have hjobs : (UInt64.ofNat (s.count .busy + 1)).toNat = s.count .busy + 1 := by
    rw [UInt64.toNat_ofNat', Nat.mod_eq_of_lt (by omega)]
  -- neither the product nor the sums wrap
  have hgrowth : (UInt64.ofNat (s.count .busy + 1) * s.estimate).toNat =
      (s.count .busy + 1) * s.estimate.toNat := by
    rw [UInt64.toNat_mul, hjobs, Nat.mod_eq_of_lt (by omega)]
  rw [UInt64.toNat_add, totalRss_toNat (by omega), hgrowth, Nat.mod_eq_of_lt hload]

/-! ## The budget -/

/-- The state with the budget that the constructor computes from the options. -/
def withBudget (s : Scheduler n) (nrWorkers maxMemorySize : UInt64) : Scheduler n :=
  { s with budget := nrWorkers * maxMemorySize }

/-- No move touches the budget. -/
theorem budget_move {X : Externals} {ok : AttrPath → Response → Json → Prop} {a b : Snapshot n}
    (hm : Move X ok a b) : b.sched.budget = a.sched.budget := by
  cases hm with
  | finish _ _ haccept =>
    rcases acceptResponse_cases haccept with ⟨attrs, -, rfl⟩ | ⟨-, ⟨-, rfl⟩ | rfl⟩ <;> rfl
  | _ => rfl

/-- Every state of a run has the budget of the constructor. -/
theorem withBudget_visited {X : Externals} {ok : AttrPath → Response → Json → Prop}
    {nrWorkers maxMemorySize : UInt64} {resolver : Bool} {a : Snapshot n}
    (h : Visited X ok nrWorkers maxMemorySize resolver a) :
    a.sched.withBudget nrWorkers maxMemorySize = a.sched := by
  have hbudget : a.sched.budget = nrWorkers * maxMemorySize :=
    h.invariant (I := fun a => a.sched.budget = nrWorkers * maxMemorySize) rfl
      fun _ ha hm => (budget_move hm).trans ha
  rw [withBudget, ← hbudget]

/-- Sampling memory kills a worker. -/
def Evicts (s : Scheduler n) (own : UInt64) (rss : Fin n → UInt64) : Prop :=
  ∃ victim, s.sampleMemory own rss = .ok ((s.sampleWorkers rss).evict victim)

/-- The comparisons of `fitsBudget` and `sampleMemory` are those of unbounded integers, with
the product of the options as the budget. -/
structure BudgetExact (nrWorkers maxMemorySize : UInt64) : Prop where
  fitsBudget : ∀ (s : Scheduler nrWorkers.toNat) (own : UInt64), s.Bounded own →
    ((s.withBudget nrWorkers maxMemorySize).fitsBudget own = true ↔
      s.count .busy = 0 ∨ s.exactLoad own ≤ nrWorkers.toNat * maxMemorySize.toNat)
  sampleMemory : ∀ (s : Scheduler nrWorkers.toNat) (own : UInt64)
    (rss : Fin nrWorkers.toNat → UInt64), own.toNat < 2 ^ 40 → (∀ i, (rss i).toNat < 2 ^ 40) →
      ((s.sampleWorkers rss).totalRss own ≤ (s.withBudget nrWorkers maxMemorySize).budget ↔
        (s.sampleWorkers rss).exactRss own ≤ nrWorkers.toNat * maxMemorySize.toNat)

/-- No smaller max-memory-size lets a job start that this one refuses, or spares a worker
that this one kills. -/
structure BudgetMonotone (nrWorkers maxMemorySize : UInt64) : Prop where
  fitsBudget : ∀ smaller ≤ maxMemorySize, ∀ (s : Scheduler nrWorkers.toNat) (own : UInt64),
    s.Bounded own → (s.withBudget nrWorkers smaller).fitsBudget own = true →
      (s.withBudget nrWorkers maxMemorySize).fitsBudget own = true
  sampleMemory : ∀ smaller ≤ maxMemorySize, ∀ (s : Scheduler nrWorkers.toNat) (own : UInt64)
    (rss : Fin nrWorkers.toNat → UInt64), own.toNat < 2 ^ 40 → (∀ i, (rss i).toNat < 2 ^ 40) →
      (s.withBudget nrWorkers maxMemorySize).Evicts own rss →
        (s.withBudget nrWorkers smaller).Evicts own rss

variable {s : Scheduler n} {own : UInt64} {rss : Fin n → UInt64}

/-- `fitsBudget` over unbounded integers, whatever the budget has become. -/
theorem fitsBudget_iff (hn : n < 2 ^ 16) (h : s.Bounded own) :
    s.fitsBudget own = true ↔ s.count .busy = 0 ∨ s.exactLoad own ≤ s.budget.toNat := by
  rw [fitsBudget, decide_eq_true_eq, hasRoom, decide_eq_true_eq, UInt64.le_iff_toNat_le,
    load_toNat hn h]

/-- Every worker has the sampled memory, or none. -/
theorem sampleWorkers_rss_lt (hrss : ∀ i, (rss i).toNat < 2 ^ 40) (i : Fin n) :
    ((s.sampleWorkers rss).workers i).rss.toNat < 2 ^ 40 := by
  show (if (s.workers i).proc.isSome = true then rss i else 0).toNat < 2 ^ 40
  split
  · exact hrss i
  · decide

/-- What is resident is no more than the largest load. -/
theorem sampled_exactRss_le (hown : own.toNat < 2 ^ 40) (hrss : ∀ i, (rss i).toNat < 2 ^ 40) :
    (s.sampleWorkers rss).exactRss own ≤ maxLoad n :=
  (exactRss_le hown (sampleWorkers_rss_lt hrss)).trans (Nat.mul_le_mul_right _ (by omega))

/-- The comparison of `sampleMemory` over unbounded integers. -/
theorem totalRss_le_iff (hn : n < 2 ^ 16) (hown : own.toNat < 2 ^ 40)
    (hrss : ∀ i, (rss i).toNat < 2 ^ 40) (budget : UInt64) :
    (s.sampleWorkers rss).totalRss own ≤ budget ↔
      (s.sampleWorkers rss).exactRss own ≤ budget.toNat := by
  have hsum := (sampled_exactRss_le (s := s) hown hrss).trans_lt (maxLoad_lt hn)
  rw [UInt64.le_iff_toNat_le, totalRss_toNat hsum]

/-- A kill needs memory over the budget and a busy worker with a process. -/
theorem evicts_iff : s.Evicts own rss ↔ ¬(s.sampleWorkers rss).totalRss own ≤ s.budget ∧
    ∃ victim, (s.sampleWorkers rss).largestBusy = some victim ∧
      ((s.sampleWorkers rss).workers victim).proc.isSome = true := by
  constructor
  · rintro ⟨victim, h⟩
    rw [Scheduler.sampleMemory] at h
    -- without a kill nothing is recorded
    have hother : Except.ok (s.sampleWorkers rss) ≠
        (Except.ok ((s.sampleWorkers rss).evict victim) : Except Error (Scheduler n)) :=
      fun hc => List.cons_ne_self _ _ (congrArg Scheduler.trace (Except.ok.inj hc)).symm
    split at h
    · exact absurd h hother
    next hover =>
    split at h
    · exact absurd h hother
    · next victim' hvictim =>
      split at h
      · cases h
      · next proc hproc => exact ⟨hover, victim', hvictim, by rw [hproc]; rfl⟩
  · rintro ⟨hover, victim, hvictim, hproc⟩
    obtain ⟨proc, hproc⟩ := Option.isSome_iff_exists.mp hproc
    refine ⟨victim, ?_⟩
    rw [Scheduler.sampleMemory]
    refine (if_neg hover).trans ?_
    simp only [hvictim, hproc]
    rfl

/-- The constructor's product, which wraps. -/
theorem withBudget_budget (s : Scheduler n) (nrWorkers maxMemorySize : UInt64) :
    (s.withBudget nrWorkers maxMemorySize).budget.toNat =
      nrWorkers.toNat * maxMemorySize.toNat % 2 ^ 64 :=
  UInt64.toNat_mul _ _

/-- The budget is not looked at by the count, -/
theorem withBudget_count (s : Scheduler n) (nrWorkers maxMemorySize : UInt64) (phase : Phase) :
    (s.withBudget nrWorkers maxMemorySize).count phase = s.count phase :=
  rfl

/-- nor by the load, -/
theorem withBudget_exactLoad (s : Scheduler n) (nrWorkers maxMemorySize own : UInt64) :
    (s.withBudget nrWorkers maxMemorySize).exactLoad own = s.exactLoad own :=
  rfl

/-- nor by the bounds. -/
theorem Bounded.withBudget {nrWorkers maxMemorySize : UInt64} (h : s.Bounded own) :
    (s.withBudget nrWorkers maxMemorySize).Bounded own :=
  ⟨h.own, h.rss, h.estimate⟩

/-- The kill depends on the options through the budget only. -/
theorem withBudget_evicts_iff {nrWorkers maxMemorySize : UInt64} :
    (s.withBudget nrWorkers maxMemorySize).Evicts own rss ↔
      ¬(s.sampleWorkers rss).totalRss own ≤ (s.withBudget nrWorkers maxMemorySize).budget ∧
        ∃ victim, (s.sampleWorkers rss).largestBusy = some victim ∧
          ((s.sampleWorkers rss).workers victim).proc.isSome = true :=
  evicts_iff

/-- A product that does not wrap, or leaves room for every load, compares like its remainder. -/
theorem le_mod_iff {load bound product : Nat} (hload : load ≤ bound)
    (hfits : product < 2 ^ 64 ∨ bound ≤ product % 2 ^ 64) :
    load ≤ product % 2 ^ 64 ↔ load ≤ product := by
  rcases hfits with hlt | hroom
  · rw [Nat.mod_eq_of_lt hlt]
  · exact iff_of_true (hload.trans hroom) (hload.trans (hroom.trans (Nat.mod_le _ _)))

section Fits

variable {nrWorkers maxMemorySize : UInt64}

/-- Where the product does not hurt, every comparison is exact. -/
theorem budgetExact_of_fits (hfew : nrWorkers.toNat < 2 ^ 16)
    (hfits : nrWorkers.toNat * maxMemorySize.toNat < 2 ^ 64 ∨
      maxLoad nrWorkers.toNat ≤ nrWorkers.toNat * maxMemorySize.toNat % 2 ^ 64) :
    BudgetExact nrWorkers maxMemorySize where
  fitsBudget s own hs := by
    rw [fitsBudget_iff hfew hs.withBudget, withBudget_count, withBudget_exactLoad,
      withBudget_budget, le_mod_iff (exactLoad_le hs) hfits]
  sampleMemory s own rss hown hrss := by
    rw [totalRss_le_iff hfew hown hrss, withBudget_budget,
      le_mod_iff (sampled_exactRss_le hown hrss) hfits]

/-- The remainder for a smaller size is at most the exact product for the larger one. -/
theorem product_mono {smaller : UInt64} (hle : smaller ≤ maxMemorySize) {load : Nat}
    (h : load ≤ nrWorkers.toNat * smaller.toNat % 2 ^ 64) :
    load ≤ nrWorkers.toNat * maxMemorySize.toNat :=
  h.trans ((Nat.mod_le _ _).trans
    (Nat.mul_le_mul_left _ (UInt64.le_iff_toNat_le.mp hle)))

/-- And a larger size is never worse. -/
theorem budgetMonotone_of_fits (hfew : nrWorkers.toNat < 2 ^ 16)
    (hfits : nrWorkers.toNat * maxMemorySize.toNat < 2 ^ 64 ∨
      maxLoad nrWorkers.toNat ≤ nrWorkers.toNat * maxMemorySize.toNat % 2 ^ 64) :
    BudgetMonotone nrWorkers maxMemorySize where
  fitsBudget smaller hle s own hs hfit := by
    rw [(budgetExact_of_fits hfew hfits).fitsBudget s own hs]
    rw [fitsBudget_iff hfew hs.withBudget, withBudget_count, withBudget_exactLoad,
      withBudget_budget] at hfit
    exact hfit.imp_right (product_mono hle)
  sampleMemory smaller hle s own rss hown hrss hevicts := by
    rw [withBudget_evicts_iff] at hevicts ⊢
    obtain ⟨hover, hvictim⟩ := hevicts
    refine ⟨fun hroom => hover ?_, hvictim⟩
    -- room under the smaller budget would be room under the larger one
    rw [totalRss_le_iff hfew hown hrss, withBudget_budget] at hroom
    exact ((budgetExact_of_fits hfew hfits).sampleMemory s own rss hown hrss).mpr
      (product_mono hle hroom)

end Fits

/-- The first `busy` workers are busy, the others idle, and all memory is at its bound. -/
def fullPool (n busy : Nat) : Scheduler n :=
  { init n 0 0 false with
    estimate := 2 ^ 40 - 1
    workers := fun i =>
      { proc := some ⟨1⟩
        phase := if i < busy then .busy else .idle
        attrPath := if i < busy then some [] else none
        rss := 2 ^ 40 - 1 } }

/-- It keeps to the bounds. -/
theorem fullPool_bounded (n busy : Nat) : (fullPool n busy).Bounded (2 ^ 40 - 1) := by
  have hbound : (2 ^ 40 - 1 : UInt64).toNat < 2 ^ 40 := by decide
  exact ⟨hbound, fun _ => hbound, hbound⟩

/-- As many are busy as said. -/
theorem fullPool_count {n busy : Nat} (h : busy ≤ n) : (fullPool n busy).count .busy = busy := by
  have hcard := Fin.card_filter_val_lt (n := n) (m := busy)
  rw [min_eq_right h, Finset.card_filter] at hcard
  rw [count, countSlots]
  refine (Finset.sum_congr rfl fun i _ => ?_).trans hcard
  by_cases hi : (i : Nat) < busy <;> simp [fullPool, hi]

/-- Its load is the largest with that many busy workers. -/
theorem fullPool_load {n busy : Nat} (h : busy ≤ n) :
    (fullPool n busy).exactLoad (2 ^ 40 - 1) = (n + busy + 2) * (2 ^ 40 - 1) := by
  have hrss : (fullPool n busy).exactRss (2 ^ 40 - 1) = (n + 1) * (2 ^ 40 - 1) := by
    rw [exactRss]
    show 2 ^ 40 - 1 + ∑ i : Fin n, (2 ^ 40 - 1) = _
    rw [Finset.sum_const, Finset.card_univ, Fintype.card_fin, smul_eq_mul]
    omega
  rw [exactLoad, hrss, fullPool_count h]
  show (n + 1) * (2 ^ 40 - 1) + (busy + 1) * (2 ^ 40 - 1) = _
  omega

/-- The comparison for a full pool agrees only if the budget is not wrapped, or covers the
load of the pool. -/
theorem fits_of_fullPool {nrWorkers maxMemorySize : UInt64} {busy : Nat}
    (hfew : nrWorkers.toNat < 2 ^ 16) (hbusy : 0 < busy) (hle : busy ≤ nrWorkers.toNat)
    (h : ((fullPool nrWorkers.toNat busy).withBudget nrWorkers maxMemorySize).fitsBudget
        (2 ^ 40 - 1) = true ↔ (fullPool nrWorkers.toNat busy).count .busy = 0 ∨
      (fullPool nrWorkers.toNat busy).exactLoad (2 ^ 40 - 1) ≤
        nrWorkers.toNat * maxMemorySize.toNat) :
    nrWorkers.toNat * maxMemorySize.toNat < 2 ^ 64 ∨
      (nrWorkers.toNat + busy + 2) * (2 ^ 40 - 1) ≤
        nrWorkers.toNat * maxMemorySize.toNat % 2 ^ 64 := by
  rw [fitsBudget_iff hfew ((fullPool_bounded _ _).withBudget), withBudget_count,
    withBudget_exactLoad, fullPool_count hle, fullPool_load hle, withBudget_budget] at h
  -- the exact product covers every load once it wraps
  rcases Nat.lt_or_ge (nrWorkers.toNat * maxMemorySize.toNat) (2 ^ 64) with hlt | hge
  · exact .inl hlt
  · have hcovers : (nrWorkers.toNat + busy + 2) * (2 ^ 40 - 1) ≤
        nrWorkers.toNat * maxMemorySize.toNat := by omega
    rcases h.mpr (.inr hcovers) with hidle | hroom
    · exact absurd hidle hbusy.ne'
    · exact .inr hroom

/-- **When the budget does not wrap.** The comparisons with the budget are exact, and a larger
max-memory-size is never worse than a smaller one, exactly when the product of the two
options is below 2^64 or its remainder still covers the largest load. -/
theorem budget_exact_iff {workers size : Str} {nrWorkers maxMemorySize : UInt64}
    (hworkers : parsePositive (lit "workers") workers = .ok nrWorkers)
    (_hsize : parsePositive (lit "max-memory-size") size = .ok maxMemorySize)
    (hfew : nrWorkers.toNat < 2 ^ 16) :
    BudgetExact nrWorkers maxMemorySize ∧ BudgetMonotone nrWorkers maxMemorySize ↔
      nrWorkers.toNat * maxMemorySize.toNat < 2 ^ 64 ∨
        maxLoad nrWorkers.toNat ≤ nrWorkers.toNat * maxMemorySize.toNat % 2 ^ 64 := by
  have hpos := parsePositive_pos hworkers
  constructor
  · rintro ⟨hexact, -⟩
    -- a pool of busy workers reaches the largest load
    have hfits := fits_of_fullPool hfew hpos le_rfl
      (hexact.fitsBudget (fullPool nrWorkers.toNat nrWorkers.toNat) (2 ^ 40 - 1)
        (fullPool_bounded _ _))
    rwa [maxLoad, Nat.two_mul]
  · intro hfits
    exact ⟨budgetExact_of_fits hfew hfits, budgetMonotone_of_fits hfew hfits⟩

/-- With the default options, and four workers, nothing wraps. -/
theorem budget_exact_iff_defaults :
    BudgetExact 4 4096 ∧ BudgetMonotone 4 4096 ↔
      4 * 4096 < 2 ^ 64 ∨ maxLoad 4 ≤ 4 * 4096 % 2 ^ 64 :=
  @budget_exact_iff (lit "4") (lit "4096") 4 4096 rfl rfl (by decide)

/-- **What `takeJob` asks.** It asks for an idle slot, so one worker is not busy. With several
workers its answers are exact exactly when the product is below 2^64 or its remainder
covers the load of all but one of them; a single worker is never refused a job. -/
theorem fitsBudget_idle_iff {nrWorkers maxMemorySize : UInt64} (hfew : nrWorkers.toNat < 2 ^ 16) :
    (∀ (s : Scheduler nrWorkers.toNat) (own : UInt64) (i : Fin nrWorkers.toNat), s.Bounded own →
      (s.workers i).phase = .idle →
      ((s.withBudget nrWorkers maxMemorySize).fitsBudget own = true ↔
        s.count .busy = 0 ∨ s.exactLoad own ≤ nrWorkers.toNat * maxMemorySize.toNat)) ↔
      nrWorkers.toNat ≤ 1 ∨ nrWorkers.toNat * maxMemorySize.toNat < 2 ^ 64 ∨
        (2 * nrWorkers.toNat + 1) * (2 ^ 40 - 1) ≤
          nrWorkers.toNat * maxMemorySize.toNat % 2 ^ 64 := by
  constructor
  · intro h
    by_cases hone : nrWorkers.toNat ≤ 1
    · exact .inl hone
    · -- all are busy but the last one
      have hlast : nrWorkers.toNat - 1 < nrWorkers.toNat := by omega
      have hfits := fits_of_fullPool hfew (by omega) hlast.le
        (h (fullPool nrWorkers.toNat (nrWorkers.toNat - 1)) (2 ^ 40 - 1) ⟨_, hlast⟩
          (fullPool_bounded _ _) (if_neg (Nat.lt_irrefl _)))
      have hload : nrWorkers.toNat + (nrWorkers.toNat - 1) + 2 = 2 * nrWorkers.toNat + 1 := by
        omega
      rw [hload] at hfits
      exact .inr hfits
  · intro hfits s own i hs hidle
    have hcount := count_busy_lt hidle
    rw [fitsBudget_iff hfew hs.withBudget, withBudget_count, withBudget_exactLoad,
      withBudget_budget]
    rcases hfits with hone | hfits
    · have hzero : s.count .busy = 0 := by omega
      exact iff_of_true (.inl hzero) (.inl hzero)
    · have hload : s.exactLoad own ≤ (2 * nrWorkers.toNat + 1) * (2 ^ 40 - 1) :=
        (exactLoad_le_count hs).trans (Nat.mul_le_mul_right _ (by omega))
      rw [le_mod_iff hload hfits]

/-! ## A budget that wraps -/

/-- The first one of four workers evaluates the root. -/
def crowdedRun : List (Event 4) :=
  Event.calmPass 4 ++ [Event.line 0 msgNext 300] ++ Event.calmPass 4

/-- The run goes through. -/
theorem crowdedRun_isSome :
    ((system (Externals.plain [rootJson]) 4 (2 ^ 62) false).run System.anyCheck
      (system (Externals.plain [rootJson]) 4 (2 ^ 62) false).init crowdedRun).isSome = true := by
  decide +kernel

/-- Four workers with 2^62 MiB each are a budget of zero. The only busy worker is killed at
its first sample, although 400 MiB are in use. -/
theorem budget_wraps :
    let c := (system (Externals.plain [rootJson]) 4 (2 ^ 62) false).after System.anyCheck
      crowdedRun crowdedRun_isSome
    parsePositive (lit "workers") (lit "4") = .ok 4 ∧
      parsePositive (lit "max-memory-size") (lit "4611686018427387904") = .ok (2 ^ 62) ∧
      c.sched.budget = 0 ∧ c.sched.Evicts 100 (fun _ => 300) ∧
      (c.sched.sampleWorkers fun _ => 300).exactRss 100 = 400 ∧
      ¬BudgetExact 4 (2 ^ 62) ∧ ¬BudgetMonotone 4 (2 ^ 62) := by
  intro c
  have hbudget : c.sched.budget = 0 := by decide +kernel
  have hrss : (c.sched.sampleWorkers fun _ => 300).exactRss 100 = 400 := by decide +kernel
  have hover : ¬(c.sched.sampleWorkers fun _ => 300).totalRss 100 ≤ 0 := by decide +kernel
  have hevicts : c.sched.Evicts 100 fun _ => 300 := by
    refine evicts_iff.mpr ⟨hbudget ▸ hover, 0, ?_, ?_⟩ <;> decide +kernel
  have hown : (100 : UInt64).toNat < 2 ^ 40 := by decide
  have hworker : (300 : UInt64).toNat < 2 ^ 40 := by decide
  have hsize : lit "4611686018427387904" = decimal (2 ^ 62 : UInt64).toNat := by decide +kernel
  refine ⟨rfl, hsize ▸ parsePositive_decimal _ (by decide +kernel), hbudget, hevicts, hrss,
    fun hexact => ?_, fun hmono => ?_⟩
  · -- 400 MiB are within the product of the options, but not within its remainder 0
    have h := hexact.sampleMemory c.sched 100 (fun _ => 300) hown fun _ => hworker
    have hwraps : (c.sched.withBudget 4 (2 ^ 62)).budget = 0 := by decide +kernel
    have hfits : 400 ≤ (4 : UInt64).toNat * (2 ^ 62 : UInt64).toNat := by decide +kernel
    rw [hwraps] at h
    exact hover (h.mpr (hrss.trans_le hfits))
  · -- a size of 4096 MiB spares the worker
    have hsmaller : (4096 : UInt64) ≤ 2 ^ 62 := by decide +kernel
    have h := hmono.sampleMemory 4096 hsmaller c.sched 100 (fun _ => 300) hown (fun _ => hworker)
      (withBudget_evicts_iff.mpr (evicts_iff.mp hevicts))
    have hroom : (c.sched.sampleWorkers fun _ => 300).totalRss 100 ≤ 4 * 4096 := by decide +kernel
    exact (withBudget_evicts_iff.mp h).1 hroom

end Scheduler

end NixEvalJobs
