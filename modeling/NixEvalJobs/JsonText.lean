import NixEvalJobs.Json
import NixEvalJobs.Lib.Utf8

/-!
# nix-eval-jobs — JSON as text

`parse` and `dump` of nlohmann are third-party code and stay a parameter. What
the scheduler relies on is documented: `dump` throws exactly on a string that is
not UTF-8 (`DumpsUtf8`). For concrete runs there is `JsonText.plain`, which
prints what nlohmann prints, floats apart, and parses the texts of given values, and
`JsonText.knowing`, which prints no others.
-/

namespace NixEvalJobs

/-- The text side of nlohmann: `parse(line, nullptr, false)` gives no value for a
line that is not JSON, `dump()` throws on a string that is not UTF-8. -/
structure JsonText where
  /-- The value of a line, if it is JSON. -/
  parse : Str → Option Json
  /-- The text of a value, if it does not throw. -/
  dump : Json → Option Str

namespace Json

mutual

/-- The strings of a value, the keys of its objects included. -/
def strings : Json → List Str
  | .string s => [s]
  | .array elems => elemStrings elems
  | .object fields => fieldStrings fields
  | _ => []

/-- The strings of the elements, in order. -/
def elemStrings : List Json → List Str
  | [] => []
  | value :: rest => value.strings ++ elemStrings rest

/-- Each key comes before the strings of its value. -/
def fieldStrings : List (Str × Json) → List Str
  | [] => []
  | (key, value) :: rest => key :: (value.strings ++ fieldStrings rest)

end

/-- An array of strings has these strings and no others. -/
theorem strings_ofStrings (ss : List Str) : (ofStrings ss).strings = ss := by
  rw [ofStrings, strings]
  induction ss with
  | nil => rfl
  | cons s ss ih => rw [List.map_cons, elemStrings, ih, strings, List.singleton_append]

end Json

/-- `dump` prints every value whose strings are UTF-8, and throws on the others. -/
def JsonText.DumpsUtf8 (T : JsonText) : Prop :=
  ∀ json, (T.dump json).isSome = true ↔ ∀ s ∈ json.strings, Utf8 s

/-- The texts of the program itself are ASCII and never make `dump` throw. -/
theorem utf8_of_ascii {s : String} (h : ∀ c ∈ s.toList, c.toNat < 128) : Utf8 (lit s) := by
  refine .of_ascii fun b hb => ?_
  obtain ⟨c, hc, rfl⟩ := List.mem_map.mp hb
  have hlt := h c hc
  rw [Fin.lt_def, Fin.val_ofNat, Nat.mod_eq_of_lt (by omega)]
  exact hlt

/-- The same with a premise that `decide` settles for a literal. -/
theorem utf8_lit {s : String} (h : s.toList.all (fun c => c.toNat < 128) = true) : Utf8 (lit s) :=
  utf8_of_ascii fun c hc => of_decide_eq_true (List.all_eq_true.mp h c hc)

/-- A number is printed in ASCII digits. -/
theorem utf8_decimal (n : Nat) : Utf8 (decimal n) := by
  refine utf8_of_ascii fun c hc => ?_
  rw [Nat.toString_eq_repr, Nat.toList_repr] at hc
  have hdigit := Nat.isDigit_of_mem_toDigits (by decide) (by decide) hc
  rw [Char.isDigit, Bool.and_eq_true, decide_eq_true_eq, decide_eq_true_eq] at hdigit
  have hle : c.toNat ≤ 57 := hdigit.2
  omega

/-! ## Printing -/

/-- A digit of a `\u` escape. -/
def hexDigit (n : Nat) : Byte := if n < 10 then Fin.ofNat 256 (48 + n) else Fin.ofNat 256 (87 + n)

/-- A byte inside a JSON string. -/
def escapeByte (c : Byte) : Str :=
  if c = 34 then lit "\\\""
  else if c = 92 then lit "\\\\"
  else if c = 8 then lit "\\b"
  else if c = 9 then lit "\\t"
  else if c = 10 then lit "\\n"
  else if c = 12 then lit "\\f"
  else if c = 13 then lit "\\r"
  else if c < 32 then lit "\\u00" ++ [hexDigit (c.val / 16), hexDigit (c.val % 16)]
  else [c]

/-- A string in quotes. A string that is not UTF-8 is the one thing `dump` throws on. -/
def dumpString (s : Str) : Option Str :=
  if Utf8 s then some (lit "\"" ++ s.flatMap escapeByte ++ lit "\"") else none

namespace Json

mutual

/-- `dump()`; no value printed here has a float in it. -/
def plainDump : Json → Option Str
  | .null => some (lit "null")
  | .bool b => some (if b then lit "true" else lit "false")
  | .unsigned n => some (decimal n.toNat)
  | .integer i => some (lit (toString i.toInt))
  | .float _ => some (lit "0.0")
  | .string s => dumpString s
  | .array elems => do return lit "[" ++ (← plainDumpElems elems) ++ lit "]"
  | .object fields => do return lit "\x7b" ++ (← plainDumpFields fields) ++ lit "\x7d"

/-- The elements, separated by commas. -/
def plainDumpElems : List Json → Option Str
  | [] => some []
  | value :: rest => do
    let text ← value.plainDump
    let more ← plainDumpElems rest
    return if rest.isEmpty then text else text ++ lit "," ++ more

/-- The members, in the order of the keys. -/
def plainDumpFields : List (Str × Json) → Option Str
  | [] => some []
  | (key, value) :: rest => do
    let name ← dumpString key
    let text ← value.plainDump
    let more ← plainDumpFields rest
    return name ++ lit ":" ++ if rest.isEmpty then text else text ++ lit "," ++ more

end

end Json

/-- The texts of the given values. -/
def JsonText.plain (values : List Json) : JsonText where
  dump := Json.plainDump
  parse line := values.find? fun value => value.plainDump = some line

/-- A string is printed exactly when it is UTF-8. -/
theorem dumpString_isSome {s : Str} : (dumpString s).isSome = true ↔ Utf8 s := by
  rw [dumpString]
  split <;> simp [*]

mutual

/-- A value is printed exactly when all its strings are UTF-8. The proof follows the three
printers through values, elements and members. -/
theorem Json.plainDump_isSome (json : Json) :
    (json.plainDump).isSome = true ↔ ∀ s ∈ json.strings, Utf8 s := by
  cases json with
  | string s => simp [Json.plainDump, Json.strings, dumpString_isSome]
  | array elems =>
    rw [Json.strings, ← Json.plainDumpElems_isSome elems, Json.plainDump]
    cases Json.plainDumpElems elems <;> simp
  | object fields =>
    rw [Json.strings, ← Json.plainDumpFields_isSome fields, Json.plainDump]
    cases Json.plainDumpFields fields <;> simp
  | _ => simp [Json.plainDump, Json.strings]

/-- An element that throws makes the array throw. -/
theorem Json.plainDumpElems_isSome (elems : List Json) :
    (Json.plainDumpElems elems).isSome = true ↔ ∀ s ∈ Json.elemStrings elems, Utf8 s := by
  cases elems with
  | nil => simp [Json.plainDumpElems, Json.elemStrings]
  | cons value rest =>
    rw [Json.elemStrings, List.forall_mem_append, ← Json.plainDump_isSome value,
      ← Json.plainDumpElems_isSome rest, Json.plainDumpElems]
    cases value.plainDump <;> cases Json.plainDumpElems rest <;> simp

/-- A key counts like a value here. -/
theorem Json.plainDumpFields_isSome (fields : List (Str × Json)) :
    (Json.plainDumpFields fields).isSome = true ↔ ∀ s ∈ Json.fieldStrings fields, Utf8 s := by
  cases fields with
  | nil => simp [Json.plainDumpFields, Json.fieldStrings]
  | cons e rest =>
    obtain ⟨key, value⟩ := e
    -- key, value and the remaining members, each by its own printer
    rw [Json.fieldStrings, List.forall_mem_cons, List.forall_mem_append,
      ← dumpString_isSome, ← Json.plainDump_isSome value, ← Json.plainDumpFields_isSome rest,
      Json.plainDumpFields]
    cases dumpString key <;> cases value.plainDump <;> cases Json.plainDumpFields rest <;> simp

end

/-- The printer of the concrete runs meets the documented behaviour. -/
theorem JsonText.plain_dumpsUtf8 (values : List Json) : (JsonText.plain values).DumpsUtf8 :=
  Json.plainDump_isSome

/-! ## Texts of known values -/

namespace Json

mutual

/-- Equality of values, member by member. -/
def same : Json → Json → Bool
  | .null, .null => true
  | .bool a, .bool b => a = b
  | .unsigned a, .unsigned b => a = b
  | .integer a, .integer b => a = b
  | .float a, .float b => a = b
  | .string a, .string b => a = b
  | .array as, .array bs => sameElems as bs
  | .object as, .object bs => sameFields as bs
  | _, _ => false

/-- Equality of arrays, the lengths included. -/
def sameElems : List Json → List Json → Bool
  | [], [] => true
  | a :: as, b :: bs => same a b && sameElems as bs
  | _, _ => false

/-- Equality of objects as sorted lists of members. -/
def sameFields : List (Str × Json) → List (Str × Json) → Bool
  | [], [] => true
  | (k, a) :: as, (l, b) :: bs => k = l && same a b && sameFields as bs
  | _, _ => false

end

mutual

/-- The test is sound: only a value itself passes for it. Runs only need this direction. -/
theorem eq_of_same {a b : Json} (h : same a b = true) : a = b := by
  cases a <;> cases b <;> simp only [same, decide_eq_true_eq, reduceCtorEq] at h
  case null.null => rfl
  case array.array => rw [eq_of_sameElems h]
  case object.object => rw [eq_of_sameFields h]
  all_goals rw [h]

/-- The same for arrays. -/
theorem eq_of_sameElems {as bs : List Json} (h : sameElems as bs = true) : as = bs := by
  match as, bs with
  | [], [] => rfl
  | a :: as, b :: bs =>
    rw [sameElems, Bool.and_eq_true] at h
    rw [eq_of_same h.1, eq_of_sameElems h.2]
  | [], _ :: _ | _ :: _, [] => cases h

/-- The same for objects. -/
theorem eq_of_sameFields {as bs : List (Str × Json)} (h : sameFields as bs = true) : as = bs := by
  match as, bs with
  | [], [] => rfl
  | (k, a) :: as, (l, b) :: bs =>
    rw [sameFields, Bool.and_eq_true, Bool.and_eq_true, decide_eq_true_eq] at h
    rw [h.1.1, eq_of_same h.1.2, eq_of_sameFields h.2]
  | [], _ :: _ | _ :: _, [] => cases h

end

end Json

/-- Prints and parses the given values and no others. -/
def JsonText.knowing (values : List Json) : JsonText where
  dump json := if values.any json.same then json.plainDump else none
  parse line := values.find? fun value => value.plainDump = some line

/-- What is printed is parsed back. -/
theorem JsonText.parse_knowing {values : List Json}
    (hdistinct : (values.map Json.plainDump).Nodup) {json : Json} {text : Str}
    (h : (JsonText.knowing values).dump json = some text) :
    json ∈ values ∧ (JsonText.knowing values).parse text = some json := by
  dsimp only [JsonText.knowing] at h ⊢
  split at h
  · next hknown =>
    obtain ⟨value, hmem, hsame⟩ := List.any_eq_true.mp hknown
    obtain rfl := Json.eq_of_same hsame
    refine ⟨hmem, ?_⟩
    -- the first value with this text is the only one
    have hfound : (values.find? fun value => value.plainDump = some text).isSome = true :=
      List.find?_isSome.mpr ⟨json, hmem, decide_eq_true h⟩
    obtain ⟨first, hfirst⟩ := Option.isSome_iff_exists.mp hfound
    rw [hfirst]
    have hdecide := List.find?_some hfirst
    have htext : first.plainDump = some text := of_decide_eq_true hdecide
    exact congrArg some (List.inj_on_of_nodup_map hdistinct (List.mem_of_find?_eq_some hfirst) hmem
      (htext.trans h.symm))
  · cases h

end NixEvalJobs
