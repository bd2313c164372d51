import Mathlib.Tactic.SplitIfs
import ScopeTags.Json

/-!
# Reading JSON

A reader of JSON texts.  A text is split into lexemes, with any blanks between them, and the lexemes
are taken one by one while a stack keeps the arrays and objects that have been begun.  An object
keeps its members in the order of the text.  Numbers are integers here: a text that holds one with a
fraction or an exponent has no value, and neither has one with half of a surrogate pair.

What `Json.render` writes is read back as the same value, whatever the indentation, and what it
writes is printable ASCII but for the newlines of an indentation.

## Key results

- `Json.char?_escape`: one character of a string
- `Json.lexemes?_chars`: the text of a value has the lexemes of the value
- `Json.run_lexemes`: the lexemes of a value make up that value
- `Json.read?_render`: reading undoes writing
- `Json.fits_chars`: the characters of a text
-/

namespace ScopeTags.Json

/-! ## Lexemes -/

/-- The smallest parts of a text. -/
inductive Lexeme where
  | openArray
  | closeArray
  | openObject
  | closeObject
  | comma
  | colon
  | null
  | bool (value : Bool)
  | number (value : Int)
  | string (value : String)
deriving DecidableEq, Repr

/-- The characters that may stand between lexemes. -/
def isBlank (c : Char) : Bool :=
  c = ' ' || c = '\t' || c = '\n' || c = '\r'

/-- The value of a hexadecimal digit. -/
def hexValue? (c : Char) : Option Nat :=
  if '0' ≤ c ∧ c ≤ '9' then some (c.toNat - 0x30)
  else if 'a' ≤ c ∧ c ≤ 'f' then some (c.toNat - 0x57)
  else if 'A' ≤ c ∧ c ≤ 'F' then some (c.toNat - 0x37)
  else none

/-- The code unit of UTF-16 that the four hexadecimal digits at the start of `cs` stand for, and
    what comes after them. -/
def unit? : List Char → Option (Nat × List Char)
  | a :: b :: c :: d :: cs => do
    let n := (← hexValue? a) * 0x1000 + (← hexValue? b) * 0x100 + (← hexValue? c) * 0x10
    return (n + (← hexValue? d), cs)
  | _ => none

/-- The first half of a surrogate pair. -/
def isHigh (n : Nat) : Bool := 0xd800 ≤ n ∧ n < 0xdc00

/-- The second half of a surrogate pair. -/
def isLow (n : Nat) : Bool := 0xdc00 ≤ n ∧ n < 0xe000

/-- The character that is written as a code unit, or as two of them, and what comes after it.  `cs`
    stands just past the letter that announces the first code unit. -/
def unicode? (cs : List Char) : Option (Char × List Char) := do
  let (n, rest) ← unit? cs
  if isHigh n then
    match rest with
    | '\\' :: 'u' :: rest => do
      let (m, rest) ← unit? rest
      if isLow m then
        some (Char.ofNat (0x10000 + (n - 0xd800) * 0x400 + (m - 0xdc00)), rest)
      else none
    | _ => none
  else if isLow n then none
  else some (Char.ofNat n, rest)

/-- The character that a backslash and `c` stand for. -/
def shortEscape? : Char → Option Char
  | '"' => some '"'
  | '\\' => some '\\'
  | '/' => some '/'
  | 'b' => some '\x08'
  | 'f' => some '\x0c'
  | 'n' => some '\n'
  | 'r' => some '\r'
  | 't' => some '\t'
  | _ => none

/-- The character of a string at the start of `cs`, and what comes after it. -/
def char? : List Char → Option (Char × List Char)
  | '\\' :: 'u' :: cs => unicode? cs
  | '\\' :: c :: cs => (shortEscape? c).map (·, cs)
  | c :: cs => if c.toNat < 0x20 ∨ c = '\\' then none else some (c, cs)
  | [] => none

/-- Four digits have been read. -/
private theorem length_unit? {cs rest : List Char} {n : Nat} (h : unit? cs = some (n, rest)) :
    rest.length < cs.length := by
  unfold unit? at h
  split at h
  · simp only [Option.bind_eq_bind, Option.bind_eq_some_iff, Option.pure_def, Option.some.injEq,
      Prod.mk.injEq] at h
    obtain ⟨_, _, _, _, _, _, _, _, _, rfl⟩ := h
    simp only [List.length_cons]
    omega
  · cases h

/-- One code unit has been read at least. -/
private theorem length_unicode? {cs rest : List Char} {c : Char}
    (h : unicode? cs = some (c, rest)) : rest.length < cs.length := by
  simp only [unicode?, Option.bind_eq_bind, Option.bind_eq_some_iff, Prod.exists] at h
  obtain ⟨n, after, hn, h⟩ := h
  have hlength := length_unit? hn
  -- A single unit, or a pair whose second half follows at once.
  split at h
  · split at h
    · simp only [Option.bind_eq_some_iff, Prod.exists] at h
      obtain ⟨m, after', hm, h⟩ := h
      have hlength' := length_unit? hm
      split at h
      · obtain ⟨-, rfl⟩ := Prod.mk.inj (Option.some.inj h)
        simp only [List.length_cons] at hlength
        omega
      · cases h
    · cases h
  · split at h
    · cases h
    · obtain ⟨-, rfl⟩ := Prod.mk.inj (Option.some.inj h)
      exact hlength

/-- Every character that is read makes the rest shorter. -/
private theorem length_char? {cs rest : List Char} {c : Char} (h : char? cs = some (c, rest)) :
    rest.length < cs.length := by
  unfold char? at h
  split at h
  · have := length_unicode? h
    simp only [List.length_cons]
    omega
  · obtain ⟨d, -, h⟩ := Option.map_eq_some_iff.mp h
    obtain ⟨-, rfl⟩ := Prod.mk.inj h
    simp only [List.length_cons]
    omega
  · split at h
    · cases h
    · obtain ⟨-, rfl⟩ := Prod.mk.inj (Option.some.inj h)
      exact Nat.lt_succ_self _
  · cases h

/-- The characters of the string up to its closing quote, and what comes after that. -/
def stringChars? (cs : List Char) : Option (List Char × List Char) :=
  if cs.head? = some '"' then some ([], cs.tail)
  else
    match _h : char? cs with
    | none => none
    | some (c, rest) => (stringChars? rest).map fun (chars, after) => (c :: chars, after)
termination_by cs.length
decreasing_by exact length_char? _h

/-- The number at the start of `cs`, without a zero before other digits, and what comes after it. -/
def natural? (cs : List Char) : Option (Nat × List Char) :=
  match cs.takeWhile Char.isDigit with
  | [] => none
  | '0' :: _ :: _ => none
  | digits => some (Nat.ofDigitChars 10 digits 0, cs.dropWhile Char.isDigit)

/-- The lexeme at the start of `cs`, and what comes after it. -/
def lexeme? : List Char → Option (Lexeme × List Char)
  | '[' :: cs => some (.openArray, cs)
  | ']' :: cs => some (.closeArray, cs)
  | '\x7b' :: cs => some (.openObject, cs)
  | '\x7d' :: cs => some (.closeObject, cs)
  | ',' :: cs => some (.comma, cs)
  | ':' :: cs => some (.colon, cs)
  | 'n' :: 'u' :: 'l' :: 'l' :: cs => some (.null, cs)
  | 't' :: 'r' :: 'u' :: 'e' :: cs => some (.bool true, cs)
  | 'f' :: 'a' :: 'l' :: 's' :: 'e' :: cs => some (.bool false, cs)
  | '"' :: cs => (stringChars? cs).map fun (chars, rest) => (.string (String.ofList chars), rest)
  | '-' :: cs => (natural? cs).map fun (n, rest) => (.number (-n), rest)
  | cs => (natural? cs).map fun (n, rest) => (.number n, rest)

/-- A string ends within the text. -/
private theorem length_stringChars? {cs chars rest : List Char}
    (h : stringChars? cs = some (chars, rest)) : rest.length ≤ cs.length := by
  fun_induction stringChars? cs generalizing chars with
  | case1 cs hquote =>
    obtain ⟨-, rfl⟩ := Prod.mk.inj (Option.some.inj h)
    simp only [List.length_tail]
    omega
  | case2 => cases h
  | case3 cs hquote c after hchar ih =>
    obtain ⟨⟨chars', rest'⟩, hrest, h⟩ := Option.map_eq_some_iff.mp h
    obtain ⟨-, rfl⟩ := Prod.mk.inj h
    have hlength := length_char? hchar
    have hlength' := ih hrest
    omega

/-- A number has a digit. -/
private theorem length_natural? {cs rest : List Char} {n : Nat} (h : natural? cs = some (n, rest)) :
    rest.length < cs.length := by
  have hsplit : (cs.takeWhile Char.isDigit).length + (cs.dropWhile Char.isDigit).length
      = cs.length := by
    rw [← List.length_append, List.takeWhile_append_dropWhile]
  unfold natural? at h
  split at h
  · cases h
  · cases h
  · next hnil _ =>
    obtain ⟨-, rfl⟩ := Prod.mk.inj (Option.some.inj h)
    have hpos := List.length_pos_iff.mpr hnil
    omega

/-- Every lexeme that is read makes the rest shorter. -/
private theorem length_lexeme? {cs rest : List Char} {l : Lexeme}
    (h : lexeme? cs = some (l, rest)) : rest.length < cs.length := by
  unfold lexeme? at h
  split at h
  -- The lexemes that are written in one way only, and then strings and numbers.
  all_goals try
    obtain ⟨-, rfl⟩ := Prod.mk.inj (Option.some.inj h)
    simp only [List.length_cons]
    omega
  all_goals
    obtain ⟨⟨value, rest'⟩, hvalue, h⟩ := Option.map_eq_some_iff.mp h
    obtain ⟨-, rfl⟩ := Prod.mk.inj h
  · have := length_stringChars? hvalue
    simp only [List.length_cons]
    omega
  · have := length_natural? hvalue
    simp only [List.length_cons]
    omega
  · exact length_natural? hvalue

/-- The lexemes of a text. -/
def lexemes? : List Char → Option (List Lexeme)
  | [] => some []
  | c :: cs =>
    if isBlank c then lexemes? cs
    else
      match _h : lexeme? (c :: cs) with
      | none => none
      | some (l, rest) => (lexemes? rest).map (l :: ·)
termination_by cs => cs.length
decreasing_by
  · exact Nat.lt_succ_self _
  · exact length_lexeme? _h

/-! ## Values -/

/-- An array or an object that has been begun, before the value that is being read. -/
inductive Begun where
  | array (items : List Json)
  | object (members : List (String × Json)) (key : String)

/-- Where the reading of a value stands.  The innermost array or object comes first in `outer`. -/
inductive State where
  /-- A value comes next. -/
  | value (outer : List Begun)
  /-- Just inside an array. -/
  | arrayStart (outer : List Begun)
  /-- Just inside an object. -/
  | objectStart (outer : List Begun)
  /-- The key of a further member comes next. -/
  | key (members : List (String × Json)) (outer : List Begun)
  /-- The colon after a key comes next. -/
  | colon (members : List (String × Json)) (key : String) (outer : List Begun)
  /-- A value has been read. -/
  | after (value : Json) (outer : List Begun)

/-- The value that begins with `l`. -/
def startValue (outer : List Begun) : Lexeme → Option State
  | .openArray => some (.arrayStart outer)
  | .openObject => some (.objectStart outer)
  | .null => some (.after .null outer)
  | .bool b => some (.after (.bool b) outer)
  | .number n => some (.after (.number n) outer)
  | .string s => some (.after (.string s) outer)
  | _ => none

/-- What one lexeme does. -/
def next? : State → Lexeme → Option State
  | .value outer, l => startValue outer l
  | .arrayStart outer, .closeArray => some (.after (.array []) outer)
  | .arrayStart outer, l => startValue (.array [] :: outer) l
  | .objectStart outer, .closeObject => some (.after (.object []) outer)
  | .objectStart outer, .string k => some (.colon [] k outer)
  | .key members outer, .string k => some (.colon members k outer)
  | .colon members k outer, .colon => some (.value (.object members k :: outer))
  | .after v (.array items :: outer), .comma => some (.value (.array (items ++ [v]) :: outer))
  | .after v (.array items :: outer), .closeArray => some (.after (.array (items ++ [v])) outer)
  | .after v (.object members k :: outer), .comma => some (.key (members ++ [(k, v)]) outer)
  | .after v (.object members k :: outer), .closeObject =>
    some (.after (.object (members ++ [(k, v)])) outer)
  | _, _ => none

/-- The value that a text stands for. -/
def read? (text : String) : Option Json := do
  match ← (← lexemes? text.toList).foldlM next? (.value []) with
  | .after v [] => some v
  | _ => none

/-! ## Characters of a string -/

/-- A digit is read back. -/
private theorem hexValue?_hexDigit : ∀ d < 16, hexValue? (Text.hexDigit d) = some d := by
  decide

/-- The four digits of a code unit are read back. -/
private theorem unit?_hex {n : Nat} (hn : n < 0x10000) (rest : List Char) :
    unit? (Text.hex 4 n ++ rest) = some (n, rest) := by
  have hdigit (m : Nat) : hexValue? (Text.hexDigit (m % 16)) = some (m % 16) :=
    hexValue?_hexDigit _ (Nat.mod_lt _ (by decide))
  simp only [Text.hex, List.nil_append, List.cons_append, unit?, hdigit, Option.bind_eq_bind,
    Option.bind_some, Option.pure_def, Option.some.injEq, Prod.mk.injEq, and_true]
  omega

/-- A character of one unit is read back, since no character is half of a surrogate pair. -/
private theorem unicode?_hex {c : Char} (hc : c.toNat < 0x10000) (rest : List Char) :
    unicode? (Text.hex 4 c.toNat ++ rest) = some (c, rest) := by
  have hvalid : c.toNat < 0xd800 ∨ 0xdfff < c.toNat ∧ c.toNat < 0x110000 := c.valid
  have hhigh : isHigh c.toNat = false := by
    simp only [isHigh, decide_eq_false_iff_not]
    omega
  have hlow : isLow c.toNat = false := by
    simp only [isLow, decide_eq_false_iff_not]
    omega
  simp [unicode?, unit?_hex hc, hhigh, hlow]

/-- The two halves of a surrogate pair, of ten bits each, make up one character. -/
private theorem unicode?_pair {high low : Nat} (hhigh : high < 0x400) (hlow : low < 0x400)
    (rest : List Char) :
    unicode? (Text.hex 4 (0xd800 + high) ++ escapeUnit (0xdc00 + low) ++ rest)
      = some (Char.ofNat (0x10000 + high * 0x400 + low), rest) := by
  have hisHigh : isHigh (0xd800 + high) = true := by
    simp only [isHigh, decide_eq_true_eq]
    omega
  have hisLow : isLow (0xdc00 + low) = true := by
    simp only [isLow, decide_eq_true_eq]
    omega
  have hunit := unit?_hex (show 0xd800 + high < 0x10000 by omega)
  have hunit' := unit?_hex (show 0xdc00 + low < 0x10000 by omega)
  simp only [unicode?, escapeUnit, List.append_assoc, List.cons_append, hunit, hunit', hisHigh,
    hisLow, Option.bind_eq_bind, Option.bind_some, if_true, Nat.add_sub_cancel_left]

/-- The four ways in which a character is written: by a letter, as it is, as one unit of sixteen
    bits, or as a surrogate pair. -/
inductive Escaped (c : Char) : List Char → Prop
  | letter {d : Char} (escape : shortEscape? d = some c)
      (printable : 0x20 ≤ d.toNat ∧ d.toNat ≤ 0x7e) : Escaped c ['\\', d]
  | plain (ne_quote : c ≠ '"') (ne_backslash : c ≠ '\\')
      (printable : 0x20 ≤ c.toNat ∧ c.toNat ≤ 0x7e) : Escaped c [c]
  | unit (lt : c.toNat < 0x10000) : Escaped c (escapeUnit c.toNat)
  | pair (le : 0x10000 ≤ c.toNat) :
      Escaped c (escapeUnit (0xd800 + (c.toNat - 0x10000) / 0x400)
        ++ escapeUnit (0xdc00 + (c.toNat - 0x10000) % 0x400))

/-- Every character is written in one of these ways. -/
private theorem escaped_escape (c : Char) : Escaped c (escape c) := by
  unfold escape
  by_cases hquote : c = '"'
  · subst hquote
    exact .letter rfl (by decide)
  rw [if_neg hquote]
  by_cases hbackslash : c = '\\'
  · subst hbackslash
    exact .letter rfl (by decide)
  rw [if_neg hbackslash]
  -- The other letters stand for characters that are not printable.
  iterate 5
    split
    · next hc =>
      subst hc
      exact .letter rfl (by decide)
  split
  · next hplain => exact .plain hquote hbackslash hplain
  split
  · next hunit => exact .unit hunit
  · next hunit => exact .pair (Nat.le_of_not_lt hunit)

/-- What is written in any of these ways is read back. -/
private theorem Escaped.char?_append {c : Char} {cs : List Char} (h : Escaped c cs)
    (rest : List Char) : char? (cs ++ rest) = some (c, rest) := by
  cases h with
  | @letter d hescape _ =>
    -- The letter that begins a unit has no character of its own.
    have hne : d ≠ 'u' := by
      rintro rfl
      cases hescape
    simp [char?, hescape]
  | plain _ hbackslash hplain => simp [char?, hbackslash, hplain.1]
  | unit hunit => exact unicode?_hex hunit rest
  | pair hpair =>
    have hvalid : c.toNat < 0xd800 ∨ 0xdfff < c.toNat ∧ c.toNat < 0x110000 := c.valid
    -- The two halves are a quotient and a remainder, which give the character again.
    have hvalue : 0x10000 + (c.toNat - 0x10000) / 0x400 * 0x400 + (c.toNat - 0x10000) % 0x400
        = c.toNat := by omega
    have hread := unicode?_pair (show (c.toNat - 0x10000) / 0x400 < 0x400 by omega)
      (Nat.mod_lt (c.toNat - 0x10000) (by decide)) rest
    rwa [hvalue, Char.ofNat_toNat] at hread

/-- Each character is read back, whichever way it is written. -/
theorem char?_escape (c : Char) (rest : List Char) :
    char? (escape c ++ rest) = some (c, rest) :=
  (escaped_escape c).char?_append rest

example : char? "\\uD83d\\ude00/".toList = some ('😀', ['/']) := by decide

example : char? "\\ude00".toList = none := by decide

/-- What a character is written as does not begin with a quote. -/
theorem Escaped.head?_append {c : Char} {cs : List Char} (h : Escaped c cs) (rest : List Char) :
    (cs ++ rest).head? ≠ some '"' := by
  cases h with
  | letter _ _ => simp
  | plain hquote _ _ => simp [hquote]
  | unit _ => simp [escapeUnit]
  | pair _ => simp [escapeUnit]

/-- The characters of a string are read back up to its closing quote. -/
private theorem stringChars?_flatMap_escape (cs rest : List Char) :
    stringChars? (cs.flatMap escape ++ '"' :: rest) = some (cs, rest) := by
  induction cs with
  | nil => rw [stringChars?]; rfl
  | cons c cs ih =>
    -- What a character is written as is not taken for the quote that ends the string.
    have hhead := (escaped_escape c).head?_append (cs.flatMap escape ++ '"' :: rest)
    rw [List.flatMap_cons, List.append_assoc, stringChars?, if_neg hhead]
    split
    · next h => rw [char?_escape] at h; cases h
    · next h =>
      rw [char?_escape] at h
      obtain ⟨rfl, rfl⟩ := Prod.mk.inj (Option.some.inj h)
      rw [ih, Option.map_some]

/-! ## Numbers -/

/-- A text that does not go on with a number. -/
def Stops (cs : List Char) : Prop := ∀ c ∈ cs.head?, c.isDigit = false

/-- A text that starts with another character does not. -/
private theorem stops_cons {c : Char} (h : c.isDigit = false) (cs : List Char) :
    Stops (c :: cs) := by
  intro d hd
  rwa [← Option.some.inj hd]

/-- No digit is taken from a text that does not go on with a number. -/
theorem Stops.takeWhile {cs : List Char} (h : Stops cs) : cs.takeWhile Char.isDigit = [] := by
  cases cs with
  | nil => rfl
  | cons c cs => rw [List.takeWhile_cons_of_neg (by simp [h c rfl])]

/-- No digit is dropped from a text that does not go on with a number. -/
theorem Stops.dropWhile {cs : List Char} (h : Stops cs) : cs.dropWhile Char.isDigit = cs := by
  cases cs with
  | nil => rfl
  | cons c cs => rw [List.dropWhile_cons_of_neg (by simp [h c rfl])]

/-- Only the numeral of zero begins with a zero. -/
private theorem toDigits_eq_zero {n : Nat} {cs : List Char} (h : Nat.toDigits 10 n = '0' :: cs) :
    cs = [] := by
  induction n using Nat.strongRecOn generalizing cs with
  | ind n ih =>
    rcases Nat.lt_or_ge n 10 with hlt | hge
    · rw [Nat.toDigits_of_lt_base hlt] at h
      exact (List.cons.inj h).2.symm
    · rw [Nat.toDigits_of_base_le (by decide) hge] at h
      obtain ⟨ds, hds⟩ : ∃ ds, Nat.toDigits 10 (n / 10) = '0' :: ds := by
        cases hq : Nat.toDigits 10 (n / 10) with
        | nil => exact absurd hq Nat.toDigits_ne_nil
        | cons d ds =>
          rw [hq, List.cons_append] at h
          exact ⟨ds, by rw [(List.cons.inj h).1]⟩
      -- The quotient would be zero, while it is at least one.
      have hnil := ih (n / 10) (by omega) hds
      have hvalue := Nat.ofDigitChars_ten_toDigits (n := n / 10)
      rw [hds, hnil] at hvalue
      have : Nat.ofDigitChars 10 ['0'] 0 = 0 := by decide
      omega

/-- A numeral is read back, if no further digit follows it. -/
private theorem natural?_toDigits (n : Nat) {rest : List Char} (h : Stops rest) :
    natural? (Nat.toDigits 10 n ++ rest) = some (n, rest) := by
  have hdigits : ∀ c ∈ Nat.toDigits 10 n, c.isDigit = true :=
    fun c hc => Nat.isDigit_of_mem_toDigits (by decide) (by decide) hc
  unfold natural?
  rw [List.takeWhile_append_of_pos hdigits, List.dropWhile_append_of_pos hdigits, h.takeWhile,
    h.dropWhile, List.append_nil]
  split
  · next hnil => exact absurd hnil Nat.toDigits_ne_nil
  · next hzero => cases toDigits_eq_zero hzero
  · rw [Nat.ofDigitChars_ten_toDigits]

/-- The numeral of an integer, with its sign. -/
private theorem toList_toString (n : Int) :
    (toString n).toList
      = if 0 ≤ n then Nat.toDigits 10 n.toNat else '-' :: Nat.toDigits 10 (-n).toNat := by
  rw [Int.toString_eq_repr, Int.repr_eq_if]
  split
  · rw [Nat.repr_eq_ofList_toDigits, String.toList_ofList]
  · rw [String.toList_append, Nat.repr_eq_ofList_toDigits, String.toList_ofList,
      String.toList_ofList, List.singleton_append]

/-- What starts with a digit is a number. -/
private theorem lexeme?_digit {c : Char} (hc : c.isDigit = true) (cs : List Char) :
    lexeme? (c :: cs) = (natural? (c :: cs)).map fun (n, rest) => (.number n, rest) := by
  unfold lexeme?
  split
  -- Each other lexeme starts with a character that is no digit.
  all_goals first
    | rfl
    | (next heq => exact absurd hc (by rw [(List.cons.inj heq).1]; decide))

/-- An integer is read back. -/
private theorem lexeme?_toString (n : Int) {rest : List Char} (h : Stops rest) :
    lexeme? ((toString n).toList ++ rest) = some (.number n, rest) := by
  rw [toList_toString]
  split
  · next hn =>
    -- No sign: the first digit tells that it is a number.
    obtain ⟨c, cs, hcs⟩ := List.exists_cons_of_ne_nil (Nat.toDigits_ne_nil (n := n.toNat) (b := 10))
    have hc : c.isDigit = true :=
      Nat.isDigit_of_mem_toDigits (by decide) (by decide) (hcs ▸ List.mem_cons_self)
    have hvalue := natural?_toDigits n.toNat h
    rw [hcs, List.cons_append] at hvalue ⊢
    rw [lexeme?_digit hc, hvalue]
    show some (Lexeme.number (n.toNat : Int), rest) = _
    rw [Int.toNat_of_nonneg hn]
  · next hn =>
    rw [List.cons_append]
    show (natural? _).map _ = _
    rw [natural?_toDigits _ h]
    show some (Lexeme.number (-((-n).toNat : Int)), rest) = _
    rw [Int.toNat_of_nonneg (by omega), Int.neg_neg]

/-! ## Lexemes of a value -/

mutual

/-- The lexemes of a value. -/
def lexemes : Json → List Lexeme
  | null => [.null]
  | bool b => [.bool b]
  | number n => [.number n]
  | string s => [.string s]
  | array [] => [.openArray, .closeArray]
  | array (item :: items) => .openArray :: lexemes item ++ itemLexemes items ++ [.closeArray]
  | object [] => [.openObject, .closeObject]
  | object ((key, value) :: members) =>
    .openObject :: .string key :: .colon :: lexemes value ++ memberLexemes members ++ [.closeObject]

/-- The lexemes of the items of an array after the first. -/
def itemLexemes : List Json → List Lexeme
  | [] => []
  | item :: items => .comma :: lexemes item ++ itemLexemes items

/-- The lexemes of the members of an object after the first. -/
def memberLexemes : List (String × Json) → List Lexeme
  | [] => []
  | (key, value) :: members =>
    .comma :: .string key :: .colon :: lexemes value ++ memberLexemes members

end

/-- What holds of a value when it holds of all the values inside holds of every value. -/
theorem induct {motive : Json → Prop} (null : motive .null) (bool : ∀ b, motive (.bool b))
    (number : ∀ n, motive (.number n)) (string : ∀ s, motive (.string s))
    (array : ∀ items, (∀ v ∈ items, motive v) → motive (.array items))
    (object : ∀ members, (∀ m ∈ members, motive m.2) → motive (.object members)) (v : Json) :
    motive v :=
  @Json.rec motive (fun items => ∀ v ∈ items, motive v) (fun members => ∀ m ∈ members, motive m.2)
    (fun m => motive m.2) null bool number string array object
    (by simp) (fun _ _ hv hvs => List.forall_mem_cons.mpr ⟨hv, hvs⟩)
    (by simp) (fun _ _ hm hms => List.forall_mem_cons.mpr ⟨hm, hms⟩) (fun _ _ hv => hv) v

/-- A blank between lexemes is passed over. -/
private theorem lexemes?_of_blank {c : Char} (h : isBlank c = true) (cs : List Char) :
    lexemes? (c :: cs) = lexemes? cs := by
  rw [lexemes?, if_pos h]

/-- No lexeme begins with a blank. -/
private theorem lexeme?_of_blank {c : Char} (h : isBlank c = true) (cs : List Char) :
    lexeme? (c :: cs) = none := by
  simp only [isBlank, Bool.or_eq_true, decide_eq_true_eq] at h
  rcases h with ((rfl | rfl) | rfl) | rfl <;> rfl

/-- The first lexeme comes before those of the rest. -/
private theorem lexemes?_of_lexeme? {cs rest : List Char} {l : Lexeme}
    (h : lexeme? cs = some (l, rest)) : lexemes? cs = (lexemes? rest).map (l :: ·) := by
  cases cs with
  | nil => cases h
  | cons c cs =>
    have hc : ¬isBlank c = true := fun hc => by cases (lexeme?_of_blank hc cs).symm.trans h
    rw [lexemes?, if_neg hc]
    split
    · next hnone => cases hnone.symm.trans h
    · next hsome =>
      obtain ⟨rfl, rfl⟩ := Prod.mk.inj (Option.some.inj (h.symm.trans hsome))
      rfl

section Text

variable (indent : Option Int) (level : Nat) (rest : List Char)

/-- An indentation is made of blanks. -/
private theorem lexemes?_lineBreak : lexemes? (lineBreak indent level ++ rest) = lexemes? rest := by
  cases indent with
  | none => rfl
  | some width =>
    have hspaces (n : Nat) : lexemes? (List.replicate n ' ' ++ rest) = lexemes? rest := by
      induction n with
      | zero => rfl
      | succ n ih => rw [List.replicate_succ, List.cons_append, lexemes?_of_blank (by decide), ih]
    simp only [lineBreak, List.cons_append]
    rw [lexemes?_of_blank (by decide), hspaces]

/-- What stands between items is a comma. -/
private theorem lexemes?_separator :
    lexemes? (separator indent level ++ rest) = (lexemes? rest).map (.comma :: ·) := by
  cases indent with
  | none =>
    show lexemes? (',' :: ' ' :: rest) = _
    rw [lexemes?_of_lexeme? rfl, lexemes?_of_blank (by decide)]
  | some width =>
    show lexemes? (',' :: (lineBreak (some width) level ++ rest)) = _
    rw [lexemes?_of_lexeme? rfl, lexemes?_lineBreak]

/-- A string is one lexeme. -/
private theorem lexemes?_quote (s : String) :
    lexemes? (quote s ++ rest) = (lexemes? rest).map (.string s :: ·) := by
  have h : lexeme? (quote s ++ rest) = some (.string s, rest) := by
    show (stringChars? (s.toList.flatMap escape ++ ['"'] ++ rest)).map _ = _
    rw [List.append_assoc, List.singleton_append, stringChars?_flatMap_escape]
    simp
  exact lexemes?_of_lexeme? h

/-- A colon is one lexeme, with the blank after it. -/
private theorem lexemes?_colon :
    lexemes? (':' :: ' ' :: rest) = (lexemes? rest).map (.colon :: ·) := by
  rw [lexemes?_of_lexeme? rfl, lexemes?_of_blank (by decide)]

variable {rest}

/-- An indentation starts with a newline, if it is there. -/
theorem Stops.lineBreak (h : Stops rest) : Stops (lineBreak indent level ++ rest) := by
  cases indent with
  | none => exact h
  | some width => exact stops_cons (by decide) _

/-- A comma ends a number. -/
private theorem stops_separator : Stops (separator indent level ++ rest) := by
  cases indent with
  | none => exact stops_cons (by decide) _
  | some width => exact stops_cons (by decide) _

/-- A number may stand before further items. -/
theorem Stops.itemChars (h : Stops rest) (items : List Json) :
    Stops (itemChars indent level items ++ rest) := by
  cases items with
  | nil => exact h
  | cons item items =>
    simp only [Json.itemChars, List.append_assoc]
    exact stops_separator indent level

/-- A number may stand before further members. -/
theorem Stops.memberChars (h : Stops rest) (members : List (String × Json)) :
    Stops (memberChars indent level members ++ rest) := by
  cases members with
  | nil => exact h
  | cons member members =>
    simp only [Json.memberChars, List.append_assoc]
    exact stops_separator indent level

/-- The text of `v` has the lexemes of `v`, wherever it stands. -/
def Spells (v : Json) : Prop :=
  ∀ (indent : Option Int) (level : Nat) (rest : List Char), Stops rest →
    lexemes? (chars indent level v ++ rest) = (lexemes? rest).map (v.lexemes ++ ·)

/-- The further items of an array. -/
private theorem lexemes?_itemChars {items : List Json} (hitems : ∀ v ∈ items, Spells v)
    (h : Stops rest) : lexemes? (itemChars indent level items ++ rest)
      = (lexemes? rest).map (itemLexemes items ++ ·) := by
  induction items with
  | nil => simp [itemChars, itemLexemes]
  | cons item items ih =>
    obtain ⟨hitem, hitems⟩ := List.forall_mem_cons.mp hitems
    simp only [itemChars, itemLexemes, List.append_assoc, lexemes?_separator,
      hitem indent level _ (h.itemChars indent level items), ih hitems, Option.map_map]
    simp [Function.comp_def]

/-- The further members of an object. -/
private theorem lexemes?_memberChars {members : List (String × Json)}
    (hmembers : ∀ m ∈ members, Spells m.2) (h : Stops rest) :
    lexemes? (memberChars indent level members ++ rest)
      = (lexemes? rest).map (memberLexemes members ++ ·) := by
  induction members with
  | nil => simp [memberChars, memberLexemes]
  | cons member members ih =>
    obtain ⟨hmember, hmembers⟩ := List.forall_mem_cons.mp hmembers
    simp only [memberChars, memberLexemes, List.append_assoc, List.cons_append, List.nil_append,
      lexemes?_separator, lexemes?_quote, lexemes?_colon,
      hmember indent level _ (h.memberChars indent level members), ih hmembers, Option.map_map]
    simp [Function.comp_def]

end Text

/-- An array, if it is so with its items. -/
private theorem spells_array {items : List Json} (hitems : ∀ v ∈ items, Spells v) :
    Spells (.array items) := by
  intro indent level rest h
  cases items with
  | nil =>
    show lexemes? ('[' :: ']' :: rest) = _
    rw [lexemes?_of_lexeme? rfl, lexemes?_of_lexeme? rfl, Option.map_map]
    rfl
  | cons item items =>
    obtain ⟨hitem, hitems⟩ := List.forall_mem_cons.mp hitems
    -- The last item may be a number, and the bracket ends it.
    have hclose : Stops (lineBreak indent level ++ ']' :: rest) :=
      (stops_cons (by decide) _).lineBreak indent level
    simp only [chars, lexemes, List.append_assoc, List.cons_append, List.nil_append]
    rw [lexemes?_of_lexeme? rfl, lexemes?_lineBreak,
      hitem _ _ _ (hclose.itemChars _ _ _), lexemes?_itemChars _ _ hitems hclose,
      lexemes?_lineBreak, lexemes?_of_lexeme? rfl]
    simp only [Option.map_map, Function.comp_def]

/-- An object, if it is so with its members. -/
private theorem spells_object {members : List (String × Json)}
    (hmembers : ∀ m ∈ members, Spells m.2) : Spells (.object members) := by
  intro indent level rest h
  cases members with
  | nil =>
    show lexemes? ('\x7b' :: '\x7d' :: rest) = _
    rw [lexemes?_of_lexeme? rfl, lexemes?_of_lexeme? rfl, Option.map_map]
    rfl
  | cons member members =>
    obtain ⟨hmember, hmembers⟩ := List.forall_mem_cons.mp hmembers
    -- The last member ends where the line does, whatever it is.
    have hclose : Stops (lineBreak indent level ++ '\x7d' :: rest) :=
      (stops_cons (by decide) _).lineBreak indent level
    simp only [chars, lexemes, List.append_assoc, List.cons_append, List.nil_append]
    rw [lexemes?_of_lexeme? rfl, lexemes?_lineBreak, lexemes?_quote, lexemes?_colon,
      hmember _ _ _ (hclose.memberChars _ _ _), lexemes?_memberChars _ _ hmembers hclose,
      lexemes?_lineBreak, lexemes?_of_lexeme? rfl]
    simp only [Option.map_map, Function.comp_def]

/-- The text of a value has the lexemes of the value. -/
theorem lexemes?_chars (v : Json) : Spells v := by
  -- By induction on the value.  Only a number depends on what stands behind it.
  induction v using induct with
  | null => exact fun _ _ _ _ => lexemes?_of_lexeme? rfl
  | bool b => cases b <;> exact fun _ _ _ _ => lexemes?_of_lexeme? rfl
  | number n => exact fun _ _ _ h => lexemes?_of_lexeme? (lexeme?_toString n h)
  | string s => exact fun _ _ rest _ => lexemes?_quote rest s
  | array items ih => exact spells_array ih
  | object members ih => exact spells_object ih

/-! ## Values of lexemes -/

/-- A value does not begin as an array ends. -/
private theorem exists_lexemes_eq_cons (v : Json) :
    ∃ l ls, v.lexemes = l :: ls ∧ l ≠ .closeArray := by
  cases v with
  | array items => cases items <;> exact ⟨.openArray, _, rfl, by decide⟩
  | object members => cases members <;> exact ⟨.openObject, _, rfl, by decide⟩
  | _ => exact ⟨_, _, rfl, by simp⟩

/-- Inside an array the first item is read as any other value. -/
private theorem run_arrayStart (v : Json) (outer : List Begun) :
    v.lexemes.foldlM next? (.arrayStart outer)
      = v.lexemes.foldlM next? (.value (.array [] :: outer)) := by
  obtain ⟨l, ls, hlexemes, hl⟩ := exists_lexemes_eq_cons v
  have hnext : next? (.arrayStart outer) l = next? (.value (.array [] :: outer)) l := by
    cases l <;> first | rfl | exact absurd rfl hl
  rw [hlexemes, List.foldlM_cons, List.foldlM_cons, hnext]

/-- The lexemes of `v` make up `v`, inside any arrays and objects. -/
def MakesUp (v : Json) : Prop :=
  ∀ outer, v.lexemes.foldlM next? (.value outer) = some (.after v outer)

/-- Further items are added at the end of those before. -/
private theorem run_itemLexemes {items : List Json} (hitems : ∀ v ∈ items, MakesUp v) (v : Json)
    (before : List Json) (outer : List Begun) :
    (itemLexemes items ++ [Lexeme.closeArray]).foldlM next? (.after v (.array before :: outer))
      = some (.after (.array (before ++ v :: items)) outer) := by
  -- By induction on the items that are left; `before` grows by the one that has been read.
  induction items generalizing v before with
  | nil => rfl
  | cons item items ih =>
    obtain ⟨hitem, hitems⟩ := List.forall_mem_cons.mp hitems
    rw [itemLexemes, List.cons_append, List.cons_append, List.append_assoc, List.foldlM_cons]
    show ((item.lexemes ++ _).foldlM next? (.value (.array (before ++ [v]) :: outer))) = _
    rw [List.foldlM_append, hitem, Option.bind_eq_bind, Option.bind_some, ih hitems]
    simp

/-- Further members are read back, each under its key. -/
private theorem run_memberLexemes {members : List (String × Json)}
    (hmembers : ∀ m ∈ members, MakesUp m.2) (key : String) (v : Json)
    (before : List (String × Json)) (outer : List Begun) :
    (memberLexemes members ++ [Lexeme.closeObject]).foldlM next?
        (.after v (.object before key :: outer))
      = some (.after (.object (before ++ (key, v) :: members)) outer) := by
  induction members generalizing key v before with
  | nil => rfl
  | cons member members ih =>
    obtain ⟨hmember, hmembers⟩ := List.forall_mem_cons.mp hmembers
    rw [memberLexemes]
    simp only [List.cons_append, List.append_assoc, List.foldlM_cons]
    show ((member.2.lexemes ++ _).foldlM next?
      (.value (.object (before ++ [(key, v)]) member.1 :: outer))) = _
    rw [List.foldlM_append, hmember, Option.bind_eq_bind, Option.bind_some, ih hmembers]
    simp

/-- The lexemes of a value make up that value. -/
theorem run_lexemes (v : Json) : MakesUp v := by
  -- By induction on the value, inside whatever has been begun around it.
  induction v using induct with
  | null | bool | number | string => exact fun _ => rfl
  | array items ih =>
    intro outer
    cases items with
    | nil => rfl
    | cons item items =>
      obtain ⟨hitem, hitems⟩ := List.forall_mem_cons.mp ih
      rw [lexemes, List.cons_append, List.cons_append, List.append_assoc, List.foldlM_cons]
      show ((item.lexemes ++ _).foldlM next? (.arrayStart outer)) = _
      rw [List.foldlM_append, run_arrayStart, hitem, Option.bind_eq_bind, Option.bind_some,
        run_itemLexemes hitems, List.nil_append]
  | object members ih =>
    intro outer
    cases members with
    | nil => rfl
    | cons member members =>
      obtain ⟨hmember, hmembers⟩ := List.forall_mem_cons.mp ih
      rw [lexemes]
      simp only [List.cons_append, List.append_assoc, List.foldlM_cons]
      show ((member.2.lexemes ++ _).foldlM next? (.value (.object [] member.1 :: outer))) = _
      rw [List.foldlM_append, hmember, Option.bind_eq_bind, Option.bind_some,
        run_memberLexemes hmembers, List.nil_append]

/-- Reading undoes writing, whatever the indentation. -/
theorem read?_render (indent : Option Int) (v : Json) : read? (v.render indent) = some v := by
  -- After the text of the value there is nothing.
  have hlexemes : lexemes? (chars indent 0 v) = some v.lexemes := by
    have h := lexemes?_chars v indent 0 [] (by simp [Stops])
    rw [List.append_nil] at h
    rw [h, lexemes?]
    simp
  simp only [read?, render, String.toList_ofList, hlexemes, Option.bind_eq_bind, Option.bind_some,
    run_lexemes v []]

example : read? "\t[-0 ,null]\n" = some (.array [.number 0, .null]) := by cbv

example : read? "[1, ]" = none := by cbv

/-! ## Characters of a text -/

/-- The characters a text may use: those of printable ASCII, and newlines if it is indented. -/
def Allowed (indent : Option Int) (c : Char) : Prop :=
  (0x20 ≤ c.toNat ∧ c.toNat ≤ 0x7e) ∨ (indent.isSome ∧ c = '\n')

/-- All characters of a text are allowed. -/
def Fits (indent : Option Int) (cs : List Char) : Prop := ∀ c ∈ cs, Allowed indent c

section Fits

variable {indent : Option Int}

@[simp] theorem fits_nil : Fits indent [] := by simp [Fits]

@[simp] theorem fits_cons {c : Char} {cs : List Char} :
    Fits indent (c :: cs) ↔ Allowed indent c ∧ Fits indent cs :=
  List.forall_mem_cons

@[simp] theorem fits_append {cs ds : List Char} :
    Fits indent (cs ++ ds) ↔ Fits indent cs ∧ Fits indent ds :=
  List.forall_mem_append

/-- Hexadecimal digits are printable. -/
@[simp] theorem fits_hex (width n : Nat) : Fits indent (Text.hex width n) := by
  have hdigit : ∀ d < 16, 0x20 ≤ (Text.hexDigit d).toNat ∧ (Text.hexDigit d).toNat ≤ 0x7e := by
    decide
  induction width generalizing n with
  | zero => exact fits_nil
  | succ width ih => simp [Text.hex, ih, Allowed, hdigit (n % 16) (Nat.mod_lt _ (by decide))]

/-- Whichever way a character is written, the text is printable. -/
theorem Escaped.fits {c : Char} {cs : List Char} (h : Escaped c cs) : Fits indent cs := by
  cases h with
  | letter _ hprintable => simp [Allowed, hprintable]
  | plain _ _ hprintable => simp [Allowed, hprintable]
  | unit _ => simp [Allowed, escapeUnit]
  | pair _ => simp [Allowed, escapeUnit]

/-- A string is printable. -/
@[simp] theorem fits_quote (s : String) : Fits indent (quote s) := by
  have hchars : Fits indent (s.toList.flatMap escape) :=
    List.forall_mem_flatMap.mpr fun c _ => (escaped_escape c).fits
  simp [quote, hchars, Allowed]

/-- A line break is there only with an indentation. -/
@[simp] theorem fits_lineBreak (level : Nat) : Fits indent (lineBreak indent level) := by
  cases indent with
  | none => exact fits_nil
  | some width =>
    have hspaces : Fits (some width) (List.replicate (width.toNat * level) ' ') :=
      fun c hc => by simp [List.eq_of_mem_replicate hc, Allowed]
    simp [lineBreak, hspaces, Allowed]

@[simp] theorem fits_separator (level : Nat) : Fits indent (separator indent level) := by
  cases indent with
  | none => simp [separator, Allowed]
  | some width => simp [separator, Allowed]

/-- A numeral is printable. -/
@[simp] theorem fits_toString (n : Int) : Fits indent (toString n).toList := by
  have hdigits (m : Nat) : Fits indent (Nat.toDigits 10 m) := by
    intro c hc
    have hdigit := Nat.isDigit_of_mem_toDigits (by decide) (by decide) hc
    have hrange : 0x30 ≤ c.toNat ∧ c.toNat ≤ 0x39 := Char.isDigit_iff_toNat.mp hdigit
    exact .inl (by omega)
  rw [toList_toString]
  split
  · exact hdigits _
  · simp [hdigits, Allowed]

/-- The further items of an array. -/
private theorem fits_itemChars {items : List Json} (level : Nat)
    (h : ∀ v ∈ items, ∀ level, Fits indent (chars indent level v)) :
    Fits indent (itemChars indent level items) := by
  induction items with
  | nil => exact fits_nil
  | cons item items ih =>
    obtain ⟨hitem, hitems⟩ := List.forall_mem_cons.mp h
    simp [itemChars, hitem level, ih hitems]

/-- The further members of an object. -/
private theorem fits_memberChars {members : List (String × Json)} (level : Nat)
    (h : ∀ m ∈ members, ∀ level, Fits indent (chars indent level m.2)) :
    Fits indent (memberChars indent level members) := by
  induction members with
  | nil => exact fits_nil
  | cons member members ih =>
    obtain ⟨hmember, hmembers⟩ := List.forall_mem_cons.mp h
    simp [memberChars, hmember level, ih hmembers, Allowed]

/-- The text of a value uses allowed characters only. -/
theorem fits_chars (v : Json) (level : Nat) : Fits indent (chars indent level v) := by
  induction v using induct generalizing level with
  | null => simp [chars, Allowed]
  | bool b => cases b <;> simp [chars, Allowed]
  | number n => exact fits_toString n
  | string s => exact fits_quote s
  | array items ih =>
    cases items with
    | nil => simp [chars, Allowed]
    | cons item items =>
      obtain ⟨hitem, hitems⟩ := List.forall_mem_cons.mp ih
      simp [chars, hitem, fits_itemChars _ hitems, Allowed]
  | object members ih =>
    cases members with
    | nil => simp [chars, Allowed]
    | cons member members =>
      obtain ⟨hmember, hmembers⟩ := List.forall_mem_cons.mp ih
      simp [chars, hmember, fits_memberChars _ hmembers, Allowed]

end Fits

end ScopeTags.Json
