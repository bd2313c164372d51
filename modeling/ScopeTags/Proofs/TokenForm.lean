import ScopeTags.Proofs.LineReading
import ScopeTags.Proofs.TokenOrder

/-!
# The form of tokens

What a token that was read can look like.  A comment is one line with its number sign in front; a
keyword is a reserved word with a class, and a construct where it introduces one; a constant is a
path of capitalized segments; an identifier is an operator or a word with at most one mark behind
it.  Tokens that are put together by hand need not be of that form, so it is a property of reading:
every piece of the text brings up tokens of that form only.

## Key results

- `Token.WellFormed`: the form of a token, by its kind
- `Source.take_pathLength`: what continues a constant is a path of segments
- `Reader.step?_wellFormed`: one step of reading
- `transcribe_wellFormed`: a whole transcript
-/

namespace ScopeTags

namespace Source

/-- Whether the text is a segment of a constant: a word that starts with an uppercase character. -/
def isSegment (s : String) : Bool := startsUppercase s.toList && s.toList.all isWordChar

/-- The characters make up a word with at most one mark behind it. -/
def MarkedWord (cs : List Char) : Prop :=
  ∃ c word mark, cs = c :: word ++ mark ∧ isWordStart c = true ∧
    (∀ d ∈ word, isWordChar d = true) ∧ mark ∈ [[], ['?'], ['!'], ['=']]

end Source

open Source (keywords operatorNames)

namespace Token

/-- A comment stands on one line, carries no carriage return at its end, and has the tag that its
    text spells. -/
structure CommentForm (t : Token) : Prop where
  head_eq : t.text.toList.head? = some '#'
  newline_notMem : '\n' ∉ t.text.toList
  getLast_ne : t.text.toList.getLast? ≠ some '\r'
  tagName_eq : t.tagName = (Tag.ofComment? t.text).map (·.name)
  tagValue_eq : t.tagValue = (Tag.ofComment? t.text).map (·.value)

/-- A keyword has a class.  It is one that introduces a construct only with the construct of the
    keyword, one that ends a construct only for an `end`, and else has no effect on scopes. -/
structure KeywordForm (t : Token) : Prop where
  text_mem : t.text ∈ keywords
  class_isSome : t.keywordClass.isSome = true
  newScope : t.keywordClass = some .newScope →
    (t.text = "module" ∧ t.construct = some .moduleDef) ∨
    (t.text = "class" ∧ t.construct = some .classDef) ∨
    (t.text = "def" ∧ (t.construct = some .method ∨ t.construct = some .instanceMethod))
  scopeEnd : t.keywordClass = some .scopeEnd → t.text = "end"
  other : KeywordClass.ofText t.text = .other → t.keywordClass = some .other
  construct_iff : t.construct.isSome = true ↔ t.keywordClass = some .newScope

/-- A constant is a path of segments, the first of which is no keyword. -/
def ConstantForm (t : Token) : Prop :=
  ∃ first more, t.text = String.intercalate "::" (first :: more) ∧ first ∉ keywords ∧
    ∀ s ∈ first :: more, Source.isSegment s = true

/-- An identifier is an operator, or a word with at most one mark behind it. -/
def IdentifierForm (t : Token) : Prop :=
  t.text ∈ operatorNames ∨ Source.MarkedWord t.text.toList

/-- The form of a token of its kind. -/
def Form (t : Token) : Prop :=
  match t.kind with
  | .comment => t.CommentForm
  | .keyword => t.KeywordForm
  | .constant => t.ConstantForm
  | .identifier => t.IdentifierForm

/-- The token has the form of its kind, and no class and no construct unless it is a keyword. -/
structure WellFormed (t : Token) : Prop where
  form : t.Form
  unclassified : t.kind ≠ .keyword → t.keywordClass = none ∧ t.construct = none

/-- The file of a token is no matter of its form. -/
theorem WellFormed.inFile {t : Token} (h : t.WellFormed) (file : Option String) :
    (t.inFile file).WellFormed := by
  obtain ⟨hform, hunclassified⟩ := h
  refine ⟨?_, hunclassified⟩
  obtain ⟨kind, text, tagName, tagValue, construct, keywordClass, location⟩ := t
  cases kind with
  | comment => exact { (show CommentForm _ from hform) with }
  | keyword => exact { (show KeywordForm _ from hform) with }
  | constant => exact hform
  | identifier => exact hform

section Made

variable {text : String} {location : Location}

/-- A line that starts with a number sign, as a comment. -/
private theorem wellFormed_comment {line : List Char} (hhead : line.head? = some '#')
    (hnewline : '\n' ∉ line) (hlast : line.getLast? ≠ some '\r') :
    WellFormed (.comment (String.ofList line) location) := by
  have htext : (String.ofList line).toList = line := String.toList_ofList
  have hform : CommentForm (.comment (String.ofList line) location) :=
    { head_eq := htext.symm ▸ hhead
      newline_notMem := htext.symm ▸ hnewline
      getLast_ne := htext.symm ▸ hlast
      tagName_eq := by simp only [comment]
      tagValue_eq := by simp only [comment] }
  exact ⟨hform, fun _ => ⟨rfl, rfl⟩⟩

/-- A constant, whose form is all that is asked of it. -/
private theorem wellFormed_constant (h : ConstantForm (.constant text location)) :
    WellFormed (.constant text location) :=
  ⟨h, fun _ => ⟨rfl, rfl⟩⟩

/-- An identifier, whose form is all that is asked of it. -/
private theorem wellFormed_identifier (h : IdentifierForm (.identifier text location)) :
    WellFormed (.identifier text location) :=
  ⟨h, fun _ => ⟨rfl, rfl⟩⟩

/-- A keyword, which may have a class and a construct. -/
private theorem wellFormed_keyword {keywordClass : Option KeywordClass}
    {construct : Option Construct}
    (h : KeywordForm (.keyword text keywordClass construct location)) :
    WellFormed (.keyword text keywordClass construct location) :=
  ⟨h, fun hk => absurd rfl hk⟩

/-- A keyword that has no effect on scopes. -/
private theorem wellFormed_other (h : text ∈ keywords) :
    WellFormed (.keyword text (some .other) none location) :=
  wellFormed_keyword
    { text_mem := h
      class_isSome := rfl
      newScope := fun hc => nomatch hc
      scopeEnd := fun hc => nomatch hc
      other := fun _ => rfl
      construct_iff := by simp [Token.keyword] }

/-- An end of a construct, which may be implied. -/
private theorem wellFormed_scopeEnd : WellFormed (.keyword "end" (some .scopeEnd) none location) :=
  wellFormed_keyword
    { text_mem := show "end" ∈ keywords by decide
      class_isSome := rfl
      newScope := fun hc => nomatch hc
      scopeEnd := fun _ => rfl
      other := fun hc => absurd hc (show KeywordClass.ofText "end" ≠ .other by decide)
      construct_iff := by simp [Token.keyword] }

/-- A keyword that introduces a construct. -/
private theorem wellFormed_newScope {construct : Construct}
    (h : (text = "module" ∧ construct = .moduleDef) ∨ (text = "class" ∧ construct = .classDef) ∨
      (text = "def" ∧ (construct = .method ∨ construct = .instanceMethod))) :
    WellFormed (.keyword text (some .newScope) (some construct) location) := by
  have htext : text = "module" ∨ text = "class" ∨ text = "def" :=
    h.imp And.left (Or.imp And.left And.left)
  refine wellFormed_keyword
    { text_mem := ?_
      class_isSome := rfl
      newScope := fun _ => ?_
      scopeEnd := fun hc => nomatch hc
      other := fun hc => ?_
      construct_iff := by simp [Token.keyword] }
  · show text ∈ keywords
    rcases htext with rfl | rfl | rfl <;> decide
  · show _ ∧ some construct = _ ∨ _ ∧ some construct = _ ∨ _
    simpa [Token.keyword] using h
  · have hother : KeywordClass.ofText text = .other := hc
    rcases htext with rfl | rfl | rfl <;> exact absurd hother (by decide)

end Made

end Token

namespace Source

/-! ## Words -/

/-- A word can start with any uppercase character. -/
private theorem isWordStart_of_isUppercase {c : Char} (h : Text.isUppercase c = true) :
    isWordStart c = true := by
  unfold Text.isUppercase at h
  split at h
  · exact (isWordStart_of_isUpper h).1
  · have hbeyond : 127 < c.toNat := by omega
    simp [isWordStart, hbeyond]

section Words

variable {c : Char} (hc : isWordStart c = true) (cs : List Char)

include hc

/-- A word has the character that it starts with. -/
private theorem takeWhile_isWordChar_cons :
    (c :: cs).takeWhile isWordChar = c :: cs.takeWhile isWordChar :=
  List.takeWhile_cons_of_pos (isWordChar_of_isWordStart hc)

/-- A word with a mark behind it. -/
private theorem markedWord_append {mark : List Char} (hmark : mark ∈ [[], ['?'], ['!'], ['=']]) :
    MarkedWord ((c :: cs).takeWhile isWordChar ++ mark) := by
  rw [takeWhile_isWordChar_cons hc]
  exact ⟨c, _, mark, rfl, hc, fun d hd => List.mem_takeWhile_imp hd, hmark⟩

/-- The word at the start of a text, with its mark. -/
private theorem markedWord_wordAt : MarkedWord (wordAt (c :: cs)) := by
  -- The word is taken as it is or with one mark.
  rcases wordAt_eq_or (c :: cs) with h | ⟨d, rest, -, hd, h⟩
  · rw [h, ← List.append_nil (List.takeWhile _ _)]
    exact markedWord_append hc cs (by simp)
  · rw [h]
    rcases hd with rfl | rfl <;> exact markedWord_append hc cs (by simp)

/-- The word starts with the character that the text starts with. -/
theorem startsUppercase_wordAt :
    startsUppercase (wordAt (c :: cs)) = startsUppercase (c :: cs) := by
  rcases wordAt_eq_or (c :: cs) with h | ⟨d, rest, -, -, h⟩ <;>
    rw [h, takeWhile_isWordChar_cons hc] <;> rfl

end Words

/-- A word that starts with an uppercase character takes no mark. -/
private theorem wordAt_of_startsUppercase {cs : List Char} (h : startsUppercase cs = true) :
    wordAt cs = cs.takeWhile isWordChar := by
  unfold wordAt
  dsimp only
  split
  · simp [h]
  · rfl

/-- A word that starts with an uppercase character is a segment. -/
private theorem isSegment_takeWhile {c : Char} (hc : Text.isUppercase c = true) (cs : List Char) :
    isSegment (String.ofList ((c :: cs).takeWhile isWordChar)) = true := by
  rw [isSegment, String.toList_ofList, Bool.and_eq_true, List.all_eq_true]
  constructor
  · rw [takeWhile_isWordChar_cons (isWordStart_of_isUppercase hc)]
    exact hc
  · exact fun d hd => List.mem_takeWhile_imp hd

/-- The characters of a word. -/
private theorem take_wordLength (cs : List Char) :
    cs.take (wordLength cs) = cs.takeWhile isWordChar :=
  (List.prefix_iff_eq_take.mp (List.takeWhile_prefix isWordChar)).symm

/-- What continues a constant is a path of segments. -/
theorem take_pathLength (cs : List Char) :
    ∃ more : List String, cs.take (pathLength cs) = more.flatMap (':' :: ':' :: ·.toList) ∧
      ∀ s ∈ more, isSegment s = true := by
  -- By induction on the path, segment by segment.
  fun_induction pathLength cs with
  | case1 c rest hc n ih =>
    obtain ⟨more, htake, hmore⟩ := ih
    refine ⟨String.ofList ((c :: rest).takeWhile isWordChar) :: more, ?_, ?_⟩
    · rw [Nat.add_assoc, Nat.add_comm 2, List.take_succ_cons, List.take_succ_cons, List.take_add,
        htake, take_wordLength, List.flatMap_cons, String.toList_ofList]
      rfl
    · exact List.forall_mem_cons.mpr ⟨isSegment_takeWhile hc rest, hmore⟩
  | case2 c rest hc => exact ⟨[], by simp, by simp⟩
  | case3 cs hcs => exact ⟨[], by simp, by simp⟩

/-- Each further segment has two colons in front. -/
private theorem toList_intercalate_colons (first : String) (more : List String) :
    (String.intercalate "::" (first :: more)).toList =
      first.toList ++ more.flatMap (':' :: ':' :: ·.toList) := by
  induction more generalizing first with
  | nil => simp
  | cons second more ih =>
    rw [String.intercalate_cons_cons, String.toList_append, ih, List.flatMap_cons]
    simp

/-- The word at the start of a text, as a constant that the path after it may continue. -/
private theorem constantForm_take {cs : List Char} (hupper : startsUppercase cs = true)
    (hkeyword : String.ofList (wordAt cs) ∉ keywords) (continues : Bool) (location : Location) :
    Token.ConstantForm (.constant (String.ofList (cs.take ((wordAt cs).length +
      if continues then pathLength (cs.drop (wordAt cs).length) else 0))) location) := by
  obtain ⟨c, cs, rfl⟩ : ∃ c cs', cs = c :: cs' := by
    cases cs with
    | nil => cases hupper
    | cons c cs => exact ⟨c, cs, rfl⟩
  have hword := wordAt_of_startsUppercase hupper
  have hfirst : isSegment (String.ofList (wordAt (c :: cs))) = true := by
    rw [hword]
    exact isSegment_takeWhile hupper cs
  -- Where the path is not followed, there are no further segments.
  obtain ⟨more, htake, hmore⟩ : ∃ more : List String,
      ((c :: cs).drop (wordAt (c :: cs)).length).take
          (if continues then pathLength ((c :: cs).drop (wordAt (c :: cs)).length) else 0) =
        more.flatMap (':' :: ':' :: ·.toList) ∧ ∀ s ∈ more, isSegment s = true := by
    cases continues with
    | true => exact take_pathLength _
    | false => exact ⟨[], by simp, by simp⟩
  refine ⟨String.ofList (wordAt (c :: cs)), more, ?_, hkeyword,
    List.forall_mem_cons.mpr ⟨hfirst, hmore⟩⟩
  apply String.toList_inj.mp
  rw [toList_intercalate_colons, String.toList_ofList]
  show (String.ofList _).toList = _
  rw [String.toList_ofList, List.take_add, htake,
    ← List.prefix_iff_eq_take.mp (wordAt_isPrefix (c :: cs))]

/-- The characters of a word and the one behind it. -/
private theorem take_succ_wordLength {cs rest : List Char} {d : Char}
    (h : cs.drop (wordLength cs) = d :: rest) :
    cs.take (wordLength cs + 1) = cs.takeWhile isWordChar ++ [d] := by
  rw [List.take_add, take_wordLength, h]
  rfl

/-- What is taken as an operator is one. -/
private theorem ofList_take_operatorLength {cs : List Char} (h : 0 < operatorLength cs) :
    String.ofList (cs.take (operatorLength cs)) ∈ operatorNames := by
  unfold operatorLength at h ⊢
  split
  · next name hname =>
    have hprefix : name.toList <+: cs := by simpa using List.find?_some hname
    rw [← String.length_toList, ← List.prefix_iff_eq_take.mp hprefix, String.ofList_toList]
    exact List.mem_of_find?_eq_some hname
  · next hnone =>
    rw [hnone] at h
    exact absurd h (Nat.lt_irrefl 0)

/-- The name of a method is a word with at most one mark, if it starts like a word. -/
private theorem markedWord_take_methodNameLength {c : Char} (hc : isWordStart c = true)
    (cs : List Char) : MarkedWord ((c :: cs).take (methodNameLength (c :: cs))) := by
  unfold methodNameLength
  rw [if_pos (by simpa using hc)]
  dsimp only
  -- One case for each of the three marks, and one for none.
  split
  · next hdrop =>
    rw [take_succ_wordLength hdrop]
    exact markedWord_append hc cs (by simp)
  · next hdrop =>
    rw [take_succ_wordLength hdrop]
    exact markedWord_append hc cs (by simp)
  · next hdrop =>
    rw [take_succ_wordLength hdrop]
    exact markedWord_append hc cs (by simp)
  · rw [take_wordLength, ← List.append_nil (List.takeWhile _ _)]
    exact markedWord_append hc cs (by simp)

/-- The name of a method is an identifier. -/
private theorem identifierForm_methodName {cs : List Char} (h : 0 < methodNameLength cs)
    (location : Location) :
    Token.IdentifierForm
      (.identifier (String.ofList (cs.take (methodNameLength cs))) location) := by
  by_cases hstart : cs.head?.any isWordStart = true
  · cases cs with
    | nil => cases hstart
    | cons c cs =>
      refine .inr ?_
      show MarkedWord (String.ofList _).toList
      rw [String.toList_ofList]
      exact markedWord_take_methodNameLength (by simpa using hstart) cs
  · have hoperator : methodNameLength cs = operatorLength cs := if_neg hstart
    rw [hoperator] at h ⊢
    exact .inl (ofList_take_operatorLength h)

namespace Reader

/-! ## One step -/

/-- The tokens that a reading brings up are well formed. -/
def BringsWellFormed (reading : Reading) : Prop :=
  ∀ t ∈ reading.1.filterMap Event.token?, t.WellFormed

/-- Of two readings, the one that is taken. -/
theorem BringsWellFormed.ite {p : Prop} [Decidable p] {x y : Reading}
    (hx : p → BringsWellFormed x) (hy : ¬p → BringsWellFormed y) :
    BringsWellFormed (if p then x else y) :=
  iteInduction hx hy

/-- An implied end has the form of a keyword. -/
private theorem EndsOnly.wellFormed {n : Nat} {found : List Event} (h : EndsOnly n found) :
    ∀ t ∈ found.filterMap Event.token?, t.WellFormed := by
  intro t ht
  rw [h] at ht
  rw [List.eq_of_mem_replicate ht]
  exact Token.wellFormed_scopeEnd

/-- A reading that brings up nothing but implied ends brings up well-formed tokens. -/
private theorem BringsEnds.wellFormed {reading : Reading} (h : BringsEnds reading) :
    BringsWellFormed reading := by
  obtain ⟨n, hends⟩ := h
  exact EndsOnly.wellFormed hends

/-- A reading that brings up one token. -/
private theorem bringsWellFormed_token {t : Token} (h : t.WellFormed) (next : Reader) :
    BringsWellFormed ([.token t], next) := by
  intro u hu
  obtain rfl : u = t := by simpa [Event.token?] using hu
  exact h

/-- What is trimmed does not end in a character that is to be trimmed. -/
private theorem not_of_getLast?_trimEnd {p : Char → Bool} {cs : List Char} {c : Char}
    (h : (Text.trimEnd p cs).getLast? = some c) : p c = false := by
  rw [Text.trimEnd, List.getLast?_reverse] at h
  have hhead := List.head?_dropWhile_not p cs.reverse
  rw [h] at hhead
  exact hhead

section Step

variable {r : Reader} {c : Char} {cs : List Char}

/-- A comment is read up to the end of its line. -/
private theorem readComment_wellFormed (hrest : r.rest = '#' :: cs) :
    BringsWellFormed r.readComment := by
  have hline : r.rest.takeWhile (· ≠ '\n') = '#' :: cs.takeWhile (· ≠ '\n') := by
    rw [hrest, List.takeWhile_cons_of_pos (by decide)]
  have hprefix : r.currentLine <+: r.rest.takeWhile (· ≠ '\n') := trimEnd_isPrefix _ _
  -- The number sign is not trimmed away, so it is still in front.
  have hhead : r.currentLine.head? = some '#' := by
    have hne : r.currentLine ≠ [] := by
      rw [Cursor.currentLine, hline]
      exact trimEnd_cons_ne_nil (by decide) _
    obtain ⟨c, line, hcons⟩ := List.exists_cons_of_ne_nil hne
    rw [hcons, hline, List.cons_prefix_cons] at hprefix
    rw [hcons, hprefix.1]
    rfl
  -- Neither character can be left: the line ends at the one, and the other is trimmed away.
  have hnewline : '\n' ∉ r.currentLine := by
    intro hmem
    simpa using List.mem_takeWhile_imp (List.IsPrefix.subset hprefix hmem)
  have hlast : r.currentLine.getLast? ≠ some '\r' := by
    intro hlast
    simpa using not_of_getLast?_trimEnd hlast
  exact bringsWellFormed_token (Token.wellFormed_comment hhead hnewline hlast) _

/-- A word that is taken as an identifier. -/
private theorem takeIdentifier_wellFormed (hrest : r.rest = c :: cs) (hc : isWordStart c = true) :
    BringsWellFormed (r.takeIdentifier (wordAt r.rest).length) := by
  refine bringsWellFormed_token (Token.wellFormed_identifier (.inr ?_)) _
  show MarkedWord (String.ofList _).toList
  rw [String.toList_ofList, ← List.prefix_iff_eq_take.mp (wordAt_isPrefix r.rest), hrest]
  exact markedWord_wordAt hc cs

/-- A word that is taken as a constant, with or without the path that follows. -/
private theorem takeConstant_wellFormed (hupper : startsUppercase r.rest = true)
    (hkeyword : String.ofList (wordAt r.rest) ∉ keywords) (continues : Bool) :
    BringsWellFormed (r.takeConstant ((wordAt r.rest).length +
      if continues then pathLength (r.rest.drop (wordAt r.rest).length) else 0)) :=
  bringsWellFormed_token
    (Token.wellFormed_constant (constantForm_take hupper hkeyword continues r.location)) _

/-- A definition brings up its keyword and perhaps its name. -/
private theorem readDefinition_wellFormed (r : Reader) : BringsWellFormed r.readDefinition := by
  unfold readDefinition
  extract_lets head spaces receiver there n construct opened keyword
  have hkeyword : Token.WellFormed
      (.keyword "def" (some .newScope) (some construct) r.location) := by
    apply Token.wellFormed_newScope
    -- Which method it is depends on the receiver, but both are constructs of a definition.
    by_cases hself : r.inSingletonClass ∨ 0 < receiver
    · exact .inr (.inr ⟨rfl, .inl (if_pos hself)⟩)
    · exact .inr (.inr ⟨rfl, .inr (if_neg hself)⟩)
  apply BringsWellFormed.ite
  · intro hn t ht
    have hname := Token.wellFormed_identifier (identifierForm_methodName hn there.location)
    obtain rfl | rfl : t = _ ∨ t = _ := by
      simpa [keyword, keywordHere, Event.token?] using ht
    · exact hkeyword
    · exact hname
  · exact fun _ => bringsWellFormed_token hkeyword _

/-- The keyword `class` introduces a construct, unless it opens a singleton class. -/
private theorem readClass_wellFormed (r : Reader) : BringsWellFormed r.readClass := by
  unfold readClass
  dsimp only
  split
  · exact bringsWellFormed_token (Token.wellFormed_other (by decide)) _
  · exact bringsWellFormed_token (Token.wellFormed_newScope (.inr (.inl ⟨rfl, rfl⟩))) _

/-- An `end` closes a construct that is a scope, or another one, or none. -/
private theorem readEnd_wellFormed (r : Reader) : BringsWellFormed r.readEnd := by
  unfold readEnd
  dsimp only
  -- A stray `end`, the `end` of a scope, and that of any other block.
  split
  · intro t ht
    obtain rfl : Token.keyword "end" (some .scopeEnd) none r.location = t := by
      simpa [keywordHere, Event.token?] using ht
    exact Token.wellFormed_scopeEnd
  · exact bringsWellFormed_token Token.wellFormed_scopeEnd _
  · exact bringsWellFormed_token (Token.wellFormed_other (by decide)) _

/-- A keyword, by what it does. -/
private theorem readKeyword_wellFormed {word : String} (h : word ∈ keywords) :
    BringsWellFormed (r.readKeyword word) := by
  unfold readKeyword
  apply BringsWellFormed.ite fun _ => r.readDefinition_wellFormed
  intro _
  apply BringsWellFormed.ite
  · exact fun _ => bringsWellFormed_token (Token.wellFormed_newScope (.inl ⟨rfl, rfl⟩)) _
  intro _
  apply BringsWellFormed.ite fun _ => r.readClass_wellFormed
  intro _
  apply BringsWellFormed.ite fun _ => r.readEnd_wellFormed
  exact fun _ => bringsWellFormed_token (Token.wellFormed_other h) _

/-- A word is a keyword, a constant or an identifier. -/
private theorem readWord_wellFormed (hrest : r.rest = c :: cs) (hc : isWordStart c = true) :
    BringsWellFormed r.readWord := by
  have hidentifier := takeIdentifier_wellFormed hrest hc
  have hupper : startsUppercase (wordAt r.rest) = startsUppercase r.rest := by
    rw [hrest]
    exact startsUppercase_wordAt hc cs
  unfold readWord
  extract_lets word rest text
  apply BringsWellFormed.ite
  · -- After a dot a keyword is no constant either.
    intro _
    apply BringsWellFormed.ite
    · intro h
      exact takeConstant_wellFormed (hupper ▸ h.1) h.2 _
    · exact fun _ => hidentifier
  intro _
  -- A label is passed over.  What is left is a keyword, and else goes by its first character.
  apply BringsWellFormed.ite fun _ => (bringsEnds_nil _).wellFormed
  intro _
  apply BringsWellFormed.ite fun h => readKeyword_wellFormed h
  intro hkeyword
  apply BringsWellFormed.ite
  · intro h
    exact takeConstant_wellFormed (hupper ▸ h) hkeyword true
  · exact fun _ => hidentifier

/-- Of all that a reader can meet, only comments and words bring up tokens of their own. -/
private theorem read_wellFormed (hrest : r.rest = c :: cs) : BringsWellFormed (r.read c cs) := by
  unfold read
  -- The end of a line implies ends of endless definitions, and blanks bring up nothing.
  apply BringsWellFormed.ite fun _ => r.readNewline_bringsEnds.wellFormed
  intro _
  apply BringsWellFormed.ite fun _ => (bringsEnds_nil _).wellFormed
  intro _
  apply BringsWellFormed.ite fun _ => (bringsEnds_nil _).wellFormed
  intro _
  apply BringsWellFormed.ite
  · rintro rfl
    exact readComment_wellFormed hrest
  intro _
  apply BringsWellFormed.ite fun hc => readWord_wellFormed hrest hc
  exact fun _ => (r.readPunctuation_bringsEnds c cs).wellFormed

/-- A step of reading brings up tokens that are well formed. -/
theorem step?_wellFormed {reading : Reading} (h : r.step? = some reading) :
    BringsWellFormed reading := by
  unfold step? at h
  split at h
  · cases h
  next c cs hrest =>
  -- Nothing is read after the marker for the end, and an embedded document has no tokens.
  split at h
  · cases h
  split at h
  · obtain rfl := Option.some.inj h
    exact (skipDocument_bringsEnds r.toCursor _).wellFormed
  · obtain rfl := Option.some.inj h
    exact read_wellFormed hrest

end Step

/-! ## All of a text -/

/-- The whole of a text, from any reader on. -/
private theorem events_wellFormed (r : Reader) :
    ∀ t ∈ r.events.filterMap Event.token?, t.WellFormed := by
  -- The induction follows the steps of the reader.
  fun_induction events r with
  | case1 r hstep => exact EndsOnly.wellFormed r.finish_endsOnly
  | case2 r found next hstep ih =>
    rw [List.filterMap_append]
    intro t ht
    rcases List.mem_append.mp ht with ht | ht
    · exact step?_wellFormed hstep t ht
    · exact ih t ht

end Reader

/-- Every token of a source is well formed. -/
theorem transcribe_wellFormed (strict : Bool) (file : Option String) (source : String) :
    ∀ t ∈ (transcribe strict file source).tokens, t.WellFormed := by
  intro t ht
  obtain ⟨u, hu, rfl⟩ :=
    List.mem_map.mp ((tokens_transcribe_isPrefix strict file source).subset ht)
  exact ((Reader.start source.toList).events_wellFormed u hu).inFile file

/-- A comment before a carriage return, and a path of two segments. -/
theorem transcribe_wellFormed_path :
    let tokens := (transcribe true none "# @domain: Billing\r\nmodule A::B\nend\n").tokens
    let comment := Token.comment "# @domain: Billing" { line := 1, column := 1 }
    let path := Token.constant "A::B" { line := 2, column := 8 }
    (comment ∈ tokens ∧ comment.WellFormed) ∧ path ∈ tokens ∧ path.WellFormed := by
  intro tokens comment path
  have hmem : comment ∈ tokens ∧ path ∈ tokens := by decide +kernel
  exact ⟨⟨hmem.1, transcribe_wellFormed true none _ comment hmem.1⟩, hmem.2,
    transcribe_wellFormed true none _ path hmem.2⟩

end Source

end ScopeTags
