import Mathlib.Data.List.Basic
import ScopeTags.Proofs.LineReading

/-!
# How tags are spelled

A comment carries a tag just when it is a spelling of one, blanks around it aside.  A spelling has
five parts, and each of them ends where the next one starts: no hash is a blank, neither is the at
sign, no colon stands in a name, and no value starts with a blank.  So a text is a spelling in one
way at most, and reading it part by part from the left finds that way.

## Key results

- `Tag.Spelling.eq_of_text_eq`: a text is spelled in one way
- `Tag.ofComment?_of_spelling`, `Tag.exists_spelling`: reading finds the spellings and nothing else
- `Tag.comment_grammar`: what that means for comments, and for tags that are written out
-/

namespace ScopeTags

/-! ## Runs of characters of a class -/

section Runs

variable {p : Char → Bool} {l l' r r' : List Char}

/-- Nothing is dropped where the first character is of another class. -/
private theorem dropWhile_eq_self (hr : ∀ c ∈ r.head?, p c = false) : r.dropWhile p = r := by
  cases r with
  | nil => rfl
  | cons c r => exact List.dropWhile_cons_of_neg (by simp [hr c rfl])

/-- A run of characters of a class ends where another character follows. -/
private theorem span_append (hl : ∀ c ∈ l, p c = true) (hr : ∀ c ∈ r.head?, p c = false) :
    (l ++ r).takeWhile p = l ∧ (l ++ r).dropWhile p = r := by
  have hdrop : (l ++ r).dropWhile p = r := by
    rw [List.dropWhile_append_of_pos hl, dropWhile_eq_self hr]
  refine ⟨?_, hdrop⟩
  have hsplit := List.takeWhile_append_dropWhile (p := p) (l := l ++ r)
  rw [hdrop] at hsplit
  exact List.append_cancel_right hsplit

/-- So two texts that start with such runs have the same runs if they are the same. -/
private theorem append_inj_of_span (h : l ++ r = l' ++ r') (hl : ∀ c ∈ l, p c = true)
    (hl' : ∀ c ∈ l', p c = true) (hr : ∀ c ∈ r.head?, p c = false)
    (hr' : ∀ c ∈ r'.head?, p c = false) : l = l' ∧ r = r' := by
  obtain ⟨htake, hdrop⟩ := span_append hl hr
  obtain ⟨htake', hdrop'⟩ := span_append hl' hr'
  exact ⟨by rw [← htake, h, htake'], by rw [← hdrop, h, hdrop']⟩

end Runs

/-! ## Blanks around a text -/

namespace Text

/-- Whether no blank stands at either end of the text. -/
def isTrimmed (cs : List Char) : Bool :=
  cs.head?.all (!isBlank ·) && cs.getLast?.all (!isBlank ·)

/-- No blank at the start, and none at the end. -/
private theorem isTrimmed_iff {cs : List Char} : isTrimmed cs = true ↔
    (∀ c ∈ cs.head?, isBlank c = false) ∧ ∀ c ∈ cs.getLast?, isBlank c = false := by
  simp [isTrimmed, Option.all_eq_true]

/-- What has been trimmed does not end in a blank. -/
private theorem isBlank_getLast?_trim (cs : List Char) :
    ∀ c ∈ (trim cs).getLast?, isBlank c = false := by
  intro c hc
  have hhead := List.head?_dropWhile_not isBlank (cs.dropWhile isBlank).reverse
  rw [trim, trimEnd, List.getLast?_reverse] at hc
  rwa [Option.mem_def.mp hc] at hhead

/-- Blanks around a text without any at its ends are trimmed off. -/
private theorem trim_padded {before cs after : List Char} (hbefore : ∀ c ∈ before, isBlank c = true)
    (hafter : ∀ c ∈ after, isBlank c = true) (hne : cs ≠ []) (hcs : isTrimmed cs = true) :
    trim (before ++ cs ++ after) = cs := by
  rw [isTrimmed_iff] at hcs
  -- The text keeps the blanks on its two sides apart.
  have hhead : ∀ c ∈ (cs ++ after).head?, isBlank c = false := by
    intro c hc
    rw [List.head?_append_of_ne_nil _ hne] at hc
    exact hcs.1 c hc
  have hlast : ∀ c ∈ cs.reverse.head?, isBlank c = false := by
    rw [List.head?_reverse]
    exact hcs.2
  rw [trim, trimEnd, List.append_assoc, (span_append hbefore hhead).2, List.reverse_append,
    (span_append (by simpa using hafter) hlast).2, List.reverse_reverse]

end Text

namespace Tag

/-! ## Spellings -/

/-- Whether the characters make the name of a tag. -/
def isName : List Char → Bool
  | [] => false
  | c :: cs => isNameStart c && cs.all isNameChar

/-- Whether the characters make a value: something on one line that does not start with a blank. -/
def isValue (cs : List Char) : Bool :=
  cs.head?.any (!Text.isBlank ·) && !cs.contains '\n'

/-- The parts of a text that spells a tag. -/
structure Spelling where
  hashes : List Char
  gap : List Char
  name : List Char
  space : List Char
  value : List Char
  hashes_ne : hashes ≠ []
  hashes_eq : ∀ c ∈ hashes, c = '#'
  gap_blank : ∀ c ∈ gap, Text.isBlank c = true
  name_isName : isName name = true
  space_blank : ∀ c ∈ space, Text.isBlank c = true
  value_isValue : isValue value = true

/-- A character that a name may start with may stand in it anywhere. -/
theorem isNameChar_of_isNameStart {c : Char} (h : isNameStart c = true) : isNameChar c = true := by
  have hword : Source.isPlainWordChar c = true := by
    simp only [isNameStart, Source.isPlainWordChar, Char.isAlphanum, Bool.or_eq_true] at h ⊢
    exact h.imp_left .inl
  have hclass := (Source.classes_of_isPlainWordChar hword).2.1
  simp only [isNameChar, Bool.or_eq_true, decide_eq_true_eq]
  exact .inl (.inl hclass)

/-- All characters of a name may stand in one. -/
private theorem isNameChar_of_isName {cs : List Char} (h : isName cs = true) :
    ∀ c ∈ cs, isNameChar c = true := by
  cases cs with
  | nil => nofun
  | cons c cs =>
    rw [isName, Bool.and_eq_true, List.all_eq_true] at h
    exact List.forall_mem_cons.mpr ⟨isNameChar_of_isNameStart h.1, h.2⟩

/-- What makes a value. -/
private theorem isValue_iff {cs : List Char} :
    isValue cs = true ↔ cs ≠ [] ∧ (∀ c ∈ cs.head?, Text.isBlank c = false) ∧ '\n' ∉ cs := by
  cases cs <;> simp [isValue]

namespace Spelling

/-- The value and the blanks in front of it. -/
def tail (s : Spelling) : List Char := s.space ++ s.value

/-- What comes after the at sign. -/
def body (s : Spelling) : List Char := s.name ++ ':' :: s.tail

/-- The whole text. -/
def text (s : Spelling) : List Char := s.hashes ++ (s.gap ++ '@' :: s.body)

/-- The tag that is spelled. -/
def tag (s : Spelling) : Tag := ⟨String.ofList s.name, String.ofList s.value⟩

variable (s : Spelling)

/-- A value starts with something that is no blank. -/
private theorem isBlank_head?_value : ∀ c ∈ s.value.head?, Text.isBlank c = false :=
  (isValue_iff.mp s.value_isValue).2.1

/-- The characters of the name. -/
private theorem isNameChar_name :
    ∀ c ∈ s.name, isNameChar c = true := isNameChar_of_isName s.name_isName

/-- A name ends at the colon. -/
private theorem span_body :
    s.body.takeWhile isNameChar = s.name ∧ s.body.dropWhile isNameChar = ':' :: s.tail :=
  span_append s.isNameChar_name fun c hc => by
    obtain rfl := Option.some.inj hc
    decide

/-- The at sign ends the blanks in front of it. -/
private theorem isBlank_at : ∀ c ∈ ('@' :: s.body).head?, Text.isBlank c = false := by
  intro c hc
  obtain rfl := Option.some.inj hc
  decide

/-- What follows the hashes starts with a blank or with the at sign. -/
private theorem ne_hash_of_head? :
    ∀ c ∈ (s.gap ++ '@' :: s.body).head?, decide (c = '#') = false := by
  intro c hc
  cases hgap : s.gap with
  | nil =>
    rw [hgap] at hc
    obtain rfl := Option.some.inj hc
    decide
  | cons d ds =>
    rw [hgap] at hc
    obtain rfl := Option.some.inj hc
    have hblank := s.gap_blank d (by simp [hgap])
    exact decide_eq_false fun h => absurd (h ▸ hblank) (by decide)

/-- A text is spelled in one way. -/
theorem eq_of_text_eq {s s' : Spelling} (h : s.text = s'.text) : s = s' := by
  have hhash (s : Spelling) : ∀ c ∈ s.hashes, decide (c = '#') = true :=
    fun c hc => decide_eq_true (s.hashes_eq c hc)
  -- From the left, each part is the longest stretch of its kind.
  obtain ⟨hhashes, h⟩ := append_inj_of_span h (hhash s) (hhash s') s.ne_hash_of_head?
    s'.ne_hash_of_head?
  obtain ⟨hgap, h⟩ := append_inj_of_span h s.gap_blank s'.gap_blank s.isBlank_at s'.isBlank_at
  have hbody : s.body = s'.body := List.tail_eq_of_cons_eq h
  have hname : s.name = s'.name := by rw [← s.span_body.1, hbody, s'.span_body.1]
  have htail : s.tail = s'.tail :=
    List.tail_eq_of_cons_eq (s.span_body.2.symm.trans (hbody ▸ s'.span_body.2))
  obtain ⟨hspace, hvalue⟩ := append_inj_of_span htail s.space_blank s'.space_blank
    s.isBlank_head?_value s'.isBlank_head?_value
  cases s
  cases s'
  simp only [mk.injEq]
  exact ⟨hhashes, hgap, hname, hspace, hvalue⟩

/-- A blank at the end of the value would be one at the end of the text. -/
private theorem isTrimmed_value {cs : List Char} (h : s.text = Text.trim cs) :
    Text.isTrimmed s.value = true := by
  refine Text.isTrimmed_iff.mpr
    ⟨s.isBlank_head?_value, fun c hc => Text.isBlank_getLast?_trim cs c ?_⟩
  have hvalue : s.value ≠ [] := (isValue_iff.mp s.value_isValue).1
  have hsplit : s.text = (s.hashes ++ s.gap ++ '@' :: s.name ++ ':' :: s.space) ++ s.value := by
    simp [text, body, tail]
  rw [← h, hsplit, List.getLast?_append_of_ne_nil _ hvalue]
  exact hc

end Spelling

/-! ## Reading -/

/-- The name, the colon and the value are read. -/
private theorem ofBody?_of_spelling (s : Spelling) : ofBody? s.body = some s.tag := by
  obtain ⟨htake, hdrop⟩ := s.span_body
  have hvalue : s.tail.dropWhile Text.isBlank = s.value :=
    (span_append s.space_blank s.isBlank_head?_value).2
  obtain ⟨hne, -, hline⟩ := isValue_iff.mp s.value_isValue
  have hname := s.name_isName
  cases hcs : s.name with
  | nil => simp [hcs, isName] at hname
  | cons c cs =>
    rw [hcs, isName, Bool.and_eq_true] at hname
    simp only [ofBody?, htake, hdrop, hcs, hvalue]
    rw [if_pos ⟨hname.1, hne, hline⟩, Spelling.tag, hcs]

/-- A comment that is a spelling carries the tag that is spelled. -/
theorem ofComment?_of_spelling {text : String} (s : Spelling)
    (h : s.text = Text.trim text.toList) : ofComment? text = some s.tag := by
  have hhash : ∀ c ∈ s.hashes, decide (c = '#') = true :=
    fun c hc => decide_eq_true (s.hashes_eq c hc)
  -- The first hash is asked for, and all further ones are passed over.
  cases hcs : s.hashes with
  | nil => exact absurd hcs s.hashes_ne
  | cons c cs =>
    obtain rfl : c = '#' := s.hashes_eq c (by simp [hcs])
    have hmore := (span_append (l := cs) (fun d hd => hhash d (by simp [hcs, hd]))
      s.ne_hash_of_head?).2
    have hgap := (span_append s.gap_blank s.isBlank_at).2
    rw [ofComment?, ← h, Spelling.text, hcs]
    simp only [List.cons_append, hmore, hgap, ofBody?_of_spelling]

/-- A body that can be read is that of a spelling, whatever the hashes and the blanks before it. -/
private theorem exists_spelling_of_ofBody? {cs hashes gap : List Char} {tag : Tag}
    (h : ofBody? cs = some tag) (hne : hashes ≠ []) (hhashes : ∀ c ∈ hashes, c = '#')
    (hgap : ∀ c ∈ gap, Text.isBlank c = true) :
    ∃ s : Spelling, s.text = hashes ++ (gap ++ '@' :: cs) ∧ s.tag = tag := by
  -- The parts are what the reading cuts the text into.
  have hsplit := List.takeWhile_append_dropWhile (p := isNameChar) (l := cs)
  unfold ofBody? at h
  split at h
  · next c name rest htake hdrop =>
    dsimp only at h
    split at h
    · next hok =>
      obtain ⟨hstart, hvalue, hline⟩ := hok
      have hrest := List.takeWhile_append_dropWhile (p := Text.isBlank) (l := rest)
      have hall : ∀ d ∈ c :: name, isNameChar d = true :=
        htake ▸ List.all_eq_true.mp List.all_takeWhile
      have hhead : ∀ d ∈ (rest.dropWhile Text.isBlank).head?, Text.isBlank d = false := by
        intro d hd
        have hstop := List.head?_dropWhile_not Text.isBlank rest
        rwa [Option.mem_def.mp hd] at hstop
      -- What is tested on the way is what a spelling has to fulfil.
      let s : Spelling :=
        { hashes, gap, name := c :: name, space := rest.takeWhile Text.isBlank
          value := rest.dropWhile Text.isBlank, hashes_ne := hne, hashes_eq := hhashes
          gap_blank := hgap
          name_isName := by
            rw [isName, hstart, Bool.true_and]
            exact List.all_eq_true.mpr fun d hd => hall d (List.mem_cons_of_mem c hd)
          space_blank := List.all_eq_true.mp List.all_takeWhile
          value_isValue := isValue_iff.mpr ⟨hvalue, hhead, hline⟩ }
      have hbody : s.body = cs := by
        rw [← hsplit, htake, hdrop, ← hrest]
        rfl
      exact ⟨s, by rw [Spelling.text, hbody], Option.some.inj h⟩
    · cases h
  · cases h

/-- A comment that carries a tag is a spelling of it. -/
theorem exists_spelling {text : String} {tag : Tag} (h : ofComment? text = some tag) :
    ∃ s : Spelling, s.text = Text.trim text.toList ∧ s.tag = tag := by
  unfold ofComment? at h
  split at h
  · next cs htrim =>
    split at h
    · next body hbody =>
      -- The hashes and the blanks are what was passed over on the way to the at sign.
      let hashes := cs.takeWhile (· = '#')
      let gap := (cs.dropWhile (· = '#')).takeWhile Text.isBlank
      have hcs : hashes ++ (gap ++ '@' :: body) = cs := by
        rw [← hbody, List.takeWhile_append_dropWhile, List.takeWhile_append_dropWhile]
      have hhashes : ∀ c ∈ '#' :: hashes, c = '#' :=
        List.forall_mem_cons.mpr ⟨rfl, fun c hc =>
          of_decide_eq_true (List.all_eq_true.mp List.all_takeWhile c hc)⟩
      obtain ⟨s, hs, htag⟩ := exists_spelling_of_ofBody? h (List.cons_ne_nil _ _) hhashes
        (List.all_eq_true.mp (List.all_takeWhile (l := cs.dropWhile (· = '#'))))
      exact ⟨s, by rw [hs, htrim, List.cons_append, hcs], htag⟩
    · cases h
  · cases h

/-! ## Writing -/

/-- The tag written out as a comment: hashes, a space, and the name and the value. -/
def comment (hashes : Nat) (tag : Tag) : String :=
  String.ofList (List.replicate hashes '#') ++ " @" ++ tag.name ++ ": " ++ tag.value

/-- The tag can be written out: its name is one, and its value is what is left of a line that has
    been trimmed. -/
structure Writable (tag : Tag) : Prop where
  name : isName tag.name.toList = true
  value_ne : tag.value ≠ ""
  line : '\n' ∉ tag.value.toList
  value : Text.isTrimmed tag.value.toList = true

/-- The value has characters. -/
private theorem Writable.value_toList_ne {tag : Tag} (h : tag.Writable) : tag.value.toList ≠ [] :=
  fun hnil => h.value_ne (String.toList_eq_nil_iff.mp hnil)

/-- The usual spelling of a tag. -/
def Writable.spelling {tag : Tag} (h : tag.Writable) {hashes : Nat} (hpos : 0 < hashes) :
    Spelling where
  hashes := List.replicate hashes '#'
  gap := [' ']
  name := tag.name.toList
  space := [' ']
  value := tag.value.toList
  hashes_ne := by simpa using Nat.ne_of_gt hpos
  hashes_eq c hc := List.eq_of_mem_replicate hc
  gap_blank := List.forall_mem_singleton.mpr (by decide)
  name_isName := h.name
  space_blank := List.forall_mem_singleton.mpr (by decide)
  value_isValue := isValue_iff.mpr ⟨h.value_toList_ne, (Text.isTrimmed_iff.mp h.value).1, h.line⟩

/-- The usual spelling is how a tag is written. -/
private theorem Writable.text_spelling {tag : Tag} (h : tag.Writable) {hashes : Nat}
    (hpos : 0 < hashes) : (h.spelling hpos).text = (tag.comment hashes).toList := by
  simp [spelling, Spelling.text, Spelling.body, Spelling.tail, comment]

/-- A tag that is written starts with a hash and ends as its value does. -/
private theorem Writable.isTrimmed_comment {tag : Tag} (h : tag.Writable) {hashes : Nat}
    (hpos : 0 < hashes) : Text.isTrimmed (tag.comment hashes).toList = true := by
  obtain ⟨n, rfl⟩ := Nat.exists_eq_succ_of_ne_zero (Nat.ne_of_gt hpos)
  refine Text.isTrimmed_iff.mpr ⟨fun c hc => ?_, fun c hc => (Text.isTrimmed_iff.mp h.value).2 c ?_⟩
  · have hhash : c = '#' := by simpa [comment, List.replicate_succ, eq_comm] using hc
    rw [hhash]
    decide
  · rw [comment, String.toList_append, List.getLast?_append_of_ne_nil _ h.value_toList_ne] at hc
    exact hc

/-- Blanks around it make no difference. -/
private theorem Writable.ofComment?_padded {tag : Tag} (h : tag.Writable) {hashes : Nat}
    (hpos : 0 < hashes) {before after : String}
    (hbefore : ∀ c ∈ before.toList, Text.isBlank c = true)
    (hafter : ∀ c ∈ after.toList, Text.isBlank c = true) :
    ofComment? (before ++ tag.comment hashes ++ after) = some tag := by
  have hne : (tag.comment hashes).toList ≠ [] := by
    rw [← h.text_spelling hpos]
    simp [Spelling.text, Spelling.body]
  have htrim : (h.spelling hpos).text =
      Text.trim (before ++ tag.comment hashes ++ after).toList := by
    rw [String.toList_append, String.toList_append,
      Text.trim_padded hbefore hafter hne (h.isTrimmed_comment hpos), h.text_spelling]
  rw [ofComment?_of_spelling _ htrim]
  simp [Spelling.tag, spelling]

/-- The tag of a comment can be written out. -/
private theorem Spelling.writable {cs : List Char} (s : Spelling) (h : s.text = Text.trim cs) :
    s.tag.Writable where
  name := by simpa [tag] using s.name_isName
  value_ne hnil := (isValue_iff.mp s.value_isValue).1 (by simpa [tag] using hnil)
  line := by simpa [tag] using (isValue_iff.mp s.value_isValue).2.2
  value := by simpa [tag] using s.isTrimmed_value h

/-- A comment carries a tag just when it is a spelling of the tag, blanks around it aside.  There is
    one such spelling at most, its value has no blank at either end, and without one the comment
    carries no tag.  A tag with a proper name and a value that is not empty, has no newline and no
    blank at either end can be written as a comment with any number of hashes and any blanks around
    it, and is what that comment carries; and the tag of any comment is such a tag. -/
theorem comment_grammar :
    (∀ (text : String) (tag : Tag), ofComment? text = some tag ↔
      ∃ s : Spelling, s.text = Text.trim text.toList ∧ s.tag = tag) ∧
    (∀ s s' : Spelling, s.text = s'.text → s = s') ∧
    (∀ (text : String) (s : Spelling), s.text = Text.trim text.toList →
      Text.isTrimmed s.value = true) ∧
    (∀ text : String, (¬∃ s : Spelling, s.text = Text.trim text.toList) →
      ofComment? text = none) ∧
    (∀ tag : Tag, isName tag.name.toList = true → tag.value ≠ "" → '\n' ∉ tag.value.toList →
      Text.isTrimmed tag.value.toList = true → ∀ hashes : Nat, 0 < hashes →
      ∀ before after : String,
        (∀ c ∈ before.toList, Text.isBlank c = true) →
        (∀ c ∈ after.toList, Text.isBlank c = true) →
        ofComment? (before ++ tag.comment hashes ++ after) = some tag) ∧
    ∀ (text : String) (tag : Tag), ofComment? text = some tag → ∀ hashes : Nat, 0 < hashes →
      ofComment? (tag.comment hashes) = some tag := by
  refine ⟨fun text tag => ⟨exists_spelling, ?_⟩, fun s s' => Spelling.eq_of_text_eq,
    fun text s => s.isTrimmed_value, fun text hnone => ?_, ?_, ?_⟩
  · rintro ⟨s, hs, rfl⟩
    exact ofComment?_of_spelling s hs
  · cases htag : ofComment? text with
    | none => rfl
    | some tag =>
      obtain ⟨s, hs, -⟩ := exists_spelling htag
      exact absurd ⟨s, hs⟩ hnone
  · intro tag hname hne hline htrimmed hashes hpos before after hbefore hafter
    have hwritable : tag.Writable := ⟨hname, hne, hline, htrimmed⟩
    exact hwritable.ofComment?_padded hpos hbefore hafter
  · intro text tag htag hashes hpos
    obtain ⟨s, hs, rfl⟩ := exists_spelling htag
    have hblank : ∀ c ∈ "".toList, Text.isBlank c = true := by simp
    have hread := (s.writable hs).ofComment?_padded hpos hblank hblank
    rwa [String.append_empty, String.empty_append] at hread

/-- A value may hold what the other parts of a comment are made of, and a colon after a blank does
    not make a name. -/
theorem comment_grammar_odd_value :
    let tag : Tag := ⟨"owner", "a: #b @c"⟩
    let text : String := "\t" ++ tag.comment 2 ++ " \n"
    isName tag.name.toList = true ∧ tag.value ≠ "" ∧ '\n' ∉ tag.value.toList ∧
      Text.isTrimmed tag.value.toList = true ∧ ofComment? text = some tag ∧
      (∃ s : Spelling, s.text = Text.trim text.toList ∧ s.tag = tag ∧
        Text.isTrimmed s.value = true ∧ ∀ s' : Spelling, s.text = s'.text → s = s') ∧
      ofComment? (tag.comment 5) = some tag ∧ ofComment? "# @owner : a" = none := by
  intro tag text
  obtain ⟨hiff, hunique, htrimmed, hnone, hwrite, hagain⟩ := comment_grammar
  have hname : isName tag.name.toList = true := by decide
  have hne : tag.value ≠ "" := by decide
  have hline : '\n' ∉ tag.value.toList := by decide
  have hvalue : Text.isTrimmed tag.value.toList = true := by decide
  have htag : ofComment? text = some tag :=
    hwrite tag hname hne hline hvalue 2 (by decide) "\t" " \n"
      (List.all_eq_true.mp (by decide)) (List.all_eq_true.mp (by decide))
  obtain ⟨s, hs, hstag⟩ := (hiff text tag).mp htag
  refine ⟨hname, hne, hline, hvalue, htag, ⟨s, hs, hstag, htrimmed text s hs, hunique s⟩,
    hagain text tag htag 5 (by decide), hnone "# @owner : a" ?_⟩
  rintro ⟨s', hs'⟩
  have hread := (hiff "# @owner : a" s'.tag).mpr ⟨s', hs', rfl⟩
  have hplain : ofComment? "# @owner : a" = none := by decide
  rw [hplain] at hread
  cases hread

end Tag

end ScopeTags
