import ScopeTags.Proofs.LineCounting
import ScopeTags.Proofs.StrictReading

/-!
# Positions of tokens

The location of a token is meant to be that of its first character.  It is, up to the first newline
that the reader steps over (`Reader.stepsOver`); from there on lines are too small by the number of
newlines that were stepped over.

`Reader.marks` goes along with the reading of a text and notes where each token stands.

## Key results

- `Reader.step?_brings`: the tokens of a step stand where its marks say
- `Reader.marks_spec`: so do all tokens of a text
- `transcribe_positions`: what that means for their lines and columns
-/

namespace ScopeTags

/-- The token has the location of the cursor, and its text starts there.  The text of a comment goes
    to the end of the line. -/
structure Token.StandsAt (t : Token) (k : Source.Cursor) : Prop where
  location_eq : t.location = k.location
  text_isPrefix : t.text.toList <+: k.rest
  text_ne_nil : t.text.toList ≠ []
  comment_eq : t.kind = .comment → t.text.toList = k.currentLine

/-- The token, read at `p`, has been read to its end at `p'`. -/
def Token.EndsBy (t : Token) (p p' : Source.Place) : Prop :=
  p.before.length + t.text.length ≤ p'.before.length

/-- The line of the token is the one of offset `o` in the source, and so is its column. -/
def Token.ExactAt (t : Token) (source : List Char) (o : Nat) : Prop :=
  t.location.line = 1 + (source.take o).count '\n' ∧
    t.location.column = 1 + ((source.take o).reverse.takeWhile (· ≠ '\n')).length

instance (t : Token) (source : List Char) (o : Nat) : Decidable (t.ExactAt source o) :=
  inferInstanceAs (Decidable (_ ∧ _))

namespace Source

/-- The token, if the event is one that stands in the text. -/
def Event.located? (event : Event) : Option Token := event.token?.filter (·.location.line ≠ 0)

/-- The tokens in the text are those that have a line. -/
theorem filterMap_located? (found : List Event) :
    found.filterMap Event.located? =
      (found.filterMap Event.token?).filter (·.location.line ≠ 0) := by
  rw [List.filter_filterMap]
  rfl

/-- A token that stands somewhere has one. -/
theorem line_ne_zero_of_standsAt {t : Token} {k : Cursor} (h : t.StandsAt k) (hk : 0 < k.line) :
    t.location.line ≠ 0 := by
  rw [h.location_eq]
  exact Int.natCast_ne_zero.mpr (Nat.ne_of_gt hk)

/-- Where all tokens have a line, none is left out. -/
theorem filterMap_located?_of_lines {found : List Event} {tokens : List Token}
    (h : found.filterMap Event.token? = tokens) (hlines : ∀ t ∈ tokens, t.location.line ≠ 0) :
    found.filterMap Event.located? = tokens := by
  rw [filterMap_located?, h, List.filter_eq_self]
  simpa using hlines

/-- The ends of endless definitions stand nowhere. -/
theorem EndsOnly.filterMap_located? {n : Nat} {found : List Event} (h : EndsOnly n found) :
    found.filterMap Event.located? = [] := by
  rw [Source.filterMap_located?, h, List.filter_replicate]
  rfl

namespace Reader

/-! ## One step -/

/-- A reading brings up no tokens but ends of endless definitions. -/
def BringsEnds (reading : Reading) : Prop := ∃ n, EndsOnly n reading.1

/-- Either of two readings brings up only ends if both do. -/
theorem BringsEnds.ite {p : Prop} [Decidable p] {x y : Reading} (hx : BringsEnds x)
    (hy : BringsEnds y) : BringsEnds (if p then x else y) :=
  iteInduction (fun _ => hx) fun _ => hy

/-- Reports are no tokens. -/
private theorem bringsEnds_of_reports {reading : Reading}
    (h : ∀ event ∈ reading.1, event.isReport = true) : BringsEnds reading :=
  ⟨0, endsOnly_of_reports h⟩

/-- Where nothing is found, there is no token. -/
private theorem bringsEnds_of_found_eq_nil {reading : Reading} (h : reading.1 = []) :
    BringsEnds reading :=
  bringsEnds_of_reports (by simp [h])

/-- A reader that only moves on brings up only ends. -/
theorem bringsEnds_nil (next : Reader) : BringsEnds ([], next) := bringsEnds_of_found_eq_nil rfl

/-- A literal is passed over; only that it is left open is reported. -/
private theorem skipLiteral_bringsEnds (r : Reader) (n : Nat) (frame : Nat → Frame) :
    BringsEnds (r.skipLiteral n frame) :=
  bringsEnds_of_reports (isReport_skipFrames _ _ _)

/-- From a colon on: a symbol, the double colon of a path, or nothing but the sign. -/
private theorem readColon_bringsEnds (r : Reader) (cs : List Char) :
    BringsEnds (r.readColon cs) := by
  unfold readColon
  split
  · exact bringsEnds_nil _
  · apply BringsEnds.ite (bringsEnds_nil _)
    apply BringsEnds.ite (r.skipLiteral_bringsEnds 2 _)
    apply BringsEnds.ite (bringsEnds_nil _)
    exact BringsEnds.ite (bringsEnds_nil _) (bringsEnds_nil _)

/-- A percent literal or an operator. -/
private theorem readPercent_bringsEnds (r : Reader) (cs : List Char) :
    BringsEnds (r.readPercent cs) := by
  unfold readPercent
  split
  · next type delim n _ =>
    exact BringsEnds.ite (bringsEnds_of_reports (isReport_skipFrames _ _ _)) (bringsEnds_nil _)
  · exact bringsEnds_nil _

/-- A regular expression or an operator. -/
private theorem readSlash_bringsEnds (r : Reader) (cs : List Char) :
    BringsEnds (r.readSlash cs) := by
  unfold readSlash
  exact BringsEnds.ite (bringsEnds_of_reports (isReport_skipFrames _ _ _)) (bringsEnds_nil _)

/-- Brackets and operators; a semicolon ends endless definitions. -/
private theorem readSign_bringsEnds (r : Reader) (c : Char) (cs : List Char) :
    BringsEnds (r.readSign c cs) := by
  have hsemicolon : BringsEnds r.readSemicolon := by
    obtain ⟨n, hends, -⟩ := (r.hop 1).closeEndless_endsOnly
    exact ⟨n, hends⟩
  have hdot : BringsEnds (r.readDot cs) := by
    unfold readDot
    split <;> exact bringsEnds_nil _
  unfold readSign
  apply BringsEnds.ite (bringsEnds_nil _)
  apply BringsEnds.ite (bringsEnds_nil _)
  apply BringsEnds.ite hsemicolon
  apply BringsEnds.ite hdot
  exact BringsEnds.ite (bringsEnds_nil _) (bringsEnds_nil _)

/-- Punctuation brings up no tokens that stand in the text. -/
theorem readPunctuation_bringsEnds (r : Reader) (c : Char) (cs : List Char) :
    BringsEnds (r.readPunctuation c cs) := by
  have hvariable := bringsEnds_of_found_eq_nil (r.found_readVariable cs)
  have hquestion := bringsEnds_of_found_eq_nil (r.found_readQuestionMark cs)
  have hlessThan := bringsEnds_of_found_eq_nil (r.found_readLessThan cs)
  unfold readPunctuation
  apply BringsEnds.ite (r.skipLiteral_bringsEnds 1 _)
  apply BringsEnds.ite (bringsEnds_nil _)
  apply BringsEnds.ite (r.readColon_bringsEnds cs)
  apply BringsEnds.ite hvariable
  apply BringsEnds.ite (bringsEnds_nil _)
  apply BringsEnds.ite (r.readPercent_bringsEnds cs)
  apply BringsEnds.ite (r.readSlash_bringsEnds cs)
  apply BringsEnds.ite hquestion
  exact BringsEnds.ite hlessThan (r.readSign_bringsEnds c cs)

/-- A newline, with the bodies of heredocs and the endless definitions that it ends. -/
theorem readNewline_bringsEnds (r : Reader) : BringsEnds r.readNewline := by
  have hreports := endsOnly_of_reports (isReport_skipBodies r.heredocs r.nextLine)
  obtain ⟨n, hends, -⟩ :=
    { r.moveTo (skipBodies r.heredocs r.nextLine).1 with heredocs := [] }.closeEndless_endsOnly
  exact ⟨_, hreports.append hends⟩

/-- An embedded document. -/
theorem skipDocument_bringsEnds (k : Cursor) (next : Reader) :
    BringsEnds ((skipDocument k).2, next) := by
  simp only [skipDocument]
  split
  · exact bringsEnds_nil _
  · exact bringsEnds_of_reports (by simp [Event.isReport])

/-- The tokens that a reading brings up: ends of endless definitions, one that stands where the
    reading starts, or a keyword that stands there and the name of the method that it defines.
    Those in the text lie one after the other between the two ends of the reading. -/
inductive Brings (r : Reader) (reading : Reading) : Prop where
  | nothing {n : Nat} (ends : EndsOnly n reading.1)
  | word {t : Token} (tokens_eq : reading.1.filterMap Event.token? = [t])
      (first : t.StandsAt r.toCursor) (ends : t.EndsBy r.toPlace reading.2.toPlace)
  | definition {t u : Token} (tokens_eq : reading.1.filterMap Event.token? = [t, u])
      (first : t.StandsAt r.toCursor) (second : u.StandsAt r.nameCursor)
      (heading : SameLine 3 r.rest) (apart : t.EndsBy r.toPlace r.nameCursor.toPlace)
      (reaches : r.nameCursor.Reaches reading.2.toPlace)
      (ends : u.EndsBy r.nameCursor.toPlace reading.2.toPlace)

/-- Either of two readings, by cases. -/
theorem Brings.ite {r : Reader} {p : Prop} [Decidable p] {x y : Reading}
    (hx : p → r.Brings x) (hy : ¬p → r.Brings y) : r.Brings (if p then x else y) :=
  iteInduction hx hy

section Step

variable {r : Reader}

/-- A reading that brings up only ends. -/
theorem BringsEnds.brings {reading : Reading} (h : BringsEnds reading) : r.Brings reading := by
  obtain ⟨n, hends⟩ := h
  exact .nothing hends

/-- A token whose characters are hopped over ends where the hop does. -/
private theorem endsBy_hop {t : Token} {k : Cursor} {p : Place} {n : Nat} (h : t.StandsAt k)
    (hn : t.text.length ≤ n) (hp : p = (k.hop n).toPlace) : t.EndsBy k.toPlace p := by
  have hlength : t.text.length ≤ k.rest.length := by
    rw [← String.length_toList]
    exact h.text_isPrefix.length_le
  rw [Token.EndsBy, hp]
  simp only [Cursor.hop, Place.along, List.length_append, List.length_reverse, List.length_take]
  omega

/-- A token whose characters are hopped over. -/
private theorem brings_token {t : Token} (h : t.StandsAt r.toCursor) {next : Reader} {n : Nat}
    (hn : t.text.length ≤ n) (hnext : next.toCursor = r.toCursor.hop n) :
    r.Brings ([.token t], next) :=
  .word rfl h (endsBy_hop h hn (congrArg Cursor.toPlace hnext))

/-- The text that is taken stands ahead. -/
private theorem toList_ofList_take_isPrefix (cs : List Char) (n : Nat) :
    (String.ofList (cs.take n)).toList <+: cs := by
  rw [String.toList_ofList]
  exact List.take_prefix n cs

/-- A slice is no longer than what is taken. -/
private theorem length_ofList_take_le (cs : List Char) (n : Nat) :
    (String.ofList (cs.take n)).length ≤ n := by
  rw [String.length_ofList, List.length_take]
  exact Nat.min_le_left _ _

/-- A slice is not empty where something can be taken. -/
private theorem toList_ofList_take_ne_nil {cs : List Char} (hcs : cs ≠ []) {n : Nat} (hn : 0 < n) :
    (String.ofList (cs.take n)).toList ≠ [] := by
  rw [String.toList_ofList, Ne, List.take_eq_nil_iff]
  rintro (rfl | rfl)
  · omega
  · exact hcs rfl

/-- A token that is no comment and that some of the characters ahead are taken for. -/
private theorem standsAt_of_text_eq_take {t : Token} {k : Cursor}
    (hlocation : t.location = k.location) (hkind : t.kind ≠ .comment) {n : Nat}
    (htext : t.text = String.ofList (k.rest.take n)) (hrest : k.rest ≠ []) (hn : 0 < n) :
    t.StandsAt k where
  location_eq := hlocation
  text_isPrefix := htext ▸ toList_ofList_take_isPrefix k.rest n
  text_ne_nil := htext ▸ toList_ofList_take_ne_nil hrest hn
  comment_eq h := absurd h hkind

section Taken

variable (hrest : r.rest ≠ []) {n : Nat} (hn : 0 < n)

include hrest hn

/-- A constant. -/
private theorem takeConstant_brings : r.Brings (r.takeConstant n) := by
  have hstands := standsAt_of_text_eq_take (k := r.toCursor)
    (t := Token.constant (String.ofList (r.rest.take n)) r.location) rfl (by simp [Token.constant])
    rfl hrest hn
  exact brings_token hstands (length_ofList_take_le r.rest n) rfl

/-- An identifier. -/
private theorem takeIdentifier_brings : r.Brings (r.takeIdentifier n) := by
  have hstands := standsAt_of_text_eq_take (k := r.toCursor)
    (t := Token.identifier (String.ofList (r.rest.take n)) r.location) rfl
    (by simp [Token.identifier]) rfl hrest hn
  exact brings_token hstands (length_ofList_take_le r.rest n) rfl

end Taken

section Keywords

variable {word : String} (hword : word.toList <+: r.rest) (hne : word.toList ≠ [])

include hword hne

/-- A keyword stands where it is read. -/
private theorem keywordHere_standsAt (keywordClass : KeywordClass) (construct : Option Construct) :
    (Token.keyword word (some keywordClass) construct r.location).StandsAt r.toCursor :=
  ⟨rfl, hword, hne, fun h => by cases h⟩

/-- A keyword that is all that a reading brings up. -/
private theorem keywordHere_brings (keywordClass : KeywordClass)
    (construct : Option Construct) {next : Reader}
    (hnext : next.toCursor = r.toCursor.hop word.length) :
    r.Brings ([r.keywordHere word keywordClass construct], next) :=
  brings_token (keywordHere_standsAt hword hne keywordClass construct) (Nat.le_refl _) hnext

end Keywords

/-- There is no name where the text has ended. -/
private theorem methodNameLength_nil : methodNameLength [] = 0 := rfl

/-- The keyword of a definition, and the name of the method if one follows. -/
private theorem readDefinition_brings (hword : "def".toList <+: r.rest) :
    r.Brings r.readDefinition := by
  have hheading : SameLine 3 r.rest := sameLine_of_prefix hword (by decide)
  unfold readDefinition
  extract_lets head spaces receiver there n construct opened keyword
  have hfirst := keywordHere_standsAt hword (by decide) .newScope (some construct)
  have hopened : opened.toCursor = r.nameCursor := there.toCursor_openDefinition _
  -- The keyword ends where the spaces before the name begin.
  have hapart : (Token.keyword "def" (some .newScope) (some construct) r.location).EndsBy r.toPlace
      r.nameCursor.toPlace :=
    Nat.le_trans (endsBy_hop hfirst (show "def".length ≤ 3 by decide) rfl)
      (Place.Reaches.along _ _).length_le
  apply Brings.ite
  · intro hn
    -- The name has characters, so there is text at its place.
    have hrest : there.rest ≠ [] := by
      intro hnil
      rw [show n = methodNameLength there.rest from rfl, hnil, methodNameLength_nil] at hn
      omega
    have hsecond : (Token.identifier (String.ofList (there.rest.take n)) there.location).StandsAt
        r.nameCursor :=
      ⟨rfl, toList_ofList_take_isPrefix there.rest n, toList_ofList_take_ne_nil hrest hn,
        fun h => by cases h⟩
    have hnext : (opened.hop n).toCursor = r.nameCursor.hop n := congrArg (Cursor.hop · n) hopened
    have hends := endsBy_hop hsecond (length_ofList_take_le there.rest n)
      (congrArg Cursor.toPlace hnext)
    exact .definition rfl hfirst hsecond hheading hapart
      (congrArg Cursor.toPlace hnext ▸ Place.Reaches.along _ _) hends
  · intro _
    rw [← hopened] at hapart
    exact .word rfl hfirst hapart

/-- A keyword, by what it does. -/
private theorem readKeyword_brings {word : String} (hword : word.toList <+: r.rest)
    (hne : word.toList ≠ []) : r.Brings (r.readKeyword word) := by
  unfold readKeyword
  apply Brings.ite
  · rintro rfl
    exact readDefinition_brings hword
  intro _
  apply Brings.ite
  · rintro rfl
    exact keywordHere_brings hword hne _ _ rfl
  intro _
  apply Brings.ite
  · rintro rfl
    unfold readClass
    dsimp only
    split <;> exact keywordHere_brings hword hne _ _ rfl
  intro _
  apply Brings.ite
  · rintro rfl
    unfold readEnd
    dsimp only
    split
    · -- The remark comes before the token.
      have hend := keywordHere_standsAt hword hne .scopeEnd none
      exact .word rfl hend (endsBy_hop hend (show "end".length ≤ 3 by decide) rfl)
    · exact keywordHere_brings hword hne _ _ rfl
    · exact keywordHere_brings hword hne _ _ rfl
  · intro _
    have hnext := congrArg (Cursor.hop · word.length) (r.toCursor_openBlockOf word)
    unfold readOtherKeyword
    dsimp only
    split <;> exact keywordHere_brings hword hne _ _ hnext

/-- A word: a constant, an identifier or a keyword, while a label brings up nothing. -/
private theorem readWord_brings {c : Char} {cs : List Char} (hrest : r.rest = c :: cs)
    (hc : isWordStart c = true) : r.Brings r.readWord := by
  have hne : r.rest ≠ [] := by simp [hrest]
  have hword : wordAt r.rest ≠ [] := by
    rw [hrest]
    exact wordAt_ne_nil hc
  have hpos := List.length_pos_iff.mpr hword
  unfold readWord
  extract_lets word rest text
  have htext : text.toList = wordAt r.rest := String.toList_ofList
  apply Brings.ite
  · intro _
    -- After a dot no word is a keyword.
    exact Brings.ite (fun _ => takeConstant_brings hne (Nat.add_pos_left hpos _)) fun _ =>
      takeIdentifier_brings hne hpos
  intro _
  apply Brings.ite fun _ => (bringsEnds_nil _).brings
  intro _
  apply Brings.ite
  · intro _
    exact readKeyword_brings (htext ▸ wordAt_isPrefix r.rest) (htext ▸ hword)
  intro _
  exact Brings.ite (fun _ => takeConstant_brings hne (Nat.add_pos_left hpos _)) fun _ =>
    takeIdentifier_brings hne hpos

/-- What is left after trimming the end stands at the front. -/
theorem trimEnd_isPrefix (p : Char → Bool) (cs : List Char) : Text.trimEnd p cs <+: cs := by
  have hsuffix := List.dropWhile_suffix (l := cs.reverse) p
  rwa [← List.reverse_prefix, List.reverse_reverse] at hsuffix

/-- A character that is not trimmed keeps what is trimmed from being empty. -/
theorem trimEnd_cons_ne_nil {p : Char → Bool} {c : Char} (hc : p c = false) (cs : List Char) :
    Text.trimEnd p (c :: cs) ≠ [] := by
  simp only [Text.trimEnd, List.reverse_cons, Ne, List.reverse_eq_nil_iff,
    List.dropWhile_eq_nil_iff, not_forall]
  exact ⟨c, by simp, by simp [hc]⟩

/-- A comment goes to the end of the line, without the carriage returns there. -/
private theorem readComment_brings {cs : List Char} (hrest : r.rest = '#' :: cs) :
    r.Brings r.readComment := by
  let comment := Token.comment (String.ofList r.currentLine) r.location
  have htext : comment.text.toList = r.currentLine := String.toList_ofList
  have hprefix : r.currentLine <+: r.rest.takeWhile (· ≠ '\n') := trimEnd_isPrefix _ _
  have hne : r.currentLine ≠ [] := by
    rw [Cursor.currentLine, hrest]
    exact trimEnd_cons_ne_nil (by decide) _
  -- Its text may be shorter than what is hopped over, but it stands at the front.
  have hstands : comment.StandsAt r.toCursor :=
    { location_eq := rfl
      text_isPrefix := htext ▸ hprefix.trans (List.takeWhile_prefix _)
      text_ne_nil := htext ▸ hne
      comment_eq := fun _ => htext }
  have hlength : comment.text.length ≤ (r.rest.takeWhile (· ≠ '\n')).length := by
    rw [← String.length_toList, htext]
    exact hprefix.length_le
  exact brings_token hstands hlength rfl

/-- One piece of the text, by its first character. -/
private theorem read_brings {c : Char} {cs : List Char} (hrest : r.rest = c :: cs) :
    r.Brings (r.read c cs) := by
  unfold read
  apply Brings.ite fun _ => r.readNewline_bringsEnds.brings
  intro _
  apply Brings.ite fun _ => (bringsEnds_nil _).brings
  intro _
  apply Brings.ite fun _ => (bringsEnds_nil _).brings
  intro _
  apply Brings.ite
  · rintro rfl
    exact readComment_brings hrest
  intro _
  exact Brings.ite (fun hc => readWord_brings hrest hc) fun _ =>
    (r.readPunctuation_bringsEnds c cs).brings

/-- The tokens of a step stand where it starts, and the name of a method after its keyword. -/
theorem step?_brings {reading : Reading} (h : r.step? = some reading) :
    r.Brings reading := by
  unfold step? at h
  split at h
  · cases h
  next c cs hrest =>
  split at h
  · cases h
  split at h
  · obtain rfl := Option.some.inj h
    exact (skipDocument_bringsEnds r.toCursor _).brings
  · obtain rfl := Option.some.inj h
    exact read_brings hrest

end Step

/-! ## All of a text -/

/-- A token in the text, where it stands, and how many newlines were stepped over on the way
    there. -/
structure Mark where
  token : Token
  cursor : Cursor
  overstepped : Nat
deriving DecidableEq

/-- How many characters come before the token. -/
def Mark.offset (mark : Mark) : Nat := mark.cursor.before.length

/-- The tokens in the text that reading brings up, where `m` newlines were stepped over already. -/
def marks (m : Nat) (r : Reader) : List Mark :=
  match _h : r.step? with
  | none => []
  | some (found, next) =>
    -- At most two of them are brought up at once, and the second one is the name of a method.
    (found.filterMap Event.located?).zipWith (fun t k => ⟨t, k, m⟩) [r.toCursor, r.nameCursor] ++
      next.marks (m + r.stepsOver.toNat)
termination_by r.rest.length
decreasing_by exact step?_shorter _h

/-- Where newlines can be stepped over. -/
def HidesNewline (text : List Char) : Prop :=
  ['$', '\n'] <:+: text ∨ ['?', '\\', '\n'] <:+: text

/-- Where a newline is stepped over, the text has it at such a place. -/
private theorem hidesNewline_of_stepsOver {r : Reader} (h : r.stepsOver = true) :
    HidesNewline r.text := by
  unfold stepsOver at h
  split at h
  · next rest hrest =>
    exact .inl ⟨r.before.reverse, rest, by rw [Cursor.text, hrest, List.append_assoc]; rfl⟩
  · next rest hrest =>
    exact .inr ⟨r.before.reverse, rest, by rw [Cursor.text, hrest, List.append_assoc]; rfl⟩
  · cases h

/-- The mark is one of a token in `text`, whose location counts newlines as it should but for those
    that were stepped over. -/
structure Mark.Sound (text : List Char) (mark : Mark) : Prop where
  standsAt : mark.token.StandsAt mark.cursor
  text_eq : mark.cursor.text = text
  counts : mark.cursor.Counts mark.overstepped
  hides : mark.overstepped ≠ 0 → HidesNewline text

/-- The tokens of one reading have their marks, and these are sound. -/
theorem Brings.marks {r : Reader} {reading : Reading} (h : r.Brings reading) {m : Nat}
    (hcounts : r.Counts m) (hhides : m ≠ 0 → HidesNewline r.text) :
    let here := (reading.1.filterMap Event.located?).zipWith (fun t k => (⟨t, k, m⟩ : Mark))
      [r.toCursor, r.nameCursor]
    here.map (·.token) = reading.1.filterMap Event.located? ∧
      ∀ mark ∈ here, mark.Sound r.text := by
  have hr := hcounts.line_pos
  cases h with
  | nothing hends =>
    rw [hends.filterMap_located?]
    exact ⟨rfl, fun mark hmark => by cases hmark⟩
  | word htokens hfirst _ =>
    have hline := line_ne_zero_of_standsAt hfirst hr
    rw [filterMap_located?_of_lines htokens (by simpa using hline)]
    refine ⟨rfl, fun mark hmark => ?_⟩
    obtain rfl := List.mem_singleton.mp hmark
    exact ⟨hfirst, rfl, hcounts, hhides⟩
  | definition htokens hfirst hsecond hheading _ _ _ =>
    -- Between the keyword and the name no newline is read, so the same ones have been stepped over.
    have hname := nameCursor_tracks hheading
    have hcounts' := hname.counts m hcounts
    have hline := line_ne_zero_of_standsAt hfirst hr
    have hline' := line_ne_zero_of_standsAt hsecond hcounts'.line_pos
    rw [filterMap_located?_of_lines htokens (by simpa using ⟨hline, hline'⟩)]
    refine ⟨rfl, fun mark hmark => ?_⟩
    rcases List.mem_pair.mp hmark with rfl | rfl
    · exact ⟨hfirst, rfl, hcounts, hhides⟩
    · exact ⟨hsecond, hname.text_eq, hcounts', hhides⟩

/-- Every token in the text has its mark. -/
theorem marks_spec (r : Reader) {m : Nat} (hcounts : r.Counts m)
    (hhides : m ≠ 0 → HidesNewline r.text) :
    (r.marks m).map (·.token) = r.events.filterMap Event.located? ∧
      ∀ mark ∈ r.marks m, mark.Sound r.text := by
  -- By induction along the steps, with the count of newlines that were stepped over.
  fun_induction marks m r with
  | case1 m r hstep =>
    rw [events_of_none hstep, r.finish_endsOnly.filterMap_located?]
    exact ⟨rfl, fun mark hmark => by cases hmark⟩
  | case2 m r found next hstep ih =>
    obtain ⟨hhere, hsound⟩ := (step?_brings hstep).marks hcounts hhides
    have htracks := step?_tracks hstep
    have htext : next.text = r.text := htracks.text_eq
    obtain ⟨hlater, hsound'⟩ := ih (htracks.counts m hcounts) fun hm => by
      -- Newlines were stepped over before, or one is now.
      rw [htext]
      by_cases hover : r.stepsOver = true
      · exact hidesNewline_of_stepsOver hover
      · refine hhides fun h => hm ?_
        simp [h, Bool.eq_false_iff.mpr hover]
    rw [events_of_step? hstep, List.map_append, List.filterMap_append, hhere, hlater]
    refine ⟨rfl, fun mark hmark => ?_⟩
    rcases List.mem_append.mp hmark with hmark | hmark
    · exact hsound mark hmark
    · exact htext ▸ hsound' mark hmark

/-- At the start nothing has been stepped over. -/
theorem start_counts (source : List Char) : (start source).Counts 0 :=
  ⟨Nat.one_pos, rfl, fun _ => rfl⟩

/-! ## Transcripts -/

/-- A sound mark tells the offset of its token. -/
private theorem Mark.Sound.exactAt_iff {source : List Char} {mark : Mark} (h : mark.Sound source) :
    mark.token.text.toList <+: source.drop mark.offset ∧
      mark.token.location.line + mark.overstepped = 1 + (source.take mark.offset).count '\n' ∧
      (mark.token.ExactAt source mark.offset ↔ mark.overstepped = 0) := by
  -- The offset cuts the source into what the cursor has before and after it.
  have hsource : source = mark.cursor.before.reverse ++ mark.cursor.rest := h.text_eq.symm
  have htake : source.take mark.offset = mark.cursor.before.reverse := by
    rw [hsource, Mark.offset, ← List.length_reverse, List.take_left]
  have hdrop : source.drop mark.offset = mark.cursor.rest := by
    rw [hsource, Mark.offset, ← List.length_reverse, List.drop_left]
  have hline : mark.token.location.line = mark.cursor.line := by rw [h.standsAt.location_eq]; rfl
  have hcolumn : mark.token.location.column = mark.cursor.column + 1 := by
    rw [h.standsAt.location_eq]
    rfl
  have hcounts := h.counts.line_eq
  rw [Token.ExactAt, htake, hdrop, List.count_reverse, List.reverse_reverse, hline, hcolumn]
  refine ⟨h.standsAt.text_isPrefix, by omega, fun hexact => by omega, fun hzero => ?_⟩
  have hcolumns := h.counts.column_eq hzero
  omega

end Reader

/-- Strict and lenient readings have the same tokens in the text, which are those that have
    marks. -/
theorem filter_tokens_transcribe (strict : Bool) (file : Option String) (source : String) :
    (transcribe strict file source).tokens.filter (·.location.line ≠ 0) =
      ((Reader.start source.toList).marks 0).map fun mark => mark.token.inFile file := by
  have hlenient : (transcribe false file source).tokens.filter (·.location.line ≠ 0) =
      ((Reader.start source.toList).marks 0).map fun mark => mark.token.inFile file := by
    obtain ⟨hmarks, -⟩ :=
      (Reader.start source.toList).marks_spec (Reader.start_counts source.toList)
        fun h => absurd rfl h
    calc (transcribe false file source).tokens.filter (·.location.line ≠ 0)
      _ = (((events source).filterMap Event.token?).map (Token.inFile file)).filter
            (·.location.line ≠ 0) := by
          rw [transcribe_lenient, Event.filterMap_token?_inFile]
          rfl
      -- The file makes no difference to lines.
      _ = (((events source).filterMap Event.token?).filter (·.location.line ≠ 0)).map
            (Token.inFile file) := List.filter_map
      _ = (((Reader.start source.toList).marks 0).map (·.token)).map (Token.inFile file) := by
          rw [hmarks, filterMap_located?]
          rfl
      _ = _ := List.map_map
  cases strict with
  | false => exact hlenient
  | true =>
    rw [← hlenient]
    cases hhalt : (Reader.start source.toList).halt? with
    | none => rw [(transcribe_of_halt?_eq_none file hhalt).1]
    | some stop =>
      -- The tokens that the lenient reading has besides are ends that stand nowhere.
      rw [(transcribe_of_halt?_eq_some file hhalt).1, List.filter_append, List.filter_replicate]
      exact (List.append_nil _).symm

/-- The tokens of a source that have a line, with the offsets at which they were read.  The text of
    each of them stands in the source at its offset.  Its line is the one of that offset, less one
    for each newline that was stepped over before it.  Its line and its column are those of the
    offset if and only if there was none, and there can be one only where a newline follows a dollar
    sign, or a question mark and a backslash. -/
theorem transcribe_positions (strict : Bool) (file : Option String) (source : String) :
    let marks := (Reader.start source.toList).marks 0
    (transcribe strict file source).tokens.filter (·.location.line ≠ 0) =
        (marks.map fun mark => mark.token.inFile file) ∧
      ∀ mark ∈ marks,
        mark.token.text.toList <+: source.toList.drop mark.offset ∧
          mark.token.location.line + mark.overstepped =
            1 + (source.toList.take mark.offset).count '\n' ∧
          (mark.token.ExactAt source.toList mark.offset ↔ mark.overstepped = 0) ∧
          (mark.overstepped ≠ 0 → Reader.HidesNewline source.toList) := by
  intro marks
  refine ⟨filter_tokens_transcribe strict file source, fun mark hmark => ?_⟩
  obtain ⟨-, hsound⟩ := (Reader.start source.toList).marks_spec (Reader.start_counts source.toList)
    fun h => absurd rfl h
  have hmark := hsound mark hmark
  obtain ⟨htext, hline, hexact⟩ := hmark.exactAt_iff
  exact ⟨htext, hline, hexact, hmark.hides⟩

/-- The last of three lines, where the newline of the second one was stepped over. -/
theorem transcribe_positions_after_dollar :
    let source := "a\n$\nb\n"
    ∃ mark ∈ (Reader.start source.toList).marks 0,
      mark.offset = 4 ∧ mark.overstepped = 1 ∧
        mark.token.text.toList <+: source.toList.drop 4 ∧
        mark.token.location.line + (1 : Nat) = 1 + (source.toList.take 4).count '\n' ∧
        ¬mark.token.ExactAt source.toList 4 := by
  intro source
  have hfound : ((Reader.start source.toList).marks 0)[1]?.any
      (fun mark => mark.offset = 4 && mark.overstepped = 1) = true := by
    decide +kernel
  obtain ⟨mark, hmark, hoffset⟩ := (Option.any_eq_true _ _).mp hfound
  obtain ⟨hoffset, hover⟩ : mark.offset = 4 ∧ mark.overstepped = 1 := by simpa using hoffset
  have hmem := List.mem_of_getElem? hmark
  obtain ⟨htext, hline, hexact, -⟩ := (transcribe_positions true none source).2 mark hmem
  rw [hoffset] at htext hline hexact
  rw [hover] at hline hexact
  exact ⟨mark, hmem, hoffset, hover, htext, hline, fun h => absurd (hexact.mp h) (by decide)⟩

/-- A newline after a dollar sign, and one after the backslash of a character literal, are stepped
    over.  The word after it stands on the second line, and its location is on the first. -/
theorem transcribe_newline_stepped_over :
    ((transcribe true none "$\nx\n").tokens = [Token.identifier "x" ⟨1, 3, none⟩] ∧
        "$\nx\n".toList[2]? = some 'x' ∧
        ¬(Token.identifier "x" ⟨1, 3, none⟩).ExactAt "$\nx\n".toList 2) ∧
      (transcribe true none "?\\\nx\n").tokens = [Token.identifier "x" ⟨1, 4, none⟩] ∧
        "?\\\nx\n".toList[3]? = some 'x' ∧
        ¬(Token.identifier "x" ⟨1, 4, none⟩).ExactAt "?\\\nx\n".toList 3 := by
  decide +kernel

end Source

end ScopeTags
