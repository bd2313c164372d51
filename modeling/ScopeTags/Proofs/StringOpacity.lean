import ScopeTags.Proofs.ReadingElsewhere
import ScopeTags.Proofs.ReadingUpTo

/-!
# What stands in a string

A string is passed over whole, so its text should not matter to what is read around it.  That holds
with one exception.  On the look for the equals sign of an endless definition the parameters are
searched for their closing parenthesis character by character, and a parenthesis in a string
between them counts like any other.

Two readers of a source and of the same source with another text in one of its strings are compared
in two parts.  Up to the string they read the same text with different texts behind it, and after it
they read the same text at different columns.

## Key results

- `StringBody.lookalike`: two texts of a string look alike from before it
- `transcribe_shifted`: another text in a string moves the columns on its line, and nothing else
- `transcribe_parenthesis_in_string`: the exception
-/

namespace ScopeTags

/-- The token `t'` is `t`, if on line `L` perhaps at another column. -/
def Token.Shifted (L : Int) (t t' : Token) : Prop :=
  ∃ column, t' = { t with location := { t.location with column } } ∧
    (t.location.line ≠ L → column = t.location.column)

/-- A token may stay where it is. -/
theorem Token.Shifted.refl (L : Int) (t : Token) : t.Shifted L t :=
  ⟨t.location.column, rfl, fun _ => rfl⟩

/-- The file does not matter to columns. -/
theorem Token.Shifted.inFile {L : Int} {t t' : Token} (h : t.Shifted L t') (file : Option String) :
    (t.inFile file).Shifted L (t'.inFile file) := by
  obtain ⟨column, rfl, hcolumn⟩ := h
  exact ⟨column, rfl, hcolumn⟩

namespace Source

/-! ## Texts of strings -/

/-- The characters of the texts that are compared: those of words, spaces and brackets. -/
def isBodyChar (c : Char) : Bool :=
  isWordChar c || isSpace c || isOpening c || isClosing c || c = '<' || c = '>'

/-- Whether a text of such characters starts with a letter. -/
def isStringBody (cs : List Char) : Bool :=
  cs.head?.any Text.isLetter && cs.all isBodyChar

/-- The text of a string. -/
abbrev StringBody : Type := TextOf isStringBody

/-- A character of the texts is none of the others. -/
private theorem ne_of_isBodyChar {c d : Char} (hc : isBodyChar c = true)
    (hd : isBodyChar d = false) : c ≠ d := by
  rintro rfl
  rw [hc] at hd
  cases hd

/-- A quote may not stand in the text of a string. -/
private theorem not_isBodyChar_of_isQuote {q : Char} (hq : isQuote q = true) :
    isBodyChar q = false :=
  eq_false_of_isQuote hq (by decide)

section Body

variable {q : Char}

/-- All characters of the text of a string may stand in one. -/
private theorem StringBody.isBodyChar_of_mem (b : StringBody) {c : Char} (hc : c ∈ b.val) :
    isBodyChar c = true :=
  List.all_eq_true.mp (Bool.and_eq_true_iff.mp b.property).2 c hc

/-- A text starts with a word character, whatever follows. -/
theorem StringBody.starts (b : StringBody) (cs : List Char) :
    (b.val ++ cs).head?.any (fun d => Text.isAlphanumeric d || d = '_') = true := by
  obtain ⟨b, hb⟩ := b
  have hletter := (Bool.and_eq_true_iff.mp hb).1
  cases b with
  | nil => cases hletter
  | cons c b =>
    have hc : Text.isLetter c = true := by simpa using hletter
    simp [Text.isAlphanumeric, hc]

/-- A heredoc that is open at the start of the text is not closed by it. -/
private theorem StringBody.closes_append (b : StringBody) {c : Char} (hc : isQuote c = true)
    (cs : List Char) : Heredoc.closes c (b.val ++ cs) = Heredoc.closes c cs := by
  have hinside : ∀ d ∈ b.val, Heredoc.isInside c d = true := fun d hd =>
    have hbody := b.isBodyChar_of_mem hd
    decide_eq_true ⟨ne_of_isBodyChar hbody (not_isBodyChar_of_isQuote hc),
      ne_of_isBodyChar hbody (by decide)⟩
  rw [Heredoc.closes, List.dropWhile_append_of_pos hinside]
  rfl

/-- The text has no equals sign, so no endless definition starts its body in it. -/
private theorem startsBody_body (hq : isQuote q = true) {y : List Char}
    (hy : ∀ c ∈ y, isBodyChar c = true) (cs : List Char) :
    startsBody (y ++ q :: cs) = false := by
  have hspace : isSpace q = false := eq_false_of_isQuote hq (by decide)
  unfold startsBody
  rw [dropWhile_append_stop y cs hspace]
  split
  · next rest heq =>
    exfalso
    -- After the spaces stands the quote or a character of the text, and neither is an equals sign.
    cases hy' : y.dropWhile isSpace with
    | nil =>
      rw [hy'] at heq
      exact ne_of_isQuote hq rfl (List.cons.inj heq).1
    | cons c z =>
      rw [hy'] at heq
      have hc : c ∈ y := (List.dropWhile_suffix isSpace).subset (hy' ▸ List.mem_cons_self)
      exact ne_of_isBodyChar (hy c hc) (by decide) (List.cons.inj heq).1
  · rfl

/-- Two texts with the same unmatched parentheses are the same to the look for parameters. -/
theorem StringBody.startsBody_eq (hq : isQuote q = true) {b b' : StringBody}
    (h : unmatched 0 b.val = unmatched 0 b'.val) (cs : List Char) {d : Nat} (hd : 0 < d) :
    startsBody (dropParentheses d (q :: (b'.val ++ q :: cs))) =
      startsBody (dropParentheses d (q :: (b.val ++ q :: cs))) := by
  have hquote : ∀ w, dropParentheses d (q :: w) = dropParentheses d w := fun w => by
    rw [dropParentheses, if_neg (ne_of_isQuote hq rfl), if_neg (ne_of_isQuote hq rfl)]
  rw [hquote, hquote]
  by_cases hlt : (unmatched 0 b.val).1 < d
  · -- Both texts are passed over and leave as many parentheses open.
    have hpast := dropParentheses_append_of_lt 0 hlt (q :: cs)
    have hpast' := dropParentheses_append_of_lt 0 (h ▸ hlt) (q :: cs)
    rw [Nat.add_zero] at hpast hpast'
    rw [hpast, hpast', h]
  · -- The search ends in both.
    have hle : d ≤ (unmatched 0 b.val).1 := Nat.le_of_not_lt hlt
    obtain ⟨y, hy, hpast⟩ := dropParentheses_append_of_le hd 0 hle
    obtain ⟨y', hy', hpast'⟩ := dropParentheses_append_of_le hd 0 (h ▸ hle)
    rw [Nat.add_zero] at hpast hpast'
    rw [hpast, hpast', startsBody_body hq fun c hc => b.isBodyChar_of_mem (hy.subset hc),
      startsBody_body hq fun c hc => b'.isBodyChar_of_mem (hy'.subset hc)]

/-- The two texts look alike from before the string, unless they differ in their unmatched
    parentheses and stand between the parameters of a definition. -/
theorem StringBody.lookalike (hq : isQuote q = true) {before : List Char} {b b' : StringBody}
    (h : inParameters before = true → unmatched 0 b.val = unmatched 0 b'.val) (cs : List Char) :
    Lookalike before q (b.val ++ q :: cs) (b'.val ++ q :: cs) where
  isQuote := hq
  starts := b.starts _
  starts' := b'.starts _
  closes_eq c hc := by rw [b.closes_append hc, b'.closes_append hc]
  closed := by
    rw [b.closes_append hq]
    simp [Heredoc.closes, Heredoc.isInside]
  startsBody_eq hin _ hd := StringBody.startsBody_eq hq (h hin) cs hd

/-! ## Past the string -/

/-- A character that is not a newline moves the place along the line. -/
private theorem past_eq_along (p : Place) {c : Char} (hc : c ≠ '\n') : p.past c = p.along [c] := by
  rw [Place.past, if_neg hc]
  rfl

/-- Two moves along a line are one. -/
private theorem along_along (p : Place) (cs ds : List Char) :
    (p.along cs).along ds = p.along (cs ++ ds) := by
  simp [Place.along, Nat.add_assoc]

/-- A string is passed over to its closing quote. -/
private theorem skipFrames_body (hq : isQuote q = true) {b : List Char}
    (hb : ∀ c ∈ b, isBodyChar c = true) (start : Nat) (p : Place) (cs : List Char) :
    skipFrames [Frame.string q start] p (b ++ q :: cs) =
      ({ toPlace := p.along (b ++ [q]), rest := cs }, []) := by
  have hquote : ∀ c, isQuote c = false → q ≠ c := fun c hc => ne_of_isQuote hq hc
  -- By induction on the text, with the place moving along.
  induction b generalizing p with
  | nil =>
    have hread : ∀ next, (Frame.string q start).read p.line q next = [] := by
      intro next
      simp [Frame.string, Frame.read, hquote '\\' rfl, hquote '\n' rfl, hquote '#' rfl]
    rw [List.nil_append, skipFrames, hread, past_eq_along p (hquote '\n' rfl), List.nil_append,
      skipFrames]
    rfl
  | cons c b ih =>
    have hc := hb c List.mem_cons_self
    have hne : ∀ d, isBodyChar d = false → c ≠ d := fun d hd => ne_of_isBodyChar hc hd
    -- No character of the text ends the string, escapes another or starts an interpolation.
    have hread : ∀ next, (Frame.string q start).read p.line c next = [Frame.string q start] := by
      intro next
      simp [Frame.string, Frame.read, hne '\\' (by decide), hne '\n' (by decide),
        hne '#' (by decide), hne q (not_isBodyChar_of_isQuote hq)]
    rw [List.cons_append, skipFrames, hread, past_eq_along p (hne '\n' (by decide))]
    have ih := ih (fun d hd => hb d (List.mem_cons_of_mem c hd)) (p.along [c])
    rw [along_along] at ih
    exact ih

namespace Reader

/-- The reader is at a string between two quotes `q`, or at the colon of a symbol that is written as
    one, and `cs` follows the opening quote.  A back quote after a colon is an operator. -/
def AtString (r : Reader) (q : Char) (cs : List Char) : Prop :=
  r.rest = q :: cs ∨ q ≠ '\x60' ∧ r.rest = ':' :: q :: cs

instance (r : Reader) (q : Char) (cs : List Char) : Decidable (r.AtString q cs) :=
  inferInstanceAs (Decidable (_ ∨ _))

/-- What follows the opening quote is shorter than what the reader has left. -/
private theorem AtString.length_lt {r : Reader} {cs : List Char} (h : r.AtString q cs) :
    cs.length < r.rest.length := by
  rcases h with hrest | ⟨-, hrest⟩
  · rw [hrest, List.length_cons]
    omega
  · rw [hrest, List.length_cons, List.length_cons]
    omega

/-- Facing another text after the quote, the reader is at a string, too. -/
theorem AtString.facing {r : Reader} {u y : List Char} (h : r.AtString q u)
    (hrest : r.rest = y ++ q :: u) (u' : List Char) :
    (r.facing (y ++ q :: u')).AtString q u' := by
  rcases h with heq | ⟨hback, heq⟩
  · obtain rfl : y = [] := List.self_eq_append_left.mp (heq.symm.trans hrest)
    exact .inl rfl
  · have hy : [':'] ++ q :: u = y ++ q :: u := heq.symm.trans hrest
    obtain rfl : [':'] = y := List.append_cancel_right hy
    exact .inr ⟨hback, rfl⟩

/-- The reader past the string that it is at. -/
def pastString (r : Reader) (text cs : List Char) : Reader :=
  (r.moveTo { toPlace := r.along text, rest := cs }).markValue

/-- A string is passed over in one step, which brings up nothing. -/
private theorem step?_atString (hq : isQuote q = true) {r : Reader} {b : List Char}
    (hb : ∀ c ∈ b, isBodyChar c = true) {cs : List Char} (h : r.AtString q (b ++ q :: cs)) :
    ∃ text, r.step? = some ([], r.pastString (text ++ [q]) cs) := by
  -- The quote stands at the front or after a colon, and from there on both cases are the same.
  have hskip : ∀ n text, r.rest.take n = text → r.rest.drop n = b ++ q :: cs →
      r.skipLiteral n (Frame.string q) = ([], r.pastString (text ++ b ++ [q]) cs) := by
    intro n text htake hdrop
    have hplace : (r.hop n).toPlace = r.along text := congrArg r.along htake
    rw [skipLiteral_eq, rest_hop, hdrop, hplace, skipFrames_body hq hb, along_along,
      ← List.append_assoc]
    rfl
  rcases h with hrest | ⟨hback, hrest⟩
  · have hread : r.read q (b ++ q :: cs) = r.skipLiteral 1 (Frame.string q) := by
      rcases eq_of_isQuote hq with rfl | rfl | rfl <;> rfl
    refine ⟨[q] ++ b, ?_⟩
    rw [step?_eq_read hrest (.inr ⟨ne_of_isQuote hq rfl, ne_of_isQuote hq rfl⟩), hread,
      hskip 1 [q] (by rw [hrest]; rfl) (by rw [hrest]; rfl)]
  · have hread : r.read ':' (q :: (b ++ q :: cs)) = r.skipLiteral 2 (Frame.string q) := by
      rcases eq_of_isQuote hq with rfl | rfl | rfl
      · rfl
      · rfl
      · exact absurd rfl hback
    refine ⟨[':', q] ++ b, ?_⟩
    rw [step?_eq_read hrest (.inr (by decide)), hread,
      hskip 2 [':', q] (by rw [hrest]; rfl) (by rw [hrest]; rfl)]

/-- Past two strings at the same place the readers differ in the column on that line. -/
private theorem pastString_moved (hq : isQuote q = true) (r : Reader) (text text' cs : List Char) :
    (r.pastString (text ++ [q]) cs).toPlace.Moved 0 r.line (r.along (text' ++ [q])) ∧
      (r.pastString (text ++ [q]) cs).elsewhere (r.along (text' ++ [q])) 0 =
        r.pastString (text' ++ [q]) cs := by
  have hend : (fun c => !isSpace c && decide (c ≠ ':')) q = true := by
    rcases eq_of_isQuote hq with rfl | rfl | rfl <;> decide
  refine ⟨⟨rfl, ?_, fun hline => absurd rfl hline, ?_⟩, ?_⟩
  · -- Neither is at the start of the line.
    change r.column + (text' ++ [q]).length = 0 ↔ r.column + (text ++ [q]).length = 0
    simp
  · have hbefore : ∀ text, (r.along (text ++ [q])).before = q :: (text.reverse ++ r.before) := by
      simp [Place.along]
    exact ⟨[], _, _, hbefore text, hbefore text', hend, hend⟩
  · obtain ⟨k, value, dot, identifier, depth, blocks, loop, endless, heredocs⟩ := r
    cases loop <;> rfl

end Reader

end Body

/-! ## Tokens at other columns -/

/-- The event `e'` is `e`, if a token on line `L` perhaps at another column. -/
inductive Event.Shifted (L : Int) : Event → Event → Prop where
  | refl (e : Event) : Shifted L e e
  | token {t t' : Token} (h : t.Shifted L t') : Shifted L (.token t) (.token t')

/-- What has moved by no line has kept its line. -/
theorem Event.Moved.shifted {L : Nat} {e e' : Event} (h : Event.Moved 0 L e e') :
    Event.Shifted L e e' := by
  cases h with
  | @token t p p' hp =>
    refine .token ⟨p'.column + 1, ?_, fun hline => ?_⟩
    · rw [Place.location, hp.line_eq]
      rfl
    · have hcolumn : p'.column = p.column := hp.column_eq fun hL => hline (congrArg Nat.cast hL)
      rw [hcolumn]
      rfl
  | impliedEnd => exact .refl _
  | unterminated what line => exact .refl _
  | strayEnd line => exact .refl _
  | unclosedBlocks count => exact .refl _

/-- The transcript `s'` is `s` with the tokens on line `L` perhaps at other columns. -/
structure Transcript.Shifted (L : Int) (s s' : Transcript) : Prop where
  tokens : List.Forall₂ (Token.Shifted L) s.tokens s'.tokens
  notices_eq : s'.notices = s.notices
  fault_eq : s'.fault = s.fault

/-- Neither a strict nor a lenient reading looks at the columns of tokens. -/
private theorem transcribe_of_shifted {L : Int} {source source' : String}
    (h : List.Forall₂ (Event.Shifted L) (events source) (events source')) (strict : Bool)
    (file : Option String) :
    (transcribe strict file source).Shifted L (transcribe strict file source') := by
  unfold transcribe eventsIn
  dsimp only
  generalize events source = found at h
  generalize events source' = found' at h
  -- By induction on the events.  Those that are not tokens are the same in both.
  induction h with
  | nil => exact ⟨.nil, rfl, rfl⟩
  | @cons e e' found found' he _ ih =>
    cases he with
    | token ht =>
      exact ⟨.cons (ht.inFile file) ih.tokens, ih.notices_eq, ih.fault_eq⟩
    | refl e =>
      -- A fault ends both transcripts; what is no fault adds the same to both.
      cases hfault : (e.inFile file).fault? strict file with
      | some fault =>
        simp only [List.map_cons, List.takeWhile_cons, List.findSome?_cons, hfault,
          Option.isNone_some]
        exact ⟨.nil, rfl, rfl⟩
      | none =>
        simp only [List.map_cons, List.takeWhile_cons, List.findSome?_cons, hfault,
          Option.isNone_none, if_true, List.filterMap_cons]
        refine ⟨?_, ?_, ih.fault_eq⟩
        · cases (e.inFile file).token? with
          | none => exact ih.tokens
          | some t => exact .cons (.refl L t) ih.tokens
        · cases (e.inFile file).notice? file with
          | none => exact ih.notices_eq
          | some notice => exact congrArg (notice :: ·) ih.notices_eq

/-- The source with `body` in a string between two quotes `q`. -/
abbrev withString (q : Char) (before body after : List Char) : List Char :=
  before ++ q :: (body ++ q :: after)

/-- What is read with another text in a string. -/
private theorem Reader.events_shifted {q : Char} (hq : isQuote q = true) {before after : List Char}
    {b b' : StringBody} {n : Nat}
    (hparens : inParameters before = true → unmatched 0 b.val = unmatched 0 b'.val)
    (hfound : ((start (withString q before b.val after)).advance n).2.AtString q
      (b.val ++ q :: after)) :
    List.Forall₂ (Event.Shifted ((start (withString q before b.val after)).advance n).2.line)
      (start (withString q before b.val after)).events
      (start (withString q before b'.val after)).events := by
  have hsame : ∀ L (found : List Event), List.Forall₂ (Event.Shifted L) found found :=
    fun L found => List.forall₂_same.mpr fun e _ => .refl e
  -- Up to the string both bring up the same.
  obtain ⟨y, hrest, hadvance⟩ := advance_facing (StringBody.lookalike hq hparens after) n
    (r := start (withString q before b.val after)) rfl (List.suffix_refl before) hfound.length_lt
  have hevents := events_advance n (start (withString q before b.val after))
  have hevents' := events_advance n (start (withString q before b'.val after))
  rw [show (start (withString q before b'.val after)).advance n = _ from hadvance] at hevents'
  generalize (start (withString q before b.val after)).advance n = reading at *
  obtain ⟨found, r⟩ := reading
  -- One step goes over the string, and from there on they read the same text.
  obtain ⟨text, hstep⟩ := step?_atString hq (fun c hc => b.isBodyChar_of_mem hc) hfound
  obtain ⟨text', hstep'⟩ := step?_atString hq (fun c hc => b'.isBodyChar_of_mem hc)
    (hfound.facing hrest (b'.val ++ q :: after))
  obtain ⟨hmoved, helsewhere⟩ := pastString_moved hq r text text' after
  rw [hevents, hevents', events_of_step? hstep, events_of_step? hstep']
  refine List.rel_append (hsame _ found) (List.rel_append (hsame _ []) ?_)
  have hafter := events_moved hmoved
  rw [helsewhere] at hafter
  exact hafter.imp fun _ _ h => h.shifted

/-- Another text in a string moves the columns on its line, and nothing else.  Where the string is a
    part of the parameters of a definition, the two texts are to have the same unmatched
    parentheses. -/
theorem transcribe_shifted {q : Char} (hq : isQuote q = true) (before after : List Char)
    (b b' : StringBody) (n : Nat)
    (hparens : inParameters before = true → unmatched 0 b.val = unmatched 0 b'.val)
    (hfound : ((Reader.start (withString q before b.val after)).advance n).2.AtString q
      (b.val ++ q :: after)) (strict : Bool) (file : Option String) :
    (transcribe strict file (String.ofList (withString q before b.val after))).Shifted
      ((Reader.start (withString q before b.val after)).advance n).2.line
      (transcribe strict file (String.ofList (withString q before b'.val after))) := by
  apply transcribe_of_shifted
  rw [events, events, String.toList_ofList, String.toList_ofList]
  exact Reader.events_shifted hq hparens hfound

/-- A string between the parameters of an endless definition, in whose text a parenthesis is closed
    and another opened. -/
theorem transcribe_shifted_in_parameters :
    inParameters "def f(a = ".toList = true ∧
      unmatched 0 "b) c(".toList = unmatched 0 "x[)] y (".toList ∧
      ((Reader.start (withString '"' "def f(a = ".toList "b) c(".toList
        ", d) = 1\n".toList)).advance 6).2.AtString '"'
        ("b) c(".toList ++ '"' :: ", d) = 1\n".toList) ∧
      (transcribe true none (String.ofList
        (withString '"' "def f(a = ".toList "b) c(".toList ", d) = 1\n".toList))).Shifted
        ((Reader.start (withString '"' "def f(a = ".toList "b) c(".toList
          ", d) = 1\n".toList)).advance 6).2.line
        (transcribe true none (String.ofList
          (withString '"' "def f(a = ".toList "x[)] y (".toList ", d) = 1\n".toList))) := by
  have hparens : unmatched 0 "b) c(".toList = unmatched 0 "x[)] y (".toList := by decide
  have hfound : ((Reader.start (withString '"' "def f(a = ".toList "b) c(".toList
      ", d) = 1\n".toList)).advance 6).2.AtString '"'
      ("b) c(".toList ++ '"' :: ", d) = 1\n".toList) := by
    decide +kernel
  exact ⟨by decide, hparens, hfound,
    transcribe_shifted rfl _ _ ⟨"b) c(".toList, by decide⟩ ⟨"x[)] y (".toList, by decide⟩ 6
      (fun _ => hparens) hfound true none⟩

/-- A parenthesis in a string closes the parameters of a definition, so that the equals sign after
    them is not found and the definition is not endless. -/
theorem transcribe_parenthesis_in_string :
    isStringBody "b".toList = true ∧ isStringBody "b)".toList = true ∧
      ((Reader.start "def f(a = \"b)\") = 1\n".toList).advance 6).2.AtString '"'
        "b)\") = 1\n".toList ∧
      ((transcribe false none "def f(a = \"b\") = 1\n").tokens.map (·.text)) =
        ["def", "f", "a", "end"] ∧
      ((transcribe false none "def f(a = \"b)\") = 1\n").tokens.map (·.text)) =
        ["def", "f", "a"] := by
  decide +kernel

end Source

end ScopeTags
