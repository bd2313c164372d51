import ScopeTags.Proofs.HeredocBodies
import ScopeTags.Proofs.LineReading

/-!
# Names after dots

After the dot of a call comes the name of a method, and such a name may be spelled like a keyword.
The reader remembers the dot while it passes over spaces and tabs, so that the word after them is a
name whatever it is.  The end of the line makes it forget the dot.  A word on the next line is then
read as at the start of a statement, where keywords, labels and the marker that ends the program
are no names.

## Key results

- `Reader.visits_spaces`, `Reader.visits_blanks`: the reader on the way from the dot to the word
- `Reader.names_of_afterDot`: after a dot every word is a name
- `Reader.exists_names_iff`: elsewhere only those are that stand for nothing else
- `transcribe_names_after_dots`: what that means for the dots of a source
-/

namespace ScopeTags.Source

/-- How many characters the dot of a call at the start of `cs` has, two with an ampersand before it:
    zero if there is none, as where the dot is the first one of a range. -/
def callDotLength : List Char → Nat
  | '.' :: '.' :: _ => 0
  | '.' :: _ => 1
  | '&' :: '.' :: _ => 2
  | _ => 0

/-- A dot that is not the first of two, or an ampersand and a dot. -/
private theorem callDot_cases {cs : List Char} (h : 0 < callDotLength cs) :
    (∃ rest, cs = '.' :: rest ∧ rest.head? ≠ some '.' ∧ callDotLength cs = 1) ∨
      ∃ rest, cs = '&' :: '.' :: rest ∧ callDotLength cs = 2 := by
  revert h
  fun_cases callDotLength cs with
  | case1 rest => intro h; cases h
  | case2 rest hrange =>
    refine fun _ => .inl ⟨rest, rfl, fun hhead => ?_, rfl⟩
    obtain ⟨rest', rfl⟩ := List.head?_eq_some_iff.mp hhead
    exact hrange rest' rfl
  | case3 rest => exact fun _ => .inr ⟨rest, rfl, rfl⟩
  | case4 => intro h; cases h

/-- A text that starts with a character of a class. -/
private theorem exists_cons_of_head?_any {p : Char → Bool} {cs : List Char}
    (h : cs.head?.any p = true) : ∃ c rest, cs = c :: rest ∧ p c = true := by
  cases cs with
  | nil => cases h
  | cons c rest => exact ⟨c, rest, rfl, h⟩

/-- There is one way in which a text starts with bodies. -/
private theorem Bodies.unique {heredocs : List Heredoc} {cs rest rest' : List Char}
    (h : Bodies heredocs cs rest) (h' : Bodies heredocs cs rest') : rest = rest' := by
  induction h with
  | none => cases h'; rfl
  | missing => exact h'.eq_nil.symm
  | line ne goes_on later ih =>
    cases h' with
    | missing => exact absurd rfl ne
    | line _ _ later' => exact ih later'
    | terminator _ ends _ => simp [goes_on] at ends
  | terminator ne ends later ih =>
    cases h' with
    | missing => exact absurd rfl ne
    | line _ goes_on _ => simp [ends] at goes_on
    | terminator _ _ later' => exact ih later'

namespace Reader

variable {r : Reader} {c : Char} {cs : List Char}

/-! ## From the dot to the word -/

/-- The dot of a call is read in one step, after which it is remembered. -/
private theorem step?_callDot (h : 0 < callDotLength r.rest) :
    r.step? = some (r.skipDot (callDotLength r.rest)) := by
  rcases callDot_cases h with ⟨cs, hr, hcs, hlength⟩ | ⟨cs, hr, hlength⟩
  · have hdot : r.readDot cs = r.skipDot 1 := by
      unfold readDot
      split
      · exact absurd rfl hcs
      · exact absurd rfl hcs
      · rfl
    rw [step?_eq_read hr (.inr (by decide)), hlength, ← hdot]
    rfl
  · rw [step?_eq_read hr (.inr (by decide)), hlength]
    rfl

/-- The dot is the last character read, and it stands on this line. -/
private theorem before_callDot (h : 0 < callDotLength r.rest) :
    (r.hop (callDotLength r.rest)).before.head? = some '.' ∧
      (r.hop (callDotLength r.rest)).column ≠ 0 := by
  rcases callDot_cases h with ⟨cs, hr, -, hlength⟩ | ⟨cs, hr, hlength⟩
  · rw [hlength]
    simp [hop, Cursor.hop, Place.along, hr]
  · rw [hlength]
    simp [hop, Cursor.hop, Place.along, hr]

/-- A space or a tab is passed in one step, which changes nothing else. -/
private theorem step?_space (hr : r.rest = c :: cs) (hc : isSpace c = true) :
    r.step? = some ([], r.hop 1) := by
  simp only [isSpace, Bool.or_eq_true, decide_eq_true_eq] at hc
  rw [step?_eq_read hr (.inr (by rcases hc with rfl | rfl <;> decide))]
  rcases hc with rfl | rfl <;> rfl

/-- Spaces and tabs are passed over one by one, and nothing else happens. -/
theorem visits_spaces {gap rest : List Char} (hr : r.rest = gap ++ rest)
    (hgap : ∀ c ∈ gap, isSpace c = true) : r.visits[gap.length]? = some (r.hop gap.length) := by
  -- By induction on the gap, one step for each of its characters.
  induction gap generalizing r with
  | nil => exact r.getElem?_visits_zero
  | cons c gap ih =>
    have hstep := step?_space hr (hgap c List.mem_cons_self)
    have hrest : (r.hop 1).rest = gap ++ rest := by rw [rest_hop, hr]; rfl
    have hlater := ih hrest fun d hd => hgap d (List.mem_cons_of_mem c hd)
    rw [visits_of_step? hstep, List.length_cons, List.getElem?_cons_succ, hlater, ← hop_add,
      Nat.add_comm]

/-- The last space is the last character read, or else the one that was before. -/
private theorem before_spaces {gap rest : List Char} (hr : r.rest = gap ++ rest)
    (hgap : ∀ c ∈ gap, isSpace c = true) (h : r.before.head? = some '.' ∧ r.column ≠ 0) :
    (r.hop gap.length).before.head? ≠ some ':' ∧ (r.hop gap.length).column ≠ 0 := by
  have hbefore : (r.hop gap.length).before = gap.reverse ++ r.before := by
    simp [hop, Cursor.hop, Place.along, hr]
  refine ⟨?_, Nat.ne_of_gt (Nat.add_pos_left (Nat.pos_of_ne_zero h.2) _)⟩
  rw [hbefore, List.head?_append, List.head?_reverse]
  cases hlast : gap.getLast? with
  | none => simp [h.1]
  | some c =>
    have hspace := hgap c (List.mem_of_getLast? hlast)
    rintro ⟨⟩
    cases hspace

/-- A reader after the end of a line, where no heredoc waits and no dot is remembered. -/
structure Fresh (r : Reader) : Prop where
  afterDot : r.afterDot = false
  heredocs : r.heredocs = []

/-- The end of a line leaves nothing over. -/
private theorem readNewline_fresh (r : Reader) : r.readNewline.2.Fresh :=
  ⟨rfl, heredocs_closeEndless _⟩

/-- Further blanks, among them the ends of lines, are passed over as well. -/
theorem visits_blanks {gap rest : List Char} (hfresh : r.Fresh) (hr : r.rest = gap ++ rest)
    (hgap : ∀ c ∈ gap, isSpace c = true ∨ c = '\n') :
    ∃ w : Reader, r.visits[gap.length]? = some w ∧ w.rest = rest ∧ w.blocks = r.blocks ∧
      w.Fresh := by
  -- By induction on the gap; the end of a line leaves the reader as fresh as it was.
  induction gap generalizing r with
  | nil => exact ⟨r, r.getElem?_visits_zero, hr, rfl, hfresh⟩
  | cons c gap ih =>
    have hlater : ∀ d ∈ gap, isSpace d = true ∨ d = '\n' := fun d hd =>
      hgap d (List.mem_cons_of_mem c hd)
    obtain ⟨found, next, hstep, hnext, hblocks, hfresh'⟩ : ∃ found next,
        r.step? = some (found, next) ∧ next.rest = gap ++ rest ∧ next.blocks = r.blocks ∧
          next.Fresh := by
      rcases hgap c List.mem_cons_self with hc | rfl
      · exact ⟨[], r.hop 1, step?_space hr hc, by rw [rest_hop, hr]; rfl, rfl, hfresh.1, hfresh.2⟩
      · have hstep : r.step? = some (r.readNewline.1, r.readNewline.2) := step?_newline hr
        obtain ⟨-, -, hblocks, hbodies⟩ := step?_of_atNewline hstep (by simp [atNewline, hr])
        -- No heredoc waits, so that the next line starts right after the newline.
        rw [hfresh.heredocs, hr] at hbodies
        exact ⟨_, _, hstep, (hbodies.unique .none), hblocks, r.readNewline_fresh⟩
    obtain ⟨w, hw, hrest, hwblocks, hwfresh⟩ := ih hfresh' hnext hlater
    refine ⟨w, ?_, hrest, hwblocks.trans hblocks, hwfresh⟩
    rw [visits_of_step? hstep]
    exact hw

/-! ## The word -/

/-- The word that stands next is read as a name: it yields the token `t` alone, which is an
    identifier or a constant, and it opens and closes no block. -/
structure Names (r : Reader) (t : Token) : Prop where
  step : ∃ next, r.step? = some ([.token t], next) ∧ next.blocks = r.blocks
  kind : t.kind = .identifier ∨ t.kind = .constant
  location : t.location = r.location
  text : wordAt r.rest <+: t.text.toList

/-- The word that stands next is neither a keyword nor a label nor the marker that ends the
    program. -/
def atOrdinaryWord (r : Reader) : Bool :=
  !(r.column = 0 && startsEndMarker r.rest) &&
    !isLabelColon (r.rest.drop (wordAt r.rest).length) &&
    String.ofList (wordAt r.rest) ∉ keywords

/-- As many characters as the word has are the word. -/
private theorem take_length_wordAt (cs : List Char) : cs.take (wordAt cs).length = wordAt cs :=
  (List.prefix_iff_eq_take.mp (wordAt_isPrefix cs)).symm

/-- What is taken starts with the word as long as it is no shorter. -/
private theorem wordAt_isPrefix_take (cs : List Char) (n : Nat) :
    wordAt cs <+: cs.take ((wordAt cs).length + n) := by
  rw [List.take_add, take_length_wordAt]
  exact List.prefix_append _ _

/-- A word that is taken as an identifier is a name. -/
private theorem names_takeIdentifier {n : Nat} (h : r.step? = some (r.takeIdentifier n))
    (hword : wordAt r.rest <+: r.rest.take n) :
    r.Names (Token.identifier (String.ofList (r.rest.take n)) r.location) where
  step := ⟨_, h, rfl⟩
  kind := .inl rfl
  location := rfl
  text := by rwa [Token.identifier, String.toList_ofList]

/-- A word that is taken as a constant is read as a name. -/
private theorem names_takeConstant {n : Nat} (h : r.step? = some (r.takeConstant n))
    (hword : wordAt r.rest <+: r.rest.take n) :
    r.Names (Token.constant (String.ofList (r.rest.take n)) r.location) where
  step := ⟨_, h, rfl⟩
  kind := .inr rfl
  location := rfl
  text := by rwa [Token.constant, String.toList_ofList]

/-- After a dot every word is a name, and after one that is no double colon it is the whole name. -/
theorem names_of_afterDot (hr : r.rest = c :: cs) (hc : isWordStart c = true)
    (hdot : r.afterDot = true) (hcolumn : r.column ≠ 0) (hbefore : r.before.head? ≠ some ':') :
    ∃ t, r.Names t ∧ t.text.toList = wordAt r.rest := by
  have hstep : r.step? = some r.readWord := by
    rw [step?_eq_read hr (.inl hcolumn), read_of_isWordStart cs hc]
  -- After a double colon the name could go on.
  have hrooted : [':', ':'].isPrefixOf r.before = false := by
    rw [Bool.eq_false_iff, Ne, List.isPrefixOf_iff_prefix]
    rintro ⟨_, hb⟩
    exact hbefore (by rw [← hb]; rfl)
  have htake := take_length_wordAt r.rest
  have hword : wordAt r.rest <+: r.rest.take (wordAt r.rest).length := by rw [htake]
  simp only [readWord, hdot, hrooted, if_true, Bool.false_eq_true, if_false, Nat.add_zero] at hstep
  -- Capitalized words are constants, and all others identifiers.
  split at hstep
  · refine ⟨_, names_takeConstant hstep hword, ?_⟩
    rw [Token.constant, String.toList_ofList, htake]
  · refine ⟨_, names_takeIdentifier hstep hword, ?_⟩
    rw [Token.identifier, String.toList_ofList, htake]

/-- A keyword that yields one token yields a keyword. -/
private theorem kind_of_readKeyword {word : String} {t : Token} {next : Reader}
    (h : r.readKeyword word = ([.token t], next)) : t.kind = .keyword := by
  have hkind : ∀ {word cls construct}, [r.keywordHere word cls construct] = [Event.token t] →
      t.kind = .keyword := by
    intro word cls construct heq
    obtain rfl := Event.token.inj (List.cons.inj heq).1
    rfl
  unfold readKeyword at h
  split at h
  · unfold readDefinition at h
    extract_lets head spaces receiver there n construct opened keyword at h
    split at h
    · -- The name of the method makes it two.
      cases (List.cons.inj (congrArg Prod.fst h)).2
    · exact hkind (congrArg Prod.fst h)
  split at h
  · exact hkind (congrArg Prod.fst h)
  split at h
  · unfold readClass at h
    dsimp only at h
    split at h <;> exact hkind (congrArg Prod.fst h)
  split at h
  · unfold readEnd at h
    dsimp only at h
    split at h
    · cases (List.cons.inj (congrArg Prod.fst h)).1
    · exact hkind (congrArg Prod.fst h)
    · exact hkind (congrArg Prod.fst h)
  · exact hkind (congrArg Prod.fst h)

/-- Where no dot is remembered, the words that are names are those that are nothing else. -/
theorem exists_names_iff (hr : r.rest = c :: cs) (hc : isWordStart c = true)
    (hdot : r.afterDot = false) : (∃ t, r.Names t) ↔ r.atOrdinaryWord = true := by
  have hword := isWordChar_of_isWordStart hc
  -- An embedded document starts with an equals sign.
  have hdocument : ¬(r.column = 0 ∧ startsDocument (c :: cs) = true) := by
    rintro ⟨-, hd⟩
    simp only [startsDocument, Bool.and_eq_true, List.isPrefixOf_iff_prefix] at hd
    exact ne_of_isWordChar hword (by decide) (List.cons_prefix_cons.mp hd.1).1.symm
  by_cases hmarker : r.column = 0 ∧ startsEndMarker r.rest = true
  · -- Reading ends here.
    have hnone : r.step? = none := by rw [step?, hr]; simp only [← hr, if_pos hmarker]
    refine iff_of_false ?_ (by simp [atOrdinaryWord, hmarker])
    rintro ⟨t, ⟨next, hstep, -⟩, -⟩
    rw [hnone] at hstep
    cases hstep
  have hstep : r.step? = some r.readWord := by
    rw [step?, hr]
    simp only [if_neg (hr ▸ hmarker), if_neg hdocument, read_of_isWordStart cs hc]
  have hmarker' : (r.column = 0 && startsEndMarker r.rest) = false := by simpa using hmarker
  simp only [readWord, hdot, Bool.false_eq_true, if_false] at hstep
  simp only [atOrdinaryWord, hmarker', Bool.not_false, Bool.true_and, Bool.and_eq_true,
    Bool.not_eq_true', decide_eq_true_eq]
  split at hstep
  · next hlabel =>
    -- A label brings up nothing.
    refine iff_of_false ?_ (by simp [hlabel])
    rintro ⟨t, ⟨next, hname, -⟩, -⟩
    rw [hstep] at hname
    cases (Prod.mk.inj (Option.some.inj hname)).1
  next hlabel =>
  split at hstep
  · next hkeyword =>
    -- One token may come of a keyword, but it is of another kind.
    refine iff_of_false ?_ (by simp [hkeyword])
    rintro ⟨t, ⟨next, hname, -⟩, hkind, -, -⟩
    rw [hstep] at hname
    have hthis := kind_of_readKeyword (Option.some.inj hname)
    rcases hkind with hkind | hkind <;> rw [hthis] at hkind <;> cases hkind
  next hkeyword =>
  refine iff_of_true ?_ ⟨by simpa using hlabel, hkeyword⟩
  split at hstep
  · exact ⟨_, names_takeConstant hstep (wordAt_isPrefix_take r.rest _)⟩
  · exact ⟨_, names_takeIdentifier hstep (wordAt_isPrefix_take r.rest 0)⟩

end Reader

/-! ## Transcripts -/

/-- A name that is read somewhere in a source is among the tokens of its transcript. -/
private theorem Reader.Names.mem_tokens {source : String} {i : Nat} {w : Reader} {t : Token}
    (h : w.Names t) (hw : (Reader.start source.toList).visits[i]? = some w) (strict : Bool)
    (file : Option String) : t.inFile file ∈ (transcribe strict file source).tokens := by
  obtain ⟨next, hstep, -⟩ := h.step
  -- The step brings it up, and as it has a line, a strict reading does not lose it.
  have hevent : Event.token t ∈ (Reader.start source.toList).events := by
    obtain ⟨before, hevents, -⟩ := Reader.exists_events_of_visits hw
    simp [hevents, Reader.events_of_step? hstep]
  have hpos : 0 < w.line := Nat.lt_of_lt_of_le Nat.one_pos (Reader.visits_tracks hw).2.line_le
  have hline : t.location.line ≠ 0 := by
    rw [h.location]
    exact Int.natCast_ne_zero.mpr (Nat.ne_of_gt hpos)
  have hlocated : t ∈ (Reader.start source.toList).events.filterMap Event.located? :=
    List.mem_filterMap.mpr ⟨_, hevent, by simp [Event.located?, Event.token?, hline]⟩
  obtain ⟨hmarks, -⟩ := (Reader.start source.toList).marks_spec (Reader.start_counts source.toList)
    fun h => absurd rfl h
  rw [← hmarks] at hlocated
  obtain ⟨mark, hmark, rfl⟩ := List.mem_map.mp hlocated
  refine List.mem_of_mem_filter (p := (·.location.line ≠ 0)) ?_
  rw [filter_tokens_transcribe]
  exact List.mem_map_of_mem hmark

/-- The words after the dots of calls in a source.  Where only spaces and tabs come in between, the
    word is read as a name whatever it is: its token is an identifier or a constant and stands in
    the transcript, and the open blocks stay as they are.  Where the line ends in between, the word
    that comes after further blanks, and after the bodies of the heredocs that wait, is read as a
    name if and only if it is neither a keyword nor a label nor the marker that ends the program. -/
theorem transcribe_names_after_dots (strict : Bool) (file : Option String) (source : String) :
    let visits : List Reader := (Reader.start source.toList).visits
    ∀ i r, visits[i]? = some r → 0 < callDotLength r.rest →
      let ahead := r.rest.drop (callDotLength r.rest)
      (∀ gap rest, ahead = gap ++ rest → (∀ c ∈ gap, isSpace c = true) →
        rest.head?.any isWordStart = true →
        ∃ w t, visits[i + 1 + gap.length]? = some w ∧ w.rest = rest ∧ w.blocks = r.blocks ∧
          w.Names t ∧ t.text.toList = wordAt rest ∧
          t.inFile file ∈ (transcribe strict file source).tokens) ∧
      (∀ gap body gap' rest, ahead = gap ++ '\n' :: body → (∀ c ∈ gap, isSpace c = true) →
        Bodies r.heredocs body (gap' ++ rest) → (∀ c ∈ gap', isSpace c = true ∨ c = '\n') →
        rest.head?.any isWordStart = true →
        ∃ w, visits[i + 1 + (gap.length + 1 + gap'.length)]? = some w ∧ w.rest = rest ∧
          w.blocks = r.blocks ∧ ((∃ t, w.Names t) ↔ w.atOrdinaryWord = true)) := by
  intro visits i r hi hlength ahead
  let after : Reader := (r.hop (callDotLength r.rest)).markDot
  have hafter : visits[i + 1]? = some after :=
    Reader.getElem?_visits_succ hi (Reader.step?_callDot hlength)
  have hahead : after.rest = ahead := rfl
  refine ⟨fun gap rest hgap hspaces hstarts => ?_,
    fun gap body gap' rest hgap hspaces hbodies hblanks hstarts => ?_⟩
  · -- The dot is still remembered after the gap.
    obtain ⟨c, cs, rfl, hc⟩ := exists_cons_of_head?_any hstarts
    let w : Reader := after.hop gap.length
    have hw : visits[i + 1 + gap.length]? = some w :=
      Reader.getElem?_visits_add hafter (Reader.visits_spaces (hahead.trans hgap) hspaces)
    have hrest : w.rest = c :: cs := by
      rw [Reader.rest_hop, hahead, hgap, List.drop_left]
    obtain ⟨hbefore, hcolumn⟩ := Reader.before_spaces (hahead.trans hgap) hspaces
      (Reader.before_callDot hlength)
    obtain ⟨t, hnames, htext⟩ := Reader.names_of_afterDot hrest hc rfl hcolumn hbefore
    exact ⟨w, t, hw, hrest, rfl, hnames, hrest ▸ htext, hnames.mem_tokens hw strict file⟩
  · -- The newline is read after the gap, and the dot is forgotten with it.
    let last : Reader := after.hop gap.length
    have hlast : visits[i + 1 + gap.length]? = some last :=
      Reader.getElem?_visits_add hafter (Reader.visits_spaces (hahead.trans hgap) hspaces)
    have hrest : last.rest = '\n' :: body := by
      rw [Reader.rest_hop, hahead, hgap, List.drop_left]
    have hstep : last.step? = some (last.readNewline.1, last.readNewline.2) :=
      Reader.step?_newline hrest
    obtain ⟨-, -, hblocks, hread⟩ := Reader.step?_of_atNewline hstep
      (by simp [Reader.atNewline, hrest])
    rw [hrest] at hread
    obtain ⟨w, hw, hwrest, hwblocks, hfresh⟩ := Reader.visits_blanks last.readNewline_fresh
      (hread.unique hbodies) hblanks
    obtain ⟨c, cs, rfl, hc⟩ := exists_cons_of_head?_any hstarts
    have hvisits := Reader.getElem?_visits_add (Reader.getElem?_visits_succ hlast hstep) hw
    refine ⟨w, ?_, hwrest, hwblocks.trans hblocks,
      Reader.exists_names_iff hwrest hc hfresh.afterDot⟩
    rw [← hvisits]
    congr 1
    omega

/-- Two dots: the word after the first one is spelled like a keyword, and the line ends after the
    second one while a heredoc waits. -/
theorem transcribe_names_after_dots_end :
    let source := "f(<<A)&. end.\nend\nA\n\n if\n"
    let visits : List Reader := (Reader.start source.toList).visits
    (∃ w t, visits[6]? = some w ∧ w.Names t ∧ t.text.toList = "end".toList ∧
        t.inFile none ∈ (transcribe true none source).tokens) ∧
      ∃ w : Reader, visits[11]? = some w ∧ w.rest = "if\n".toList ∧ ¬∃ t, w.Names t := by
  intro source visits
  have hsource : visits[4]?.any (·.rest = "&. end.\nend\nA\n\n if\n".toList) = true ∧
      visits[7]?.any (fun r => r.rest = ".\nend\nA\n\n if\n".toList ∧
        r.heredocs = [⟨['A'], false⟩]) = true := by
    decide +kernel
  obtain ⟨r, hr, hrest⟩ := (Option.any_eq_true _ _).mp hsource.1
  have hrest := of_decide_eq_true hrest
  have hlength : callDotLength r.rest = 2 := by rw [hrest]; rfl
  obtain ⟨s, hs, hthere⟩ := (Option.any_eq_true _ _).mp hsource.2
  obtain ⟨hsrest, hheredocs⟩ := of_decide_eq_true hthere
  have hslength : callDotLength s.rest = 1 := by rw [hsrest]; rfl
  have hbodies : Bodies s.heredocs "end\nA\n\n if\n".toList (['\n', ' '] ++ "if\n".toList) := by
    rw [hheredocs]
    exact .line (by decide) (by decide) (.terminator (by decide) (by decide) .none)
  obtain ⟨hspaces, -⟩ := transcribe_names_after_dots true none source 4 r hr
    (by rw [hlength]; decide)
  obtain ⟨-, hnewline⟩ := transcribe_names_after_dots true none source 7 s hs
    (by rw [hslength]; decide)
  obtain ⟨w, t, hw, -, -, hnames, htext, hmem⟩ := hspaces [' '] "end.\nend\nA\n\n if\n".toList
    (by rw [hlength, hrest]; rfl) (by simp [isSpace]) rfl
  obtain ⟨w', hw', hwrest, -, hiff⟩ := hnewline [] _ ['\n', ' '] "if\n".toList
    (by rw [hslength, hsrest]; rfl) (by simp) hbodies (by simp [isSpace]) rfl
  have hkeyword : String.ofList (wordAt w'.rest) ∈ keywords := by rw [hwrest]; decide
  refine ⟨⟨w, t, hw, hnames, htext, hmem⟩, w', hw', hwrest, ?_⟩
  simp [hiff, Reader.atOrdinaryWord, hkeyword]

/-- A dot at the end of a line is forgotten: the word on the next line opens the body of a class. -/
theorem keyword_after_dot_and_newline :
    transcribe false none "x.\nclass\n" =
      { tokens := [Token.identifier "x" ⟨1, 1, none⟩,
          Token.keyword "class" (some .newScope) (some .classDef) ⟨2, 1, none⟩]
        notices := [.unclosedBlocks none 1]
        fault := none } := by
  decide +kernel

end ScopeTags.Source
