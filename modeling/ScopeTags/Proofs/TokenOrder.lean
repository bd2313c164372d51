import ScopeTags.Proofs.Positions

/-!
# Order of tokens

The tokens of a source that stand in its text are slices of it, one after the other.  Their
locations are in the order of the slices, also where lines are too small because newlines were
stepped over: a place that was reached later has a greater line, or the same line and a greater
column.  The other tokens are the ends of endless definitions.

## Key results

- `Reader.Brings.between`: the marks of one step lie between its two ends
- `Reader.marks_ordered`: all marks of a text lie one after the other
- `transcribe_slices`: what that means for the tokens of a source
-/

namespace ScopeTags

/-- The text of the token is the slice of the source at offset `o`.  The slice of a comment goes to
    the end of the line, up to the carriage returns there. -/
structure Token.SliceAt (t : Token) (source : List Char) (o : Nat) : Prop where
  text_eq : t.text.toList = (source.drop o).take t.text.length
  comment_eq : t.kind = .comment →
    t.text.toList = Text.trimEnd (· = '\r') ((source.drop o).takeWhile (· ≠ '\n'))

/-- The line is smaller, or else the column. -/
def Location.Precedes (l l' : Location) : Prop :=
  l.line < l'.line ∨ l.line = l'.line ∧ l.column < l'.column

namespace Source

namespace Reader

/-- The first token has been read to its end where the second one stands. -/
structure Mark.Precedes (mark mark' : Mark) : Prop where
  reaches : mark.cursor.Reaches mark'.cursor.toPlace
  ends : mark.token.EndsBy mark.cursor.toPlace mark'.cursor.toPlace

/-- The token of the mark lies between two places. -/
structure Mark.Between (p p' : Place) (mark : Mark) : Prop where
  after : p.Reaches mark.cursor.toPlace
  reaches : mark.cursor.Reaches p'
  ends : mark.token.EndsBy mark.cursor.toPlace p'

/-- Marks on the two sides of a place follow one another. -/
theorem Mark.Between.precedes {p p' : Place} {mark mark' : Mark} (h : mark.Between p p')
    (h' : p'.Reaches mark'.cursor.toPlace) : mark.Precedes mark' where
  reaches := h.reaches.trans h'
  ends := Nat.le_trans h.ends h'.length_le

/-! ## One step -/

section Step

variable {r : Reader} {reading : Reading} (h : r.Brings reading) (hr : 0 < r.line)

include h hr

/-- The marks of one step lie between its two ends, one after the other. -/
theorem Brings.between (hreaches : r.Reaches reading.2.toPlace) (m : Nat) :
    let here := (reading.1.filterMap Event.located?).zipWith (fun t k => (⟨t, k, m⟩ : Mark))
      [r.toCursor, r.nameCursor]
    (∀ mark ∈ here, mark.Between r.toPlace reading.2.toPlace) ∧
      here.Pairwise Mark.Precedes := by
  cases h with
  | nothing hends =>
    rw [hends.filterMap_located?]
    simp
  | word htokens hfirst hends =>
    have hline := line_ne_zero_of_standsAt hfirst hr
    rw [filterMap_located?_of_lines htokens (by simpa using hline)]
    simp only [List.zipWith_cons_cons, List.zipWith_nil_left, List.mem_singleton, forall_eq,
      List.pairwise_singleton, and_true]
    exact ⟨.refl _, hreaches, hends⟩
  | definition htokens hfirst hsecond hheading hapart hnext hends =>
    -- The name is on the way from the keyword to where the reading ends.
    have hname := (nameCursor_tracks hheading).reaches
    have hline := line_ne_zero_of_standsAt hfirst hr
    have hline' := line_ne_zero_of_standsAt hsecond (Nat.lt_of_lt_of_le hr hname.line_le)
    rw [filterMap_located?_of_lines htokens (by simpa using ⟨hline, hline'⟩)]
    simp only [List.zipWith_cons_cons, List.zipWith_nil_left, List.mem_pair, forall_eq_or_imp,
      forall_eq, List.pairwise_pair]
    exact ⟨⟨⟨.refl _, hreaches, Nat.le_trans hapart hnext.length_le⟩, hname, hnext, hends⟩,
      hname, hapart⟩

/-- Only ends of endless definitions have no line. -/
private theorem Brings.eq_end_of_line_eq_zero {t : Token}
    (ht : t ∈ reading.1.filterMap Event.token?) (hline : t.location.line = 0) :
    t = Token.keyword "end" (some .scopeEnd) none {} := by
  cases h with
  | nothing hends =>
    rw [hends] at ht
    exact List.eq_of_mem_replicate ht
  | word htokens hfirst _ =>
    rw [htokens, List.mem_singleton] at ht
    exact absurd hline (ht ▸ line_ne_zero_of_standsAt hfirst hr)
  | definition htokens hfirst hsecond hheading _ _ _ =>
    have hname := (nameCursor_tracks hheading).reaches.line_le
    rw [htokens, List.mem_pair] at ht
    rcases ht with ht | ht
    · exact absurd hline (ht ▸ line_ne_zero_of_standsAt hfirst hr)
    · exact absurd hline (ht ▸ line_ne_zero_of_standsAt hsecond (Nat.lt_of_lt_of_le hr hname))

end Step

/-! ## All of a text -/

/-- The marks of a text lie one after the other, from where its reading starts. -/
theorem marks_ordered (m : Nat) (r : Reader) (hr : 0 < r.line) :
    (∀ mark ∈ r.marks m, r.Reaches mark.cursor.toPlace) ∧
      (r.marks m).Pairwise Mark.Precedes := by
  -- By induction along the steps, which only ever reach further.
  fun_induction marks m r with
  | case1 m r hstep => simp
  | case2 m r found next hstep ih =>
    have hreaches : r.Reaches next.toPlace := (step?_tracks hstep).reaches
    obtain ⟨hhere, hpairwise⟩ := (step?_brings hstep).between hr hreaches m
    obtain ⟨hlater, hpairwise'⟩ := ih (Nat.lt_of_lt_of_le hr hreaches.line_le)
    constructor
    · intro mark hmark
      rcases List.mem_append.mp hmark with hmark | hmark
      · exact (hhere mark hmark).after
      · exact hreaches.trans (hlater mark hmark)
    · -- The place between this step and the next one keeps their marks apart.
      exact List.pairwise_append.mpr ⟨hpairwise, hpairwise', fun mark hmark mark' hmark' =>
        (hhere mark hmark).precedes (hlater mark' hmark')⟩

/-- Of all tokens of a text only an implied end has no line. -/
theorem events_eq_end_of_line_eq_zero (r : Reader) (hr : 0 < r.line) {t : Token}
    (ht : t ∈ r.events.filterMap Event.token?) (hline : t.location.line = 0) :
    t = Token.keyword "end" (some .scopeEnd) none {} := by
  fun_induction marks 0 r with
  | case1 m r hstep =>
    rw [events_of_none hstep, r.finish_endsOnly] at ht
    exact List.eq_of_mem_replicate ht
  | case2 m r found next hstep ih =>
    rw [events_of_step? hstep, List.filterMap_append, List.mem_append] at ht
    have hreaches : r.Reaches next.toPlace := (step?_tracks hstep).reaches
    rcases ht with ht | ht
    · exact (step?_brings hstep).eq_end_of_line_eq_zero hr ht hline
    · exact ih (Nat.lt_of_lt_of_le hr hreaches.line_le) ht

/-! ## Marks and slices -/

namespace Mark

variable {source : List Char} {mark mark' : Mark}

/-- A sound mark gives a slice. -/
theorem Sound.sliceAt (h : mark.Sound source) (file : Option String) :
    (mark.token.inFile file).SliceAt source mark.offset := by
  have hdrop : source.drop mark.offset = mark.cursor.rest := by
    rw [← h.text_eq, Cursor.text, offset, ← List.length_reverse, List.drop_left]
  constructor
  · rw [hdrop, ← String.length_toList]
    exact List.prefix_iff_eq_take.mp h.standsAt.text_isPrefix
  · rw [hdrop]
    exact h.standsAt.comment_eq

/-- Lines and columns are counted from one. -/
private theorem Sound.one_le (h : mark.Sound source) :
    1 ≤ mark.token.location.line ∧ 1 ≤ mark.token.location.column := by
  have hline := h.counts.line_pos
  rw [h.standsAt.location_eq]
  simp only [Place.location]
  omega

/-- A token that is read later has a later location, since no token is empty. -/
theorem Precedes.location (h : mark.Sound source) (h' : mark'.Sound source)
    (hprecedes : mark.Precedes mark') :
    mark.token.location.Precedes mark'.token.location := by
  have hlength : 0 < mark.token.text.length := by
    rw [← String.length_toList]
    exact List.length_pos_iff.mpr h.standsAt.text_ne_nil
  have hends := hprecedes.ends
  have hline := hprecedes.reaches.line_le
  have hcolumn := hprecedes.reaches.column_eq
  -- On the same line the column grows with the characters that have been read.
  rw [Location.Precedes, h.standsAt.location_eq, h'.standsAt.location_eq]
  simp only [Place.location, Token.EndsBy] at hends ⊢
  omega

end Mark

end Reader

/-! ## Transcripts -/

/-- The tokens of a transcript are the first ones that the source has. -/
theorem tokens_transcribe_isPrefix (strict : Bool) (file : Option String) (source : String) :
    (transcribe strict file source).tokens <+:
      ((events source).filterMap Event.token?).map (Token.inFile file) := by
  rw [Event.filterMap_token?_inFile]
  exact (List.takeWhile_prefix _).filterMap _

/-- The tokens of a source that have a line are slices of the source, each one behind the one before
    it, and their locations are in the same order.  A token that has no line is the end of an
    endless definition. -/
theorem transcribe_slices (strict : Bool) (file : Option String) (source : String) :
    let transcript : Transcript := transcribe strict file source
    (∃ placed : List (Token × Nat),
      placed.map Prod.fst = transcript.tokens.filter (·.location.line ≠ 0) ∧
        (∀ x ∈ placed, x.1.SliceAt source.toList x.2 ∧
          1 ≤ x.1.location.line ∧ 1 ≤ x.1.location.column) ∧
        placed.Pairwise fun x y =>
          x.2 + x.1.text.length ≤ y.2 ∧ x.1.location.Precedes y.1.location) ∧
      ∀ t ∈ transcript.tokens, t.location.line = 0 →
        t = Token.keyword "end" (some .scopeEnd) none ⟨0, 0, file⟩ := by
  intro transcript
  let start := Reader.start source.toList
  have hstart : start.Counts 0 := Reader.start_counts source.toList
  constructor
  · obtain ⟨-, hsound⟩ := start.marks_spec hstart fun h => absurd rfl h
    obtain ⟨-, hordered⟩ := Reader.marks_ordered 0 start hstart.line_pos
    -- The offsets are those of the marks.
    refine ⟨(start.marks 0).map fun mark => (mark.token.inFile file, mark.offset), ?_, ?_, ?_⟩
    · rw [List.map_map]
      exact (filter_tokens_transcribe strict file source).symm
    · intro x hx
      obtain ⟨mark, hmark, rfl⟩ := List.mem_map.mp hx
      exact ⟨(hsound mark hmark).sliceAt file, (hsound mark hmark).one_le⟩
    · rw [List.pairwise_map]
      apply hordered.imp_of_mem
      intro mark mark' hmark hmark' hprecedes
      exact ⟨hprecedes.ends, hprecedes.location (hsound mark hmark) (hsound mark' hmark')⟩
  · intro t ht hline
    -- The file makes no difference to lines.
    obtain ⟨u, hu, rfl⟩ :=
      List.mem_map.mp ((tokens_transcribe_isPrefix strict file source).subset ht)
    rw [start.events_eq_end_of_line_eq_zero hstart.line_pos hu hline]
    rfl

end Source

end ScopeTags
