import ScopeTags.Proofs.LookingAhead
import ScopeTags.Source.Lexing

/-!
# How lines are counted

A place counts the newlines that were read as ends of lines.  Every step of a reader that goes over
a newline counts it, with two exceptions: the character after a dollar sign and the one after a
backslash in a character literal are taken whatever they are.  A newline there is stepped over, and
from then on the line is one too small.

## Key results

- `Reader.step?_tracks`: a step goes on in the same text and counts all newlines but those that it
  steps over
- `Place.Counts`: what that means for the line and the column of a place
- `Place.Reaches`: what it means for two places one after the other
-/

namespace ScopeTags.Source

/-! ## Stretches of one line -/

/-- The first `n` characters of `cs` are on one line. -/
def SameLine (n : Nat) (cs : List Char) : Prop := '\n' ∉ cs.take n

private theorem sameLine_zero (cs : List Char) : SameLine 0 cs := by simp [SameLine]

/-- A stretch is on one line if its first character is no newline and the rest is on one line. -/
theorem sameLine_succ {n : Nat} {c : Char} {cs : List Char} :
    SameLine (n + 1) (c :: cs) ↔ c ≠ '\n' ∧ SameLine n cs := by
  simp [SameLine, eq_comm]

/-- One character is on one line unless it is a newline. -/
theorem sameLine_one {c : Char} {cs : List Char} (hc : c ≠ '\n') : SameLine 1 (c :: cs) :=
  sameLine_succ.mpr ⟨hc, sameLine_zero cs⟩

/-- Two stretches of one line, one after the other, are on one line. -/
theorem SameLine.add {n m : Nat} {cs : List Char} (h : SameLine n cs)
    (h' : SameLine m (cs.drop n)) : SameLine (n + m) cs := by
  rw [SameLine, List.take_add, List.mem_append]
  rintro (hmem | hmem)
  · exact h hmem
  · exact h' hmem

/-- A stretch of characters of a class that newlines are not in is on one line. -/
theorem sameLine_takeWhile {p : Char → Bool} (hp : p '\n' = false) (cs : List Char) :
    SameLine (cs.takeWhile p).length cs := by
  rw [SameLine, ← List.prefix_iff_eq_take.mp (List.takeWhile_prefix p)]
  intro hmem
  rw [List.mem_takeWhile_imp hmem] at hp
  cases hp

/-- A word that stands at the start of a text is on one line. -/
theorem sameLine_of_prefix {word cs : List Char} (h : word <+: cs) (hword : '\n' ∉ word) :
    SameLine word.length cs := by
  rwa [SameLine, ← List.prefix_iff_eq_take.mp h]

/-- No word goes over the end of a line. -/
theorem sameLine_wordLength (cs : List Char) : SameLine (wordLength cs) cs :=
  sameLine_takeWhile (by decide) cs

/-- Spaces are those of one line. -/
theorem sameLine_spacesLength (cs : List Char) : SameLine (spacesLength cs) cs :=
  sameLine_takeWhile (by decide) cs

/-- A receiver and its dot are on one line. -/
theorem sameLine_receiverLength (cs : List Char) : SameLine (receiverLength cs) cs := fun hmem =>
  (ne_of_mem_receiver cs hmem).2 rfl

/-- The name of a method is on one line. -/
theorem sameLine_methodNameLength (cs : List Char) : SameLine (methodNameLength cs) cs :=
  fun hmem => (ne_of_mem_methodName cs hmem).2 rfl

/-- No operator has a newline in its name. -/
theorem sameLine_operatorLength (cs : List Char) : SameLine (operatorLength cs) cs := by
  unfold operatorLength
  split
  · next name hname =>
    -- The table of names is checked once, and the name that was found is one of it.
    have hall : operatorNames.all (fun name => !name.toList.contains '\n') = true := by decide
    have hfound : name.toList.isPrefixOf cs = true := by simpa using List.find?_some hname
    have hname := List.all_eq_true.mp hall name (List.mem_of_find?_eq_some hname)
    rw [← String.length_toList]
    exact sameLine_of_prefix (List.isPrefixOf_iff_prefix.mp hfound) (by simpa using hname)
  · exact sameLine_zero cs

/-- No number goes over the end of a line. -/
theorem sameLine_numberLength (cs : List Char) : SameLine (numberLength cs) cs := by
  induction cs with
  | nil => exact sameLine_zero []
  | cons c cs ih =>
    rw [numberLength]
    split
    · next hc =>
      refine sameLine_succ.mpr ⟨?_, ih⟩
      rintro rfl
      -- A newline is none of the characters that continue a number.
      rcases hc with hc | hc | hc
      · exact absurd hc (by decide)
      · exact absurd hc (by decide)
      · exact absurd hc.1 (by decide)
    · exact sameLine_zero _

/-- The path of a constant is on one line. -/
theorem sameLine_pathLength (cs : List Char) : SameLine (pathLength cs) cs := by
  fun_induction pathLength cs with
  | case1 c rest hc n ih =>
    have hword : SameLine n (c :: rest) := sameLine_wordLength _
    rw [Nat.add_assoc, Nat.add_comm 2]
    -- Two colons, a word, and what the path goes on with.
    exact sameLine_succ.mpr ⟨by decide, sameLine_succ.mpr ⟨by decide, hword.add ih⟩⟩
  | case2 c rest hc => exact sameLine_zero _
  | case3 cs hcs => exact sameLine_zero _

/-- A word may take the mark after it. -/
theorem wordAt_eq_or (cs : List Char) :
    wordAt cs = cs.takeWhile isWordChar ∨
      ∃ c rest, cs.drop (wordLength cs) = c :: rest ∧ (c = '?' ∨ c = '!') ∧
        wordAt cs = cs.takeWhile isWordChar ++ [c] := by
  unfold wordAt
  dsimp only
  split
  · next c rest hrest =>
    split
    · next hc => exact .inr ⟨c, rest, hrest, hc.1, rfl⟩
    · exact .inl rfl
  · exact .inl rfl

/-- A word stands at the start of the text, its mark included. -/
theorem wordAt_isPrefix (cs : List Char) : wordAt cs <+: cs := by
  rcases wordAt_eq_or cs with h | ⟨c, rest, hrest, -, h⟩
  · rw [h]
    exact List.takeWhile_prefix isWordChar
  · refine ⟨rest, ?_⟩
    rw [h, List.append_assoc, List.singleton_append, ← hrest, wordLength]
    exact (congrArg (· ++ _) (List.prefix_iff_eq_take.mp (List.takeWhile_prefix isWordChar))).trans
      (List.take_append_drop _ _)

/-- A word is on one line, its mark included. -/
theorem sameLine_wordAt (cs : List Char) : SameLine (wordAt cs).length cs := by
  apply sameLine_of_prefix (wordAt_isPrefix cs)
  have hword : '\n' ∉ cs.takeWhile isWordChar := fun hmem =>
    absurd (List.mem_takeWhile_imp hmem) (by decide)
  rcases wordAt_eq_or cs with h | ⟨c, rest, -, hc, h⟩
  · rwa [h]
  · rw [h, List.mem_append, List.mem_singleton]
    rintro (hmem | rfl)
    · exact hword hmem
    · exact absurd hc (by decide)

/-- The colon of a label is no newline. -/
theorem sameLine_of_isLabelColon {cs : List Char} (h : isLabelColon cs = true) : SameLine 1 cs := by
  unfold isLabelColon at h
  split at h
  · cases h
  · exact sameLine_one (by decide)
  · cases h

/-- A symbol is on one line, from its colon on. -/
theorem sameLine_symbolLength (cs : List Char) : SameLine (symbolLength cs) (':' :: cs) := by
  have hword := sameLine_wordLength cs
  -- A symbol that takes one more character after its word, and one that does not.
  have hmarked : ∀ c rest, cs.drop (wordLength cs) = c :: rest → c ≠ '\n' →
      SameLine (wordLength cs + 2) (':' :: cs) := by
    intro c rest hrest hc
    refine sameLine_succ.mpr ⟨by decide, hword.add ?_⟩
    rw [hrest]
    exact sameLine_one hc
  have hplain : SameLine (wordLength cs + 1) (':' :: cs) := sameLine_succ.mpr ⟨by decide, hword⟩
  unfold symbolLength
  dsimp only
  split
  · next rest hrest => exact hmarked _ _ hrest (by decide)
  · next rest hrest => exact hmarked _ _ hrest (by decide)
  · next rest hrest =>
    split
    · exact hplain
    · exact hmarked _ _ hrest (by decide)
  · exact hplain

/-- The opening of a percent literal is on one line, for its delimiter is no blank. -/
theorem sameLine_percentOpening? {cs : List Char} {type delim : Char} {n : Nat}
    (h : percentOpening? cs = some (type, delim, n)) : SameLine n ('%' :: cs) := by
  have hblank : Text.isBlank '\n' = true := by decide
  unfold percentOpening? at h
  split at h
  · cases h
  · next c cs =>
    split at h
    · next hc =>
      split at h
      · cases h
      · next delim' rest =>
        split at h
        · cases h
        · next hdelim =>
          cases h
          -- With a type there are three characters, and the newline is neither a type nor a
          -- delimiter.
          refine sameLine_succ.mpr ⟨by decide, sameLine_succ.mpr ⟨?_, sameLine_one ?_⟩⟩
          · rintro rfl
            exact absurd hc (by decide)
          · rintro rfl
            exact hdelim (.inr hblank)
    · split at h
      · cases h
      · next hc =>
        cases h
        -- Without one there are two.
        refine sameLine_succ.mpr ⟨by decide, sameLine_one ?_⟩
        rintro rfl
        exact hc (.inr (.inl hblank))

/-- The name that ends a heredoc is on one line, with its quotes. -/
private theorem Heredoc.sameLine_terminator? {indented : Bool} {cs name : List Char} {n : Nat}
    (h : terminator? indented cs = some (name, n)) : SameLine n cs := by
  unfold terminator? at h
  split at h
  · cases h
  · next c cs =>
    split at h
    · next hquote =>
      dsimp only at h
      split at h
      · next hclose =>
        cases h
        have hc : c ≠ '\n' := by
          rintro rfl
          exact absurd hquote (by decide)
        -- The name ends at the closing quote or at a newline, and here it is the quote.
        refine sameLine_succ.mpr ⟨hc, (sameLine_takeWhile (by simp) cs).add ?_⟩
        rw [List.drop_eq_getElem?_toList_append, hclose]
        exact sameLine_one hc
      · cases h
    · split at h
      · cases h
        exact sameLine_takeWhile (by decide) (c :: cs)
      · cases h

/-- All that announces a heredoc is on one line. -/
theorem Heredoc.sameLine_opening? {cs : List Char} {heredoc : Heredoc} {n : Nat}
    (h : opening? cs = some (heredoc, n)) : SameLine n cs := by
  unfold opening? at h
  split at h
  · cases h
  · next c rest =>
    split at h
    · next hc =>
      obtain ⟨⟨name, m⟩, hname, heq⟩ := Option.map_eq_some_iff.mp h
      cases heq
      refine sameLine_succ.mpr ⟨?_, sameLine_terminator? hname⟩
      rintro rfl
      exact absurd hc (by decide)
    · obtain ⟨⟨name, m⟩, hname, heq⟩ := Option.map_eq_some_iff.mp h
      cases heq
      exact sameLine_terminator? hname

/-! ## Places -/

/-- The line of the place is the one that the characters before it make it, but for `m` newlines
    that were stepped over, and if there are none, so is the column. -/
structure Place.Counts (m : Nat) (p : Place) : Prop where
  line_pos : 0 < p.line
  line_eq : p.line + m = 1 + p.before.count '\n'
  column_eq : m = 0 → p.column = (p.before.takeWhile (· ≠ '\n')).length

namespace Place.Counts

variable {m : Nat} {p : Place}

/-- One more character keeps the count: a newline is counted and starts the column anew. -/
theorem past (h : Counts m p) (c : Char) : Counts m (p.past c) := by
  have hline := h.line_eq
  rw [Place.past]
  split
  · next hc =>
    -- No character stands between here and the newline, so the column is zero.
    refine ⟨Nat.succ_pos _, ?_, fun _ => by simp [hc]⟩
    simp only [hc, List.count_cons_self]
    omega
  · next hc =>
    refine ⟨h.line_pos, ?_, fun hm => ?_⟩
    · rwa [List.count_cons_of_ne hc]
    · simp [hc, h.column_eq hm]

/-- A place goes on counting over more characters of the same line. -/
theorem along (h : Counts m p) {cs : List Char} (hcs : '\n' ∉ cs) : Counts m (p.along cs) where
  line_pos := h.line_pos
  line_eq := by
    have hnone : cs.reverse.count '\n' = 0 := List.count_eq_zero.mpr (by simpa using hcs)
    simp only [Place.along, List.count_append, hnone, Nat.zero_add]
    exact h.line_eq
  column_eq hm := by
    -- Nothing that was read along ends the line, so the column goes on from where it was.
    have hall : ∀ c ∈ cs.reverse, decide (c ≠ '\n') = true := by
      intro c hc
      exact decide_eq_true fun heq => hcs (heq ▸ List.mem_reverse.mp hc)
    simp only [Place.along, List.takeWhile_append_of_pos hall, List.length_append,
      List.length_reverse, h.column_eq hm]
    omega

/-- A newline that is stepped over is not counted. -/
private theorem along_newline (h : Counts m p) {cs : List Char} (hcs : '\n' ∉ cs) :
    Counts (m + 1) (p.along (cs ++ ['\n'])) where
  line_pos := h.line_pos
  line_eq := by
    have hnone : cs.reverse.count '\n' = 0 := List.count_eq_zero.mpr (by simpa using hcs)
    have hline := h.line_eq
    have hreverse : (cs ++ ['\n']).reverse = '\n' :: cs.reverse := by simp
    simp only [Place.along, hreverse, List.cons_append, List.count_cons_self, List.count_append,
      hnone]
    omega
  -- The column is wrong from here to the next newline, but it is claimed only where `m` is zero.
  column_eq hm := absurd hm (Nat.succ_ne_zero m)

end Place.Counts

/-- `p'` is as far on as `p` or further: on a later line, or on the same one and by as many columns
    as characters were read in between. -/
structure Place.Reaches (p p' : Place) : Prop where
  length_le : p.before.length ≤ p'.before.length
  line_le : p.line ≤ p'.line
  column_eq : p'.line = p.line → p'.column + p.before.length = p.column + p'.before.length

namespace Place.Reaches

variable {p p' p'' : Place}

/-- A place reaches itself. -/
theorem refl (p : Place) : p.Reaches p :=
  ⟨Nat.le_refl _, Nat.le_refl _, fun _ => rfl⟩

/-- Places reach each other in order. -/
theorem trans (h : p.Reaches p') (h' : p'.Reaches p'') : p.Reaches p'' where
  length_le := Nat.le_trans h.length_le h'.length_le
  line_le := Nat.le_trans h.line_le h'.line_le
  column_eq hline := by
    -- Lines do not go back, so the place in between is on the same one.
    have hle := h.line_le
    have hle' := h'.line_le
    have hcolumn := h.column_eq (by omega)
    have hcolumn' := h'.column_eq (by omega)
    omega

/-- A place reaches the one after one more character. -/
theorem past (p : Place) (c : Char) : p.Reaches (p.past c) := by
  rw [Place.past]
  split
  · exact ⟨by simp, by simp, fun hline => by simp at hline⟩
  · exact ⟨by simp, by simp, fun _ => by simp only [List.length_cons]; omega⟩

/-- A place reaches the one after more characters of the same line. -/
theorem along (p : Place) (cs : List Char) : p.Reaches (p.along cs) where
  length_le := by simp [Place.along]
  line_le := Nat.le_refl _
  column_eq _ := by
    simp only [Place.along, List.length_append, List.length_reverse]
    omega

end Place.Reaches

/-! ## Going on in a text -/

namespace Cursor

/-- The text that a cursor is in. -/
def text (k : Cursor) : List Char := k.before.reverse ++ k.rest

/-- `k'` is further on in the same text as `k`, and on the way `n` newlines were stepped over. -/
structure Tracks (n : Nat) (k k' : Cursor) : Prop where
  text_eq : k'.text = k.text
  reaches : k.toPlace.Reaches k'.toPlace
  counts : ∀ m, k.Counts m → k'.Counts (m + n)

/-- Nothing is stepped over where a cursor stays. -/
theorem Tracks.refl (k : Cursor) : Tracks 0 k k := ⟨rfl, .refl k.toPlace, fun _ h => h⟩

/-- What is stepped over on two ways adds up. -/
theorem Tracks.trans {n m : Nat} {k k' k'' : Cursor} (h : Tracks n k k') (h' : Tracks m k' k'') :
    Tracks (n + m) k k'' where
  text_eq := h'.text_eq.trans h.text_eq
  reaches := h.reaches.trans h'.reaches
  counts l hl := by
    rw [← Nat.add_assoc]
    exact h'.counts _ (h.counts l hl)

variable {k : Cursor}

/-- A hop stays in the text. -/
private theorem text_hop (k : Cursor) (n : Nat) : (k.hop n).text = k.text := by
  simp [text, hop, Place.along]

/-- A hop within a line steps over no newline. -/
private theorem hop_tracks {n : Nat} (h : SameLine n k.rest) : Tracks 0 k (k.hop n) :=
  ⟨k.text_hop n, .along k.toPlace _, fun _ hm => hm.along h⟩

/-- A hop whose last character is a newline steps over it. -/
private theorem hop_tracks_newline {n : Nat} (cs : List Char) (h : k.rest.take n = cs ++ ['\n'])
    (hcs : '\n' ∉ cs) : Tracks 1 k (k.hop n) where
  text_eq := k.text_hop n
  reaches := .along k.toPlace _
  counts m hm := by
    have hnewline := hm.along_newline hcs
    rwa [← h] at hnewline

/-- Reading one character as an end of line or not steps over no newline. -/
private theorem past_tracks (p : Place) (c : Char) (cs : List Char) :
    Tracks 0 { toPlace := p, rest := c :: cs } { toPlace := p.past c, rest := cs } where
  text_eq := by
    -- On either branch the character is put before the place.
    have hbefore : (p.past c).before = c :: p.before := by
      rw [Place.past]
      split <;> rfl
    simp [text, hbefore]
  reaches := .past p c
  counts m hm := hm.past c

/-- Going on to the next line steps over no newline. -/
private theorem nextLine_tracks (k : Cursor) : Tracks 0 k k.nextLine := by
  -- First the rest of the line, as a hop of its length.
  have hline := hop_tracks (sameLine_takeWhile (p := fun c => decide (c ≠ '\n')) (by decide) k.rest)
  have htake : k.rest.take (k.rest.takeWhile (· ≠ '\n')).length = k.rest.takeWhile (· ≠ '\n') :=
    (List.prefix_iff_eq_take.mp (List.takeWhile_prefix _)).symm
  have hdrop : k.rest.drop (k.rest.takeWhile (· ≠ '\n')).length = k.rest.dropWhile (· ≠ '\n') := by
    have hsplit := List.take_append_drop (k.rest.takeWhile (· ≠ '\n')).length k.rest
    rw [htake] at hsplit
    exact List.append_cancel_left (hsplit.trans List.takeWhile_append_dropWhile.symm)
  rw [hop, htake, hdrop] at hline
  rw [nextLine]
  -- The newline that ends the line is counted.
  split
  · next hnil =>
    rw [hnil] at hline
    exact hline
  · next c rest hrest =>
    rw [hrest] at hline
    exact hline.trans (past_tracks _ c rest)

/-- Reading lines up to one of a kind steps over no newline. -/
private theorem linesThrough_tracks (ends : List Char → Bool) (k : Cursor) :
    Tracks 0 k (k.linesThrough ends).2 := by
  fun_induction linesThrough ends k with
  | case1 k hnil => exact .refl k
  | case2 k hne hends => exact k.nextLine_tracks
  | case3 k hne hends ih => exact k.nextLine_tracks.trans ih

end Cursor

/-- Inside of a literal every newline is counted, escaped or not. -/
private theorem skipFrames_tracks (frames : List Frame) (p : Place) (cs : List Char) :
    Cursor.Tracks 0 { toPlace := p, rest := cs } (skipFrames frames p cs).1 := by
  fun_induction skipFrames frames p cs with
  | case1 p cs => exact .refl _
  | case2 frames p hne => exact .refl _
  | case3 frame frames p c cs ih => exact (Cursor.past_tracks p c cs).trans ih

/-- The bodies of heredocs are read line by line. -/
private theorem skipBodies_tracks (heredocs : List Heredoc) (k : Cursor) :
    Cursor.Tracks 0 k (skipBodies heredocs k).1 := by
  induction heredocs generalizing k with
  | nil => exact .refl k
  | cons h heredocs ih => exact (k.linesThrough_tracks h.endsAt).trans (ih _)

/-- An embedded document is read line by line. -/
private theorem skipDocument_tracks (k : Cursor) : Cursor.Tracks 0 k (skipDocument k).1 :=
  k.nextLine_tracks.trans (k.nextLine.linesThrough_tracks endsDocument)

namespace Reader

/-! ## Punctuation -/

/-- The reading goes on in the same text and steps over `n` newlines. -/
def Tracks (n : Nat) (r : Reader) (reading : Reading) : Prop :=
  Cursor.Tracks n r.toCursor reading.2.toCursor

/-- Whichever way the reading goes, it is enough that each of them steps over as many newlines. -/
theorem Tracks.ite {n : Nat} {r : Reader} {p : Prop} [Decidable p] {x y : Reading}
    (hx : p → r.Tracks n x) (hy : ¬p → r.Tracks n y) : r.Tracks n (if p then x else y) :=
  iteInduction hx hy

/-- A reading that ends with a hop within the line steps over no newline, whatever else it
    changes. -/
private theorem hop_tracks {r next : Reader} {n : Nat} {cs : List Char} (hr : r.rest = cs)
    (h : SameLine n cs) (hnext : next.toCursor = r.toCursor.hop n) (found : List Event) :
    r.Tracks 0 (found, next) := by
  rw [Tracks, hnext]
  exact Cursor.hop_tracks (hr ▸ h)

section Punctuation

variable {r : Reader} {c : Char} {cs : List Char}

/-- An operator of one character takes no newline along. -/
private theorem skipOperator_tracks (hr : r.rest = c :: cs) (hc : c ≠ '\n') :
    r.Tracks 0 (r.skipOperator 1) :=
  hop_tracks hr (sameLine_one hc) rfl _

/-- A literal steps over no newline if its opening is on one line. -/
private theorem skipLiteral_tracks {n : Nat} (hr : r.rest = cs) (h : SameLine n cs)
    (frame : Nat → Frame) : r.Tracks 0 (r.skipLiteral n frame) :=
  (Cursor.hop_tracks (hr ▸ h)).trans (skipFrames_tracks _ _ _)

/-- The flags after a literal are on its last line. -/
theorem Tracks.skipFlags {found : List Event} {next : Reader} (h : r.Tracks 0 (found, next)) :
    r.Tracks 0 (found, next.skipFlags) :=
  Cursor.Tracks.trans h (Cursor.hop_tracks (sameLine_takeWhile (by decide) next.rest))

/-- What follows a colon: another one, a quoted symbol, a symbol that is a word, one that is an
    operator, or nothing that belongs to it. -/
private theorem readColon_tracks (hr : r.rest = ':' :: cs) : r.Tracks 0 (r.readColon cs) := by
  have hoperator := skipOperator_tracks hr (by decide)
  unfold readColon
  split
  · exact hoperator
  · next d ds =>
    -- A second colon or a quote is the second character, and neither is a newline.
    have htwo : d ≠ '\n' → SameLine 2 (':' :: d :: ds) := fun hd =>
      sameLine_succ.mpr ⟨by decide, sameLine_one hd⟩
    apply Tracks.ite
    · rintro rfl
      exact hop_tracks hr (htwo (by decide)) rfl _
    intro _
    apply Tracks.ite
    · intro hd
      apply skipLiteral_tracks hr
      apply htwo
      rintro rfl
      exact absurd hd (by decide)
    intro _
    apply Tracks.ite
    · intro _
      exact hop_tracks hr (sameLine_symbolLength _) rfl _
    intro _
    apply Tracks.ite
    · intro _
      exact hop_tracks hr (sameLine_succ.mpr ⟨by decide, sameLine_operatorLength _⟩) rfl _
    · intro _
      exact hoperator

/-- A percent sign opens a literal or is an operator. -/
private theorem readPercent_tracks (hr : r.rest = '%' :: cs) : r.Tracks 0 (r.readPercent cs) := by
  have hoperator := skipOperator_tracks hr (by decide)
  unfold readPercent
  split
  · next type delim n hn =>
    apply Tracks.ite
    · intro _
      have hliteral := skipLiteral_tracks hr (sameLine_percentOpening? hn)
        (Frame.percent type delim)
      dsimp only
      split
      · exact hliteral.skipFlags
      · exact hliteral
    · intro _
      exact hoperator
  · exact hoperator

/-- A slash opens a regular expression or is an operator. -/
private theorem readSlash_tracks (hr : r.rest = '/' :: cs) : r.Tracks 0 (r.readSlash cs) := by
  unfold readSlash
  apply Tracks.ite
  · intro _
    exact (skipLiteral_tracks hr (sameLine_one (by decide)) (Frame.regex false)).skipFlags
  · intro _
    exact skipOperator_tracks hr (by decide)

/-- A less-than sign announces a heredoc, whose body is left for later, or is an operator. -/
private theorem readLessThan_tracks (hr : r.rest = '<' :: cs) : r.Tracks 0 (r.readLessThan cs) := by
  have hoperator := skipOperator_tracks hr (by decide)
  unfold readLessThan
  split
  · next rest =>
    split
    · next heredoc n hn =>
      have hopening : SameLine (n + 2) ('<' :: '<' :: rest) :=
        sameLine_succ.mpr ⟨by decide, sameLine_succ.mpr ⟨by decide, Heredoc.sameLine_opening? hn⟩⟩
      apply Tracks.ite
      · intro _
        exact hop_tracks hr hopening rfl _
      · intro _
        exact hoperator
    · exact hoperator
  · exact hoperator

/-- One, two or three dots step over no newline. -/
private theorem readDot_tracks (hr : r.rest = '.' :: cs) : r.Tracks 0 (r.readDot cs) := by
  have hdot : ∀ cs, SameLine 1 ('.' :: cs) := fun _ => sameLine_one (by decide)
  unfold readDot
  split
  · exact hop_tracks (n := 3) hr
      (sameLine_succ.mpr ⟨by decide, sameLine_succ.mpr ⟨by decide, hdot _⟩⟩) rfl _
  · exact hop_tracks (n := 2) hr (sameLine_succ.mpr ⟨by decide, hdot _⟩) rfl _
  · exact hop_tracks (n := 1) hr (hdot _) rfl _

/-- A variable has one sign or two, and its name may be missing. -/
private theorem readVariable_tracks (hr : r.rest = '@' :: cs) : r.Tracks 0 (r.readVariable cs) := by
  have hword : ∀ cs, SameLine (wordLength cs + 1) ('@' :: cs) := fun cs =>
    sameLine_succ.mpr ⟨by decide, sameLine_wordLength cs⟩
  unfold readVariable
  split
  · next cs => exact hop_tracks hr (sameLine_succ.mpr ⟨by decide, hword cs⟩) rfl _
  · exact hop_tracks hr (hword cs) rfl _

/-- Closing endless definitions reads nothing. -/
theorem toCursor_closeEndless (r : Reader) : r.closeEndless.2.toCursor = r.toCursor := by
  rw [closeEndless]
  split <;> rfl

/-- Brackets, semicolons, dots and all other operators. -/
private theorem readSign_tracks (hr : r.rest = c :: cs) (hc : c ≠ '\n') :
    r.Tracks 0 (r.readSign c cs) := by
  have hone : SameLine 1 (c :: cs) := sameLine_one hc
  unfold readSign
  apply Tracks.ite
  · intro _
    exact hop_tracks hr hone rfl _
  intro _
  apply Tracks.ite
  · intro _
    exact hop_tracks hr hone rfl _
  intro _
  apply Tracks.ite
  · intro _
    exact hop_tracks hr hone (toCursor_closeEndless (r.hop 1)) _
  intro _
  apply Tracks.ite
  · rintro rfl
    exact readDot_tracks hr
  intro _
  apply Tracks.ite
  · rintro ⟨rfl, hdot⟩
    -- The dot of a safe call is a second character of the same line.
    obtain ⟨cs, rfl⟩ := List.head?_eq_some_iff.mp hdot
    exact hop_tracks (n := 2) hr (sameLine_succ.mpr ⟨hc, sameLine_one (by decide)⟩) rfl _
  · intro _
    exact skipOperator_tracks hr hc

/-- Whether the next piece of the text steps over a newline: one after a dollar sign, or after a
    backslash in a character literal. -/
def stepsOver (r : Reader) : Bool :=
  match r.rest with
  | '$' :: '\n' :: _ => true
  | '?' :: '\\' :: '\n' :: _ => r.valueExpected
  | _ => false

/-- Only a dollar sign and a question mark can step over a newline. -/
private theorem stepsOver_eq_false (hr : r.rest = c :: cs) (hdollar : c ≠ '$')
    (hquestion : c ≠ '?') : r.stepsOver = false := by
  unfold stepsOver
  split
  · next rest hrest => exact absurd (List.cons.inj (hr.symm.trans hrest)).1 hdollar
  · next rest hrest => exact absurd (List.cons.inj (hr.symm.trans hrest)).1 hquestion
  · rfl

/-- A global whose name is a newline steps over it, and no other does. -/
private theorem readGlobal_tracks (hr : r.rest = '$' :: cs) :
    r.Tracks r.stepsOver.toNat (r.readGlobal cs) := by
  unfold readGlobal
  cases cs with
  | nil =>
    have hsilent : r.stepsOver = false := by simp [stepsOver, hr]
    rw [hsilent]
    -- The dollar sign is the last character, so the hop of two is cut short.
    exact hop_tracks (n := 2) hr (by simp [SameLine]) rfl _
  | cons d ds =>
    by_cases hd : d = '\n'
    · subst hd
      have hover : r.stepsOver = true := by simp [stepsOver, hr]
      rw [hover]
      exact Cursor.hop_tracks_newline (n := 2) ['$'] (by rw [hr]; rfl) (by decide)
    · have hsilent : r.stepsOver = false := by simp [stepsOver, hr, hd]
      rw [hsilent]
      refine hop_tracks hr ?_ rfl _
      -- A word, or one character that is no newline.
      split
      · exact sameLine_succ.mpr ⟨by decide, sameLine_wordLength _⟩
      · exact sameLine_succ.mpr ⟨by decide, sameLine_one hd⟩

/-- A character literal is on one line unless it takes a newline after a backslash. -/
theorem sameLine_characterLength? {n : Nat} (h : characterLength? cs = some n)
    (hcs : ∀ rest, cs ≠ '\\' :: '\n' :: rest) : SameLine n ('?' :: cs) := by
  unfold characterLength? at h
  split at h
  · cases h
  · next d ds =>
    split at h
    · cases h
    next hblank =>
    have hd : d ≠ '\n' := by
      rintro rfl
      exact hblank (by decide)
    split at h
    -- Only here is a third character taken, and it is the one that may be a newline.
    · next hbackslash =>
      cases h
      refine sameLine_succ.mpr ⟨by decide, sameLine_succ.mpr ⟨hd, ?_⟩⟩
      cases ds with
      | nil => simp [SameLine]
      | cons e es =>
        apply sameLine_one
        rintro rfl
        exact hcs es (by rw [hbackslash])
    split at h
    · cases h
    · cases h
      exact sameLine_succ.mpr ⟨by decide, sameLine_one hd⟩

/-- A character literal that escapes a newline steps over it, if it is read as a literal at all. -/
private theorem readQuestionMark_tracks (hr : r.rest = '?' :: cs) :
    r.Tracks r.stepsOver.toNat (r.readQuestionMark cs) := by
  -- Where no operand is expected, the question mark is an operator and takes nothing along.
  by_cases hover : r.valueExpected = true ∧ ∃ rest, cs = '\\' :: '\n' :: rest
  · obtain ⟨hvalue, rest, rfl⟩ := hover
    have hreading : r.readQuestionMark ('\\' :: '\n' :: rest) = r.skipValue 3 := by
      have hlength : characterLength? ('\\' :: '\n' :: rest) = some 3 := rfl
      simp only [readQuestionMark, hlength, hvalue, if_true]
    rw [hreading, show r.stepsOver = true by simp [stepsOver, hr, hvalue]]
    exact Cursor.hop_tracks_newline (n := 3) ['?', '\\'] (by rw [hr]; rfl) (by decide)
  · have hnone : r.stepsOver = false := by
      unfold stepsOver
      split
      · next rest hrest => cases hr.symm.trans hrest
      · next rest hrest =>
        cases hr.symm.trans hrest
        exact Bool.eq_false_iff.mpr fun hvalue => hover ⟨hvalue, rest, rfl⟩
      · rfl
    have hoperator := skipOperator_tracks hr (by decide)
    rw [hnone]
    unfold readQuestionMark
    split
    · next n hn =>
      apply Tracks.ite
      · intro hvalue
        have hliteral := sameLine_characterLength? hn fun rest hcs => hover ⟨hvalue, rest, hcs⟩
        exact hop_tracks hr hliteral rfl _
      · intro _
        exact hoperator
    · exact hoperator

/-- Only the signs of globals and of character literals step over newlines. -/
private theorem readPunctuation_tracks (hr : r.rest = c :: cs) (hc : c ≠ '\n') :
    r.Tracks r.stepsOver.toNat (r.readPunctuation c cs) := by
  by_cases hdollar : c = '$'
  · subst hdollar
    exact readGlobal_tracks hr
  by_cases hquestion : c = '?'
  · subst hquestion
    exact readQuestionMark_tracks hr
  -- From here on nothing is stepped over, and each sign has its lemma.
  rw [stepsOver_eq_false hr hdollar hquestion]
  unfold readPunctuation
  apply Tracks.ite
  · intro _
    exact skipLiteral_tracks hr (sameLine_one hc) _
  intro _
  apply Tracks.ite
  · intro _
    exact hop_tracks hr (sameLine_numberLength _) rfl _
  intro _
  apply Tracks.ite
  · rintro rfl
    exact readColon_tracks hr
  intro _
  apply Tracks.ite
  · rintro rfl
    exact readVariable_tracks hr
  intro _
  apply Tracks.ite
  · exact fun h => absurd h hdollar
  intro _
  apply Tracks.ite
  · rintro rfl
    exact readPercent_tracks hr
  intro _
  apply Tracks.ite
  · rintro rfl
    exact readSlash_tracks hr
  intro _
  apply Tracks.ite
  · exact fun h => absurd h hquestion
  intro _
  apply Tracks.ite
  · rintro rfl
    exact readLessThan_tracks hr
  · intro _
    exact readSign_tracks hr hc

end Punctuation

/-! ## Words -/

section Words

variable {r : Reader}

/-- Where the name of a method stands whose definition starts here. -/
def nameCursor (r : Reader) : Cursor :=
  let head := r.toCursor.hop 3
  let spaces := spacesLength head.rest
  head.hop (spaces + receiverLength (head.rest.drop spaces))

/-- The way to the name is on the line of the keyword. -/
theorem nameCursor_tracks (h : SameLine 3 r.rest) : Cursor.Tracks 0 r.toCursor r.nameCursor := by
  refine (Cursor.hop_tracks h).trans (Cursor.hop_tracks ?_)
  exact (sameLine_spacesLength _).add (sameLine_receiverLength _)

/-- Opening the body of a method reads nothing. -/
theorem toCursor_openDefinition (r : Reader) (endless : Bool) :
    (r.openDefinition endless).toCursor = r.toCursor := by
  cases endless <;> rfl

/-- The head of a definition, with its receiver and its name, is on one line. -/
private theorem readDefinition_tracks (h : SameLine 3 r.rest) : r.Tracks 0 r.readDefinition := by
  have hname := nameCursor_tracks h
  unfold readDefinition
  extract_lets head spaces receiver there n construct opened keyword
  -- The body is opened where the name stands, before the name is read.
  have hopened : opened.toCursor = r.nameCursor := there.toCursor_openDefinition _
  have hn : SameLine n r.nameCursor.rest := sameLine_methodNameLength _
  clear_value opened keyword
  split
  · have hrest := Cursor.hop_tracks hn
    rw [← hopened] at hrest hname
    exact hname.trans hrest
  · rw [← hopened] at hname
    exact hname

/-- The keyword of a class is read alone: what comes next is only looked at. -/
private theorem readClass_tracks (h : SameLine 5 r.rest) : r.Tracks 0 r.readClass := by
  unfold readClass
  dsimp only
  split <;> exact hop_tracks rfl h rfl _

/-- An `end` steps over no newline. -/
private theorem readEnd_tracks (h : SameLine 3 r.rest) : r.Tracks 0 r.readEnd := by
  unfold readEnd
  dsimp only
  split <;> exact hop_tracks rfl h rfl _

/-- Opening a block reads nothing. -/
private theorem toCursor_openBlock (r : Reader) (word : String) :
    (r.openBlock word).toCursor = r.toCursor := by
  unfold openBlock
  dsimp only
  split <;> rfl

/-- A keyword that may open a block moves on only when it is read itself. -/
theorem toCursor_openBlockOf (r : Reader) (word : String) :
    (r.openBlockOf word).toCursor = r.toCursor := by
  unfold openBlockOf
  split
  · split
    · exact r.toCursor_openBlock word
    · rfl
  split
  · exact r.toCursor_openBlock word
  split
  · split <;> rfl
  · rfl

/-- Any other keyword is read alone, on its line. -/
private theorem readOtherKeyword_tracks {word : String} (h : SameLine word.length r.rest) :
    r.Tracks 0 (r.readOtherKeyword word) := by
  have hcursor := congrArg (Cursor.hop · word.length) (r.toCursor_openBlockOf word)
  unfold readOtherKeyword
  dsimp only
  split <;> exact hop_tracks rfl h hcursor _

/-- So every keyword counts the newlines that it goes over, of which there are none. -/
private theorem readKeyword_tracks {word : String} (h : SameLine word.length r.rest) :
    r.Tracks 0 (r.readKeyword word) := by
  unfold readKeyword
  apply Tracks.ite
  · rintro rfl
    exact readDefinition_tracks h
  intro _
  apply Tracks.ite
  · rintro rfl
    exact hop_tracks rfl h rfl _
  intro _
  apply Tracks.ite
  · rintro rfl
    exact readClass_tracks h
  intro _
  apply Tracks.ite
  · rintro rfl
    exact readEnd_tracks h
  · intro _
    exact readOtherKeyword_tracks h

/-- So does every word, with the path, the colon or the name that it takes along. -/
private theorem readWord_tracks (r : Reader) : r.Tracks 0 r.readWord := by
  have hword := sameLine_wordAt r.rest
  -- A constant goes on with its path, which is on the same line.
  have hpath := hword.add (sameLine_pathLength (r.rest.drop (wordAt r.rest).length))
  unfold readWord
  extract_lets word rest text
  apply Tracks.ite
  · intro _
    apply Tracks.ite
    · intro _
      refine hop_tracks rfl ?_ rfl _
      split
      · exact hpath
      · exact hword
    · intro _
      exact hop_tracks rfl hword rfl _
  intro _
  apply Tracks.ite
  · intro hlabel
    exact hop_tracks rfl (hword.add (sameLine_of_isLabelColon hlabel)) rfl _
  intro _
  apply Tracks.ite
  · intro _
    apply readKeyword_tracks
    rwa [String.length_ofList]
  intro _
  apply Tracks.ite
  · intro _
    exact hop_tracks rfl hpath rfl _
  · intro _
    exact hop_tracks rfl hword rfl _

end Words

/-! ## Any step -/

/-- The end of a line is counted, and so are the lines of the heredoc bodies after it. -/
private theorem readNewline_tracks (r : Reader) : r.Tracks 0 r.readNewline := by
  rw [Tracks, readNewline]
  dsimp only
  rw [show (markOperator _).toCursor = _ from toCursor_closeEndless _]
  exact r.nextLine_tracks.trans (skipBodies_tracks r.heredocs r.nextLine)

/-- Whatever stands next, only the newlines of `stepsOver` are not counted. -/
private theorem read_tracks {r : Reader} {c : Char} {cs : List Char} (hr : r.rest = c :: cs) :
    r.Tracks r.stepsOver.toNat (r.read c cs) := by
  by_cases hdollar : c = '$'
  · subst hdollar
    exact readPunctuation_tracks hr (by decide)
  by_cases hquestion : c = '?'
  · subst hquestion
    exact readPunctuation_tracks hr (by decide)
  -- The two signs that step over newlines are read as punctuation.  For all else none is stepped
  -- over.
  have hnone := stepsOver_eq_false hr hdollar hquestion
  unfold read
  apply Tracks.ite
  · intro _
    rw [hnone]
    exact r.readNewline_tracks
  intro hc
  have hone : SameLine 1 (c :: cs) := sameLine_one hc
  apply Tracks.ite
  · intro _
    rw [hnone]
    exact hop_tracks hr hone rfl _
  intro _
  apply Tracks.ite
  · intro _
    rw [hnone]
    exact (Cursor.hop_tracks (hr ▸ hone)).trans (r.toCursor.hop 1).nextLine_tracks
  intro _
  apply Tracks.ite
  · intro _
    rw [hnone]
    exact hop_tracks rfl (sameLine_takeWhile (by decide) r.rest) rfl _
  intro _
  apply Tracks.ite
  · intro _
    rw [hnone]
    exact r.readWord_tracks
  · intro _
    exact readPunctuation_tracks hr hc

/-- Every step goes on in the same text and counts all newlines on its way but those that it steps
    over. -/
theorem step?_tracks {r : Reader} {reading : Reading} (h : r.step? = some reading) :
    r.Tracks r.stepsOver.toNat reading := by
  unfold step? at h
  split at h
  · cases h
  next c cs hr =>
  split at h
  · cases h
  split at h
  · next hdocument =>
    obtain rfl := Option.some.inj h
    -- A document starts with an equals sign.
    have hc : c = '=' := by
      have hprefix := (Bool.and_eq_true_iff.mp hdocument.2).1
      obtain ⟨rest, hrest⟩ := List.isPrefixOf_iff_prefix.mp hprefix
      exact (List.cons.inj hrest).1.symm
    rw [stepsOver_eq_false hr (by rw [hc]; decide) (by rw [hc]; decide)]
    exact skipDocument_tracks r.toCursor
  · obtain rfl := Option.some.inj h
    exact read_tracks hr

end Reader

end ScopeTags.Source
