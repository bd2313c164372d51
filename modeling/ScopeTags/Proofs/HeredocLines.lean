import ScopeTags.Proofs.HeredocBodies
import ScopeTags.Proofs.LiteralGrammar

/-!
# Heredocs and the lines of a text

The bodies of waiting heredocs are passed over line by line.  Here the text is split into its lines
first.  The body of each heredoc then consists of the lines after those of the heredoc before it, up
to the first one that holds its terminator.  If there is no such line, everything to the end of the
text is its body, and nothing is left for the heredocs after it.

## Key results

- `Cursor.linesThrough_of_ended`, `Cursor.linesThrough_of_missing`: one body among the lines
- `skipBodies_of_ended`, `skipBodies_of_missing`: all bodies
- `ended_or_missing`: one of the two cases always applies
- `skipBodies_lines`: where bodies end, and what is reported of those that do not
-/

namespace ScopeTags.Source

/-! ## Lines -/

/-- The lines of a text, each with the newline at its end.  Only the last one may have none. -/
def linesOf : List Char → List (List Char)
  | [] => []
  | c :: cs =>
    if c = '\n' then [c] :: linesOf cs
    else
      match linesOf cs with
      | [] => [[c]]
      | line :: lines => (c :: line) :: lines

/-- Put together again, the lines are the text. -/
private theorem flatten_linesOf (cs : List Char) : (linesOf cs).flatten = cs := by
  -- By induction on the text; a character goes in front of the first line of what follows it.
  induction cs with
  | nil => rfl
  | cons c cs ih =>
    rw [linesOf]
    split
    · rw [List.flatten_cons, ih]
      rfl
    · split
      · next hnil =>
        rw [hnil] at ih
        rw [← ih]
        rfl
      · next line lines hlines =>
        rw [hlines] at ih
        rw [← ih]
        rfl

/-- The first line goes to the first newline, or to the end of the text if it has none. -/
private theorem first_linesOf {cs line : List Char} {lines : List (List Char)}
    (h : linesOf cs = line :: lines) :
    linesOf lines.flatten = lines ∧ ∃ x, '\n' ∉ x ∧
      (line = x ++ ['\n'] ∧ cs = x ++ '\n' :: lines.flatten ∨ line = x ∧ lines = [] ∧ cs = x) := by
  -- By induction on the text, character by character up to the first newline.
  induction cs generalizing line lines with
  | nil => cases h
  | cons c cs ih =>
    rw [linesOf] at h
    split at h
    · next hc =>
      obtain ⟨rfl, rfl⟩ := List.cons.inj h
      rw [flatten_linesOf]
      exact ⟨rfl, [], by simp, .inl ⟨by rw [hc]; rfl, by rw [hc]; rfl⟩⟩
    · next hc =>
      split at h
      · next hnil =>
        obtain ⟨rfl, rfl⟩ := List.cons.inj h
        have hcs := flatten_linesOf cs
        rw [hnil] at hcs
        exact ⟨rfl, [c], by simp [Ne.symm hc], .inr ⟨rfl, rfl, by rw [← hcs]; rfl⟩⟩
      · next line' lines' hlines =>
        -- The character goes in front of the first line of what comes after it.
        obtain ⟨rfl, rfl⟩ := List.cons.inj h
        obtain ⟨hlater, x, hx, hends⟩ := ih hlines
        refine ⟨hlater, c :: x, by simp [Ne.symm hc, hx], ?_⟩
        rcases hends with ⟨rfl, rfl⟩ | ⟨rfl, rfl, rfl⟩
        · exact .inl ⟨rfl, rfl⟩
        · exact .inr ⟨rfl, rfl, rfl⟩

/-- Without a newline, a text lies on one line. -/
private theorem Place.along_eq_through (p : Place) {cs : List Char} (h : '\n' ∉ cs) :
    p.along cs = p.through cs := by
  induction cs generalizing p with
  | nil => rfl
  | cons c cs ih =>
    obtain ⟨hc, hcs⟩ : '\n' ≠ c ∧ '\n' ∉ cs := by simpa using h
    rw [through_cons, ← ih _ hcs, past, if_neg (Ne.symm hc)]
    simp [along, Nat.add_assoc, Nat.add_comm 1]

namespace Cursor

variable {k : Cursor} {line : List Char} {lines : List (List Char)}

/-- The cursor after `cs`, where each newline ends a line and `rest` is left. -/
def past (k : Cursor) (cs rest : List Char) : Cursor := { toPlace := k.through cs, rest }

/-- The next line is the first one of the lines. -/
private theorem nextLine_of_linesOf (h : linesOf k.rest = line :: lines) :
    k.rest ≠ [] ∧ k.currentLine = firstLine line ∧ k.nextLine = k.past line lines.flatten := by
  obtain ⟨-, x, hx, hends⟩ := first_linesOf h
  have hpos : ∀ c ∈ x, decide (c ≠ '\n') = true := fun c hc =>
    decide_eq_true fun hn => hx (hn ▸ hc)
  rcases hends with ⟨rfl, hrest⟩ | ⟨rfl, rfl, hrest⟩
  · -- The newline that ends the line is passed over with it.
    have htake : ∀ rest, (x ++ '\n' :: rest).takeWhile (· ≠ '\n') = x := fun rest => by
      rw [List.takeWhile_append_of_pos hpos]
      simp
    have hdrop : (x ++ '\n' :: lines.flatten).dropWhile (· ≠ '\n') = '\n' :: lines.flatten := by
      rw [List.dropWhile_append_of_pos hpos]
      simp
    refine ⟨by simp [hrest], ?_, ?_⟩
    · rw [currentLine, firstLine, hrest, htake, htake]
    · rw [nextLine, hrest]
      simp only [htake, hdrop, past, Place.through_append, Place.along_eq_through _ hx]
      rfl
  · -- The last line has no newline, and nothing comes after it.
    have htake : line.takeWhile (· ≠ '\n') = line := List.takeWhile_eq_self_iff.mpr hpos
    have hdrop : line.dropWhile (· ≠ '\n') = [] := List.dropWhile_eq_nil_iff.mpr hpos
    have hne : line ≠ [] := by
      rintro rfl
      rw [hrest] at h
      cases h
    refine ⟨by rw [hrest]; exact hne, ?_, ?_⟩
    · rw [currentLine, firstLine, hrest]
    · rw [nextLine, hrest]
      simp only [htake, hdrop, past, Place.along_eq_through _ hx]
      rfl

/-- To go past two texts is to go past one after the other. -/
private theorem past_past (k : Cursor) (cs rest cs' rest' : List Char) :
    (k.past cs rest).past cs' rest' = k.past (cs ++ cs') rest' := by
  simp only [past, Place.through_append]

/-! ## One body -/

variable {ends : List Char → Bool}

/-- Lines that do not end the body, and then one that does. -/
theorem linesThrough_of_ended {body more : List (List Char)} {last : List Char}
    (h : linesOf k.rest = body ++ last :: more)
    (hbody : ∀ line ∈ body, ends (firstLine line) = false) (hlast : ends (firstLine last) = true) :
    k.linesThrough ends = (true, k.past (body ++ [last]).flatten more.flatten) := by
  -- By induction on the lines of the body, each of which the cursor passes in one round.
  induction body generalizing k with
  | nil =>
    obtain ⟨hne, hline, hnext⟩ := nextLine_of_linesOf h
    rw [linesThrough, dif_neg hne, hline, if_pos hlast, hnext]
    simp
  | cons line body ih =>
    obtain ⟨hne, hline, hnext⟩ := nextLine_of_linesOf h
    have hfirst := hbody line List.mem_cons_self
    have hlater := (first_linesOf h).1
    rw [linesThrough, dif_neg hne, hline, if_neg (by simp [hfirst]), hnext,
      ih hlater fun line' h' => hbody line' (List.mem_cons_of_mem _ h'), past_past]
    rfl

/-- No line ends the body. -/
theorem linesThrough_of_missing (h : ∀ line ∈ linesOf k.rest, ends (firstLine line) = false) :
    k.linesThrough ends = (false, k.past k.rest []) := by
  generalize hlines : linesOf k.rest = lines at h
  -- By induction on all lines that are left.
  induction lines generalizing k with
  | nil =>
    have hnil : k.rest = [] := by rw [← flatten_linesOf k.rest, hlines]; rfl
    have hsame : k.past k.rest [] = k := by rw [past, hnil]; exact congrArg _ hnil.symm
    rw [linesThrough, dif_pos hnil, hsame]
  | cons line lines ih =>
    obtain ⟨hne, hline, hnext⟩ := nextLine_of_linesOf hlines
    have hlater := (first_linesOf hlines).1
    have hfirst := h line List.mem_cons_self
    have hrest : k.rest = line ++ lines.flatten := by
      rw [← flatten_linesOf k.rest, hlines, List.flatten_cons]
    rw [linesThrough, dif_neg hne, hline, if_neg (by simp [hfirst]), hnext,
      ih hlater fun line' h' => h line' (List.mem_cons_of_mem _ h'), past_past, hrest]
    rfl

end Cursor

/-! ## All bodies -/

/-- The lines are the bodies of the heredocs, one after the other and each with the line that ends
    it, which is the first one that does. -/
inductive EndedBy : List Heredoc → List (List Char) → Prop where
  | nil : EndedBy [] []
  | cons {h : Heredoc} {heredocs : List Heredoc} {body more : List (List Char)} {last : List Char}
      (goes_on : ∀ line ∈ body, h.endsAt (firstLine line) = false)
      (ends : h.endsAt (firstLine last) = true) (later : EndedBy heredocs more) :
      EndedBy (h :: heredocs) (body ++ last :: more)

/-- The remark that a heredoc has no terminator. -/
def Heredoc.missing (h : Heredoc) (line : Nat) : Event :=
  .unterminated (.heredoc (String.ofList h.terminator)) line

/-- The last lines of a text are the lines of the text that they make up. -/
private theorem linesOf_flatten_of_append {cs : List Char} {lines more : List (List Char)}
    (h : linesOf cs = lines ++ more) : linesOf more.flatten = more := by
  induction lines generalizing cs with
  | nil =>
    rw [List.nil_append] at h
    rw [← h, flatten_linesOf]
  | cons line lines ih => exact ih (first_linesOf h).1

section Bodies

variable {heredocs : List Heredoc} {consumed left : List (List Char)} {k : Cursor}

/-- The bodies of the first heredocs come before those of the others. -/
private theorem skipBodies_append (heredocs more : List Heredoc) (k : Cursor) :
    skipBodies (heredocs ++ more) k =
      ((skipBodies more (skipBodies heredocs k).1).1,
        (skipBodies heredocs k).2 ++ (skipBodies more (skipBodies heredocs k).1).2) := by
  induction heredocs generalizing k with
  | nil => rfl
  | cons h heredocs ih =>
    simp only [List.cons_append, skipBodies, ih]
    split <;> rfl

/-- Where all heredocs end, nothing is reported. -/
theorem skipBodies_of_ended (hended : EndedBy heredocs consumed)
    (hlines : linesOf k.rest = consumed ++ left) :
    skipBodies heredocs k = (k.past consumed.flatten left.flatten, []) := by
  -- By induction on the bodies; the lines of the later ones are what the first one leaves.
  induction hended generalizing k with
  | nil =>
    have hrest : left.flatten = k.rest := by
      rw [← flatten_linesOf k.rest, hlines]
      rfl
    rw [skipBodies, hrest]
    rfl
  | @cons h heredocs body more last hbody hlast _ ih =>
    rw [List.append_assoc, List.cons_append] at hlines
    have hsplit : linesOf k.rest = (body ++ [last]) ++ (more ++ left) := by
      rw [hlines]
      simp
    have hlater := linesOf_flatten_of_append hsplit
    rw [skipBodies, Cursor.linesThrough_of_ended hlines hbody hlast]
    simp only [ih (k := k.past _ _) hlater, Cursor.past_past, if_true]
    simp

/-- At the end of the text nothing is left for any heredoc. -/
private theorem skipBodies_of_rest_eq_nil (heredocs : List Heredoc) (hrest : k.rest = []) :
    skipBodies heredocs k = (k, heredocs.map (·.missing k.line)) := by
  induction heredocs with
  | nil => rfl
  | cons h heredocs ih =>
    have hnone : k.linesThrough h.endsAt = (false, k) := by
      rw [Cursor.linesThrough, dif_pos hrest]
    rw [skipBodies, hnone]
    simp only [ih]
    rfl

/-- Where one does not end, it takes all of the text, and those after it are reported at the end. -/
theorem skipBodies_of_missing {h : Heredoc} (heredocs : List Heredoc)
    (hmissing : ∀ line ∈ linesOf k.rest, h.endsAt (firstLine line) = false) :
    skipBodies (h :: heredocs) k =
      (k.past k.rest [], h.missing k.line :: heredocs.map (·.missing (k.past k.rest []).line)) := by
  rw [skipBodies, Cursor.linesThrough_of_missing hmissing]
  simp only [skipBodies_of_rest_eq_nil heredocs (k := k.past k.rest []) rfl]
  rfl

/-- Among the lines of a text either all heredocs end, or there is a first one that does not. -/
theorem ended_or_missing (heredocs : List Heredoc) (lines : List (List Char)) :
    (∃ consumed left, lines = consumed ++ left ∧ EndedBy heredocs consumed) ∨
      ∃ done h later consumed left, heredocs = done ++ h :: later ∧ lines = consumed ++ left ∧
        EndedBy done consumed ∧ ∀ line ∈ left, h.endsAt (firstLine line) = false := by
  -- By induction on the heredocs, which share out the lines in their order.
  induction heredocs generalizing lines with
  | nil => exact .inl ⟨[], lines, rfl, .nil⟩
  | cons h heredocs ih =>
    by_cases hmissing : ∀ line ∈ lines, h.endsAt (firstLine line) = false
    · exact .inr ⟨[], h, heredocs, [], lines, rfl, rfl, .nil, hmissing⟩
    -- The first line that ends `h` cuts the lines in two; later heredocs get those after it.
    obtain ⟨body, last, more, rfl, hlast, hbody⟩ : ∃ body last more, lines = body ++ last :: more ∧
        h.endsAt (firstLine last) = true ∧ ∀ line ∈ body, h.endsAt (firstLine line) = false := by
      obtain ⟨last, hfind⟩ : ∃ last, lines.find? (h.endsAt <| firstLine ·) = some last := by
        rw [← Option.isSome_iff_exists, List.find?_isSome]
        simpa using hmissing
      obtain ⟨hlast, body, more, hsplit, hbody⟩ := List.find?_eq_some_iff_append.mp hfind
      exact ⟨body, last, more, hsplit, hlast, fun line hline => by simpa using hbody line hline⟩
    rcases ih more with ⟨consumed, left, rfl, hended⟩ |
      ⟨done, g, later, consumed, left, rfl, rfl, hended, hmissing⟩
    · exact .inl ⟨body ++ last :: consumed, left, by simp, .cons hbody hlast hended⟩
    · exact .inr ⟨h :: done, g, later, body ++ last :: consumed, left, rfl, by simp,
        .cons hbody hlast hended, hmissing⟩

end Bodies

/-! ## Transcripts -/

/-- The fault of a strict reading names the terminator. -/
private theorem Heredoc.fault?_missing (h : Heredoc) (line : Nat) (file : Option String) :
    (h.missing line).fault? true file =
      some (.lexical ("Unterminated heredoc " ++ String.ofList h.terminator)
        { line := some (line : Int), file }) := by
  have hlabel : "Unterminated " ++ (Unterminated.heredoc (String.ofList h.terminator)).label =
      "Unterminated heredoc " ++ String.ofList h.terminator := by
    rw [Unterminated.label, ← String.append_assoc]
    rfl
  rw [← hlabel]
  rfl

/-- Reports are the same in every file. -/
private theorem map_inFile_skipBodies (heredocs : List Heredoc) (k : Cursor)
    (file : Option String) :
    (skipBodies heredocs k).2.map (Event.inFile file) = (skipBodies heredocs k).2 := by
  refine List.map_congr_left (g := id) (fun event hevent => ?_) |>.trans (List.map_id _)
  obtain ⟨what, line, rfl⟩ := Event.exists_of_isReport (isReport_skipBodies heredocs k event hevent)
  rfl

/-- The reports on heredocs stand together among the events of a source, and there is none before
    them. -/
private theorem eventsIn_of_atNewline {source : String} {i : Nat} {r : Reader}
    (hvisit : (Reader.start source.toList).visits[i]? = some r) (hat : r.atNewline = true)
    (file : Option String) :
    ∃ before after, before.any Event.isReport = false ∧
      eventsIn file source = before ++ ((skipBodies r.heredocs r.nextLine).2 ++ after) := by
  obtain ⟨cs, hrest⟩ := List.head?_eq_some_iff.mp (of_decide_eq_true hat)
  obtain ⟨before, hevents, hsilent⟩ := Reader.exists_events_of_visits hvisit
  have hstep : r.step? = some (r.readNewline.1, r.readNewline.2) := Reader.step?_newline hrest
  -- At the end of a line the reports on heredocs come first, and implied ends after them.
  let ends : List Event :=
    { r.moveTo (skipBodies r.heredocs r.nextLine).1 with heredocs := [] }.closeEndless.1
  have hfound : r.events =
      (skipBodies r.heredocs r.nextLine).2 ++ (ends ++ r.readNewline.2.events) := by
    rw [Reader.events_of_step? hstep, ← List.append_assoc]
    rfl
  refine ⟨before.map (Event.inFile file), (ends ++ r.readNewline.2.events).map (Event.inFile file),
    ?_, ?_⟩
  · rw [eventsIn_any_isReport]
    exact hsilent (by simp [hrest])
  · rw [eventsIn, events, hevents, hfound, List.map_append, List.map_append, map_inFile_skipBodies]

/-- The bodies of the heredocs `heredocs` from the start of a line on.  If the lines `consumed` are
    the bodies, each up to the first line that ends it, exactly these lines are passed over, the
    line number grows by the number of their newlines, and nothing is reported.  If one of the
    heredocs is the first that no line ends, everything to the end of the text is passed over; that
    heredoc is reported with the line where its body starts, for which a strict reading stops, and
    after it all others that are left.  One of the two is the case.  In a source this happens where
    the main loop reads the end of a line: no heredoc waits from there on, and the first report is
    the fault of the strict transcript, while the lenient one has notices of all of them. -/
theorem skipBodies_lines (heredocs : List Heredoc) (k : Cursor) (file : Option String) :
    let lines := linesOf k.rest
    let skipped : Cursor × List Event := skipBodies heredocs k
    (∀ consumed left, lines = consumed ++ left → EndedBy heredocs consumed →
      skipped = (k.past consumed.flatten left.flatten, []) ∧
        skipped.1.line = k.line + consumed.flatten.count '\n') ∧
    (∀ done h later consumed left, heredocs = done ++ h :: later → lines = consumed ++ left →
      EndedBy done consumed → (∀ line ∈ left, h.endsAt (firstLine line) = false) →
      skipped.1 = k.past k.rest [] ∧ skipped.1.line = k.line + k.rest.count '\n' ∧
        skipped.2 = h.missing (k.line + consumed.flatten.count '\n') ::
          later.map (·.missing (k.line + k.rest.count '\n')) ∧
        skipped.2.findSome? (Event.fault? true file) =
          some (.lexical ("Unterminated heredoc " ++ String.ofList h.terminator)
            { line := some ((k.line + consumed.flatten.count '\n' : Nat) : Int), file }) ∧
        skipped.2.findSome? (Event.fault? false file) = none) ∧
    ((∃ consumed left, lines = consumed ++ left ∧ EndedBy heredocs consumed) ∨
      ∃ done h later consumed left, heredocs = done ++ h :: later ∧ lines = consumed ++ left ∧
        EndedBy done consumed ∧ ∀ line ∈ left, h.endsAt (firstLine line) = false) ∧
    ∀ (source : String) (i : Nat) (r : Reader),
      (Reader.start source.toList).visits[i]? = some r → r.atNewline = true → r.nextLine = k →
      r.heredocs = heredocs →
      r.step? = some r.readNewline ∧ r.readNewline.2.toCursor = skipped.1 ∧
        r.readNewline.2.heredocs = [] ∧
        (∀ fault, skipped.2.findSome? (Event.fault? true file) = some fault →
          (transcribe true file source).fault = some fault) ∧
        skipped.2.filterMap (Event.notice? file) <:+: (transcribe false file source).notices := by
  intro lines skipped
  -- What is left: bodies that all end, one that does not, and the reader in a source.
  refine ⟨fun consumed left hlines hended => ?_,
    fun done h later consumed left hheredocs hlines hended hmissing => ?_,
    ended_or_missing heredocs lines, fun source i r hvisit hat hnext hheredocs => ?_⟩
  · have hskipped : skipped = _ := skipBodies_of_ended hended hlines
    exact ⟨hskipped, by rw [hskipped]; exact k.line_through _⟩
  · -- The heredocs before `h` end, and `h` gets the lines that are left.
    have hthere : ∀ line ∈ linesOf (k.past consumed.flatten left.flatten).rest,
        h.endsAt (firstLine line) = false := by
      rwa [show linesOf (k.past _ left.flatten).rest = left from linesOf_flatten_of_append hlines]
    have hrest : k.rest = consumed.flatten ++ left.flatten := by
      rw [← List.flatten_append, ← hlines]
      exact (flatten_linesOf k.rest).symm
    have hskipped : skipped = (k.past k.rest [],
        h.missing (k.line + consumed.flatten.count '\n') ::
          later.map (·.missing (k.line + k.rest.count '\n'))) := by
      simp only [skipped, hheredocs, skipBodies_append, skipBodies_of_ended hended hlines]
      rw [skipBodies_of_missing later hthere, Cursor.past_past, hrest]
      simp only [Cursor.past, Place.line_through]
      rfl
    rw [hskipped]
    refine ⟨rfl, k.line_through _, rfl, ?_, ?_⟩
    · rw [List.findSome?_cons, h.fault?_missing]
    · exact List.findSome?_eq_none_iff.mpr fun event _ => event.fault?_lenient file
  · subst hnext hheredocs
    obtain ⟨cs, hrest⟩ := List.head?_eq_some_iff.mp (of_decide_eq_true hat)
    obtain ⟨before, after, hsilent, hevents⟩ := eventsIn_of_atNewline hvisit hat file
    refine ⟨Reader.step?_newline hrest, Reader.toCursor_closeEndless _,
      Reader.heredocs_closeEndless _, fun fault hfault => ?_, ?_⟩
    · -- Nothing is reported before, so a strict reading has come this far.
      rw [transcribe]
      dsimp only
      rw [hevents, List.findSome?_append,
        List.findSome?_eq_none_iff.mpr (fault?_of_silent file hsilent), List.findSome?_append,
        hfault]
      rfl
    · rw [transcribe_lenient]
      dsimp only
      rw [hevents, List.filterMap_append, List.filterMap_append]
      exact ⟨_, _, List.append_assoc _ _ _⟩

/-- Two bodies that end, the first at a line with a carriage return and the second at an indented
    one; a heredoc between others whose terminator never comes; and one that is announced in a
    source that ends with its body. -/
theorem skipBodies_lines_three :
    let k : Cursor := { line := 2, rest := "x\nA\r\n\tB \nC".toList }
    let a : Heredoc := ⟨['A'], false⟩
    let b : Heredoc := ⟨['B'], true⟩
    let d : Heredoc := ⟨['D'], false⟩
    skipBodies [a, b] k = (k.past "x\nA\r\n\tB \n".toList ['C'], []) ∧
      (skipBodies [a, d, b] k).1.rest = [] ∧
      (skipBodies [a, d, b] k).2 = [d.missing 4, b.missing 5] ∧
      (transcribe true none "f(<<A)\nb\n").fault =
        some (.lexical "Unterminated heredoc A" { line := some 2 }) := by
  intro k a b d
  have hbody : ∀ line ∈ ["x\n".toList], a.endsAt (firstLine line) = false := by decide
  have hfirst : EndedBy [a] (["x\n".toList] ++ "A\r\n".toList :: []) := .cons hbody (by decide) .nil
  have hboth : EndedBy [a, b] (["x\n".toList] ++ "A\r\n".toList :: ([] ++ "\tB \n".toList :: [])) :=
    .cons hbody (by decide) (.cons (List.forall_mem_nil _) (by decide) .nil)
  obtain ⟨hended, -⟩ := skipBodies_lines [a, b] k none
  obtain ⟨-, hmissing, -⟩ := skipBodies_lines [a, d, b] k none
  obtain ⟨hlast, -, hreports, -⟩ := hmissing [a] d [b] _ ["\tB \n".toList, ['C']] rfl (by decide)
    hfirst (by decide)
  refine ⟨(hended _ [['C']] (by decide) hboth).1, ?_, hreports, ?_⟩
  · rw [hlast]
    rfl
  · have hvisit : (Reader.start "f(<<A)\nb\n".toList).visits[4]?.any (fun r =>
        r.atNewline ∧ r.heredocs = [a] ∧ r.nextLine = ⟨⟨"\n)A<<(f".toList, 2, 0⟩, "b\n".toList⟩) =
          true := by
      decide +kernel
    obtain ⟨r, hr, hthere⟩ := (Option.any_eq_true _ _).mp hvisit
    obtain ⟨hat, hheredocs, hnext⟩ := of_decide_eq_true hthere
    obtain ⟨-, hopen, -, hsource⟩ := skipBodies_lines [a] r.nextLine none
    obtain ⟨-, -, -, hfault, -⟩ := hopen [] a [] [] ["b\n".toList] rfl (by rw [hnext]; decide) .nil
      (by decide)
    obtain ⟨-, -, -, hstrict, -⟩ := hsource _ 4 r hr hat rfl hheredocs
    rw [hstrict _ hfault, hnext]
    rfl

end ScopeTags.Source
