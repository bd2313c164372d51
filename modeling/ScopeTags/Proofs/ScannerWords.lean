import ScopeTags.Proofs.ScannerLiterals
import ScopeTags.Proofs.TokenForm

/-!
# Words by index

A scanner finds the end of a word, of a constant path or of a method's name by loops and by looking
at single characters.  What it finds is what the reader measures on the text that is left, and the
end lies within the text.

## Key results

- `markEnd_run`, `pathEnd_run`, `methodNameEnd_run`, `isEndlessAt_run`: where words end
- `scanKeyword_performs`: keywords open and close the same blocks
- `scanWord_performs`: words
-/

namespace ScopeTags.Source

/-! ## Lengths stay within the text -/

/-- A path ends within the text. -/
private theorem pathLength_le (cs : List Char) : pathLength cs ≤ cs.length := by
  fun_induction pathLength cs with
  | case1 c rest hc n ih =>
    have hn : n ≤ (c :: rest).length := wordLength_le _
    rw [List.length_drop] at ih
    simp only [List.length_cons] at hn ih ⊢
    omega
  | case2 c rest hc => exact Nat.zero_le _
  | case3 cs hcs => exact Nat.zero_le _

/-- An operator ends within the text. -/
theorem operatorLength_le (cs : List Char) : operatorLength cs ≤ cs.length := by
  rw [operatorLength]
  split
  · next name hname =>
    have hprefix : name.toList <+: cs := by simpa using List.find?_some hname
    rw [← String.length_toList]
    exact hprefix.length_le
  · exact Nat.zero_le _

/-- A receiver ends within the text, with its dot. -/
private theorem receiverLength_le (cs : List Char) : receiverLength cs ≤ cs.length := by
  rw [receiverLength]
  split
  · next hself => exact (List.isPrefixOf_iff_prefix.mp hself).length_le
  · have := wordLength_le cs
    split
    · dsimp only
      split
      · next rest hrest =>
        have hlength := congrArg List.length hrest
        rw [List.length_drop, List.length_cons] at hlength
        split <;> omega
      · exact Nat.zero_le _
    · exact Nat.zero_le _

/-- The name of a method ends within the text, with its mark. -/
private theorem methodNameLength_le (cs : List Char) : methodNameLength cs ≤ cs.length := by
  rw [methodNameLength]
  split
  · have hword := wordLength_le cs
    -- Where a mark is counted, there is a character for it behind the word.
    have hmark {c : Char} {rest : List Char} (hrest : cs.drop (wordLength cs) = c :: rest) :
        wordLength cs + 1 ≤ cs.length := by
      have hlength := congrArg List.length hrest
      rw [List.length_drop, List.length_cons] at hlength
      omega
    dsimp only
    split
    · next hrest => exact hmark hrest
    · next hrest => exact hmark hrest
    · next hrest => exact hmark hrest
    · exact hword
  · exact operatorLength_le cs

/-- A label has one colon and not two. -/
private theorem isLabelColon_iff (cs : List Char) :
    isLabelColon cs = true ↔ cs[0]? = some ':' ∧ ¬cs[1]? = some ':' := by
  rcases cs with _ | ⟨c, _ | ⟨d, cs⟩⟩
  · simp [isLabelColon]
  · by_cases hc : c = ':' <;> simp [isLabelColon, hc]
  · by_cases hc : c = ':' <;> by_cases hd : d = ':' <;> simp [isLabelColon, hc, hd]

namespace Scanner

/-- Whether a colon makes a label, asked at a position. -/
private theorem isLabelColon_drop (s : Scanner) (i : Nat) :
    isLabelColon (s.source.drop i) = true
      ↔ s.startsAt [':'] i = true ∧ ¬s.startsAt [':', ':'] i = true := by
  rw [startsAt_singleton, startsAt_pair, isLabelColon_iff, List.getElem?_drop, List.getElem?_drop]
  exact and_congr_right fun hc => (not_congr (and_iff_right hc)).symm

/-- After a run of characters comes what the run does not reach. -/
private theorem drop_takeWhile (s : Scanner) (p : Char → Bool) (i : Nat) :
    s.source.drop (i + ((s.source.drop i).takeWhile p).length) = (s.source.drop i).dropWhile p :=
  calc s.source.drop (i + ((s.source.drop i).takeWhile p).length)
      = ((s.source.drop i).takeWhile p ++ (s.source.drop i).dropWhile p).drop
          ((s.source.drop i).takeWhile p).length := by
        rw [List.takeWhile_append_dropWhile, List.drop_drop]
    _ = (s.source.drop i).dropWhile p := List.drop_left

end Scanner

namespace Scanning

open Source.Scanner

variable {s : Scanner} {i : Nat} {c : Char}

/-! ## Where words end -/

/-- A word is taken with the mark after it, or without. -/
theorem markEnd_run (hc : s.source[i]? = some c) :
    markEnd i (i + wordLength (s.source.drop i)) s
      = some (.ok (i + (wordAt (s.source.drop i)).length), s) := by
  have hupper : startsUppercase (s.source.drop i) = Text.isUppercase c := by
    rw [drop_eq_cons hc]
    rfl
  rw [markEnd, bind_run, get_run, andThen_ok, ite_run, wordAt, List.drop_drop, hupper, wordLength]
  -- The character behind the word is asked for only where there is one.
  cases hd : s.source[i + ((s.source.drop i).takeWhile isWordChar).length]? with
  | none =>
    have hend := List.getElem?_eq_none_iff.mp hd
    rw [if_neg (Nat.not_lt_of_ge hend), List.drop_eq_nil_of_le hend]
    rfl
  | some d =>
    have hlt := (List.getElem?_eq_some_iff.mp hd).1
    rw [if_pos hlt, bind_run, charAt_run hd, andThen_ok, ite_run, drop_eq_cons hd]
    simp only [bind_run, charAt_run hc, andThen_ok, ite_run, pure_run, startsAt_singleton,
      List.head?_drop]
    split_ifs <;> grind

/-- A path is followed to its end with a bound on the rounds. -/
private theorem pathEndFor_run {fuel i : Nat} (hfuel : s.source.length - i < fuel) :
    pathEndFor fuel i s = some (.ok (i + pathLength (s.source.drop i)), s) := by
  -- By induction on the rounds, one for each segment.
  induction fuel generalizing i with
  | zero => omega
  | succ fuel ih =>
    rw [pathEndFor, bind_run, get_run, andThen_ok, ite_run]
    split
    · next hsegment =>
      obtain ⟨hcolons, hupper⟩ := hsegment
      obtain ⟨h₀, h₁⟩ := startsAt_pair.mp hcolons
      obtain ⟨c, h₂, hc⟩ := (Option.any_eq_true _ _).mp hupper
      have hlt : i + 2 < s.source.length := (List.getElem?_eq_some_iff.mp h₂).1
      rw [bind_run, scanWhile_run, andThen_ok, ih (by omega), drop_eq_cons h₀,
        drop_eq_cons h₁, drop_eq_cons h₂, pathLength, if_pos hc, ← drop_eq_cons h₂]
      simp only [wordLength, List.drop_drop, Nat.add_assoc]
    · next hsegment =>
      -- Where no segment follows, the path has come to its end.
      have hzero : pathLength (s.source.drop i) = 0 := by
        rw [pathLength.eq_def]
        split
        · next c rest hdrop =>
          have hget (j : Nat) : s.source[i + j]? = (':' :: ':' :: c :: rest)[j]? := by
            rw [← hdrop, List.getElem?_drop]
          have hc : ¬Text.isUppercase c = true := fun hc =>
            hsegment ⟨startsAt_pair.mpr ⟨hget 0, hget 1⟩, by rw [hget 2]; exact hc⟩
          rw [if_neg hc]
        · rfl
      rw [hzero]
      rfl

/-- A constant path is followed to its end. -/
theorem pathEnd_run (i : Nat) (s : Scanner) :
    pathEnd i s = some (.ok (i + pathLength (s.source.drop i)), s) :=
  pathEndFor_run (Nat.lt_succ_of_le (Nat.sub_le _ _))

/-- The operators are tried in the same order. -/
theorem operatorAt_run (i : Nat) (s : Scanner) :
    operatorAt i s = some (.ok (operatorLength (s.source.drop i)), s) := by
  rw [operatorAt, bind_run, get_run, andThen_ok, operatorLength]
  simp only [startsAt]
  cases operatorNames.find? fun name => name.toList.isPrefixOf (s.source.drop i) <;> rfl

/-- The receiver of a definition ends with its dot. -/
private theorem receiverEnd?_run (i : Nat) (s : Scanner) :
    receiverEnd? i s = some (.ok (if 0 < receiverLength (s.source.drop i)
      then some (i + receiverLength (s.source.drop i)) else none), s) := by
  rw [receiverEnd?, bind_run, get_run, andThen_ok, ite_run, receiverLength, startsAt]
  -- The receiver is `self`, or a word that is followed by one dot and not by two.
  split
  · rfl
  · simp only [ite_run, bind_run, pure_run]
    cases hc : s.source[i]? with
    | none =>
      have hend := List.getElem?_eq_none_iff.mp hc
      rw [if_neg (Nat.not_lt_of_ge hend), List.drop_eq_nil_of_le hend]
      rfl
    | some c =>
      have hlt := (List.getElem?_eq_some_iff.mp hc).1
      rw [if_pos hlt, charAt_run hc, andThen_ok, List.head?_drop, hc, Option.any_some, ite_run]
      split
      · simp only [bind_run, scanWhile_run, andThen_ok, ite_run, pure_run, startsAt_singleton,
          startsAt_pair, List.drop_drop, wordLength]
        cases hd : s.source[i + ((s.source.drop i).takeWhile isWordChar).length]? with
        | none =>
          rw [List.drop_eq_nil_of_le (List.getElem?_eq_none_iff.mp hd)]
          rfl
        | some d =>
          rw [drop_eq_cons hd]
          by_cases hdot : d = '.'
          · subst hdot
            simp only [List.head?_drop, true_and]
            split_ifs <;> grind
          · simp [hdot]
      · rfl

/-- A name that starts like a word. -/
private theorem wordNameEnd_run {c : Char} (hc : s.source[i]? = some c) (hword : isWordStart c) :
    wordNameEnd i s = some (.ok (i + methodNameLength (s.source.drop i)), s) := by
  have hhead : (s.source.drop i).head?.any isWordStart = true := by
    rw [List.head?_drop, hc]
    exact hword
  rw [wordNameEnd, methodNameLength, if_pos hhead]
  simp only [bind_run, get_run, andThen_ok, scanWhile_run, ite_run, pure_run, startsAt_singleton,
    wordLength, List.drop_drop]
  cases hd : s.source[i + ((s.source.drop i).takeWhile isWordChar).length]? with
  | none =>
    rw [List.drop_eq_nil_of_le (List.getElem?_eq_none_iff.mp hd)]
    rfl
  | some d =>
    rw [drop_eq_cons hd]
    -- A question or exclamation mark, the equals sign of a setter, or nothing of these.
    split_ifs with hmark hsetter
    · rcases hmark with hmark | hmark <;> cases hmark <;> rfl
    · obtain ⟨hmark, hopen⟩ := hsetter
      cases hmark
      rw [drop_eq_cons hopen]
      rfl
    · rw [← List.head?_drop] at hsetter
      split <;> grind

/-- The name of a method is a word or an operator. -/
theorem methodNameEnd_run (i : Nat) (s : Scanner) :
    methodNameEnd i s = some (.ok (i + methodNameLength (s.source.drop i)), s) := by
  -- At the end of the text, too, an operator is looked for.
  have hoperator (hhead : ¬(s.source.drop i).head?.any isWordStart = true) :
      (operatorAt i >>= fun n => pure (i + n)) s
        = some (.ok (i + methodNameLength (s.source.drop i)), s) := by
    rw [bind_run, operatorAt_run, andThen_ok, pure_run, methodNameLength, if_neg hhead]
  rw [methodNameEnd, bind_run, get_run, andThen_ok, ite_run]
  rw [List.head?_drop] at hoperator
  cases hc : s.source[i]? with
  | none =>
    rw [if_neg (Nat.not_lt_of_ge (List.getElem?_eq_none_iff.mp hc))]
    exact hoperator (by simp [hc])
  | some c =>
    rw [if_pos (List.getElem?_eq_some_iff.mp hc).1, bind_run, charAt_run hc, andThen_ok, ite_run]
    split
    · next hword => exact wordNameEnd_run hc hword
    · next hword => exact hoperator (by simp [hc, hword])

/-- Parentheses that are open are followed to where the outermost one is closed. -/
private theorem parenthesesEndFor_run {fuel depth i : Nat} (hdepth : 0 < depth)
    (hfuel : s.source.length - i < fuel) :
    ∃ j, parenthesesEndFor fuel depth i s = some (.ok j, s)
      ∧ s.source.drop j = dropParentheses depth (s.source.drop i) := by
  -- By induction on the rounds, one for each character.
  induction fuel generalizing i depth with
  | zero => omega
  | succ fuel ih =>
    rw [parenthesesEndFor, bind_run, get_run, andThen_ok, ite_run]
    by_cases hi : i < s.source.length
    · have hc := List.getElem?_eq_getElem hi
      rw [if_pos hi, bind_run, charAt_run hc, andThen_ok, drop_eq_cons hc, dropParentheses]
      split_ifs with hopen hclose hlast houter houter
      · exact ih (Nat.succ_pos depth) (by omega)
      · exact ⟨i + 1, rfl, rfl⟩
      · omega
      · omega
      · -- The scanner counts in integers, but does not get below zero here.
        have hless : (depth : Int) - 1 = ((depth - 1 : Nat) : Int) := by omega
        rw [hless]
        exact ih (by omega) (by omega)
      · exact ih hdepth (by omega)
    · have hend : s.source.length ≤ i := Nat.le_of_not_lt hi
      rw [if_neg hi, List.drop_eq_nil_of_le hend]
      exact ⟨i, rfl, List.drop_eq_nil_of_le hend⟩

/-- The parameters of a definition are passed over. -/
private theorem parametersEnd_run (i : Nat) (s : Scanner) :
    ∃ j, parametersEnd i s = some (.ok j, s)
      ∧ s.source.drop j = dropParameters (s.source.drop i) := by
  rw [parametersEnd, bind_run, get_run, andThen_ok, bind_run, scanWhile_run, andThen_ok, ite_run,
    dropParameters, ← drop_takeWhile]
  let first := i + ((s.source.drop i).takeWhile isSpace).length
  split
  · next hopen =>
    have hc : s.source[first]? = some '(' := startsAt_singleton.mp hopen
    have hlt : first < s.source.length := (List.getElem?_eq_some_iff.mp hc).1
    -- The first round reads the parenthesis that opens, so the others start at depth one.
    have hfirst : parenthesesEnd first s
        = parenthesesEndFor s.source.length (1 : Nat) (first + 1) s := by
      rw [parenthesesEnd, loop_run, parenthesesEndFor, bind_run, get_run, andThen_ok, ite_run,
        if_pos hlt, bind_run, charAt_run hc, andThen_ok]
      rfl
    obtain ⟨j, hrun, hdrop⟩ := parenthesesEndFor_run Nat.one_pos
      (show s.source.length - (first + 1) < s.source.length by omega)
    rw [bind_run, hfirst, hrun, andThen_ok, scanWhile_run,
      show s.source.drop first = _ from drop_eq_cons hc]
    refine ⟨_, rfl, ?_⟩
    rw [drop_takeWhile, hdrop]
    rfl
  · next hopen =>
    refine ⟨first, rfl, ?_⟩
    -- Without a parenthesis there are no parameters to pass over.
    cases hc : s.source[first]? with
    | none =>
      rw [show s.source.drop first = [] from
        List.drop_eq_nil_of_le (List.getElem?_eq_none_iff.mp hc)]
    | some c =>
      rw [show s.source.drop first = _ from drop_eq_cons hc]
      split
      · next heq =>
        cases heq
        exact absurd (startsAt_singleton.mpr hc) hopen
      · rfl

/-- A definition is endless if an equals sign follows that is not part of an operator. -/
theorem isEndlessAt_run (i : Nat) (s : Scanner) :
    isEndlessAt i s = some (.ok (isEndless (s.source.drop i)), s) := by
  -- From where the parameters end, both look at the next character and the one after it.
  obtain ⟨j, hrun, hdrop⟩ := parametersEnd_run i s
  rw [isEndlessAt, bind_run, get_run, andThen_ok, bind_run, hrun, andThen_ok, isEndless, ← hdrop,
    pure_run]
  cases hc : s.source[j]? with
  | none =>
    simp [List.drop_eq_nil_of_le (List.getElem?_eq_none_iff.mp hc), startsAt_singleton, hc]
  | some c =>
    rw [drop_eq_cons hc]
    split
    · next heq =>
      cases heq
      simp [startsAt_singleton, hc]
    · next hne =>
      have hc' : c ≠ '=' := by
        rintro rfl
        exact hne _ rfl
      simp [startsAt_singleton, hc, hc']

/-! ## Definitions -/

/-- A keyword is brought up with the location where it started. -/
private theorem emitKeyword_run (word : String) (i : Nat) (keywordClass : KeywordClass)
    (construct : Option Construct) (s : Scanner) :
    emitKeyword word i keywordClass construct s = some (.ok (), { s with emitted := s.emitted ++
      [.token (Token.keyword word (some keywordClass) construct (s.locationOf i))] }) := rfl

/-- The keyword at the position is the one that the reader brings up. -/
private theorem keywordHere_inFile (h : s.Sound) (hpos : s.pos ≤ s.source.length) (word : String)
    (keywordClass : KeywordClass) (construct : Option Construct) :
    (s.view.keywordHere word keywordClass construct).inFile s.file
      = .token (Token.keyword word (some keywordClass) construct (s.locationOf s.pos)) := by
  rw [locationOf_eq h hpos]
  rfl

/-- Only a definition with a name can be endless. -/
private theorem endlessAfter_run (i n : Nat) (s : Scanner) :
    endlessAfter i (i + n) s
      = some (.ok (decide (0 < n ∧ isEndless (s.source.drop (i + n)))), s) := by
  rw [endlessAfter, ite_run, isEndlessAt_run, pure_run]
  by_cases hn : 0 < n <;> simp [hn]

/-- A definition opens a block or, if it is endless, is put with the endless ones. -/
private theorem openDefinition_run (endless : Bool) (s : Scanner) :
    ∃ blocks opened, openDefinition endless s
        = some (.ok (), { s with blocks, endless := opened })
      ∧ ∀ i, { s with blocks, endless := opened, pos := i }.view
        = { s with pos := i }.view.openDefinition endless := by
  cases endless with
  | true => exact ⟨s.blocks, s.depth :: s.endless, rfl, fun _ => rfl⟩
  | false => exact ⟨.construct :: s.blocks, s.endless, rfl, fun _ => rfl⟩

/-- What the reader does with the name of a method at `i`, which has `n` characters. -/
def nameReading (s : Scanner) (i n : Nat) : Reading :=
  if 0 < n then
    ([.token (Token.identifier (String.ofList ((s.source.drop i).take n)) (s.cursorAt i).location)],
      ({ s with pos := i }.view.hop n).markValue)
  else ([], { s with pos := i }.view.markOperator)

/-- The name of a method is taken, if there is one. -/
private theorem takeName_performs {n : Nat} (h : s.SoundAt i) (hi : i + n ≤ s.source.length) :
    Performs s (nameReading s i n) () (takeName i (i + n) s) := by
  rw [nameReading, takeName, bind_run, get_run, andThen_ok, ite_run]
  by_cases hn : 0 < n
  · have hsound : s.SoundAt (i + n) := h.of_le (Nat.le_add_right i n) (Nat.le_succ_of_le hi)
    have hview : { s with pos := i + n }.view = { s with pos := i }.view.hop n :=
      view_goTo (s := { s with pos := i }) h n
    rw [if_pos hn, if_pos (Nat.lt_add_of_pos_right hn), bind_run, emit_run, andThen_ok, bind_run,
      goTo_run, andThen_ok, locationOf_eq h (Nat.le_of_add_right_le hi), slice_add, ← hview]
    exact .done rfl ⟨rfl, rfl, rfl, rfl, rfl⟩ hsound rfl
  · rw [if_neg hn, if_neg (by omega), bind_run, goTo_run, andThen_ok]
    exact .done rfl (follows_nil rfl rfl rfl rfl rfl) h rfl

/-- A method of the class is defined in a singleton class or with a receiver. -/
theorem construct_eq (s : Scanner) (receiver name : Nat) :
    (if s.blocks.find? (· ≠ .plain) = some .singletonClass
        ∨ (if 0 < receiver then some name else none).isSome
      then Construct.method else .instanceMethod)
      = if s.view.inSingletonClass ∨ 0 < receiver then .method else .instanceMethod := by
  by_cases hzero : 0 < receiver <;> simp [Reader.inSingletonClass, view, hzero]

/-- A method definition is read from its keyword to its name. -/
private theorem scanDefinition_performs (h : s.Sound) (hpos : s.pos + 3 ≤ s.source.length) :
    Performs s s.view.readDefinition () (scanDefinition s.pos { s with pos := s.pos + 3 }) := by
  let head : Scanner := { s with pos := s.pos + 3 }
  let spaces := spacesLength (s.source.drop (s.pos + 3))
  let first := s.pos + 3 + spaces
  let receiver := receiverLength (s.source.drop first)
  let name := first + receiver
  let n := methodNameLength (s.source.drop name)
  let endless : Bool := 0 < n ∧ isEndless (s.source.drop (name + n))
  let construct : Construct :=
    if s.view.inSingletonClass ∨ 0 < receiver then .method else .instanceMethod
  -- What is found ahead of the position.
  have hfirst : scanWhile isSpace head.pos head = some (.ok first, head) := scanWhile_run _ _ _
  have hreceiver : receiverEnd? first head
      = some (.ok (if 0 < receiver then some name else none), head) := receiverEnd?_run _ _
  have hname : (if 0 < receiver then some name else none).getD first = name := by
    by_cases hzero : 0 < receiver
    · rw [if_pos hzero, Option.getD_some]
    · rw [if_neg hzero, Option.getD_none]
      show first = first + receiver
      omega
  have hlast : methodNameEnd name head = some (.ok (name + n), head) := methodNameEnd_run _ _
  have hendless : endlessAfter name (name + n) head = some (.ok endless, head) :=
    endlessAfter_run _ _ _
  obtain ⟨blocks, opened, hopen, hview⟩ := openDefinition_run endless head
  -- What is brought up and where the reader is then.
  let next : Scanner := { head with
    blocks, endless := opened, emitted := s.emitted ++
      [.token (Token.keyword "def" (some .newScope) (some construct) (s.locationOf s.pos))] }
  have hrun : scanDefinition s.pos head = takeName name (name + n) next := by
    rw [scanDefinition, bind_run, get_run, andThen_ok, bind_run, hfirst, andThen_ok, bind_run,
      hreceiver, andThen_ok, bind_run, hname, hlast, andThen_ok, bind_run, hendless, andThen_ok,
      bind_run, hopen, andThen_ok, bind_run, emitKeyword_run, andThen_ok]
    rw [construct_eq]
    rfl
  have hsound : head.Sound := h.of_le (Nat.le_add_right _ 3) (Nat.le_succ_of_le hpos)
  have hhead : s.view.hop 3 = head.view := (view_goTo h 3).symm
  have hthere : head.view.hop (spaces + receiver) = { head with pos := name }.view := by
    rw [← view_goTo hsound, show name = head.pos + (spaces + receiver) from Nat.add_assoc _ _ _]
  have hrest : head.view.rest.drop spaces = s.source.drop first := List.drop_drop
  have hrest' : { head with pos := name }.view.rest.drop n = s.source.drop (name + n) :=
    List.drop_drop
  have hopened : { head with pos := name }.view.openDefinition
      (0 < n ∧ isEndless (s.source.drop (name + n))) = { next with pos := name }.view :=
    (hview name).symm
  have hreading : s.view.readDefinition
      = ([s.view.keywordHere "def" .newScope (some construct)] ++ (nameReading next name n).1,
        (nameReading next name n).2) := by
    rw [Reader.readDefinition, hhead]
    simp only [show spacesLength head.view.rest = spaces from rfl, hrest,
      show receiverLength (s.source.drop first) = receiver from rfl, hthere,
      show methodNameLength { head with pos := name }.view.rest = n from rfl, hrest', hopened,
      nameReading]
    split <;> rfl
  have follows : s.Follows [s.view.keywordHere "def" .newScope (some construct)] next := by
    refine ⟨rfl, rfl, rfl, rfl, ?_⟩
    rw [List.map_singleton, keywordHere_inFile h (Nat.le_of_add_right_le hpos)]
  -- All of it lies within the text.
  have hspaces : spaces ≤ (s.source.drop (s.pos + 3)).length :=
    (List.takeWhile_prefix isSpace).length_le
  have hreceiver' : receiver ≤ (s.source.drop first).length := receiverLength_le _
  have hn : n ≤ (s.source.drop name).length := methodNameLength_le _
  rw [List.length_drop] at hspaces hreceiver' hn
  have hle : name + n ≤ s.source.length := by omega
  rw [hrun, hreading]
  exact .prepend rfl follows (takeName_performs (h.of_le (by omega) (by omega)) hle)

/-! ## Keywords -/

/-- The keyword that stood at the position is brought up on the same line. -/
private theorem emitKeyword_performs {t : Scanner} (h : s.Sound) (hpos : s.pos ≤ s.source.length)
    (follows : s.Follows [] t) (hline : t.line = s.line) (hstart : t.lineStart = s.lineStart)
    (sound : t.Sound) (word : String) (keywordClass : KeywordClass)
    (construct : Option Construct) :
    Performs s ([s.view.keywordHere word keywordClass construct], t.view) ()
      (emitKeyword word s.pos keywordClass construct t) := by
  have hlocation : t.locationOf s.pos = s.locationOf s.pos := by
    rw [locationOf, locationOf, hline, hstart, follows.file]
  rw [emitKeyword_run]
  refine .done rfl ⟨follows.source, follows.limit, follows.strict, follows.file, ?_⟩ sound rfl
  rw [List.map_singleton, keywordHere_inFile h hpos, hlocation, follows.emitted]
  simp

/-- The keyword of a class opens the body of a class or of a singleton class. -/
private theorem scanClass_performs (h : s.Sound) (hpos : s.pos + 5 ≤ s.source.length) :
    Performs s s.view.readClass () (scanClass s.pos { s with pos := s.pos + 5 }) := by
  have hsound : s.SoundAt (s.pos + 5) := h.of_le (Nat.le_add_right _ 5) (Nat.le_succ_of_le hpos)
  have hstart := Nat.le_of_add_right_le hpos
  have hemit (block : Block) (keywordClass : KeywordClass) (construct : Option Construct) :=
    emitKeyword_performs h hstart (t := { s with
      pos := s.pos + 5, valueExpected := true, afterDot := false, afterIdentifier := false,
      blocks := block :: s.blocks }) (follows_nil rfl rfl rfl rfl rfl) rfl rfl hsound "class"
      keywordClass construct
  rw [scanClass, bind_run, markOperator_run, andThen_ok, bind_run, get_run, andThen_ok, bind_run,
    scanWhile_run, andThen_ok, ite_run, startsAt, drop_takeWhile, Reader.readClass, ← view_goTo h]
  dsimp only [rest_view, Reader.rest_markOperator]
  -- Two angle brackets after the keyword open a singleton class, which is no construct of its own.
  split
  · next hrest =>
    rw [hrest, if_pos (by simp)]
    exact hemit .singletonClass .other none
  · next hrest =>
    rw [if_neg]
    · exact hemit .construct .newScope (some .classDef)
    · intro hdouble
      obtain ⟨rest, heq⟩ := List.isPrefixOf_iff_prefix.mp hdouble
      exact hrest rest heq.symm

/-- The innermost block is taken away. -/
private theorem pop_run {block : Block} {blocks : List Block} (h : s.blocks = block :: blocks) :
    pop s = some (.ok block, { s with blocks }) := by
  rw [pop, bind_run, get_run, andThen_ok, h]
  rfl

/-- An `end` closes the innermost block, if there is one. -/
private theorem closeBlock_performs (h : s.Sound) (hpos : s.pos + 3 ≤ s.source.length) :
    Performs s (s.view.readEnd.1, { s.view.hop 3 with blocks := s.blocks.tail }) ()
      (closeBlock s.pos { s with pos := s.pos + 3 }) := by
  have hsound : s.SoundAt (s.pos + 3) := h.of_le (Nat.le_add_right _ 3) (Nat.le_succ_of_le hpos)
  have hstart := Nat.le_of_add_right_le hpos
  have hemit (keywordClass : KeywordClass) :=
    emitKeyword_performs h hstart (t := { s with pos := s.pos + 3, blocks := s.blocks.tail })
      (follows_nil rfl rfl rfl rfl rfl) rfl rfl hsound "end" keywordClass none
  rw [closeBlock, bind_run, get_run, andThen_ok, ite_run, Reader.readEnd, ← view_goTo h]
  dsimp only [view]
  cases hblocks : s.blocks with
  | nil =>
    -- No block is open, so the `end` is reported as a stray one and then brought up.
    let stray : Scanner := { s with emitted := s.emitted ++ [.strayEnd s.line] }
    have follows : s.Follows [.strayEnd s.line] stray := ⟨rfl, rfl, rfl, rfl, rfl⟩
    have hend := emitKeyword_performs (s := stray)
      (t := { stray with pos := s.pos + 3, blocks := s.blocks.tail }) h hstart
      (follows_nil rfl rfl rfl rfl rfl) rfl rfl hsound "end" .scopeEnd none
    rw [hblocks] at hend
    rw [if_pos List.isEmpty_nil]
    exact .prepend rfl follows hend
  | cons block blocks =>
    rw [hblocks] at hemit
    rw [if_neg (by simp), bind_run, pop_run rfl, andThen_ok]
    cases block with
    | construct => exact hemit .scopeEnd
    | plain => exact hemit .other
    | singletonClass => exact hemit .other

/-- A keyword opens a block where the reader opens one. -/
private theorem openBlockOf_run (word : String) (s : Scanner) :
    ∃ blocks loopLine, openBlockOf word s = some (.ok (), { s with blocks, loopLine })
      ∧ ∀ i, { s with blocks, loopLine, pos := i }.view
        = { s with pos := i }.view.openBlockOf word := by
  have hopen : ∃ blocks loopLine, openBlock word s = some (.ok (), { s with blocks, loopLine })
      ∧ ∀ i, { s with blocks, loopLine, pos := i }.view
        = { s with pos := i }.view.openBlock word := by
    simp only [openBlock, bind_run, push_run, andThen_ok, ite_run, Reader.openBlock]
    split
    · exact ⟨.plain :: s.blocks, some s.line, rfl, fun _ => rfl⟩
    · exact ⟨.plain :: s.blocks, s.loopLine, rfl, fun _ => rfl⟩
  simp only [openBlockOf, bind_run, get_run, andThen_ok, ite_run, Reader.openBlockOf,
    show ∀ i, { s with pos := i }.view.valueExpected = s.valueExpected from fun _ => rfl,
    show ∀ i, { s with pos := i }.view.loopLine = s.loopLine from fun _ => rfl,
    show ∀ i, { s with pos := i }.view.line = s.line from fun _ => rfl]
  -- Modifiers, other keywords of blocks, the `do` of a loop, and keywords that open nothing.
  split
  · split
    · exact hopen
    · exact ⟨s.blocks, s.loopLine, rfl, fun _ => rfl⟩
  split
  · exact hopen
  split
  · split
    · exact ⟨s.blocks, none, rfl, fun _ => rfl⟩
    · exact ⟨.plain :: s.blocks, s.loopLine, rfl, fun _ => rfl⟩
  · exact ⟨s.blocks, s.loopLine, rfl, fun _ => rfl⟩

/-- Whatever it closes, an `end` takes away the innermost block. -/
private theorem readEnd_snd (r : Reader) :
    r.readEnd.2 = { r.hop 3 with blocks := r.blocks.tail }.markValue := by
  rw [Reader.readEnd]
  split
  · next hblocks =>
    rw [hblocks, List.tail_nil, ← hblocks]
    rfl
  · next hblocks =>
    rw [hblocks]
    rfl
  · next hblocks =>
    rw [hblocks]
    rfl

/-- A keyword is read, with all that it takes along. -/
theorem scanKeyword_performs {word : String} (h : s.Sound)
    (hpos : s.pos + word.length ≤ s.source.length) :
    Performs s (s.view.readKeyword word) ()
      (scanKeyword word s.pos { s with pos := s.pos + word.length }) := by
  have hsound : s.SoundAt (s.pos + word.length) :=
    h.of_le (Nat.le_add_right _ _) (Nat.le_succ_of_le hpos)
  have hstart := Nat.le_of_add_right_le hpos
  rw [scanKeyword, Reader.readKeyword]
  simp only [ite_run]
  -- The keywords that have a way of their own come first: `def`, `module`, `class` and `end`.
  split
  · next hdef =>
    subst hdef
    exact scanDefinition_performs h hpos
  split
  · next hmodule =>
    subst hmodule
    rw [bind_run, push_run, andThen_ok, bind_run, markOperator_run, andThen_ok, ← view_goTo h]
    exact emitKeyword_performs h hstart (t := { s with
      pos := s.pos + 6, valueExpected := true, afterDot := false, afterIdentifier := false,
      blocks := .construct :: s.blocks }) (follows_nil rfl rfl rfl rfl rfl) rfl rfl hsound "module"
      .newScope (some .moduleDef)
  split
  · next hclass =>
    subst hclass
    exact scanClass_performs h hpos
  split
  · next hend =>
    subst hend
    rw [bind_run]
    have hreading : s.view.readEnd
        = (s.view.readEnd.1, { s.view.hop 3 with blocks := s.blocks.tail }.markValue) := by
      rw [show s.blocks = s.view.blocks from rfl, ← readEnd_snd]
    rw [hreading]
    refine (closeBlock_performs h hpos).bind_last fun s' _ sound hview => ?_
    rw [← hview]
    exact .done rfl (follows_nil rfl rfl rfl rfl rfl) sound rfl
  · obtain ⟨blocks, loopLine, hrun, hview⟩ :=
      openBlockOf_run word { s with pos := s.pos + word.length }
    have hnext : { s with blocks, loopLine, pos := s.pos + word.length }.view
        = (s.view.openBlockOf word).hop word.length := by
      rw [view_goTo (s := { s with blocks, loopLine }) h]
      exact congrArg (Reader.hop · word.length) (hview s.pos)
    let next : Scanner := { s with blocks, loopLine, pos := s.pos + word.length }
    have hemit (valueExpected : Bool) := emitKeyword_performs h hstart
      (t := { next with valueExpected, afterDot := false, afterIdentifier := false })
      (follows_nil rfl rfl rfl rfl rfl) rfl rfl hsound word .other none
    rw [bind_run, hrun, andThen_ok, ite_run, Reader.readOtherKeyword, ← hnext]
    split
    · exact hemit false
    · exact hemit true

/-! ## Words -/

/-- A constant is taken. -/
private theorem takeConstant_performs {n : Nat} (h : s.Sound) (hpos : s.pos + n ≤ s.source.length) :
    Performs s (s.view.takeConstant n) () (takeConstant s.pos (s.pos + n) s) := by
  have hsound : s.SoundAt (s.pos + n) := h.of_le (Nat.le_add_right _ n) (Nat.le_succ_of_le hpos)
  rw [takeConstant, bind_run, get_run, andThen_ok, bind_run, goTo_run, andThen_ok, bind_run,
    markValue_run, andThen_ok, emit_run, locationOf_eq h (Nat.le_of_add_right_le hpos), slice_add,
    Reader.takeConstant, ← view_goTo h]
  exact .done rfl ⟨rfl, rfl, rfl, rfl, rfl⟩ hsound rfl

/-- An identifier is taken. -/
private theorem takeIdentifier_performs {n : Nat} (h : s.Sound)
    (hpos : s.pos + n ≤ s.source.length) :
    Performs s (s.view.takeIdentifier n) () (takeIdentifier s.pos (s.pos + n) s) := by
  have hsound : s.SoundAt (s.pos + n) := h.of_le (Nat.le_add_right _ n) (Nat.le_succ_of_le hpos)
  rw [takeIdentifier, bind_run, get_run, andThen_ok, bind_run, goTo_run, andThen_ok, bind_run,
    markValue_run, andThen_ok, bind_run, modify_run, andThen_ok, emit_run,
    locationOf_eq h (Nat.le_of_add_right_le hpos), slice_add, Reader.takeIdentifier, ← view_goTo h]
  exact .done rfl ⟨rfl, rfl, rfl, rfl, rfl⟩ hsound rfl

/-- Two colons stand before the position. -/
private theorem rooted_iff (hpos : s.pos ≤ s.source.length) :
    [':', ':'].isPrefixOf s.view.before = true
      ↔ 2 ≤ s.pos ∧ s.startsAt [':', ':'] (s.pos - 2) = true := by
  have hbefore : s.view.before = (s.source.take s.pos).reverse := rfl
  -- The two characters before the position are there or not.
  rcases Nat.lt_or_ge s.pos 2 with hlt | hge
  · refine iff_of_false (fun hrooted => ?_) fun hrooted => Nat.not_lt_of_ge hrooted.1 hlt
    have hlength := (List.isPrefixOf_iff_prefix.mp hrooted).length_le
    simp only [hbefore, List.length_reverse, List.length_take, List.length_cons,
      List.length_nil] at hlength
    omega
  · obtain ⟨k, hk⟩ := Nat.exists_eq_add_of_le' hge
    have h₀ : k < s.source.length := by omega
    have h₁ : k + 1 < s.source.length := by omega
    rw [hbefore, hk, List.take_succ_eq_append_getElem h₁, List.take_succ_eq_append_getElem h₀,
      startsAt_pair, Nat.add_sub_cancel, List.getElem?_eq_getElem h₀, List.getElem?_eq_getElem h₁]
    simp only [List.reverse_append, List.reverse_singleton, List.singleton_append,
      List.isPrefixOf_cons_cons, List.isPrefixOf_nil_left, Bool.and_true, Bool.and_eq_true,
      beq_iff_eq, Option.some.injEq]
    exact ⟨fun hcolons => ⟨Nat.le_add_left 2 k, hcolons.2.symm, hcolons.1.symm⟩,
      fun hcolons => ⟨hcolons.2.2.symm, hcolons.2.1.symm⟩⟩

/-- A word is read. -/
theorem scanWord_performs {c : Char} (h : s.Sound) (hc : s.source[s.pos]? = some c)
    (hword : isWordStart c) : Performs s s.view.readWord () (scanWord s) := by
  have hlt : s.pos < s.source.length := (List.getElem?_eq_some_iff.mp hc).1
  let word := wordAt (s.source.drop s.pos)
  let last := s.pos + word.length
  have hle : last ≤ s.source.length := by
    have hlength := (wordAt_isPrefix (s.source.drop s.pos)).length_le
    rw [List.length_drop] at hlength
    show s.pos + (wordAt (s.source.drop s.pos)).length ≤ s.source.length
    omega
  -- The word that the scanner finds is the one that the reader finds, and not empty.
  have hend : markEnd s.pos (s.pos + ((s.source.drop s.pos).takeWhile isWordChar).length) s
      = some (.ok last, s) := markEnd_run hc
  have hslice : s.slice s.pos last = word := by
    rw [slice_add]
    exact (List.prefix_iff_eq_take.mp (wordAt_isPrefix _)).symm
  have hupper : startsUppercase word = Text.isUppercase c := by
    show startsUppercase (wordAt (s.source.drop s.pos)) = _
    rw [drop_eq_cons hc, startsUppercase_wordAt hword]
    rfl
  have hfirst : word[0]? = some c := by
    show (wordAt (s.source.drop s.pos))[0]? = some c
    rw [drop_eq_cons hc]
    have hne : wordAt (c :: s.source.drop (s.pos + 1)) ≠ [] := Reader.wordAt_ne_nil hword
    obtain ⟨d, rest, hcons⟩ := List.exists_cons_of_ne_nil hne
    have hprefix := wordAt_isPrefix (c :: s.source.drop (s.pos + 1))
    rw [hcons, List.cons_prefix_cons] at hprefix
    rw [hcons, hprefix.1]
    rfl
  have hrest : (s.source.drop s.pos).drop word.length = s.source.drop last := List.drop_drop
  have hpath : last + pathLength (s.source.drop last) ≤ s.source.length := by
    have hlength := pathLength_le (s.source.drop last)
    rw [List.length_drop] at hlength
    omega
  -- A constant reaches to the end of the word or to that of a path behind it.
  have hconstant (n : Nat) (hn : last + n ≤ s.source.length) :
      Performs s (s.view.takeConstant (word.length + n)) () (takeConstant s.pos (last + n) s) := by
    rw [show last + n = s.pos + (word.length + n) from Nat.add_assoc _ _ _] at hn ⊢
    exact takeConstant_performs h hn
  rw [scanWord, bind_run, get_run, andThen_ok, bind_run, scanWhile_run, andThen_ok, bind_run, hend,
    andThen_ok, Reader.readWord]
  simp only [rest_view, show wordAt (s.source.drop s.pos) = word from rfl, hrest, hslice, ite_run,
    bind_run, item_run hfirst, andThen_ok, hupper, pathEnd_run,
    show s.view.afterDot = s.afterDot from rfl, ← isLabelColon_drop,
    ← rooted_iff (Nat.le_of_lt hlt)]
  by_cases hdot : s.afterDot = true
  · -- After a dot the word is a name, which goes on as a path only after two colons.
    simp only [hdot, not_true, false_and, if_false, if_true]
    split_ifs
    · exact hconstant _ hpath
    · exact hconstant 0 hle
    · exact takeIdentifier_performs h hle
  · -- Elsewhere it is a label, a keyword, a constant or an identifier.
    simp only [hdot, Bool.false_eq_true, not_false_eq_true, true_and, if_false]
    split_ifs
    · have hsound : s.SoundAt (last + 1) := h.of_le (by omega) (by omega)
      rw [goTo_run, andThen_ok, ← view_goTo h]
      exact .done rfl (follows_nil rfl rfl rfl rfl rfl) hsound rfl
    · have hlength : (String.ofList word).length = word.length := String.length_ofList
      have hlast : s.pos + (String.ofList word).length = last := by rw [hlength]
      rw [goTo_run, andThen_ok, ← hlast]
      exact scanKeyword_performs h (by rwa [hlast])
    · exact hconstant _ hpath
    · exact takeIdentifier_performs h hle

end Scanning

end ScopeTags.Source
