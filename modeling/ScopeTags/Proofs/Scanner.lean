import ScopeTags.Source.Transcript

/-!
# Reading a source by index

A scanner keeps the whole text and goes through it with a position, of which it neither says that
it lies in the text nor that it ever gets to the end: whoever asks for a character that is not there
gets a fault, and a loop that takes too many rounds has no outcome.  Literals are skipped by
functions that call each other and share the position, and only so many of these calls can be under
way at once.

Here the scanner is only defined.  It brings up the same events as `Reader`, which has neither
indices nor loops; that no fault comes from an index and that all loops end follows from there.
-/

namespace ScopeTags.Source

/-- The state of a scanner. -/
structure Scanner where
  source : List Char
  /-- How many calls of the functions that skip literals may be under way at once. -/
  limit : Nat
  /-- Whether a construct that is still open where the text ends is a fault. -/
  strict : Bool := false
  file : Option String := none
  /-- How many characters have been read. -/
  pos : Nat := 0
  line : Nat := 1
  /-- The position at which the current line starts. -/
  lineStart : Nat := 0
  valueExpected : Bool := true
  afterDot : Bool := false
  afterIdentifier : Bool := false
  depth : Nat := 0
  blocks : List Block := []
  loopLine : Option Nat := none
  endless : List Nat := []
  heredocs : List Heredoc := []
  /-- What has been brought up so far. -/
  emitted : List Event := []

/-- Why steps of a scanner fail. -/
inductive Stop where
  | fault (fault : Fault)
  /-- There is no room for another call. -/
  | tooDeep

/-- Steps of a scanner.  They can have no outcome, fail, or yield a value; what was done before a
    failure stays. -/
abbrev Scanning := ExceptT Stop (StateT Scanner Option)

namespace Scanner

/-- The characters from `i` up to `j`. -/
def slice (s : Scanner) (i j : Nat) : List Char := (s.source.drop i).take (j - i)

/-- Whether `text` stands at `i`. -/
def startsAt (s : Scanner) (text : List Char) (i : Nat) : Bool := text.isPrefixOf (s.source.drop i)

/-- The first place from `i` on where `c` stands. -/
def find? (s : Scanner) (c : Char) (i : Nat) : Option Nat :=
  ((s.source.drop i).findIdx? (· = c)).map (i + ·)

/-- Whether a space or a tab stands just before the position. -/
def afterSpace (s : Scanner) : Bool := 0 < s.pos && s.source[s.pos - 1]?.any isSpace

/-- Whether a literal may start at the position. -/
def operandMayStart (s : Scanner) : Bool :=
  s.valueExpected ||
    (s.afterIdentifier && s.afterSpace &&
      s.source[s.pos + 1]?.any fun c => !Text.isBlank c && c ≠ '=')

/-- Whether a percent literal starts at the position, where a percent sign stands. -/
def atPercentLiteral (s : Scanner) : Bool :=
  if s.source[s.pos + 1]?.any isPercentType then
    s.source[s.pos + 2]?.any fun c => !Text.isAlphanumeric c && !Text.isBlank c
  else
    s.source[s.pos + 1]?.any fun c => !Text.isAlphanumeric c && !Text.isBlank c && c ≠ '='

/-- Whether a character literal starts at the position, where a question mark stands. -/
def atCharLiteral (s : Scanner) : Bool :=
  s.source[s.pos + 1]?.any fun c => !Text.isBlank c &&
    (c = '\\' || s.source[s.pos + 2]?.all fun d => !(Text.isAlphanumeric d || d = '_'))

/-- Whether the marker that ends the program stands at the position. -/
def atEndMarker (s : Scanner) : Bool :=
  s.startsAt "__END__".toList s.pos &&
    s.source[s.pos + 7]?.all fun c => c = '\n' || c = '\r'

/-- Whether an embedded document starts at the position. -/
def atEmbeddedDocument (s : Scanner) : Bool :=
  s.startsAt "=begin".toList s.pos && s.source[s.pos + 6]?.all Text.isBlank

/-- The place of the character at `i`, which stands on the current line. -/
def locationOf (s : Scanner) (i : Nat) : Location :=
  ⟨s.line, (i : Int) - s.lineStart + 1, s.file⟩

end Scanner

namespace Scanning

open Source.Scanner

/-- A loop, which may take as many rounds as the text has characters, and one more to see that it is
    at the end.  A loop that runs out of fuel has no outcome. -/
def loop {α : Type} (rounds : Nat → Scanning α) : Scanning α := do
  rounds ((← get).source.length + 1)

/-- The outcome of a loop that has run out of fuel. -/
def stuck {α : Type} : Scanning α := fun _ => none

/-! ## Single steps -/

/-- The item at `i` of a sequence. -/
def item {α : Type} (xs : List α) (i : Nat) : Scanning α :=
  match xs[i]? with
  | some x => return x
  | none => throw (.fault .outOfRange)

/-- The character at `i` of the source. -/
def charAt (i : Nat) : Scanning Char := do item (← get).source i

/-- Bring up an event. -/
def emit (event : Event) : Scanning Unit :=
  modify fun s => { s with emitted := s.emitted ++ [event] }

/-- Bring up the keyword that stands at `i`. -/
def emitKeyword (word : String) (i : Nat) (keywordClass : KeywordClass)
    (construct : Option Construct) : Scanning Unit := do
  emit (.token (Token.keyword word (some keywordClass) construct ((← get).locationOf i)))

/-- Bring up the end of an endless definition. -/
def emitEnd : Scanning Unit := do
  emit (.token (Token.keyword "end" (some .scopeEnd) none { file := (← get).file }))

/-- A construct that started on `line` is still open where the text ends. -/
def unterminated (what : Unterminated) (line : Nat) : Scanning Unit := do
  let s ← get
  if s.strict then
    let site : Site := { line := some (line : Int), file := s.file }
    throw (.fault (.lexical ("Unterminated " ++ what.label) site))
  else emit (.unterminated what line)

/-- Go to `i`. -/
def goTo (i : Nat) : Scanning Unit := modify fun s => { s with pos := i }

/-- A new line starts at the position. -/
def beginLine : Scanning Unit :=
  modify fun s => { s with line := s.line + 1, lineStart := s.pos }

/-- A newline inside a literal stands at `i`. -/
def newlineAt (i : Nat) : Scanning Unit :=
  modify fun s => { s with line := s.line + 1, lineStart := i + 1 }

/-- An operand is complete. -/
def markValue : Scanning Unit :=
  modify fun s => { s with valueExpected := false, afterDot := false, afterIdentifier := false }

/-- An operand is expected next. -/
def markOperator : Scanning Unit :=
  modify fun s => { s with valueExpected := true, afterDot := false, afterIdentifier := false }

/-- The name of a method is expected next. -/
def markDot : Scanning Unit :=
  modify fun s => { s with valueExpected := true, afterDot := true }

/-- Open a block. -/
def push (block : Block) : Scanning Unit :=
  modify fun s => { s with blocks := block :: s.blocks }

/-- Close the innermost block. -/
def pop : Scanning Block := do
  match (← get).blocks with
  | block :: blocks => modify fun s => { s with blocks }; return block
  | [] => throw (.fault .outOfRange)

/-- Leave the innermost endless definition. -/
def popEndless : Scanning Unit := do
  match (← get).endless with
  | _ :: endless => modify fun s => { s with endless }
  | [] => throw (.fault .outOfRange)

/-- The rounds of `scanWhile`. -/
def scanWhileFor (p : Char → Bool) : Nat → Nat → Scanning Nat
  | 0, _ => stuck
  | fuel + 1, i => do
    if i < (← get).source.length then
      if p (← charAt i) then scanWhileFor p fuel (i + 1) else return i
    else return i

/-- Where the characters of class `p` end that start at `i`. -/
def scanWhile (p : Char → Bool) (i : Nat) : Scanning Nat := loop fun fuel => scanWhileFor p fuel i

/-! ## Lines -/

/-- Read what is left of the line. -/
def consumeLine : Scanning (List Char) := do
  let s ← get
  match s.find? '\n' s.pos with
  | none =>
    goTo s.source.length
    return Text.trimEnd (· = '\r') (s.source.drop s.pos)
  | some last =>
    goTo (last + 1)
    beginLine
    return Text.trimEnd (· = '\r') (s.slice s.pos last)

/-- The rounds of `skipLines`. -/
def skipLinesFor (ends : List Char → Scanning Bool) (what : Unterminated) (line : Nat) :
    Nat → Scanning Unit
  | 0 => stuck
  | fuel + 1 => do
    let s ← get
    if s.pos < s.source.length then
      if ← ends (← consumeLine) then return () else skipLinesFor ends what line fuel
    else unterminated what line

/-- Read lines up to the first that `ends` accepts, which ends a construct that started on
    `line`. -/
def skipLines (ends : List Char → Scanning Bool) (what : Unterminated) (line : Nat) :
    Scanning Unit :=
  loop (skipLinesFor ends what line)

/-- Read the bodies of heredocs, one after the other. -/
def skipEachBody : List Heredoc → Scanning Unit
  | [] => return ()
  | heredoc :: heredocs => do
    skipLines (fun line => return heredoc.endsAt line)
      (.heredoc (String.ofList heredoc.terminator)) (← get).line
    skipEachBody heredocs

/-- Read the bodies of the heredocs announced on the line before, if there are any. -/
def skipHeredocBodies : Scanning Unit := do
  let s ← get
  if s.heredocs.isEmpty then return ()
  else
    skipEachBody s.heredocs
    modify fun s => { s with heredocs := [] }

/-- Whether a line ends an embedded document. -/
def isDocumentEnd (line : List Char) : Scanning Bool := do
  if "=end".toList.isPrefixOf line then
    if line.length = 4 then return true else return Text.isBlank (← item line 4)
  else return false

/-- Read an embedded document. -/
def skipEmbeddedDocument : Scanning Unit := do
  let line := (← get).line
  let _ ← consumeLine
  skipLines isDocumentEnd .embeddedDocument line

/-- The rounds of `closeEndless`, which are as many as there are endless definitions. -/
def closeEndlessOf : List Nat → Scanning Unit
  | [] => return ()
  | _ :: outer => do
    let s ← get
    if (← item s.endless 0) = s.depth ∧ ¬s.valueExpected then
      popEndless
      emitEnd
      closeEndlessOf outer
    else return ()

/-- Close the endless definitions whose body is complete. -/
def closeEndless : Scanning Unit := do closeEndlessOf (← get).endless

/-- Read a newline. -/
def scanNewline : Scanning Unit := do
  goTo ((← get).pos + 1)
  beginLine
  -- The bodies start right after the line that announces their heredocs.
  skipHeredocBodies
  closeEndless
  markOperator

/-- Read a comment. -/
def scanComment : Scanning Unit := do
  let s ← get
  let last := (s.find? '\n' s.pos).getD s.source.length
  goTo last
  let text := Text.trimEnd (· = '\r') (s.slice s.pos last)
  emit (.token (Token.comment (String.ofList text) (s.locationOf s.pos)))

/-! ## Literals -/

/-- Call a function that skips a literal or a part of one where there is room for `room` calls.  It
    is told how many more can be made inside of it. -/
def call (room : Nat) (callee : Nat → Scanning Unit) : Scanning Unit :=
  match room with
  | 0 => throw .tooDeep
  | room + 1 => callee room

/-- A backslash inside a literal stands at `i`; it may hide a newline. -/
def escapeAt (i : Nat) : Scanning Unit := do
  if (← get).startsAt ['\n'] (i + 1) then newlineAt (i + 1) else return ()

mutual

/-- Skip to just past `close`, from `i` on, with room for `room` calls.  Where there is an `opener`,
    `nesting` pairs of it and `close` are open. -/
def skipDelimitedFor (close : Char) (opener : Option Char) (interpolates : Bool) (line : Nat) :
    Nat → Nat → Nat → Nat → Scanning Unit
  | 0, _, _, _ => stuck
  | fuel + 1, room, nesting, i => do
    let s ← get
    if i < s.source.length then
      let c ← charAt i
      if c = '\\' then
        escapeAt i
        skipDelimitedFor close opener interpolates line fuel room nesting (i + 2)
      else if c = '\n' then
        newlineAt i
        skipDelimitedFor close opener interpolates line fuel room nesting (i + 1)
      else if interpolates ∧ c = '#' ∧ s.startsAt ['\x7b'] (i + 1) then
        -- The code moves the position, and the literal goes on from there.
        goTo (i + 2)
        call room fun left => skipInterpolationFor s.line fuel left 0 (i + 2)
        skipDelimitedFor close opener interpolates line fuel room nesting (← get).pos
      else if opener = some c then
        skipDelimitedFor close opener interpolates line fuel room (nesting + 1) (i + 1)
      else if c = close then
        if nesting = 0 then goTo (i + 1)
        else skipDelimitedFor close opener interpolates line fuel room (nesting - 1) (i + 1)
      else skipDelimitedFor close opener interpolates line fuel room nesting (i + 1)
    else
      goTo s.source.length
      unterminated .literal line

/-- Skip code to just past the brace that closes it, from `i` on, with room for `room` calls, where
    `depth` more braces are open. -/
def skipInterpolationFor (line : Nat) : Nat → Nat → Nat → Nat → Scanning Unit
  | 0, _, _, _ => stuck
  | fuel + 1, room, depth, i => do
    let s ← get
    if i < s.source.length then
      let c ← charAt i
      -- A string inside the code may have a brace in it, which does not count.
      if isQuote c then
        goTo (i + 1)
        call room fun left => skipDelimitedFor c none (c ≠ '\x27') s.line fuel left 0 (i + 1)
        skipInterpolationFor line fuel room depth (← get).pos
      else if c = '\n' then
        newlineAt i
        skipInterpolationFor line fuel room depth (i + 1)
      else if c = '\x7b' then skipInterpolationFor line fuel room (depth + 1) (i + 1)
      else if c = '\x7d' then
        if depth = 0 then goTo (i + 1) else skipInterpolationFor line fuel room (depth - 1) (i + 1)
      else skipInterpolationFor line fuel room depth (i + 1)
    else
      goTo s.source.length
      unterminated .interpolation line

end

/-- Skip to just past `close`, with pairs of `opener` and `close` balanced. -/
def skipDelimited (close : Char) (opener : Option Char) (interpolates : Bool) (room : Nat) :
    Scanning Unit := do
  let s ← get
  loop fun fuel => skipDelimitedFor close opener interpolates s.line fuel room 0 s.pos

/-- Skip code to just past the brace that closes it. -/
def skipInterpolation (room : Nat) : Scanning Unit := do
  let s ← get
  loop fun fuel => skipInterpolationFor s.line fuel room 0 s.pos

/-- Skip a string that opens with `quote`. -/
def skipString (quote : Char) : Scanning Unit := do
  let s ← get
  goTo (s.pos + 1)
  call s.limit (skipDelimited quote none (quote ≠ '\x27'))

/-- Skip the flags of a regular expression. -/
def skipFlags : Scanning Unit := do goTo (← scanWhile isRegexFlag (← get).pos)

/-- Skip a regular expression to just past its last slash and its flags, from `i` on, with room for
    `room` calls. -/
def skipRegexFor (line room : Nat) : Nat → Bool → Nat → Scanning Unit
  | 0, _, _ => stuck
  | fuel + 1, inClass, i => do
    let s ← get
    if i < s.source.length then
      let c ← charAt i
      if c = '\\' then
        escapeAt i
        skipRegexFor line room fuel inClass (i + 2)
      else if c = '\n' then
        newlineAt i
        skipRegexFor line room fuel inClass (i + 1)
      else if c = '#' ∧ s.startsAt ['\x7b'] (i + 1) then
        goTo (i + 2)
        call room skipInterpolation
        skipRegexFor line room fuel inClass (← get).pos
      else if c = '[' then skipRegexFor line room fuel true (i + 1)
      else if c = ']' then skipRegexFor line room fuel false (i + 1)
      -- A slash between square brackets is an ordinary character.
      else if c = '/' ∧ ¬inClass then
        goTo (i + 1)
        skipFlags
      else skipRegexFor line room fuel inClass (i + 1)
    else
      goTo s.source.length
      unterminated .regex line

/-- Skip a regular expression. -/
def skipRegex : Scanning Unit := do
  let s ← get
  call s.limit fun room => loop fun fuel => skipRegexFor s.line room fuel false (s.pos + 1)

/-- Skip what a percent literal of type `type` encloses, from its delimiter at `i` on. -/
def skipEnclosed (type : Char) (i : Nat) : Scanning Unit := do
  let delim ← charAt i
  goTo (i + 1)
  call (← get).limit (skipDelimited ((closing? delim).getD delim)
    (if (closing? delim).isSome then some delim else none) (!isRawPercentType type))
  if type = 'r' then skipFlags else return ()

/-- Skip a percent literal. -/
def skipPercentLiteral : Scanning Unit := do
  let i := (← get).pos + 1
  let c ← charAt i
  if isPercentType c then skipEnclosed c (i + 1) else skipEnclosed 'Q' i

/-- Where the terminator of a heredoc at `i` ends, and the terminator. -/
def heredocTerminator? (indented : Bool) (i : Nat) : Scanning (Option (List Char × Nat)) := do
  let s ← get
  let c ← charAt i
  if isQuote c then
    match s.find? c (i + 1) with
    | none => return none
    | some last =>
      if '\n' ∈ s.slice (i + 1) last then return none
      else return some (s.slice (i + 1) last, last + 1)
  else if Text.isLetter c ∨ c = '_' then
    -- Before a small letter the two signs are an operator.
    if ¬indented ∧ ¬(Text.isUppercase c ∨ c = '_') then return none
    else
      let last ← scanWhile (fun d => Text.isAlphanumeric d ∨ d = '_') i
      return some (s.slice i last, last)
  else return none

/-- Announce a heredoc if its terminator stands at `i` and one may start at the position. -/
def announceAt (indented : Bool) (i : Nat) : Scanning Bool := do
  let s ← get
  if i < s.source.length then
    match ← heredocTerminator? indented i with
    | none => return false
    | some (terminator, last) =>
      if s.valueExpected ∨ s.afterSpace then
        modify fun s => { s with heredocs := s.heredocs ++ [⟨terminator, indented⟩] }
        goTo last
        return true
      else return false
  else return false

/-- Announce a heredoc if one starts at the position, where two less-than signs stand. -/
def tryHeredoc : Scanning Bool := do
  let s ← get
  let start := s.pos + 2
  if start < s.source.length then
    let c ← charAt start
    if c = '~' ∨ c = '-' then announceAt true (start + 1) else announceAt false start
  else announceAt false start

/-! ## Words -/

/-- Where the word ends whose word characters reach from `start` to `last`: a question or
    exclamation mark may belong to it. -/
def markEnd (start last : Nat) : Scanning Nat := do
  let s ← get
  if last < s.source.length then
    let c ← charAt last
    if c = '?' ∨ c = '!' then
      -- The mark of a constant, or before an equals sign, is an operator.
      if Text.isUppercase (← charAt start) then return last
      else if s.startsAt ['='] (last + 1) then return last
      else return last + 1
    else return last
  else return last

/-- The rounds of `pathEnd`. -/
def pathEndFor : Nat → Nat → Scanning Nat
  | 0, _ => stuck
  | fuel + 1, i => do
    let s ← get
    if s.startsAt [':', ':'] i ∧ s.source[i + 2]?.any Text.isUppercase then
      pathEndFor fuel (← scanWhile isWordChar (i + 2))
    else return i

/-- Where the constant path ends that goes on at `i`. -/
def pathEnd (i : Nat) : Scanning Nat := loop fun fuel => pathEndFor fuel i

/-- How many characters the operator name at `i` has. -/
def operatorAt (i : Nat) : Scanning Nat := do
  let s ← get
  match operatorNames.find? fun name => s.startsAt name.toList i with
  | some name => return name.length
  | none => return 0

/-- Where the receiver of a definition at `i` ends, with its dot. -/
def receiverEnd? (i : Nat) : Scanning (Option Nat) := do
  let s ← get
  if s.startsAt "self.".toList i then return some (i + 5)
  else if i < s.source.length then
    if isWordStart (← charAt i) then
      let last ← scanWhile isWordChar i
      if s.startsAt ['.'] last ∧ ¬s.startsAt ['.', '.'] last then return some (last + 1)
      else return none
    else return none
  else return none

/-- Where the name of a method at `i` that is a word ends. -/
def wordNameEnd (i : Nat) : Scanning Nat := do
  let s ← get
  let last ← scanWhile isWordChar i
  let mark := s.source[last]?
  if mark = some '?' ∨ mark = some '!' then return last + 1
  -- The equals sign of a setter belongs to its name only where parameters follow at once.
  else if mark = some '=' ∧ s.startsAt ['('] (last + 1) then return last + 1
  else return last

/-- Where the name of a method at `i` ends. -/
def methodNameEnd (i : Nat) : Scanning Nat := do
  let s ← get
  if i < s.source.length then
    if isWordStart (← charAt i) then wordNameEnd i else return i + (← operatorAt i)
  else return i + (← operatorAt i)

/-- Where the parentheses end that are open at `i`, `depth` of them. -/
def parenthesesEndFor : Nat → Int → Nat → Scanning Nat
  | 0, _, _ => stuck
  | fuel + 1, depth, i => do
    if i < (← get).source.length then
      let c ← charAt i
      if c = '(' then parenthesesEndFor fuel (depth + 1) (i + 1)
      else if c = ')' then
        if depth - 1 = 0 then return i + 1 else parenthesesEndFor fuel (depth - 1) (i + 1)
      else parenthesesEndFor fuel depth (i + 1)
    else return i

/-- Where the parentheses end that open at `i`. -/
def parenthesesEnd (i : Nat) : Scanning Nat := loop fun fuel => parenthesesEndFor fuel 0 i

/-- Where the parameters at `i` end, if there are any, with the spaces around them. -/
def parametersEnd (i : Nat) : Scanning Nat := do
  let s ← get
  let first ← scanWhile isSpace i
  if s.startsAt ['('] first then scanWhile isSpace (← parenthesesEnd first) else return first

/-- Whether a definition goes on at `i` with an equals sign and its only expression. -/
def isEndlessAt (i : Nat) : Scanning Bool := do
  let s ← get
  let last ← parametersEnd i
  return s.startsAt ['='] last ∧ s.source[last + 1]?.all fun c => c ≠ '=' ∧ c ≠ '~' ∧ c ≠ '>'

/-- Whether a definition whose name reaches from `name` to `last` is an endless one. -/
def endlessAfter (name last : Nat) : Scanning Bool := do
  if name < last then isEndlessAt last else return false

/-- Open the body of a method definition. -/
def openDefinition (endless : Bool) : Scanning Unit := do
  if endless then modify fun s => { s with endless := s.depth :: s.endless } else push .construct

/-- Take the characters from `name` to `last` as the name of a method, if there are any. -/
def takeName (name last : Nat) : Scanning Unit := do
  let s ← get
  if name < last then
    emit (.token (Token.identifier (String.ofList (s.slice name last)) (s.locationOf name)))
    goTo last
    markValue
  else
    goTo name
    markOperator

/-- Read what follows the keyword of a method definition, which stands at `start`. -/
def scanDefinition (start : Nat) : Scanning Unit := do
  let s ← get
  let inSingleton := s.blocks.find? (· ≠ .plain) = some .singletonClass
  let first ← scanWhile isSpace s.pos
  let receiver ← receiverEnd? first
  let name := receiver.getD first
  let last ← methodNameEnd name
  -- The text is searched ahead for an equals sign before anything is brought up.
  openDefinition (← endlessAfter name last)
  emitKeyword "def" start .newScope
    (some (if inSingleton ∨ receiver.isSome then .method else .instanceMethod))
  takeName name last

/-- Read what follows the keyword of a class, which stands at `start`. -/
def scanClass (start : Nat) : Scanning Unit := do
  markOperator
  let s ← get
  if s.startsAt ['<', '<'] (← scanWhile isSpace s.pos) then
    push .singletonClass
    emitKeyword "class" start .other none
  else
    push .construct
    emitKeyword "class" start .newScope (some .classDef)

/-- Close the innermost block with the `end` that stands at `start`. -/
def closeBlock (start : Nat) : Scanning Unit := do
  let s ← get
  if s.blocks.isEmpty then
    -- There is nothing to close, but the scan is to see the `end`.
    emit (.strayEnd s.line)
    emitKeyword "end" start .scopeEnd none
  else
    match ← pop with
    | .construct => emitKeyword "end" start .scopeEnd none
    | _ => emitKeyword "end" start .other none

/-- Open the block of a keyword. -/
def openBlock (word : String) : Scanning Unit := do
  push .plain
  if word ∈ loopKeywords then modify fun s => { s with loopLine := some s.line } else return ()

/-- Open the block that a keyword opens where it stands, if any. -/
def openBlockOf (word : String) : Scanning Unit := do
  let s ← get
  if word ∈ modifierKeywords then
    -- After an operand it is a modifier.
    if s.valueExpected then openBlock word else return ()
  else if word ∈ blockKeywords then openBlock word
  else if word = "do" then
    -- The block of a loop is open already.
    if s.loopLine = some s.line then modify fun s => { s with loopLine := none } else push .plain
  else return ()

/-- Read a keyword that stands at `start`, with the position just past it. -/
def scanKeyword (word : String) (start : Nat) : Scanning Unit := do
  if word = "def" then scanDefinition start
  else if word = "module" then
    push .construct
    markOperator
    emitKeyword "module" start .newScope (some .moduleDef)
  else if word = "class" then scanClass start
  else if word = "end" then
    closeBlock start
    markValue
  else
    openBlockOf word
    if word ∈ operandKeywords then markValue else markOperator
    emitKeyword word start .other none

/-- Take the characters from `start` to `last` as a constant. -/
def takeConstant (start last : Nat) : Scanning Unit := do
  let s ← get
  goTo last
  markValue
  emit (.token (Token.constant (String.ofList (s.slice start last)) (s.locationOf start)))

/-- Take the characters from `start` to `last` as an identifier. -/
def takeIdentifier (start last : Nat) : Scanning Unit := do
  let s ← get
  goTo last
  markValue
  modify fun s => { s with afterIdentifier := true }
  emit (.token (Token.identifier (String.ofList (s.slice start last)) (s.locationOf start)))

/-- Read a word. -/
def scanWord : Scanning Unit := do
  let s ← get
  let last ← markEnd s.pos (← scanWhile isWordChar s.pos)
  if ¬s.afterDot ∧ s.startsAt [':'] last ∧ ¬s.startsAt [':', ':'] last then
    -- A label is passed over with its colon.
    goTo (last + 1)
    markOperator
  else
    let word := s.slice s.pos last
    let text := String.ofList word
    let isUpper := Text.isUppercase (← item word 0)
    if s.afterDot then
      -- No word is a keyword here, and only after a double colon a path goes on.
      if isUpper ∧ text ∉ keywords then
        if 2 ≤ s.pos ∧ s.startsAt [':', ':'] (s.pos - 2) then
          takeConstant s.pos (← pathEnd last)
        else takeConstant s.pos last
      else takeIdentifier s.pos last
    else if text ∈ keywords then
      goTo last
      scanKeyword text s.pos
    else if isUpper then takeConstant s.pos (← pathEnd last)
    else takeIdentifier s.pos last

/-! ## Punctuation -/

/-- The rounds of `numberEnd`. -/
def numberEndFor : Nat → Nat → Scanning Nat
  | 0, _ => stuck
  | fuel + 1, i => do
    let s ← get
    if i < s.source.length then
      let c ← charAt i
      if Text.isAlphanumeric c ∨ c = '_' then numberEndFor fuel (i + 1)
      else if c = '.' ∧ s.source[i + 1]?.any Text.isDigit then numberEndFor fuel (i + 1)
      else return i
    else return i

/-- Where the number ends that goes on at `i`. -/
def numberEnd (i : Nat) : Scanning Nat := loop fun fuel => numberEndFor fuel i

/-- Go on to `i`, where an operand is complete. -/
def skipValue (i : Nat) : Scanning Unit := do
  goTo i
  markValue

/-- Go on to `i`, where an operand is expected. -/
def skipOperator (i : Nat) : Scanning Unit := do
  goTo i
  markOperator

/-- Go on to `i`, where the name of a method is expected. -/
def skipDot (i : Nat) : Scanning Unit := do
  goTo i
  markDot

/-- Where a symbol ends whose word characters end at `last`. -/
def symbolEnd (last : Nat) : Scanning Nat := do
  let s ← get
  if last < s.source.length then
    let c ← charAt last
    if c = '?' ∨ c = '!' ∨ c = '=' then
      if s.startsAt ['=', '>'] last then return last else return last + 1
    else return last
  else return last

/-- How many characters the operator has of which a symbol may consist, after a colon at the
    position. -/
def symbolOperator : Scanning Nat := do
  let s ← get
  if s.valueExpected then operatorAt (s.pos + 1) else return 0

/-- Read from a colon on, after which `next` follows. -/
def scanColon (next : Option Char) : Scanning Unit := do
  let s ← get
  if next = some ':' then skipDot (s.pos + 2)
  else if next = some '\x27' ∨ next = some '"' then
    goTo (s.pos + 1)
    skipString (next.getD '"')
    markValue
  else if next.any isWordStart then
    skipValue (← symbolEnd (← scanWhile isWordChar (s.pos + 1)))
  else
    -- Where an operand is expected, an operator may follow as the name of a symbol.
    let n ← symbolOperator
    if 0 < n then skipValue (s.pos + 1 + n) else skipOperator (s.pos + 1)

/-- Read a bracket or an operator `c`, after which `next` follows. -/
def scanSign (c : Char) (next : Option Char) : Scanning Unit := do
  let s ← get
  if isOpening c then
    modify fun s => { s with depth := s.depth + 1 }
    skipOperator (s.pos + 1)
  else if isClosing c then
    modify fun s => { s with depth := s.depth - 1 }
    skipValue (s.pos + 1)
  else if c = ';' then
    goTo (s.pos + 1)
    closeEndless
    markOperator
  else if c = '.' ∧ next ≠ some '.' then skipDot (s.pos + 1)
  else if c = '&' ∧ next = some '.' then skipDot (s.pos + 2)
  else if c = '.' ∧ next = some '.' then
    skipOperator (s.pos + if s.startsAt ['.', '.', '.'] s.pos then 3 else 2)
  else skipOperator (s.pos + 1)

/-- Announce a heredoc if one starts at the position, where `c` stands and `next` follows. -/
def tryHeredocAt (c : Char) (next : Option Char) : Scanning Bool := do
  if c = '<' ∧ next = some '<' then tryHeredoc else return false

/-- Read punctuation that starts with `c`. -/
def scanPunctuation (c : Char) : Scanning Unit := do
  let s ← get
  let next := s.source[s.pos + 1]?
  if isQuote c then
    skipString c
    markValue
  else if c = ':' then scanColon next
  else if c = '@' then
    skipValue (← scanWhile isWordChar (if next = some '@' then s.pos + 2 else s.pos + 1))
  else if c = '$' then
    if next.any isWordStart then skipValue (← scanWhile isWordChar (s.pos + 1))
    else skipValue (min (s.pos + 2) s.source.length)
  else if c.isDigit then skipValue (← numberEnd s.pos)
  else if c = '%' ∧ s.operandMayStart ∧ s.atPercentLiteral then
    skipPercentLiteral
    markValue
  -- Where no operand may start, it divides.
  else if c = '/' ∧ s.operandMayStart then
    skipRegex
    markValue
  else if c = '?' ∧ s.valueExpected ∧ s.atCharLiteral then
    skipValue (s.pos + if s.startsAt ['\\'] (s.pos + 1) then 3 else 2)
  else if ← tryHeredocAt c next then markValue
  else scanSign c next

/-! ## The main loop -/

/-- Read what starts with `c` at the position. -/
def scanAt (c : Char) : Scanning Unit := do
  let s ← get
  if c = '\n' then scanNewline
  else if isGap c then goTo (s.pos + 1)
  else if c = '\\' ∧ s.startsAt ['\n'] (s.pos + 1) then
    goTo (s.pos + 2)
    beginLine
  else if c = '#' then scanComment
  else if isWordStart c then scanWord
  else scanPunctuation c

/-- One iteration of the main loop.  The answer says whether there may be another one. -/
def iteration : Scanning Bool := do
  let s ← get
  if s.pos = s.lineStart ∧ s.atEndMarker then return false
  else if s.pos = s.lineStart ∧ s.atEmbeddedDocument then
    skipEmbeddedDocument
    return true
  else
    scanAt (← charAt s.pos)
    return true

/-- The rounds of `mainLoop`. -/
def mainLoopFor : Nat → Scanning Unit
  | 0 => stuck
  | fuel + 1 => do
    let s ← get
    if s.pos < s.source.length then
      if ← iteration then mainLoopFor fuel else return ()
    else return ()

/-- The main loop. -/
def mainLoop : Scanning Unit := loop mainLoopFor

/-- The rounds of `closeAllEndless`. -/
def closeAllEndlessOf : List Nat → Scanning Unit
  | [] => return ()
  | _ :: outer => do
    popEndless
    emitEnd
    closeAllEndlessOf outer

/-- Close all endless definitions. -/
def closeAllEndless : Scanning Unit := do closeAllEndlessOf (← get).endless

/-- Report the first of the heredocs whose bodies did not come. -/
def reportHeredoc : Scanning Unit := do
  let s ← get
  if s.heredocs.isEmpty then return ()
  else
    let heredoc ← item s.heredocs 0
    unterminated (.heredoc (String.ofList heredoc.terminator)) s.line

/-- Report the blocks that are still open. -/
def reportBlocks : Scanning Unit := do
  let s ← get
  if s.blocks.isEmpty then return () else emit (.unclosedBlocks s.blocks.length)

/-- Say what is left to say where the text ends. -/
def finish : Scanning Unit := do
  reportHeredoc
  closeAllEndless
  reportBlocks

/-- Read the whole text. -/
def tokenize : Scanning Unit := do
  mainLoop
  finish

end Scanning

/-- The scanner at the start of a text. -/
def Scanner.start (limit : Nat) (strict : Bool) (file : Option String) (source : String) :
    Scanner :=
  { source := source.toList, limit, strict, file }

end ScopeTags.Source
