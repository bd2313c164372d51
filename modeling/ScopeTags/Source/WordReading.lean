import ScopeTags.Source.Reader

/-!
# Reading of words

A word is a label, a method name after a dot, a keyword, a constant or an identifier.  A label
yields no token.  Keywords open and close blocks, and the one that defines a method takes the
method's name along.
-/

namespace ScopeTags.Source

/-- Whether `cs`, just past a word, makes that word a label: one colon, and not two. -/
def isLabelColon : List Char → Bool
  | ':' :: ':' :: _ => false
  | ':' :: _ => true
  | _ => false

namespace Reader

/-- The keyword that stands next, as a token. -/
def keywordHere (r : Reader) (word : String) (keywordClass : KeywordClass)
    (construct : Option Construct) : Event :=
  .token (Token.keyword word (some keywordClass) construct r.location)

/-- Take `n` characters as a constant. -/
def takeConstant (r : Reader) (n : Nat) : Reading :=
  ([.token (Token.constant (String.ofList (r.rest.take n)) r.location)], (r.hop n).markValue)

/-- Take `n` characters as an identifier. -/
def takeIdentifier (r : Reader) (n : Nat) : Reading :=
  ([.token (Token.identifier (String.ofList (r.rest.take n)) r.location)],
    { (r.hop n).markValue with afterIdentifier := true })

/-- Open the body of a method definition: an endless one ends where the expression does. -/
def openDefinition (r : Reader) (endless : Bool) : Reader :=
  if endless then { r with endless := r.depth :: r.endless } else r.push .construct

/-- Read a method definition, from its keyword to its name. -/
def readDefinition (r : Reader) : Reading :=
  -- The receiver, if there is one, ends just before the name.
  let head := r.hop 3
  let spaces := spacesLength head.rest
  let receiver := receiverLength (head.rest.drop spaces)
  let there := head.hop (spaces + receiver)
  let n := methodNameLength there.rest
  let construct := if r.inSingletonClass ∨ 0 < receiver then .method else .instanceMethod
  let opened := there.openDefinition (0 < n ∧ isEndless (there.rest.drop n))
  let keyword := r.keywordHere "def" .newScope (some construct)
  if 0 < n then
    ([keyword, .token (Token.identifier (String.ofList (there.rest.take n)) there.location)],
      (opened.hop n).markValue)
  else ([keyword], opened.markOperator)

/-- Read the keyword of a class, which opens the body of a singleton class before `<<`. -/
def readClass (r : Reader) : Reading :=
  let next := (r.hop 5).markOperator
  match next.rest.dropWhile isSpace with
  | '<' :: '<' :: _ =>
    ([r.keywordHere "class" .other none], next.push .singletonClass)
  | _ => ([r.keywordHere "class" .newScope (some .classDef)], next.push .construct)

/-- Read an `end`, which closes the innermost block. -/
def readEnd (r : Reader) : Reading :=
  let next := (r.hop 3).markValue
  match r.blocks with
  | [] => ([.strayEnd r.line, r.keywordHere "end" .scopeEnd none], next)
  | .construct :: blocks => ([r.keywordHere "end" .scopeEnd none], { next with blocks })
  | _ :: blocks => ([r.keywordHere "end" .other none], { next with blocks })

/-- Open the block of a keyword. -/
def openBlock (r : Reader) (word : String) : Reader :=
  let opened := r.push .plain
  if word ∈ loopKeywords then { opened with loopLine := some r.line } else opened

/-- Open the block that `word` opens where it stands, if any.  The `do` of a loop header opens none
    of its own. -/
def openBlockOf (r : Reader) (word : String) : Reader :=
  -- After an operand such a keyword is a modifier, which needs no `end`.
  if word ∈ modifierKeywords then if r.valueExpected then r.openBlock word else r
  else if word ∈ blockKeywords then r.openBlock word
  else if word = "do" then
    if r.loopLine = some r.line then { r with loopLine := none } else r.push .plain
  else r

/-- Read any other keyword. -/
def readOtherKeyword (r : Reader) (word : String) : Reading :=
  let next := (r.openBlockOf word).hop word.length
  ([r.keywordHere word .other none],
    if word ∈ operandKeywords then next.markValue else next.markOperator)

/-- Read the keyword `word`. -/
def readKeyword (r : Reader) (word : String) : Reading :=
  if word = "def" then r.readDefinition
  else if word = "module" then
    ([r.keywordHere "module" .newScope (some .moduleDef)], ((r.hop 6).markOperator).push .construct)
  else if word = "class" then r.readClass
  else if word = "end" then r.readEnd
  else r.readOtherKeyword word

/-- Read a word. -/
def readWord (r : Reader) : Reading :=
  let word := wordAt r.rest
  let rest := r.rest.drop word.length
  let text := String.ofList word
  -- After a dot every word is the name of a method or a constant, a keyword too.
  if r.afterDot then
    if startsUppercase word ∧ text ∉ keywords then
      let rooted := [':', ':'].isPrefixOf r.before
      r.takeConstant (word.length + if rooted then pathLength rest else 0)
    else r.takeIdentifier word.length
  else if isLabelColon rest then ([], (r.hop (word.length + 1)).markOperator)
  else if text ∈ keywords then r.readKeyword text
  else if startsUppercase word then r.takeConstant (word.length + pathLength rest)
  else r.takeIdentifier word.length

end Reader

end ScopeTags.Source
