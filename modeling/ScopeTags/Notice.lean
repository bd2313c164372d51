import ScopeTags.Scope
import ScopeTags.Source.Event

/-!
# Notices

Operations leave notices of what they did, in order.  A notice is kept as what happened; its line is
the level, the channel it goes to, and the wording.
-/

namespace ScopeTags

/-- The channel of that name: all channels are branches of one. -/
def channel (name : String) : String :=
  if name = "tagscan" ∨ "tagscan.".toList.isPrefixOf name.toList then name else s!"tagscan.{name}"

/-- The file for a notice, or what stands for it where it has no name. -/
def fileOr (substitute : String) (file : Option String) : String :=
  match file with
  | some file => if file.isEmpty then substitute else file
  | none => substitute

/-- Something that happened. -/
inductive Notice where
  /-- A host changed its status. -/
  | transition (host source target event : String)
  /-- A scope opened a scope inside of it. -/
  | spawned (parent child : Int)
  /-- A tag was left out because its name is not allowed. -/
  | dropped (tag : String)
  /-- A scope of that qualified name was closed. -/
  | closed (name : Option String)
  /-- A scope without a name stays open, and the `end` goes to its parent. -/
  | leftOpen (file : Option String) (line : Int) (status : Status) (id : Int)
  /-- A token was passed over because of a fault. -/
  | skipped (file : Option String) (line : Int) (text : String) (fault : Fault)
  /-- An outermost scope was closed. -/
  | rootClosed (line : Int)
  /-- A scan came to its end. -/
  | scanned (file : Option String) (tokens scopes : Nat)
  /-- A construct is still open where the text ends. -/
  | unterminated (file : Option String) (line : Nat) (what : Source.Unterminated)
  /-- An `end` closes nothing. -/
  | strayEnd (file : Option String) (line : Nat)
  /-- Blocks are still open where the text ends. -/
  | unclosedBlocks (file : Option String) (count : Nat)
deriving DecidableEq, Repr

namespace Notice

/-- The level of a notice. -/
def level : Notice → String
  | leftOpen .. | skipped .. => "WARNING"
  | _ => "DEBUG"

/-- The channel of a notice. -/
def topic : Notice → String
  | transition .. => "fsm"
  | spawned .. | dropped .. | closed .. => "entity"
  | leftOpen .. | skipped .. | rootClosed .. | scanned .. => "scanner"
  | unterminated .. => "lexer.scanners.literals"
  | strayEnd .. => "lexer.scanners.words"
  | unclosedBlocks .. => "lexer.core"

/-- The wording of a notice. -/
def message : Notice → String
  | transition host source target event => s!"{host}: {source} -> {target} via {event}"
  | spawned parent child => s!"Entity {parent} spawned child {child}"
  | dropped tag => "Dropped tag " ++ Text.quoted tag ++ " (not in allow-list)"
  | closed name => "Closed " ++ name.getD "None"
  | leftOpen file line status id =>
    fileOr "<tokens>" file ++
      s!":{line}: leaving {status.text} entity {id} open; 'end' closes its parent"
  | skipped file line text fault =>
    fileOr "<tokens>" file ++ s!":{line}: skipping " ++ Text.quoted text ++ ": " ++ fault.message
  | rootClosed line => s!"Root scope closed at line {line}; starting a new root"
  | scanned file tokens scopes =>
    "Scanned " ++ fileOr "<tokens>" file ++ s!": {tokens} tokens, {scopes} entities"
  | unterminated file line what =>
    fileOr "<source>" file ++ s!":{line}: unterminated " ++ what.label
  | strayEnd file line => fileOr "<source>" file ++ s!":{line}: \x60end\x60 without an open block"
  | unclosedBlocks file count =>
    fileOr "<source>" file ++ s!": {count} block(s) still open at end of input"

/-- The notice that a host went from one status to another, if it did. -/
def ofChange {σ : Type} [BEq σ] [Shown σ] (host event : String) (source target : σ) :
    List Notice :=
  if target == source then []
  else [.transition host (Shown.label source) (Shown.label target) event]

/-- The line of a notice. -/
def line (n : Notice) : String :=
  n.level ++ " " ++ channel n.topic ++ ": " ++ n.message

end Notice

end ScopeTags
