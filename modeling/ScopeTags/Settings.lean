import ScopeTags.Fault
import ScopeTags.SortedSet

/-!
# Settings

Settings say which tags are of interest and what to do about a token that does not fit.
-/

namespace ScopeTags

/-- What to do about a token that does not fit. -/
inductive Policy where
  /-- Stop with a fault. -/
  | raise
  /-- Pass over the token. -/
  | skip
deriving DecidableEq, Repr

namespace Policy

/-- The name of the policy. -/
def text : Policy → String
  | raise => "raise"
  | skip => "skip"

/-- The policy of that name. -/
def ofScalar (value : Scalar) : Except Fault Policy :=
  if value = .text "raise" then .ok raise
  else if value = .text "skip" then .ok skip
  else .error (.unknownPolicy value)

end Policy

/-- The settings of a scan.  No allowed names at all means that every name is allowed. -/
structure Settings where
  allowed : SortedSet String := ∅
  policy : Policy := .raise
deriving DecidableEq

/-- Settings given by a caller; what is not given stays as it is. -/
structure Overrides where
  allowed : Option (List String) := none
  policy : Option Scalar := none
deriving DecidableEq, Repr

namespace Settings

/-- Whether tags of that name are of interest. -/
def accepts (s : Settings) (tag : String) : Bool :=
  s.allowed.isEmpty || s.allowed.contains tag

/-- The settings with what a caller gave in place of what they said. -/
def override (s : Settings) (o : Overrides) : Except Fault Settings := do
  let policy ← match o.policy with
    | none => pure s.policy
    | some value => Policy.ofScalar value
  return { allowed := (o.allowed.map SortedSet.ofList).getD s.allowed, policy }

end Settings

/-- Whether the text `part` stands somewhere in a text. -/
def occursIn (part : List Char) : List Char → Bool
  | [] => part.isEmpty
  | c :: cs => part.isPrefixOf (c :: cs) || occursIn part cs

/-- A choice of tag names for one comment, in place of the settings. -/
inductive Filter where
  /-- The names in a list. -/
  | names (allowed : List String)
  /-- The names that stand somewhere in a text. -/
  | within (text : String)
deriving DecidableEq, Repr

namespace Filter

/-- Whether tags of that name are of interest; an empty choice leaves out none. -/
def accepts (tag : String) : Filter → Bool
  | names allowed => allowed.isEmpty || allowed.contains tag
  | within text => text.isEmpty || occursIn tag.toList text.toList

end Filter

end ScopeTags
