import ScopeTags.Text.Blank

/-!
# Places in source files

A `Location` says where a token stands or where a scope got its name.  A `Site` says where a fault
arose, and any part of it may be missing.
-/

namespace ScopeTags

/-- A place in a source file.  Lines and columns count from one; a token that stands for no
    character of the source has zero for both. -/
structure Location where
  line : Int := 0
  column : Int := 0
  file : Option String := none
deriving DecidableEq, Repr, Inhabited

namespace Location

/-- The place of what stands nowhere in a source. -/
def unknown : Location := {}

/-- The place in one line, the file first if it has a name. -/
def render (l : Location) : String :=
  let place := s!"{l.line}:{l.column}"
  match l.file with
  | some file => if file.isEmpty then place else s!"{file}:{place}"
  | none => place

end Location

/-- The place of a fault, as far as it is known. -/
structure Site where
  line : Option Int := none
  column : Option Int := none
  file : Option String := none
deriving DecidableEq, Repr, Inhabited

namespace Site

/-- A part of the label, followed by a colon.  Zero counts as not known. -/
def part : Option Int → String
  | none => ""
  | some n => if n = 0 then "" else s!"{n}:"

/-- The parts of the site that are known, each followed by a colon.  A column says nothing without
    a line. -/
def parts (s : Site) : String :=
  let file := match s.file with
    | none => ""
    | some file => if file.isEmpty then "" else s!"{file}:"
  let line := part s.line
  file ++ line ++ (if line.isEmpty then "" else part s.column)

/-- What a message puts in front to say where the fault arose: nothing if nothing is known, else
    the known parts without the colons at their end, and a space. -/
def label (s : Site) : String :=
  let known := s.parts
  if known.isEmpty then "" else String.ofList (Text.trimEnd (· = ':') known.toList) ++ " "

end Site

end ScopeTags
