import ScopeTags.Json
import ScopeTags.Result
import ScopeTags.SortedSet

/-!
# Reports

Scopes and results as JSON values.  A record has its members in the order of its fields, and the
tags of a scope in the order in which they came, with the values of each tag sorted.  A report is a
record whose keys are sorted throughout, so that it does not depend on the order of the tags.
-/

namespace ScopeTags

/-- The tags as an object, with an array of values in increasing order for each name. -/
def Tags.toRecord (tags : Tags) : Json :=
  .object (tags.groups.map fun g => (g.1, .array ((SortedSet.ofList g.2).toList.map .string)))

/-- The report on tags. -/
def Tags.toJson (tags : Tags) : Json := tags.toRecord.sorted

/-- A location, or null where it is none in a source. -/
def Location.toRecord (l : Location) : Json :=
  if l.line = 0 then .null
  else .object [
    ("lineno", .number l.line),
    ("col_offset", .number l.column),
    ("source_file", .ofOption .string l.file)]

/-- The report on a location. -/
def Location.toJson (l : Location) : Json := l.toRecord.sorted

/-- The record of the scope of number `i`.  It refers to its parent by id. -/
def Registry.toRecord (r : Registry) (i : Nat) : Json :=
  match r.get? i with
  | none => .null
  | some s => .object [
    ("id", .number s.id),
    ("name", .ofOption .string s.name),
    ("fqn", .ofOption .string (r.qualifiedName i)),
    ("type", .string s.type),
    ("status", .string s.status.text),
    ("tags", s.tags.toRecord),
    ("parent_id", .ofOption (fun p => .number p.id) (s.parent.bind r.get?)),
    ("location", s.location.toRecord)]

/-- The report on the scope of number `i`. -/
def Registry.describe (r : Registry) (i : Nat) : Json := (r.toRecord i).sorted

/-- The record of a result, with all of its scopes. -/
def Result.toRecord (r : Result) : Json :=
  .object [
    ("source_file", .ofOption .string r.file),
    ("token_count", .number r.tokens),
    ("skipped_tokens", .number r.skipped),
    ("entities", .array (r.all.map r.registry.toRecord))]

/-- The report on a result. -/
def Result.toJson (r : Result) : Json := r.toRecord.sorted

/-- The types of the plain values that are no scopes and no results. -/
inductive PlainType where
  | null
  | flag
  | integer
  | decimal
  | text
  | list
  | mapping
deriving DecidableEq, Repr

/-- The name of the type. -/
def PlainType.label : PlainType → String
  | null => "NoneType"
  | flag => "bool"
  | integer => "int"
  | decimal => "float"
  | text => "str"
  | list => "list"
  | mapping => "dict"

/-- What the attempt to report a plain value yields. -/
def PlainType.fault (t : PlainType) : Fault := .unserializable t.label

end ScopeTags
