import ScopeTags.Scan

/-!
# Tallies

A tally counts what scans took in and brought up.
-/

namespace ScopeTags

/-- Sums over scans. -/
structure Tally where
  tokens : Int := 0
  scopes : Int := 0
  skipped : Int := 0
  scans : Int := 0
deriving DecidableEq, Repr, Inhabited

namespace Tally

/-- Count one more scan. -/
def record (t : Tally) (tokens scopes skipped : Int) : Tally :=
  { tokens := t.tokens + tokens, scopes := t.scopes + scopes, skipped := t.skipped + skipped,
    scans := t.scans + 1 }

/-- Count a scan if it came to its end. -/
def recordRun (t : Tally) (run : Run) : Tally :=
  if run.fault.isNone then
    t.record run.final.consumed run.final.registry.size run.final.skipped
  else t

end Tally

end ScopeTags
