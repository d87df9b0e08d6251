import Petri.Datum.Access
import Petri.Datum.Render

/-!
# Summaries of counts
-/

namespace Petri.Datum

/-- The counts of a mapping as text, every entry on its own, or a dash for an absent or empty value. -/
def summarize (counts : Datum) : Except Fault String := do
  if counts.truthy then
    return summary (← (← counts.entries).mapM fun e => return (← e.1.label, ← e.2.label))
  else return summary []

end Petri.Datum
