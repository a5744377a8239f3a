import Backchain.Unification

/-!
# Settings of a search

How deep a search may go and how strictly terms are matched.
-/

namespace Backchain

/-- No search goes deeper than this, whatever depth is asked for. -/
def depthLimit : Nat := 1000

structure Settings where
  maxDepth : Nat := 10
  matching : Matching := .sameSymbol
deriving DecidableEq

namespace Settings

def withDepth (settings : Settings) (depth : Nat) : Settings :=
  { settings with maxDepth := min depth depthLimit }

def withMatching (settings : Settings) (matching : Matching) : Settings :=
  { settings with matching := matching }

def depthBound (settings : Settings) : Nat := min settings.maxDepth depthLimit

theorem depthBound_le (settings : Settings) : settings.depthBound ≤ depthLimit :=
  Nat.min_le_right _ _

end Settings

end Backchain
