import Netplay.ClauseMeaning
import Netplay.ComparisonRange
import Netplay.PacketCount

/-!
# Where ranges end

The range of a predicate ends at a key of its index. Only that of a port below 0 goes on to
the largest `uint64_t`, for `port - 1` is a negative `int`. A clause with a port below 0 is
counted to the end only if another predicate on the same port bounds the range.
-/

namespace Netplay

open Text NetplayUtils FilterMeaning

/-! ## The ranges of predicates -/

namespace Predicate

end Predicate

namespace NetplayUtils

end NetplayUtils

namespace Attribute

end Attribute

namespace NetplayUtils

end NetplayUtils

/-! ## The ranges of a reduced clause -/

namespace QueryPlanner

end QueryPlanner

end Netplay
