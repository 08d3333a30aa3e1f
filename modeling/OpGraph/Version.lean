/-!
# The version of the library

It stands in a module of its own, so that a release touches no other.
-/

namespace OpGraph

/-- The version of the library. -/
def version : String := "0.1.0"

end OpGraph
