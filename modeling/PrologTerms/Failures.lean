/-!
# Going on in spite of failures

Cutting a text into tokens and reading clauses both can go on behind an error. How far the results
are wanted is said by the number of errors that end them.
-/

namespace PrologTerms

/-- The front of a list of results that ends with the given number of failures, or all of the list
if there are fewer. -/
def untilFailures {α : Type} (failed : α → Bool) : Nat → List α → List α
  | 0, _ => []
  | _ + 1, [] => []
  | n + 1, a :: as =>
    a :: if failed a then untilFailures failed n as else untilFailures failed (n + 1) as

end PrologTerms
