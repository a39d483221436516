import PrologTerms.Heap.Basic
import PrologTerms.Iteration

/-!
# Equality of terms

Two terms are equal if they look the same all the way down; an unbound variable is equal only to
itself. Pairs of terms still to be compared are kept on a list, so that the depth of the terms does
not matter.
-/

namespace PrologTerms

namespace Heap

/-- Compares the first pair of the list. The loop ends with the answer, or with `none` if a term is
not well-formed. -/
def compareStep (h : Heap) : List (Cell × Cell) → Progress (List (Cell × Cell)) (Option Bool)
  | [] => .done (some true)
  | (a, b) :: pairs =>
    match h.view? a, h.view? b with
    | some va, some vb =>
      if va.cell = vb.cell then .more pairs
      else
        match va, vb with
        | .compound _ f as, .compound _ g bs =>
          if f = g then .more (as.zip bs ++ pairs) else .done (some false)
        | _, _ => .done (some false)
    | _, _ => .done none

/-- Are the terms equal? There is no answer for terms that run in circles or are not well-formed. -/
def equal? (h : Heap) (a b : Cell) : Option Bool :=
  (Iteration.run h.compareStep (Iteration.roundsFor h.size) [(a, b)]).join

end Heap

end PrologTerms
