/-!
# Order

* `inOrder` : a list in the order of keys.
-/

namespace Avroc.Text

variable {α : Type}

/-- The list with an element put in front of the first that has no smaller key. -/
def insertInOrder (key : α → String) (x : α) : List α → List α
  | [] => [x]
  | y :: rest => if key x ≤ key y then x :: y :: rest else y :: insertInOrder key x rest

/-- The list in the order of the keys; elements with the same key keep their order. -/
def inOrder (key : α → String) : List α → List α
  | [] => []
  | x :: rest => insertInOrder key x (inOrder key rest)

end Avroc.Text
