set_option autoImplicit false

/-!
Judging a list by a rule for its elements. Lists of different lengths are refused at once; otherwise
elements are compared in order, up to the first pair that the rule refuses.
-/
namespace Lexis

@[ext]
structure Acceptance (α β : Type) where
  accepted : Bool
  compared : List (α × β)
  deriving DecidableEq, Repr

namespace Acceptance

variable {α β : Type}

def ofPairs (rule : α → β → Bool) : List (α × β) → Acceptance α β
  | [] => ⟨true, []⟩
  | (a, b) :: rest =>
    if rule a b then
      let x := ofPairs rule rest
      ⟨x.accepted, (a, b) :: x.compared⟩
    else ⟨false, [(a, b)]⟩

def ofLists (rule : α → β → Bool) (xs : List α) (ys : List β) : Acceptance α β :=
  if xs.length = ys.length then ofPairs rule (xs.zip ys) else ⟨false, []⟩

end Acceptance

end Lexis
