import WatchView.Listing.Element
import WatchView.RowText
/-!
# Listings within listings

A synthetic row carries its text with it, which is made when the row is
counted. The other listings here pass on the children of some variable: the
value of an expression, what a smart pointer points to, or a child of a
variable. The variable is found when the listing is first asked.
-/

namespace WatchView

variable {σ ν : Type}

/-- The children of an expression's value, shown by its rule. -/
def Context.childListing (engine : Engine σ ν) (c : Context ν) (expression : String) :
    Run σ ν (Except EvalError (Listing ν)) := do
  match ← engine.evaluator.evaluate expression c.owner c.scope none with
  | .error e => return .error e
  | .ok answer => return .ok (← engine.childListing (← engine.decorate answer.toVariable))

namespace SyntheticListing

/-- Make the row, with its text. -/
def count (engine : Engine σ ν) (reach : Reach σ ν) (l : SyntheticListing ν) :
    Search σ ν (Except ExpandError Nat × SyntheticListing ν) := do
  let { owner, scope } := l.context
  match ← engine.format .value (engine.textWith reach .value owner) l.rule.display owner scope with
  | .error e => return (.error (.evaluation e), l)
  | .ok text => return (.ok 1, { l with row := some (.synthetic owner scope l.rule text) })

/-- The listing, settled. -/
def settled (engine : Engine σ ν) (reach : Reach σ ν) (l : SyntheticListing ν) :
    Search σ ν (Standing ν × SyntheticListing ν) := do
  match l.standing with
  | some standing => return (standing, l)
  | none =>
    let (standing, l) ← Standing.settle l.rule.guard
      (l.context.applies engine.evaluator l.rule.guard) (fun l => l.count engine reach) l
    return (standing, { l with standing := some standing })

/-- The rows in a window. -/
def rows (engine : Engine σ ν) (reach : Reach σ ν) (l : SyntheticListing ν)
    (start count : Nat) : Search σ ν (List (Variable ν) × SyntheticListing ν) := do
  let (standing, l) ← l.settled engine reach
  match standing with
  | .failed row => return (clip start count [row], l)
  | .counted _ => return (clip start count l.row.toList, l)

end SyntheticListing

namespace Listing

/-! ## Children of an expression's value -/

/-- Find the children of the value and count them. A blank expression has
none. -/
def countInlined (engine : Engine σ ν) (reach : Reach σ ν) (c : Context ν)
    (rule : ExpandedItemRule) (inner : Option (Listing ν)) :
    Search σ ν (Except ExpandError Nat × Option (Listing ν)) := do
  if Text.isBlankText rule.value then return (.ok 0, inner)
  else
    match ← c.childListing engine rule.value with
    | .error e => return (.error (.evaluation e), inner)
    | .ok l =>
      let (n, l) ← reach.count l
      return (.ok n, some l)

/-- The standing of inlined children, settled. -/
def settledInlined (engine : Engine σ ν) (reach : Reach σ ν) (c : Context ν)
    (rule : ExpandedItemRule) (standing : Option (Standing ν)) (inner : Option (Listing ν)) :
    Search σ ν (Standing ν × Option (Listing ν)) := do
  match standing with
  | some standing => return (standing, inner)
  | none =>
    Standing.settle rule.guard (c.applies engine.evaluator rule.guard)
      (fun inner => countInlined engine reach c rule inner) inner

/-! ## Children of what a smart pointer points to -/

/-- The children of what a smart pointer points to; none if it does not
apply. -/
def pointeeListing? (engine : Engine σ ν) (c : Context ν) (pointer : SmartPointer) :
    Run σ ν (Except EvalError (Option (Listing ν))) := do
  if Text.isBlankText pointer.value then return .ok none
  else
    match ← engine.evaluator.applies pointer.guard c.owner c.scope with
    | .error e => return .error e
    | .ok false => return .ok none
    | .ok true => return (← c.childListing engine pointer.value).map some

/-- What a smart pointer lists: a row of a failure, or a listing. A pointer
that does not apply or may fail leaves the children the variable has without
the rule. -/
def resolvedPointee (engine : Engine σ ν) (c : Context ν) (pointer : SmartPointer)
    (failure : Option (Variable ν)) (inner : Option (Listing ν)) :
    Run σ ν (Except (Variable ν) (Listing ν)) := do
  match failure, inner with
  | some row, _ => return .error row
  | none, some l => return .ok l
  | none, none =>
    match ← pointeeListing? engine c pointer with
    | .ok (some l) => return .ok l
    | .ok none => return .ok (← engine.childListing c.owner)
    | .error e =>
      if pointer.guard.optional then return .ok (← engine.childListing c.owner)
      else return .error (.error (Variable.failureText e.message))

/-! ## Children of a child -/

/-- The children of a child; none if there is no such child. -/
def resolvedChild (engine : Engine σ ν) (reach : Reach σ ν) (parent : Variable ν) (index : Nat)
    (inner : Option (Listing ν)) : Search σ ν (Listing ν) := do
  match inner with
  | some l => return l
  | none =>
    match ← engine.child? reach parent index with
    | some child => engine.childListing child
    | none => return .empty

end Listing

end WatchView
