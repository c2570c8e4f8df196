import WatchView.Session
/-!
# The children of a variable

A rule that says how to expand a value decides the children of the variables
it applies to; without one, a smart pointer has the children of what it
points to. All other variables have the children the debugger knows.

`childListing` only sets up the listing. Nothing is evaluated before the
listing is counted or asked for rows.
-/

namespace WatchView

namespace Engine

variable {σ ν : Type}

/-! ## Expansions -/

/-- The first page of a listing, which is kept for the pages to share. -/
def firstPage (engine : Engine σ ν) (limit : Property) (l : Listing ν) : Run σ ν (Listing ν) := do
  return .page (← keepListing l) 0 (engine.options.get limit)

/-- The row of an unknown element. -/
def unsupportedRow (element : String) : Variable ν := .warning s!"<{element}> is not supported."

/-- The name of the element of a custom list. -/
def customListElement : String := "CustomListItems"

/-- The listing of one element. Those that can be long are paged. -/
def elementListing (engine : Engine σ ν) (c : Context ν) : ExpandItem → Run σ ν (Listing ν)
  | .item rule => return .item { context := c, rule }
  | .synthetic rule => return .synthetic { context := c, rule }
  | .expandedItem rule => return .inlined c rule none none
  | .indexList rule => engine.firstPage .indexListLimit (.indexList { context := c, rule })
  | .array rule => engine.firstPage .arrayLimit (.array { context := c, rule })
  | .nodes rule => engine.firstPage rule.links.limitProperty (.nodes { context := c, rule })
  | .customList rule =>
    if engine.options.flag .customLists then
      engine.firstPage .customListLimit (.custom { context := c, rule })
    else return .unsupported (unsupportedRow customListElement)
  | .unsupported element => return .unsupported (unsupportedRow element)

/-- The listing of an expansion. -/
def expandListing (engine : Engine σ ν) (c : Context ν) (expand : Expand) :
    Run σ ν (Listing ν) := do
  let members ← expand.items.mapM (engine.elementListing c)
  return .group c.owner members expand.hideRawView 0

/-- The listing of an expansion that may be missing. -/
def expandListing? (engine : Engine σ ν) (c : Context ν) : Option Expand → Run σ ν (Listing ν)
  | some expand => engine.expandListing c expand
  | none => return .group c.owner [] true 0

/-- The listing of a rule, or `plain` if the rule does not say. A tagged
variable has as many children as the expansion has elements. -/
def ruleListing (engine : Engine σ ν) (plain : Run σ ν (Listing ν)) (v : Variable ν) :
    Run σ ν (Listing ν) := do
  match ← engine.findRule v with
  | none => plain
  | some m =>
    let c : Context ν := { owner := v, scope := scopeOf m }
    let tag := (← engine.facts v).tag
    match m.visualizer.expand, m.visualizer.smartPointer with
    | some expand, _ =>
      let l ← engine.expandListing c expand
      return if tag.isSome then .registers expand.items.length l else l
    | none, some pointer =>
      let l := .pointee c pointer none none
      return if tag.isSome then .registers 0 l else l
    | none, none => plain

/-- Whether the rule of a variable may list children, or `plain` if the rule
does not say. -/
def ruleMightHaveChildren (engine : Engine σ ν) (plain : Run σ ν Bool) (v : Variable ν) :
    Run σ ν Bool := do
  match ← engine.findRule v with
  | none => plain
  | some m =>
    match m.visualizer.expand with
    | some expand =>
      if !expand.items.isEmpty then return true
      else if expand.hideRawView then return false
      else plain
    | none => if m.visualizer.smartPointer.isSome then return true else plain

/-! ## Variables -/

/-- The children of a variable. -/
def childListing (engine : Engine σ ν) : Variable ν → Run σ ν (Listing ν)
  | .debugger handle => do
    return .fixed ((engine.debugger.children (← get).target handle).map .debugger)
  | .failure .. => return .empty
  | .renamed inner .. => engine.childListing inner
  | .ruled inner => do
    if ← engine.isRuled inner then engine.ruleListing (engine.childListing inner) inner
    else engine.childListing inner
  | .asChild inner index => return .ofChild inner index none
  | .more listing offset size => return .page listing offset size
  | .synthetic owner scope rule _ => engine.expandListing? { owner, scope } rule.expand

/-- Whether a variable may have children. -/
def mightHaveChildren (engine : Engine σ ν) : Variable ν → Run σ ν Bool
  | .debugger handle => return engine.debugger.mightHaveChildren (← get).target handle
  | .failure .. => return false
  | .renamed inner .. => engine.mightHaveChildren inner
  | .ruled inner => do
    if ← engine.isRuled inner then
      engine.ruleMightHaveChildren (engine.mightHaveChildren inner) inner
    else engine.mightHaveChildren inner
  | .asChild .. => return true
  | .more .. => return true
  | .synthetic _ _ rule _ => return rule.expand.any fun expand => !expand.items.isEmpty

end Engine

end WatchView
