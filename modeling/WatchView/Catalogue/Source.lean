import WatchView.Rule
/-!
# Rule sources

A rule source supplies files of rules, already read: those it keeps, and
those described by a text it is given. Either may fail.
-/

namespace WatchView

/-- Why a source supplied no files. -/
inductive LoadError where
  /-- The files at a place cannot be had. -/
  | source (origin reason : String)
  /-- A text describes no rules. -/
  | text (reason : String)
deriving Repr, DecidableEq, Inhabited

/-- The error in words. -/
def LoadError.message : LoadError → String
  | source origin reason => s!"failed to load visualizers from '{origin}': {reason}"
  | text reason => s!"failed to load visualizers from text: {reason}"

/-- A supplier of rule files. -/
structure RuleSource where
  /-- The files it keeps, in the order to be loaded. -/
  files : Except LoadError (List RuleFile)
  /-- The files described by a text. -/
  ofText : String → Except LoadError (List RuleFile)

/-- A source of the given files that cannot read texts. -/
def RuleSource.ofFiles (files : List RuleFile) : RuleSource where
  files := .ok files
  ofText _ := .error (.text "static rule source cannot parse text")

end WatchView
