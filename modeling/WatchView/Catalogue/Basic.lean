import WatchView.Rule
import WatchView.TypeTree.Pattern
import WatchView.TypeTree.Reader
/-!
# The catalogue of rules

The catalogue holds the loaded files in the order they were loaded. Each
pattern of each rule is an entry, read once when its file is loaded; a
pattern that is no type name makes no entry. Where several entries cover a
type, those of later files come first, and within a file the order is that
of the file.
-/

namespace WatchView

/-- A rule under one of its patterns. -/
structure Entry where
  pattern : TypeTree
  visualizer : Visualizer

/-- A loaded file. -/
structure LoadedFile where
  /-- Where the rules come from. -/
  origin : String
  /-- The number of rules in the file. -/
  visualizerCount : Nat
  /-- The rules under those of their patterns that are type names. -/
  entries : List Entry

/-- The entries of a rule. -/
def Visualizer.entries (v : Visualizer) : List Entry :=
  v.patterns.filterMap fun text => (TypeTree.parse? text).map (Entry.mk · v)

/-- Load a file. -/
def LoadedFile.ofFile (file : RuleFile) : LoadedFile where
  origin := file.origin
  visualizerCount := file.visualizers.length
  entries := file.visualizers.flatMap Visualizer.entries

/-- The loaded files, the first one first. -/
structure Catalogue where
  files : List LoadedFile := []

namespace Catalogue

/-- The catalogue with further files. -/
def append (c : Catalogue) (files : List RuleFile) : Catalogue :=
  ⟨c.files ++ files.map LoadedFile.ofFile⟩

/-- The number of rules. -/
def visualizerCount (c : Catalogue) : Nat :=
  c.files.foldl (fun n file => n + file.visualizerCount) 0

/-- All entries in the order of precedence. -/
def entries (c : Catalogue) : List Entry := c.files.reverse.flatMap LoadedFile.entries

/-- The entries that cover a type, in the order of precedence. -/
def covering (c : Catalogue) (type : TypeTree) : List Entry :=
  c.entries.filter fun e => e.pattern.covers type

end Catalogue

end WatchView
