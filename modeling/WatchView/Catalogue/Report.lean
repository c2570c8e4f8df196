import WatchView.Catalogue.RuleBook
/-!
# Reports on the rule book

A report counts the files, the kept answers and the rules. At the first
level of detail it lists the answers in the order of their names, at the
second also every file with its patterns.
-/

namespace WatchView

namespace RuleBook

/-- The line under a heading. -/
def ruledLine : String := "==========================================================="

/-- The lines on a loaded file. -/
def fileLines (file : LoadedFile) : List String :=
  [s!"File: {file.origin}", s!"Count: {file.visualizerCount}", ruledLine] ++
    (file.entries.map fun e =>
      "Name: " ++ e.pattern.fullName ++ "\t\tPriority: " ++ e.visualizer.priority.label) ++ [""]

/-- The line on a kept answer. -/
def answerLine (name : String) (answer : Option RuleMatch) : String :=
  "Lookup type: " ++ name ++ "\t\tResolved Type: " ++
    (answer.map fun m => m.visualizer.name).getD ""

/-- The lines of a report. -/
def reportLines (b : RuleBook) (detail : Nat) : List String :=
  let files := b.catalogue.files
  ["", s!"typeVisualizers.Count = {files.length}", s!"vizCache.Count = {b.answers.size}",
    s!"Total Visualizer Count = {b.catalogue.visualizerCount}"] ++
  (if 2 ≤ detail then
    ["", s!"Loaded Natvis files ({files.length}):"] ++ files.flatMap fileLines
  else []) ++
  (if 1 ≤ detail then
    ["", s!"Cached Visualizers ({b.answers.size})", ruledLine] ++
      b.answers.sorted.map fun p => answerLine p.1 p.2
  else []) ++
  [""]

/-- The report, each line ended. -/
def report (b : RuleBook) (detail : Nat) : String :=
  String.join ((b.reportLines detail).map (· ++ "\n"))

end RuleBook

end WatchView
