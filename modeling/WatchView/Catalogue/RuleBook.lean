import WatchView.Bindings
import WatchView.Catalogue.Builtin
import WatchView.Catalogue.Choice
import WatchView.Catalogue.Source
/-!
# The rule book

The rule book is a catalogue with the answers already given. An answer is
kept under the name of the variable's own type, or under the name of its
tag, and is given again without another look at the catalogue; that there is
no rule is an answer too. Whatever changes the catalogue drops all answers.
-/

namespace WatchView

/-- A catalogue and the answers it gave. -/
structure RuleBook where
  catalogue : Catalogue
  /-- The answers by the name they were given for. -/
  answers : Bindings (Option RuleMatch) := {}

namespace RuleBook

/-- The built-in rules alone. -/
def builtin (options : Options) : RuleBook where
  catalogue := Catalogue.append {} [Builtin.file (options.flag .stringRule)]

/-- The book with further files. -/
def addFiles (b : RuleBook) (files : List RuleFile) : RuleBook where
  catalogue := b.catalogue.append files

/-- Start again from the built-in rules and the files of a source. If the
source fails, the built-in rules remain. -/
def reload (options : Options) (source : RuleSource) : Except LoadError Unit × RuleBook :=
  let book := builtin options
  if options.flag .loadFiles then
    match source.files with
    | .ok files => (.ok (), book.addFiles files)
    | .error e => (.error e, book)
  else (.ok (), book)

/-- Add the files described by a text. If there are none, the book stays as
it is. -/
def loadText (source : RuleSource) (text : String) (b : RuleBook) :
    Except LoadError Unit × RuleBook :=
  match source.ofText text with
  | .ok files => (.ok (), b.addFiles files)
  | .error e => (.error e, b)

/-- The answer kept under `name`, or else `answer`, which is kept from now
on. It is not worked out where one is kept. -/
@[macro_inline] def answerFor (b : RuleBook) (name : String) (answer : Option RuleMatch) :
    Option RuleMatch × RuleBook :=
  match b.answers.get? name with
  | some kept => (kept, b)
  | none => (answer, { b with answers := b.answers.bind name answer })

/-- The rule for a tag, kept under the name of the tag. -/
def findTagged (options : Options) (tag : Tag) (b : RuleBook) : Option RuleMatch × RuleBook :=
  b.answerFor tag.typeName (b.catalogue.chooseTagged (options.flag .priorities) tag)

/-- The rule found along a hierarchy, kept under the name of the type. -/
def findUntagged (options : Options) (s : Subject) (b : RuleBook) :
    Option RuleMatch × RuleBook :=
  b.answerFor s.typeName
    (b.catalogue.walk (options.flag .priorities) (options.get .maxInheritedTypes) s.hierarchy)

/-- The rule for a variable. -/
def find (options : Options) (s : Subject) (b : RuleBook) : Option RuleMatch × RuleBook :=
  match s.tag with
  | none => b.findUntagged options s
  | some tag =>
    match b.findTagged options tag with
    | (some m, b) => (some m, b)
    | (none, b) => b.findUntagged options s

end RuleBook

end WatchView
