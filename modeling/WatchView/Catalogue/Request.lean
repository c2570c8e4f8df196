import WatchView.Catalogue.RuleBook
/-!
# Requests to the rule book

A rule book lives as long as its session and serves one request after the
other: reload the files, load a text, find the rule for a variable. What is
loaded after some requests can be said without the book: the built-in rules
and the files of the last reload, then the files of every text since.
-/

namespace WatchView

/-- What a rule book is asked. The source may supply other files each time. -/
inductive Request where
  | reload (source : RuleSource)
  | loadText (source : RuleSource) (text : String)
  | find (subject : Subject)

/-- What a rule book replies. -/
inductive Reply where
  /-- Whether files were loaded. -/
  | loaded (result : Except LoadError Unit)
  /-- The rule for a variable, if there is one. -/
  | found (result : Option RuleMatch)

namespace RuleBook

/-- Serve a request. -/
def serve (options : Options) (b : RuleBook) : Request → Reply × RuleBook
  | .reload source =>
    let (result, b) := reload options source
    (.loaded result, b)
  | .loadText source text =>
    let (result, b) := b.loadText source text
    (.loaded result, b)
  | .find s =>
    let (result, b) := b.find options s
    (.found result, b)

/-- Serve requests in turn. -/
def serveAll (options : Options) : List Request → RuleBook → List Reply × RuleBook
  | [], b => ([], b)
  | r :: rs, b =>
    let (reply, b) := b.serve options r
    let (replies, b) := serveAll options rs b
    (reply :: replies, b)

end RuleBook

namespace Request

/-- The files that are loaded after a request, in the order they were
loaded. A failing source supplies none. -/
def filesAfter (options : Options) (files : List RuleFile) : Request → List RuleFile
  | reload source =>
    Builtin.file (options.flag .stringRule) ::
      if options.flag .loadFiles then source.files.toOption.getD [] else []
  | loadText source text => files ++ (source.ofText text).toOption.getD []
  | find _ => files

/-- The files a book starts with. -/
def firstFiles (options : Options) : List RuleFile := [Builtin.file (options.flag .stringRule)]

/-- The files that are loaded after requests. -/
def filesAfterAll (options : Options) (requests : List Request) : List RuleFile :=
  requests.foldl (filesAfter options) (firstFiles options)

/-- The reply to a request where these files are loaded and no answers are
kept. -/
def freshReply (options : Options) (files : List RuleFile) : Request → Reply
  | reload source =>
    .loaded (if options.flag .loadFiles then source.files.map fun _ => () else .ok ())
  | loadText source text => .loaded ((source.ofText text).map fun _ => ())
  | find s => .found ((Catalogue.append {} files).lookup options s)

/-- The replies to requests in turn, from these files on and with no answers
kept. -/
def freshReplies (options : Options) (files : List RuleFile) : List Request → List Reply
  | [] => []
  | r :: rs => r.freshReply options files :: freshReplies options (r.filesAfter options files) rs

end Request

end WatchView
