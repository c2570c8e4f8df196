import WatchView.Text.Numeral
import WatchView.TypeTree.Basic
import WatchView.TypeTree.Primitive
/-!
# Reading type names

The grammar, with blanks allowed between its parts:

    type      = ["const"] (built-in | segment ("::" segment)*) ["const"]
                (("*" | "&") ["const"])* ["[" [number] "]"] ["(" [parameters] ")"]
    segment   = identifier ["<" argument ("," argument)* ">"]
    argument  = number | "*" | type

The readers take a text and answer with what they read and the rest, or with
the place they are stuck at. A `::` counts as a separator only if more than
its two bytes are left, and a comma between template arguments only if more
than its one byte is left; the reader of parameters accepts a closing
parenthesis after a comma.

The readers call each other, and each call takes one unit of fuel. Four
units for every character are more than they can spend: between two calls
that start at the same place lie at most two others.
-/

namespace WatchView

namespace TypeTree

open Text

/-- The rest of the text at the place where reading is stuck. -/
abbrev Stuck := List Char

/-- Skip `const` and the blanks behind it. -/
def skipConst (cs : List Char) : List Char :=
  match dropHead? "const".toList cs with
  | some rest => if rest.head?.any isIdent then cs else trimStart rest
  | none => cs

/-- The pointer and reference markers, each with an optional `const`. -/
def readMarkers : Nat → List Char → List Char × List Char
  | 0, cs => ([], cs)
  | _ + 1, [] => ([], [])
  | n + 1, c :: cs =>
    if c = '*' ∨ c = '&' then
      let (markers, rest) := readMarkers n (skipConst (trimStart cs))
      (c :: markers, rest)
    else ([], c :: cs)

/-- The extent of an array, if one comes next. -/
def readExtent : List Char → Except Stuck (Option Extent × List Char)
  | '[' :: ']' :: cs => .ok (some .unbounded, trimStart cs)
  | '[' :: cs =>
    let cs := trimStart cs
    let behind := cs.dropWhile Char.isDigit
    match digits? 10 bound63 (cs.takeWhile Char.isDigit) with
    | none => .error behind
    | some count =>
      match trimStart behind with
      | ']' :: rest => .ok (some (.elements count), trimStart rest)
      | stuck => .error stuck
  | cs => .ok (none, cs)

/-- The text that was read, without the blanks at its end. -/
def readText (cs rest : List Char) : String := String.ofList (trimEnd (readPart cs rest))

mutual

/-- A whole type name. -/
def readType : Nat → List Char → Except Stuck (TypeTree × List Char)
  | 0, cs => .error cs
  | n + 1, start => do
    let cs := skipConst start
    let (name, cs) ←
      match Primitive.read? cs with
      | some (spelling, rest) => pure (ofBaseName spelling, rest)
      | none => readSegments n cs
    let (markers, cs) := readMarkers n (skipConst (trimStart cs))
    let (extent, cs) ← readExtent cs
    let (parameters, cs) ←
      match cs with
      | '(' :: cs => do
        let (parameters, cs) ← readParameters n cs
        pure (some parameters, trimStart cs)
      | cs => pure (none, cs)
    let base := name.baseName ++ String.ofList markers
    pure (named (readText start cs) base name.qualifiers name.args parameters extent, cs)

/-- Segments joined by `::`. The last one is the name; it takes those in
front of it as qualifiers. -/
def readSegments : Nat → List Char → Except Stuck (TypeTree × List Char)
  | 0, cs => .error cs
  | n + 1, cs => do
    let (segment, cs) ← readSegment n cs
    let cs := trimStart cs
    match dropHead? "::".toList cs with
    | some rest =>
      if 2 < byteLength cs then
        let (name, cs) ← readSegments n (trimStart rest)
        pure (named name.fullName name.baseName (segment :: name.qualifiers) name.args none none,
          cs)
      else pure (segment, cs)
    | none => pure (segment, cs)

/-- One segment: an identifier, with template arguments or without. -/
def readSegment : Nat → List Char → Except Stuck (TypeTree × List Char)
  | 0, cs => .error cs
  | n + 1, start => do
    if !start.head?.any isIdentStart then throw start
    let identifier := String.ofList (start.takeWhile isIdent)
    match trimStart (start.dropWhile isIdent) with
    | '<' :: cs =>
      let (args, cs) ← readArguments n cs
      match cs with
      | '>' :: cs => pure (named (readText start cs) identifier [] args none none, cs)
      | stuck => throw stuck
    | cs => pure (named (readText start cs) identifier [] [] none none, cs)

/-- Template arguments, at least one, joined by commas. -/
def readArguments : Nat → List Char → Except Stuck (List TypeTree × List Char)
  | 0, cs => .error cs
  | n + 1, cs => do
    let cs := trimStart cs
    let (arg, cs) ←
      if cs.head?.any Char.isDigit then
        pure (ofBaseName (String.ofList (cs.takeWhile Char.isDigit)), cs.dropWhile Char.isDigit)
      else
        match cs with
        | '*' :: cs => pure (wildcard, cs)
        | cs => readType n cs
    let cs := trimStart cs
    match cs with
    | ',' :: rest =>
      if 1 < byteLength cs then
        let (args, cs) ← readArguments n rest
        pure (arg :: args, cs)
      else pure ([arg], cs)
    | cs => pure ([arg], cs)

/-- Parameter types up to the closing parenthesis. -/
def readParameters : Nat → List Char → Except Stuck (List TypeTree × List Char)
  | 0, cs => .error cs
  | n + 1, cs => do
    match trimStart cs with
    | [] => throw []
    | ')' :: cs => pure ([], cs)
    | cs =>
      let (parameter, cs) ← readType n cs
      match trimStart cs with
      | ',' :: cs =>
        let (parameters, cs) ← readParameters n cs
        pure (parameter :: parameters, cs)
      | ')' :: cs => pure ([parameter], cs)
      | stuck => throw stuck

end

/-- The error of being stuck in `text` with `rest` still to be read. -/
def stuckAt (text : String) : List Char → TypeNameError
  | [] => .unexpectedEnd text
  | c :: rest =>
    .unexpectedChar c (byteLength text.toList - byteLength (c :: rest)) text

/-- Read a text as one type name. -/
def parse (text : String) : Except TypeNameError TypeTree :=
  let cs := text.toList
  if isBlankText text then .error .empty
  else
    match readType (4 * cs.length + 4) (trimStart cs) with
    | .error stuck => .error (stuckAt text stuck)
    | .ok (tree, rest) =>
      match trimStart rest with
      | [] => .ok tree
      | rest => .error (.trailing text (String.ofList rest))

/-- Read a text as one type name, if it is one. -/
def parse? (text : String) : Option TypeTree := (parse text).toOption

end TypeTree

end WatchView
