import WatchView.MemberPath
import WatchView.Scope
import WatchView.Text.Cut
/-!
# Replacing tokens

Before an expression is evaluated, its tokens are replaced by the texts they
are bound to. A token is a whole identifier that does not follow another one
by `.` or `->`: in `a.b` only `a` is a token. Digits start a number, and the
letters in it, as in `0x1f`, are no tokens.

`pieces` takes an expression apart into tokens and text that is kept. It
does not look at a scope, and joined together again its pieces are the
expression.
-/

namespace WatchView

namespace Substitution

open Text MemberPath

/-- A piece of an expression. -/
inductive Piece where
  /-- Text that is kept. -/
  | kept (text : List Char)
  /-- A token. -/
  | token (name : List Char)
deriving Repr, DecidableEq, Inhabited

/-- The text of a piece. -/
def Piece.text : Piece → List Char
  | kept text => text
  | token name => name

/-- The tokens of an expression and the text between them. -/
def pieces : List Char → List Piece
  | [] => []
  | c :: cs =>
    if c.isDigit then .kept (c :: cs.takeWhile isIdent) :: pieces (cs.dropWhile isIdent)
    else if isIdentStart c then
      let behind := cs.dropWhile isIdent
      let rest := behindMembers behind
      .token (c :: cs.takeWhile isIdent) :: .kept (readPart behind rest) :: pieces rest
    else .kept [c] :: pieces cs
termination_by cs => cs.length
decreasing_by
  · have := (List.dropWhile_suffix (l := cs) isIdent).length_le
    simp only [List.length_cons]
    omega
  · have h := (List.dropWhile_suffix (l := cs) isIdent).length_le
    have := length_behindMembers_le (cs.dropWhile isIdent)
    simp only [List.length_cons]
    omega
  · simp

/-- The first character of the name of every scratch variable. -/
def scratchMark : Char := '$'

/-- The text a piece is replaced by. -/
def replacement {V : Type} (scope : Scope V) : Piece → List Char
  | .kept text => text
  | .token name => ((scope.token? (String.ofList name)).map String.toList).getD name

/-- Whether a piece is replaced by a scratch variable. -/
def bringsScratch {V : Type} (scope : Scope V) : Piece → Bool
  | .kept _ => false
  | .token name =>
    (scope.token? (String.ofList name)).any fun text => text.toList.head? == some scratchMark

/-- The expression with its tokens replaced. -/
def substitute {V : Type} (scope : Scope V) (expression : String) : String :=
  String.ofList ((pieces expression.toList).flatMap (replacement scope))

/-- Whether a token of the expression is replaced by a scratch variable. -/
def usesScratch {V : Type} (scope : Scope V) (expression : String) : Bool :=
  (pieces expression.toList).any (bringsScratch scope)

end Substitution

end WatchView
