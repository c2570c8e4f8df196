import WatchView.Text.Blank
import WatchView.Text.Identifier
/-!
# Member paths

A member path leads from a value to a part of it by steps: `.name` and
`->name` to a member, `[3]` to an element. A member access is a member's
name with a path behind it, as in `impl.data`, and may have blanks around.
A debugger can follow paths without evaluating anything.
-/

namespace WatchView

namespace MemberPath

open Text

/-- What follows a `.name` or `->name` at the start of a text. -/
def behindMember? : List Char → Option (List Char)
  | '.' :: c :: cs => if isIdentStart c then some (cs.dropWhile isIdent) else none
  | '-' :: '>' :: c :: cs => if isIdentStart c then some (cs.dropWhile isIdent) else none
  | _ => none

/-- What follows a `[digits]` at the start of a text. -/
def behindIndex? : List Char → Option (List Char)
  | '[' :: cs =>
    if cs.head?.any Char.isDigit then
      match cs.dropWhile Char.isDigit with
      | ']' :: rest => some rest
      | _ => none
    else none
  | _ => none

/-- A member step takes characters off a text. -/
theorem length_behindMember?_lt {cs rest : List Char} (h : behindMember? cs = some rest) :
    rest.length < cs.length := by
  unfold behindMember? at h
  split at h
  · rename_i c cs
    have := (List.dropWhile_suffix (l := cs) isIdent).length_le
    split at h <;> simp_all
    omega
  · rename_i c cs
    have := (List.dropWhile_suffix (l := cs) isIdent).length_le
    split at h <;> simp_all
    omega
  · cases h

/-- An index step takes characters off a text. -/
theorem length_behindIndex?_lt {cs rest : List Char} (h : behindIndex? cs = some rest) :
    rest.length < cs.length := by
  unfold behindIndex? at h
  split at h
  · rename_i cs
    have hle := (List.dropWhile_suffix (l := cs) Char.isDigit).length_le
    split at h
    · split at h
      · rename_i heq
        simp only [heq, List.length_cons] at hle
        simp_all
        omega
      · cases h
    · cases h
  · cases h

/-- What follows one step of a path. -/
def behindStep? (cs : List Char) : Option (List Char) := (behindMember? cs).or (behindIndex? cs)

/-- A step takes characters off a text. -/
theorem length_behindStep?_lt {cs rest : List Char} (h : behindStep? cs = some rest) :
    rest.length < cs.length := by
  unfold behindStep? at h
  rcases Option.or_eq_some_iff.1 h with h | ⟨_, h⟩
  · exact length_behindMember?_lt h
  · exact length_behindIndex?_lt h

/-- What follows all the member steps at the start of a text. -/
def behindMembers (cs : List Char) : List Char :=
  match _h : behindMember? cs with
  | some rest => behindMembers rest
  | none => cs
termination_by cs.length
decreasing_by exact length_behindMember?_lt _h

/-- Member steps take no more than the text. -/
theorem length_behindMembers_le (cs : List Char) : (behindMembers cs).length ≤ cs.length := by
  fun_induction behindMembers cs with
  | case1 cs rest h ih => exact Nat.le_trans ih (Nat.le_of_lt (length_behindMember?_lt h))
  | case2 => exact Nat.le_refl _

/-- Whether a text is a row of steps and nothing else. -/
def isSteps : List Char → Bool
  | [] => true
  | c :: cs =>
    match _h : behindStep? (c :: cs) with
    | some rest => isSteps rest
    | none => false
termination_by cs => cs.length
decreasing_by exact length_behindStep?_lt _h

/-- Whether a text is a path: one step or more. -/
def isPath (s : String) : Bool := !s.toList.isEmpty && isSteps s.toList

/-- Whether a text is a member's name followed by steps. -/
def isAccess (s : String) : Bool :=
  let cs := trim s.toList
  cs.head?.any isIdentStart && isSteps (cs.dropWhile isIdent)

end MemberPath

end WatchView
