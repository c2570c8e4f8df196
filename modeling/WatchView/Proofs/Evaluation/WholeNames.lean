import WatchView.Proofs.Evaluation.Tokens
/-!
# Only whole names are replaced

A name stands in a text as a whole where no character on either side would make it
longer (`IsWholeIn`). Reading an expression stops at such places only, between one
identifier or number and the next (`Boundary`), whatever else is in the text. So every
token is a whole name (`isWholeIn_of_token`), and a binding matters to nothing but the
expressions in which its name stands as a whole: what is bound to `$T1` never shows in
`$T10` (`substitute_whole_names`).
-/

namespace WatchView

namespace Substitution

open Text MemberPath

/-! ## Whole names -/

/-- A run of identifier characters in a text, with no such character directly in front
of it or behind it. -/
structure IsWholeIn (run cs : List Char) : Prop where
  nonempty : run ≠ []
  ident : run.all isIdent = true
  /-- It can be made no longer at either end. -/
  stands : ∃ front behind, cs = front ++ run ++ behind ∧
    front.getLast?.any isIdent = false ∧ behind.head?.any isIdent = false

variable {c : Char} {cs front name run : List Char}

/-- A whole name is one of the runs of the text. -/
theorem IsWholeIn.mem_runs (h : IsWholeIn run cs) : run ∈ runs cs := by
  obtain ⟨nonempty, ident, front, behind, rfl, first, last⟩ := h
  rw [List.append_assoc, runs, List.splitBy_append]
  · refine List.mem_append_right _ ?_
    have whole := runs_append nonempty ident last
    rw [runs] at whole
    rw [whole]
    exact List.mem_cons_self
  · intro c here d _
    rw [Option.mem_def.mp here, Option.any_some] at first
    rw [joins, first, Bool.false_and]

/-! ## Where reading stops -/

/-- No identifier or number goes on from the front of a text to the rest of it. -/
def Boundary (front cs : List Char) : Prop :=
  front.getLast?.any isIdent = true → cs.head?.any isIdent = false

theorem boundary_of_head (h : cs.head?.any isIdent = false) (front : List Char) :
    Boundary front cs := fun _ => h

theorem boundary_of_last (h : isIdent c = false) (front cs : List Char) :
    Boundary (front ++ [c]) cs := by
  intro last
  rw [List.getLast?_concat, Option.any_some, h] at last
  cases last

/-- Behind member steps no identifier goes on, if none did in front of them. -/
theorem head?_behindMembers (h : cs.head?.any isIdent = false) :
    (behindMembers cs).head?.any isIdent = false := by
  fun_induction behindMembers cs with
  | case1 cs rest step ih =>
    refine ih ?_
    unfold behindMember? at step
    split at step
    · obtain ⟨-, same⟩ := Option.ite_none_right_eq_some.mp step
      rw [← Option.some.inj same]
      exact head?_dropWhile_any isIdent _
    · obtain ⟨-, same⟩ := Option.ite_none_right_eq_some.mp step
      rw [← Option.some.inj same]
      exact head?_dropWhile_any isIdent _
    · cases step
  | case2 => exact h

theorem cons_eq_run_append (c : Char) (cs : List Char) :
    c :: cs = c :: cs.takeWhile isIdent ++ cs.dropWhile isIdent := by
  rw [List.cons_append, List.takeWhile_append_dropWhile]

/-- **Every token is a whole name.** Reading begins at a boundary, and what it takes off
the text ends at one. -/
theorem isWholeIn_of_token (front cs : List Char) (boundary : Boundary front cs)
    (mem : .token name ∈ pieces cs) : IsWholeIn name (front ++ cs) ∧ isName name = true := by
  -- each piece ends at the boundary the next one begins at
  fun_induction pieces cs generalizing front with
  | case1 => cases mem
  | case2 c cs digit ih =>
    rcases List.mem_cons.mp mem with none | mem
    · cases none
    rw [cons_eq_run_append c cs, ← List.append_assoc]
    exact ih _ (boundary_of_head (head?_dropWhile_any isIdent cs) _) mem
  | case3 c cs digit start behind rest ih =>
    have ident := isIdent_of_isIdentStart start
    have ends : behind.head?.any isIdent = false := head?_dropWhile_any isIdent cs
    rcases List.mem_cons.mp mem with here | mem
    · cases here
      refine ⟨⟨List.cons_ne_nil _ _, ?_, front, behind, ?_, ?_, ends⟩, start⟩
      · rw [List.all_cons, ident, List.all_takeWhile, Bool.and_true]
      · rw [List.append_assoc, ← cons_eq_run_append]
      · refine Bool.eq_false_iff.mpr fun last => ?_
        have := boundary last
        rw [List.head?_cons, Option.any_some, ident] at this
        cases this
    · rcases List.mem_cons.mp mem with none | mem
      · cases none
      obtain ⟨read, same⟩ := behindMembers_suffix (cs.dropWhile isIdent)
      rw [cons_eq_run_append c cs, ← same, ← List.append_assoc, ← List.append_assoc]
      exact ih _ (boundary_of_head (head?_behindMembers ends) _) mem
  | case4 c cs digit start ih =>
    rcases List.mem_cons.mp mem with none | mem
    · cases none
    rw [← List.singleton_append, ← List.append_assoc]
    exact ih _ (boundary_of_last (not_isIdent digit start) front cs) mem

theorem isWholeIn_of_mem_pieces (mem : .token name ∈ pieces cs) :
    IsWholeIn name cs ∧ isName name = true :=
  isWholeIn_of_token [] cs nofun mem

/-! ## What replacing depends on -/

variable {V : Type}

/-- The pieces of a text are the text. -/
theorem flatMap_text_pieces (cs : List Char) : (pieces cs).flatMap Piece.text = cs := by
  fun_induction pieces cs with
  | case1 => rfl
  | case2 c cs digit ih =>
    rw [List.flatMap_cons, ih, Piece.text, List.cons_append, List.takeWhile_append_dropWhile]
  | case3 c cs digit start behind rest ih =>
    obtain ⟨read, same⟩ := behindMembers_suffix behind
    rw [List.flatMap_cons, List.flatMap_cons, ih, Piece.text, Piece.text,
      readPart_eq_of_append same.symm, same, List.cons_append, List.takeWhile_append_dropWhile]
  | case4 c cs digit start ih => rw [List.flatMap_cons, ih, Piece.text, List.singleton_append]

/-- **Replacing asks a scope for the tokens of the expression**, and for nothing else. -/
theorem substitute_congr {scope scope' : Scope V} {expression : String}
    (same : ∀ name, .token name ∈ pieces expression.toList →
      scope'.token? (String.ofList name) = scope.token? (String.ofList name)) :
    substitute scope' expression = substitute scope expression ∧
      usesScratch scope' expression = usesScratch scope expression := by
  have written : ∀ piece ∈ pieces expression.toList,
      replacement scope' piece = replacement scope piece ∧
        bringsScratch scope' piece = bringsScratch scope piece := by
    intro piece mem
    cases piece with
    | kept => exact ⟨rfl, rfl⟩
    | token name =>
      rw [replacement, replacement, bringsScratch, bringsScratch, same name mem]
      exact ⟨rfl, rfl⟩
  constructor
  · rw [substitute, substitute, List.flatMap_congr fun piece mem => (written piece mem).1]
  · rw [usesScratch, usesScratch, Bool.eq_iff_iff, List.any_eq_true, List.any_eq_true]
    exact exists_congr fun piece => and_congr_right fun mem => by rw [(written piece mem).2]

/-- **An expression without bound tokens stays as it is.** -/
theorem substitute_unbound {scope : Scope V} {expression : String}
    (unbound : ∀ name, .token name ∈ pieces expression.toList →
      scope.token? (String.ofList name) = none) :
    substitute scope expression = expression ∧ usesScratch scope expression = false := by
  have written : ∀ piece ∈ pieces expression.toList,
      replacement scope piece = piece.text ∧ bringsScratch scope piece = false := by
    intro piece mem
    cases piece with
    | kept => exact ⟨rfl, rfl⟩
    | token name =>
      rw [replacement, bringsScratch, unbound name mem]
      exact ⟨rfl, rfl⟩
  constructor
  · rw [substitute, List.flatMap_congr fun piece mem => (written piece mem).1,
      flatMap_text_pieces, String.ofList_toList]
  · rw [usesScratch, List.any_eq_false]
    intro piece mem
    rw [(written piece mem).2]
    exact Bool.false_ne_true

/-- A binding of a name that is no token of the expression changes nothing. -/
theorem substitute_bindToken (scope : Scope V) {name text expression : String}
    (other : .token name.toList ∉ pieces expression.toList) :
    substitute (scope.bindToken name text) expression = substitute scope expression ∧
      usesScratch (scope.bindToken name text) expression = usesScratch scope expression := by
  refine substitute_congr fun token mem => scope.tokens.get?_bind_of_ne text ?_
  rintro rfl
  rw [String.toList_ofList] at other
  exact other mem

/-- **Only whole names are replaced.** To bind a name changes nothing in an expression in
which the name does not stand as a whole, and nothing anywhere if the name is a number or
starts with a digit. An expression in which no whole name is bound is left as it is. -/
theorem substitute_whole_names (scope : Scope V) (expression : String) :
    (∀ name text, ¬ IsWholeIn name.toList expression.toList →
      substitute (scope.bindToken name text) expression = substitute scope expression ∧
        usesScratch (scope.bindToken name text) expression = usesScratch scope expression) ∧
    (∀ name text, isName name.toList = false →
      substitute (scope.bindToken name text) expression = substitute scope expression ∧
        usesScratch (scope.bindToken name text) expression = usesScratch scope expression) ∧
    ((∀ name, IsWholeIn name.toList expression.toList → scope.token? name = none) →
      substitute scope expression = expression ∧ usesScratch scope expression = false) := by
  refine ⟨fun name text other => ?_, fun name text number => ?_, fun unbound => ?_⟩
  · exact substitute_bindToken scope fun mem => other (isWholeIn_of_mem_pieces mem).1
  · refine substitute_bindToken scope fun mem => ?_
    rw [(isWholeIn_of_mem_pieces mem).2] at number
    cases number
  · refine substitute_unbound fun name mem => unbound _ ?_
    rw [String.toList_ofList]
    exact (isWholeIn_of_mem_pieces mem).1

/-- What is bound to `$T1` shows neither in `$T10` nor in `my$T1`, and what is bound to
`x1f` not in the number `0x1f`. -/
theorem substitute_longer_names :
    let scope : Scope Unit := Scope.ofTokens [("$T10", "int")]
    ¬ IsWholeIn "$T1".toList "$T10 + my$T1".toList ∧
      substitute (scope.bindToken "$T1" "$a_0") "$T10 + my$T1" = "int + my$T1" ∧
      usesScratch (scope.bindToken "$T1" "$a_0") "$T10 + my$T1" = false ∧
      substitute (scope.bindToken "x1f" "$a_0") "0x1f" = "0x1f" := by
  have apart : ¬ IsWholeIn "$T1".toList "$T10 + my$T1".toList := fun whole =>
    absurd whole.mem_runs (by decide +kernel)
  have inside : ¬ IsWholeIn "x1f".toList "0x1f".toList := fun whole =>
    absurd whole.mem_runs (by decide +kernel)
  let scope : Scope Unit := Scope.ofTokens [("$T10", "int")]
  obtain ⟨text, scratch⟩ := (substitute_whole_names scope "$T10 + my$T1").1 "$T1" "$a_0" apart
  refine ⟨apart, text.trans (by decide +kernel), scratch.trans (by decide +kernel), ?_⟩
  rw [((substitute_whole_names scope "0x1f").1 "x1f" "$a_0" inside).1]
  decide +kernel

end Substitution

end WatchView
