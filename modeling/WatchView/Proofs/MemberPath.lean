import WatchView.Evaluation.Evaluator
import WatchView.Listing.Array
import WatchView.Proofs.Text
/-!
# The texts that are paths

The grammar of paths and accesses, without blanks between the parts:

    access = name step*
    path   = step step*
    step   = "." name | "->" name | "[" digit digit* "]"

Reading takes the longest name or number each time. No step starts with a character a name
goes on with, so a step that was written is read as a whole, whatever steps follow it
(`behindStep?_append`), and paths and accesses are exactly the texts of the grammar
(`isPath_iff`, `isAccess_iff`). An element of an access is an access again, and behind a `.`
or `->` it is a path, so it can be followed without evaluating anything; an element of any
other pointer never can (`isPath_isAccess_exact`).
-/

namespace WatchView

namespace MemberPath

open Text

/-- A name: a letter, `_` or `$`, and then letters, digits, `_` and `$`. -/
def IsIdentifier (cs : List Char) : Prop :=
  ∃ c rest, cs = c :: rest ∧ isIdentStart c = true ∧ rest.all isIdent = true

/-- One step of a path. -/
inductive IsStep : List Char → Prop
  | dot {name : List Char} (named : IsIdentifier name) : IsStep ('.' :: name)
  | arrow {name : List Char} (named : IsIdentifier name) : IsStep ('-' :: '>' :: name)
  | element {digits : List Char} (nonempty : digits ≠ []) (all : digits.all Char.isDigit = true) :
      IsStep ('[' :: (digits ++ [']']))

variable {cs name step rest : List Char} {steps : List (List Char)} {c : Char}

/-! ## Reading a step -/

theorem IsIdentifier.starts (h : IsIdentifier name) : name.head?.any isIdentStart = true := by
  obtain ⟨c, rest, rfl, start, -⟩ := h
  exact start

/-- A name ends where something stands that it cannot go on with. -/
theorem IsIdentifier.dropWhile (h : IsIdentifier name) (ends : rest.head?.any isIdent = false) :
    (name ++ rest).dropWhile isIdent = rest := by
  obtain ⟨c, cs, rfl, start, all⟩ := h
  refine (takeWhile_append_dropWhile_append ?_ ends).2
  rw [List.all_cons, isIdent_of_isIdentStart start, all, Bool.and_true]

/-- What is read where a name starts is a name. -/
theorem isIdentifier_takeWhile (start : isIdentStart c = true) (cs : List Char) :
    IsIdentifier (c :: cs.takeWhile isIdent) :=
  ⟨c, _, rfl, start, List.all_takeWhile⟩

theorem behindMember?_dot (named : IsIdentifier name) (ends : rest.head?.any isIdent = false) :
    behindMember? ('.' :: (name ++ rest)) = some rest := by
  have behind := named.dropWhile ends
  obtain ⟨c, cs, rfl, start, -⟩ := named
  rw [List.cons_append, List.dropWhile_cons_of_pos (isIdent_of_isIdentStart start)] at behind
  rw [List.cons_append, behindMember?, if_pos start, behind]

theorem behindMember?_arrow (named : IsIdentifier name) (ends : rest.head?.any isIdent = false) :
    behindMember? ('-' :: '>' :: (name ++ rest)) = some rest := by
  have behind := named.dropWhile ends
  obtain ⟨c, cs, rfl, start, -⟩ := named
  rw [List.cons_append, List.dropWhile_cons_of_pos (isIdent_of_isIdentStart start)] at behind
  rw [List.cons_append, behindMember?, if_pos start, behind]

theorem behindIndex?_digits {digits : List Char} (nonempty : digits ≠ [])
    (all : digits.all Char.isDigit = true) (rest : List Char) :
    behindIndex? ('[' :: (digits ++ ']' :: rest)) = some rest := by
  obtain ⟨d, ds, rfl⟩ := List.exists_cons_of_ne_nil nonempty
  have first : ((d :: ds) ++ ']' :: rest).head?.any Char.isDigit = true :=
    List.all_eq_true.mp all d List.mem_cons_self
  have behind := (takeWhile_append_dropWhile_append (z := ']' :: rest) all rfl).2
  simp only [behindIndex?, first, if_true, behind]

/-- **A step is read as a whole** in front of what no name goes on with. -/
theorem behindStep?_append (h : IsStep step) (ends : rest.head?.any isIdent = false) :
    behindStep? (step ++ rest) = some rest := by
  cases h with
  | dot named => rw [behindStep?, List.cons_append, behindMember?_dot named ends, Option.some_or]
  | arrow named =>
    rw [behindStep?, List.cons_append, List.cons_append, behindMember?_arrow named ends,
      Option.some_or]
  | element nonempty all =>
    rw [behindStep?, List.cons_append, List.append_assoc, List.singleton_append,
      behindIndex?_digits nonempty all rest]
    rfl

theorem exists_of_behindMember? (h : behindMember? cs = some rest) :
    ∃ step, IsStep step ∧ cs = step ++ rest := by
  unfold behindMember? at h
  split at h
  · rename_i c cs
    obtain ⟨start, same⟩ := Option.ite_none_right_eq_some.mp h
    obtain rfl := Option.some.inj same
    refine ⟨_, .dot (isIdentifier_takeWhile start cs), ?_⟩
    rw [List.cons_append, List.cons_append, List.takeWhile_append_dropWhile]
  · rename_i c cs
    obtain ⟨start, same⟩ := Option.ite_none_right_eq_some.mp h
    obtain rfl := Option.some.inj same
    refine ⟨_, .arrow (isIdentifier_takeWhile start cs), ?_⟩
    rw [List.cons_append, List.cons_append, List.cons_append, List.takeWhile_append_dropWhile]
  · cases h

theorem exists_of_behindIndex? (h : behindIndex? cs = some rest) :
    ∃ step, IsStep step ∧ cs = step ++ rest := by
  unfold behindIndex? at h
  split at h
  · rename_i cs
    obtain ⟨digit, h⟩ := Option.ite_none_right_eq_some.mp h
    split at h
    · rename_i behind closed
      obtain rfl := Option.some.inj h
      refine ⟨_, .element (takeWhile_ne_nil digit) List.all_takeWhile, ?_⟩
      rw [List.cons_append, List.append_assoc, List.singleton_append, ← closed,
        List.takeWhile_append_dropWhile]
    · cases h
  · cases h

/-- What is read is a step. -/
theorem exists_of_behindStep? (h : behindStep? cs = some rest) :
    ∃ step, IsStep step ∧ cs = step ++ rest := by
  rcases Option.or_eq_some_iff.mp h with member | ⟨-, index⟩
  · exact exists_of_behindMember? member
  · exact exists_of_behindIndex? index

/-! ## The characters of paths -/

/-- Whether a path may have the character in it. -/
def isPathChar (c : Char) : Bool := isIdent c || ['.', '-', '>', '[', ']'].contains c

theorem isPathChar_of_isIdent (h : isIdent c = true) : isPathChar c = true := by
  rw [isPathChar, h, Bool.true_or]

theorem noBlank_of_isPathChar (h : isPathChar c = true) : isBlank c = false := by
  have marks : ['.', '-', '>', '[', ']'].all (isBlank · == false) = true := by decide
  rcases Bool.or_eq_true_iff.mp h with ident | mark
  · exact not_isBlank_of_isIdent ident
  · exact eq_of_beq (List.all_eq_true.mp marks c (List.contains_iff_mem.mp mark))

theorem IsIdentifier.all_isPathChar (h : IsIdentifier name) : name.all isPathChar = true := by
  obtain ⟨c, rest, rfl, start, all⟩ := h
  refine all_of_imp (fun _ => isPathChar_of_isIdent) ?_
  rw [List.all_cons, isIdent_of_isIdentStart start, all, Bool.and_true]

theorem IsStep.all_isPathChar (h : IsStep step) : step.all isPathChar = true := by
  cases h with
  | dot named =>
    rw [List.all_cons, named.all_isPathChar]
    rfl
  | arrow named =>
    rw [List.all_cons, List.all_cons, named.all_isPathChar]
    rfl
  | element _ all =>
    have digits : ∀ c : Char, c.isDigit = true → isPathChar c = true :=
      fun _ digit => isPathChar_of_isIdent (isIdent_of_isDigit digit)
    rw [List.all_cons, List.all_append, all_of_imp digits all]
    rfl

/-- A name with steps behind it is made of the characters of paths. -/
theorem all_isPathChar_access (named : IsIdentifier name) (areSteps : ∀ step ∈ steps, IsStep step) :
    (name ++ steps.flatten).all isPathChar = true := by
  rw [List.all_append, named.all_isPathChar, List.all_flatten, Bool.true_and, List.all_eq_true]
  exact fun step mem => (areSteps step mem).all_isPathChar

/-! ## Reading all steps -/

theorem IsStep.ne_nil (h : IsStep step) : step ≠ [] := by
  cases h with
  | _ => exact List.cons_ne_nil _ _

/-- No name goes on with a step. -/
theorem IsStep.head?_append (h : IsStep step) (rest : List Char) :
    (step ++ rest).head?.any isIdent = false := by
  cases h with
  | _ => rfl

theorem head?_flatten (h : ∀ step ∈ steps, IsStep step) :
    steps.flatten.head?.any isIdent = false := by
  cases steps with
  | nil => rfl
  | cons step steps => exact (h step List.mem_cons_self).head?_append _

theorem isSteps_eq (cs : List Char) :
    isSteps cs = (cs.isEmpty || (behindStep? cs).any isSteps) := by
  cases cs with
  | nil => rw [isSteps]; rfl
  | cons c cs =>
    rw [isSteps]
    split
    · rename_i rest read
      rw [read]
      rfl
    · rename_i none
      rw [none]
      rfl

/-- **Rows of steps are what is read as such.** -/
theorem isSteps_iff : isSteps cs = true ↔
    ∃ steps : List (List Char), (∀ step ∈ steps, IsStep step) ∧ cs = steps.flatten := by
  constructor
  · intro h
    fun_induction isSteps cs with
    | case1 => exact ⟨[], List.forall_mem_nil _, rfl⟩
    | case2 c cs rest read ih =>
      obtain ⟨step, isStep, same⟩ := exists_of_behindStep? read
      obtain ⟨steps, areSteps, rfl⟩ := ih h
      exact ⟨step :: steps, List.forall_mem_cons.mpr ⟨isStep, areSteps⟩, same⟩
    | case3 => cases h
  · rintro ⟨steps, areSteps, rfl⟩
    induction steps with
    | nil => rw [List.flatten_nil, isSteps_eq]; rfl
    | cons step steps ih =>
      obtain ⟨isStep, others⟩ := List.forall_mem_cons.mp areSteps
      rw [List.flatten_cons, isSteps_eq, behindStep?_append isStep (head?_flatten others),
        Option.any_some, ih others, Bool.or_true]

/-- **A path is one step or more.** -/
theorem isPath_iff {text : String} : isPath text = true ↔
    ∃ steps : List (List Char), steps ≠ [] ∧ (∀ step ∈ steps, IsStep step) ∧
      text.toList = steps.flatten := by
  rw [isPath, Bool.and_eq_true, Bool.not_eq_true', List.isEmpty_eq_false_iff, isSteps_iff]
  constructor
  · rintro ⟨filled, steps, areSteps, same⟩
    refine ⟨steps, ?_, areSteps, same⟩
    rintro rfl
    exact filled same
  · rintro ⟨steps, nonempty, areSteps, same⟩
    refine ⟨?_, steps, areSteps, same⟩
    obtain ⟨step, more, rfl⟩ := List.exists_cons_of_ne_nil nonempty
    rw [same, List.flatten_cons]
    exact List.append_ne_nil_of_left_ne_nil (areSteps step List.mem_cons_self).ne_nil _

/-- **An access is a name and any number of steps**, blanks at either end aside. -/
theorem isAccess_iff {text : String} : isAccess text = true ↔
    ∃ (name : List Char) (steps : List (List Char)), IsIdentifier name ∧
      (∀ step ∈ steps, IsStep step) ∧ trim text.toList = name ++ steps.flatten := by
  rw [isAccess, Bool.and_eq_true, isSteps_iff]
  generalize trim text.toList = cs
  constructor
  · rintro ⟨starts, steps, areSteps, same⟩
    cases cs with
    | nil => cases starts
    | cons c cs =>
      have start : isIdentStart c = true := starts
      rw [List.dropWhile_cons_of_pos (isIdent_of_isIdentStart start)] at same
      refine ⟨_, steps, isIdentifier_takeWhile start cs, areSteps, ?_⟩
      rw [← same, List.cons_append, List.takeWhile_append_dropWhile]
  · rintro ⟨name, steps, named, areSteps, rfl⟩
    exact ⟨head?_append_any named.starts _, steps, areSteps,
      named.dropWhile (head?_flatten areSteps)⟩

/-! ## Elements -/

/-- The name of a position is a number in brackets. -/
theorem exists_digits_positionName (index : Nat) :
    ∃ digits : List Char, digits ≠ [] ∧ digits.all Char.isDigit = true ∧
      (positionName index).toList = '[' :: (digits ++ [']']) := by
  have digits : (toString index).toList = Nat.toDigits 10 index := Nat.toList_repr
  refine ⟨Nat.toDigits 10 index, Nat.toDigits_ne_nil, ?_, ?_⟩
  · exact List.all_eq_true.mpr fun _ => Nat.isDigit_of_mem_toDigits (by decide) (by decide)
  · rw [positionName, String.toList_append, String.toList_append, digits]
    rfl

/-- The step to an element. -/
theorem isStep_positionName (index : Nat) : IsStep (positionName index).toList := by
  obtain ⟨digits, nonempty, all, same⟩ := exists_digits_positionName index
  rw [same]
  exact .element nonempty all

/-- An element of an access is the access with one step more. -/
theorem exists_elementOf {pointer : String} (index : Nat) (h : isAccess pointer = true) :
    ∃ (name : List Char) (steps : List (List Char)), IsIdentifier name ∧
      (∀ step ∈ steps, IsStep step) ∧
      (ArrayListing.elementOf pointer index).toList = name ++ steps.flatten := by
  obtain ⟨name, steps, named, areSteps, same⟩ := isAccess_iff.mp h
  refine ⟨name, steps ++ [(positionName index).toList], named, ?_, ?_⟩
  · exact List.forall_mem_append.mpr
      ⟨areSteps, List.forall_mem_singleton.mpr (isStep_positionName index)⟩
  · rw [ArrayListing.elementOf, if_pos h, String.toList_append, trimmed, String.toList_ofList, same,
      List.flatten_append, List.flatten_singleton, List.append_assoc]

/-- An element of anything else starts with a parenthesis. -/
theorem head?_elementOf {pointer : String} (index : Nat) (h : isAccess pointer = false) :
    ∃ cs, (ArrayListing.elementOf pointer index).toList = '(' :: cs := by
  rw [ArrayListing.elementOf, if_neg (Bool.eq_false_iff.mp h), String.toList_append,
    String.toList_append, String.toList_append]
  exact ⟨_, rfl⟩

/-- **An element of an access is an access**, and an element of anything else is none. -/
theorem isAccess_elementOf (pointer : String) (index : Nat) :
    isAccess (ArrayListing.elementOf pointer index) = isAccess pointer := by
  cases access : isAccess pointer with
  | true =>
    obtain ⟨name, steps, named, areSteps, same⟩ := exists_elementOf index access
    refine isAccess_iff.mpr ⟨name, steps, named, areSteps, ?_⟩
    rw [same]
    exact trim_of_forall_noBlank fun c mem =>
      noBlank_of_isPathChar (List.all_eq_true.mp (all_isPathChar_access named areSteps) c mem)
  | false =>
    obtain ⟨cs, same⟩ := head?_elementOf index access
    have solid : ('(' :: cs).head?.any isBlank = false := rfl
    rw [isAccess, same, trim, trimStart_of_head solid, head?_trimEnd solid]
    rfl

/-- **Behind a `.` or `->` it is a path.** -/
theorem isPath_linked (pointer : String) (index : Nat) :
    isPath ("." ++ ArrayListing.elementOf pointer index) = isAccess pointer ∧
      isPath ("->" ++ ArrayListing.elementOf pointer index) = isAccess pointer := by
  cases access : isAccess pointer with
  | true =>
    obtain ⟨name, steps, named, areSteps, same⟩ := exists_elementOf index access
    have first (step : List Char) (isStep : IsStep step) :
        ∀ step' ∈ step :: steps, IsStep step' := List.forall_mem_cons.mpr ⟨isStep, areSteps⟩
    constructor
    · refine isPath_iff.mpr ⟨_, List.cons_ne_nil _ _, first _ (.dot named), ?_⟩
      rw [String.toList_append, same]
      rfl
    · refine isPath_iff.mpr ⟨_, List.cons_ne_nil _ _, first _ (.arrow named), ?_⟩
      rw [String.toList_append, same]
      rfl
  | false =>
    obtain ⟨cs, same⟩ := head?_elementOf index access
    constructor
    · rw [isPath, String.toList_append, same, isSteps_eq]
      rfl
    · rw [isPath, String.toList_append, same, isSteps_eq]
      rfl

/-- No element starts with a bracket, so the evaluator puts a link in front of it. -/
theorem isPath_asPath {σ ν : Type} (d : Inspector σ ν) (s : σ) (v : Variable ν) (spec : FormatSpec)
    (pointer : String) (index : Nat) :
    isPath (Evaluator.asPath d s v ⟨ArrayListing.elementOf pointer index, spec⟩).value =
      isAccess pointer := by
  have noBracket : (ArrayListing.elementOf pointer index).toList.head? ≠ some '[' := by
    cases access : isAccess pointer with
    | true =>
      obtain ⟨name, steps, named, -, same⟩ := exists_elementOf index access
      rw [same]
      exact head?_ne_of_isIdentStart (head?_append_any named.starts _) rfl
    | false =>
      obtain ⟨cs, same⟩ := head?_elementOf index access
      rw [same]
      exact nofun
  obtain ⟨dot, arrow⟩ := isPath_linked pointer index
  rw [Evaluator.asPath, if_neg (by simpa using noBracket), WatchExpr.withValue]
  dsimp only
  split
  · exact arrow
  · exact dot

/-- **Paths and accesses are exactly the texts of the grammar**: a path is a row of steps that
is not empty, and an access, once trimmed, is a name and a row of steps. The expression of an
element of an array is an access, and a path behind `.` and behind `->`, if and only if the
pointer is an access; so it is a path as the evaluator asks for it, whatever the variable. -/
theorem isPath_isAccess_exact {σ ν : Type} (text pointer : String) (index : Nat)
    (d : Inspector σ ν) (s : σ) (v : Variable ν) (spec : FormatSpec) :
    (isPath text = true ↔ ∃ steps : List (List Char), steps ≠ [] ∧ (∀ step ∈ steps, IsStep step) ∧
      text.toList = steps.flatten) ∧
    (isAccess text = true ↔ ∃ (name : List Char) (steps : List (List Char)), IsIdentifier name ∧
      (∀ step ∈ steps, IsStep step) ∧ trim text.toList = name ++ steps.flatten) ∧
    isAccess (ArrayListing.elementOf pointer index) = isAccess pointer ∧
    isPath ("." ++ ArrayListing.elementOf pointer index) = isAccess pointer ∧
    isPath ("->" ++ ArrayListing.elementOf pointer index) = isAccess pointer ∧
    isPath (Evaluator.asPath d s v ⟨ArrayListing.elementOf pointer index, spec⟩).value =
      isAccess pointer := by
  obtain ⟨dot, arrow⟩ := isPath_linked pointer index
  exact ⟨isPath_iff, isAccess_iff, isAccess_elementOf pointer index, dot, arrow,
    isPath_asPath d s v spec pointer index⟩

example : isPath "->first.second[3]" = true ∧ isPath ".data + 1" = false ∧
    isAccess " impl.data " = true ∧ ArrayListing.elementOf " impl.data " 12 = "impl.data[12]" ∧
    isAccess "begin + 1" = false := by
  decide +kernel

end MemberPath

end WatchView
