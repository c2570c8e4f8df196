import WatchView.Proofs.TypeTree.Builtin
import WatchView.TypeTree.Reader
/-!
# The grammar as a relation

`ReadsType cs t rest` says that the text `cs` starts with the type name `t` and
goes on with `rest`; the other relations say so of the parts of a type name.
Their rules are the rules of the grammar, with the choices the readers make.
What is read has at least one character, and this is why the fuel of the readers
is never spent: **a reader with four units of fuel for every character, and four
more, answers what the relation holds of** (`readType_eq_ok_iff`,
`parse_eq_ok_iff`).
-/

namespace WatchView.TypeTree

open Text

/-! ## The rules -/

/-- The characters of pointer and reference markers. -/
def isMarker (c : Char) : Bool := c == '*' || c == '&'

/-- Markers, each with an optional `const`. -/
inductive ReadsMarkers : List Char → List Char → List Char → Prop
  | nil {cs} (plain : cs.head?.any isMarker = false) : ReadsMarkers cs [] cs
  | cons {c cs markers rest} (marker : isMarker c = true)
      (more : ReadsMarkers (skipConst (trimStart cs)) markers rest) :
      ReadsMarkers (c :: cs) (c :: markers) rest

/-- The extent of an array, if there is one. -/
inductive ReadsExtent : List Char → Option Extent → List Char → Prop
  | none {cs} (plain : cs.head? ≠ some '[') : ReadsExtent cs none cs
  | unbounded {cs} : ReadsExtent ('[' :: ']' :: cs) (some .unbounded) (trimStart cs)
  | elements {cs count rest}
      (number : digits? 10 bound63 ((trimStart cs).takeWhile Char.isDigit) = some count)
      (closed : trimStart ((trimStart cs).dropWhile Char.isDigit) = ']' :: rest) :
      ReadsExtent ('[' :: cs) (some (.elements count)) (trimStart rest)

mutual

/-- A whole type name. -/
inductive ReadsType : List Char → TypeTree → List Char → Prop
  | mk {start name behind markers beyond extent next parameters rest}
      (head : ReadsName (skipConst start) name behind)
      (marked : ReadsMarkers (skipConst (trimStart behind)) markers beyond)
      (sized : ReadsExtent beyond extent next)
      (applied : ReadsParameterList next parameters rest) :
      ReadsType start
        (named (readText start rest) (name.baseName ++ String.ofList markers) name.qualifiers
          name.args parameters extent) rest

/-- A built-in name, or segments where there is none. -/
inductive ReadsName : List Char → TypeTree → List Char → Prop
  | builtin {cs spelling rest} (read : Primitive.read? cs = some (spelling, rest)) :
      ReadsName cs (ofBaseName spelling) rest
  | segments {cs name rest} (none : Primitive.read? cs = none) (chain : ReadsSegments cs name rest) :
      ReadsName cs name rest

/-- Segments joined by `::`. -/
inductive ReadsSegments : List Char → TypeTree → List Char → Prop
  | last {cs segment behind} (first : ReadsSegment cs segment behind)
      (ends : ∀ next, trimStart behind = ':' :: ':' :: next → next = []) :
      ReadsSegments cs segment (trimStart behind)
  | more {cs segment behind next name rest} (first : ReadsSegment cs segment behind)
      (joined : trimStart behind = ':' :: ':' :: next) (nonempty : next ≠ [])
      (others : ReadsSegments (trimStart next) name rest) :
      ReadsSegments cs
        (named name.fullName name.baseName (segment :: name.qualifiers) name.args none none) rest

/-- An identifier, with template arguments or without. -/
inductive ReadsSegment : List Char → TypeTree → List Char → Prop
  | plain {start} (starts : start.head?.any isIdentStart = true)
      (plain : (trimStart (start.dropWhile isIdent)).head? ≠ some '<') :
      ReadsSegment start
        (named (readText start (trimStart (start.dropWhile isIdent)))
          (String.ofList (start.takeWhile isIdent)) [] [] none none)
        (trimStart (start.dropWhile isIdent))
  | template {start cs args rest} (starts : start.head?.any isIdentStart = true)
      (opens : trimStart (start.dropWhile isIdent) = '<' :: cs)
      (list : ReadsArguments cs args ('>' :: rest)) :
      ReadsSegment start
        (named (readText start rest) (String.ofList (start.takeWhile isIdent)) [] args none none) rest

/-- Template arguments, joined by commas. -/
inductive ReadsArguments : List Char → List TypeTree → List Char → Prop
  | last {cs arg behind} (first : ReadsArgument (trimStart cs) arg behind)
      (ends : ∀ next, trimStart behind = ',' :: next → next = []) :
      ReadsArguments cs [arg] (trimStart behind)
  | more {cs arg behind next args rest} (first : ReadsArgument (trimStart cs) arg behind)
      (joined : trimStart behind = ',' :: next) (nonempty : next ≠ [])
      (others : ReadsArguments next args rest) :
      ReadsArguments cs (arg :: args) rest

/-- A number, the wildcard, or a type name. -/
inductive ReadsArgument : List Char → TypeTree → List Char → Prop
  | number {cs} (digit : cs.head?.any Char.isDigit = true) :
      ReadsArgument cs (ofBaseName (String.ofList (cs.takeWhile Char.isDigit)))
        (cs.dropWhile Char.isDigit)
  | wildcard {cs} : ReadsArgument ('*' :: cs) wildcard cs
  | type {cs t rest} (noDigit : cs.head?.any Char.isDigit = false) (noStar : cs.head? ≠ some '*')
      (read : ReadsType cs t rest) : ReadsArgument cs t rest

/-- The parameters of a function type, if there are any. -/
inductive ReadsParameterList : List Char → Option (List TypeTree) → List Char → Prop
  | none {cs} (plain : cs.head? ≠ some '(') : ReadsParameterList cs none cs
  | some {cs parameters rest} (list : ReadsParameters cs parameters rest) :
      ReadsParameterList ('(' :: cs) (some parameters) (trimStart rest)

/-- Parameter types up to the closing parenthesis. -/
inductive ReadsParameters : List Char → List TypeTree → List Char → Prop
  | nil {cs rest} (closed : trimStart cs = ')' :: rest) : ReadsParameters cs [] rest
  | last {cs parameter behind rest} (more : (trimStart cs).head? ≠ some ')')
      (first : ReadsType (trimStart cs) parameter behind)
      (closed : trimStart behind = ')' :: rest) : ReadsParameters cs [parameter] rest
  | more {cs parameter behind next parameters rest} (more : (trimStart cs).head? ≠ some ')')
      (first : ReadsType (trimStart cs) parameter behind)
      (joined : trimStart behind = ',' :: next) (others : ReadsParameters next parameters rest) :
      ReadsParameters cs (parameter :: parameters) rest

end

variable {n : Nat} {cs rest behind beyond markers : List Char} {t : TypeTree} {ts : List TypeTree}
  {parameters : Option (List TypeTree)} {extent : Option Extent}

/-! ## What is read stands in front of the rest -/

theorem skipConst_suffix (cs : List Char) : skipConst cs <:+ cs := by
  unfold skipConst
  split
  · rename_i rest found
    split
    · exact List.suffix_rfl
    · rw [dropHead?_eq_some_iff.mp found]
      exact (trimStart_suffix rest).trans (List.suffix_append _ _)
  · exact List.suffix_rfl

theorem skipConst_const (h : rest.head?.any isIdent = false) :
    skipConst ("const".toList ++ rest) = trimStart rest := by
  simp only [skipConst, dropHead?_append_self, h, Bool.false_eq_true, if_false]

theorem skipConst_eq_self (h : ∀ rest, cs = "const".toList ++ rest → rest.head?.any isIdent = true) :
    skipConst cs = cs := by
  unfold skipConst
  split
  · rename_i rest found
    rw [if_pos (h rest (dropHead?_eq_some_iff.mp found))]
  · rfl

/-- A text that does not start with the word `const` keeps its start. -/
theorem skipConst_of_takeWhile (h : cs.takeWhile isIdent ≠ "const".toList) :
    skipConst cs = cs := by
  refine skipConst_eq_self fun rest found => ?_
  by_contra plain
  rw [Bool.not_eq_true] at plain
  have word := takeWhile_append_dropWhile_append (v := "const".toList) (by decide) plain
  rw [← found] at word
  exact h word.1

theorem ReadsMarkers.suffix (h : ReadsMarkers cs markers rest) : rest <:+ cs := by
  induction h with
  | nil => exact List.suffix_rfl
  | cons _ _ ih =>
    exact ih.trans ((skipConst_suffix _).trans ((trimStart_suffix _).trans (List.suffix_cons _ _)))

theorem ReadsExtent.suffix (h : ReadsExtent cs extent rest) : rest <:+ cs := by
  cases h with
  | none => exact List.suffix_rfl
  | unbounded =>
    exact (trimStart_suffix _).trans ((List.suffix_cons _ _).trans (List.suffix_cons _ _))
  | @elements cs _ _ _ closed =>
    have bracket : _ <:+ cs := (trimStart_suffix _).trans
      ((List.dropWhile_suffix Char.isDigit).trans (trimStart_suffix cs))
    rw [closed] at bracket
    exact (trimStart_suffix _).trans ((List.suffix_cons _ _).trans
      (bracket.trans (List.suffix_cons _ _)))

/-- What an identifier leaves behind, and the blanks behind it. -/
theorem isRest_identifier (h : cs.head?.any isIdentStart = true) :
    IsRest (trimStart (cs.dropWhile isIdent)) cs := by
  have first := head?_any_imp (fun _ => isIdent_of_isIdentStart) h
  exact IsRest.of_suffix (trimStart_suffix _) (IsRest.dropWhile first)

mutual

theorem ReadsType.isRest {cs t rest} : ReadsType cs t rest → IsRest rest cs
  | .mk head marked sized applied => by
    have inner : rest <:+ _ := applied.suffix.trans (sized.suffix.trans
      (marked.suffix.trans ((skipConst_suffix _).trans (trimStart_suffix _))))
    exact (IsRest.of_suffix inner head.isRest).suffix_of (skipConst_suffix _)

theorem ReadsName.isRest {cs t rest} : ReadsName cs t rest → IsRest rest cs
  | .builtin read => Primitive.isRest_of_read? read
  | .segments _ chain => chain.isRest

theorem ReadsSegments.isRest {cs t rest} : ReadsSegments cs t rest → IsRest rest cs
  | .last first _ => IsRest.of_suffix (trimStart_suffix _) first.isRest
  | .more first joined _ others => by
    have separator := IsRest.of_suffix (trimStart_suffix _) first.isRest
    rw [joined] at separator
    exact ((others.isRest.suffix_of (trimStart_suffix _)).trans
      ((IsRest.cons _ _).trans (IsRest.cons _ _))).trans separator

theorem ReadsSegment.isRest {cs t rest} : ReadsSegment cs t rest → IsRest rest cs
  | .plain starts _ => isRest_identifier starts
  | .template starts opens list => by
    have bracket := isRest_identifier starts
    rw [opens] at bracket
    exact (((IsRest.cons _ _).trans list.isRest).trans (IsRest.cons _ _)).trans bracket

theorem ReadsArguments.isRest {cs ts rest} : ReadsArguments cs ts rest → IsRest rest cs
  | .last first _ =>
    (IsRest.of_suffix (trimStart_suffix _) first.isRest).suffix_of (trimStart_suffix _)
  | .more first joined _ others => by
    have comma := (IsRest.of_suffix (trimStart_suffix _) first.isRest).suffix_of
      (trimStart_suffix _)
    rw [joined] at comma
    exact (others.isRest.trans (IsRest.cons _ _)).trans comma

theorem ReadsArgument.isRest {cs t rest} : ReadsArgument cs t rest → IsRest rest cs
  | .number digit => IsRest.dropWhile digit
  | .wildcard => IsRest.cons _ _
  | .type _ _ read => read.isRest

theorem ReadsParameterList.suffix {cs parameters rest} :
    ReadsParameterList cs parameters rest → rest <:+ cs
  | .none _ => List.suffix_rfl
  | .some list => (trimStart_suffix _).trans (list.isRest.suffix.trans (List.suffix_cons _ _))

theorem ReadsParameters.isRest {cs ts rest} : ReadsParameters cs ts rest → IsRest rest cs
  | .nil closed => by
    have inner := IsRest.cons ')' rest
    rw [← closed] at inner
    exact inner.suffix_of (trimStart_suffix _)
  | .last _ first closed => by
    have inner := IsRest.cons ')' rest
    rw [← closed] at inner
    exact ((inner.suffix_of (trimStart_suffix _)).trans first.isRest).suffix_of (trimStart_suffix _)
  | .more _ first joined others => by
    have comma := (IsRest.of_suffix (trimStart_suffix _) first.isRest).suffix_of
      (trimStart_suffix _)
    rw [joined] at comma
    exact (others.isRest.trans (IsRest.cons _ _)).trans comma

end

/-! ## What each reader asks of the others -/

theorem bind_eq_ok_iff {ε α β : Type} {x : Except ε α} {f : α → Except ε β} {b : β} :
    x >>= f = .ok b ↔ ∃ a, x = .ok a ∧ f a = .ok b := by
  cases x with
  | error e => simp [bind, Except.bind]
  | ok a => simp [bind, Except.bind]

theorem readExtent_eq_ok_iff : readExtent cs = .ok (extent, rest) ↔ ReadsExtent cs extent rest := by
  constructor
  · intro h
    unfold readExtent at h
    split at h
    · cases h
      exact .unbounded
    · dsimp only at h
      split at h
      · cases h
      · rename_i number
        split at h
        · rename_i closed
          cases h
          exact .elements number closed
        · cases h
    · rename_i other
      cases h
      refine .none fun open' => ?_
      obtain ⟨rest, rfl⟩ := List.head?_eq_some_iff.mp open'
      exact other rest rfl
  · intro h
    cases h with
    | none plain =>
      unfold readExtent
      split
      · exact absurd rfl plain
      · exact absurd rfl plain
      · rfl
    | unbounded => rfl
    | @elements cs count rest number closed =>
      unfold readExtent
      split
      · rename_i same
        cases same
        cases number
      · rename_i same
        cases same
        simp only [number, closed]
      · rename_i other
        exact absurd rfl (other cs)

theorem readMarkers_cons (n : Nat) (c : Char) (cs : List Char) :
    readMarkers (n + 1) (c :: cs) =
      if isMarker c then
        (c :: (readMarkers n (skipConst (trimStart cs))).1,
          (readMarkers n (skipConst (trimStart cs))).2)
      else ([], c :: cs) := by
  simp only [readMarkers, isMarker, Bool.or_eq_true, beq_iff_eq]

theorem readMarkers_eq_iff (fuel : cs.length ≤ n) :
    readMarkers n cs = (markers, rest) ↔ ReadsMarkers cs markers rest := by
  -- by induction on the fuel: every marker takes one, and one character or more
  induction n generalizing cs markers with
  | zero =>
    obtain rfl := List.eq_nil_of_length_eq_zero (Nat.le_zero.mp fuel)
    constructor
    · intro h
      cases h
      exact .nil rfl
    · intro h
      cases h
      rfl
  | succ n ih =>
    cases cs with
    | nil =>
      constructor
      · intro h
        cases h
        exact .nil rfl
      · intro h
        cases h
        rfl
    | cons c cs =>
      have shorter : (skipConst (trimStart cs)).length ≤ n :=
        Nat.le_trans ((skipConst_suffix _).trans (trimStart_suffix _)).length_le
          (Nat.le_of_succ_le_succ fuel)
      rw [readMarkers_cons]
      cases marker : isMarker c with
      | true =>
        constructor
        · intro h
          cases h
          exact .cons marker ((ih shorter).mp rfl)
        · intro h
          cases h with
          | nil plain => exact absurd marker (Bool.eq_false_iff.mp plain)
          | cons _ more => rw [if_pos rfl, (ih shorter).mpr more]
      | false =>
        constructor
        · intro h
          cases h
          exact .nil marker
        · intro h
          cases h with
          | nil plain => rfl
          | cons marker' _ => exact absurd marker' (Bool.eq_false_iff.mp marker)

theorem readsMarkers (fuel : cs.length ≤ n) :
    ReadsMarkers cs (readMarkers n cs).1 (readMarkers n cs).2 :=
  (readMarkers_eq_iff fuel).mp rfl

/-- The name of a type and what follows it. -/
def readName (n : Nat) (cs : List Char) : Except Stuck (TypeTree × List Char) :=
  match Primitive.read? cs with
  | some (spelling, rest) => .ok (ofBaseName spelling, rest)
  | none => readSegments n cs

/-- A template argument and what follows it. -/
def readArgument (n : Nat) (cs : List Char) : Except Stuck (TypeTree × List Char) :=
  if cs.head?.any Char.isDigit then
    .ok (ofBaseName (String.ofList (cs.takeWhile Char.isDigit)), cs.dropWhile Char.isDigit)
  else
    match cs with
    | '*' :: cs => .ok (wildcard, cs)
    | cs => readType n cs

/-- The parameters of a function type, if it is one, and what follows them. -/
def readParameterList (n : Nat) (cs : List Char) :
    Except Stuck (Option (List TypeTree) × List Char) :=
  match cs with
  | '(' :: cs => do
    let (parameters, cs) ← readParameters n cs
    pure (some parameters, trimStart cs)
  | cs => .ok (none, cs)

theorem readParameterList_bind {β : Type} (n : Nat) (cs : List Char)
    (next : Option (List TypeTree) × List Char → Except Stuck β) :
    readParameterList n cs >>= next =
      match cs with
      | '(' :: cs => do
        let (parameters, cs) ← readParameters n cs
        next (some parameters, trimStart cs)
      | cs => next (none, cs) := by
  unfold readParameterList
  split
  · rw [bind_assoc]
    rfl
  · rfl

theorem readArgument_bind {β : Type} (n : Nat) (cs : List Char)
    (next : TypeTree × List Char → Except Stuck β) :
    readArgument n cs >>= next =
      if cs.head?.any Char.isDigit then
        next (ofBaseName (String.ofList (cs.takeWhile Char.isDigit)), cs.dropWhile Char.isDigit)
      else
        match cs with
        | '*' :: cs => next (wildcard, cs)
        | cs => readType n cs >>= next := by
  unfold readArgument
  split
  · rfl
  · split
    · rfl
    · rfl

theorem readType_succ (n : Nat) (start : List Char) : readType (n + 1) start = (do
    let (name, behind) ← readName n (skipConst start)
    let (markers, beyond) := readMarkers n (skipConst (trimStart behind))
    let (extent, next) ← readExtent beyond
    let (parameters, rest) ← readParameterList n next
    pure (named (readText start rest) (name.baseName ++ String.ofList markers) name.qualifiers
      name.args parameters extent, rest)) := by
  rw [readType, readName]
  simp only [readParameterList_bind]
  cases Primitive.read? (skipConst start) with
  | some read => rfl
  | none => rfl

theorem readArguments_succ (n : Nat) (cs : List Char) : readArguments (n + 1) cs = (do
    let (arg, behind) ← readArgument n (trimStart cs)
    let cs := trimStart behind
    match cs with
    | ',' :: next =>
      if 1 < byteLength cs then do
        let (args, rest) ← readArguments n next
        pure (arg :: args, rest)
      else pure ([arg], cs)
    | cs => pure ([arg], cs)) := by
  rw [readArguments, readArgument_bind]
  rfl

/-! ## The readers and the rules -/

@[simp] theorem ok_bind {ε α β : Type} (a : α) (f : α → Except ε β) :
    (Except.ok a >>= f) = f a := rfl

theorem length_skipConst_trimStart_le (cs : List Char) :
    (skipConst (trimStart cs)).length ≤ cs.length :=
  ((skipConst_suffix _).trans (trimStart_suffix _)).length_le

theorem two_lt_byteLength_colons : 2 < byteLength (':' :: ':' :: cs) ↔ cs ≠ [] := by
  have colons : byteLength (':' :: ':' :: cs) = 2 + byteLength cs := byteLength_append [':', ':'] cs
  rw [colons, ← not_iff_not, not_lt, not_not, ← byteLength_eq_zero_iff]
  omega

theorem one_lt_byteLength_comma : 1 < byteLength (',' :: cs) ↔ cs ≠ [] := by
  have comma : byteLength (',' :: cs) = 1 + byteLength cs := byteLength_append [','] cs
  rw [comma, ← not_iff_not, not_lt, not_not, ← byteLength_eq_zero_iff]
  omega

theorem dropColons?_eq_some_iff : dropHead? "::".toList cs = some rest ↔ cs = ':' :: ':' :: rest :=
  dropHead?_eq_some_iff

-- The induction is on the fuel. On one text at most four readers are called inside each
-- other before a character is read, and each character that was read pays for four more.
mutual

theorem readType_eq_ok_iff {n cs t rest} (fuel : 4 * cs.length + 3 ≤ n) :
    readType n cs = .ok (t, rest) ↔ ReadsType cs t rest := by
  obtain ⟨n, rfl⟩ : ∃ m, n = m + 1 := ⟨n - 1, by omega⟩
  have start := (skipConst_suffix cs).length_le
  rw [readType_succ]
  constructor
  · simp only [bind_eq_ok_iff, Prod.exists]
    rintro ⟨name, behind, head, extent, next, sized, parameters, rest, applied, same⟩
    cases same
    have head := (readName_eq_ok_iff (by omega)).mp head
    have := head.isRest.shorter
    have := length_skipConst_trimStart_le behind
    have marked := readsMarkers (n := n) (Nat.le_trans this (by omega))
    have sized := readExtent_eq_ok_iff.mp sized
    have := (sized.suffix.trans marked.suffix).length_le
    exact .mk head marked sized ((readParameterList_eq_ok_iff (by omega)).mp applied)
  · intro h
    cases h with
    | @mk _ name behind markers beyond extent next _ _ head marked sized applied =>
      have := head.isRest.shorter
      have := length_skipConst_trimStart_le behind
      have := (sized.suffix.trans marked.suffix).length_le
      have fuel' : 4 * next.length ≤ n := by omega
      have marked := (readMarkers_eq_iff (n := n) (by omega)).mpr marked
      have sized := readExtent_eq_ok_iff.mpr sized
      have applied := (readParameterList_eq_ok_iff fuel').mpr applied
      rw [(readName_eq_ok_iff (by omega)).mpr head]
      simp only [ok_bind, marked, sized, applied]
      rfl
termination_by (n, 0)

theorem readName_eq_ok_iff {n cs t rest} (fuel : 4 * cs.length + 2 ≤ n) :
    readName n cs = .ok (t, rest) ↔ ReadsName cs t rest := by
  cases read : Primitive.read? cs with
  | some found =>
    simp only [readName, read, Except.ok.injEq, Prod.mk.injEq]
    constructor
    · rintro ⟨rfl, rfl⟩
      exact .builtin read
    · intro h
      cases h with
      | builtin read' =>
        cases read.symm.trans read'
        exact ⟨rfl, rfl⟩
      | segments none _ => cases read.symm.trans none
  | none =>
    simp only [readName, read]
    rw [readSegments_eq_ok_iff fuel]
    constructor
    · exact .segments read
    · intro h
      cases h with
      | builtin read' => cases read.symm.trans read'
      | segments _ chain => exact chain
termination_by (n, 1)

theorem readSegments_eq_ok_iff {n cs t rest} (fuel : 4 * cs.length + 2 ≤ n) :
    readSegments n cs = .ok (t, rest) ↔ ReadsSegments cs t rest := by
  -- four for each character pay for the readers in between, and a segment is never empty
  obtain ⟨n, rfl⟩ : ∃ m, n = m + 1 := ⟨n - 1, by omega⟩
  rw [readSegments]
  constructor
  · simp only [bind_eq_ok_iff, Prod.exists]
    rintro ⟨segment, behind, first, run⟩
    have first := (readSegment_eq_ok_iff (by omega)).mp first
    have shorter := (IsRest.of_suffix (trimStart_suffix _) first.isRest).shorter
    split at run
    · rename_i next joined
      rw [dropColons?_eq_some_iff] at joined
      rw [joined, List.length_cons, List.length_cons] at shorter
      split at run
      · rename_i more
        rw [joined, two_lt_byteLength_colons] at more
        simp only [bind_eq_ok_iff, Prod.exists] at run
        obtain ⟨name, rest, others, same⟩ := run
        cases same
        have := (trimStart_suffix next).length_le
        exact .more first joined more ((readSegments_eq_ok_iff (by omega)).mp others)
      · -- the separator stands at the end of the text and is left there
        rename_i none
        rw [joined, two_lt_byteLength_colons, not_not] at none
        cases run
        refine .last first fun next' joined' => ?_
        cases joined.symm.trans joined'
        exact none
    · rename_i none
      cases run
      refine .last first fun next joined => ?_
      rw [dropColons?_eq_some_iff.mpr joined] at none
      cases none
  · intro h
    cases h with
    | @last _ _ behind first ends =>
      rw [(readSegment_eq_ok_iff (by omega)).mpr first]
      simp only [ok_bind]
      split
      · rename_i next joined
        rw [dropColons?_eq_some_iff] at joined
        rw [if_neg]
        · rfl
        · rw [joined, two_lt_byteLength_colons, not_not]
          exact ends next joined
      · rfl
    | @more _ _ behind next _ _ first joined nonempty others =>
      have shorter := (IsRest.of_suffix (trimStart_suffix _) first.isRest).shorter
      rw [joined, List.length_cons, List.length_cons] at shorter
      have := (trimStart_suffix next).length_le
      have others := (readSegments_eq_ok_iff (n := n) (by omega)).mpr others
      rw [(readSegment_eq_ok_iff (by omega)).mpr first]
      have colons := dropColons?_eq_some_iff.mpr joined
      rw [joined] at colons
      simp only [ok_bind, joined, colons, two_lt_byteLength_colons, if_pos nonempty, others]
      rfl
termination_by (n, 0)

theorem readSegment_eq_ok_iff {n cs t rest} (fuel : 4 * cs.length + 1 ≤ n) :
    readSegment n cs = .ok (t, rest) ↔ ReadsSegment cs t rest := by
  obtain ⟨n, rfl⟩ : ∃ m, n = m + 1 := ⟨n - 1, by omega⟩
  rw [readSegment]
  constructor
  · intro run
    split at run
    · cases run
    · rename_i starts
      rw [Bool.not_eq_true', Bool.not_eq_false] at starts
      -- an identifier is not empty, so that the fuel lasts for the arguments
      have shorter := (isRest_identifier starts).shorter
      split at run
      · rename_i bracket opens
        rw [opens, List.length_cons] at shorter
        simp only [bind_eq_ok_iff, Prod.exists] at run
        obtain ⟨args, _, list, run⟩ := run
        split at run
        · cases run
          exact .template starts opens ((readArguments_eq_ok_iff (by omega)).mp list)
        · cases run
      · rename_i other
        cases run
        refine .plain starts fun bracket => ?_
        obtain ⟨rest, opens⟩ := List.head?_eq_some_iff.mp bracket
        exact other rest opens
  · intro h
    cases h with
    | plain starts plain =>
      rw [starts]
      simp only [Bool.not_true, Bool.false_eq_true, if_false]
      split
      · rename_i opens
        rw [opens] at plain
        exact absurd rfl plain
      · rfl
    | template starts opens list =>
      have shorter := (isRest_identifier starts).shorter
      rw [opens, List.length_cons] at shorter
      have list := (readArguments_eq_ok_iff (n := n) (by omega)).mpr list
      rw [starts, opens]
      simp only [Bool.not_true, Bool.false_eq_true, if_false, list]
      rfl
termination_by (n, 0)

theorem readArguments_eq_ok_iff {n cs ts rest} (fuel : 4 * cs.length + 4 ≤ n) :
    readArguments n cs = .ok (ts, rest) ↔ ReadsArguments cs ts rest := by
  obtain ⟨n, rfl⟩ : ∃ m, n = m + 1 := ⟨n - 1, by omega⟩
  -- the fuel pays for the blanks in front as well, which are trimmed once more
  have start := (trimStart_suffix cs).length_le
  rw [readArguments_succ]
  constructor
  · simp only [bind_eq_ok_iff, Prod.exists]
    rintro ⟨arg, behind, first, run⟩
    have first := (readArgument_eq_ok_iff (by omega)).mp first
    have shorter := (IsRest.of_suffix (trimStart_suffix _) first.isRest).shorter
    split at run
    · rename_i next joined
      rw [joined, List.length_cons] at shorter
      rw [joined] at run
      split at run
      · rename_i more
        rw [one_lt_byteLength_comma] at more
        simp only [bind_eq_ok_iff, Prod.exists] at run
        obtain ⟨args, rest, others, same⟩ := run
        cases same
        exact .more first joined more ((readArguments_eq_ok_iff (by omega)).mp others)
      · -- the comma stands at the end of the text and is left there
        rename_i none
        rw [one_lt_byteLength_comma, not_not] at none
        cases run
        rw [← joined]
        refine .last first fun next' joined' => ?_
        cases joined.symm.trans joined'
        exact none
    · rename_i other
      cases run
      exact .last first fun next joined => absurd joined (other next)
  · intro h
    cases h with
    | @last _ _ behind first ends =>
      rw [(readArgument_eq_ok_iff (by omega)).mpr first]
      simp only [ok_bind]
      split
      · rename_i next joined
        have none : ¬ 1 < byteLength (',' :: next) := by
          rw [one_lt_byteLength_comma, not_not]
          exact ends next joined
        rw [joined, if_neg none]
        rfl
      · rfl
    | @more _ _ behind next _ _ first joined nonempty others =>
      have shorter := (IsRest.of_suffix (trimStart_suffix _) first.isRest).shorter
      rw [joined, List.length_cons] at shorter
      have others := (readArguments_eq_ok_iff (n := n) (by omega)).mpr others
      rw [(readArgument_eq_ok_iff (by omega)).mpr first]
      simp only [ok_bind, joined, one_lt_byteLength_comma, if_pos nonempty, others]
      rfl
termination_by (n, 0)

theorem readArgument_eq_ok_iff {n cs t rest} (fuel : 4 * cs.length + 3 ≤ n) :
    readArgument n cs = .ok (t, rest) ↔ ReadsArgument cs t rest := by
  constructor
  · intro run
    unfold readArgument at run
    split at run
    · cases run
      exact .number ‹_›
    · rename_i noDigit
      split at run
      · cases run
        exact .wildcard
      · rename_i noStar
        refine .type (Bool.eq_false_iff.mpr noDigit) (fun star => ?_)
          ((readType_eq_ok_iff fuel).mp run)
        obtain ⟨rest, rfl⟩ := List.head?_eq_some_iff.mp star
        exact noStar rest rfl
  · intro h
    cases h with
    | number digit =>
      unfold readArgument
      rw [if_pos digit]
    | wildcard => rfl
    | type noDigit noStar read =>
      unfold readArgument
      rw [if_neg (Bool.eq_false_iff.mp noDigit)]
      split
      · exact absurd rfl noStar
      · exact (readType_eq_ok_iff fuel).mpr read
termination_by (n, 1)

theorem readParameterList_eq_ok_iff {n cs parameters rest} (fuel : 4 * cs.length ≤ n) :
    readParameterList n cs = .ok (parameters, rest) ↔ ReadsParameterList cs parameters rest := by
  constructor
  · intro run
    unfold readParameterList at run
    split at run
    · rename_i cs
      rw [List.length_cons] at fuel
      simp only [bind_eq_ok_iff, Prod.exists] at run
      obtain ⟨parameters, rest, list, same⟩ := run
      cases same
      exact .some ((readParameters_eq_ok_iff (by omega)).mp list)
    · rename_i other
      cases run
      refine .none fun bracket => ?_
      obtain ⟨rest, rfl⟩ := List.head?_eq_some_iff.mp bracket
      exact other rest rfl
  · intro h
    cases h with
    | none plain =>
      unfold readParameterList
      split
      · exact absurd rfl plain
      · rfl
    | some list =>
      rw [List.length_cons] at fuel
      rw [readParameterList, (readParameters_eq_ok_iff (by omega)).mpr list]
      rfl
termination_by (n, 1)

theorem readParameters_eq_ok_iff {n cs ts rest} (fuel : 4 * cs.length + 4 ≤ n) :
    readParameters n cs = .ok (ts, rest) ↔ ReadsParameters cs ts rest := by
  obtain ⟨n, rfl⟩ : ∃ m, n = m + 1 := ⟨n - 1, by omega⟩
  have start := (trimStart_suffix cs).length_le
  rw [readParameters]
  constructor
  · intro run
    split at run
    · cases run
    · rename_i closed
      cases run
      exact .nil closed
    · rename_i other
      -- an empty list is the other case, so that what stands here is a type
      have more : (trimStart cs).head? ≠ some ')' := fun closed => by
        obtain ⟨rest, closed⟩ := List.head?_eq_some_iff.mp closed
        exact other rest closed
      simp only [bind_eq_ok_iff, Prod.exists] at run
      obtain ⟨parameter, behind, first, run⟩ := run
      have first := (readType_eq_ok_iff (by omega)).mp first
      have shorter := (IsRest.of_suffix (trimStart_suffix _) first.isRest).shorter
      split at run
      · rename_i next joined
        rw [joined, List.length_cons] at shorter
        simp only [bind_eq_ok_iff, Prod.exists] at run
        obtain ⟨parameters, rest, others, same⟩ := run
        cases same
        exact .more more first joined ((readParameters_eq_ok_iff (by omega)).mp others)
      · rename_i closed
        cases run
        exact .last more first closed
      · cases run
  · intro h
    cases h with
    | nil closed =>
      rw [closed]
      rfl
    | last more first closed =>
      have first' := (readType_eq_ok_iff (n := n) (by omega)).mpr first
      split
      -- a type was read, so there is something here
      · rename_i none
        rw [none] at first
        exact absurd first.isRest.shorter (Nat.not_lt_zero _)
      · rename_i closed
        rw [closed] at more
        exact absurd rfl more
      · simp only [first', ok_bind, closed]
        rfl
    | more more first joined others =>
      have first' := (readType_eq_ok_iff (n := n) (by omega)).mpr first
      have shorter := (IsRest.of_suffix (trimStart_suffix _) first.isRest).shorter
      rw [joined, List.length_cons] at shorter
      have others := (readParameters_eq_ok_iff (n := n) (by omega)).mpr others
      split
      · rename_i none
        rw [none] at first
        exact absurd first.isRest.shorter (Nat.not_lt_zero _)
      · rename_i closed
        rw [closed] at more
        exact absurd rfl more
      · simp only [first', ok_bind, joined, others]
        rfl
termination_by (n, 0)

end

/-- **A text is a type name if it reads as one, blanks at either end aside.** -/
theorem parse_eq_ok_iff {text : String} : parse text = .ok t ↔
    ∃ rest, ReadsType (trimStart text.toList) t rest ∧ trimStart rest = [] := by
  have fuel : 4 * (trimStart text.toList).length + 3 ≤ 4 * text.toList.length + 4 := by
    have := (trimStart_suffix text.toList).length_le
    omega
  unfold parse
  dsimp only
  constructor
  · intro h
    split at h
    · cases h
    · split at h
      · cases h
      · rename_i tree rest run
        split at h
        · cases h
          exact ⟨rest, (readType_eq_ok_iff fuel).mp run, ‹_›⟩
        · cases h
  · rintro ⟨rest, read, blank⟩
    have filled : isBlankText text ≠ true := fun none => by
      rw [trimStart_eq_nil_iff.mpr none] at read
      exact absurd read.isRest.shorter (Nat.not_lt_zero _)
    rw [if_neg filled, (readType_eq_ok_iff fuel).mpr read]
    simp only [blank]

end WatchView.TypeTree
