import WatchView.Proofs.TypeTree.Reparse
import WatchView.TypeTree.Pattern
/-!
# What a pattern covers

A pattern and a type are compared place by place: their own names first, then
the qualifiers and the arguments that face each other, to any depth. A pattern
covers a type if at every such place it has a wildcard or agrees with the type
(`covers_iff`). So a pattern covers itself, and it covers whatever is covered by
a pattern it covers (`covers_preorder`). This takes that no name is spelled like
the wildcard, which holds of the names that are read.

Parameters of function types face each other as well, but a pattern does not
compare them: that a pattern corresponds to a type in its whole structure does
not follow (`parameters_not_compared`), and `corresponds_iff` tells what is to be
added.
-/

namespace WatchView

namespace TypeTree

open Text

/-! ## Places that face each other -/

/-- The kinds of parts of a type name. -/
inductive Part where
  | qualifier
  | arg
  | parameter
deriving DecidableEq

/-- The parts of a kind. -/
def parts (t : TypeTree) : Part → List TypeTree
  | .qualifier => t.qualifiers
  | .arg => t.args
  | .parameter => t.parameters.getD []

/-- A place `x` of a pattern faces a place `y` of a type: the two themselves do, and
the places of parts that stand in the same position do, if they are of one of
these kinds. -/
inductive Faces (kinds : Part → Prop) : TypeTree → TypeTree → TypeTree → TypeTree → Prop
  | self (p t : TypeTree) : Faces kinds p t p t
  | inside {p t q u x y : TypeTree} {k : Part} {i : Nat} (kind : kinds k)
      (left : (p.parts k)[i]? = some q) (right : (t.parts k)[i]? = some u)
      (inner : Faces kinds q u x y) : Faces kinds p t x y

/-- The kinds of parts a pattern is compared in. -/
def IsCompared (k : Part) : Prop := k ≠ .parameter

/-- A place of a pattern agrees with one of a type, parameters aside. -/
structure Agrees (x y : TypeTree) : Prop where
  baseName : x.baseName = y.baseName
  qualifiers : x.qualifiers.length = y.qualifiers.length
  args : x.args.length = y.args.length ∨
    x.args.length < y.args.length ∧ x.args.getLast? = some wildcard
  extent : x.extent = y.extent ∨ x.extent = some .unbounded ∧ y.extent.isSome

variable {kinds kinds' : Part → Prop} {p q r t u x y x' y' : TypeTree} {ps qs ts : List TypeTree}

theorem Faces.mono (weaker : ∀ k, kinds k → kinds' k) (h : Faces kinds p t x y) :
    Faces kinds' p t x y := by
  induction h with
  | self p t => exact .self p t
  | inside kind left right _ ih => exact .inside (weaker _ kind) left right ih

theorem Faces.trans (h : Faces kinds p t x y) (h' : Faces kinds x y x' y') :
    Faces kinds p t x' y' := by
  induction h with
  | self => exact h'
  | inside kind left right _ ih => exact .inside kind left right (ih h')

/-- The wildcard has no parts. -/
theorem parts_wildcard (k : Part) : wildcard.parts k = [] := by
  cases k with
  | qualifier => rfl
  | arg => rfl
  | parameter => rfl

theorem sizeOf_lt_of_mem_parts {k : Part} (mem : q ∈ p.parts k) : sizeOf q < sizeOf p := by
  cases p with
  | wildcard =>
    rw [parts_wildcard] at mem
    cases mem
  | named full base qualifiers args parameters extent =>
    rw [named.sizeOf_spec]
    cases k with
    | qualifier =>
      have := List.sizeOf_lt_of_mem (show q ∈ qualifiers from mem)
      omega
    | arg =>
      have := List.sizeOf_lt_of_mem (show q ∈ args from mem)
      omega
    | parameter =>
      cases parameters with
      | none => cases mem
      | some parameters =>
        have := List.sizeOf_lt_of_mem (show q ∈ parameters from mem)
        rw [Option.some.sizeOf_spec]
        omega

/-- What holds of a tree if it holds of its parts holds of all trees. -/
@[elab_as_elim]
theorem parts_induction {motive : TypeTree → Prop}
    (step : ∀ t, (∀ k, ∀ q ∈ t.parts k, motive q) → motive t) (t : TypeTree) : motive t :=
  step t fun _ q mem =>
    have := sizeOf_lt_of_mem_parts mem
    parts_induction step q
termination_by sizeOf t

/-! ## Covering place by place -/

theorem coversEach_iff :
    coversEach ps ts = true ↔
      ∀ (i : Nat) (q u : TypeTree), ps[i]? = some q → ts[i]? = some u → covers q u = true := by
  induction ps generalizing ts with
  | nil =>
    rw [coversEach]
    · simp
    · simp
  | cons p ps ih =>
    cases ts with
    | nil =>
      rw [coversEach]
      · simp
      · simp
    | cons t ts =>
      rw [coversEach, Bool.and_eq_true, ih]
      constructor
      · rintro ⟨first, others⟩ i q u left right
        cases i with
        | zero =>
          cases left
          cases right
          exact first
        | succ i => exact others i q u left right
      · intro each
        exact ⟨each 0 p t rfl rfl, fun i q u left right => each (i + 1) q u left right⟩

theorem arityCovers_iff : arityCovers ps ts = true ↔
    ps.length = ts.length ∨ ps.length < ts.length ∧ ps.getLast? = some wildcard := by
  have last : ps.getLast?.any isWildcard = true ↔ ps.getLast? = some wildcard := by
    rcases ps.getLast? with _ | t
    · simp
    · cases t with
      | wildcard => simp [isWildcard]
      | named => simp [isWildcard]
  simp only [arityCovers, Bool.or_eq_true, Bool.and_eq_true, beq_iff_eq, decide_eq_true_eq, last]

theorem extentCovers_iff {e f : Option Extent} : extentCovers e f = true ↔
    e = f ∨ e = some .unbounded ∧ f.isSome := by
  rcases e with _ | _ | n
  · cases f with
    | none => simp [extentCovers]
    | some f => simp [extentCovers]
  · cases f with
    | none => simp [extentCovers]
    | some f => simp [extentCovers, Extent.covers]
  · cases f with
    | none => simp [extentCovers]
    | some f =>
      simp only [extentCovers, Extent.covers, beq_iff_eq, Option.some.injEq, reduceCtorEq,
        false_and, or_false]
      exact eq_comm

/-- A wildcard covers anything; a name covers what it agrees with, if its parts
cover those that face them. -/
theorem covers_iff_parts : covers p t = true ↔ p = wildcard ∨ Agrees p t ∧
    ∀ k, IsCompared k → ∀ (i : Nat) (q u : TypeTree), (p.parts k)[i]? = some q →
      (t.parts k)[i]? = some u → covers q u = true := by
  cases p with
  | wildcard => simp [covers]
  | named full base qualifiers args parameters extent =>
    simp only [covers, Bool.and_eq_true, beq_iff_eq, arityCovers_iff, extentCovers_iff,
      coversEach_iff, reduceCtorEq, false_or]
    constructor
    · rintro ⟨⟨⟨⟨⟨many, named⟩, inQualifiers⟩, arity⟩, inArgs⟩, sized⟩
      refine ⟨⟨named, many, arity, sized⟩, fun k compared => ?_⟩
      cases k with
      | qualifier => exact inQualifiers
      | arg => exact inArgs
      | parameter => exact absurd rfl compared
    · rintro ⟨⟨named, many, arity, sized⟩, each⟩
      exact ⟨⟨⟨⟨⟨many, named⟩, each .qualifier nofun⟩, arity⟩, each .arg nofun⟩, sized⟩

/-- **A pattern covers a type if at every place that is compared it has a wildcard or
agrees with the type.** -/
theorem covers_iff : covers p t = true ↔
    ∀ x y, Faces IsCompared p t x y → x = wildcard ∨ Agrees x y := by
  constructor
  · intro h x y faces
    induction faces with
    | self p t => exact (covers_iff_parts.mp h).imp_right And.left
    | inside kind left right _ ih =>
      rcases covers_iff_parts.mp h with rfl | ⟨-, each⟩
      · rw [parts_wildcard] at left
        cases left
      · exact ih (each _ kind _ _ _ left right)
  · intro h
    induction p using parts_induction generalizing t with
    | step p ih =>
      refine covers_iff_parts.mpr ((h p t (.self p t)).imp_right fun agrees => ⟨agrees, ?_⟩)
      intro k kind i q u left right
      exact ih k q (List.mem_of_getElem? left) fun x y faces =>
        h x y (.inside kind left right faces)

/-! ## Names that are read -/

/-- All that stands in a tree has a property. -/
def Throughout (P : TypeTree → Prop) (t : TypeTree) : Prop := ∀ r, Occurs r t → P r

theorem throughout_iff {P : TypeTree → Prop} : Throughout P t ↔
    P t ∧ ∀ k, ∀ q ∈ t.parts k, Throughout P q := by
  constructor
  · intro h
    refine ⟨h t .self, fun k q mem r occurs => ?_⟩
    cases k with
    | qualifier => exact h r (.qualifier mem occurs)
    | arg => exact h r (.arg mem occurs)
    | parameter =>
      cases list : t.parameters with
      | none =>
        rw [parts, list] at mem
        cases mem
      | some ps =>
        rw [parts, list] at mem
        exact h r (.parameter list mem occurs)
  · rintro ⟨here, inside⟩ r occurs
    cases occurs with
    | self => exact here
    | qualifier mem inner => exact inside .qualifier _ mem r inner
    | arg mem inner => exact inside .arg _ mem r inner
    | parameter list mem inner =>
      refine inside .parameter _ ?_ r inner
      rw [parts, list]
      exact mem

/-- The name of a tree starts with a character of an identifier. -/
def IsWritten (t : TypeTree) : Prop := t.baseName.toList.head?.any isIdent = true

/-- A wildcard or a name that is written out. -/
def IsSpelled (t : TypeTree) : Prop := t = wildcard ∨ IsWritten t

/-- A name that is written out is not spelled like the wildcard. -/
theorem IsSpelled.ne_star (h : IsSpelled p) (named : p ≠ wildcard) : p.baseName ≠ "*" := by
  intro star
  have written := h.resolve_left named
  rw [IsWritten, star] at written
  exact absurd written (by decide)

/-- The name is written out, and so are all names in its parts. -/
def IsWrittenOut (t : TypeTree) : Prop :=
  IsWritten t ∧ ∀ k, ∀ q ∈ t.parts k, Throughout IsSpelled q

theorem IsWrittenOut.throughout (h : IsWrittenOut t) : Throughout IsSpelled t :=
  throughout_iff.mpr ⟨.inr h.1, h.2⟩

theorem isWrittenOut_named {full base : String} {qualifiers args : List TypeTree}
    {parameters : Option (List TypeTree)} {extent : Option Extent}
    (written : base.toList.head?.any isIdent = true)
    (inQualifiers : ∀ q ∈ qualifiers, Throughout IsSpelled q)
    (inArgs : ∀ a ∈ args, Throughout IsSpelled a)
    (inParameters : ∀ ps, parameters = some ps → ∀ p ∈ ps, Throughout IsSpelled p) :
    IsWrittenOut (named full base qualifiers args parameters extent) := by
  refine ⟨written, fun k q mem => ?_⟩
  cases k with
  | qualifier => exact inQualifiers q mem
  | arg => exact inArgs q mem
  | parameter =>
    cases parameters with
    | none => cases mem
    | some ps => exact inParameters ps rfl q mem

theorem throughout_wildcard : Throughout IsSpelled wildcard :=
  throughout_iff.mpr ⟨.inl rfl, fun k q mem => by
    rw [parts_wildcard] at mem
    cases mem⟩

/-- What a reader takes from the front of a text starts as the text does. -/
theorem head?_readPart {cs rest : List Char} (h : IsRest rest cs) :
    (readPart cs rest).head? = cs.head? := by
  obtain ⟨front, rfl⟩ := h.suffix
  rw [readPart_append]
  cases front with
  | nil => exact absurd h.shorter (Nat.lt_irrefl _)
  | cons c front => rfl

/-- A front that is taken starts as the text does. -/
theorem head?_taken {f : Char → Bool} {cs : List Char} (h : cs.head?.any f = true)
    (imp : ∀ c, f c = true → isIdent c = true) :
    (String.ofList (cs.takeWhile f)).toList.head?.any isIdent = true := by
  rw [String.toList_ofList]
  cases cs with
  | nil => cases h
  | cons c cs =>
    have first : f c = true := h
    rw [List.takeWhile_cons_of_pos first]
    exact imp c first

/-- A built-in name starts with a character of a word. -/
theorem head?_of_read? {cs rest : List Char} {spelling : String}
    (h : Primitive.read? cs = some (spelling, rest)) : cs.head?.any isIdent = true := by
  by_contra none
  rw [Bool.not_eq_true] at none
  obtain ⟨found, -, -⟩ := Primitive.read?_eq_some_iff.mp h
  rw [Primitive.behind?_eq, Option.or_eq_some_iff] at found
  rcases found with vector | ⟨-, words⟩
  · obtain ⟨blank, blank', digits, -, -, -, -, rfl⟩ :=
      Primitive.exists_vectorText_of_behindVector? vector
    cases none
  · rw [Primitive.behindWords?] at words
    obtain ⟨spelling, -, agrees⟩ := List.exists_of_findSome?_eq_some words
    obtain ⟨word, mem⟩ := Primitive.mem_of_behindSpelling? agrees
    rw [Primitive.leadingWords_of_head (Primitive.noWord none)] at mem
    cases mem

theorem head?_identifier {cs : List Char} (starts : cs.head?.any isIdentStart = true) :
    (String.ofList (cs.takeWhile isIdent)).toList.head?.any isIdent = true := by
  have first := head?_any_imp (fun _ => isIdent_of_isIdentStart) starts
  exact head?_taken first fun _ ident => ident

mutual

theorem ReadsType.isWrittenOut {cs t rest} : ReadsType cs t rest → IsWrittenOut t
  | .mk head _ _ applied => by
    have name := head.isWrittenOut
    refine isWrittenOut_named ?_ (name.2 .qualifier) (name.2 .arg) applied.throughout
    rw [String.toList_append]
    exact head?_append_any name.1 _

theorem ReadsName.isWrittenOut {cs t rest} : ReadsName cs t rest → IsWrittenOut t
  | .builtin read => by
    refine isWrittenOut_named ?_ nofun nofun nofun
    obtain ⟨-, -, rfl⟩ := Primitive.read?_eq_some_iff.mp read
    rw [String.toList_ofList, head?_readPart (Primitive.isRest_of_read? read)]
    exact head?_of_read? read
  | .segments _ chain => chain.isWrittenOut

theorem ReadsSegments.isWrittenOut {cs t rest} : ReadsSegments cs t rest → IsWrittenOut t
  | .last first _ => first.isWrittenOut
  | .more first _ _ others =>
    have name := others.isWrittenOut
    isWrittenOut_named name.1
      (List.forall_mem_cons.mpr ⟨first.isWrittenOut.throughout, name.2 .qualifier⟩)
      (name.2 .arg) nofun

theorem ReadsSegment.isWrittenOut {cs t rest} : ReadsSegment cs t rest → IsWrittenOut t
  | .plain starts _ =>
    isWrittenOut_named (head?_identifier starts) nofun nofun nofun
  | .template starts _ list =>
    isWrittenOut_named (head?_identifier starts) nofun list.throughout nofun

theorem ReadsArguments.throughout {cs ts rest} : ReadsArguments cs ts rest →
    ∀ a ∈ ts, Throughout IsSpelled a
  | .last first _ => List.forall_mem_singleton.mpr first.throughout
  | .more first _ _ others => List.forall_mem_cons.mpr ⟨first.throughout, others.throughout⟩

theorem ReadsArgument.throughout {cs a rest} : ReadsArgument cs a rest → Throughout IsSpelled a
  | .number digit =>
    have number := head?_taken digit fun _ => isIdent_of_isDigit
    have out : IsWrittenOut (ofBaseName _) := isWrittenOut_named number nofun nofun nofun
    out.throughout
  | .wildcard => throughout_wildcard
  | .type _ _ read => read.isWrittenOut.throughout

theorem ReadsParameterList.throughout {cs parameters rest} :
    ReadsParameterList cs parameters rest →
      ∀ ps, parameters = some ps → ∀ p ∈ ps, Throughout IsSpelled p
  | .none _, _, list => nomatch list
  | .some list, _, rfl => list.throughout

theorem ReadsParameters.throughout {cs ts rest} : ReadsParameters cs ts rest →
    ∀ p ∈ ts, Throughout IsSpelled p
  | .nil _ => nofun
  | .last _ first _ => List.forall_mem_singleton.mpr first.isWrittenOut.throughout
  | .more _ first _ others =>
    List.forall_mem_cons.mpr ⟨first.isWrittenOut.throughout, others.throughout⟩

end

/-- A type name that was read, or the pattern for any type. -/
def IsTypeName (t : TypeTree) : Prop := t = wildcard ∨ ∃ text, parse text = .ok t

/-- What stands in a type name is a wildcard or a name that is written out. -/
theorem IsTypeName.throughout (h : IsTypeName t) : Throughout IsSpelled t := by
  rcases h with rfl | ⟨text, read⟩
  · exact throughout_wildcard
  · obtain ⟨rest, read, -⟩ := parse_eq_ok_iff.mp read
    exact read.isWrittenOut.throughout

/-! ## Patterns that cover patterns -/

theorem Agrees.refl (t : TypeTree) : Agrees t t := ⟨rfl, rfl, .inl rfl, .inl rfl⟩

theorem covers_refl (p : TypeTree) : covers p p = true := by
  induction p using parts_induction with
  | step p ih =>
    refine covers_iff_parts.mpr (.inr ⟨.refl p, fun k _ i q u left right => ?_⟩)
    rw [left] at right
    cases right
    exact ih k q (List.mem_of_getElem? left)

/-- A name that is written out covers no wildcard. -/
theorem eq_wildcard_of_covers (spelled : IsSpelled p) (h : covers p wildcard = true) :
    p = wildcard := by
  by_contra named
  obtain ⟨agrees, -⟩ := (covers_iff_parts.mp h).resolve_left named
  exact spelled.ne_star named agrees.baseName

/-- Where a pattern has a wildcard at the end of its arguments, so has a pattern that
covers it with as many. -/
theorem getLast?_eq_wildcard (spelled : ∀ a ∈ ps, IsSpelled a) (many : ps.length = qs.length)
    (each : ∀ (i : Nat) (q u : TypeTree), ps[i]? = some q → qs[i]? = some u → covers q u = true)
    (last : qs.getLast? = some wildcard) : ps.getLast? = some wildcard := by
  rw [List.getLast?_eq_getElem?] at last ⊢
  rw [← many] at last
  have filled : ps.length - 1 < ps.length := by
    have := (List.getElem?_eq_some_iff.mp last).1
    omega
  have mine := List.getElem?_eq_getElem filled
  have covered := each _ _ _ mine last
  rw [mine, eq_wildcard_of_covers (spelled _ (List.getElem_mem filled)) covered]

/-- Agreement goes on from a pattern to what a pattern it covers agrees with. -/
theorem Agrees.trans (spelled : ∀ a ∈ p.args, IsSpelled a) (h : Agrees p q) (h' : Agrees q r)
    (each : ∀ (i : Nat) (a b : TypeTree), p.args[i]? = some a → q.args[i]? = some b →
      covers a b = true) : Agrees p r where
  baseName := h.baseName.trans h'.baseName
  qualifiers := h.qualifiers.trans h'.qualifiers
  args := by
    rcases h.args with same | ⟨fewer, last⟩
    · rcases h'.args with same' | ⟨fewer', last'⟩
      · exact .inl (same.trans same')
      · -- the wildcard that takes the rest faces one of the first pattern
        exact .inr ⟨same ▸ fewer', getLast?_eq_wildcard spelled same each last'⟩
    · refine .inr ⟨?_, last⟩
      rcases h'.args with same' | ⟨fewer', -⟩
      · exact same' ▸ fewer
      · exact fewer.trans fewer'
  extent := by
    rcases h.extent with same | ⟨unbounded, some⟩
    · rw [same]
      exact h'.extent
    · refine .inr ⟨unbounded, ?_⟩
      rcases h'.extent with same' | ⟨-, some'⟩
      · exact same' ▸ some
      · exact some'

theorem covers_trans (spelled : Throughout IsSpelled p) (h : covers p q = true)
    (h' : covers q r = true) : covers p r = true := by
  induction p using parts_induction generalizing q r with
  | step p ih =>
    obtain ⟨here, inside⟩ := throughout_iff.mp spelled
    refine covers_iff_parts.mpr (or_iff_not_imp_left.mpr fun named => ?_)
    obtain ⟨agrees, each⟩ := (covers_iff_parts.mp h).resolve_left named
    have named' : q ≠ wildcard := by
      rintro rfl
      exact named (eq_wildcard_of_covers here h)
    obtain ⟨agrees', each'⟩ := (covers_iff_parts.mp h').resolve_left named'
    refine ⟨agrees.trans (fun a mem => (throughout_iff.mp (inside .arg a mem)).1) agrees'
      (each .arg nofun), fun k kind i a c left right => ?_⟩
    -- the pattern in between has a part in this position too, as it has no fewer of them
    have between : i < (q.parts k).length := by
      have within := (List.getElem?_eq_some_iff.mp left).1
      cases k with
      | qualifier => exact agrees.qualifiers ▸ within
      | arg => exact within.trans_le (agrees.args.elim (·.le) (·.1.le))
      | parameter => exact absurd rfl kind
    have middle := List.getElem?_eq_getElem between
    exact ih k a (List.mem_of_getElem? left) (inside k a (List.mem_of_getElem? left))
      (each k kind i a _ left middle) (each' k kind i _ c middle right)

/-- **Covering is a preorder of type names**: a pattern covers itself, and it covers
what is covered by a pattern that it covers. So it covers another if and only if
it covers every type the other one covers. -/
theorem covers_preorder (hp : IsTypeName p) (hq : IsTypeName q) :
    covers p p = true ∧ (∀ r, covers p q = true → covers q r = true → covers p r = true) ∧
      (covers p q = true ↔ ∀ r, IsTypeName r → covers q r = true → covers p r = true) := by
  have goesOn (r : TypeTree) (h : covers p q = true) (h' : covers q r = true) :=
    covers_trans hp.throughout h h'
  exact ⟨covers_refl p, goesOn, fun h r _ => goesOn r h, fun all => all q hq (covers_refl q)⟩

/-- What becomes of a pattern and a type that are given as texts. -/
def coversText? (pattern type : String) : Option Bool := do
  return covers (← parse? pattern) (← parse? type)

theorem exists_of_coversText? {pattern type : String} {answer : Bool}
    (h : coversText? pattern type = some answer) :
    ∃ p t, parse pattern = .ok p ∧ parse type = .ok t ∧ covers p t = answer := by
  unfold coversText? parse? at h
  cases left : parse pattern with
  | error e =>
    rw [left] at h
    cases h
  | ok p =>
    cases right : parse type with
    | error e =>
      rw [left, right] at h
      cases h
    | ok t =>
      rw [left, right] at h
      exact ⟨p, t, rfl, rfl, Option.some.inj h⟩

/-- A pattern that takes all further arguments, one that has two more and an open
extent, and a type. -/
theorem covers_preorder_map :
    ∃ p q r, parse "Map<int, *>" = .ok p ∧ parse "Map<int, *, Alloc[]>" = .ok q ∧
      parse "Map<int, float, Alloc[3]>" = .ok r ∧ covers p p = true ∧ covers p q = true ∧
      covers q r = true ∧ covers p r = true := by
  obtain ⟨p, q, hp, hq, first⟩ := exists_of_coversText?
    (show coversText? "Map<int, *>" "Map<int, *, Alloc[]>" = some true by decide +kernel)
  obtain ⟨q', r, hq', hr, second⟩ := exists_of_coversText?
    (show coversText? "Map<int, *, Alloc[]>" "Map<int, float, Alloc[3]>" = some true by
      decide +kernel)
  obtain rfl : q = q' := Except.ok.inj (hq.symm.trans hq')
  obtain ⟨self, goesOn, -⟩ := covers_preorder (.inr ⟨_, hp⟩) (.inr ⟨_, hq⟩)
  exact ⟨p, q, r, hp, hq, hr, self, first, second, goesOn r first second⟩

/-! ## The whole structure -/

/-- A pattern corresponds to a type in its whole structure: at every place, the
parameters of function types included, it has a wildcard, or it agrees with
the type and has as many parameters or none as well. -/
def Corresponds (p t : TypeTree) : Prop :=
  ∀ x y, Faces (fun _ => True) p t x y → x = wildcard ∨
    Agrees x y ∧ x.parameters.map List.length = y.parameters.map List.length

/-- Two places are function types of as many parameters, which correspond, or neither
is a function type. -/
def ParametersCorrespond (x y : TypeTree) : Prop :=
  x.parameters.map List.length = y.parameters.map List.length ∧
    ∀ (i : Nat) (q u : TypeTree), (x.parts .parameter)[i]? = some q →
      (y.parts .parameter)[i]? = some u → Corresponds q u

theorem Corresponds.covers (h : Corresponds p t) : covers p t = true :=
  covers_iff.mpr fun x y faces => (h x y (faces.mono fun _ _ => trivial)).imp_right And.left

theorem Corresponds.inside (h : Corresponds p t)
    (faces : Faces (fun _ => True) p t x y) : Corresponds x y :=
  fun x' y' faces' => h x' y' (faces.trans faces')

/-- **What is missing for a pattern to correspond to a type it covers** is that the
parameters correspond, at every place that is compared. -/
theorem corresponds_iff : Corresponds p t ↔ covers p t = true ∧
    ∀ x y, Faces IsCompared p t x y → x = wildcard ∨ ParametersCorrespond x y := by
  constructor
  · refine fun h => ⟨h.covers, fun x y faces => ?_⟩
    have faces : Faces (fun _ => True) p t x y := faces.mono fun _ _ => trivial
    refine (h x y faces).imp_right fun ⟨_, many⟩ => ⟨many, fun i q u left right => ?_⟩
    exact h.inside (faces.trans (.inside trivial left right (.self q u)))
  · rintro ⟨covered, parameters⟩ x y faces
    -- along the way to a place: a parameter corresponds, any other part is covered
    induction faces with
    | self p t =>
      refine (covers_iff.mp covered p t (.self p t)).elim .inl fun agrees => ?_
      exact (parameters p t (.self p t)).imp_right fun ⟨many, _⟩ => ⟨agrees, many⟩
    | @inside p t q u x y k i _ left right inner ih =>
      have named : p ≠ wildcard := by
        rintro rfl
        rw [parts_wildcard] at left
        cases left
      by_cases kind : IsCompared k
      · obtain ⟨-, each⟩ := (covers_iff_parts.mp covered).resolve_left named
        exact ih (each k kind i q u left right) fun x y faces =>
          parameters x y (.inside kind left right faces)
      · obtain rfl : k = .parameter := not_not.mp kind
        obtain ⟨-, each⟩ := (parameters p t (.self p t)).resolve_left named
        exact each i q u left right x y inner

/-- The base names of the parameters of a function type. -/
def parameterNames (t : TypeTree) : Option (List String) := t.parameters.map (List.map baseName)

/-- Function types that correspond have parameters of the same names, if none of them
is a wildcard. -/
theorem Corresponds.parameterNames_eq (h : Corresponds p t) (named : p.isWildcard = false)
    (written : "*" ∉ p.parameterNames.getD []) : p.parameterNames = t.parameterNames := by
  have known : p ≠ wildcard := by
    rintro rfl
    cases named
  obtain ⟨many, each⟩ := ((corresponds_iff.mp h).2 p t (.self p t)).resolve_left known
  unfold parameterNames parts at *
  cases left : p.parameters with
  | none =>
    cases right : t.parameters with
    | none => rfl
    | some us => simp [left, right] at many
  | some qs =>
    cases right : t.parameters with
    | none => simp [left, right] at many
    | some us =>
      simp only [left, right, Option.map_some, Option.some.injEq, Option.getD_some] at *
      refine List.ext_getElem (by simpa using many) fun i hq hu => ?_
      rw [List.length_map] at hq hu
      rw [List.getElem_map, List.getElem_map]
      have facing := each i _ _ (List.getElem?_eq_getElem hq) (List.getElem?_eq_getElem hu)
      rcases facing _ _ (.self _ _) with wild | ⟨agrees, -⟩
      · refine absurd (List.mem_map.mpr ⟨_, List.getElem_mem hq, ?_⟩) written
        rw [wild]
        rfl
      · exact agrees.baseName

theorem eq_of_map_parse? {α : Type} {f : TypeTree → α} {text : String} {a : α}
    (h : (parse? text).map f = some a) (read : parse text = .ok t) : f t = a := by
  rw [parse?, read] at h
  exact Option.some.inj h

/-- **Parameters are not compared**: a pattern covers a type with another parameter,
and it covers a type that is no function type. -/
theorem parameters_not_compared :
    ∃ p t u, parse "void (int)" = .ok p ∧ parse "void (float)" = .ok t ∧ parse "void" = .ok u ∧
      p.isWildcard = false ∧ covers p t = true ∧ ¬ Corresponds p t ∧
      covers p u = true ∧ ¬ Corresponds p u := by
  obtain ⟨p, t, hp, ht, float⟩ := exists_of_coversText?
    (show coversText? "void (int)" "void (float)" = some true by decide +kernel)
  obtain ⟨p', u, hp', hu, void⟩ := exists_of_coversText?
    (show coversText? "void (int)" "void" = some true by decide +kernel)
  obtain rfl : p = p' := Except.ok.inj (hp.symm.trans hp')
  have named : p.isWildcard = false := eq_of_map_parse? (by decide +kernel) hp
  have ofPattern : p.parameterNames = some ["int"] := eq_of_map_parse? (by decide +kernel) hp
  have ofFloat : t.parameterNames = some ["float"] := eq_of_map_parse? (by decide +kernel) ht
  have ofVoid : u.parameterNames = none := eq_of_map_parse? (by decide +kernel) hu
  have written : "*" ∉ p.parameterNames.getD [] := by
    rw [ofPattern]
    decide
  refine ⟨p, t, u, hp, ht, hu, named, float, fun h => ?_, void, fun h => ?_⟩
  · have same := h.parameterNames_eq named written
    rw [ofPattern, ofFloat] at same
    exact absurd same (by decide)
  · have same := h.parameterNames_eq named written
    rw [ofPattern, ofVoid] at same
    cases same

end TypeTree

end WatchView
