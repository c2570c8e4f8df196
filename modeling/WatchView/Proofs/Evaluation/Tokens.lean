import Mathlib.Data.List.SplitBy
import WatchView.Evaluation.Substitution
import WatchView.Proofs.Text
/-!
# Which names are replaced

A text falls into runs: identifiers and numbers as a whole, and every other
character by itself. Replacing tokens takes the runs one by one. A number and a
character that is no part of an identifier stay as they are; a name is replaced
by what it is bound to, unless it is a member of a name in front of it
(`substitute_runs`). So the members in `a.b->c` stay, and names that follow no
`.` or `->` are replaced (`substitute_names`).

Nothing else counts. A member of something that does not end in a name is
replaced, and so is a name in a literal (`members_and_quoted_replaced`).
-/

namespace WatchView

namespace Substitution

open Text MemberPath

/-! ## Runs -/

/-- Two characters of one identifier or number. -/
def joins (c d : Char) : Bool := isIdent c && isIdent d

/-- The runs of a text: each is as long as its characters join, so identifiers and
numbers stand as a whole and every other character by itself. -/
def runs (cs : List Char) : List (List Char) := cs.splitBy joins

/-- Whether a run is a name, which does not start with a digit. -/
def isName (run : List Char) : Bool := run.head?.any isIdentStart

/-- Whether what comes next follows `.` or `->`. The runs in front of it are given,
nearest first. -/
def isMember : List (List Char) → Bool
  | ['.'] :: _ => true
  | ['>'] :: ['-'] :: _ => true
  | _ => false

/-- Whether what comes next follows a name with `.` or `->` behind it. -/
def isMemberOfName : List (List Char) → Bool
  | ['.'] :: name :: _ => isName name
  | ['>'] :: ['-'] :: name :: _ => isName name
  | _ => false

/-- The quote of the literal a text ends in, if it ends in one, and whether the next
character of the literal is escaped. -/
def stepLiteral : Option (Char × Bool) → Char → Option (Char × Bool)
  | none, c => if c = '"' ∨ c = '\'' then some (c, false) else none
  | some (quote, true), _ => some (quote, false)
  | some (quote, false), c =>
    if c = '\\' then some (quote, true) else if c = quote then none else some (quote, false)

/-- Whether what comes next stands in a string or a character literal. -/
def isQuoted (front : List (List Char)) : Bool :=
  (front.reverse.flatten.foldl stepLiteral none).isSome

variable {c : Char} {cs word rest name run : List Char} {front : List (List Char)}

theorem runs_cons (h : isIdent c = false) (cs : List Char) : runs (c :: cs) = [c] :: runs cs := by
  unfold runs
  rw [← List.singleton_append, List.splitBy_append]
  · rw [List.splitBy_of_isChain (List.cons_ne_nil c []) (List.isChain_singleton c)]
    rfl
  · intro d last e _
    obtain rfl : c = d := Option.some.inj last
    rw [joins, h, Bool.false_and]

/-- An identifier or a number is a run if what follows does not go on with it. -/
theorem runs_append (nonempty : word ≠ []) (all : word.all isIdent = true)
    (ends : rest.head?.any isIdent = false) : runs (word ++ rest) = word :: runs rest := by
  have ident := List.all_eq_true.mp all
  unfold runs
  rw [List.splitBy_append]
  · rw [List.splitBy_of_isChain nonempty]
    · rfl
    · refine List.Pairwise.isChain (List.pairwise_of_forall_mem_list fun c hc d hd => ?_)
      rw [joins, ident c hc, ident d hd, Bool.and_true]
  · intro c _ d first
    rw [Option.mem_def.mp first, Option.any_some] at ends
    rw [joins, ends, Bool.and_false]

theorem runs_takeWhile (h : isIdent c = true) (cs : List Char) :
    runs (c :: cs) = (c :: cs.takeWhile isIdent) :: runs (cs.dropWhile isIdent) := by
  have whole : c :: cs = (c :: cs.takeWhile isIdent) ++ cs.dropWhile isIdent := by
    rw [List.cons_append, List.takeWhile_append_dropWhile]
  have all : (c :: cs.takeWhile isIdent).all isIdent = true := by
    rw [List.all_cons, h, List.all_takeWhile, Bool.and_true]
  conv => lhs; rw [whole]
  exact runs_append (List.cons_ne_nil _ _) all (head?_dropWhile_any isIdent cs)

/-! ## Texts run by run -/

variable {V : Type} (scope : Scope V)

/-- What a run is written as, behind the runs in front of it. -/
def rewritten (front : List (List Char)) (run : List Char) : List Char :=
  if isName run && !isMemberOfName front then replacement scope (.token run) else run

/-- The runs of a text as they are written, with the runs in front of the text. -/
def rewriteAll : List (List Char) → List (List Char) → List (List Char)
  | _, [] => []
  | front, run :: behind => rewritten scope front run :: rewriteAll (run :: front) behind

theorem length_rewriteAll (front rs : List (List Char)) :
    (rewriteAll scope front rs).length = rs.length := by
  induction rs generalizing front with
  | nil => rfl
  | cons run behind ih => rw [rewriteAll, List.length_cons, List.length_cons, ih]

theorem getElem?_rewriteAll (front rs : List (List Char)) (i : Nat) :
    (rewriteAll scope front rs)[i]? =
      rs[i]?.map (rewritten scope ((rs.take i).reverse ++ front)) := by
  induction rs generalizing front i with
  | nil => rfl
  | cons run behind ih =>
    cases i with
    | zero => rfl
    | succ i =>
      rw [rewriteAll, List.getElem?_cons_succ, List.getElem?_cons_succ, ih, List.take_succ_cons,
        List.reverse_cons, List.append_assoc, List.singleton_append]

variable {scope}

theorem rewritten_of_not_name (h : isName run = false) : rewritten scope front run = run := by
  rw [rewritten, h, Bool.false_and, if_neg Bool.false_ne_true]

theorem rewritten_of_member (h : isMemberOfName front = true) :
    rewritten scope front run = run := by
  rw [rewritten, h, Bool.not_true, Bool.and_false, if_neg Bool.false_ne_true]

theorem rewritten_of_free (h : isName run = true) (free : isMemberOfName front = false) :
    rewritten scope front run = replacement scope (.token run) := by
  rw [rewritten, h, free, Bool.not_false, Bool.and_true, if_pos rfl]

/-! ## Members of names -/

/-- A character of an identifier that starts none is a digit. -/
theorem not_isIdent (digit : ¬ c.isDigit = true) (start : ¬ isIdentStart c = true) :
    isIdent c = false := by
  simp only [isIdentStart, isIdent, Char.isAlphanum, Bool.not_eq_true, Bool.or_eq_false_iff] at *
  obtain ⟨⟨letter, underscore⟩, dollar⟩ := start
  exact ⟨⟨⟨letter, digit⟩, underscore⟩, dollar⟩

theorem exists_isIdent_of_isName (h : isName name = true) : ∃ c ∈ name, isIdent c = true := by
  obtain ⟨c, first, start⟩ := (Option.any_eq_true _ _).mp h
  exact ⟨c, List.mem_of_head? first, isIdent_of_isIdentStart start⟩

theorem isMember_of_isMemberOfName (h : isMemberOfName front = true) : isMember front = true := by
  unfold isMemberOfName at h
  split at h
  · rfl
  · rfl
  · cases h

/-- A text goes on with no member of a name in front of it: the nearest run with
letters or digits is no name, or what stands between it and the text makes no member
of what comes next. -/
def Unlinked (front : List (List Char)) (cs : List Char) : Prop :=
  ∀ between name before, front = between ++ name :: before → isName name = true →
    (∀ run ∈ between, ∀ c ∈ run, isIdent c = false) →
    behindMember? (between.reverse.flatten ++ cs) = none

theorem unlinked_start (cs : List Char) : Unlinked [] cs := by
  intro between name before none
  exact absurd none (by simp)

/-- Behind a run with letters or digits, only that run counts. -/
theorem unlinked_of_ident (ident : c ∈ run) (h : isIdent c = true)
    (last : isName run = true → behindMember? cs = none) : Unlinked (run :: front) cs := by
  rintro (_ | ⟨first, between⟩) name before shape isName others
  · obtain ⟨rfl, -⟩ := List.cons.inj shape
    exact last isName
  · obtain ⟨rfl, -⟩ := List.cons.inj shape
    rw [others run List.mem_cons_self c ident] at h
    cases h

theorem unlinked_cons (h : isIdent c = false) (unlinked : Unlinked front (c :: cs)) :
    Unlinked ([c] :: front) cs := by
  rintro (_ | ⟨first, between⟩) name before shape named others
  · obtain ⟨rfl, -⟩ := List.cons.inj shape
    obtain ⟨d, mem, ident⟩ := exists_isIdent_of_isName named
    rw [List.mem_singleton.mp mem, h] at ident
    cases ident
  · obtain ⟨rfl, shape'⟩ := List.cons.inj shape
    have := unlinked between name before shape' named
      fun run mem => others run (List.mem_cons_of_mem _ mem)
    simpa using this

/-- What starts like a name is no member of a name, if nothing is. -/
theorem isMemberOfName_of_unlinked (unlinked : Unlinked front (c :: cs))
    (start : isIdentStart c = true) : isMemberOfName front = false := by
  have other (c : Char) (h : isIdent c = false) : ∀ d ∈ [c], isIdent d = false := by
    intro d mem
    rw [List.mem_singleton.mp mem, h]
  rw [Bool.eq_false_iff]
  intro member
  unfold isMemberOfName at member
  split at member
  · rename_i name before
    have dot : ∀ run ∈ [['.']], ∀ c ∈ run, isIdent c = false :=
      List.forall_mem_singleton.mpr (other '.' (by decide))
    have := unlinked [['.']] name before rfl member dot
    simp [behindMember?, start] at this
  · rename_i name before
    have arrow : ∀ run ∈ [['>'], ['-']], ∀ c ∈ run, isIdent c = false :=
      List.forall_mem_cons.mpr
        ⟨other '>' (by decide), List.forall_mem_singleton.mpr (other '-' (by decide))⟩
    have := unlinked [['>'], ['-']] name before rfl member arrow
    simp [behindMember?, start] at this
  · cases member

/-- A member step is `.` or `->` and a name. -/
theorem runs_of_behindMember? (h : behindMember? cs = some rest) :
    ∃ mark name, (mark = [['.']] ∨ mark = [['-'], ['>']]) ∧ isName name = true ∧
      cs = mark.flatten ++ name ++ rest ∧ runs cs = mark ++ name :: runs rest := by
  have step (c : Char) (cs : List Char) (start : isIdentStart c = true) :
      isName (c :: cs.takeWhile isIdent) = true ∧
        c :: cs = (c :: cs.takeWhile isIdent) ++ cs.dropWhile isIdent ∧
        runs (c :: cs) = (c :: cs.takeWhile isIdent) :: runs (cs.dropWhile isIdent) := by
    refine ⟨start, ?_, runs_takeWhile (isIdent_of_isIdentStart start) cs⟩
    rw [List.cons_append, List.takeWhile_append_dropWhile]
  unfold behindMember? at h
  split at h
  · rename_i c cs
    obtain ⟨start, same⟩ := Option.ite_none_right_eq_some.mp h
    obtain rfl := Option.some.inj same
    obtain ⟨named, whole, runs⟩ := step c cs start
    refine ⟨[['.']], _, .inl rfl, named, congrArg _ whole, ?_⟩
    rw [runs_cons (by decide), runs, List.singleton_append]
  · rename_i c cs
    obtain ⟨start, same⟩ := Option.ite_none_right_eq_some.mp h
    obtain rfl := Option.some.inj same
    obtain ⟨named, whole, runs⟩ := step c cs start
    refine ⟨[['-'], ['>']], _, .inr rfl, named, congrArg ('-' :: '>' :: ·) whole, ?_⟩
    rw [runs_cons (by decide), runs_cons (by decide), runs, List.cons_append,
      List.singleton_append]
  · cases h

theorem behindMembers_suffix (cs : List Char) : behindMembers cs <:+ cs := by
  fun_induction behindMembers cs with
  | case1 cs rest step ih =>
    obtain ⟨mark, name, -, -, whole, -⟩ := runs_of_behindMember? step
    exact ih.trans ⟨mark.flatten ++ name, whole.symm⟩
  | case2 cs none => exact List.suffix_refl cs

/-- A member step behind a name is kept. -/
theorem rewriteAll_member {last : List Char} {mark behind : List (List Char)}
    (named : isName last = true) (shape : mark = [['.']] ∨ mark = [['-'], ['>']]) :
    rewriteAll scope (last :: front) (mark ++ name :: behind) =
      mark ++ name :: rewriteAll scope (name :: (mark.reverse ++ last :: front)) behind := by
  rcases shape with rfl | rfl
  · have member : isMemberOfName (['.'] :: last :: front) = true := named
    simp only [List.singleton_append, rewriteAll]
    rw [rewritten_of_not_name (by decide), rewritten_of_member member]
    rfl
  · have member : isMemberOfName (['>'] :: ['-'] :: last :: front) = true := named
    simp only [List.cons_append, List.nil_append, rewriteAll]
    rw [rewritten_of_not_name (by decide), rewritten_of_not_name (by decide),
      rewritten_of_member member]
    rfl

/-- All the member steps behind a name are kept, and the last of them is a name with
no member behind it. -/
theorem flatten_rewriteAll_members (scope : Scope V) (last : List Char)
    (front : List (List Char)) (named : isName last = true) (cs : List Char) :
    ∃ name before, isName name = true ∧
      (rewriteAll scope (last :: front) (runs cs)).flatten =
        readPart cs (behindMembers cs) ++
          (rewriteAll scope (name :: before) (runs (behindMembers cs))).flatten := by
  fun_induction behindMembers cs generalizing last front with
  | case1 cs rest step ih =>
    obtain ⟨mark, name, shape, isName, whole, runs⟩ := runs_of_behindMember? step
    obtain ⟨name', before, isName', flat⟩ := ih name (mark.reverse ++ last :: front) isName
    refine ⟨name', before, isName', ?_⟩
    obtain ⟨read, whole'⟩ := behindMembers_suffix rest
    have readRest : readPart rest (behindMembers rest) = read :=
      readPart_eq_of_append whole'.symm
    have readAll : readPart cs (behindMembers rest) = mark.flatten ++ name ++ read := by
      refine readPart_eq_of_append ?_
      rw [List.append_assoc _ read, whole', whole]
    rw [runs, rewriteAll_member named shape, List.flatten_append, List.flatten_cons, flat, readRest,
      readAll, List.append_assoc, List.append_assoc]
  | case2 cs none => exact ⟨last, front, named, by simp [readPart]⟩

theorem behindMember?_behindMembers (cs : List Char) : behindMember? (behindMembers cs) = none := by
  fun_induction behindMembers cs with
  | case1 cs rest step ih => exact ih
  | case2 cs none => exact none

/-! ## Replacing tokens run by run -/

/-- The pieces of a text are written as its runs are. -/
theorem flatMap_pieces (front : List (List Char)) (cs : List Char) (unlinked : Unlinked front cs) :
    (pieces cs).flatMap (replacement scope) = (rewriteAll scope front (runs cs)).flatten := by
  -- by the pieces; what is taken off as one piece is one run, or a name with its members
  fun_induction pieces cs generalizing front with
  | case1 => rfl
  | case2 c cs digit ih =>
    have ident := isIdent_of_isDigit digit
    have unnamed : isName (c :: cs.takeWhile isIdent) = false := by
      refine Bool.eq_false_iff.mpr fun start => ?_
      have starts : [c].head?.any isIdentStart = true := start
      exact Bool.eq_false_iff.mp (noDigit_of_isIdentStart starts) digit
    rw [runs_takeWhile ident, rewriteAll, List.flatten_cons, List.flatMap_cons,
      rewritten_of_not_name unnamed, ih]
    · rfl
    · refine unlinked_of_ident List.mem_cons_self ident fun named => ?_
      rw [unnamed] at named
      cases named
  | case3 c cs digit start behind rest ih =>
    have named : isName (c :: cs.takeWhile isIdent) = true := start
    have free := isMemberOfName_of_unlinked unlinked start
    obtain ⟨name, before, named', flat⟩ :=
      flatten_rewriteAll_members scope (c :: cs.takeWhile isIdent) front named behind
    rw [runs_takeWhile (isIdent_of_isIdentStart start), rewriteAll, List.flatten_cons,
      rewritten_of_free named free, flat]
    rw [List.flatMap_cons, List.flatMap_cons, ih (name :: before)]
    · rfl
    · obtain ⟨d, mem, ident⟩ := exists_isIdent_of_isName named'
      exact unlinked_of_ident mem ident fun _ => behindMember?_behindMembers behind
  | case4 c cs digit start ih =>
    have other : isIdent c = false := not_isIdent digit start
    have unnamed : isName [c] = false := Bool.eq_false_iff.mpr start
    rw [runs_cons other, rewriteAll, List.flatten_cons, List.flatMap_cons,
      rewritten_of_not_name unnamed, ih _ (unlinked_cons other unlinked)]
    rfl

/-- Every run is written by itself, as what is in front of it tells. -/
theorem substitute_runs (scope : Scope V) (expression : String) :
    (substitute scope expression).toList =
      (rewriteAll scope [] (runs expression.toList)).flatten := by
  rw [substitute, String.toList_ofList]
  exact flatMap_pieces [] expression.toList (unlinked_start _)

/-- How a run is written, behind the runs in front of it. What a name is replaced by is
what it is bound to, or the name itself. -/
structure IsTreated (scope : Scope V) (front : List (List Char)) (run written : List Char) :
    Prop where
  /-- What is no name stays. -/
  other : isName run = false → written = run
  /-- A member of a name stays. -/
  member : isMemberOfName front = true → written = run
  /-- A name that is no member and in no literal is replaced. -/
  free : isName run = true → isMember front = false → isQuoted front = false →
    written = replacement scope (.token run)
  /-- So is a member of what is no name, as behind an index, behind a call and behind a
  number. -/
  linked : isName run = true → isMember front = true → isMemberOfName front = false →
    written = replacement scope (.token run)
  /-- And so is a name in a literal, unless it is a member of a name. -/
  quoted : isName run = true → isQuoted front = true → isMemberOfName front = false →
    written = replacement scope (.token run)

/-- This leaves nothing open. -/
theorem isTreated_iff {written : List Char} :
    IsTreated scope front run written ↔ written = rewritten scope front run := by
  constructor
  · intro h
    cases named : isName run with
    | false => rw [rewritten_of_not_name named, h.other named]
    | true =>
      cases ofName : isMemberOfName front with
      | true => rw [rewritten_of_member ofName, h.member ofName]
      | false =>
        rw [rewritten_of_free named ofName]
        cases member : isMember front with
        | true => exact h.linked named member ofName
        | false =>
          cases quoted : isQuoted front with
          | true => exact h.quoted named quoted ofName
          | false => exact h.free named member quoted
  · rintro rfl
    exact {
      other := rewritten_of_not_name
      member := rewritten_of_member
      free := fun named free _ => by
        refine rewritten_of_free named (Bool.eq_false_iff.mpr fun member => ?_)
        rw [isMember_of_isMemberOfName member] at free
        cases free
      linked := fun named _ => rewritten_of_free named
      quoted := fun named _ => rewritten_of_free named }

/-- **Which names are replaced**: what is written for an expression is written run by
run. A run that is no name stays, as does a member of a name. Every other name is replaced
by what it is bound to: one in no literal that follows neither `.` nor `->`, and as much a
member of what is no name, and one in a literal. -/
theorem substitute_names (scope : Scope V) (expression : String) :
    ∃ written : List (List Char),
      (substitute scope expression).toList = written.flatten ∧
      written.length = (runs expression.toList).length ∧
      ∀ i run text, (runs expression.toList)[i]? = some run → written[i]? = some text →
        IsTreated scope ((runs expression.toList).take i).reverse run text := by
  refine ⟨_, substitute_runs scope expression, length_rewriteAll scope [] _, ?_⟩
  intro i run text isRun isText
  rw [getElem?_rewriteAll, isRun, Option.map_some, List.append_nil] at isText
  exact isTreated_iff.mpr (Option.some.inj isText).symm

/-- Not every member stays, and a literal is text like any other: what `size` is bound
to stands behind an index and behind a call, and what `x` is bound to between quotes. -/
theorem members_and_quoted_replaced :
    let scope : Scope Unit := Scope.ofTokens [("size", "n"), ("x", "$x_0")]
    substitute scope "a[0].size" = "a[0].n" ∧
      substitute scope "f(a)->size" = "f(a)->n" ∧
      substitute scope "c == 'x'" = "c == '$x_0'" ∧
      substitute scope "s == \"no x\"" = "s == \"no $x_0\"" := by
  decide +kernel

end Substitution

end WatchView
