import WatchView.Proofs.Children
import WatchView.Proofs.Display.OwnRow
/-!
# Sessions that are alike

Two sessions may differ in the answers that their rule books keep, and in listings that are
kept for others. As long as one type name stands for one hierarchy, an answer kept is the one
the catalogue would give, so work does the same in both (`Watch.Follows`), and they stay alike.
-/

namespace WatchView

open Watch

variable {σ ν α : Type}

/-! ## Type names -/

/-- **A name stands for one type**: variables with equal type names have equal hierarchies,
and no type is named like a tag. -/
structure Inspector.NamesTypes (d : Inspector σ ν) : Prop where
  alike : ∀ (v w : Variable ν) (s t : σ), (v.facts d s).typeName = (w.facts d t).typeName →
    (v.facts d s).hierarchy = (w.facts d t).hierarchy
  apart : ∀ (v : Variable ν) (s : σ) (tag : Tag), (v.facts d s).typeName ≠ tag.typeName

/-- It does if it does so for the variables of the debugger; the rows that are made here have their
type names, or none. -/
theorem Variable.hierarchy_eq {d : Inspector σ ν} {tree : String → List TypeRecord} {s : σ}
    (none : tree "" = []) (told : ∀ handle, (d.facts s handle).hierarchy =
      tree (d.facts s handle).typeName) :
    (v : Variable ν) → (v.facts d s).hierarchy = tree (v.facts d s).typeName
  | .debugger handle => told handle
  | .failure .. => none.symm
  | .renamed inner .. => hierarchy_eq none told inner
  | .ruled inner => hierarchy_eq none told inner
  | .asChild inner _ => hierarchy_eq none told inner
  | .more .. => none.symm
  | .synthetic owner .. => hierarchy_eq none told owner

theorem Tag.empty_ne_typeName (tag : Tag) : "" ≠ tag.typeName := by
  cases tag with
  | _ => decide

theorem Variable.typeName_ne {d : Inspector σ ν} {s : σ} (tag : Tag)
    (apart : ∀ handle, (d.facts s handle).typeName ≠ tag.typeName) :
    (v : Variable ν) → (v.facts d s).typeName ≠ tag.typeName
  | .debugger handle => apart handle
  | .failure .. => tag.empty_ne_typeName
  | .renamed inner .. => typeName_ne tag apart inner
  | .ruled inner => typeName_ne tag apart inner
  | .asChild inner _ => typeName_ne tag apart inner
  | .more .. => tag.empty_ne_typeName
  | .synthetic owner .. => typeName_ne tag apart owner

theorem Inspector.namesTypes_of_tree {d : Inspector σ ν} {tree : String → List TypeRecord}
    (none : tree "" = []) (told : ∀ s handle, (d.facts s handle).hierarchy =
      tree (d.facts s handle).typeName)
    (apart : ∀ s handle tag, (d.facts s handle).typeName ≠ Tag.typeName tag) : d.NamesTypes where
  alike v w s t same := by
    rw [v.hierarchy_eq none (told s), w.hierarchy_eq none (told t), same]
  apart v s tag := v.typeName_ne tag fun handle => apart s handle tag

/-- What rules are looked up for. -/
def Inspector.Subjects (d : Inspector σ ν) (subject : Subject) : Prop :=
  ∃ (v : Variable ν) (s : σ), subject = (v.facts d s).subject

variable {engine : Engine σ ν} {R : Region} {p s : Session σ ν}

/-- A session whose rule book keeps right answers. -/
abbrev Session.Trusts (engine : Engine σ ν) (s : Session σ ν) : Prop :=
  s.book.Faithful engine.options engine.inspector.Subjects

/-- The rule that is found is the one of the catalogue, and the answers kept stay right. -/
theorem Engine.findRule_eq (names : engine.inspector.NamesTypes) (v : Variable ν)
    (trusts : s.Trusts engine) :
    ∃ answers, engine.findRule v s =
        (s.book.catalogue.lookup engine.options (v.facts engine.inspector s.target).subject,
          { s with book := { s.book with answers } }) ∧
      RuleBook.Faithful engine.options engine.inspector.Subjects { s.book with answers } := by
  have apart (subject : Subject) (tag : Tag) :
      engine.inspector.Subjects subject → subject.typeName ≠ tag.typeName := by
    rintro ⟨v, t, rfl⟩
    exact names.apart v t tag
  have alike (subject subject' : Subject) : engine.inspector.Subjects subject →
      engine.inspector.Subjects subject' → subject.typeName = subject'.typeName →
        subject.hierarchy = subject'.hierarchy := by
    rintro ⟨v, t, rfl⟩ ⟨w, u, rfl⟩
    exact names.alike v w t u
  obtain ⟨answers, found, faithful⟩ := RuleBook.find_eq trusts apart alike ⟨v, s.target, rfl⟩
  refine ⟨answers, ?_, faithful⟩
  calc engine.findRule v s
    _ = ((s.book.find engine.options (v.facts engine.inspector s.target).subject).1,
          { s with book :=
            (s.book.find engine.options (v.facts engine.inspector s.target).subject).2 }) := rfl
    _ = _ := by rw [found]

/-! ## Sessions -/

/-- **Two sessions that are alike in a region of pages.** -/
structure Session.Alike (engine : Engine σ ν) (R : Region) (p s : Session σ ν) : Prop where
  target : p.target = s.target
  depth : p.depth = s.depth
  scratchCount : p.scratchCount = s.scratchCount
  catalogue : p.book.catalogue = s.book.catalogue
  trusts : p.Trusts engine
  trusts' : s.Trusts engine
  size : p.listings.size = s.listings.size
  kept : ∀ id, R.pages p.listings.size id → p.kept id = s.kept id

/-- Work does the same in sessions that are alike. -/
def Watch.alike (engine : Engine σ ν) (R : Region) :
    Watch (Session σ ν) (Session σ ν) Empty where
  same := Session.Alike engine R
  notes _ := []
  fits _ := True
  fits_nil := trivial
  fits_append _ _ := trivial

theorem Watch.follows_alike {act : Run σ ν α}
    (h : ∀ p s, p.Alike engine R s → (act p).1 = (act s).1 ∧ (act p).2.Alike engine R (act s).2) :
    (alike engine R).Follows act act := by
  intro p s same
  obtain ⟨result, after⟩ := h p s same
  exact ⟨[], trivial, result, after, rfl⟩

theorem Watch.Follows.alike {act : Run σ ν α} (h : (Watch.alike engine R).Follows act act)
    (same : p.Alike engine R s) :
    (act p).1 = (act s).1 ∧ (act p).2.Alike engine R (act s).2 := by
  obtain ⟨_, -, result, after, -⟩ := h p s same
  exact ⟨result, after⟩

/-- Work on the debugger. -/
theorem Watch.follows_debugger (act : StateM σ α) :
    (alike engine R).Follows (liftM act : Run σ ν α) (liftM act : Run σ ν α) := by
  refine follows_alike fun p s same => ?_
  have apply (s : Session σ ν) : (liftM act : Run σ ν α) s =
      ((act s.target).1, { s with target := (act s.target).2 }) := rfl
  rw [apply, apply, same.target]
  exact ⟨rfl, { same with target := rfl }⟩

/-- What is read off the debugger. -/
theorem Watch.follows_read {act : Run σ ν α} (f : σ → α) (reads : ∀ s, act s = (f s.target, s)) :
    (alike engine R).Follows act act := by
  refine follows_alike fun p s same => ?_
  rw [reads, reads, same.target]
  exact ⟨rfl, same⟩

/-! ## Rules and texts -/

namespace Engine

section

variable (names : engine.inspector.NamesTypes)

omit names in
theorem follows_facts (v : Variable ν) :
    (alike engine R).Follows (engine.facts v) (engine.facts v) :=
  follows_read (fun t => v.facts engine.inspector t) fun _ => rfl

omit names in
theorem follows_decorate (v : Variable ν) :
    (alike engine R).Follows (engine.decorate v) (engine.decorate v) :=
  follows_read (fun t => v.decorated engine.inspector t) fun _ => rfl

omit names in
theorem follows_rawView (v : Variable ν) :
    (alike engine R).Follows (engine.rawView v) (engine.rawView v) :=
  follows_read (fun t => v.rawView engine.inspector t) fun _ => rfl

omit names in
theorem follows_plain (kind : TextKind) (answer : Answer ν) :
    (alike engine R).Follows (engine.plainText kind answer) (engine.plainText kind answer) :=
  follows_read (fun t => answer.text engine.inspector t kind) fun _ => rfl

include names

/-- **The rule that is found is the same**, whatever is kept. -/
theorem follows_findRule (v : Variable ν) :
    (alike engine R).Follows (engine.findRule v) (engine.findRule v) := by
  refine follows_alike fun p s same => ?_
  obtain ⟨answers, found, faithful⟩ := engine.findRule_eq names v same.trusts
  obtain ⟨answers', found', faithful'⟩ := engine.findRule_eq names v same.trusts'
  have after : ({ p with book := { p.book with answers } } : Session σ ν).Alike engine R
      { s with book := { s.book with answers := answers' } } :=
    { same with trusts := faithful, trusts' := faithful' }
  rw [found, found']
  exact ⟨by rw [same.target, same.catalogue], after⟩

theorem follows_ruled (v : Variable ν) :
    (alike engine R).Follows (engine.isRuled v) (engine.isRuled v) := by
  refine (follows_findRule names v).bind fun found => ?_
  cases found with
  | none => exact follows_pure _
  | some m => exact (follows_facts v).bind fun f => follows_pure _

theorem follows_templates (kind : TextKind) (v : Variable ν) :
    (alike engine R).Follows (engine.templatesFor kind v) (engine.templatesFor kind v) := by
  refine (follows_facts v).bind fun f => ?_
  split
  · exact follows_pure _
  · refine (follows_findRule names v).bind fun found => ?_
    cases found with
    | none => exact follows_pure _
    | some m => exact follows_pure _

omit names in
theorem follows_first {hole : Answer ν → Run σ ν String}
    (h : ∀ answer, (alike engine R).Follows (hole answer) (hole answer)) (v : Variable ν)
    (scope : Scope (Variable ν)) (templates : List GuardedText) :
    (alike engine R).Follows (engine.firstText hole v scope templates)
      (engine.firstText hole v scope templates) := by
  refine follows_firstText_of (fun template _ => follows_debugger _)
    fun template _ expression _ => ?_
  refine (follows_debugger _).bind fun result => ?_
  cases result with
  | error e => exact follows_pure _
  | ok answer => exact (h answer).bind fun text => follows_pure _

/-- **A value has the same text**, whatever is kept. -/
theorem follows_value (kind : TextKind) (levels : Nat) (answer : Answer ν) :
    (alike engine R).Follows (engine.valueText kind levels answer)
      (engine.valueText kind levels answer) := by
  -- on the levels: the values in its templates are shown one level deeper
  induction levels generalizing answer with
  | zero => exact (follows_templates names kind _).bind fun _ => follows_pure _
  | succ levels ih =>
    refine (follows_templates names kind _).bind fun found => ?_
    refine (follows_first ih _ _ _).bind fun text => ?_
    rcases text with e | _ | text
    · exact follows_plain kind answer
    · exact follows_plain kind answer
    · exact follows_pure _

/-! ## Children -/

omit names in
/-- A listing is kept under the same identifier. -/
theorem follows_keepListing (l : Listing ν) :
    (alike engine R).Follows (keepListing l) (keepListing l) := by
  refine follows_alike fun p s same =>
    ⟨same.size, { same with size := ?_, kept := fun id here => ?_ }⟩
  · exact (Array.size_push l).trans ((congrArg (· + 1) same.size).trans (Array.size_push l).symm)
  · have pushed (s : Session σ ν) : (keepListing l s).2.kept id =
        if id = s.listings.size then l else s.kept id := s.kept_push l id
    rw [pushed, pushed, same.size]
    split
    · rfl
    · -- the other identifiers of the region are old, or nothing is kept under them
      rename_i other
      have grown : (keepListing l p).2.listings.size = p.listings.size + 1 := Array.size_push l
      rw [grown] at here
      rcases Nat.lt_or_ge id p.listings.size with inside | outside
      · exact same.kept id (R.old inside here)
      · rw [Session.kept_of_le outside, Session.kept_of_le (same.size ▸ outside)]

omit names in
theorem follows_firstPage (limit : Property) (l : Listing ν) :
    (alike engine R).Follows (engine.firstPage limit l) (engine.firstPage limit l) :=
  (follows_keepListing l).bind fun _ => follows_pure _

omit names in
theorem follows_elementListing (c : Context ν) (element : ExpandItem) :
    (alike engine R).Follows (engine.elementListing c element)
      (engine.elementListing c element) := by
  rcases engine.elementListing_cases c element with ⟨l, made, -⟩ | ⟨limit, l, made, -⟩
  · rw [made]
    exact follows_pure l
  · rw [made]
    exact follows_firstPage limit l

omit names in
theorem follows_expandListing (c : Context ν) (expand : Expand) :
    (alike engine R).Follows (engine.expandListing c expand) (engine.expandListing c expand) := by
  refine Follows.bind ?_ fun members => follows_pure _
  induction expand.items with
  | nil =>
    rw [List.mapM_nil]
    exact follows_pure _
  | cons element elements ih =>
    rw [List.mapM_cons]
    exact (follows_elementListing c element).bind fun l => ih.bind fun ls => follows_pure _

theorem follows_ruleListing {plain : Run σ ν (Listing ν)}
    (h : (alike engine R).Follows plain plain) (v : Variable ν) :
    (alike engine R).Follows (engine.ruleListing plain v) (engine.ruleListing plain v) := by
  refine (follows_findRule names v).bind fun found => ?_
  cases found with
  | none => exact h
  | some m =>
    refine (follows_facts v).bind fun f => ?_
    dsimp only
    split
    · exact (follows_expandListing _ _).bind fun l => follows_pure _
    · exact follows_pure _
    · exact h

/-- **The children of a variable are made in the same way.** -/
theorem follows_childListing : (v : Variable ν) →
    (alike engine R).Follows (engine.childListing v) (engine.childListing v)
  | .debugger handle =>
    follows_read (fun t => .fixed ((engine.debugger.children t handle).map .debugger)) fun _ => rfl
  | .failure .. => follows_pure _
  | .renamed inner .. => follows_childListing inner
  | .ruled inner => by
    refine (follows_ruled names inner).bind fun ruled => ?_
    split
    · exact follows_ruleListing names (follows_childListing inner) inner
    · exact follows_childListing inner
  | .asChild .. => follows_pure _
  | .more .. => follows_pure _
  | .synthetic owner scope rule _ => by
    unfold childListing expandListing?
    split
    · exact follows_expandListing _ _
    · exact follows_pure _

theorem follows_contextChildListing (c : Context ν) (expression : String) :
    (alike engine R).Follows (c.childListing engine expression)
      (c.childListing engine expression) := by
  refine (follows_debugger _).bind fun result => ?_
  cases result with
  | error e => exact follows_pure _
  | ok answer =>
    exact (follows_decorate _).bind fun v =>
      (follows_childListing names v).bind fun l => follows_pure _

theorem follows_resolvedPointee (c : Context ν) (pointer : SmartPointer)
    (failure : Option (Variable ν)) (inner : Option (Listing ν)) :
    (alike engine R).Follows (Listing.resolvedPointee engine c pointer failure inner)
      (Listing.resolvedPointee engine c pointer failure inner) := by
  have plain := (follows_childListing (R := R) names c.owner).bind fun l =>
    follows_pure (Except.ok l : Except (Variable ν) (Listing ν))
  unfold Listing.resolvedPointee
  split
  · exact follows_pure _
  · exact follows_pure _
  · refine Follows.bind ?_ fun result => ?_
    · unfold Listing.pointeeListing?
      split
      · exact follows_pure _
      · refine (follows_debugger _).bind fun applied => ?_
        rcases applied with e | _ | _
        · exact follows_pure _
        · exact follows_pure _
        · exact (follows_contextChildListing names c _).bind fun l => follows_pure _
    · rcases result with e | _ | l
      · dsimp only
        split
        · exact plain
        · exact follows_pure _
      · exact plain
      · exact follows_pure _

/-! ## Custom lists -/

omit names in
theorem follows_scratchName (name : String) :
    (alike engine R).Follows (scratchName name : Run σ ν String) (scratchName name) := by
  refine follows_alike fun p s same => ?_
  have apply (s : Session σ ν) : scratchName name s =
      ("$" ++ name ++ "_" ++ toString s.scratchCount,
        { s with scratchCount := s.scratchCount + 1 }) := rfl
  rw [apply, apply, same.scratchCount]
  exact ⟨rfl, { same with scratchCount := rfl }⟩

omit names in
/-- The scratch variables of a list get the same names. -/
theorem follows_declareAll (owner : Variable ν) (decls : List VariableDecl)
    (scope : Scope (Variable ν)) :
    (alike engine R).Follows (CustomListing.declareAll engine.evaluator owner decls scope)
      (CustomListing.declareAll engine.evaluator owner decls scope) := by
  induction decls generalizing scope with
  | nil => exact follows_pure _
  | cons decl decls ih =>
    refine (follows_scratchName decl.name).bind fun scratch =>
      (follows_debugger _).bind fun result => ?_
    cases result with
    | error e => exact follows_pure _
    | ok scope => exact ih scope

omit names in
theorem follows_started (l : CustomListing ν) :
    (alike engine R).Follows (l.started engine.evaluator) (l.started engine.evaluator) := by
  unfold CustomListing.started
  split
  · exact follows_pure _
  · split
    · exact follows_pure _
    · refine Follows.bind ?_ fun l => follows_pure _
      refine (follows_declareAll _ _ _).bind fun declared => ?_
      cases declared with
      | error e => exact follows_pure _
      | ok scope =>
        refine (follows_debugger _).bind fun size => ?_
        rcases size with e | n
        · cases e with
          | evaluation e => exact follows_pure _
          | _ => exact follows_pure _
        · exact follows_pure _

end

end Engine

end WatchView
