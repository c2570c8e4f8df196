import WatchView.Proofs.GivenNames
import WatchView.Proofs.Listing.Agreement
import WatchView.Proofs.Listing.CustomDeeds
/-!
# Scratch names are given out once

Only a custom list that begins gives out scratch names, one to each variable it is about to
create (`CustomListing.Declares.gives`). Whatever the engine is asked, one thing after the
other, the names it gives out can be told (`Engine.Uses.accounted`), and no name is given
out twice, also by work that does not come to an end (`Engine.Uses.scratchNames_nodup`).
Their number has no bound here.
-/

namespace WatchView

open Bounded

variable {σ ν α β : Type}

/-! ## Texts -/

namespace Engine

variable (engine : Engine σ ν)

omit engine in
theorem accounted_setDepth (depth : Nat) : Accounted (setDepth depth : Search σ ν Unit) :=
  accounted_modify fun _ => rfl

theorem accounted_format (kind : TextKind) {plain : Search σ ν String} (h : Accounted plain)
    (templates : List GuardedText) (v : Variable ν) (scope : Scope (Variable ν)) :
    Accounted (engine.format kind plain templates v scope) := by
  have left (depth : Nat) (text : Except EvalError String) :
      Accounted (do setDepth depth; return text : Search σ ν (Except EvalError String)) :=
    (accounted_setDepth depth).bind fun _ => accounted_pure text
  refine accounted_get.bind fun s => ?_
  dsimp only
  split
  · exact accounted_pure _
  · refine (accounted_setDepth _).bind fun _ => ?_
    refine (engine.light_firstText (engine.light_valueText kind _) v scope
      templates).accounted.bind' fun text => ?_
    rcases text with e | _ | text
    · exact left s.depth _
    · exact h.bind fun text => left s.depth _
    · exact left s.depth _

theorem accounted_ruleText (kind : TextKind) {plain : Search σ ν String} (h : Accounted plain)
    (v : Variable ν) : Accounted (engine.ruleText kind plain v) := by
  refine (engine.light_templatesFor kind v).accounted.bind' fun found => ?_
  refine (engine.accounted_format kind h _ _ _).bind fun text => ?_
  cases text with
  | error e => exact h
  | ok text => exact accounted_pure text

/-! ## Children -/

omit engine in
theorem accounted_keepListing (l : Listing ν) : (keepListing l : Run σ ν Nat).Accounted :=
  Run.accounted_idle fun _ => rfl

theorem accounted_elementListing (c : Context ν) (element : ExpandItem) :
    (engine.elementListing c element).Accounted := by
  rcases engine.elementListing_cases c element with ⟨l, made, -⟩ | ⟨limit, l, made, -⟩
  · rw [made]
    exact Run.accounted_pure l
  · rw [made]
    exact (accounted_keepListing l).bind fun _ => Run.accounted_pure _

theorem accounted_expandListing (c : Context ν) (expand : Expand) :
    (engine.expandListing c expand).Accounted := by
  refine Run.Accounted.bind ?_ fun members => Run.accounted_pure _
  induction expand.items with
  | nil =>
    rw [List.mapM_nil]
    exact Run.accounted_pure _
  | cons element elements ih =>
    rw [List.mapM_cons]
    exact (engine.accounted_elementListing c element).bind fun l =>
      ih.bind fun ls => Run.accounted_pure _

theorem accounted_ruleListing {plain : Run σ ν (Listing ν)} (h : plain.Accounted)
    (v : Variable ν) : (engine.ruleListing plain v).Accounted := by
  refine (engine.light_findRule v).accounted.bind fun found => ?_
  cases found with
  | none => exact h
  | some m =>
    refine (engine.light_facts v).accounted.bind fun f => ?_
    dsimp only
    split
    · exact (engine.accounted_expandListing _ _).bind fun l => Run.accounted_pure _
    · exact Run.accounted_pure _
    · exact h

theorem accounted_childListing : (v : Variable ν) → (engine.childListing v).Accounted
  | .debugger handle => Run.accounted_idle fun _ => rfl
  | .failure .. => Run.accounted_pure _
  | .renamed inner .. => accounted_childListing inner
  | .ruled inner => by
    refine (engine.light_isRuled inner).accounted.bind fun ruled => ?_
    split
    · exact engine.accounted_ruleListing (accounted_childListing inner) inner
    · exact accounted_childListing inner
  | .asChild .. => Run.accounted_pure _
  | .more .. => Run.accounted_pure _
  | .synthetic owner scope rule _ => by
    unfold childListing expandListing?
    split
    · exact engine.accounted_expandListing _ _
    · exact Run.accounted_pure _

end Engine

theorem Context.accounted_childListing (engine : Engine σ ν) (c : Context ν)
    (expression : String) : (c.childListing engine expression).Accounted := by
  refine (Run.accounted_target _).bind fun result => ?_
  cases result with
  | error e => exact Run.accounted_pure _
  | ok answer =>
    exact (engine.light_decorate _).accounted.bind fun v =>
      (engine.accounted_childListing v).bind fun l => Run.accounted_pure _

/-! ## Custom lists -/

namespace CustomListing

variable {ev : Evaluator σ ν} {owner : Variable ν}

/-- A variable that is to be created is given one name. -/
theorem gives_declareNext {decl : VariableDecl} {scope : Scope (Variable ν)} {s s' : Session σ ν}
    {r : Except EvalError (Scope (Variable ν))}
    (declared : declareNext ev owner decl scope s = (r, s')) :
    Gives (liftM (declareNext ev owner decl scope)) s [numbered decl.name s.scratchCount] r s' := by
  unfold declareNext
  have named := Gives.scratchName decl.name s
  exact named.lift_bind (.idle (fun _ => ensures_lift_iff.mpr rfl) (congrArg Except.ok declared))

theorem scratchCount_of_declareNext {decl : VariableDecl} {scope : Scope (Variable ν)}
    {s s' : Session σ ν} {r : Except EvalError (Scope (Variable ν))}
    (declared : declareNext ev owner decl scope s = (r, s')) :
    s'.scratchCount = s.scratchCount + 1 :=
  (congrArg (fun p => p.2.scratchCount) declared).symm

/-- **The variables of a list are given names in order**, up to the first that cannot be
created. -/
theorem Declares.gives {decls : List VariableDecl} {scope : Scope (Variable ν)}
    {s s' : Session σ ν} {deeds : List (Deed ν)} {r : Except EvalError (Scope (Variable ν))}
    (h : Declares ev owner decls scope s deeds r s') :
    Gives (liftM (declareAll ev owner decls scope)) s
      (numberedFrom s.scratchCount ((deeds.filterMap Deed.declared?).map VariableDecl.name))
      r s' := by
  induction h with
  | all => exact gives_lift_pure _ _
  | fails failed =>
    rw [declareAll_cons]
    exact (gives_declareNext failed).lift_bind (gives_lift_pure _ _)
  | next declared others ih =>
    rw [declareAll_cons]
    rw [scratchCount_of_declareNext declared] at ih
    exact (gives_declareNext declared).lift_bind ih

theorem accounted_start (program : Sequence) (l : CustomListing ν) :
    (l.start ev program).Accounted := by
  have declares : (declareAll ev l.context.owner l.rule.declarations l.context.scope :
      Run σ ν _).Accounted := by
    refine Run.accounted_of_gives fun s => ?_
    obtain ⟨deeds, declares⟩ := exists_declares ev l.context.owner l.rule.declarations
      l.context.scope s
    exact ⟨_, declares.gives⟩
  refine Run.Accounted.bind declares fun declared => ?_
  cases declared with
  | error e => exact Run.accounted_pure _
  | ok scope =>
    refine (Run.accounted_target _).bind fun size => ?_
    rcases size with e | n
    · cases e with
      | evaluation e => exact Run.accounted_pure _
      | _ => exact Run.accounted_pure _
    · exact Run.accounted_pure _

theorem accounted_started (l : CustomListing ν) : (l.started ev : Run σ ν _).Accounted := by
  unfold started
  split
  · exact Run.accounted_pure _
  · split
    · exact Run.accounted_pure _
    · exact (accounted_start _ l).bind fun l => Run.accounted_pure _

end CustomListing

/-- Settling an element gives out the names that its count does. -/
theorem Standing.accounted_settle {κ : Type} (guard : Guard)
    (applies : StateM σ (Except EvalError Bool))
    {count : κ → Search σ ν (Except ExpandError Nat × κ)} {l : κ} (counts : Accounted (count l)) :
    Accounted (settle guard (liftM applies) count l : Search σ ν (Standing ν × κ)) := by
  unfold settle
  refine (accounted_target applies).bind fun applied => ?_
  rcases applied with e | _ | _
  · exact accounted_pure _
  · exact accounted_pure _
  · exact counts.bind fun r => accounted_pure _

namespace CustomListing

variable (engine : Engine σ ν) (bound : Nat)

theorem accounted_settled (l : CustomListing ν) : Accounted (l.settled engine bound) := by
  unfold settled
  split
  · exact accounted_pure _
  · refine (Standing.accounted_settle _ _ ?_).bind fun r => accounted_pure _
    refine (accounted_started l).bind' fun result => ?_
    cases result with
    | error e => exact accounted_pure _
    | ok l =>
      dsimp only
      split
      · exact accounted_pure _
      · exact (accounted_ofTarget _).bind fun l => accounted_pure _

theorem accounted_rows (l : CustomListing ν) (start count : Nat) :
    Accounted (l.rows engine bound start count) := by
  refine (accounted_settled engine bound l).bind fun r => ?_
  obtain ⟨standing, l⟩ := r
  cases standing with
  | failed row => exact accounted_pure _
  | counted n => exact (accounted_ofTarget _).bind fun l => accounted_pure _

end CustomListing

/-! ## One level further on -/

/-- What can be asked one level further on gives out names that are accounted for. -/
structure Reach.Accounted (reach : Reach σ ν) : Prop where
  text : ∀ kind v, WatchView.Accounted (reach.text kind v)
  count : ∀ l, WatchView.Accounted (reach.count l)
  rows : ∀ l start count, WatchView.Accounted (reach.rows l start count)
  isSound : ∀ l, WatchView.Accounted (reach.isSound l)

section Asking

variable (engine : Engine σ ν) {reach : Reach σ ν} (further : reach.Accounted)

include further

namespace Engine

theorem accounted_child? (v : Variable ν) (index : Nat) :
    Accounted (engine.child? reach v index) :=
  (engine.accounted_childListing v).bind' fun l =>
    (further.rows l index 1).bind fun _ => accounted_pure _

theorem accounted_textWith (kind : TextKind) :
    (v : Variable ν) → Accounted (engine.textWith reach kind v)
  | .debugger handle => accounted_get.bind fun s => accounted_pure _
  | .failure .. => accounted_pure _
  | .renamed inner .. => accounted_textWith kind inner
  | .ruled inner => by
    refine (engine.light_isRuled inner).accounted.bind' fun ruled => ?_
    split
    · exact engine.accounted_ruleText kind (accounted_textWith kind inner) inner
    · exact accounted_textWith kind inner
  | .asChild inner index => by
    refine (engine.accounted_child? further inner index).bind fun child => ?_
    cases child with
    | none => exact accounted_pure _
    | some v => exact further.text kind v
  | .more .. => accounted_pure _
  | .synthetic owner scope rule text => by
    cases kind with
    | value => exact accounted_pure _
    | stringView =>
      have plain := accounted_textWith .stringView owner
      refine (engine.accounted_format .stringView plain _ owner scope).bind fun text => ?_
      cases text with
      | error e => exact plain
      | ok text => exact accounted_pure _

end Engine

theorem SyntheticListing.accounted_settled (l : SyntheticListing ν) :
    Accounted (l.settled engine reach) := by
  have plain := engine.accounted_textWith further .value l.context.owner
  unfold settled
  split
  · exact accounted_pure _
  · refine (Standing.accounted_settle _ _ ?_).bind fun r => accounted_pure _
    refine (engine.accounted_format .value plain _ _ _).bind fun text => ?_
    cases text with
    | error e => exact accounted_pure _
    | ok text => exact accounted_pure _

theorem SyntheticListing.accounted_rows (l : SyntheticListing ν) (start count : Nat) :
    Accounted (l.rows engine reach start count) := by
  refine (SyntheticListing.accounted_settled engine further l).bind fun r => ?_
  obtain ⟨standing, l⟩ := r
  cases standing with
  | failed row => exact accounted_pure _
  | counted n => exact accounted_pure _

namespace Listing

/-! ## Listings within listings -/

theorem accounted_settledInlined (c : Context ν) (rule : ExpandedItemRule)
    (standing : Option (Standing ν)) (inner : Option (Listing ν)) :
    Accounted (settledInlined engine reach c rule standing inner) := by
  unfold settledInlined
  split
  · exact accounted_pure _
  · refine Standing.accounted_settle _ _ ?_
    unfold countInlined
    split
    · exact accounted_pure _
    · refine (c.accounted_childListing engine _).bind' fun result => ?_
      cases result with
      | error e => exact accounted_pure _
      | ok l => exact (further.count l).bind fun r => accounted_pure _

omit further in
theorem accounted_resolvedPointee (c : Context ν) (pointer : SmartPointer)
    (failure : Option (Variable ν)) (inner : Option (Listing ν)) :
    (resolvedPointee engine c pointer failure inner).Accounted := by
  have plain := (engine.accounted_childListing c.owner).bind fun l =>
    Run.accounted_pure (Except.ok l : Except (Variable ν) (Listing ν))
  have looked : (pointeeListing? engine c pointer).Accounted := by
    unfold pointeeListing?
    split
    · exact Run.accounted_pure _
    · refine (Run.accounted_target _).bind fun applied => ?_
      rcases applied with e | _ | _
      · exact Run.accounted_pure _
      · exact Run.accounted_pure _
      · exact (c.accounted_childListing engine _).bind fun l => Run.accounted_pure _
  unfold resolvedPointee
  split
  · exact Run.accounted_pure _
  · exact Run.accounted_pure _
  · refine looked.bind fun result => ?_
    rcases result with e | _ | l
    · dsimp only
      split
      · exact plain
      · exact Run.accounted_pure _
    · exact plain
    · exact Run.accounted_pure _

theorem accounted_resolvedChild (parent : Variable ν) (index : Nat)
    (inner : Option (Listing ν)) : Accounted (resolvedChild engine reach parent index inner) := by
  cases inner with
  | some l => exact accounted_pure _
  | none =>
    refine (engine.accounted_child? further parent index).bind fun child => ?_
    cases child with
    | none => exact accounted_pure _
    | some v => exact engine.accounted_childListing v

/-! ## Groups -/

omit engine

theorem accounted_countAll (ls : List (Listing ν)) : Accounted (countAll reach ls) := by
  induction ls with
  | nil => exact accounted_pure _
  | cons l ls ih =>
    exact (further.count l).bind fun r => ih.bind fun r => accounted_pure _

theorem accounted_allSound (ls : List (Listing ν)) : Accounted (allSound reach ls) := by
  induction ls with
  | nil => exact accounted_pure _
  | cons l ls ih =>
    refine (further.isSound l).bind fun r => ?_
    dsimp only
    split
    · exact ih.bind fun r => accounted_pure _
    · exact accounted_pure _

theorem accounted_showsRaw (hideRawView : Bool) (ls : List (Listing ν)) :
    Accounted (showsRaw reach hideRawView ls) := by
  unfold showsRaw
  split
  · exact (accounted_allSound further ls).bind fun r => accounted_pure _
  · exact accounted_pure _

theorem accounted_groupCount (hideRawView : Bool) (ls : List (Listing ν)) :
    Accounted (groupCount reach hideRawView ls) :=
  (accounted_countAll further ls).bind fun r =>
    (accounted_showsRaw further hideRawView r.2).bind fun _ => accounted_pure _

theorem accounted_rowsBetween (start stop offset : Nat) (ls : List (Listing ν)) :
    Accounted (rowsBetween reach start stop offset ls) := by
  induction ls generalizing offset with
  | nil => exact accounted_pure _
  | cons l ls ih =>
    rw [rowsBetween_cons]
    split
    · exact accounted_pure _
    · refine (further.count l).bind fun r => ?_
      have behind (shown : List (Variable ν) × Listing ν) :
          Accounted (rowsBehind reach start stop (offset + r.1) ls shown) :=
        (ih _).bind fun r => accounted_pure _
      dsimp only
      split
      · exact (further.rows r.2 _ _).bind behind
      · exact behind _

theorem accounted_groupRows (engine : Engine σ ν) (owner : Variable ν) (hideRawView : Bool)
    (ls : List (Listing ν)) (start count : Nat) :
    Accounted (groupRows engine reach owner hideRawView ls start count) := by
  refine (accounted_rowsBetween further start _ 0 ls).bind fun r => ?_
  dsimp only
  split
  · refine (accounted_showsRaw further hideRawView _).bind fun r' => ?_
    split
    · exact (engine.light_rawView owner).accounted.bind' fun row => accounted_pure _
    · exact accounted_pure _
  · exact accounted_pure _

/-! ## Pages -/

omit further in
theorem accounted_withKept (id : Nat) {act : Listing ν → Search σ ν (α × Listing ν)}
    (h : ∀ l, Accounted (act l)) : Accounted (withKept id act) := by
  refine accounted_get.bind fun s => (h _).bind fun r => ?_
  obtain ⟨a, l⟩ := r
  refine Accounted.bind ?_ fun _ => accounted_pure a
  exact accounted_modify fun _ => rfl

omit further in
theorem accounted_wordSum (a b : Nat) : Accounted (wordSum a b : Search σ ν Nat) := by
  unfold wordSum
  split
  · exact accounted_pure _
  · exact accounted_overflow

theorem accounted_remaining (id offset size : Nat) :
    Accounted (remaining reach id offset size) :=
  (accounted_wordSum _ _).bind fun _ => (accounted_wordSum _ _).bind fun _ =>
    (accounted_withKept id fun _ => further.count _).bind fun _ => accounted_pure _

omit further in
theorem accounted_pageCount (size left : Nat) :
    Accounted (pageCount size left : Search σ ν Nat) := by
  unfold pageCount
  split
  · exact accounted_wordSum _ _
  · exact accounted_pure _

theorem accounted_pageRows (id offset size start count : Nat) :
    Accounted (pageRows reach id offset size start count) := by
  have leadOn (rows : List (Variable ν)) : Accounted (do
      return rows ++ [.more id (← wordSum offset size) size] : Search σ ν (List (Variable ν))) :=
    (accounted_wordSum _ _).bind fun _ => accounted_pure _
  refine (accounted_remaining further id offset size).bind fun left =>
    (accounted_pageCount size left).bind fun length => ?_
  dsimp only
  split
  · exact accounted_pure _
  · split
    · refine (accounted_wordSum _ _).bind fun first =>
        (accounted_withKept id fun l => further.rows l _ _).bind fun rows => ?_
      split
      · exact leadOn rows
      · exact accounted_pure _
    · split
      · exact leadOn []
      · exact accounted_pure _

/-! ## All kinds -/

omit further in
theorem accounted_answering {κ : Type} (wrap : κ → Listing ν) (answer : α → β)
    {act : Search σ ν (α × κ)} (h : Accounted act) : Accounted (answering wrap answer act) :=
  h.bind fun _ => accounted_pure _

theorem accounted_countWith (engine : Engine σ ν) (l : Listing ν) :
    Accounted (countWith engine reach l) := by
  cases l with
  | fixed => exact accounted_pure _
  | item => exact accounted_answering _ _ (accounted_target _)
  | indexList => exact accounted_answering _ _ (accounted_target _)
  | array => exact accounted_answering _ _ (accounted_target _)
  | nodes => exact accounted_answering _ _ (accounted_ofTarget _)
  | custom l => exact accounted_answering _ _ (l.accounted_settled engine _)
  | synthetic l => exact accounted_answering _ _ (l.accounted_settled engine further)
  | inlined =>
    exact (accounted_settledInlined engine further _ _ _ _).bind fun r => accounted_pure _
  | pointee =>
    refine (accounted_resolvedPointee engine _ _ _ _).bind' fun r => ?_
    cases r with
    | error row => exact accounted_pure _
    | ok l => exact (further.count l).bind fun r => accounted_pure _
  | unsupported => exact accounted_pure _
  | group => exact (accounted_groupCount further _ _).bind fun r => accounted_pure _
  | page =>
    exact (accounted_remaining further _ _ _).bind fun n =>
      (accounted_pageCount _ n).bind fun _ => accounted_pure _
  | registers => exact accounted_pure _
  | ofChild =>
    exact (accounted_resolvedChild engine further _ _ _).bind fun l =>
      (further.count l).bind fun r => accounted_pure _

theorem accounted_isSoundWith (engine : Engine σ ν) (l : Listing ν) :
    Accounted (isSoundWith engine reach l) := by
  cases l with
  | fixed => exact accounted_pure _
  | item => exact accounted_answering _ _ (accounted_target _)
  | indexList => exact accounted_answering _ _ (accounted_target _)
  | array => exact accounted_answering _ _ (accounted_target _)
  | nodes => exact accounted_answering _ _ (accounted_ofTarget _)
  | custom l => exact (l.accounted_settled engine _).bind fun r => accounted_pure _
  | synthetic l => exact accounted_answering _ _ (l.accounted_settled engine further)
  | inlined =>
    exact (accounted_settledInlined engine further _ _ _ _).bind fun r => accounted_pure _
  | pointee =>
    refine (accounted_resolvedPointee engine _ _ _ _).bind' fun r => ?_
    cases r with
    | error row => exact accounted_pure _
    | ok l => exact accounted_pure _
  | unsupported => exact accounted_pure _
  | group => exact (accounted_allSound further _).bind fun r => accounted_pure _
  | page => exact (accounted_withKept _ further.isSound).bind fun b => accounted_pure _
  | registers => exact (further.isSound _).bind fun r => accounted_pure _
  | ofChild => exact accounted_pure _

theorem accounted_rowsWith (engine : Engine σ ν) (start count : Nat) (l : Listing ν) :
    Accounted (rowsWith engine reach start count l) := by
  cases l with
  | fixed => exact accounted_pure _
  | item => exact accounted_answering _ _ (accounted_target _)
  | indexList => exact accounted_answering _ _ (accounted_target _)
  | array => exact accounted_answering _ _ (accounted_target _)
  | nodes => exact accounted_answering _ _ (accounted_ofTarget _)
  | custom l => exact accounted_answering _ _ (l.accounted_rows engine _ _ _)
  | synthetic l => exact accounted_answering _ _ (l.accounted_rows engine further _ _)
  | inlined =>
    refine (accounted_settledInlined engine further _ _ _ _).bind fun r => ?_
    obtain ⟨standing, inner⟩ := r
    rcases standing with n | row
    · cases inner with
      | none => exact accounted_pure _
      | some l => exact (further.rows l start count).bind fun r => accounted_pure _
    · exact accounted_pure _
  | pointee =>
    refine (accounted_resolvedPointee engine _ _ _ _).bind' fun r => ?_
    cases r with
    | error row => exact accounted_pure _
    | ok l => exact (further.rows l start count).bind fun r => accounted_pure _
  | unsupported => exact accounted_pure _
  | group => exact (accounted_groupRows further engine _ _ _ _ _).bind fun r => accounted_pure _
  | page => exact (accounted_pageRows further _ _ _ _ _).bind fun rows => accounted_pure _
  | registers => exact (further.rows _ start count).bind fun r => accounted_pure _
  | ofChild =>
    exact (accounted_resolvedChild engine further _ _ _).bind fun l =>
      (further.rows l start count).bind fun r => accounted_pure _

end Listing

end Asking

/-- The names of whatever can be asked within a bound are accounted for. -/
theorem Engine.accounted_reach (engine : Engine σ ν) (bound : Nat) :
    (engine.reach bound).Accounted := by
  induction bound with
  | zero =>
    exact ⟨fun _ _ => accounted_unfinished, fun _ => accounted_unfinished,
      fun _ _ _ => accounted_unfinished, fun _ => accounted_unfinished⟩
  | succ bound ih =>
    exact {
      text := fun kind v => engine.accounted_textWith ih kind v
      count := fun l => Listing.accounted_countWith ih engine l
      rows := fun l start count => Listing.accounted_rowsWith ih engine start count l
      isSound := fun l => Listing.accounted_isSoundWith ih engine l }

/-! ## One thing after the other -/

namespace Engine

/-- **Work that uses an engine**: it is asked whatever it can be asked, one thing after the
other. Meanwhile the program that is debugged may run on and rules may be loaded. -/
inductive Uses (engine : Engine σ ν) : {α : Type} → Search σ ν α → Prop
  /-- The children of a variable are to be listed. -/
  | listing {v : Variable ν} {act : Run σ ν (Listing ν)} (lists : Lists engine v act) :
      Uses engine (liftM act : Search σ ν (Listing ν))
  | mightHaveChildren (v : Variable ν) :
      Uses engine (liftM (engine.mightHaveChildren v) : Search σ ν Bool)
  | text (bound : Nat) (kind : TextKind) (v : Variable ν) : Uses engine (engine.text bound kind v)
  | display (bound : Nat) (kind : TextKind) (v : Variable ν) :
      Uses engine (engine.display bound kind v)
  | count (bound : Nat) (l : Listing ν) : Uses engine (engine.count bound l)
  | rows (bound : Nat) (l : Listing ν) (start count : Nat) :
      Uses engine (engine.rows bound l start count)
  | isSound (bound : Nat) (l : Listing ν) : Uses engine (engine.isSound bound l)
  /-- Whatever else there is to do leaves the number of names alone. -/
  | other {α : Type} {act : Search σ ν α}
      (idle : ∀ s, Ensures act s fun _ s' => s'.scratchCount = s.scratchCount) : Uses engine act
  | bind {α β : Type} {act : Search σ ν α} {next : α → Search σ ν β} (first : Uses engine act)
      (rest : ∀ a, Uses engine (next a)) : Uses engine (act >>= next)

variable {engine : Engine σ ν}

theorem Lists.accounted {v : Variable ν} {act : Run σ ν (Listing ν)} (h : Lists engine v act) :
    act.Accounted := by
  cases h with
  | own => exact engine.accounted_childListing v
  | byRule => exact engine.accounted_ruleListing (engine.accounted_childListing v) v
  | expansion scope expand => exact engine.accounted_expandListing _ expand

/-- The names that are given out while an engine is used are accounted for. -/
theorem Uses.accounted {act : Search σ ν α} (h : Uses engine act) : Accounted act := by
  induction h with
  | listing lists => exact lists.accounted
  | mightHaveChildren v => exact (engine.light_mightHaveChildren v).accounted
  | text bound kind v => exact (engine.accounted_reach bound).text kind v
  | display bound kind v =>
    exact engine.accounted_ruleText kind ((engine.accounted_reach bound).text kind v) v
  | count bound l => exact (engine.accounted_reach bound).count l
  | rows bound l start count => exact (engine.accounted_reach bound).rows l start count
  | isSound bound l => exact (engine.accounted_reach bound).isSound l
  | other idle => exact accounted_idle idle
  | bind _ _ ih₁ ih₂ => exact ih₁.bind ih₂

/-- **No scratch name is given out twice**, whatever an engine is asked one thing after the
other. When that is at its end, the names can be told. And at any time the names given out
so far are different, in order those of variables with the numbers from the one the session
began with; so they are in work that never comes to an end. -/
theorem Uses.scratchNames_nodup {act : Search σ ν α} (uses : Uses engine act)
    (s : Session σ ν) :
    (∀ a s', act s = .ok (a, s') → ∃ names, Gives act s names a s') ∧
    ∀ names s', HasGiven act s names s' →
      names.Nodup ∧ s'.scratchCount = s.scratchCount + names.length ∧
        ∃ vars, names = numberedFrom s.scratchCount vars := by
  refine ⟨uses.accounted s, fun names s' given => ?_⟩
  obtain ⟨vars, rfl, counted⟩ := given.exists_numberedFrom
  rw [length_numberedFrom]
  exact ⟨nodup_numberedFrom _ _, counted, vars, rfl⟩

end Engine

namespace OneVariable

/-- A custom list of no items with two variables, the second called like the first with a
number. -/
def twoDeclared : Listing Unit :=
  .custom { context, rule := { declarations := [⟨"a", "1"⟩, ⟨"a_1", "2"⟩], body := [] } }

/-- The list is counted twice, as by two who list it each for themselves. -/
def countedTwice : Search Unit Unit (Nat × Listing Unit) := do
  let _ ← engine.count 4 twoDeclared
  engine.count 4 twoDeclared

/-- And then once more, which does not end within its bound. -/
def countedEndlessly : Search Unit Unit (Nat × Listing Unit) := do
  let _ ← countedTwice
  engine.count 0 twoDeclared

/-- Four variables are created then, under different names, whether or not an end is
reached. -/
theorem scratchNames_countedTwice : ∃ names n s',
    Gives countedTwice (session #[]) names n s' ∧ names.Nodup ∧ names.length = 4 ∧
      (∀ r, countedEndlessly (session #[]) ≠ .ok r) ∧
        HasGiven countedEndlessly (session #[]) names s' := by
  have counts (bound : Nat) : engine.Uses (engine.count bound twoDeclared) := .count _ _
  have twice : engine.Uses countedTwice := (counts 4).bind fun _ => counts 4
  have endlessly : engine.Uses countedEndlessly := twice.bind fun _ => counts 0
  have four : (countedTwice (session #[])).map (fun r => r.2.scratchCount) = .ok 4 := by
    decide +kernel
  obtain ⟨⟨n, s'⟩, ended, counted⟩ := Bounded.map_eq_ok_iff.mp four
  obtain ⟨names, gives⟩ := (twice.scratchNames_nodup (session #[])).1 n s' ended
  have given : HasGiven countedEndlessly (session #[]) names s' := .first (.ended gives)
  obtain ⟨nodup, many, -⟩ := (endlessly.scratchNames_nodup (session #[])).2 names s' given
  have begun : (session #[] : Session Unit Unit).scratchCount = 0 := rfl
  rw [counted, begun, Nat.zero_add] at many
  refine ⟨names, n, s', gives, nodup, many.symm, fun r ends => ?_, given⟩
  obtain ⟨_, -, ends⟩ := bind_eq_ok_iff.mp ends
  cases ends

end OneVariable

end WatchView
