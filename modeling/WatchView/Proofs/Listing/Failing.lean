import WatchView.Proofs.Evaluation.Stateless
import WatchView.Proofs.Listing.Alike
import WatchView.Proofs.Listing.Held
/-!
# Elements that fail

An element of an expansion fails when it is counted for the first time, if its guard or its
start fails (`Engine.Drops`). Then it shows one row that says why, or none if it is optional.
An element that is hidden shows none. Each kind starts in its own way, but in all of them the
listing of such an element comes to that one standing (`Engine.Drops.count`), and what else the
session knows is left alone, but for the scratch names that were given out.
-/

namespace WatchView

open Bounded Watch

variable {σ ν α : Type} {engine : Engine σ ν} {c : Context ν} {s s' : Session σ ν} {k : Nat}

/-! ## Sessions that are left alone -/

/-- **A session that is left as it was**, but for answers that the rule book keeps and `k`
scratch names that were given out. -/
structure Session.Leaves (engine : Engine σ ν) (k : Nat) (s s' : Session σ ν) : Prop where
  target : s'.target = s.target
  depth : s'.depth = s.depth
  scratchCount : s'.scratchCount = s.scratchCount + k
  catalogue : s'.book.catalogue = s.book.catalogue
  trusts : s'.Trusts engine
  listings : s'.listings = s.listings

theorem Session.Leaves.refl (trusts : s.Trusts engine) : s.Leaves engine 0 s :=
  ⟨rfl, rfl, rfl, rfl, trusts, rfl⟩

/-- It is like one in which only those names were given out. -/
theorem Session.Leaves.alike (left : s.Leaves engine k s') (trusts : s.Trusts engine) (R : Region) :
    ({ s with scratchCount := s.scratchCount + k } : Session σ ν).Alike engine R s' where
  target := left.target.symm
  depth := left.depth.symm
  scratchCount := left.scratchCount.symm
  catalogue := left.catalogue.symm
  trusts := trusts
  trusts' := left.trusts
  size := congrArg Array.size left.listings.symm
  kept id _ := congrFun (Session.kept_congr left.listings.symm) id

/-- Work that keeps to states of a kind. -/
def Watch.within {S : Type} (kind : S → Prop) : Watch S S Empty where
  same p s := p = s ∧ kind s
  notes _ := []
  fits _ := True
  fits_nil := trivial
  fits_append _ _ := trivial

theorem Watch.follows_within {S : Type} {kind : S → Prop} {act : StateM S α}
    (stays : ∀ s, kind s → kind (act s).2) : (within kind).Follows act act := by
  rintro p _ ⟨rfl, here⟩
  exact ⟨[], trivial, rfl, ⟨rfl, stays p here⟩, rfl⟩

theorem Watch.Follows.stays {S : Type} {kind : S → Prop} {act : StateM S α}
    (h : (within kind).Follows act act) {s : S} (here : kind s) : kind (act s).2 := by
  obtain ⟨-, -, -, ⟨-, after⟩, -⟩ := h s s ⟨rfl, here⟩
  exact after

/-- Work on a debugger that keeps it. -/
theorem Session.Leaves.lift {act : StateM σ α} (left : s.Leaves engine k s') (keeps : Keeps act) :
    s.Leaves engine k ((liftM act : Run σ ν α) s').2 :=
  { left with target := (keeps s'.target).trans left.target }

theorem Keeps.lift_eq {act : StateM σ α} (keeps : Keeps act) (s : Session σ ν) :
    ((liftM act : Run σ ν α) s).2 = s :=
  congrArg (fun target => { s with target }) (keeps s.target)

theorem Keeps.follows {kind : Session σ ν → Prop} {act : StateM σ α} (keeps : Keeps act) :
    (within kind).Follows (liftM act : Run σ ν α) (liftM act : Run σ ν α) :=
  follows_within fun s here => by
    rw [keeps.lift_eq]
    exact here

namespace Engine

/-- Looking up a rule only adds to the answers that are kept. -/
theorem leaves_findRule (names : engine.inspector.NamesTypes) (s : Session σ ν) (v : Variable ν)
    (s' : Session σ ν) (left : s.Leaves engine 0 s') :
    s.Leaves engine 0 (engine.findRule v s').2 := by
  obtain ⟨answers, found, faithful⟩ := engine.findRule_eq names v left.trusts
  rw [found]
  exact { left with trusts := faithful }

section Texts

variable {kind : Session σ ν → Prop} (found : ∀ v s, kind s → kind (engine.findRule v s).2)
  (stateless : engine.debugger.Stateless)

include found in
theorem within_templatesFor (text : TextKind) (v : Variable ν) :
    (within kind).Follows (engine.templatesFor text v) (engine.templatesFor text v) := by
  refine Follows.bind (follows_within fun _ here => here) fun f => ?_
  split
  · exact follows_pure _
  · refine Follows.bind (follows_within (found v)) fun found => ?_
    cases found with
    | none => exact follows_pure _
    | some m => exact follows_pure _

include stateless

theorem within_firstText {hole : Answer ν → Run σ ν String}
    (h : ∀ answer, (within kind).Follows (hole answer) (hole answer))
    (v : Variable ν) (scope : Scope (Variable ν)) (templates : List GuardedText) :
    (within kind).Follows (engine.firstText hole v scope templates)
      (engine.firstText hole v scope templates) := by
  refine follows_firstText_of (fun template _ => (Evaluator.keeps_applies _ _ stateless _).follows)
    fun template _ expression _ => ?_
  refine (Evaluator.keeps_evaluate _ _ stateless _ _).follows.bind fun result => ?_
  cases result with
  | error e => exact follows_pure _
  | ok answer => exact (h answer).bind fun text => follows_pure _

include found

/-- **The text of a value only looks up rules**: it keeps to any kind of sessions that this keeps
to. -/
theorem within_valueText (text : TextKind) (levels : Nat) (answer : Answer ν) :
    (within kind).Follows (engine.valueText text levels answer)
      (engine.valueText text levels answer) := by
  induction levels generalizing answer with
  | zero => exact (within_templatesFor found text _).bind fun _ => follows_pure _
  | succ levels ih =>
    refine (within_templatesFor found text _).bind fun found => ?_
    refine (within_firstText stateless ih _ _ _).bind fun text' => ?_
    have plain : (within kind).Follows (engine.plainText text answer)
        (engine.plainText text answer) := follows_within fun _ here => here
    rcases text' with e | _ | text'
    · exact plain
    · exact plain
    · exact follows_pure _

end Texts

end Engine

/-- The declarations of a custom list only give out scratch names. -/
theorem CustomListing.leaves_declareAll (stateless : engine.debugger.Stateless)
    (owner : Variable ν) (decls : List VariableDecl) (scope : Scope (Variable ν))
    (s : Session σ ν) :
    (within fun s' => ∃ k, s.Leaves engine k s').Follows
      (declareAll engine.evaluator owner decls scope)
      (declareAll engine.evaluator owner decls scope) := by
  induction decls generalizing scope with
  | nil => exact follows_pure _
  | cons decl decls ih =>
    refine Follows.bind (follows_within ?_) fun scratch => Follows.bind (follows_within ?_)
      fun result => ?_
    · rintro s' ⟨k, left⟩
      exact ⟨k + 1, { left with scratchCount := congrArg (· + 1) left.scratchCount }⟩
    · rintro s' ⟨k, left⟩
      exact ⟨k, left.lift (Evaluator.keeps_declare _ _ stateless _ _)⟩
    · cases result with
      | error e => exact follows_pure _
      | ok scope => exact ih scope

/-! ## Failures -/

/-- The guard of an element. -/
def ExpandItem.guard : ExpandItem → Guard
  | .item rule => rule.guard
  | .synthetic rule => rule.guard
  | .expandedItem rule => rule.guard
  | .indexList rule => rule.guard
  | .array rule => rule.guard
  | .nodes rule => rule.guard
  | .customList rule => rule.guard
  | .unsupported _ => {}

namespace Engine

/-- Whether an element is supported. -/
def supports (engine : Engine σ ν) : ExpandItem → Bool
  | .customList _ => engine.options.flag .customLists
  | .unsupported _ => false
  | _ => true

/-- **An element whose start fails** in a session, with the error. The number is that of the
scratch names that are given out before. -/
inductive StartFails (engine : Engine σ ν) (c : Context ν) (s : Session σ ν) :
    ExpandItem → ExpandError → Nat → Prop
  /-- An index list without an expression. -/
  | noValueNode {rule : IndexListRule}
      (blank : (rule.valueNodes.all fun node => Text.isBlankText node.value) = true) :
      StartFails engine c s (.indexList rule) (.missing "ValueNode") 0
  /-- The size of an index list. -/
  | indexSize {rule : IndexListRule} {e : ExpandError}
      (given : (rule.valueNodes.all fun node => Text.isBlankText node.value) = false)
      (size : (engine.evaluator.declaredSize c.owner c.scope rule.sizes s.target).1 = .error e) :
      StartFails engine c s (.indexList rule) e 0
  /-- The pointer of an array: its condition, or there is none. -/
  | pointer {rule : ArrayRule} {e : ExpandError}
      (chosen : (ArrayListing.chosenPointer engine.evaluator c rule.valuePointers s.target).1 =
        .error e) :
      StartFails engine c s (.array rule) e 0
  /-- The size of an array. -/
  | arraySize {rule : ArrayRule} {pointer : String} {e : ExpandError}
      (chosen : (ArrayListing.chosenPointer engine.evaluator c rule.valuePointers s.target).1 =
        .ok pointer)
      (size : (engine.evaluator.declaredSize c.owner c.scope rule.sizes s.target).1 = .error e) :
      StartFails engine c s (.array rule) e 0
  /-- A linked list or tree without a part that it needs. -/
  | part {rule : NodeRule} {part : String} (missing : NodeListing.missingPart? rule = some part) :
      StartFails engine c s (.nodes rule) (.missing part) 0
  /-- The head of a linked list, or the root of a tree. -/
  | head {rule : NodeRule} {e : EvalError} (complete : NodeListing.missingPart? rule = none)
      (head : (({ context := c, rule } : NodeListing ν).head engine.evaluator s.target).1 =
        .error e) :
      StartFails engine c s (.nodes rule) (.evaluation e) 0
  /-- The size of a linked list or tree. -/
  | nodeSize {rule : NodeRule} {head : Variable ν} {size : String} {e : ExpandError}
      (complete : NodeListing.missingPart? rule = none)
      (found : (({ context := c, rule } : NodeListing ν).head engine.evaluator s.target).1 =
        .ok head)
      (declared : (rule.size.filter fun size => !Text.isBlankText size) = some size)
      (fails : (engine.evaluator.declaredSize c.owner c.scope [{ value := size }] s.target).1 =
        .error e) :
      StartFails engine c s (.nodes rule) e 0
  /-- The text of a synthetic row. -/
  | text {rule : SyntheticRule} {levels : Nat} {e : EvalError}
      (left : engine.options.get .maxFormatDepth - s.depth = levels + 1)
      (text : (engine.firstText (engine.valueText .value levels) c.owner c.scope rule.display
        { s with depth := s.depth + 1 }).1 = .error e) :
      StartFails engine c s (.synthetic rule) (.evaluation e) 0
  /-- The expression whose children are listed in place. -/
  | value {rule : ExpandedItemRule} {e : EvalError} (given : Text.isBlankText rule.value = false)
      (value : (engine.evaluator.evaluate rule.value c.owner c.scope none s.target).1 = .error e) :
      StartFails engine c s (.expandedItem rule) (.evaluation e) 0
  /-- A program that makes no sense. -/
  | program {rule : CustomListRule} {e : ExpandError}
      (compiled : Program.compile rule.body = .error e) :
      StartFails engine c s (.customList rule) e 0
  /-- A declaration of a custom list. -/
  | declaration {rule : CustomListRule} {program : Sequence} {e : EvalError} {s' : Session σ ν}
      {k : Nat} (compiled : Program.compile rule.body = .ok program)
      (declared : CustomListing.declareAll engine.evaluator c.owner rule.declarations c.scope s =
        (.error e, s'))
      (given : s'.scratchCount = s.scratchCount + k) :
      StartFails engine c s (.customList rule) (.evaluation e) k
  /-- The size of a custom list. -/
  | customSize {rule : CustomListRule} {program : Sequence} {scope : Scope (Variable ν)}
      {e : EvalError} {s' : Session σ ν} {k : Nat}
      (compiled : Program.compile rule.body = .ok program)
      (declared : CustomListing.declareAll engine.evaluator c.owner rule.declarations c.scope s =
        (.ok scope, s'))
      (given : s'.scratchCount = s.scratchCount + k)
      (size : (engine.evaluator.declaredSize c.owner scope rule.sizes s'.target).1 =
        .error (.evaluation e)) :
      StartFails engine c s (.customList rule) (.evaluation e) k

/-- **An element that lists no children of its own** in a session, with what it comes to: it is
hidden, or its condition fails, or its start does. -/
inductive Drops (engine : Engine σ ν) (c : Context ν) (s : Session σ ν) (item : ExpandItem) :
    Standing ν → Nat → Prop
  | hidden (applies : (c.applies engine.evaluator item.guard s.target).1 = .ok false) :
      Drops engine c s item (.counted 0) 0
  | condition {e : EvalError}
      (applies : (c.applies engine.evaluator item.guard s.target).1 = .error e) :
      Drops engine c s item (.ofResult item.guard (.error (.evaluation e))) 0
  | start {e : ExpandError} {k : Nat}
      (applies : (c.applies engine.evaluator item.guard s.target).1 = .ok true)
      (fails : StartFails engine c s item e k) :
      Drops engine c s item (.ofResult item.guard (.error e)) k

end Engine

/-! ## Settling -/

namespace Engine

section Settling

variable {κ : Type} {item : ExpandItem} {st : Standing ν}
  (h : engine.Drops c s item st k) (stateless : engine.debugger.Stateless)

include stateless

/-- What becomes of the guard. -/
theorem applies_apply {guard : Guard} {r : Except EvalError Bool} {t : σ}
    (h : (c.applies engine.evaluator guard t).1 = r) :
    c.applies engine.evaluator guard t = (r, t) := by
  have keeps : Keeps (c.applies engine.evaluator guard) :=
    Evaluator.keeps_applies c.owner c.scope stateless guard
  rw [keeps.apply t, h]

include h

/-- An element that is settled by work on the debugger. -/
theorem Drops.settle (count : κ → StateM σ (Except ExpandError Nat × κ)) (l : κ)
    (start : ∀ e k, StartFails engine c s item e k →
      ∃ l', count l s.target = ((.error e, l'), s.target)) :
    ∃ l', Standing.settle item.guard (c.applies engine.evaluator item.guard) count l s.target =
      ((st, l'), s.target) := by
  -- a guard that does not apply settles the element before it starts
  cases h with
  | hidden applies =>
    refine ⟨l, ?_⟩
    rw [Standing.settle, bind_apply, applies_apply stateless applies]
    rfl
  | condition applies =>
    refine ⟨l, ?_⟩
    rw [Standing.settle, bind_apply, applies_apply stateless applies]
    rfl
  | start applies fails =>
    obtain ⟨l', counted⟩ := start _ _ fails
    refine ⟨l', ?_⟩
    rw [Standing.settle, bind_apply, applies_apply stateless applies]
    dsimp only
    rw [bind_apply, counted]
    rfl

/-- An element that is settled within a bound, with what holds of it all along. -/
theorem Drops.settle_bounded {P : κ → Prop} (count : κ → Bounded σ (Except ExpandError Nat × κ))
    (l : κ) (here : P l) (start : ∀ e k, StartFails engine c s item e k →
      ∃ l', count l s.target = .ok ((.error e, l'), s.target) ∧ P l') :
    ∃ l', Standing.settle item.guard
      (liftM (c.applies engine.evaluator item.guard) : Bounded σ (Except EvalError Bool)) count l
        s.target = .ok ((st, l'), s.target) ∧ P l' := by
  have applied {r : Except EvalError Bool}
      (applies : (c.applies engine.evaluator item.guard s.target).1 = r) :
      (liftM (c.applies engine.evaluator item.guard) : Bounded σ (Except EvalError Bool))
        s.target = .ok (r, s.target) := congrArg Except.ok (applies_apply stateless applies)
  cases h with
  | hidden applies => exact ⟨l, bind_eq_ok_iff.mpr ⟨_, applied applies, rfl⟩, here⟩
  | condition applies => exact ⟨l, bind_eq_ok_iff.mpr ⟨_, applied applies, rfl⟩, here⟩
  | start applies fails =>
    obtain ⟨l', counted, there⟩ := start _ _ fails
    exact ⟨l', bind_eq_ok_iff.mpr ⟨_, applied applies, bind_eq_ok_iff.mpr ⟨_, counted, rfl⟩⟩,
      there⟩

/-- An element that is settled by work on the session. -/
theorem Drops.settle_search (count : κ → Search σ ν (Except ExpandError Nat × κ)) (l : κ)
    (trusts : s.Trusts engine) (start : ∀ e k, StartFails engine c s item e k →
      ∃ l' s', count l s = .ok ((.error e, l'), s') ∧ s.Leaves engine k s') :
    ∃ l' s', Standing.settle item.guard
      (liftM (c.applies engine.evaluator item.guard) : Search σ ν (Except EvalError Bool)) count l
        s = .ok ((st, l'), s') ∧ s.Leaves engine k s' := by
  have applied {r : Except EvalError Bool}
      (applies : (c.applies engine.evaluator item.guard s.target).1 = r) :
      (liftM (c.applies engine.evaluator item.guard) : Search σ ν (Except EvalError Bool)) s =
        .ok (r, s) := lift_eq (applies_apply stateless applies)
  cases h with
  | hidden applies =>
    exact ⟨l, s, bind_eq_ok_iff.mpr ⟨_, applied applies, rfl⟩, .refl trusts⟩
  | condition applies =>
    exact ⟨l, s, bind_eq_ok_iff.mpr ⟨_, applied applies, rfl⟩, .refl trusts⟩
  | start applies fails =>
    obtain ⟨l', s', counted, left⟩ := start _ _ fails
    exact ⟨l', s', bind_eq_ok_iff.mpr ⟨_, applied applies,
      bind_eq_ok_iff.mpr ⟨_, counted, rfl⟩⟩, left⟩

end Settling

end Engine

/-! ## What an element comes to -/

/-- **A listing that comes to a standing**: it is settled, and shows the row of the failure if
there is one. -/
structure Listing.ComesTo (l : Listing ν) (st : Standing ν) : Prop where
  answer : l.answer? = some (standingAnswer st)
  row : ∀ bound row, st = .failed row → l.Supplies bound 0 1 [row]

theorem clip_one {β : Type} (x : β) : clip 0 1 [x] = [x] := clip_zero (by decide) [x]

/-- A row that is alone is in the window of one row. -/
theorem Standing.supplies_failed (row : Variable ν) (shown : Nat → List (Variable ν) → Prop) :
    (Standing.failed row).Supplies 0 1 shown [row] := (clip_one row).symm

/-- An element that fails can be had if it is optional. -/
theorem Standing.isSound_ofResult (guard : Guard) (e : ExpandError) :
    (Standing.ofResult guard (.error e) : Standing ν).isSound = guard.optional := by
  rw [Standing.ofResult]
  cases guard.optional with
  | true => rfl
  | false => rfl

/-- A custom list that fails before it has rows: the failure is its row, unless it is optional. -/
theorem CustomListing.comesTo_failed {l : CustomListing ν} (e : EvalError) (new : l.shown = #[]) :
    (l.fail e).shown.size =
      (Standing.ofResult l.rule.guard (.error (.evaluation e)) : Standing ν).count ∧
    (Listing.custom { l.fail e with
      standing := .counted (l.fail e).shown.size, current := true }).ComesTo
        (.ofResult l.rule.guard (.error (.evaluation e))) := by
  have shown : (l.fail e).shown =
      if l.rule.guard.optional then #[] else #[.error (Variable.failureText e.message)] := by
    unfold fail
    dsimp only
    rw [new]
    rfl
  cases optional : l.rule.guard.optional with
  | true =>
    rw [optional, if_pos rfl] at shown
    rw [Standing.ofResult, optional, shown]
    refine ⟨rfl, Listing.answer?_custom_iff.mpr ⟨rfl, ?_⟩, fun bound row no => nomatch no⟩
    exact Prod.ext rfl (congrArg (· || _) optional)
  | false =>
    rw [optional, if_neg Bool.false_ne_true] at shown
    rw [Standing.ofResult, optional, shown]
    refine ⟨rfl, Listing.answer?_custom_iff.mpr ⟨rfl, ?_⟩,
      fun bound row here => ⟨rfl, .inl rfl, ?_⟩⟩
    · exact Prod.ext rfl (congrArg (· || _) optional)
    · cases here
      have window := filterMap_shown 1 (0, 1) (l.fail e)
      change _ = (windowOf 1 0 1).filterMap ((l.fail e).shown[·]?)
      rw [window, shown]
      exact (clip_one _).symm

/-- A list whose program was not begun begins it. -/
theorem CustomListing.started_eq (ev : Evaluator σ ν) (l : CustomListing ν) {program : Sequence}
    (new : l.run = none) (compiled : Program.compile l.rule.body = .ok program) (s : Session σ ν) :
    l.started ev s = (.ok (l.start ev program s).1, (l.start ev program s).2) := by
  unfold started
  rw [new, compiled]
  rfl

/-- A list that fails when it begins has no rows but that of the failure. -/
theorem CustomListing.count_of_failed {l l' : CustomListing ν} {e : EvalError} (bound : Nat)
    (started : l.started engine.evaluator s = (.ok (l'.fail e), s')) (unsized : l'.size = none) :
    l.count engine bound s = .ok ((.ok (l'.fail e).shown.size, l'.fail e), s') := by
  have unsized' : (l'.fail e).size = none := unsized
  have run : Search.ofTarget ((l'.fail e).runTo engine.evaluator bound
      ((l'.fail e).effectiveLimit engine.options)) s' = .ok (l'.fail e, s') := rfl
  refine bind_eq_ok_iff.mpr ⟨_, congrArg Except.ok started, ?_⟩
  dsimp only
  rw [unsized']
  exact bind_eq_ok_iff.mpr ⟨_, run, rfl⟩

namespace Engine

/-- The list of an element that pages share, before it was asked. -/
inductive Fresh (c : Context ν) : ExpandItem → Listing ν → Prop
  | indexList (rule : IndexListRule) :
      Fresh c (.indexList rule) (.indexList { context := c, rule := rule })
  | array (rule : ArrayRule) : Fresh c (.array rule) (.array { context := c, rule := rule })
  | nodes (rule : NodeRule) (limit : Nat) :
      Fresh c (.nodes rule) (.nodes { context := c, rule := rule, limit := limit })
  | custom (rule : CustomListRule) (limit : Nat) :
      Fresh c (.customList rule) (.custom { context := c, rule := rule, limit := limit })

/-- The limit of a page does not matter. -/
theorem Fresh.raisedFor {item : ExpandItem} {l : Listing ν} (fresh : Fresh c item l)
    (offset size : Nat) : Fresh c item (l.raisedFor offset size) := by
  unfold Listing.raisedFor Listing.raisedTo
  split
  · cases fresh with
    | indexList rule => exact .indexList rule
    | array rule => exact .array rule
    | nodes rule limit =>
      have new (needed : Nat) : (Listing.nodes ({ context := c, rule := rule, limit := limit } :
          NodeListing ν)).setLimit needed =
            .nodes { context := c, rule := rule, limit := needed } := by
        simp [Listing.setLimit]
      rw [new]
      exact .nodes rule _
    | custom rule limit => exact .custom rule _
  · exact fresh

/-- **The listing of a supported element that was not asked yet.** -/
inductive NewElement (c : Context ν) (s : Session σ ν) : ExpandItem → Listing ν → Prop
  | item (rule : ItemRule) : NewElement c s (.item rule) (.item { context := c, rule := rule })
  | synthetic (rule : SyntheticRule) :
      NewElement c s (.synthetic rule) (.synthetic { context := c, rule := rule })
  | inlined (rule : ExpandedItemRule) :
      NewElement c s (.expandedItem rule) (.inlined c rule none none)
  | page {item : ExpandItem} {id size : Nat} (inside : id < s.listings.size)
      (fresh : Fresh c item (s.kept id)) (room : 0 < size) (fits : size + 1 < wordCount) :
      NewElement c s item (.page id 0 size)

section Kinds

variable {st : Standing ν} (reach : Reach σ ν) (stateless : engine.debugger.Stateless)

include stateless

theorem Drops.count_item {rule : ItemRule} (h : engine.Drops c s (.item rule) st k) :
    ∃ l', (Listing.item { context := c, rule := rule }).countWith engine reach s =
      .ok ((st.count, l'), s) ∧ l'.ComesTo st := by
  obtain ⟨l', settled⟩ := h.settle stateless (fun l => pure (.ok 1, l))
    ({ context := c, rule := rule } : ItemListing ν) fun e k fails => nomatch fails
  refine ⟨.item { l' with standing := some st },
    bind_eq_ok_iff.mpr ⟨_, lift_eq (a := (st, { l' with standing := some st })) ?_, rfl⟩, rfl, ?_⟩
  · exact congrArg (fun r => ((r.1.1, { r.1.2 with standing := some r.1.1 }), r.2)) settled
  · rintro bound row rfl
    exact ⟨_, rfl, Standing.supplies_failed row _⟩

theorem Drops.count_indexList {rule : IndexListRule} (h : engine.Drops c s (.indexList rule) st k) :
    ∃ l', (Listing.indexList { context := c, rule := rule }).countWith engine reach s =
      .ok ((st.count, l'), s) ∧ l'.ComesTo st := by
  have size : Keeps (engine.evaluator.declaredSize c.owner c.scope rule.sizes) :=
    Evaluator.keeps_declaredSize c.owner c.scope stateless rule.sizes
  obtain ⟨l', settled⟩ := h.settle stateless (fun l => do return (← l.count engine.evaluator, l))
    ({ context := c, rule := rule } : IndexListing ν) fun e k fails => by
      refine ⟨{ context := c, rule := rule }, ?_⟩
      rw [bind_apply]
      unfold IndexListing.count
      cases fails with
      | noValueNode blank =>
        rw [if_pos blank]
        rfl
      | indexSize given fails =>
        rw [if_neg (by rw [given]; exact Bool.false_ne_true), size.apply s.target, fails]
        rfl
  refine ⟨.indexList { l' with standing := some st },
    bind_eq_ok_iff.mpr ⟨_, lift_eq (a := (st, { l' with standing := some st })) ?_, rfl⟩, rfl, ?_⟩
  · exact congrArg (fun r => ((r.1.1, { r.1.2 with standing := some r.1.1 }), r.2)) settled
  · rintro bound row rfl
    exact ⟨_, rfl, Standing.supplies_failed row _⟩

theorem Drops.count_array {rule : ArrayRule} (h : engine.Drops c s (.array rule) st k) :
    ∃ l', (Listing.array { context := c, rule := rule }).countWith engine reach s =
      .ok ((st.count, l'), s) ∧ l'.ComesTo st := by
  have size : Keeps (engine.evaluator.declaredSize c.owner c.scope rule.sizes) :=
    Evaluator.keeps_declaredSize c.owner c.scope stateless rule.sizes
  have pointer : Keeps (ArrayListing.chosenPointer engine.evaluator c rule.valuePointers) :=
    ArrayListing.keeps_chosenPointer stateless c rule.valuePointers
  obtain ⟨l', settled⟩ := h.settle stateless (fun l => l.count engine.evaluator)
    ({ context := c, rule := rule } : ArrayListing ν) fun e k fails => by
      unfold ArrayListing.count
      rw [bind_apply]
      cases fails with
      | pointer chosen =>
        refine ⟨{ context := c, rule := rule }, ?_⟩
        rw [pointer.apply s.target, chosen]
        rfl
      | @arraySize _ text _ chosen fails =>
        refine ⟨{ context := c, rule := rule, pointer := some text }, ?_⟩
        rw [pointer.apply s.target, chosen]
        dsimp only
        rw [bind_apply, size.apply s.target, fails]
        rfl
  refine ⟨.array { l' with standing := some st },
    bind_eq_ok_iff.mpr ⟨_, lift_eq (a := (st, { l' with standing := some st })) ?_, rfl⟩, rfl, ?_⟩
  · exact congrArg (fun r => ((r.1.1, { r.1.2 with standing := some r.1.1 }), r.2)) settled
  · rintro bound row rfl
    exact ⟨_, rfl, Standing.supplies_failed row _⟩

theorem Drops.count_nodes {rule : NodeRule} (limit : Nat)
    (h : engine.Drops c s (.nodes rule) st k) :
    ∃ l', (Listing.nodes { context := c, rule := rule, limit := limit }).countWith engine reach s =
      .ok ((st.count, l'), s) ∧ l'.ComesTo st := by
  let fresh : NodeListing ν := { context := c, rule := rule, limit := limit }
  obtain ⟨l', settled, up⟩ := h.settle_bounded stateless (P := fun l => l.stale = false)
    (fun l => l.count engine.evaluator engine.options reach.bound) fresh rfl fun e k fails => by
      have keeps : Keeps (fresh.head engine.evaluator) := NodeListing.keeps_head stateless fresh
      have head := keeps.apply s.target
      unfold NodeListing.count
      -- it fails where its parts are missing, at the head, or at its declared size, when the walk
      -- is begun already
      cases fails with
      | part missing =>
        refine ⟨fresh, ?_, rfl⟩
        dsimp only [fresh]
        rw [missing]
        rfl
      | head complete fails =>
        refine ⟨fresh, ?_, rfl⟩
        dsimp only [fresh]
        rw [complete]
        exact bind_eq_ok_iff.mpr
          ⟨_, congrArg Except.ok (head.trans (congrArg (·, s.target) fails)), rfl⟩
      | @nodeSize _ node size _ complete found declared fails =>
        have keeps : Keeps (engine.evaluator.declaredSize c.owner c.scope [{ value := size }]) :=
          Evaluator.keeps_declaredSize c.owner c.scope stateless _
        have sized := keeps.apply s.target
        refine ⟨{ fresh with walk := some (.start node) }, ?_, rfl⟩
        dsimp only [fresh]
        rw [complete]
        refine bind_eq_ok_iff.mpr
          ⟨_, congrArg Except.ok (head.trans (congrArg (·, s.target) found)), ?_⟩
        dsimp only
        rw [declared]
        exact bind_eq_ok_iff.mpr
          ⟨_, congrArg Except.ok (sized.trans (congrArg (·, s.target) fails)), rfl⟩
  have settled' : fresh.settled engine.evaluator engine.options reach.bound s.target =
      .ok ((st, { l' with standing := some st }), s.target) :=
    bind_eq_ok_iff.mpr ⟨_, settled, rfl⟩
  refine ⟨.nodes { l' with standing := some st }, bind_eq_ok_iff.mpr
    ⟨((st, { l' with standing := some st }), s), ofTarget_eq_ok_iff.mpr ⟨_, settled', rfl⟩, rfl⟩,
    Listing.answer?_nodes_iff.mpr ⟨up, st, rfl, rfl⟩, ?_⟩
  rintro bound row rfl
  exact ⟨up, _, rfl, Standing.supplies_failed row _⟩

theorem Drops.count_synthetic {rule : SyntheticRule} (names : engine.inspector.NamesTypes)
    (trusts : s.Trusts engine) (h : engine.Drops c s (.synthetic rule) st k) :
    ∃ l' s', (Listing.synthetic { context := c, rule := rule }).countWith engine reach s =
      .ok ((st.count, l'), s') ∧ l'.ComesTo st ∧ s.Leaves engine k s' := by
  let fresh : SyntheticListing ν := { context := c, rule := rule }
  obtain ⟨l', s', settled, left⟩ := h.settle_search stateless (fun l => l.count engine reach) fresh
    trusts fun e k fails => by
      cases fails with
      | @text _ levels e levelsLeft text =>
        -- while the text is made the row is a level of its own
        let deeper : Session σ ν := { s with depth := s.depth + 1 }
        let texts := engine.firstText (engine.valueText .value levels) c.owner c.scope rule.display
        have kept : deeper.Leaves engine 0 (texts deeper).2 :=
          (within_firstText stateless
            (within_valueText (leaves_findRule names deeper) stateless .value levels)
              c.owner c.scope rule.display).stays (.refl trusts)
        have ended : texts deeper = (.error e, (texts deeper).2) := Prod.ext text rfl
        refine ⟨fresh, { (texts deeper).2 with depth := s.depth }, ?_,
          ⟨kept.target, rfl, kept.scratchCount, kept.catalogue, kept.trusts, kept.listings⟩⟩
        refine bind_eq_ok_iff.mpr
          ⟨(.error e, { (texts deeper).2 with depth := s.depth }), ?_, rfl⟩
        refine bind_eq_ok_iff.mpr ⟨(s, s), rfl, ?_⟩
        dsimp only
        rw [levelsLeft]
        exact bind_eq_ok_iff.mpr
          ⟨((), deeper), rfl, bind_eq_ok_iff.mpr ⟨_, congrArg Except.ok ended, rfl⟩⟩
  refine ⟨.synthetic { l' with standing := some st }, s', bind_eq_ok_iff.mpr
    ⟨((st, { l' with standing := some st }), s'), ?_, rfl⟩, ⟨rfl, ?_⟩, left⟩
  · exact bind_eq_ok_iff.mpr ⟨_, settled, rfl⟩
  · rintro bound row rfl
    exact ⟨_, rfl, Standing.supplies_failed row _⟩

section Custom

variable {rule : CustomListRule} {limit : Nat}

omit stateless in
/-- A custom list whose program does not begin comes to what its guard says. -/
theorem count_custom_of_idle {st : Standing ν} (trusts : s.Trusts engine)
    (sound : (rule.guard.optional || (st.isSound && true)) = st.isSound)
    (settled : Standing.settle rule.guard
      (liftM (c.applies engine.evaluator rule.guard) : Search σ ν (Except EvalError Bool))
      (fun l : CustomListing ν => l.count engine reach.bound)
      { context := c, rule := rule, limit := limit } s =
        .ok ((st, { context := c, rule := rule, limit := limit }), s)) :
    ∃ l' s', (Listing.custom { context := c, rule := rule, limit := limit }).countWith engine reach
      s = .ok ((st.count, l'), s') ∧ l'.ComesTo st ∧ s.Leaves engine 0 s' := by
  let settled' : CustomListing ν :=
    { context := c, rule := rule, limit := limit, standing := st, current := true }
  refine ⟨.custom settled', s,
    bind_eq_ok_iff.mpr ⟨_, bind_eq_ok_iff.mpr ⟨_, settled, rfl⟩, rfl⟩,
    ⟨Listing.answer?_custom_iff.mpr ⟨rfl, Prod.ext rfl sound⟩, ?_⟩, .refl trusts⟩
  rintro bound row rfl
  exact ⟨rfl, Standing.supplies_failed row _⟩

/-- A custom list that fails when it begins comes to that failure. -/
theorem count_custom_of_failed {l : CustomListing ν} {e : EvalError}
    (applies : (c.applies engine.evaluator l.rule.guard s.target).1 = .ok true)
    (started : ({ context := c, rule := l.rule, limit := limit } : CustomListing ν).started
      engine.evaluator s = (.ok (l.fail e), s'))
    (new : l.shown = #[]) (unsized : l.size = none) :
    ∃ l', (Listing.custom { context := c, rule := l.rule, limit := limit }).countWith engine reach
      s = .ok (((Standing.ofResult l.rule.guard (.error (.evaluation e)) : Standing ν).count, l'),
        s') ∧ l'.ComesTo (.ofResult l.rule.guard (.error (.evaluation e))) := by
  obtain ⟨many, comes⟩ := CustomListing.comesTo_failed e new
  have applied : (liftM (c.applies engine.evaluator l.rule.guard) :
      Search σ ν (Except EvalError Bool)) s = .ok (.ok true, s) :=
    lift_eq (applies_apply stateless applies)
  have counted := CustomListing.count_of_failed reach.bound started unsized
  refine ⟨_, bind_eq_ok_iff.mpr ⟨_, bind_eq_ok_iff.mpr ⟨_, bind_eq_ok_iff.mpr
    ⟨_, applied, bind_eq_ok_iff.mpr ⟨_, counted, rfl⟩⟩, rfl⟩, ?_⟩, comes⟩
  exact congrArg (fun n => Except.ok ((n, _), s')) many

theorem Drops.count_custom (trusts : s.Trusts engine)
    (h : engine.Drops c s (.customList rule) st k) :
    ∃ l' s', (Listing.custom { context := c, rule := rule, limit := limit }).countWith engine reach
      s = .ok ((st.count, l'), s') ∧ l'.ComesTo st ∧ s.Leaves engine k s' := by
  let fresh : CustomListing ν := { context := c, rule := rule, limit := limit }
  have applied {r : Except EvalError Bool}
      (applies : (c.applies engine.evaluator rule.guard s.target).1 = r) :
      (liftM (c.applies engine.evaluator rule.guard) : Search σ ν (Except EvalError Bool)) s =
        .ok (r, s) := lift_eq (applies_apply stateless applies)
  have refused (e : ExpandError) :
      (rule.guard.optional || ((Standing.ofResult rule.guard (.error e) : Standing ν).isSound &&
        true)) = (Standing.ofResult rule.guard (.error e) : Standing ν).isSound := by
    rw [Standing.isSound_ofResult, Bool.and_true, Bool.or_self]
  -- the scratch names that are given out, as they are counted
  have given {result : Except EvalError (Scope (Variable ν))} {s' : Session σ ν} {k : Nat}
      (declared : CustomListing.declareAll engine.evaluator c.owner rule.declarations c.scope s =
        (result, s')) (given : s'.scratchCount = s.scratchCount + k) : s.Leaves engine k s' := by
    have left := (CustomListing.leaves_declareAll stateless c.owner rule.declarations c.scope
      s).stays ⟨0, .refl trusts⟩
    rw [declared] at left
    obtain ⟨n, left⟩ := left
    exact { left with scratchCount := given }
  cases h with
  | hidden applies =>
    exact count_custom_of_idle reach trusts (Bool.or_true _)
      (bind_eq_ok_iff.mpr ⟨_, applied applies, rfl⟩)
  | condition applies =>
    exact count_custom_of_idle reach trusts (refused _)
      (bind_eq_ok_iff.mpr ⟨_, applied applies, rfl⟩)
  | @start e _ applies fails =>
    cases fails with
    | program compiled =>
      have started : fresh.started engine.evaluator s = (.error e, s) := by
        unfold CustomListing.started
        dsimp only [fresh]
        rw [compiled]
        rfl
      have counted : fresh.count engine reach.bound s = .ok ((.error e, fresh), s) :=
        bind_eq_ok_iff.mpr ⟨_, congrArg Except.ok started, rfl⟩
      exact count_custom_of_idle reach trusts (refused e) (bind_eq_ok_iff.mpr
        ⟨_, applied applies, bind_eq_ok_iff.mpr ⟨_, counted, rfl⟩⟩)
    | @declaration _ program e s' _ compiled declared many =>
      have begun : fresh.start engine.evaluator program s =
          (({ fresh with run := some { program, scope := c.scope } } : CustomListing ν).fail e,
            s') := by
        unfold CustomListing.start
        rw [bind_apply]
        dsimp only
        rw [declared]
        rfl
      have started := fresh.started_eq engine.evaluator rfl compiled s
      rw [begun] at started
      obtain ⟨l', counted, comes⟩ := count_custom_of_failed reach stateless
        (l := { fresh with run := some { program, scope := c.scope } }) applies started rfl rfl
      exact ⟨l', s', counted, comes, given declared many⟩
    | @customSize _ program scope e s' _ compiled declared many size =>
      have keeps : Keeps (engine.evaluator.declaredSize c.owner scope rule.sizes) :=
        Evaluator.keeps_declaredSize c.owner scope stateless rule.sizes
      have sized : (liftM (engine.evaluator.declaredSize c.owner scope rule.sizes) :
          Run σ ν (Except ExpandError Nat)) s' = (.error (.evaluation e), s') :=
        Except.ok.inj (lift_eq ((keeps.apply s'.target).trans (congrArg (·, s'.target) size)))
      have begun : fresh.start engine.evaluator program s =
          (({ fresh with run := some { program, scope } } : CustomListing ν).fail e, s') := by
        unfold CustomListing.start
        rw [bind_apply]
        dsimp only
        rw [declared]
        dsimp only
        rw [bind_apply, sized]
        rfl
      have started := fresh.started_eq engine.evaluator rfl compiled s
      rw [begun] at started
      obtain ⟨l', counted, comes⟩ := count_custom_of_failed reach stateless
        (l := { fresh with run := some { program, scope } }) applies started rfl rfl
      exact ⟨l', s', counted, comes, given declared many⟩

end Custom

/-- An expression that fails has no children to be listed in place. -/
theorem Drops.settle_inlined {rule : ExpandedItemRule} (trusts : s.Trusts engine)
    (h : engine.Drops c s (.expandedItem rule) st k) :
    ∃ inner s', Listing.settledInlined engine reach c rule none none s = .ok ((st, inner), s') ∧
      s.Leaves engine k s' := by
  refine h.settle_search stateless (fun inner => Listing.countInlined engine reach c rule inner)
    none trusts fun e k fails => ?_
  cases fails with
  | @value _ e given value =>
    have keeps : Keeps (engine.evaluator.evaluate rule.value c.owner c.scope none) :=
      Evaluator.keeps_evaluate c.owner c.scope stateless rule.value none
    have evaluated : (liftM (engine.evaluator.evaluate rule.value c.owner c.scope none) :
        Run σ ν (Except EvalError (Answer ν))) s = (.error e, s) :=
      Except.ok.inj (lift_eq ((keeps.apply s.target).trans (congrArg (·, s.target) value)))
    have listed : c.childListing engine rule.value s = (.error e, s) := by
      unfold Context.childListing
      rw [bind_apply, evaluated]
      rfl
    refine ⟨none, s, ?_, .refl trusts⟩
    unfold Listing.countInlined
    rw [if_neg (by rw [given]; exact Bool.false_ne_true)]
    exact bind_eq_ok_iff.mpr ⟨_, congrArg Except.ok listed, rfl⟩

omit stateless in
/-- Only a custom list gives out scratch names. -/
theorem Drops.gives_none {item : ExpandItem} (h : engine.Drops c s item st k)
    (plain : ∀ rule, item ≠ .customList rule) : k = 0 := by
  cases h with
  | hidden => rfl
  | condition => rfl
  | start _ fails =>
    cases fails with
    | declaration => exact absurd rfl (plain _)
    | customSize => exact absurd rfl (plain _)
    | _ => rfl

/-- A list that pages share comes to its standing. -/
theorem Drops.count_fresh {item : ExpandItem} {l : Listing ν} (fresh : Fresh c item l)
    (trusts : s.Trusts engine) (h : engine.Drops c s item st k) :
    ∃ l' s', l.countWith engine reach s = .ok ((st.count, l'), s') ∧ l'.ComesTo st ∧
      s.Leaves engine k s' := by
  cases fresh with
  | indexList rule =>
    obtain rfl := h.gives_none fun _ => nofun
    obtain ⟨l', counted, comes⟩ := h.count_indexList reach stateless
    exact ⟨l', s, counted, comes, .refl trusts⟩
  | array rule =>
    obtain rfl := h.gives_none fun _ => nofun
    obtain ⟨l', counted, comes⟩ := h.count_array reach stateless
    exact ⟨l', s, counted, comes, .refl trusts⟩
  | nodes rule limit =>
    obtain rfl := h.gives_none fun _ => nofun
    obtain ⟨l', counted, comes⟩ := h.count_nodes reach stateless limit
    exact ⟨l', s, counted, comes, .refl trusts⟩
  | custom rule limit => exact h.count_custom reach stateless trusts

end Kinds

/-! ## Elements -/

section Elements

variable {st : Standing ν} {bound : Nat} {item : ExpandItem} {x : Listing ν}

/-- **An element that comes to a standing**: it was counted, it shows the row of the failure if
there is one, and the session is as before but for scratch names and what its page shows. -/
structure ComesTo (engine : Engine σ ν) (bound : Nat) (s : Session σ ν) (x : Listing ν)
    (st : Standing ν) (k : Nat) (s' : Session σ ν) (x' : Listing ν) : Prop where
  counted : (engine.reach bound).count x s = .ok ((st.count, x'), s')
  answered : Listing.Answered s' bound x' st.count st.isSound
  row : ∀ row, st = .failed row →
    (engine.reach bound).rows x' 0 1 s' = .ok (([row], x'), s')
  alike : ∀ R : Region, (∀ id, x.Has (.page id) → ¬ R.pages s.listings.size id) →
    ({ s with scratchCount := s.scratchCount + k } : Session σ ν).Alike engine R s'

/-- An element that stands for itself. -/
theorem comesTo_of_simple {x' : Listing ν} (trusts : s.Trusts engine)
    (counted : (engine.reach (bound + 1)).count x s = .ok ((st.count, x'), s'))
    (simple : x'.Simple) (comes : x'.ComesTo st) (left : s.Leaves engine k s') :
    engine.ComesTo (bound + 1) s x st k s' x' where
  counted := counted
  answered := .simple simple comes.answer
  row row failed := Listing.Supplies.again (comes.row _ row failed) engine s'
  alike R _ := left.alike trusts R

variable (words : ∀ p, engine.options.get p < wordCount)

include words

/-- The page of a list that pages share. -/
theorem comesTo_page {id size : Nat} {l' : Listing ν} (sound : s.Sound) (trusts : s.Trusts engine)
    (inside : id < s.listings.size) (room : 0 < size) (fits : size + 1 < wordCount)
    (atMost : st.count ≤ 1)
    (counted : (engine.reach (bound + 1)).count ((s.kept id).raisedFor 0 size) s =
      .ok ((st.count, l'), s'))
    (comes : l'.ComesTo st) (left : s.Leaves engine k s') :
    ∃ s'', engine.ComesTo (bound + 2) s (.page id 0 size) st k s'' (.page id 0 size) := by
  have remaining : Listing.remaining (engine.reach (bound + 1)) id 0 size s =
      .ok (st.count, { s' with listings := s'.listings.setIfInBounds id l' }) := by
    rw [Listing.remaining_eq, if_pos (by omega)]
    refine bind_eq_ok_iff.mpr ⟨(st.count, _), bind_eq_ok_iff.mpr ⟨(s, s), rfl, ?_⟩, rfl⟩
    exact bind_eq_ok_iff.mpr ⟨_, counted, rfl⟩
  have put := Session.kept_put left.listings id l'
  have alike (R : Region) (apart : ¬ R.pages s.listings.size id) :
      ({ s with scratchCount := s.scratchCount + k } : Session σ ν).Alike engine R
        { s' with listings := s'.listings.setIfInBounds id l' } := by
    refine { left.alike trusts R with size := ?_, kept := fun other inR => ?_ }
    · exact (left.alike trusts R).size.trans (Array.size_setIfInBounds ..).symm
    · have other_ : other ≠ id := by
        rintro rfl
        exact apart inR
      rw [put, if_neg fun both => other_ both.1]
      rfl
  generalize { s' with listings := s'.listings.setIfInBounds id l' } = after at remaining put alike
  obtain ⟨-, -, -, covers, -⟩ := Listing.ensures_remaining_settled
    (engine.asks_reach words (bound + 1)) sound inside 0 size _ _ remaining
  have here : after.kept id = l' := (put id).trans (if_pos ⟨rfl, inside⟩)
  have known := here.symm ▸ comes.answer
  -- there is room on the page for one row, so it ends with the list
  have all : Listing.pageLength size st.count = st.count := if_neg (by omega)
  have answered : Listing.Answered after (bound + 2) (.page id 0 size) _ _ := .page known covers
  rw [Nat.sub_zero, all] at answered
  refine ⟨after, ?_, answered, fun row failed => ?_, fun R apart => ?_⟩
  · change Listing.countWith engine (engine.reach (bound + 1)) (.page id 0 size) s = _
    rw [Listing.countWith_page_eq, if_pos covers.fits]
    refine bind_eq_ok_iff.mpr ⟨_, remaining, ?_⟩
    rw [all]
    rfl
  · subst failed
    have there : (after.kept id).PageSupplies (bound - 1) id 0 size 0 1 (1 - 0) [row] := by
      have window : windowEnd 0 1 = 1 := windowEnd_zero (by decide)
      have full : Listing.pageLength size 1 = 1 := all
      have own : min 1 size = 1 := by omega
      have shown : (after.kept id).Supplies (bound - 1) 0 1 [row] :=
        here.symm ▸ comes.row _ row rfl
      unfold Listing.PageSupplies
      dsimp only
      rw [Nat.sub_zero, window, full, own, Nat.min_self, if_neg (by decide)]
      refine ⟨[row], ?_, (if_neg (by decide)).symm⟩
      rw [if_pos Nat.one_pos]
      exact shown
    exact bind_eq_ok_iff.mpr ⟨_, there.again known covers engine, rfl⟩
  · exact alike R (apart id (.page rfl))

omit words in
/-- It has no children of its own. -/
theorem Drops.counted_eq_zero (h : engine.Drops c s item st k) {n : Nat}
    (counted : st = .counted n) : n = 0 := by
  have refused (e : ExpandError) (here : Standing.ofResult item.guard (.error e) = .counted n) :
      n = 0 := ((Standing.counts_ofError (ν := ν) e rfl).counted n here).symm
  cases h with
  | hidden =>
    cases counted
    rfl
  | condition => exact refused _ counted
  | start => exact refused _ counted

omit words in
theorem Drops.count_le_one (h : engine.Drops c s item st k) : st.count ≤ 1 := by
  cases st with
  | counted n =>
    rw [h.counted_eq_zero rfl]
    exact Nat.zero_le 1
  | failed row => exact Nat.le_refl 1

/-- **An element that is hidden or fails comes to its standing.** -/
theorem Drops.comesTo (bound : Nat) (names : engine.inspector.NamesTypes)
    (stateless : engine.debugger.Stateless) (h : engine.Drops c s item st k)
    (new : NewElement c s item x) (sound : s.Sound)
    (trusts : s.Trusts engine) :
    ∃ s' x', engine.ComesTo (bound + 2) s x st k s' x' := by
  cases new with
  | item rule =>
    obtain rfl := h.gives_none fun _ => nofun
    obtain ⟨l', counted, comes⟩ := h.count_item (engine.reach (bound + 1)) stateless
    have simple : (Listing.item { context := c, rule := rule } : Listing ν).Simple :=
      fun _ h => nomatch h
    exact ⟨s, l', comesTo_of_simple trusts counted
      (simple.ensures_countWith engine _ s _ _ counted).1 comes (.refl trusts)⟩
  | synthetic rule =>
    obtain ⟨l', s', counted, comes, left⟩ :=
      h.count_synthetic (engine.reach (bound + 1)) stateless names trusts
    have simple : (Listing.synthetic { context := c, rule := rule } : Listing ν).Simple :=
      ⟨fun _ => rfl, fun _ h => nomatch h⟩
    exact ⟨s', l', comesTo_of_simple trusts counted
      (simple.ensures_countWith engine _ s _ _ counted).1 comes left⟩
  | inlined rule =>
    obtain ⟨inner, s', settled, left⟩ :=
      h.settle_inlined (engine.reach (bound + 1)) stateless trusts
    refine ⟨s', .inlined c rule (some st) inner, bind_eq_ok_iff.mpr ⟨_, settled, rfl⟩, .inlined,
      ?_, fun R _ => left.alike trusts R⟩
    rintro row rfl
    exact congrArg (fun rows => Except.ok ((rows, _), s')) (clip_one row)
  | page inside fresh room fits =>
    obtain ⟨l', s', counted, comes, left⟩ :=
      h.count_fresh (engine.reach bound) stateless (fresh.raisedFor 0 _) trusts
    obtain ⟨s'', comesTo⟩ :=
      comesTo_page words sound trusts inside room fits h.count_le_one counted comes left
    exact ⟨s'', _, comesTo⟩

end Elements

end Engine

end WatchView
