import WatchView.Proofs.Display.OwnRow
import WatchView.Proofs.Evaluation.Snapshots
/-!
# Variables that no longer change

A detached copy stays as it is, whatever becomes of the debugger: what is told of it is the
same in all states, and so is what the templates of its rule ask in its context, if it has a
rule (`Engine.Still`). Then a row that shows it has one text. It is the same in all sessions
with the same rules, however they came about (`Engine.Still.hasOneText`).
-/

namespace WatchView

variable {σ ν α : Type}

open Watch

/-! ## Work that does the same in all states of a kind -/

/-- Two states of one kind. Work follows itself between them if it does the same in both. -/
def Watch.between {S : Type} (kind : S → Prop) : Watch S S Empty where
  same p s := kind p ∧ kind s
  notes _ := []
  fits _ := True
  fits_nil := trivial
  fits_append _ _ := trivial

theorem Watch.follows_between {S : Type} {kind : S → Prop} {act : StateM S α}
    (same : ∀ p s, kind p → kind s → (act p).1 = (act s).1) (stays : ∀ s, kind s → kind (act s).2) :
    (between kind).Follows act act :=
  fun p s ⟨hp, hs⟩ => ⟨[], trivial, same p s hp hs, ⟨stays p hp, stays s hs⟩, rfl⟩

theorem Watch.Follows.same {S : Type} {kind : S → Prop} {act : StateM S α}
    (h : (between kind).Follows act act) {p s : S} (hp : kind p) (hs : kind s) :
    (act p).1 = (act s).1 := by
  obtain ⟨_, -, same, -, -⟩ := h p s ⟨hp, hs⟩
  exact same

/-- The expressions that are evaluated for a guarded text: its condition and those in the
text. -/
def GuardedText.expressions (template : GuardedText) : List String :=
  (template.guard.condition.map Text.trimmed).toList ++ Template.expressions template.value

namespace Engine

open Bounded

/-! ## Still variables -/

/-- Variables that no longer change. -/
structure Still (engine : Engine σ ν) (catalogue : Catalogue) (still : ν → Prop) : Prop where
  /-- What is told of them does not depend on the state of the debugger. -/
  facts : ∀ handle, still handle → ∀ s t,
    engine.debugger.facts s handle = engine.debugger.facts t handle
  text : ∀ handle, still handle → ∀ s t kind,
    engine.debugger.text s kind handle = engine.debugger.text t kind handle
  children : ∀ handle, still handle → ∀ s t,
    engine.debugger.children s handle = engine.debugger.children t handle
  child : ∀ handle, still handle → ∀ s, ∀ child ∈ engine.debugger.children s handle, still child
  /-- Nor does what the templates of their rule ask, -/
  evaluate : ∀ handle, still handle → ∀ u m kind,
    catalogue.lookup engine.options (engine.debugger.facts u handle).subject = some m →
      ∀ template ∈ templates m.visualizer kind, ∀ expression ∈ template.expressions, ∀ s t,
        (engine.evaluator.evaluate expression (.debugger handle) (scopeOf m) none s).1 =
          (engine.evaluator.evaluate expression (.debugger handle) (scopeOf m) none t).1
  /-- and the values do not change either. -/
  value : ∀ handle, still handle → ∀ u m kind,
    catalogue.lookup engine.options (engine.debugger.facts u handle).subject = some m →
      ∀ template ∈ templates m.visualizer kind, ∀ expression ∈ template.expressions,
        ∀ s answer t,
          engine.evaluator.evaluate expression (.debugger handle) (scopeOf m) none s =
            (.ok answer, t) → still answer.handle
  /-- No type is named like a tag, and one name has one hierarchy. -/
  apart : ∀ handle, still handle → ∀ s (tag : Tag),
    (engine.debugger.facts s handle).typeName ≠ tag.typeName
  alike : ∀ handle handle', still handle → still handle' → ∀ s s',
    (engine.debugger.facts s handle).typeName = (engine.debugger.facts s' handle').typeName →
      (engine.debugger.facts s handle).hierarchy = (engine.debugger.facts s' handle').hierarchy

/-- What rules are looked up for. -/
def subjects (engine : Engine σ ν) (still : ν → Prop) (subject : Subject) : Prop :=
  ∃ handle s, still handle ∧ subject = (engine.debugger.facts s handle).subject

/-- A session with these rules, whose kept answers are right. -/
structure Consults (engine : Engine σ ν) (catalogue : Catalogue) (still : ν → Prop)
    (s : Session σ ν) : Prop where
  loaded : s.book.catalogue = catalogue
  faithful : s.book.Faithful engine.options (engine.subjects still)

variable {engine : Engine σ ν} {catalogue : Catalogue} {still : ν → Prop} {kind : TextKind}

/-- Work of the debugger leaves the rules alone. -/
theorem follows_lift {act : StateM σ α} (same : ∀ s t, (act s).1 = (act t).1) :
    (between (engine.Consults catalogue still)).Follows (liftM act : Run σ ν α)
      (liftM act : Run σ ν α) :=
  follows_between (fun p s _ _ => same p.target s.target)
    fun _ consults => ⟨consults.loaded, consults.faithful⟩

namespace Still

variable (steady : engine.Still catalogue still) {handle : ν} (mem : still handle)

include steady mem

/-! ## The rule of a still variable -/

/-- The rule is the one the catalogue has. -/
theorem findRule_eq {s : Session σ ν} (consults : engine.Consults catalogue still s) :
    ∃ s', engine.findRule (.debugger handle) s =
        (catalogue.lookup engine.options (engine.debugger.facts s.target handle).subject, s') ∧
      engine.Consults catalogue still s' := by
  have apart (subject : Subject) (tag : Tag) :
      engine.subjects still subject → subject.typeName ≠ tag.typeName := by
    rintro ⟨handle, s, mem, rfl⟩
    exact steady.apart handle mem s tag
  have alike (subject subject' : Subject) : engine.subjects still subject →
      engine.subjects still subject' → subject.typeName = subject'.typeName →
        subject.hierarchy = subject'.hierarchy := by
    rintro ⟨handle, s, mem, rfl⟩ ⟨handle', s', mem', rfl⟩
    exact steady.alike handle handle' mem mem' s s'
  obtain ⟨answers, found, faithful⟩ := RuleBook.find_eq consults.faithful apart alike
    ⟨handle, s.target, mem, rfl⟩
  rw [consults.loaded] at found faithful
  refine ⟨{ s with book := { catalogue, answers } }, ?_, rfl, faithful⟩
  calc engine.findRule (.debugger handle) s
    _ = ((s.book.find engine.options (engine.debugger.facts s.target handle).subject).1,
          { s with book :=
            (s.book.find engine.options (engine.debugger.facts s.target handle).subject).2 }) := rfl
    _ = _ := by rw [found]

/-- So its templates are none, or those of this rule. -/
theorem templatesFor_eq (kind : TextKind) {s : Session σ ν}
    (consults : engine.Consults catalogue still s) :
    ∃ s', engine.templatesFor kind (.debugger handle) s =
        (if Specifier.isRaw (engine.debugger.facts s.target handle).spec then ([], default)
          else
            match catalogue.lookup engine.options
              (engine.debugger.facts s.target handle).subject with
            | none => ([], default)
            | some m => (templates m.visualizer kind, scopeOf m), s') ∧
      engine.Consults catalogue still s' := by
  obtain ⟨s', found, consults'⟩ := steady.findRule_eq mem consults
  cases raw : Specifier.isRaw (engine.debugger.facts s.target handle).spec with
  | true =>
    have raw : Specifier.isRaw (engine.facts (.debugger handle) s).1.spec = true := raw
    refine ⟨s, ?_, consults⟩
    rw [templatesFor, bind_apply, raw]
    rfl
  | false =>
    have raw : Specifier.isRaw ((Variable.debugger handle).facts engine.inspector s.target).spec =
      false := raw
    refine ⟨s', ?_, consults'⟩
    rw [engine.templatesFor_apply kind raw, found]
    rfl

theorem follows_templatesFor :
    (between (engine.Consults catalogue still)).Follows
      (engine.templatesFor kind (.debugger handle)) (engine.templatesFor kind (.debugger handle)) := by
  refine follows_between (fun p s hp hs => ?_) fun s hs => ?_
  · obtain ⟨p', first, -⟩ := steady.templatesFor_eq mem kind hp
    obtain ⟨s', second, -⟩ := steady.templatesFor_eq mem kind hs
    rw [first, second, steady.facts handle mem p.target s.target]
  · obtain ⟨s', found, consults⟩ := steady.templatesFor_eq mem kind hs
    rw [found]
    exact consults

theorem eq_nil_or_of_templatesFor {s : Session σ ν}
    (consults : engine.Consults catalogue still s) :
    (engine.templatesFor kind (.debugger handle) s).1.1 = [] ∨ ∃ m,
      catalogue.lookup engine.options (engine.debugger.facts s.target handle).subject = some m ∧
        (engine.templatesFor kind (.debugger handle) s).1 =
          (templates m.visualizer kind, scopeOf m) := by
  obtain ⟨s', found, -⟩ := steady.templatesFor_eq mem kind consults
  rw [found]
  dsimp only
  split
  · exact .inl rfl
  · split
    · exact .inl rfl
    · exact .inr ⟨_, ‹_›, rfl⟩

/-! ## The texts of its templates -/

section

variable {u : σ} {m : RuleMatch}
  (found : catalogue.lookup engine.options (engine.debugger.facts u handle).subject = some m)
  {template : GuardedText} (member : template ∈ templates m.visualizer kind)

include found member

theorem holds_same (s t : σ) :
    (engine.evaluator.holds template.guard.condition (.debugger handle) (scopeOf m) s).1 =
      (engine.evaluator.holds template.guard.condition (.debugger handle) (scopeOf m) t).1 := by
  have evaluate := steady.evaluate handle mem u m kind found template member
  have value := steady.value handle mem u m kind found template member
  unfold GuardedText.expressions at evaluate value
  unfold Evaluator.holds
  cases given : template.guard.condition.map Text.trimmed with
  | none => rfl
  | some condition =>
    rw [given] at evaluate value
    have asked : condition ∈ (some condition).toList ++ Template.expressions template.value :=
      List.mem_append_left _ (Option.mem_toList.mpr rfl)
    have same := evaluate condition asked s t
    dsimp only
    split
    · rfl
    · rw [bind_apply, bind_apply, ← same]
      rcases first : engine.evaluator.evaluate condition (.debugger handle) (scopeOf m) none s with
        ⟨e | answer, s'⟩
      · rfl
      · have facts := steady.facts answer.handle (value condition asked s answer s' first) s'
          (engine.evaluator.evaluate condition (.debugger handle) (scopeOf m) none t).2
        exact congrArg (fun f : Facts => Except.ok f.isTruthy) facts

theorem applies_same (s t : σ) :
    (engine.evaluator.applies template.guard (.debugger handle) (scopeOf m) s).1 =
      (engine.evaluator.applies template.guard (.debugger handle) (scopeOf m) t).1 := by
  have facts : (Variable.debugger handle).facts engine.evaluator.debugger.toInspector s =
      (Variable.debugger handle).facts engine.evaluator.debugger.toInspector t :=
    steady.facts handle mem s t
  unfold Evaluator.applies
  rw [bind_apply, bind_apply, get_apply, get_apply]
  dsimp only
  rw [facts]
  split
  · exact steady.holds_same mem found member s t
  · rfl

/-- The text of an expression of a template. -/
theorem follows_holeText {hole : Answer ν → Run σ ν String}
    (nested : ∀ answer : Answer ν, still answer.handle → answer.shownAs = none →
      (between (engine.Consults catalogue still)).Follows (hole answer) (hole answer))
    {expression : String} (asked : expression ∈ Template.expressions template.value) :
    (between (engine.Consults catalogue still)).Follows
      (engine.holeText hole (.debugger handle) (scopeOf m) expression)
      (engine.holeText hole (.debugger handle) (scopeOf m) expression) := by
  have asked : expression ∈ template.expressions := List.mem_append_right _ asked
  refine (follows_lift (steady.evaluate handle mem u m kind found template member
    expression asked)).bind_of (P := fun r => ∀ answer, r = .ok answer →
      still answer.handle ∧ answer.shownAs = none) (fun _ s _ answer ok => ?_) fun r given => ?_
  · have evaluated : engine.evaluator.evaluate expression (.debugger handle) (scopeOf m) none
        s.target = (.ok answer, _) := Prod.ext ok rfl
    exact ⟨steady.value handle mem u m kind found template member expression asked _ _ _ evaluated,
      engine.evaluator.shownAs_of_evaluate _ _ evaluated⟩
  · cases r with
    | error e => exact follows_pure _
    | ok answer =>
      obtain ⟨mem', unnamed⟩ := given answer rfl
      exact (nested answer mem' unnamed).bind fun text => follows_pure _

end

end Still

namespace Still

variable (steady : engine.Still catalogue still)

include steady

/-- The plain text of a still variable. -/
theorem follows_plainText {answer : Answer ν} (mem : still answer.handle) :
    (between (engine.Consults catalogue still)).Follows (engine.plainText kind answer)
      (engine.plainText kind answer) :=
  follows_between (fun p s _ _ => steady.text answer.handle mem p.target s.target kind)
    fun _ consults => consults

/-- **A still value has one text**, with any number of levels left. -/
theorem follows_valueText (levels : Nat) {answer : Answer ν} (mem : still answer.handle)
    (unnamed : answer.shownAs = none) :
    (between (engine.Consults catalogue still)).Follows (engine.valueText kind levels answer)
      (engine.valueText kind levels answer) := by
  -- on the levels: the values in its templates are still, and are shown one level deeper
  induction levels generalizing answer with
  | zero =>
    obtain ⟨handle, _⟩ := answer
    obtain rfl : _ = none := unnamed
    exact (steady.follows_templatesFor mem).bind fun _ => follows_pure _
  | succ levels ih =>
    obtain ⟨handle, _⟩ := answer
    obtain rfl : _ = none := unnamed
    refine (steady.follows_templatesFor mem).bind_of (P := fun found => found.1 = [] ∨ ∃ u m,
      catalogue.lookup engine.options (engine.debugger.facts u handle).subject = some m ∧
        found = (templates m.visualizer kind, scopeOf m)) (fun _ s consults => ?_) ?_
    · exact (steady.eq_nil_or_of_templatesFor mem consults.2).imp_right fun h => ⟨s.target, h⟩
    · rintro ⟨found, scope⟩ own
      refine Follows.bind ?_ fun text => ?_
      · rcases own with none | ⟨u, m, found, own⟩
        · obtain rfl : _ = [] := none
          exact follows_pure _
        · cases own
          exact follows_firstText_of
            (fun template member => follows_lift (steady.applies_same mem found member))
            fun template member expression asked =>
              steady.follows_holeText mem found member (fun answer => ih) asked
      · rcases text with e | _ | text
        · exact steady.follows_plainText mem
        · exact steady.follows_plainText mem
        · exact follows_pure _

section

variable {handle : ν} (mem : still handle)

include mem

theorem follows_isRuled :
    (between (engine.Consults catalogue still)).Follows (engine.isRuled (.debugger handle))
      (engine.isRuled (.debugger handle)) := by
  refine follows_between (fun p s hp hs => ?_) fun s hs => ?_
  · obtain ⟨p', first, -⟩ := steady.findRule_eq mem hp
    obtain ⟨s', second, -⟩ := steady.findRule_eq mem hs
    have facts : (Variable.debugger handle).facts engine.inspector p.target =
        (Variable.debugger handle).facts engine.inspector s.target :=
      steady.facts handle mem p.target s.target
    rw [isRuled_apply, isRuled_apply, first, second, facts,
      steady.facts handle mem p.target s.target]
  · obtain ⟨s', found, consults⟩ := steady.findRule_eq mem hs
    rw [isRuled_apply, found]
    exact consults

/-! ## Its rows -/

/-- Shown by its rule, a still variable has the text of the rule or the debugger's. -/
theorem text_ruled_same (kind : TextKind)
    (ruled : ∀ s, Specifier.isRaw (engine.debugger.facts s handle).spec = false)
    {s₁ s₂ : Session σ ν} (consults₁ : engine.Consults catalogue still s₁)
    (consults₂ : engine.Consults catalogue still s₂) (level : s₁.depth = s₂.depth) (bound : Nat) :
    ∃ shown t₁ t₂,
      engine.text (bound + 1) kind (.ruled (.debugger handle)) s₁ = .ok (shown, t₁) ∧
      engine.text (bound + 1) kind (.ruled (.debugger handle)) s₂ = .ok (shown, t₂) := by
  have applies := (steady.follows_isRuled mem).same consults₁ consults₂
  rw [engine.text_ruled kind handle bound (ruled s₁.target),
    engine.text_ruled kind handle bound (ruled s₂.target), applies]
  split
  · have answered : still (Answer.handle ⟨handle, none⟩) := mem
    rw [engine.display_debugger, engine.display_debugger, level,
      (steady.follows_valueText _ answered rfl).same consults₁ consults₂]
    exact ⟨_, _, _, rfl, rfl⟩
  · rw [steady.text handle mem s₁.target s₂.target]
    exact ⟨_, _, _, rfl, rfl⟩

/-- Where its rule lists no children, a still variable has those the debugger knows. -/
theorem childListing_ruled
    (plain : ∀ u m, catalogue.lookup engine.options (engine.debugger.facts u handle).subject =
      some m → m.visualizer.expand = none ∧ m.visualizer.smartPointer = none) (u : σ)
    {s : Session σ ν} (consults : engine.Consults catalogue still s) :
    ∃ s', engine.childListing (.ruled (.debugger handle)) s =
      (.fixed ((engine.debugger.children u handle).map .debugger), s') := by
  have known (s : Session σ ν) : engine.childListing (.debugger handle) s =
      (.fixed ((engine.debugger.children u handle).map .debugger), s) := by
    rw [steady.children handle mem u s.target]
    rfl
  -- a rule that is found lists no children of its own
  have unlisted (s : Session σ ν) (consults : engine.Consults catalogue still s) :
      ∃ s', engine.ruleListing (engine.childListing (.debugger handle)) (.debugger handle) s =
        (.fixed ((engine.debugger.children u handle).map .debugger), s') := by
    obtain ⟨s', found, -⟩ := steady.findRule_eq mem consults
    unfold ruleListing
    rw [bind_apply, found]
    cases looked : catalogue.lookup engine.options
        (engine.debugger.facts s.target handle).subject with
    | none => exact ⟨s', known s'⟩
    | some m =>
      obtain ⟨unexpanded, unpointed⟩ := plain _ _ looked
      dsimp only
      rw [bind_apply, unexpanded, unpointed]
      exact ⟨_, known _⟩
  obtain ⟨s', found, consults'⟩ := steady.findRule_eq mem consults
  unfold childListing
  rw [bind_apply, isRuled_apply, found]
  dsimp only
  split
  · exact unlisted s' consults'
  · exact ⟨s', known s'⟩

/-- Shown as one of its children, a still variable has the text of the child. -/
theorem text_asChild_same (kind : TextKind)
    (plain : ∀ u m, catalogue.lookup engine.options (engine.debugger.facts u handle).subject =
      some m → m.visualizer.expand = none ∧ m.visualizer.smartPointer = none) (index : Nat)
    {s₁ s₂ : Session σ ν} (consults₁ : engine.Consults catalogue still s₁)
    (consults₂ : engine.Consults catalogue still s₂) (bound : Nat) :
    ∃ shown t₁ t₂,
      engine.text (bound + 2) kind (.asChild (.ruled (.debugger handle)) index) s₁ =
        .ok (shown, t₁) ∧
      engine.text (bound + 2) kind (.asChild (.ruled (.debugger handle)) index) s₂ =
        .ok (shown, t₂) := by
  let rows := clip index 1 ((engine.debugger.children s₁.target handle).map Variable.debugger)
  -- the child is one of the debugger, and the same in both sessions, because the children stand
  -- still
  have picked {s : Session σ ν} (consults : engine.Consults catalogue still s) :
      ∃ t, engine.child? (engine.reach (bound + 1)) (.ruled (.debugger handle)) index s =
        .ok (rows.head?, t) := by
    obtain ⟨t, listed⟩ := steady.childListing_ruled mem plain s₁.target consults
    exact ⟨t, bind_eq_ok_iff.mpr ⟨_, congrArg Except.ok listed, rfl⟩⟩
  obtain ⟨t₁, first⟩ := picked consults₁
  obtain ⟨t₂, second⟩ := picked consults₂
  cases row : rows.head? with
  | none =>
    rw [row] at first second
    exact ⟨_, t₁, t₂, bind_eq_ok_iff.mpr ⟨_, first, rfl⟩, bind_eq_ok_iff.mpr ⟨_, second, rfl⟩⟩
  | some child =>
    rw [row] at first second
    have listed : child ∈ (engine.debugger.children s₁.target handle).map Variable.debugger :=
      List.mem_of_mem_take (List.mem_of_mem_drop (List.mem_of_mem_head? row))
    obtain ⟨own, member, rfl⟩ := List.mem_map.mp listed
    have text := steady.text own (steady.child handle mem _ own member) t₁.target t₂.target kind
    refine ⟨engine.debugger.text t₁.target kind own, t₁, t₂, bind_eq_ok_iff.mpr ⟨_, first, rfl⟩,
      bind_eq_ok_iff.mpr ⟨_, second, ?_⟩⟩
    rw [text]
    rfl

end

end Still

/-! ## One text -/

/-- The row has one text in all sessions with these rules, as long as they are formatting
equally many display strings. -/
def HasOneText (engine : Engine σ ν) (catalogue : Catalogue) (still : ν → Prop)
    (row : Variable ν) : Prop :=
  ∀ s₁ s₂, engine.Consults catalogue still s₁ → engine.Consults catalogue still s₂ →
    s₁.depth = s₂.depth → ∀ kind bound, ∃ shown t₁ t₂,
      engine.text (bound + 2) kind row s₁ = .ok (shown, t₁) ∧
      engine.text (bound + 2) kind row s₂ = .ok (shown, t₂)

/-- If the variable is to be shown as one of its children, they are those the debugger
knows. -/
def ListsPlainly (engine : Engine σ ν) (catalogue : Catalogue) (handle : ν) : Prop :=
  ∀ u index m, Specifier.expandIndex? (engine.debugger.facts u handle).spec = some index →
    catalogue.lookup engine.options (engine.debugger.facts u handle).subject = some m →
      m.visualizer.expand = none ∧ m.visualizer.smartPointer = none

/-- **The row of a still variable has one text**, be it shown by its rule, raw, or as one of
its children, if its rule lists none. -/
theorem Still.hasOneText (steady : engine.Still catalogue still) {handle : ν}
    (mem : still handle) (t : σ) (plain : engine.ListsPlainly catalogue handle) :
    engine.HasOneText catalogue still
      ((Variable.debugger handle).decorated engine.inspector t) := by
  intro s₁ s₂ consults₁ consults₂ level kind bound
  have facts (s : σ) := steady.facts handle mem s t
  unfold Variable.decorated
  rw [show (Variable.debugger handle).facts engine.inspector t = engine.debugger.facts t handle
    from rfl]
  dsimp only
  split
  · rw [text_debugger, text_debugger, steady.text handle mem s₁.target s₂.target]
    exact ⟨_, _, _, rfl, rfl⟩
  · rename_i shown
    rw [Bool.or_eq_true, not_or, Bool.not_eq_true] at shown
    split
    · rename_i index own
      refine steady.text_asChild_same mem kind (fun u m found => ?_) index consults₁ consults₂ bound
      exact plain u index m (facts u ▸ own) found
    · refine steady.text_ruled_same mem kind (fun s => ?_) consults₁ consults₂ level (bound + 1)
      rw [facts s]
      exact shown.1

end Engine

end WatchView
