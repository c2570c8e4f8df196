import WatchView.Proofs.Display.Still
import WatchView.Proofs.Listing.CustomDeeds
/-!
# Scratch variables that custom lists show

A program counts in scratch variables, and shows them. The rows have to stay as they were when
they were shown, although the program goes on and the variables change. So the row of an item
that is nothing but a scratch variable is a snapshot of it. It has one text in all sessions that
come after, if what the debugger makes is a copy that no longer changes
(`CustomListing.shown_scratch_variables`).

There is one way around: under the strategy that follows member paths, a member of the owner
that bears the name of the scratch variable is shown in its place, and the row changes with it
(`Ticking.member_in_place`).
-/

namespace WatchView

variable {σ ν : Type}

namespace CustomListing

open Bounded

variable {ev : Evaluator σ ν} {c c' : CustomListing ν × Session σ ν} {deeds : List (Deed ν)}

/-! ## The items of the rows -/

/-- The program of a list has its items from the body of the rule. -/
def Inside (l : CustomListing ν) : Prop :=
  ∀ run, l.run = some run → ∀ item ∈ run.program.items, item ∈ Instruction.itemsAll l.rule.body

theorem inside_of_run {l : CustomListing ν} (run : ProgramRun ν) (here : l.run = some run)
    (inside : ∀ item ∈ run.program.items, item ∈ Instruction.itemsAll l.rule.body) : l.Inside := by
  intro run' here'
  obtain rfl := Option.some.inj (here.symm.trans here')
  exact inside

/-- A row that shows an item of the body, in the scope of the program. -/
def ShowsItem (ev : Evaluator σ ν) (l : CustomListing ν) (row : Variable ν) : Prop :=
  ∃ run, l.run = some run ∧ ∃ item ∈ Instruction.itemsAll l.rule.body, ∃ shown s t,
    shownItem ev { l.context with scope := run.scope } item.2 shown s = (.ok row, t)

/-- The scope of a program stays. -/
theorem Works.scope (h : Works ev c deeds c') {run : ProgramRun ν} (here : c.1.run = some run) :
    ∃ run', c'.1.run = some run' ∧ run'.scope = run.scope := by
  induction h generalizing run with
  | rests => exact ⟨run, here, rfl⟩
  | noted _ ih => exact ih here
  | padded _ ih => exact ih ((run_padded _ _).trans here)
  | guard _ _ ih => exact ih here
  | fails fresh | begins fresh => cases fresh.symm.trans here
  | step begun _ _ _ _ ih =>
    obtain rfl := Option.some.inj (begun.symm.trans here)
    obtain ⟨run', ended, scope⟩ := ih (run_afterStep _ _ _)
    exact ⟨run', ended, scope⟩

/-- The row of a step shows an item. -/
theorem showsItem_of_step {l : CustomListing ν} {run : ProgramRun ν} {program : Sequence}
    {row : Variable ν} {items : Nat} {s t : σ} (here : l.run = some run) (inside : l.Inside)
    (stepped : outcome (run.program.step (host ev { l.context with scope := run.scope }))
      (run.items, s) = ((.ok (.item row), program), items, t)) : ShowsItem ev l row := by
  have shows : (outcome (run.program.step (host ev { l.context with scope := run.scope }))
      (run.items, s)).1.1 = .ok (.item row) := congrArg (fun r => r.1.1) stepped
  obtain ⟨item, mem, p, made⟩ := run.program.exists_item_of_step _ row shows
  rw [outcome_host_item] at made
  rcases named : itemName ev { l.context with scope := run.scope } item.1 p.1 p.2 with ⟨e | name, s'⟩
  · rw [named] at made
    cases made
  · rw [named] at made
    obtain ⟨made, -⟩ := Prod.mk.inj made
    exact ⟨run, here, item, inside run here item mem, name, s', _, Prod.ext made rfl⟩

/-- **Each item that was shown is one of the body**, seen in the scope of the program. -/
theorem Works.showsItem (h : Works ev c deeds c') (inside : c.1.Inside) :
    ∀ row ∈ deeds.filterMap Deed.item?, ShowsItem ev c'.1 row := by
  have unshown {first deeds : List (Deed ν)} {row : Variable ν}
      (none : first.filterMap Deed.item? = []) (mem : row ∈ (first ++ deeds).filterMap Deed.item?) :
      row ∈ deeds.filterMap Deed.item? := by
    rw [List.filterMap_append, none] at mem
    exact mem
  -- an item of a step is still one of the body at the end, seen in the same scope, because the
  -- rule, the context and the scope of the program stay what they are
  induction h with
  | rests => exact List.forall_mem_nil _
  | noted _ ih => exact ih inside
  | padded _ ih =>
    refine ih fun run here => ?_
    rw [rule_padded]
    exact inside run ((run_padded _ _).symm.trans here)
  | guard _ _ ih => exact ih inside
  | @fails l _ _ program _ _ _ _ _ compiled declares _ ih =>
    intro row mem
    refine ih (inside_of_run ⟨program, l.context.scope, 0⟩ rfl fun item => ?_) row
      (unshown declares.declared.2.2.1 mem)
    exact mem_items_of_compile compiled
  | @begins _ _ _ _ _ _ _ deeds passed size _ _ compiled declares _ _ ih =>
    intro row mem
    have mem : row ∈ (Deed.size passed size :: deeds).filterMap Deed.item? :=
      unshown declares.declared.2.2.1 mem
    refine ih (inside_of_run _ (run_withSize _ _) fun item => ?_) row mem
    rw [rule_withSize]
    exact mem_items_of_compile compiled
  | @step l s run program items t _ result deeds c here _ _ stepped others ih =>
    obtain ⟨stepped, -⟩ := (Sequence.outcome_noting_step (p := (run.items, s.target))
      (q := (items, t)) _).mp stepped
    have later : ∀ row ∈ deeds.filterMap Deed.item?, ShowsItem ev c.1 row := by
      refine ih (inside_of_run _ (run_afterStep _ _ _) fun item mem => ?_)
      rw [rule_afterStep]
      refine inside run here item ?_
      have same : item ∈ (outcome (run.program.step (host ev { l.context with scope := run.scope }))
          (run.items, s.target)).1.2.items ↔ item ∈ run.program.items :=
        run.program.mem_items_step _
      rw [stepped] at same
      exact same.mp mem
    intro row mem
    rcases result with e | _ | shown | _
    · exact later row mem
    · exact later row mem
    · rcases List.mem_cons.mp mem with rfl | mem
      · obtain ⟨run', here', item, member, name, s', t', made⟩ :=
          showsItem_of_step here inside stepped
        obtain rfl := Option.some.inj (here.symm.trans here')
        obtain ⟨last, ended, scope⟩ := others.scope (run_afterStep _ _ _)
        obtain ⟨rule, context⟩ := others.same
        refine ⟨last, ended, item, ?_, name, s', t', ?_⟩
        · rw [rule, rule_afterStep]
          exact member
        · rw [context, context_afterStep, scope]
          exact made
      · exact later row mem
    · exact later row mem

/-! ## The rows stay -/

/-- **The items stay in front**, whatever the list does. -/
theorem Works.items_prefix (h : Works ev c deeds c') {items : List (Variable ν)}
    {failures : List EvalError} (progress : c.1.Progress items failures)
    (front : items <+: c.1.shown.toList) :
    items ++ deeds.filterMap Deed.item? <+: c'.1.shown.toList := by
  -- a step shows one more row exactly if it is an item; the other deeds keep or lengthen the rows
  induction h generalizing items failures with
  | rests =>
    rw [List.filterMap_nil, List.append_nil]
    exact front
  | noted _ ih => exact ih ⟨progress.begun, progress.whole, progress.broken⟩ front
  | @padded l s target _ _ _ ih =>
    have here : Works ev (l, s) [] (l.padded target, s) := .padded .rests
    have progress := here.progress progress
    rw [List.filterMap_nil, List.append_nil] at progress
    exact ih progress (front.trans (extends_padded l target).shown)
  | guard _ _ ih => exact ih progress front
  | @fails l s s' program e first deeds c fresh compiled declares _ ih =>
    have here : Works ev (l, s) (first ++ [])
      (fail { l with run := some { program, scope := l.context.scope } } e, s') :=
        .fails fresh compiled declares .rests
    have progress := here.progress progress
    rw [List.append_nil, declares.declared.2.2.1, List.append_nil] at progress
    rw [List.filterMap_append, declares.declared.2.2.1, List.nil_append]
    exact ih progress (front.trans (extends_fail _ e).shown)
  | @begins l s s' t program scope first deeds passed size c fresh compiled declares sized _ ih =>
    have here : Works ev (l, s) (first ++ [.size passed size])
      (withSize { l with run := some { program, scope } } size, { s' with target := t }) :=
        .begins fresh compiled declares sized .rests
    have progress := here.progress progress
    have none : (first ++ [Deed.size passed size]).filterMap Deed.item? = [] := by
      rw [List.filterMap_append, declares.declared.2.2.1]
      rfl
    rw [none, List.append_nil] at progress
    rw [List.filterMap_append, declares.declared.2.2.1, List.nil_append,
      List.filterMap_cons_none rfl]
    refine ih progress (front.trans ?_)
    unfold withSize
    split
    · exact List.prefix_refl _
    · exact (extends_fail _ _).shown
    · exact List.prefix_refl _
  | @step l s run program n t failures' result deeds c begun sane going stepped _ ih =>
    have here : Works ev (l, s) [.step run.program failures' result program]
      (l.afterStep { run with program, items := n } result, { s with target := t }) :=
        .step begun sane going stepped .rests
    have progress' := here.progress progress
    have shown := (progress.whole sane).2 (by simp [hasEnded, begun, going])
    rw [← List.singleton_append, List.filterMap_append, ← List.append_assoc]
    refine ih progress' ?_
    rcases result with e | _ | row | _
    · rw [List.filterMap_cons_none rfl, List.filterMap_nil, List.append_nil]
      exact front.trans (extends_afterStep l _ _).shown
    · rw [List.filterMap_cons_none rfl, List.filterMap_nil, List.append_nil]
      exact front
    · rw [← shown]
      exact ⟨[], (List.append_nil _).trans Array.toList_push.symm⟩
    · rw [List.filterMap_cons_none rfl, List.filterMap_nil, List.append_nil]
      exact front

/-! ## Items that are scratch variables -/

/-- The row of an item that is a scratch variable shows the member that is taken for it, or
else a snapshot. -/
theorem shownItem_scratch {c : Context ν} {value shown : String} {s t : σ} {row : Variable ν}
    (whole : c.scope.isScratchName (ev.prepared c.owner c.scope value s).1.value = true)
    (made : shownItem ev c value shown s = (.ok row, t)) :
    let d := ev.debugger.toInspector
    let e := ev.prepared c.owner c.scope value s
    match ev.member? e.1 c.owner e.2 with
    | some member =>
      row = ((Variable.debugger member).renamed shown (some e.1.spec.text)).decorated d t
    | none => ∃ live, ev.HandedOut e.1 c.owner c.scope (some shown) live t ∧
        row = (Variable.debugger (d.snapshot t live e.1.spec.text)).decorated d t := by
  rcases evaluated : ev.evaluate value c.owner c.scope (some shown) s with ⟨error | answer, t'⟩
  · rw [shownItem, bind_apply, evaluated] at made
    cases made
  · rw [shownItem, bind_apply, evaluated] at made
    obtain ⟨row_eq, rfl⟩ : _ ∧ t' = t := Prod.mk.inj made
    obtain rfl := Except.ok.inj row_eq
    have taken := ev.evaluate_scratchName c.owner c.scope whole evaluated
    dsimp only at taken ⊢
    split
    · rename_i member found
      rw [found] at taken
      obtain rfl := taken
      rfl
    · rename_i found
      rw [found] at taken
      obtain ⟨live, handed, rfl⟩ := taken
      exact ⟨live, handed, rfl⟩

/-- **What custom lists show of scratch variables.** A new list is asked for anything. Each
item that is shown meanwhile has its row at its place, and keeps it whatever is asked later,
in any session. It was made by an item of the body in the scope of the program.

If that item is nothing but a scratch variable, the row shows the snapshot that was taken of
what an evaluator handed out, at that moment and with the specifier of the item. A copy that no
longer changes then has one text, whatever the program or anyone else does to the scratch
variable. Only a member that is taken for the scratch variable is shown as it is. -/
theorem shown_scratch_variables (engine : Engine σ ν) (reach : Reach σ ν) (c : Context ν)
    (rule : CustomListRule) (qs : List Query) (s : Session σ ν) :
    Ensures (Query.askAll engine reach qs (.custom { context := c, rule })) s fun r s' =>
      ∃ deeds l, r.2 = .custom l ∧
        Works engine.evaluator ({ context := c, rule }, s) deeds (l, s') ∧
        ∀ (i : Nat) row, (deeds.filterMap Deed.item?)[i]? = some row →
          l.shown[i]? = some row ∧
          (∀ reach' qs' s₁, Ensures (Query.askAll engine reach' qs' (.custom l)) s₁ fun r' _ =>
            ∃ l', r'.2 = .custom l' ∧ l'.shown[i]? = some row) ∧
          ∃ run item shown t₀ t, l.run = some run ∧ item ∈ Instruction.itemsAll rule.body ∧
            let own : Context ν := { c with scope := run.scope }
            let e := engine.evaluator.prepared c.owner run.scope item.2 t₀
            shownItem engine.evaluator own item.2 shown t₀ = (.ok row, t) ∧
            (run.scope.isScratchName e.1.value = true →
              match engine.evaluator.member? e.1 c.owner e.2 with
              | some member => row = ((Variable.debugger member).renamed shown
                  (some e.1.spec.text)).decorated engine.inspector t
              | none => ∃ live,
                  engine.evaluator.HandedOut e.1 c.owner run.scope (some shown) live t ∧
                  let copy := engine.inspector.snapshot t live e.1.spec.text
                  row = (Variable.debugger copy).decorated engine.inspector t ∧
                  ∀ catalogue still, engine.Still catalogue still → still copy →
                    engine.ListsPlainly catalogue copy → engine.HasOneText catalogue still row) := by
  refine (ensures_askAll_works qs _ s).mono ?_
  rintro r s' ⟨deeds, l, placed, works, -⟩
  refine ⟨deeds, l, placed, works, fun i row here => ?_⟩
  -- a row among those in front is at its place
  have there {l' : CustomListing ν} (more : List (Variable ν))
      (front : deeds.filterMap Deed.item? ++ more <+: l'.shown.toList) :
      l'.shown[i]? = some row := by
    obtain ⟨behind, same⟩ := front
    have within := (List.getElem?_eq_some_iff.mp here).1
    rw [← Array.getElem?_toList, ← same, List.append_assoc, List.getElem?_append_left within]
    exact here
  have front := works.items_prefix (.new c rule) (List.nil_prefix (l := _))
  refine ⟨there [] (by rwa [List.append_nil]), fun reach' qs' s₁ => ?_, ?_⟩
  · refine (ensures_askAll_works qs' l s₁).mono ?_
    rintro r' s₂ ⟨deeds', l', placed', works', -⟩
    exact ⟨l', placed', there _ (works'.items_prefix (works.progress (.new c rule)) front)⟩
  -- the item is one of the body, and if it is a scratch variable its row tells what was taken for
  -- it
  · have mem : row ∈ deeds.filterMap Deed.item? := List.mem_of_getElem? here
    obtain ⟨run, begun, item, listed, shown, t₀, t, made⟩ :=
      works.showsItem (fun run here => nomatch here) row mem
    obtain ⟨sameRule, sameContext⟩ := works.same
    dsimp only at sameRule sameContext begun made listed
    rw [sameRule] at listed
    rw [sameContext] at made
    refine ⟨run, item, shown, t₀, t, begun, listed, made, fun whole => ?_⟩
    have taken := shownItem_scratch (c := { c with scope := run.scope }) whole made
    dsimp only at taken
    cases found : engine.evaluator.member? (engine.evaluator.prepared c.owner run.scope item.2 t₀).1
      c.owner (engine.evaluator.prepared c.owner run.scope item.2 t₀).2 with
    | some member =>
      rw [found] at taken
      exact taken
    | none =>
      rw [found] at taken
      obtain ⟨live, handed, same⟩ := taken
      refine ⟨live, handed, same, fun catalogue still steady mem plain => ?_⟩
      rw [same]
      exact steady.hasOneText mem t plain

end CustomListing

/-! ## A scratch variable that ticks -/

namespace Ticking

/-- The variables of the debugger: a row, its member `$i_0`, a scratch variable of the same
name, and copies of it. -/
inductive Handle where
  | row
  | member
  | live
  | copy (value : Nat) (spec : String)
deriving DecidableEq

/-- The state of the debugger is the value of the scratch variable. The member reads ten
more. -/
def debugger : Debugger Nat Handle where
  facts _ h :=
    { name := "it", typeName := "int", isTruthy := true, hierarchy := []
      spec := match h with
        | .copy _ spec => spec
        | _ => "" }
  pointee? _ _ := none
  snapshot? n h spec :=
    match h with
    | .live => some (.copy n spec)
    | .member => some (.copy (n + 10) spec)
    | _ => none
  text n _ h :=
    match h with
    | .row => "row"
    | .member => toString (n + 10)
    | .live => toString n
    | .copy value _ => toString value
  mightHaveChildren _ _ := false
  children _ _ := []
  fast _ _ _ _ := pure (.error ⟨.other, ""⟩)
  full _ e _ := fun n =>
    if e.value = "auto $i_0=0; $i_0" then (.ok .live, 0)
    else if e.value = "$i_0" then (.ok .live, n)
    else if e.value = "$i_0++" then (.ok .live, n + 1)
    else (.error "", n)
  path _ e := pure (if e.value = ".$i_0" then some .member else none)

/-- An engine with a strategy. -/
def engine (strategy : Strategy) : Engine Nat Handle :=
  ⟨debugger, ({} : Options).withStrategy strategy⟩

/-- The session when the scratch variable has a value. -/
def session (n : Nat) : Session Nat Handle where
  target := n
  book := { catalogue := {} }

/-- Expressions are seen from the row. -/
def context : Context Handle := ⟨.debugger .row, {}⟩

/-- A program that shows the scratch variable, counts it up and shows it again. -/
def rule : CustomListRule where
  declarations := [{ name := "i", initial := "0" }]
  body := [.item none none "i", .exec none "i++", .item none none "i"]

/-- The list is asked for its first row alone. -/
def listed (strategy : Strategy) :
    Except Stop ((List (Query.Reply Handle) × Listing Handle) × Session Nat Handle) :=
  Query.askAll (engine strategy) ((engine strategy).reach 9) [.setLimit 1, .rows 0 1]
    (.custom { context, rule }) (session 0)

/-- How a custom list stands: whether it failed or has ended, what its rows stand for, and
whether `i` is a scratch variable to it. -/
def standing : Listing Handle → Bool × Bool × List (Option Handle) × Option Bool
  | .custom l => (l.failed, l.hasEnded, l.shown.toList.map Variable.handle?,
      l.run.map fun run =>
        run.scope.isScratchName (Substitution.substitute run.scope (WatchExpr.parse "i").value))
  | _ => (true, true, [], none)

/-- The rows of a custom list. -/
def shownRows : Listing Handle → List (Variable Handle)
  | .custom l => l.shown.toList
  | _ => []

/-- The copies do not change, and nor does the row. -/
def Fixed : Handle → Prop
  | .row => True
  | .copy .. => True
  | _ => False

theorem still_fixed (strategy : Strategy) : (engine strategy).Still {} Fixed := by
  -- nothing has a rule
  have unruled {u : Nat} {h : Handle} {m : RuleMatch}
      (found : ({} : Catalogue).lookup (engine strategy).options
        ((engine strategy).debugger.facts u h).subject = some m) : False := nomatch found
  constructor
  · rintro (_ | _ | _ | _) - s t <;> rfl
  · rintro (_ | _ | _ | _) fixed s t kind
    all_goals first
      | rfl
      | cases fixed
  · exact fun _ _ _ _ => rfl
  · exact fun _ _ _ _ child => nomatch child
  · exact fun _ _ _ _ _ found => (unruled found).elim
  · exact fun _ _ _ _ _ found => (unruled found).elim
  · have untagged (tag : Tag) : "int" ≠ tag.typeName := by cases tag <;> decide
    exact fun _ _ _ => untagged
  · exact fun _ _ _ _ _ _ _ => rfl

theorem fixed_snapshot (s : Nat) (h : Handle) (spec : String) :
    Fixed (debugger.toInspector.snapshot s h spec) := by
  cases h <;> trivial

/-- The first row shows the scratch variable as it was, and goes on to. -/
theorem first_row_kept : ∃ replies l s' row,
    listed .fastThenFull = .ok ((replies, .custom l), s') ∧ l.shown[0]? = some row ∧
      row.handle? = some (.copy 0 "") ∧ (engine .fastThenFull).HasOneText {} Fixed row := by
  have ran : (listed .fastThenFull).map (fun r => standing r.1.2) =
      .ok (false, false, [some (.copy 0 "")], some true) := by
    decide +kernel
  obtain ⟨⟨⟨replies, l'⟩, s'⟩, asked, told⟩ := Bounded.map_eq_ok_iff.mp ran
  obtain ⟨deeds, l, placed, works, kept⟩ := CustomListing.shown_scratch_variables
    (engine .fastThenFull) _ context rule _ (session 0) _ _ asked
  obtain rfl : l' = .custom l := placed
  obtain ⟨sane, told⟩ := Prod.mk.inj told
  obtain ⟨going, told⟩ := Prod.mk.inj told
  obtain ⟨handles, scratch⟩ := Prod.mk.inj told
  obtain ⟨row, only, copy⟩ := List.map_eq_singleton_iff.mp handles
  have shown := ((works.progress (.new context rule)).whole sane).2 going
  rw [only, List.nil_append] at shown
  obtain ⟨here, -, run, item, name, t₀, t, begun, mem, made, snapshot⟩ :=
    kept 0 row (by rw [← shown]; rfl)
  refine ⟨replies, l, s', row, asked, here, copy, ?_⟩
  obtain rfl : item = (none, "i") := by
    simpa [rule, Instruction.itemsAll, Instruction.items] using mem
  rw [begun, Option.map_some, Option.some.injEq] at scratch
  have taken := snapshot scratch
  dsimp only at taken
  rw [Evaluator.member?_eq_none _ _ _ (by decide)] at taken
  obtain ⟨handed, -, same, text⟩ := taken
  refine text {} Fixed (still_fixed _) (fixed_snapshot t handed _) ?_
  exact fun _ _ _ _ found => nomatch found

/-- What the rows of a custom list read when the scratch variable has one value or another. -/
def readings (strategy : Strategy) (s : Session Nat Handle) (row : Variable Handle) :
    List (Except Stop String) :=
  [0, 1].map fun n => ((engine strategy).text 2 .value row { s with target := n }).map Prod.fst

/-- **The member is shown in its place.** The item is nothing but the scratch variable, and
every snapshot is a copy that no longer changes. But the row is the namesake of the scratch
variable, and what it reads depends on what is done afterwards. -/
theorem member_in_place :
    (∀ s h spec, Fixed (debugger.toInspector.snapshot s h spec)) ∧
      (engine .pathThenFull).Still {} Fixed ∧
      ∃ replies l s' row, listed .pathThenFull = .ok ((replies, .custom l), s') ∧
        (l.run.map fun run => run.scope.isScratchName
          (Substitution.substitute run.scope (WatchExpr.parse "i").value)) = some true ∧
        l.shown[0]? = some row ∧
        readings .pathThenFull s' row = [.ok "10", .ok "11"] := by
  refine ⟨fixed_snapshot, still_fixed _, ?_⟩
  have ran : (listed .pathThenFull).map (fun r => standing r.1.2) =
      .ok (false, false, [some .member], some true) := by
    decide +kernel
  have read : (listed .pathThenFull).map (fun r => (shownRows r.1.2).map (readings .pathThenFull r.2)) =
      .ok [[.ok "10", .ok "11"]] := by
    decide +kernel
  obtain ⟨⟨⟨replies, l'⟩, s'⟩, asked, told⟩ := Bounded.map_eq_ok_iff.mp ran
  cases l' with
  | custom l =>
    rw [asked] at read
    obtain ⟨row, only, reads⟩ := List.map_eq_singleton_iff.mp (Except.ok.inj read)
    have only : l.shown.toList = [row] := only
    refine ⟨replies, l, s', row, asked, (Prod.mk.inj (Prod.mk.inj (Prod.mk.inj told).2).2).2, ?_, reads⟩
    rw [← Array.getElem?_toList, only]
    rfl
  | _ => cases told

end Ticking

end WatchView
