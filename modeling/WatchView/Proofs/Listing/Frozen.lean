import WatchView.Proofs.Listing.Agreement
import WatchView.Proofs.Listing.CustomDeeds
/-!
# Custom lists that failed

Once an evaluation of a custom list failed, nothing of it but its guard is
evaluated. Every request has a reply then, and as long as the guard answers the
same, the rows are the items that were shown, and one row behind them that says
what failed.
-/

namespace WatchView

open Bounded

namespace CustomListing

variable {σ ν : Type} {engine : Engine σ ν} {reach : Reach σ ν} {bound : Nat}

/-- What a list replies that failed. -/
def frozenReply (l : CustomListing ν) : Query → Query.Reply ν
  | .setLimit _ => .done
  | .count => .count (l.size.getD l.shown.size)
  | .rows start many => .rows (clip start many l.shown.toList)
  | .isSound => .isSound l.rule.guard.optional

/-- A list that failed, and whose guard answers as before. -/
structure Frozen (answer : Except EvalError Bool) (l : CustomListing ν) : Prop where
  failed : l.failed = true
  run : l.run.isSome
  stands : l.Stands answer

theorem Frozen.reply_eq {answer : Except EvalError Bool} {l : CustomListing ν} (h : l.Frozen answer)
    (q : Query) : l.reply q = l.frozenReply q := by
  obtain ⟨failed, run, stands⟩ := h
  cases stands with
  | blank fresh =>
    rw [fresh] at run
    cases run
  | @begun n _ _ counted enough =>
    have few : l.shown.toList.length ≤ n := by
      rw [Array.length_toList]
      exact enough.elim And.right fun h => Nat.le_of_eq h.2.symm
    have total : n = l.size.getD l.shown.size := by
      rcases enough with ⟨size, -⟩ | ⟨size, rfl⟩
      · rw [size, Option.getD_some]
      · rw [size, Option.getD_none]
    cases q with
    | setLimit => rfl
    | count =>
      unfold reply frozenReply
      rw [counted, total]
      rfl
    | rows start many =>
      unfold reply frozenReply window
      rw [counted]
      dsimp only
      rw [List.take_of_length_le few]
    | isSound =>
      unfold reply frozenReply CustomListing.isSound
      rw [failed, Bool.not_true, Bool.and_false, Bool.or_false]

/-- A list that failed replies the same as long as its rows and its size stay. -/
theorem frozenReply_congr {l l' : CustomListing ν} (shown : l'.shown = l.shown)
    (size : l'.size = l.size) (rule : l'.rule = l.rule) (q : Query) :
    l'.frozenReply q = l.frozenReply q := by
  unfold frozenReply
  rw [shown, size, rule]

/-! ## Every request has a reply -/

theorem returns_runTo_of_failed (ev : Evaluator σ ν) {l : CustomListing ν} (failed : l.failed = true)
    (target : Nat) (t : σ) :
    Returns (l.runTo ev bound target) t fun _ _ => True := by
  unfold runTo
  rw [failed, Bool.true_or, if_pos rfl]
  exact returns_pure trivial

theorem returns_count_of_failed {l : CustomListing ν} (failed : l.failed = true)
    (run : l.run.isSome) (s : Session σ ν) :
    Returns (l.count engine bound) s fun _ _ => True := by
  have started : l.started engine.evaluator s = (.ok l, s) := by
    unfold CustomListing.started
    rw [if_pos run]
    rfl
  unfold count
  refine Returns.bind (P := fun r _ => r = .ok l) ⟨_, _, congrArg Except.ok started, rfl⟩ ?_
  rintro _ s' rfl
  dsimp only
  split
  · exact returns_pure trivial
  · exact (returns_ofTarget (P := fun _ _ => True)
      (returns_runTo_of_failed engine.evaluator failed _ _)).bind fun _ _ _ => returns_pure trivial

theorem returns_settled_of_failed {l : CustomListing ν} (failed : l.failed = true)
    (run : l.run.isSome) (s : Session σ ν) :
    Returns (l.settled engine bound) s fun _ _ => True := by
  unfold settled Standing.settle
  split
  · exact returns_pure trivial
  · rw [bind_assoc]
    refine (returns_lift _ s).bind fun applied s' _ => ?_
    rcases applied with e | _ | _
    · exact returns_pure trivial
    · exact returns_pure trivial
    · dsimp only
      rw [bind_assoc]
      exact (returns_count_of_failed failed run s').bind fun _ _ _ => returns_pure trivial

theorem returns_ask_of_failed (q : Query) {l : CustomListing ν} (failed : l.failed = true)
    (run : l.run.isSome) (s : Session σ ν) :
    Returns (q.ask engine reach (.custom l)) s fun _ _ => True := by
  have settled : Returns (l.settled engine reach.bound) s fun _ _ => True :=
    returns_settled_of_failed failed run s
  cases q with
  | setLimit => exact returns_pure trivial
  | count =>
    exact (settled.bind (Q := fun _ _ => True) fun _ _ _ => returns_pure trivial).bind
      fun _ _ _ => returns_pure trivial
  | rows start many =>
    refine Returns.bind (P := fun _ _ => True) (Returns.bind (P := fun _ _ => True) ?_
      fun _ _ _ => returns_pure trivial) fun _ _ _ => returns_pure trivial
    unfold rows
    refine (settled.and (l.ensures_settled_works s)).bind ?_
    rintro ⟨st, l₁⟩ s₁ ⟨-, deeds, works, -, -⟩
    have failed₁ := (works.frozen failed run).2.1
    dsimp only
    split
    · exact returns_pure trivial
    · exact (returns_ofTarget (P := fun _ _ => True)
        (returns_runTo_of_failed engine.evaluator failed₁ _ _)).bind fun _ _ _ => returns_pure trivial
  | isSound =>
    exact (settled.bind (Q := fun _ _ => True) fun _ _ _ => returns_pure trivial).bind
      fun _ _ _ => returns_pure trivial

/-- **All requests of a list that failed have a reply**, and only its guard is
looked at. -/
theorem returns_askAll_of_failed (qs : List Query) {l : CustomListing ν} (failed : l.failed = true)
    (run : l.run.isSome) (s : Session σ ν) :
    Returns (Query.askAll engine reach qs (.custom l)) s fun r s' => ∃ deeds l',
      r.2 = .custom l' ∧ Works engine.evaluator (l, s) deeds (l', s') ∧
        (∀ d ∈ deeds, ∃ answer, d = .guard answer) ∧ l'.shown = l.shown ∧ l'.run = l.run ∧
        ∀ answer, (∀ d ∈ deeds, d.Answers answer) → l.Stands answer →
          r.1 = qs.map l.frozenReply := by
  -- after each request the list is frozen as it was, so that the next one is answered the same
  induction qs generalizing l s with
  | nil =>
    exact returns_pure ⟨[], l, rfl, .rests, List.forall_mem_nil _, rfl, rfl, fun _ _ _ => rfl⟩
  | cons q qs ih =>
    refine ((returns_ask_of_failed q failed run s).and (ensures_ask q l s)).bind ?_
    rintro _ s₁ ⟨-, deeds, l₁, rfl, works, stands⟩
    obtain ⟨guards, failed₁, shown, size, run₁, rule, -⟩ := works.frozen failed run
    dsimp only at failed₁ shown size run₁ rule
    have begun₁ : l₁.run.isSome := by
      rw [run₁]
      exact run
    refine (ih failed₁ begun₁ s₁).bind ?_
    rintro ⟨others, _⟩ s₂ ⟨deeds', l₂, rfl, works', guards', shown', run₂, replies⟩
    refine returns_pure ⟨deeds ++ deeds', l₂, rfl, works.trans works',
      List.forall_mem_append.mpr ⟨guards, guards'⟩, shown'.trans shown, run₂.trans run₁,
      fun answer good here => ?_⟩
    obtain ⟨good₁, good₂⟩ := List.forall_mem_append.mp good
    obtain ⟨stands₁, -⟩ := stands answer good₁ here
    have frozen : l₁.Frozen answer := ⟨failed₁, begun₁, stands₁⟩
    have same : l₁.frozenReply = l.frozenReply := funext (frozenReply_congr shown size rule)
    have later : others = qs.map l.frozenReply := by
      rw [← same]
      exact replies answer good₂ stands₁
    rw [List.map_cons, ← same, ← frozen.reply_eq, same, ← later]

/-! ## Requests before and after -/

/-- **A list that failed is frozen.** A new list is asked for anything, and while
its guard answers the same an evaluation of it fails: of a variable, of a size that
is not optional, or in a step of its program. Then its rows are the items that were
shown, which are where they were, and behind them one row for the failure, unless
the list is optional and has no items.

Whatever it is asked from then on, with any limits, it replies with these rows, and
evaluates nothing but its guard; not all can be had, unless it is optional. -/
theorem frozen_of_failure (engine : Engine σ ν) (reach : Reach σ ν) (c : Context ν)
    (rule : CustomListRule) (qs : List Query) (s : Session σ ν) :
    Ensures (Query.askAll engine reach qs (.custom { context := c, rule })) s fun r s' =>
      ∃ deeds l, r.2 = .custom l ∧
        Works engine.evaluator ({ context := c, rule }, s) deeds (l, s') ∧
        ∀ d ∈ deeds, ∀ e ∈ d.failures,
          l.shown.toList = deeds.filterMap Deed.item? ++
            failureRows rule.guard.optional (deeds.filterMap Deed.item?) e ∧
          ∀ (reach' : Reach σ ν) (qs' : List Query) (s₁ : Session σ ν),
            Returns (Query.askAll engine reach' qs' (.custom l)) s₁ fun r' s₂ =>
              ∃ deeds' l', r'.2 = .custom l' ∧ Works engine.evaluator (l, s₁) deeds' (l', s₂) ∧
                (∀ d ∈ deeds', ∃ answer, d = .guard answer) ∧ l'.shown = l.shown ∧ l'.run = l.run ∧
                ∀ answer, (∀ d ∈ deeds ++ deeds', d.Answers answer) →
                  r'.1 = qs'.map l.frozenReply ∧
                  ∀ start many shown, (Query.rows start many, Query.Reply.rows shown) ∈ qs.zip r.1 →
                    ∀ i v, shown[i]? = some v → l.shown.toList[start + i]? = some v := by
  refine (ensures_askAll_works qs _ s).mono ?_
  rintro ⟨replies, _⟩ s' ⟨deeds, l, rfl, works, told⟩
  refine ⟨deeds, l, rfl, works, fun d member e failure => ?_⟩
  have progress := works.progress (.new c rule)
  rw [List.nil_append, List.nil_append] at progress
  -- one of the deeds failed, so the list has failed, and that one failure is all that did
  have some_failed : e ∈ deeds.flatMap Deed.failures := List.mem_flatMap.mpr ⟨d, member, failure⟩
  have failed : l.failed = true := by
    by_contra sane
    rw [(progress.whole (by simpa using sane)).1] at some_failed
    cases some_failed
  obtain ⟨e', only, shown⟩ := progress.broken failed
  obtain rfl : e = e' := by
    rw [only] at some_failed
    exact List.mem_singleton.mp some_failed
  have begun := progress.begun failed
  rw [works.same.1] at shown
  refine ⟨shown, fun reach' qs' s₁ => (returns_askAll_of_failed qs' failed begun s₁).mono ?_⟩
  rintro r' s₂ ⟨deeds', l', placed, works', guards, same, run, replied⟩
  refine ⟨deeds', l', placed, works', guards, same, run, fun answer good => ?_⟩
  obtain ⟨before, after⟩ := List.forall_mem_append.mp good
  obtain ⟨stands, rows⟩ := told answer before (.new answer c rule)
  refine ⟨replied answer after stands, fun start many shown asked i v here => ?_⟩
  have row := rows.rows asked i v here
  -- what a reply showed is known of the list, whose guard lets it through
  cases stands with
  | blank fresh =>
    rw [fresh] at begun
    cases begun
  | begun _ _ counted _ =>
    rw [known_of_counted counted] at row
    exact Array.getElem?_toList.trans row

/-- A list that failed did so in one of its deeds. -/
theorem Works.exists_failure {ev : Evaluator σ ν} {c : Context ν} {rule : CustomListRule}
    {s s' : Session σ ν} {deeds : List (Deed ν)} {l : CustomListing ν}
    (h : Works ev ({ context := c, rule }, s) deeds (l, s')) (failed : l.failed = true) :
    ∃ d ∈ deeds, ∃ e, e ∈ d.failures := by
  obtain ⟨e, only, -⟩ := (h.progress (.new c rule)).broken failed
  rw [List.nil_append] at only
  obtain ⟨d, member, failure⟩ := List.mem_flatMap.mp
    (show e ∈ deeds.flatMap Deed.failures from only.symm ▸ List.mem_singleton.mpr rfl)
  exact ⟨d, member, e, failure⟩

end CustomListing

namespace Fickle

/-- Expressions are seen from the variable that is not tagged. -/
def untagged : Context Bool := ⟨.debugger false, {}⟩

/-- A program whose second item cannot be evaluated. -/
def broken : CustomListRule where
  body := [.item none none "it", .item none none "gone", .item none none "it"]

/-- Whether a custom list failed. -/
def hasFailed : Listing Bool → Bool
  | .custom l => l.failed
  | _ => false

/-- An item and the row of the failure are counted, and replied with from then on. -/
theorem broken_frozen : ∃ replies l s',
    Query.askAll engine (engine.reach 9) [.count] (.custom { context := untagged, rule := broken })
      session = .ok ((replies, .custom l), s') ∧
    replies.filterMap Query.Reply.count? = [2] ∧ l.failed = true ∧
    ∀ reach qs s₁, Returns (Query.askAll engine reach qs (.custom l)) s₁ fun r _ =>
      r.1 = qs.map l.frozenReply := by
  have run : (Query.askAll engine (engine.reach 9) [.count]
      (.custom { context := untagged, rule := broken }) session).map
        (fun r => (r.1.1.filterMap Query.Reply.count?, hasFailed r.1.2)) = .ok ([2], true) := by
    decide +kernel
  obtain ⟨⟨⟨replies, l'⟩, s'⟩, asked, told⟩ := Bounded.map_eq_ok_iff.mp run
  obtain ⟨counts, failed⟩ := Prod.mk.inj told
  obtain ⟨deeds, l, placed, works, frozen⟩ := CustomListing.frozen_of_failure engine
    (engine.reach 9) untagged broken [.count] session _ _ asked
  obtain rfl : l' = .custom l := placed
  refine ⟨replies, l, s', asked, counts, failed, fun reach qs s₁ => ?_⟩
  obtain ⟨d, member, e, failure⟩ := works.exists_failure failed
  refine ((frozen d member e failure).2 reach qs s₁).mono ?_
  rintro r s₂ ⟨deeds', l', -, works', -, -, -, replied⟩
  refine (replied (.ok true) (List.forall_mem_append.mpr ⟨?_, ?_⟩)).1
  · exact works.answers fun _ => rfl
  · refine works'.answers fun _ => ?_
    rw [works.same.1, works.same.2]
    rfl

/-- A program that shows one item, with an optional size that cannot be evaluated. -/
def unsized : CustomListRule where
  sizes := [{ guard := { optional := true }, value := "gone" }]
  body := [.item none none "it"]

/-- The variables that the rows of a reply stand for. -/
def handles : Query.Reply Bool → List (Option Bool)
  | .rows shown => shown.map Variable.handle?
  | _ => []

/-- Whether a reply says that all children can be had. -/
def saysSound : Query.Reply Bool → Bool
  | .isSound sound => sound
  | _ => false

/-- **An optional size that fails is passed over**: its evaluation fails, and the
program of a list that is not optional runs nevertheless. The one row is the item
and not a failure, and all children can be had. -/
theorem optional_size_passed_over :
    unsized.guard.optional = false ∧
      (∃ size ∈ unsized.sizes, (engine.evaluator.sizeValue size untagged.owner untagged.scope
        session.target).1.toOption = none) ∧
      (Query.askAll engine (engine.reach 9) [.count, .rows 0 9, .isSound]
        (.custom { context := untagged, rule := unsized }) session).map
          (fun r => (r.1.1.filterMap Query.Reply.count?, r.1.1.flatMap handles, r.1.1.any saysSound)) =
        .ok ([1], [some false], true) := by
  decide +kernel

end Fickle

end WatchView
