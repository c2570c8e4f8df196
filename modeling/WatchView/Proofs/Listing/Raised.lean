import WatchView.Proofs.Listing.CustomDeeds
import WatchView.Proofs.Listing.NodeDeeds
import WatchView.Proofs.Listing.NodeRows
/-!
# Limits that are raised and lowered

A list of nodes and a custom list look for as many rows as their limit says, and
for more once it is raised. Whatever they are asked in between, they take nothing
back, and go on where they stopped: nothing is done a second time.
-/

namespace WatchView

open Bounded

variable {σ ν : Type}

/-- **Raising a limit resumes the work, and no count shrinks.** A new list of nodes
or a new custom list is asked for its number of rows, for windows of them and
whether all can be had, and in between its limit is set to anything. Then the
counts do not shrink and all windows show the same row at a position; of a custom
list this is so if its guard answered the same whenever it was looked at.

A list of nodes is opened once, follows no pointer twice and makes no row twice. A
custom list declares each variable and evaluates its size at most once, and each
step of its program begins where the one before ended. -/
theorem Query.askAll_resumes (engine : Engine σ ν) (reach : Reach σ ν) (qs : List Query)
    (s : Session σ ν) :
    (∀ (c : Context ν) (rule : NodeRule),
      Ensures (askAll engine reach qs (.nodes { context := c, rule })) s fun r s' =>
        ∃ deeds l' R', r.2 = .nodes l' ∧
          NodeListing.WorksIn engine.evaluator ({ context := c, rule }, {}, s) deeds (l', R', s') ∧
          deeds.filter NodeListing.Deed.opens <+: [.guard, .head, .size] ∧
          (deeds.flatMap NodeListing.Deed.followed).Nodup ∧
          (deeds.filterMap NodeListing.Deed.made?).Nodup ∧ Steady qs r.1) ∧
    ∀ (c : Context ν) (rule : CustomListRule),
      Ensures (askAll engine reach qs (.custom { context := c, rule })) s fun r s' =>
        ∃ deeds l', r.2 = .custom l' ∧
          CustomListing.Works engine.evaluator ({ context := c, rule }, s) deeds (l', s') ∧
          deeds.filterMap CustomListing.Deed.declared? <+: rule.declarations ∧
          (deeds.filter CustomListing.Deed.isSize).length ≤ 1 ∧
          CustomListing.Resumes (Program.compile rule.body).toOption
            (deeds.filterMap CustomListing.Deed.went?) l'.position ∧
          ((∃ answer, ∀ d ∈ deeds, d.Answers answer) → Steady qs r.1) :=
  ⟨fun c rule => NodeListing.ensures_askAll_new c rule qs s,
    fun c rule => CustomListing.ensures_askAll_new c rule qs s⟩

namespace OneVariable

/-- A program that shows the variable over and over. -/
def endless : CustomListRule where
  body := [.loop none [.item none none "it"]]

/-- Limits that are raised, and lowered again. -/
def upAndDown : List Query :=
  [.setLimit 1, .count, .rows 0 1, .setLimit 4, .count, .rows 0 3, .setLimit 2, .count]

/-- The two nodes are counted one after the other, and four rows of the endless
program stay four when the limit is lowered. -/
theorem upAndDown_resumes :
    (∃ replies l' s', Query.askAll Tally.engine (Tally.engine.reach 1) upAndDown
        (.nodes Tally.fresh) (Tally.session 0) = .ok ((replies, l'), s') ∧
      replies.filterMap Query.Reply.count? = [1, 2, 2] ∧ Steady upAndDown replies) ∧
    ∃ replies l' s', Query.askAll engine (engine.reach 9) upAndDown
        (.custom { context, rule := endless }) (session #[]) = .ok ((replies, l'), s') ∧
      replies.filterMap Query.Reply.count? = [1, 4, 4] ∧ Steady upAndDown replies := by
  have nodes : (Query.askAll Tally.engine (Tally.engine.reach 1) upAndDown (.nodes Tally.fresh)
      (Tally.session 0)).map (fun r => r.1.1.filterMap Query.Reply.count?) = .ok [1, 2, 2] := by
    decide +kernel
  have custom : (Query.askAll engine (engine.reach 9) upAndDown
      (.custom { context, rule := endless }) (session #[])).map
        (fun r => r.1.1.filterMap Query.Reply.count?) = .ok [1, 4, 4] := by
    decide +kernel
  obtain ⟨⟨⟨replies, l'⟩, s'⟩, asked, counts⟩ := Bounded.map_eq_ok_iff.mp nodes
  obtain ⟨⟨⟨replies', l''⟩, s''⟩, asked', counts'⟩ := Bounded.map_eq_ok_iff.mp custom
  refine ⟨⟨replies, l', s', asked, counts, ?_⟩, replies', l'', s'', asked', counts', ?_⟩
  · obtain ⟨-, -, -, -, -, -, -, -, steady⟩ := (Query.askAll_resumes Tally.engine
      (Tally.engine.reach 1) upAndDown (Tally.session 0)).1 Tally.course.context
        Tally.course.rule _ _ asked
    exact steady
  · obtain ⟨deeds, l, -, works, -, -, -, steady⟩ := (Query.askAll_resumes engine (engine.reach 9)
      upAndDown (session #[])).2 context endless _ _ asked'
    exact steady ⟨.ok true, works.answers fun _ => rfl⟩

end OneVariable

end WatchView
