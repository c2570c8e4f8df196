import Mathlib.Logic.Relation
import WatchView.Proofs.Listing.Returns
import WatchView.Proofs.OneVariable
/-!
# Counts and windows agree

Someone lists the children of a variable and asks for their number. As long as
no limit is raised, a window from the beginning then has that many rows, and
there are none behind them (`rows_of_count`). In between, the listing may be
asked anything, and so may all others.

Left out are listings that show only a part of what they count (`Partial`), and
children that are inlined from a list whose limit was raised after they were
counted (`Fickle.rows_ne_count`).
-/

namespace WatchView

open Bounded Listing Relation

variable {σ ν : Type}

namespace Engine

variable {engine : Engine σ ν}

/-- How the children of a variable are listed: as the variable lists them, as
its rule does, or by an expansion. -/
inductive Lists (engine : Engine σ ν) (v : Variable ν) : Run σ ν (Listing ν) → Prop
  | own : Lists engine v (engine.childListing v)
  | byRule : Lists engine v (engine.ruleListing (engine.childListing v) v)
  | expansion (scope : Scope (Variable ν)) (expand : Expand) :
      Lists engine v (engine.expandListing { owner := v, scope } expand)

theorem Lists.makes {v : Variable ν} {act : Run σ ν (Listing ν)} (h : Lists engine v act) :
    Makes v act := by
  cases h with
  | own => exact engine.makes_childListing v
  | byRule => exact engine.makes_ruleListing (engine.makes_childListing v)
  | expansion scope expand => exact engine.makes_expandListing v scope expand

theorem Lists.stays {v : Variable ν} {act : Run σ ν (Listing ν)} (h : Lists engine v act)
    {R : Region} {k : Nat} (led : v.Within (R.pages k)) :
    Stays R k (liftM act : Search σ ν (Listing ν)) Listing.Within := by
  cases h with
  | own => exact engine.stays_childListing v led
  | byRule => exact engine.stays_ruleListing led (engine.stays_childListing v led)
  | expansion scope expand => exact engine.stays_expandListing (c := ⟨v, scope⟩) led expand

/-- **A step of work in a session where someone holds a listing**: it is asked;
or it is the listing of an expansion and is given a limit of its own, which it
does not heed; or there is work elsewhere that raises no limit of the pages
watched. -/
inductive Work (engine : Engine σ ν) (watched : Listing ν → Nat → Prop) :
    Session σ ν × Listing ν → Session σ ν × Listing ν → Prop
  | count {s s' : Session σ ν} {l l' : Listing ν} {bound n : Nat}
      (ended : engine.count bound l s = .ok ((n, l'), s')) : Work engine watched (s, l) (s', l')
  | rows {s s' : Session σ ν} {l l' : Listing ν} {bound start count : Nat}
      {rows : List (Variable ν)}
      (ended : engine.rows bound l start count s = .ok ((rows, l'), s')) :
      Work engine watched (s, l) (s', l')
  | isSound {s s' : Session σ ν} {l l' : Listing ν} {bound : Nat} {sound : Bool}
      (ended : engine.isSound bound l s = .ok ((sound, l'), s')) :
      Work engine watched (s, l) (s', l')
  | limit {s : Session σ ν} {owner : Variable ν} {members : List (Listing ν)}
      {hideRawView : Bool} {limit limit' : Nat} :
      Work engine watched (s, .group owner members hideRawView limit)
        (s, .group owner members hideRawView limit')
  | elsewhere {s s' : Session σ ν} {l : Listing ν} {α : Type} {act : Search σ ν α} {a : α}
      (stays : Stays .known s.listings.size act fun _ _ => True) (ended : act s = .ok (a, s'))
      (limits : ∀ id, watched l id → (s'.kept id).limit = (s.kept id).limit) :
      Work engine watched (s, l) (s', l)

/-- The pages whose children a listing shows. -/
def shown (l : Listing ν) (id : Nat) : Prop := l.Has (.page id)

/-- The pages whose children were counted for good. -/
def counted (l : Listing ν) (id : Nat) : Prop := l.Inlines id

section Steps

variable {watched : Listing ν → Nat → Prop} {s s' : Session σ ν} {l l' : Listing ν}
  (words : ∀ p, engine.options.get p < wordCount)

include words

/-- A listing that is held stays known. -/
theorem Work.stays (h : Work engine watched (s, l) (s', l')) (sound : s.Sound)
    (led : l.KnownIn s) :
    s'.Sound ∧ s.Frame .known s' ∧ l.Grows (· < s'.listings.size) l' := by
  cases h with
  | @count _ _ _ _ bound n ended =>
    exact (engine.framed_reach words bound).count l led s sound rfl _ _ ended
  | @rows _ _ _ _ bound start count rows ended =>
    obtain ⟨sound', frame, -, grown⟩ :=
      (engine.framed_reach words bound).rows l start count led s sound rfl _ _ ended
    exact ⟨sound', frame, grown⟩
  | @isSound _ _ _ _ bound b ended =>
    exact (engine.framed_reach words bound).isSound l led s sound rfl _ _ ended
  | limit =>
    cases led with
    | group owner inner => exact ⟨sound, .refl s, .group owner inner, fun pane has =>
        has_group_iff.mpr (has_group_iff.mp has)⟩
  | elsewhere stays ended limits =>
    obtain ⟨sound', frame, -⟩ := stays s sound rfl _ _ ended
    exact ⟨sound', frame, .refl (led.mono fun id inside => Nat.lt_of_lt_of_le inside frame.size)⟩

omit words in
/-- A kept listing stands by its answer if it looks for no more children. -/
theorem stands_of_limit {R : Region} (frame : s.Frame R s') (led : l.KnownIn s)
    (whole : ¬ l.Partial s') {id : Nat} (has : l.Has (.page id))
    (limit : (s'.kept id).limit = (s.kept id).limit) : (s.kept id).StandsBy (s'.kept id) :=
  frame.holds id (led.of_has has) limit fun short => whole (.inr ⟨id, has, short⟩)

/-- A listing that is held stays sane. -/
theorem Work.sane (h : Work engine counted (s, l) (s', l')) (sound : s.Sound) (led : l.KnownIn s)
    (sane : Sane s l) : Sane s' l' := by
  intro whole
  cases h with
  | @count _ _ _ _ bound n ended =>
    exact ((engine.keeps_reach words bound).count s l sound led sane _ _ ended whole).1
  | @rows _ _ _ _ bound start count rows ended =>
    exact ((engine.keeps_reach words bound).rows start count s l sound led sane _ _ ended whole).1
  | @isSound _ _ _ _ bound b ended =>
    exact ((engine.keeps_reach words bound).isSound s l sound led sane _ _ ended whole).1
  | limit =>
    have fit := sane fun part => whole (part.of_panes fun pane has =>
      has_group_iff.mpr (has_group_iff.mp has))
    exact .group fit.members
  | elsewhere stays ended limits =>
    obtain ⟨-, frame, -⟩ := stays s sound rfl _ _ ended
    refine (sane fun part => whole (part.frame frame)).congr frame fun id inlines => ?_
    exact stands_of_limit frame led whole inlines.has (limits id inlines)

/-- A listing that was counted stays settled. -/
theorem Work.settled {n : Nat} {b : Bool} (h : Work engine shown (s, l) (s', l'))
    (sound : s.Sound) (led : l.KnownIn s) (settled : ¬ l.Partial s → Settled s l n b) :
    ¬ l'.Partial s' → Settled s' l' n b := by
  obtain ⟨-, frame, grown⟩ := h.stays words sound led
  intro whole
  have settled := settled fun part => whole (part.mono grown frame)
  cases h with
  | @count _ _ _ _ bound m ended =>
    cases (again_reach engine words bound s l n b settled).1 _ _ ended with
    | intro same same' =>
      cases same
      cases same'
      exact settled
  | @rows _ _ _ _ bound start count rows ended =>
    exact (windows_reach engine words bound s l n b start count sound led settled _ _ ended
      whole).settled
  | @isSound _ _ _ _ bound b' ended =>
    cases (again_reach engine words bound s l n b settled).2 _ _ ended with
    | intro same same' =>
      cases same
      cases same'
      exact settled
  | limit =>
    obtain ⟨answers, all, rfl, rfl⟩ := settled.members
    exact all.group _ _ _
  | elsewhere stays ended limits =>
    exact settled.congr fun id has => stands_of_limit frame led whole has (limits id has)

end Steps

/-! ## Runs -/

section Runs

variable {p q : Session σ ν × Listing ν} (words : ∀ p, engine.options.get p < wordCount)

include words

theorem stays_run {watched : Listing ν → Nat → Prop} (run : ReflTransGen (Work engine watched) p q)
    (sound : p.1.Sound) (led : p.2.KnownIn p.1) : q.1.Sound ∧ q.2.KnownIn q.1 := by
  induction run with
  | refl => exact ⟨sound, led⟩
  | tail _ step ih =>
    obtain ⟨sound', -, grown⟩ := step.stays words ih.1 ih.2
    exact ⟨sound', grown.within⟩

/-- A listing that is held stays sane, whatever is asked. -/
theorem sane_run (run : ReflTransGen (Work engine counted) p q) (sound : p.1.Sound)
    (led : p.2.KnownIn p.1) (sane : Sane p.1 p.2) : Sane q.1 q.2 := by
  induction run with
  | refl => exact sane
  | tail steps step ih =>
    obtain ⟨sound', led'⟩ := stays_run words steps sound led
    exact step.sane words sound' led' ih

/-- A listing that was counted stays settled while no limit is raised. -/
theorem settled_run {n : Nat} {b : Bool} (run : ReflTransGen (Work engine shown) p q)
    (sound : p.1.Sound) (led : p.2.KnownIn p.1)
    (settled : ¬ p.2.Partial p.1 → Settled p.1 p.2 n b) :
    ¬ q.2.Partial q.1 → Settled q.1 q.2 n b := by
  induction run with
  | refl => exact settled
  | tail steps step ih =>
    obtain ⟨sound', led'⟩ := stays_run words steps sound led
    exact step.settled words sound' led' ih

variable {s₀ s s₁ s₂ : Session σ ν} {v : Variable ν} {act : Run σ ν (Listing ν)}
  {l l₁ l₂ : Listing ν} {bound n : Nat}

/-- After a listing was counted, and while no limit is raised of the pages it
shows, it is settled. -/
theorem settled_of_count (sound : s₀.Sound) (led : v.KnownIn s₀) (lists : Lists engine v act)
    (before : ReflTransGen (Work engine counted) ((act s₀).2, (act s₀).1) (s, l))
    (ended : engine.count bound l s = .ok ((n, l₁), s₁))
    (between : ReflTransGen (Work engine shown) (s₁, l₁) (s₂, l₂)) :
    s₂.Sound ∧ l₂.KnownIn s₂ ∧ (¬ l₂.Partial s₂ → ∃ b, Settled s₂ l₂ n b) := by
  obtain ⟨sound', -, made⟩ := ensures_lift_iff.mp (lists.stays led s₀ sound rfl)
  have sane := ensures_lift_iff.mp (lists.makes s₀ sound led)
  obtain ⟨soundAt, ledAt⟩ := stays_run words before sound' made
  have saneAt := sane_run words before sound' made sane
  have step : Work engine shown (s, l) (s₁, l₁) := .count ended
  obtain ⟨sound₁, frame₁, grown₁⟩ := step.stays words soundAt ledAt
  obtain ⟨b, settled⟩ : ∃ b, ¬ l₁.Partial s₁ → Settled s₁ l₁ n b := by
    by_cases part : l₁.Partial s₁
    · exact ⟨false, fun whole => absurd part whole⟩
    · obtain ⟨b, settled⟩ :=
        (engine.keeps_reach words bound).settles s l soundAt ledAt saneAt _ _ ended part
      exact ⟨b, fun _ => settled⟩
  obtain ⟨sound₂, led₂⟩ := stays_run words between sound₁ grown₁.within
  exact ⟨sound₂, led₂, fun whole =>
    ⟨b, settled_run words between sound₁ grown₁.within settled whole⟩⟩

/-- A window then has the rows that were counted. -/
theorem length_rows_of_count (sound : s₀.Sound) (led : v.KnownIn s₀) (lists : Lists engine v act)
    (before : ReflTransGen (Work engine counted) ((act s₀).2, (act s₀).1) (s, l))
    (ended : engine.count bound l s = .ok ((n, l₁), s₁))
    (between : ReflTransGen (Work engine shown) (s₁, l₁) (s₂, l₂)) (bound' start count : Nat) :
    Ensures (engine.rows bound' l₂ start count) s₂ fun r s₃ => ¬ r.2.Partial s₃ →
      r.1.length = min (windowEnd start count) n - start := by
  obtain ⟨sound₂, led₂, settled⟩ := settled_of_count words sound led lists before ended between
  intro r s₃ shows whole
  obtain ⟨-, frame₃, -, grown₃⟩ :=
    (engine.framed_reach words bound').rows l₂ start count led₂ s₂ sound₂ rfl _ _ shows
  obtain ⟨b, settled₂⟩ := settled fun part => whole (part.mono grown₃ frame₃)
  exact (windows_reach engine words bound' s₂ l₂ n b start count sound₂ led₂ settled₂ r s₃ shows
    whole).length

/-- And the window is found, if what the listing shows is at hand. -/
theorem returns_rows_of_count (sound : s₀.Sound) (led : v.KnownIn s₀) (lists : Lists engine v act)
    (before : ReflTransGen (Work engine counted) ((act s₀).2, (act s₀).1) (s, l))
    (ended : engine.count bound l s = .ok ((n, l₁), s₁))
    (between : ReflTransGen (Work engine shown) (s₁, l₁) (s₂, l₂))
    (bare : ¬ l₂.Has .registers) (atHand : AtHand s₂ l₂) (start count : Nat) :
    ∃ bound', Returns (engine.rows bound' l₂ start count) s₂ fun r _ =>
      r.1.length = min (windowEnd start count) n - start := by
  obtain ⟨sound₂, led₂, settled⟩ := settled_of_count words sound led lists before ended between
  obtain ⟨b, settled₂⟩ := settled (by
    rintro (has | ⟨id, has, short⟩)
    · exact bare has
    · exact atHand id has short.openEnded)
  obtain ⟨d, nested⟩ := settled₂.exists_nested
  refine ⟨d + 4, ?_⟩
  refine (((returning_reach words d).rows s₂ l₂ n b start count nested sound₂ led₂ settled₂
    atHand).and (length_rows_of_count words sound led lists before ended between (d + 4) start
      count)).mono fun r s₃ h => ?_
  exact h.2 h.1.2

/-- **Counts and windows agree.** After a listing was counted, and while no limit
is raised of the pages it shows, a window from the beginning has as many rows
as were counted, and one behind them has none: whenever the rows are found and
the listing shows all it counts. They are found if it shows neither registers
nor a page of an open-ended list. -/
theorem rows_of_count (sound : s₀.Sound) (led : v.KnownIn s₀) (lists : Lists engine v act)
    (before : ReflTransGen (Work engine counted) ((act s₀).2, (act s₀).1) (s, l))
    (ended : engine.count bound l s = .ok ((n, l₁), s₁)) (word : n < wordCount)
    (between : ReflTransGen (Work engine shown) (s₁, l₁) (s₂, l₂)) :
    (∀ bound', Ensures (engine.rows bound' l₂ 0 n) s₂ fun r s₃ =>
        ¬ r.2.Partial s₃ → r.1.length = n) ∧
      (∀ k bound', Ensures (engine.rows bound' l₂ n k) s₂ fun r s₃ =>
        ¬ r.2.Partial s₃ → r.1 = []) ∧
      (¬ l₂.Has .registers → AtHand s₂ l₂ →
        (∃ bound', Returns (engine.rows bound' l₂ 0 n) s₂ fun r _ => r.1.length = n) ∧
          ∀ k, ∃ bound', Returns (engine.rows bound' l₂ n k) s₂ fun r _ => r.1 = []) := by
  have all : min (windowEnd 0 n) n - 0 = n := by
    rw [windowEnd_zero word]
    omega
  have none (k : Nat) : min (windowEnd n k) n - n = 0 := by omega
  have many (start count bound' : Nat) :=
    length_rows_of_count words sound led lists before ended between bound' start count
  refine ⟨fun bound' => ?_, fun k bound' => ?_, fun bare atHand => ⟨?_, fun k => ?_⟩⟩
  · refine (many 0 n bound').mono fun r s₃ h whole => ?_
    exact (h whole).trans all
  · refine (many n k bound').mono fun r s₃ h whole => ?_
    exact List.eq_nil_of_length_eq_zero ((h whole).trans (none k))
  · obtain ⟨bound', found⟩ :=
      returns_rows_of_count words sound led lists before ended between bare atHand 0 n
    exact ⟨bound', found.mono fun r _ h => h.trans all⟩
  · obtain ⟨bound', found⟩ :=
      returns_rows_of_count words sound led lists before ended between bare atHand n k
    exact ⟨bound', found.mono fun r _ h => List.eq_nil_of_length_eq_zero (h.trans (none k))⟩

end Runs

end Engine

/-! ## Two items -/

/-- A session in which nothing is kept is sound. -/
theorem Session.sound_of_empty {s : Session σ ν} (none : s.listings = #[]) : s.Sound where
  base := Nat.zero_le _
  valid id := by
    rw [Session.kept_of_le (by rw [none]; exact Nat.zero_le _)]
    rfl
  closed id inside := by
    rw [none] at inside
    exact absurd inside (Nat.not_lt_zero id)

namespace OneVariable

/-- An expansion with two items. -/
def twoItems : Expand where
  items := [.item { name := "a", value := "it" }, .item { name := "b", value := "it" }]

/-- Its listing once it was counted: two items, and the row of the raw value is
shown. -/
def countedItems : Listing Unit :=
  .group it
    [.item { context, rule := { name := "a", value := "it" }, standing := some (.counted 1) },
      .item { context, rule := { name := "b", value := "it" }, standing := some (.counted 1) }]
    false 0

/-- Two items and the row of the raw value are three rows, also after someone
asked whether all of them can be had. -/
theorem rows_of_twoItems :
    engine.count 2 (engine.expandListing context twoItems (session #[])).1 (session #[]) =
        .ok ((3, countedItems), session #[]) ∧
      (∃ bound, Returns (engine.rows bound countedItems 0 3) (session #[])
        fun r _ => r.1.length = 3) ∧
        ∀ k, ∃ bound, Returns (engine.rows bound countedItems 3 k) (session #[])
          fun r _ => r.1 = [] := by
  have words (p : Property) : engine.options.get p < wordCount := by
    cases p <;> decide
  have led : it.KnownIn (session #[]) := trivial
  have lists : Engine.Lists engine it (engine.expandListing context twoItems) :=
    .expansion {} twoItems
  have ended : engine.count 2 (engine.expandListing context twoItems (session #[])).1
      (session #[]) = .ok ((3, countedItems), session #[]) := rfl
  have asked : engine.isSound 2 countedItems (session #[]) =
      .ok ((true, countedItems), session #[]) := rfl
  have bare (pane : Pane) : ¬ countedItems.Has pane := by
    intro has
    obtain ⟨l, member, has⟩ := has_group_iff.mp has
    rcases List.mem_pair.mp member with rfl | rfl
    · cases has
    · cases has
  have agree := Engine.rows_of_count words (Session.sound_of_empty rfl) led lists .refl ended
    (by decide) (.single (.isSound asked))
  exact ⟨ended, agree.2.2 (bare _) fun id has => absurd has (bare _)⟩

end OneVariable

/-! ## Where they do not agree -/

namespace Fickle

/-- A debugger with two variables, one of which is tagged as a bank of registers.
`gone` cannot be evaluated. The state says whether conditions hold, as they do
until `off` is evaluated. -/
def debugger : Debugger Bool Bool where
  facts holding tagged :=
    { name := "it", typeName := "It", isTruthy := holding, hierarchy := [⟨"It", "It"⟩]
      tag := if tagged then some .sse else none }
  pointee? _ _ := none
  snapshot? _ _ _ := none
  text _ _ _ := "3"
  mightHaveChildren _ _ := false
  children _ _ := []
  fast _ _ _ _ := pure (.error ⟨.other, ""⟩)
  full _ e _ := do
    if e.value == "gone" then return .error "gone"
    if e.value == "off" then set false
    return .ok false
  path _ _ := pure none

/-- The engine shows three items of a custom list on a page. -/
def engine : Engine Bool Bool := ⟨debugger, ({} : Options).set .customListLimit 3⟩

/-- A bank of two registers that shows its raw value, and a custom list without
end, which does not apply any more once it has begun. -/
def rules : RuleFile where
  origin := "rules"
  visualizers :=
    [{ name := "$SSE"
       expand := some
        { items := [.item { name := "x", value := "it" }, .item { name := "y", value := "it" }] } },
      { name := "It"
        expand := some
          { hideRawView := true
            items :=
              [.customList
                { guard := { condition := some "on" }
                  body := [.exec none "off", .loop none [.item none none "it"]] }] } }]

/-- The session. -/
def session : Session Bool Bool where
  target := true
  book := { catalogue := Catalogue.append {} [rules] }

/-- The listing of the tagged variable. -/
def registers : Search Bool Bool (Listing Bool) :=
  engine.ruleListing (engine.childListing (.debugger true)) (.debugger true)

/-- The listing of a custom list that declares three items and fails at the
second. -/
def short : Search Bool Bool (Listing Bool) :=
  engine.expandListing ⟨.debugger false, {}⟩
    { hideRawView := true
      items :=
        [.customList
          { sizes := [{ value := "size" }]
            body := [.item none none "it", .item none none "gone", .item none none "it"] }] }

/-- A listing that inlines the list without end. It was counted before the next
page of that list was. -/
def stale : Search Bool Bool (Listing Bool) := do
  let l ← engine.expandListing ⟨.debugger false, {}⟩
    { hideRawView := true, items := [.expandedItem { value := "it" }] }
  let (_, l) ← engine.count 20 l
  let next ← engine.childListing (.more 0 3 3)
  let _ ← engine.count 20 next
  return l

/-- Count the children of a listing, and then the rows in a window. -/
def countAndRows (listing : Search Bool Bool (Listing Bool)) (start count : Nat) :
    Search Bool Bool (Nat × Nat) := do
  let (n, l) ← engine.count 20 (← listing)
  let (rows, _) ← engine.rows 20 l start count
  return (n, rows.length)

/-- **Counts and windows do not always agree**: there is a row behind the two
registers that are counted, one of three rows of a short list is missing, and
what was inlined is still counted when it is not there any more. -/
theorem rows_ne_count :
    (countAndRows registers 2 1 session).map Prod.fst = .ok (2, 1) ∧
      (countAndRows short 0 3 session).map Prod.fst = .ok (3, 2) ∧
      (countAndRows stale 0 4 session).map Prod.fst = .ok (4, 0) := by
  decide +kernel

end Fickle

end WatchView
