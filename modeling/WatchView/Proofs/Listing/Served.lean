import WatchView.Proofs.Listing.Agreement
import WatchView.Proofs.Listing.Gathered
/-!
# Windows are served from what is kept

Someone holds the listing of a variable and asks for a window twice. As long as no
limit is changed in between, the second time no expression is evaluated, and the
rows are the same (`Engine.served_again`), but for rows of raw values that come up
when a list turns out to fail (`Fickle.rows_of_repeated`). In between, the listing
may be asked anything, and so may the lists that it shows. Whatever is asked, no
element of an index list or of an array is evaluated twice.
-/

namespace WatchView

open Bounded Relation Listing

section Holding

variable {σ ν : Type} {engine : Engine σ ν} {s₀ s s' : Session σ ν} {l l' : Listing ν} {id : Nat}

/-! ## What a turn does with the lists that are shown -/

section Turns

variable (words : ∀ p, engine.options.get p < wordCount) {bound : Nat}

include words

/-- One member of a group works on the list that it shows, and all others leave that
alone. -/
theorem Listing.Spread.visits {p q : Session σ ν × List (Listing ν)}
    (turns : ReflTransGen (MemberTurn (engine.reach bound)) p q) (spread : Spread p.1 p.2)
    (any : AnyHas (.page id) p.2)
    (visits : ∀ {s s' : Session σ ν} {l l' : Listing ν}, (engine.reach bound).Turn (s, l) (s', l') →
      s.Sound → l.KnownIn s → Parted s l → l.Has (.page id) →
        ∃ visits, Visited engine id visits s s') :
    ∃ visits, Visited engine id visits p.1 q.1 := by
  -- the member with the list keeps it on every turn, so that the next turn finds it again
  suffices h : AnyHas (.page id) q.2 ∧ ∃ visits, Visited engine id visits p.1 q.1 from h.2
  induction turns with
  | refl => exact ⟨any, [], .done⟩
  | tail turns turn ih =>
    obtain ⟨⟨m, member, has⟩, before, visited⟩ := ih
    have spread' := Spread.turns words turns (fun turn => turn.parted words) spread
    cases turn with
    | @asked s s' front behind l l' turn =>
      have here : l ∈ front ++ l :: behind := List.mem_append_right _ List.mem_cons_self
      have here' : l' ∈ front ++ l' :: behind := List.mem_append_right _ List.mem_cons_self
      have led := spread'.led l here
      have parted := spread'.all l here
      obtain ⟨-, -, same⟩ :=
        spread'.asked words turn (turn.parted words spread'.sound led parted)
      obtain ⟨-, -, grown⟩ := turn.stays (engine.framed_reach words bound) spread'.sound led
      -- the turn is that of the member with the list, or of another one, which has no part in it
      rcases List.mem_cons.mp (List.perm_middle.mem_iff.mp member) with rfl | other
      · obtain ⟨more, visited'⟩ := visits turn spread'.sound led parted has
        exact ⟨⟨l', here', grown.panes _ has⟩, _, visited.trans visited'⟩
      · refine ⟨⟨m, List.perm_middle.mem_iff.mpr (List.mem_cons_of_mem _ other), has⟩, _,
          visited.trans (.elsewhere (same m other id has) .done)⟩

/-- **A turn of a listing is work on a list that it shows**, or leaves that alone. -/
theorem Reach.Turn.visits (turn : (engine.reach bound).Turn (s, l) (s', l')) (sound : s.Sound)
    (led : l.KnownIn s) (parted : Parted s l) (has : l.Has (.page id)) :
    ∃ visits, Visited engine id visits s s' := by
  induction bound generalizing s s' l l' with
  | zero => exact (not_turn_nowhere turn).elim
  | succ bound ih =>
    have passed {l l' : Listing ν} (led : l.KnownIn s) (parted : Parted s l)
        (has : l.Has (.page id)) (turn : ReflGen (engine.reach bound).Turn (s, l) (s', l')) :
        ∃ visits, Visited engine id visits s s' := by
      rcases turn with _ | turn
      · exact ⟨[], .done⟩
      · exact ih turn sound led parted has
    -- the list is shown by a page, or by one that a listing inside shows; and that has been found
    cases has with
    | page here =>
      cases here
      cases turn.becomes with
      | own own => exact own.elim
      | page turns => exact exists_visited turns
    | inlined has =>
      cases led with
      | inlined _ foundLed =>
        cases parted with
        | simple simple => exact simple.elim
        | inlined _ found =>
          cases turn.becomes with
          | own own => exact own.elim
          | inlined settles =>
            cases settles
            exact ⟨[], .done⟩
          | inner settles turn' =>
            cases settles
            exact passed (foundLed _ rfl) (found _ rfl) has (.single turn')
    | pointee has =>
      cases led with
      | pointee _ _ foundLed =>
        cases parted with
        | simple simple => exact simple.elim
        | pointee found =>
          cases turn.becomes with
          | own own => exact own.elim
          | failure resolved => cases resolved
          | pointee resolved turn' =>
            cases resolved
            exact passed (foundLed _ rfl) (found rfl _ rfl) has turn'
    | group member has =>
      cases led with
      | group _ ledAll =>
        cases parted with
        | simple simple => exact simple.elim
        | group elements all separate =>
          cases turn.becomes with
          | own own => exact own.elim
          | group turns =>
            exact Spread.visits words turns ⟨sound, ledAll, elements, all, separate⟩
              ⟨_, member, has⟩ ih
    | registers here => cases here
    | behind has =>
      cases led with
      | registers ledBehind =>
        cases parted with
        | simple simple => exact simple.elim
        | registers behind =>
          cases turn.becomes with
          | own own => exact own.elim
          | registers turn' => exact passed ledBehind behind has turn'
    | ofChild has =>
      cases led with
      | ofChild _ foundLed =>
        cases parted with
        | simple simple => exact simple.elim
        | ofChild found =>
          cases turn.becomes with
          | own own => exact own.elim
          | unasked => exact ⟨[], .done⟩
          | ofChild resolved turn' =>
            cases resolved
            exact passed (foundLed _ rfl) (found _ rfl) has (.single turn')

end Turns

/-! ## Steps -/

/-- A listing as the engine makes it and as turns leave it. -/
structure Listing.Placed (s : Session σ ν) (l : Listing ν) : Prop where
  sound : s.Sound
  led : l.KnownIn s
  parted : Parted s l

namespace Engine

theorem Lists.yields {P : Session σ ν → Listing ν → Prop} (begins : Begins engine P)
    {v : Variable ν} {act : Run σ ν (Listing ν)} (h : Lists engine v act) : Yields P v act := by
  cases h with
  | own => exact yields_childListing begins v
  | byRule => exact yields_ruleListing begins (yields_childListing begins v)
  | expansion scope expand => exact begins.expansion v scope expand

/-- A listing is placed when it is made. -/
theorem Lists.placed {s₀ : Session σ ν} {v : Variable ν} {act : Run σ ν (Listing ν)}
    (h : Lists engine v act) (sound : s₀.Sound) (led : v.KnownIn s₀) :
    Placed (act s₀).2 (act s₀).1 := by
  obtain ⟨sound', -, led'⟩ := ensures_lift_iff.mp (h.stays led s₀ sound rfl)
  exact ⟨sound', led', ensures_lift_iff.mp (h.yields engine.begins_parted s₀ sound led)⟩

/-- **A step while someone holds a listing**: it is asked; or it is the listing of an
expansion and is given a limit of its own; or there is work elsewhere, by which the
lists that it shows are only asked. If no limit may change, those lists look for no
more children than before. -/
inductive Occurs (engine : Engine σ ν) (raises : Prop) :
    Session σ ν × Listing ν → Session σ ν × Listing ν → Prop
  | asked {s s' : Session σ ν} {l l' : Listing ν} {bound : Nat}
      (turn : (engine.reach bound).Turn (s, l) (s', l')) : Occurs engine raises (s, l) (s', l')
  | limit {s : Session σ ν} {owner : Variable ν} {members : List (Listing ν)}
      {hideRawView : Bool} {limit limit' : Nat} (may : raises) :
      Occurs engine raises (s, .group owner members hideRawView limit)
        (s, .group owner members hideRawView limit')
  | elsewhere {s s' : Session σ ν} {l : Listing ν} {α : Type} {act : Search σ ν α} {a : α}
      (stays : Stays .known s.listings.size act fun _ _ => True) (ended : act s = .ok (a, s'))
      (visited : ∀ id, l.Has (.page id) → ∃ visits, Visited engine id visits s s')
      (limits : raises ∨ ∀ id, l.Has (.page id) → (s'.kept id).limit = (s.kept id).limit) :
      Occurs engine raises (s, l) (s', l)

section Steps

variable {raises : Prop} (words : ∀ p, engine.options.get p < wordCount)

include words

/-- Asked, a listing stays placed. -/
theorem placed_of_turn {bound : Nat} (turn : (engine.reach bound).Turn (s, l) (s', l'))
    (placed : Placed s l) : Placed s' l' := by
  obtain ⟨sound', -, grown⟩ :=
    turn.stays (engine.framed_reach words bound) placed.sound placed.led
  exact ⟨sound', grown.within, turn.parted words placed.sound placed.led placed.parted⟩

omit words in
/-- A limit of its own does not matter to the listing of an expansion. -/
theorem placed_limit {owner : Variable ν} {members : List (Listing ν)} {hideRawView : Bool}
    {limit : Nat} (limit' : Nat) (placed : Placed s (.group owner members hideRawView limit)) :
    Placed s (.group owner members hideRawView limit') := by
  obtain ⟨sound, led, parted⟩ := placed
  refine ⟨sound, ?_, ?_⟩
  · cases led with
    | group owner inner => exact .group owner inner
  · cases parted with
    | simple simple => exact simple.elim
    | group elements all separate => exact .group elements all separate

omit words in
theorem placed_elsewhere {α : Type} {act : Search σ ν α} {a : α}
    (stays : Stays .known s.listings.size act fun _ _ => True) (ended : act s = .ok (a, s'))
    (placed : Placed s l) : Placed s' l := by
  obtain ⟨sound', frame, -⟩ := stays s placed.sound rfl _ _ ended
  exact ⟨sound', placed.led.mono fun id inside => Nat.lt_of_lt_of_le inside frame.size,
    placed.parted.frame frame⟩

/-- Whatever occurs, a listing that is held stays placed. -/
theorem Occurs.placed (h : Occurs engine raises (s, l) (s', l')) (placed : Placed s l) :
    Placed s' l' := by
  cases h with
  | asked turn => exact placed_of_turn words turn placed
  | limit may => exact placed_limit _ placed
  | elsewhere stays ended => exact placed_elsewhere stays ended placed

theorem Work.placed {watched : Listing ν → Nat → Prop}
    (h : Work engine watched (s, l) (s', l')) (placed : Placed s l) : Placed s' l' := by
  cases h with
  | count ended => exact placed_of_turn words (.count ended) placed
  | rows ended => exact placed_of_turn words (.rows ended) placed
  | isSound ended => exact placed_of_turn words (.isSound ended) placed
  | limit => exact placed_limit _ placed
  | elsewhere stays ended => exact placed_elsewhere stays ended placed

/-- Whatever occurs, lists that were short of rows are so still. -/
theorem Occurs.keepsShort (h : Occurs engine raises (s, l) (s', l')) (placed : Placed s l) :
    s.KeepsShort s' := by
  cases h with
  | @asked _ _ _ _ bound turn =>
    exact (turn.stays (engine.framed_reach words bound) placed.sound placed.led).2.1.short
  | limit may => exact .refl s
  | elsewhere stays ended =>
    obtain ⟨-, frame, -⟩ := stays s placed.sound rfl _ _ ended
    exact frame.short

/-- **What a listing holds lasts** while no limit changes. -/
theorem Occurs.upholds (h : Occurs engine False (s, l) (s', l')) (placed : Placed s l)
    (since : s₀.KeepsShort s) (d : Inspector σ ν) (bound : Nat) :
    Upholds d s₀ bound s s' l l' := by
  cases h with
  | asked turn => exact turn.upholds words placed.sound placed.led placed.parted since d bound
  | limit may => exact may.elim
  | elsewhere stays ended visited limits =>
    refine upholds_of_kept since fun id has => ?_
    obtain ⟨visits, visited⟩ := visited id has
    exact (visited.endures words (placed.sound.valid id)).2 (limits.resolve_left not_false id has)

/-- What occurs is work on a list that the listing shows, or leaves that alone. -/
theorem Occurs.visits (h : Occurs engine raises (s, l) (s', l')) (placed : Placed s l)
    (has : l.Has (.page id)) : l'.Has (.page id) ∧ ∃ visits, Visited engine id visits s s' := by
  cases h with
  | @asked _ _ _ _ bound turn =>
    obtain ⟨-, -, grown⟩ :=
      turn.stays (engine.framed_reach words bound) placed.sound placed.led
    exact ⟨grown.panes _ has, turn.visits words placed.sound placed.led placed.parted has⟩
  | limit may => exact ⟨has_group_iff.mpr (has_group_iff.mp has), [], .done⟩
  | elsewhere stays ended visited => exact ⟨has, visited id has⟩

/-! ## Runs -/

variable {p q : Session σ ν × Listing ν}

theorem placed_work {watched : Listing ν → Nat → Prop} (run : ReflTransGen (Work engine watched) p q)
    (placed : Placed p.1 p.2) : Placed q.1 q.2 := by
  induction run with
  | refl => exact placed
  | tail _ step ih => exact step.placed words ih

theorem upholds_run (run : ReflTransGen (Occurs engine False) p q) (placed : Placed p.1 p.2)
    (d : Inspector σ ν) (bound : Nat) : Upholds d p.1 bound p.1 q.1 p.2 q.2 := by
  suffices h : Placed q.1 q.2 ∧ p.1.KeepsShort q.1 ∧ Upholds d p.1 bound p.1 q.1 p.2 q.2 from h.2.2
  induction run with
  | refl => exact ⟨placed, .refl p.1, .refl d p.1 bound p.1 p.2⟩
  | tail _ step ih =>
    obtain ⟨placed, since, upheld⟩ := ih
    exact ⟨step.placed words placed,
      fun id short => step.keepsShort words placed id (since id short),
      upheld.trans (step.upholds words placed since d bound)⟩

theorem visited_run (run : ReflTransGen (Occurs engine raises) p q) (placed : Placed p.1 p.2)
    (has : p.2.Has (.page id)) : ∃ visits, Visited engine id visits p.1 q.1 := by
  suffices h : Placed q.1 q.2 ∧ q.2.Has (.page id) ∧ ∃ visits, Visited engine id visits p.1 q.1 from
    h.2.2
  induction run with
  | refl => exact ⟨placed, has, [], .done⟩
  | tail _ step ih =>
    obtain ⟨placed, has, visits, visited⟩ := ih
    obtain ⟨has', more, visited'⟩ := step.visits words placed has
    exact ⟨step.placed words placed, has', _, visited.trans visited'⟩

end Steps

/-! ## Served again -/

/-- **A window is served from what is kept**: whatever evaluates expressions, it is found
and nothing changes. What it shows now is held beside the rows it showed in the session
`s₀`: the same rows, up to those of raw values that are made anew, but for rows of raw
values that their groups hid. If no list that the listing shows has turned out to be short
since, there are none of these. -/
def Served (engine : Engine σ ν) (s₀ : Session σ ν) (bound start count : Nat)
    (rows : List (Variable ν)) (s : Session σ ν) (l : Listing ν) : Prop :=
  ∀ engine' : Engine σ ν, engine'.inspector = engine.inspector → ∃ rows',
    engine'.rows bound l start count s = .ok ((rows', l), s) ∧
      Held engine.inspector s₀ s bound l start count rows rows' ∧
      ((∀ id, l.Has (.page id) → ¬ (s₀.kept id).TurnsShort (s.kept id)) →
        Renewed engine.inspector rows rows')

theorem served_of_held {bound start count : Nat} {rows rows' : List (Variable ν)}
    (held : Held engine.inspector s₀ s bound l start count rows rows') :
    engine.Served s₀ bound start count rows s l := by
  intro engine' same
  obtain ⟨given, ended, now⟩ := held.again same
  exact ⟨given, ended, now, now.renewed⟩

section Again

variable (words : ∀ p, engine.options.get p < wordCount)

include words

/-- A window of a list that pages share is served again while no limit changes. -/
theorem withKept_again {bound start count : Nat} {rows : List (Variable ν)} {s₁ s₂ : Session σ ν}
    {visits : List (Session σ ν × Session σ ν)} (valid : (s.kept id).Valid)
    (inside : id < s.listings.size)
    (ended : withKept id (fun l => engine.rows bound l start count) s = .ok (rows, s₁))
    (between : Visited engine id visits s₁ s₂)
    (limit : (s₂.kept id).limit = (s₁.kept id).limit) (engine' : Engine σ ν) :
    withKept id (fun l => engine'.rows bound l start count) s₂ = .ok (rows, s₂) := by
  cases bound with
  | zero =>
    have none : Ensures (withKept id fun l => engine.rows 0 l start count) s fun _ _ => False :=
      ensures_withKept ensures_unfinished
    exact (none _ _ ended).elim
  | succ bound =>
    have leaf : (s.kept id).IsLeaf := .inr valid
    have first : Ensures (withKept id fun l => engine.rows (bound + 1) l start count) s
        fun rows s₁ => (s₁.kept id).Valid ∧
          (s₁.kept id).Supplies (engine.reach bound).bound start count rows := by
      refine ensures_withKept fun r s₁ ended => ?_
      obtain ⟨same, onward⟩ := (engine.asks_reach words (bound + 1)).turn (.rows ended) valid
      rw [Session.kept_put same id r.2, if_pos ⟨rfl, inside⟩]
      exact ⟨onward.valid, (leaf.ensures_supplies words _ start count s _ _ ended).1⟩
    obtain ⟨valid₁, here⟩ := first _ _ ended
    have here₂ := ((between.endures words valid₁).2 limit).supplies _ _ _ _ here
    rw [bound_reach, ← bound_reach engine'] at here₂
    exact withKept_same (here₂.again engine' s₂)

variable {v : Variable ν} {act : Run σ ν (Listing ν)}

/-- **Reads are served from what is kept.** Someone holds a listing that the engine made
for a variable. A window of it that was asked for is served again without any evaluation
of an expression, at once and as long as no limit is changed. At once the rows are the
same, up to those of raw values that are made anew. Later there may be one more behind
the children of a group: the row of its raw value, if the group was to hide it, and a custom
list with a declared size among its elements has turned out to fail in between. The same
is true of the lists that pages share.

All that is done with a list that a page of the listing shows are visits, and these make
no row of an index list or of an array twice. -/
theorem served_again (sound : s₀.Sound) (led : v.KnownIn s₀) (lists : Lists engine v act)
    (before : ReflTransGen (Work engine fun _ _ => False) ((act s₀).2, (act s₀).1) (s, l)) :
    (∀ bound start count rows l₁ s₁,
      engine.rows bound l start count s = .ok ((rows, l₁), s₁) →
        ∀ l₂ s₂, ReflTransGen (Occurs engine False) (s₁, l₁) (s₂, l₂) →
          engine.Served s₁ bound start count rows s₂ l₂) ∧
    (∀ id bound start count rows s₁, id < s.listings.size →
      withKept id (fun l => engine.rows bound l start count) s = .ok (rows, s₁) →
        ∀ visits s₂, Visited engine id visits s₁ s₂ →
          (s₂.kept id).limit = (s₁.kept id).limit → ∀ engine' : Engine σ ν,
            withKept id (fun l => engine'.rows bound l start count) s₂ = .ok (rows, s₂)) ∧
    (∀ id l' s', l.Has (.page id) → ReflTransGen (Occurs engine True) (s, l) (s', l') →
      ∃ visits, Visited engine id visits s s') ∧
    ∀ id visits s', (s.kept id).HasElements → Visited engine id visits s s' →
      ∃ made : List (List Nat), List.Forall₂ (fun visit is => Listing.Makes engine.evaluator
          (visit.1.kept id, visit.1.target) is (visit.2.kept id, visit.2.target)) visits made ∧
        made.flatten.Nodup ∧ ∀ i ∈ made.flatten, (s.kept id).keptRows.row? i = none := by
  have placed : Placed s l := placed_work words before (lists.placed sound led)
  refine ⟨fun bound start count rows l₁ s₁ ended l₂ s₂ between => ?_, ?_, ?_, ?_⟩
  -- what was shown is held from then on, whatever comes between the two windows
  · obtain ⟨rows', held⟩ := (engine.gathers_reach words bound).rows s l start count
      placed.sound placed.led placed.parted _ _ ended
    have placed₁ : Placed s₁ l₁ := placed_of_turn words (.rows ended) placed
    obtain ⟨rows'', held₂⟩ :=
      (upholds_run words between placed₁ engine.inspector bound).rows _ _ _ _ held
    exact served_of_held held₂
  · intro id bound start count rows s₁ inside ended visits s₂ between limit engine'
    exact withKept_again words (placed.sound.valid id) inside ended between limit engine'
  · exact fun id l' s' has run => visited_run words run placed has
  · exact fun id visits s' elements visited => visited.makes_once elements

end Again

end Engine

end Holding

/-! ## Three elements -/

namespace Counting

/-- A debugger that counts what it evaluates. All values read three. -/
def debugger : Debugger Nat Nat where
  facts _ _ := { name := "it", typeName := "It", isTruthy := true, hierarchy := [] }
  pointee? _ _ := none
  snapshot? _ _ _ := none
  text _ _ _ := "3"
  mightHaveChildren _ _ := false
  children _ _ := []
  fast _ _ _ _ := fun n => (.ok n, n + 1)
  full _ _ _ := pure (.error "")
  path _ _ := pure none

/-- The engine. -/
def engine : Engine Nat Nat := ⟨debugger, {}⟩

/-- The session before anything was evaluated. -/
def session : Session Nat Nat where
  target := 0
  book := { catalogue := {} }

/-- The variable. -/
def it : Variable Nat := .debugger 0

/-- The listing of an index list with three elements. -/
def elements : Run Nat Nat (Listing Nat) :=
  engine.expandListing ⟨it, {}⟩
    { items := [.indexList
        { sizes := [{ value := "size" }], valueNodes := [{ value := "it" }] }] }

/-- The size and two elements are evaluated for the first window. For the second, which
begins with the last of these, one more element is; and then the first is served again.
No element was made twice on the way. -/
theorem served_elements :
    ∃ rows l₁ s₁ rows₂ l₂ s₂,
      engine.rows 4 (elements session).1 0 2 (elements session).2 = .ok ((rows, l₁), s₁) ∧
      engine.rows 4 l₁ 1 3 s₁ = .ok ((rows₂, l₂), s₂) ∧ s₁.target = 3 ∧ s₂.target = 4 ∧
      engine.Served s₁ 4 0 2 rows s₁ l₁ ∧ engine.Served s₁ 4 0 2 rows s₂ l₂ ∧
      ∃ visits made, Visited engine 0 visits (elements session).2 s₂ ∧
        List.Forall₂ (fun visit is => Listing.Makes engine.evaluator
          (visit.1.kept 0, visit.1.target) is (visit.2.kept 0, visit.2.target)) visits made ∧
        made.flatten.Nodup := by
  have words (p : Property) : engine.options.get p < wordCount := by
    cases p <;> decide
  have led : it.KnownIn session := trivial
  have lists : Engine.Lists engine it elements := .expansion {} _
  have first : (engine.rows 4 (elements session).1 0 2 (elements session).2).map
      (fun r => r.2.target) = .ok 3 := by
    decide +kernel
  have second : ((engine.rows 4 (elements session).1 0 2 (elements session).2).bind fun r =>
      (engine.rows 4 r.1.2 1 3 r.2).map fun r => r.2.target) = .ok 4 := by
    decide +kernel
  obtain ⟨⟨⟨rows, l₁⟩, s₁⟩, ended, three⟩ := Bounded.map_eq_ok_iff.mp first
  rw [ended] at second
  obtain ⟨⟨⟨rows₂, l₂⟩, s₂⟩, ended₂, four⟩ := Bounded.map_eq_ok_iff.mp second
  have turn : (engine.reach 4).Turn ((elements session).2, (elements session).1) (s₁, l₁) :=
    .rows ended
  have turn₂ : (engine.reach 4).Turn (s₁, l₁) (s₂, l₂) := .rows ended₂
  obtain ⟨again, -, visited, once⟩ :=
    Engine.served_again words (Session.sound_of_empty rfl) led lists .refl
  have served := again 4 0 2 rows l₁ s₁ ended
  have shows : (elements session).1.Has (.page 0) := .group List.mem_cons_self (.page rfl)
  obtain ⟨visits, visits_⟩ :=
    visited 0 l₂ s₂ shows (.tail (.single (.asked turn)) (.asked turn₂))
  obtain ⟨made, makes, nodup, -⟩ := once 0 visits s₂ trivial visits_
  exact ⟨rows, l₁, s₁, rows₂, l₂, s₂, ended, ended₂, three, four, served l₁ s₁ .refl,
    served l₂ s₂ (.single (.asked turn₂)), visits, made, visits_, makes, nodup⟩

end Counting

/-! ## A raw value that comes up -/

namespace Fickle

/-- The names of the rows in a window, and the limit of the list that is kept first. -/
def namesAndLimit (l : Listing Bool) (start count : Nat) :
    Search Bool Bool ((List String × Nat) × Listing Bool) := do
  let (rows, l) ← engine.rows 20 l start count
  let s ← get
  return ((rows.map fun v => (v.facts engine.inspector s.target).name, (s.kept 0).limit), l)

/-- The window behind the elements of a list that fails, before and after the elements are
asked for. -/
def repeated : Search Bool Bool ((List String × Nat) × List String × Nat) := do
  let (before, l) ← namesAndLimit (← short) 3 1
  let (_, l) ← namesAndLimit l 0 3
  let (after, _) ← namesAndLimit l 3 1
  return (before, after)

/-- **A window may show more when it is repeated.** Behind the three elements that the list
declares there is no row, since the raw value is hidden. The second of them cannot be
evaluated; so after they were asked for the window shows the raw value, at the same limit. -/
theorem rows_of_repeated :
    (repeated session).map Prod.fst = .ok (([], 4), [Variable.rawViewName], 4) := by
  decide +kernel

end Fickle

end WatchView
