import WatchView.Proofs.Listing.Course
import WatchView.Proofs.Listing.Turns
/-!
# The rows of elements

An index list or an array evaluates the expression of an element when a window
asks for its row, and keeps the row. `Makes` is a record of all that such a list
asks the debugger: it is settled once, and makes rows. No position is in it
twice, however many pages show the list and however many windows they are asked
for (`Visited.makes_once`).
-/

namespace WatchView

open Bounded Relation

variable {σ ν : Type}

/-- A list that is settled keeps what it kept. -/
theorem IndexListing.kept_settled {ev : Evaluator σ ν} {l l' : IndexListing ν} {st : Standing ν}
    {t t' : σ} (settled : l.settled ev t = ((st, l'), t')) : l'.kept = l.kept := by
  have ensured : Ensures (liftM (l.settled ev) : Bounded σ _) t fun r _ => r.2.kept = l.kept := by
    unfold IndexListing.settled
    split
    · exact ensures_lift_pure_iff.mpr rfl
    · refine ensures_lift_bind_iff.mpr ((Standing.ensures_lift_settle (G := (· = l))
        (K := fun _ _ => True) rfl (fun _ _ => trivial) fun t' => ?_).mono fun r t' h => ?_)
      · exact ensures_lift_bind_iff.mpr ((ensures_true _ _).mono fun r t'' _ =>
          ensures_lift_pure_iff.mpr ⟨rfl, fun _ _ => trivial⟩)
      · obtain ⟨_, _⟩ := r
        obtain ⟨rfl, -⟩ := h
        exact ensures_lift_pure_iff.mpr rfl
  exact ensured _ _ (congrArg Except.ok settled)

theorem ArrayListing.kept_settled {ev : Evaluator σ ν} {l l' : ArrayListing ν} {st : Standing ν}
    {t t' : σ} (settled : l.settled ev t = ((st, l'), t')) : l'.kept = l.kept := by
  have ensured : Ensures (liftM (l.settled ev) : Bounded σ _) t fun r _ => r.2.kept = l.kept := by
    unfold ArrayListing.settled
    split
    · exact ensures_lift_pure_iff.mpr rfl
    · refine ensures_lift_bind_iff.mpr ((Standing.ensures_lift_settle (G := (·.kept = l.kept))
        (K := fun _ _ => True) rfl (fun _ _ => trivial) fun t' => ?_).mono fun r t' h => ?_)
      · refine (l.ensures_count ev t').mono fun r t'' h => ⟨?_, fun _ _ => trivial⟩
        obtain ⟨pointer, same⟩ := h.1
        rw [same]
      · exact ensures_lift_pure_iff.mpr h.1
  exact ensured _ _ (congrArg Except.ok settled)

namespace Listing

/-- The rows a list of elements keeps. -/
def keptRows : Listing ν → Kept ν
  | indexList l => l.kept
  | array l => l.kept
  | _ => []

/-- `Makes ev c is c'`: an index list or an array and the debugger go from `c` to
`c'`, and the rows of these positions are made on the way. -/
inductive Makes (ev : Evaluator σ ν) : Listing ν × σ → List Nat → Listing ν × σ → Prop
  | rests {c : Listing ν × σ} : Makes ev c [] c
  /-- An index list that has no standing is settled. -/
  | settlesIndex {l l' : IndexListing ν} {st : Standing ν} {t t' : σ} {is : List Nat}
      {c : Listing ν × σ} (fresh : l.standing = none) (settled : l.settled ev t = ((st, l'), t'))
      (others : Makes ev (.indexList l', t') is c) : Makes ev (.indexList l, t) is c
  /-- And so is an array, with its pointer chosen. -/
  | settlesArray {l l' : ArrayListing ν} {st : Standing ν} {t t' : σ} {is : List Nat}
      {c : Listing ν × σ} (fresh : l.standing = none) (settled : l.settled ev t = ((st, l'), t'))
      (others : Makes ev (.array l', t') is c) : Makes ev (.array l, t) is c
  /-- A row that is not kept is made from the expression for its index. -/
  | index {l : IndexListing ν} {i : Nat} {row : Variable ν} {t t' : σ} {is : List Nat}
      {c : Listing ν × σ} (fresh : l.kept.row? i = none) (made : l.rowAt ev i t = (row, t'))
      (others : Makes ev (.indexList { l with kept := (i, row) :: l.kept }, t') is c) :
      Makes ev (.indexList l, t) (i :: is) c
  /-- And so is one from the pointer of an array. -/
  | element {l : ArrayListing ν} {pointer : String} {i : Nat} {row : Variable ν} {t t' : σ}
      {is : List Nat} {c : Listing ν × σ} (chosen : l.pointer = some pointer)
      (fresh : l.kept.row? i = none)
      (made : l.context.row ev (ArrayListing.elementOf pointer i) (positionName i) t = (row, t'))
      (others : Makes ev (.array { l with kept := (i, row) :: l.kept }, t') is c) :
      Makes ev (.array l, t) (i :: is) c

/-- A list of elements. -/
def HasElements : Listing ν → Prop
  | indexList _ => True
  | array _ => True
  | _ => False

variable {ev : Evaluator σ ν} {c c' c'' : Listing ν × σ} {is is' : List Nat}

theorem Makes.trans (h : Makes ev c is c') (h' : Makes ev c' is' c'') :
    Makes ev c (is ++ is') c'' := by
  induction h with
  | rests => exact h'
  | settlesIndex fresh settled _ ih => exact .settlesIndex fresh settled (ih h')
  | settlesArray fresh settled _ ih => exact .settlesArray fresh settled (ih h')
  | index fresh made _ ih => exact .index fresh made (ih h')
  | element chosen fresh made _ ih => exact .element chosen fresh made (ih h')

/-- **Rows that are kept stay**, and none is made again. -/
theorem Makes.once (h : Makes ev c is c') :
    Course.KeepsOn c.1.keptRows c'.1.keptRows ∧ is.Nodup ∧
      ∀ i ∈ is, c.1.keptRows.row? i = none := by
  induction h with
  | rests => exact ⟨fun _ _ h => h, .nil, List.forall_mem_nil _⟩
  | settlesIndex _ settled _ ih =>
    have same := IndexListing.kept_settled settled
    simp only [keptRows, same] at ih ⊢
    exact ih
  | settlesArray _ settled _ ih =>
    have same := ArrayListing.kept_settled settled
    simp only [keptRows, same] at ih ⊢
    exact ih
  | index fresh _ _ ih => exact Course.once_cons fresh ih
  | element _ fresh _ _ ih => exact Course.once_cons fresh ih

/-- A row that is made is kept. -/
theorem Makes.kept (h : Makes ev c is c') {i : Nat} (made : i ∈ is) :
    ∃ row, c'.1.keptRows.row? i = some row := by
  induction h with
  | rests => cases made
  | settlesIndex _ _ _ ih => exact ih made
  | settlesArray _ _ _ ih => exact ih made
  | @index _ j row _ _ _ _ _ _ others ih =>
    rcases List.mem_cons.mp made with rfl | made
    · exact ⟨row, others.once.1 i row (by rw [keptRows, Course.row?_cons, if_pos rfl])⟩
    · exact ih made
  | @element _ _ j row _ _ _ _ _ _ _ others ih =>
    rcases List.mem_cons.mp made with rfl | made
    · exact ⟨row, others.once.1 i row (by rw [keptRows, Course.row?_cons, if_pos rfl])⟩
    · exact ih made

/-! ## What the functions make -/

/-- Rows at positions are kept when they were asked for. Those that were not kept
before were made one by one. -/
theorem ensures_rowsAt_made {make : Nat → StateM σ (Variable ν)}
    {W : Kept ν × σ → List Nat → Kept ν × σ → Prop} (rests : ∀ c, W c [] c)
    (made : ∀ {kept : Kept ν} {i : Nat} {row : Variable ν} {t t' : σ} {is : List Nat}
      {c : Kept ν × σ}, kept.row? i = none → make i t = (row, t') →
      W ((i, row) :: kept, t') is c → W (kept, t) (i :: is) c)
    (positions : List Nat) (kept : Kept ν) (t : σ) :
    Ensures (liftM (kept.rowsAt make positions) : Bounded σ _) t fun r t' =>
      (∃ is, W (kept, t) is (r.2, t')) ∧ Course.KeepsOn kept r.2 ∧
        List.Forall₂ (fun i row => r.2.row? i = some row) positions r.1 := by
  induction positions generalizing kept t with
  | nil =>
    rw [Kept.rowsAt]
    exact ensures_lift_pure_iff.mpr ⟨⟨[], rests _⟩, fun _ _ h => h, .nil⟩
  | cons i is ih =>
    rw [Kept.rowsAt]
    split
    · rename_i row here
      refine ensures_lift_bind_iff.mpr ((ih kept t).mono fun r t' h => ?_)
      obtain ⟨works, on, all⟩ := h
      exact ensures_lift_pure_iff.mpr ⟨works, on, .cons (on i row here) all⟩
    · rename_i fresh
      refine ensures_lift_bind_iff.mpr (ensures_lift_iff.mpr ?_)
      rcases first : make i t with ⟨row, t₁⟩
      have here : Kept.row? ((i, row) :: kept) i = some row := by
        rw [Course.row?_cons, if_pos rfl]
      refine ensures_lift_bind_iff.mpr ((ih ((i, row) :: kept) t₁).mono fun r t' h => ?_)
      obtain ⟨⟨more, works⟩, on, all⟩ := h
      exact ensures_lift_pure_iff.mpr ⟨⟨_, made fresh first works⟩,
        fun j v old => on j v (Course.keepsOn_cons fresh row j v old), .cons (on i row here) all⟩

section Functions

variable (ev : Evaluator σ ν)

theorem makes_settled_indexList (l : IndexListing ν) (t : σ) :
    Ensures (liftM (l.settled ev) : Bounded σ _) t fun r t' =>
      Makes ev (.indexList l, t) [] (.indexList r.2, t') := by
  cases standing : l.standing with
  | none => exact ensures_lift_iff.mpr (.settlesIndex standing rfl .rests)
  | some st =>
    rw [IndexListing.settled_of_standing ev standing]
    exact ensures_lift_pure_iff.mpr .rests

theorem makes_settled_array (l : ArrayListing ν) (t : σ) :
    Ensures (liftM (l.settled ev) : Bounded σ _) t fun r t' =>
      Makes ev (.array l, t) [] (.array r.2, t') := by
  cases standing : l.standing with
  | none => exact ensures_lift_iff.mpr (.settlesArray standing rfl .rests)
  | some st =>
    rw [ArrayListing.settled_of_standing ev standing]
    exact ensures_lift_pure_iff.mpr .rests

theorem makes_rows_indexList (l : IndexListing ν) (start count : Nat) (t : σ) :
    Ensures (liftM (l.rows ev start count) : Bounded σ _) t fun r t' =>
      ∃ is, Makes ev (.indexList l, t) is (.indexList r.2, t') := by
  unfold IndexListing.rows
  refine ensures_lift_bind_iff.mpr ((makes_settled_indexList ev l t).mono fun r t₁ settled => ?_)
  obtain ⟨st, l₁⟩ := r
  cases st with
  | failed row => exact ensures_lift_pure_iff.mpr ⟨_, settled⟩
  | counted n =>
    refine ensures_lift_bind_iff.mpr ((ensures_rowsAt_made (W := fun p is q =>
      Makes ev (.indexList { l₁ with kept := p.1 }, p.2) is (.indexList { l₁ with kept := q.1 }, q.2))
        (fun _ => .rests) (fun fresh made others => .index fresh made others) _ _ t₁).mono
          fun r t₂ h => ?_)
    obtain ⟨⟨is, works⟩, -⟩ := h
    exact ensures_lift_pure_iff.mpr ⟨_, settled.trans works⟩

theorem makes_rows_array (l : ArrayListing ν) (start count : Nat) (t : σ) :
    Ensures (liftM (l.rows ev start count) : Bounded σ _) t fun r t' =>
      ∃ is, Makes ev (.array l, t) is (.array r.2, t') := by
  unfold ArrayListing.rows
  refine ensures_lift_bind_iff.mpr ((makes_settled_array ev l t).mono fun r t₁ settled => ?_)
  obtain ⟨st, l₁⟩ := r
  cases st with
  | failed row => exact ensures_lift_pure_iff.mpr ⟨_, settled⟩
  | counted n =>
    obtain ⟨c, rule, standing, pointer, kept⟩ := l₁
    cases pointer with
    | none => exact ensures_lift_pure_iff.mpr ⟨_, settled⟩
    | some pointer =>
      refine ensures_lift_bind_iff.mpr ((ensures_rowsAt_made (W := fun p is q =>
        Makes ev (.array ⟨c, rule, standing, some pointer, p.1⟩, p.2) is
          (.array ⟨c, rule, standing, some pointer, q.1⟩, q.2)) (fun _ => .rests)
            (fun fresh made others => .element rfl fresh made others) _ _ t₁).mono
              fun r t₂ h => ?_)
      obtain ⟨⟨is, works⟩, -⟩ := h
      exact ensures_lift_pure_iff.mpr ⟨_, settled.trans works⟩

end Functions

/-- A list of elements that answers asks the debugger for that and for nothing else. -/
theorem exists_makes_of_answering {α β κ : Type} {ev : Evaluator σ ν} {wrap : κ → Listing ν}
    {answer : α → β} {act : StateM σ (α × κ)} {s s' : Session σ ν} {l l' : Listing ν} {b : β}
    (own : ∀ k, (wrap k).HasElements)
    (makes : Ensures (liftM act : Bounded σ _) s.target fun r t =>
      ∃ is, Makes ev (l, s.target) is (wrap r.2, t))
    (ended : answering wrap answer (liftM act) s = .ok ((b, l'), s')) :
    (∃ is, Makes ev (l, s.target) is (l', s'.target)) ∧ l'.HasElements ∧
      s'.listings = s.listings :=
  ensures_answering (P := fun r s' => (∃ is, Makes ev (l, s.target) is (r.2, s'.target)) ∧
    r.2.HasElements ∧ s'.listings = s.listings)
    (ensures_target_iff.mpr (makes.mono fun r _ h => ⟨h, own r.2, rfl⟩)) _ _ ended

/-- **All that a list of elements asks the debugger in a turn** is in the record. -/
theorem HasElements.turn {engine : Engine σ ν} {bound : Nat} {s s' : Session σ ν} {l l' : Listing ν}
    (elements : l.HasElements) (turn : (engine.reach bound).Turn (s, l) (s', l')) :
    (∃ is, Makes engine.evaluator (l, s.target) is (l', s'.target)) ∧ l'.HasElements ∧
      s'.listings = s.listings := by
  cases bound with
  | zero => exact (Reach.not_turn_nowhere turn).elim
  | succ bound =>
    cases l with
    | indexList l =>
      have own (l : IndexListing ν) : (indexList l).HasElements := trivial
      have settles : Ensures (liftM (l.settled engine.evaluator) : Bounded σ _) s.target fun r t =>
          ∃ is, Makes engine.evaluator (indexList l, s.target) is (indexList r.2, t) :=
        (makes_settled_indexList engine.evaluator l s.target).mono fun _ _ h => ⟨[], h⟩
      cases turn with
      | count ended => exact exists_makes_of_answering own settles ended
      | rows ended => exact exists_makes_of_answering own (makes_rows_indexList _ l _ _ _) ended
      | isSound ended => exact exists_makes_of_answering own settles ended
    | array l =>
      have own (l : ArrayListing ν) : (array l).HasElements := trivial
      have settles : Ensures (liftM (l.settled engine.evaluator) : Bounded σ _) s.target fun r t =>
          ∃ is, Makes engine.evaluator (array l, s.target) is (array r.2, t) :=
        (makes_settled_array engine.evaluator l s.target).mono fun _ _ h => ⟨[], h⟩
      cases turn with
      | count ended => exact exists_makes_of_answering own settles ended
      | rows ended => exact exists_makes_of_answering own (makes_rows_array _ l _ _ _) ended
      | isSound ended => exact exists_makes_of_answering own settles ended
    | _ => exact elements.elim

/-! ## Visits -/

variable {engine : Engine σ ν} {id bound : Nat} {s s' s'' : Session σ ν}
  {visits visits' : List (Session σ ν × Session σ ν)}

/-- **All that is done with a kept list while a session goes on**: it is asked
through pages that show it, each time from one session to another, and in between
there is work that leaves it alone. -/
inductive Visited (engine : Engine σ ν) (id : Nat) :
    List (Session σ ν × Session σ ν) → Session σ ν → Session σ ν → Prop
  | done {s : Session σ ν} : Visited engine id [] s s
  | visit {s s₁ s₂ : Session σ ν} {visits : List (Session σ ν × Session σ ν)}
      {bound offset size : Nat} (turn : PageTurn (engine.reach bound) id offset size s s₁)
      (others : Visited engine id visits s₁ s₂) : Visited engine id ((s, s₁) :: visits) s s₂
  | elsewhere {s s₁ s₂ : Session σ ν} {visits : List (Session σ ν × Session σ ν)}
      (same : s₁.kept id = s.kept id) (others : Visited engine id visits s₁ s₂) :
      Visited engine id visits s s₂

theorem Visited.trans (h : Visited engine id visits s s') (h' : Visited engine id visits' s' s'') :
    Visited engine id (visits ++ visits') s s'' := by
  induction h with
  | done => exact h'
  | visit turn _ ih => exact .visit turn (ih h')
  | elsewhere same _ ih => exact .elsewhere same (ih h')

/-- The visits of a page. -/
theorem exists_visited {id offset size : Nat}
    (turns : ReflTransGen (PageTurn (engine.reach bound) id offset size) s s') :
    ∃ visits, Visited engine id visits s s' := by
  induction turns with
  | refl => exact ⟨[], .done⟩
  | tail _ turn ih =>
    obtain ⟨visits, visited⟩ := ih
    exact ⟨_, visited.trans (.visit turn .done)⟩

theorem HasElements.raisedFor {l : Listing ν} (elements : l.HasElements) (offset size : Nat) :
    l.raisedFor offset size = l := by
  refine raisedFor_eq_self_iff.mpr fun _ => ?_
  cases l with
  | _ => first | exact elements.elim | rfl

/-- What a list of elements makes when it is asked through a page. -/
theorem HasElements.visit (elements : (s.kept id).HasElements) {offset size : Nat}
    (turn : PageTurn (engine.reach bound) id offset size s s') :
    (∃ is, Makes engine.evaluator (s.kept id, s.target) is (s'.kept id, s'.target)) ∧
      (s'.kept id).HasElements := by
  have inside : id < s.listings.size := by
    by_contra outside
    rw [Session.kept_of_le (Nat.le_of_not_lt outside)] at elements
    exact elements
  cases turn with
  | @asked s' l l' here turn =>
    obtain rfl : l = s.kept id := by
      rcases here with rfl | ⟨-, rfl⟩
      · rfl
      · exact elements.raisedFor offset size
    obtain ⟨makes, elements', same⟩ := elements.turn turn
    have kept := Session.kept_put same id l' id
    rw [if_pos ⟨rfl, inside⟩] at kept
    rw [kept]
    exact ⟨makes, elements'⟩

/-- **No row of an element is made twice**, whatever windows of a list of elements are
asked for, through whatever pages, and whatever is done in between. The rows that
each visit makes are in the record, and none of them was kept at first. -/
theorem Visited.makes_once (h : Visited engine id visits s s')
    (elements : (s.kept id).HasElements) :
    ∃ made : List (List Nat), List.Forall₂ (fun visit is => Makes engine.evaluator
        (visit.1.kept id, visit.1.target) is (visit.2.kept id, visit.2.target)) visits made ∧
      made.flatten.Nodup ∧ ∀ i ∈ made.flatten, (s.kept id).keptRows.row? i = none := by
  induction h with
  | done => exact ⟨[], .nil, .nil, List.forall_mem_nil _⟩
  | @visit s s₁ s₂ visits bound offset size turn _ ih =>
    obtain ⟨⟨is, makes⟩, elements₁⟩ := elements.visit turn
    obtain ⟨made, all, nodup, fresh⟩ := ih elements₁
    obtain ⟨on, nodup₁, fresh₁⟩ := makes.once
    refine ⟨is :: made, .cons makes all, ?_, ?_⟩
    · rw [List.flatten_cons]
      refine List.nodup_append.mpr ⟨nodup₁, nodup, fun i here j later same => ?_⟩
      subst same
      obtain ⟨row, kept⟩ := makes.kept here
      rw [fresh i later] at kept
      cases kept
    · rw [List.flatten_cons]
      refine List.forall_mem_append.mpr ⟨fresh₁, fun i later => ?_⟩
      cases old : (s.kept id).keptRows.row? i with
      | none => rfl
      | some row =>
        have kept := on i row old
        rw [fresh i later] at kept
        cases kept
  | elsewhere same _ ih =>
    rw [← same] at elements ⊢
    exact ih elements

end Listing

end WatchView
