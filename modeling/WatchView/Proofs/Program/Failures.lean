import WatchView.Proofs.Program.Steps
/-!
# Evaluations that fail

A host can note the evaluations that fail, in a list beside its state. A step
does the same with notes as without, and what is noted in it is the failure it
ends with: no evaluation that fails is passed over (`Sequence.outcome_noting_step`).
-/

namespace WatchView

variable {σ ε ι α β : Type}

/-- The failure an evaluation came to. -/
def failureOf : Except ε α → List ε
  | .ok _ => []
  | .error e => [e]

/-- An evaluation whose failure is noted. -/
def noted (act : StateT Nat (StateM σ) (Except ε α)) :
    StateT Nat (StateM (σ × List ε)) (Except ε α) :=
  fun n p => ((act n p.1).1, (act n p.1).2, p.2 ++ failureOf (act n p.1).1.1)

/-- A host that notes the evaluations that fail. -/
def Host.noting (host : Host (StateT Nat (StateM σ)) ε ι) :
    Host (StateT Nat (StateM (σ × List ε))) ε ι where
  holds condition := noted (host.holds condition)
  item name value := noted (host.item name value)
  exec value := noted (host.exec value)

/-- Work does the same with notes as without, and adds notes like these. -/
def Notes (noting : StateT Nat (StateM (σ × List ε)) α) (act : StateT Nat (StateM σ) α)
    (P : α → List ε → Prop) : Prop :=
  ∀ n s fs, ∃ more, P (outcome act (n, s)).1 more ∧
    outcome noting (n, s, fs) =
      ((outcome act (n, s)).1, (outcome act (n, s)).2.1, (outcome act (n, s)).2.2, fs ++ more)

/-- Work notes the failure it ends with. -/
abbrev NotesFailure (noting : StateT Nat (StateM (σ × List ε)) (Except ε α))
    (act : StateT Nat (StateM σ) (Except ε α)) : Prop :=
  Notes noting act fun r fs => fs = failureOf r

theorem notes_pure {P : α → List ε → Prop} {a : α} (h : P a []) :
    Notes (pure a) (pure a : StateT Nat (StateM σ) α) P :=
  fun n s fs => ⟨[], h, by rw [List.append_nil]; rfl⟩

/-- What is noted is what the parts note, one after the other. -/
theorem Notes.bind {noting : StateT Nat (StateM (σ × List ε)) α} {act : StateT Nat (StateM σ) α}
    {noting' : α → StateT Nat (StateM (σ × List ε)) β} {next : α → StateT Nat (StateM σ) β}
    {P : α → List ε → Prop} {Q : β → List ε → Prop} (h : Notes noting act P)
    (h' : ∀ a fs, P a fs → Notes (noting' a) (next a) fun b more => Q b (fs ++ more)) :
    Notes (noting >>= noting') (act >>= next) Q := by
  intro n s fs
  obtain ⟨first, hp, eq⟩ := h n s fs
  obtain ⟨more, hq, eq'⟩ :=
    h' _ _ hp (outcome act (n, s)).2.1 (outcome act (n, s)).2.2 (fs ++ first)
  refine ⟨first ++ more, hq, ?_⟩
  rw [outcome_bind, eq, ← List.append_assoc]
  exact eq'

theorem notes_noted (act : StateT Nat (StateM σ) (Except ε α)) : NotesFailure (noted act) act :=
  fun _ _ _ => ⟨_, rfl, rfl⟩

variable (host : Host (StateT Nat (StateM σ)) ε ι)

theorem Host.notes_guarded (condition : Option String)
    {noting : StateT Nat (StateM (σ × List ε)) (Except ε (Step ι))}
    {act : StateT Nat (StateM σ) (Except ε (Step ι))} (h : NotesFailure noting act) :
    NotesFailure (host.noting.guarded condition noting) (host.guarded condition act) := by
  refine (notes_noted (host.holds condition)).bind ?_
  rintro (e | _ | _) fs rfl
  · exact notes_pure rfl
  · exact notes_pure rfl
  · exact h

theorem Host.notes_firstHolding (conditions : List (Option String)) :
    NotesFailure (host.noting.firstHolding conditions) (host.firstHolding conditions) := by
  induction conditions with
  | nil => exact notes_pure rfl
  | cons condition conditions ih =>
    refine (notes_noted (host.holds condition)).bind ?_
    rintro (e | _ | _) fs rfl
    · exact notes_pure rfl
    · refine ih.bind ?_
      rintro (e | index) fs rfl
      · exact notes_pure rfl
      · exact notes_pure rfl
    · exact notes_pure rfl

/-- Work whose answer is the first part. -/
theorem NotesFailure.with {noting : StateT Nat (StateM (σ × List ε)) (Except ε α)}
    {act : StateT Nat (StateM σ) (Except ε α)} (h : NotesFailure noting act) (b : β) :
    Notes (do return (← noting, b)) (do return (← act, b)) fun r fs => fs = failureOf r.1 := by
  refine h.bind ?_
  rintro r fs rfl
  exact notes_pure (List.append_nil _)

theorem Block.notes_asksPass (condition : Option String) (body : Sequence) :
    NotesFailure (asksPass host.noting condition body) (asksPass host condition body) := by
  unfold asksPass
  split
  · exact notes_noted (host.holds condition)
  · exact notes_pure rfl

theorem Branch.notes_stepAt {branches : List Branch}
    (inside : ∀ b ∈ branches,
      Notes (b.body.step host.noting) (b.body.step host) fun r fs => fs = failureOf r.1) (i : Nat) :
    Notes (Branch.stepAt host.noting i branches) (Branch.stepAt host i branches)
      fun r fs => fs = failureOf r.1 := by
  induction branches generalizing i with
  | nil =>
    rw [Branch.stepAt, Branch.stepAt]
    exact notes_pure rfl
  | cons b bs ih =>
    obtain ⟨first, others⟩ := List.forall_mem_cons.mp inside
    cases i with
    | zero =>
      cases b
      rw [Branch.stepAt, Branch.stepAt]
      refine first.bind ?_
      rintro ⟨r, body'⟩ fs rfl
      exact notes_pure (List.append_nil _)
    | succ i =>
      rw [Branch.stepAt, Branch.stepAt]
      refine (ih others i).bind ?_
      rintro ⟨r, bs'⟩ fs rfl
      exact notes_pure (List.append_nil _)

/-- Stepping a sequence, and stepping a block, notes the failure it ends with. -/
theorem Block.notes_steps :
    (∀ s : Sequence, Notes (s.step host.noting) (s.step host) fun r fs => fs = failureOf r.1) ∧
    ∀ b : Block, Notes (b.step host.noting) (b.step host) fun r fs => fs = failureOf r.1 := by
  refine Block.step_induction ?nil ?cons ?item ?exec ?leave ?loop ?choice
  case nil =>
    intro behind stage
    rw [Sequence.step, Sequence.step]
    exact notes_pure rfl
  case cons =>
    intro behind b ahead stage ih
    rw [Sequence.step, Sequence.step]
    refine ih.bind ?_
    rintro ⟨r, block⟩ fs rfl
    exact notes_pure (List.append_nil _)
  case item =>
    intro stage c name value
    rw [Block.step, Block.step]
    split
    · exact notes_pure rfl
    · refine (host.notes_guarded c ((notes_noted (host.item name value)).bind ?_)).with _
      rintro (e | row) fs rfl
      · exact notes_pure rfl
      · exact notes_pure rfl
  case exec =>
    intro stage c value
    rw [Block.step, Block.step]
    split
    · exact notes_pure rfl
    · refine (host.notes_guarded c ((notes_noted (host.exec value)).bind ?_)).with _
      rintro (e | _) fs rfl
      · exact notes_pure rfl
      · exact notes_pure rfl
  case leave =>
    intro stage c
    rw [Block.step, Block.step]
    split
    · exact notes_pure rfl
    · exact (host.notes_guarded c (notes_pure rfl)).with _
  case loop =>
    intro stage c body ih
    by_cases hs : stage = .finished
    · rw [Block.step, Block.step, if_pos hs, if_pos hs]
      exact notes_pure rfl
    · rw [Block.step_loop hs, Block.step_loop hs]
      -- a condition that fails ends the step; otherwise the body notes what the step ends with
      refine (Block.notes_asksPass host c body.rearmed).bind ?_
      rintro (e | _ | _) fs rfl
      · exact notes_pure rfl
      · exact notes_pure rfl
      · refine ih.bind ?_
        rintro ⟨r, body'⟩ fs rfl
        refine notes_pure ?_
        rcases r with e | _ | _ | _ <;> rfl
  case choice =>
    intro stage branches chosen ih
    by_cases hs : stage = .finished
    · rw [Block.step, Block.step, if_pos hs, if_pos hs]
      exact notes_pure rfl
    · rw [Block.step_choice hs, Block.step_choice hs]
      have chooses : NotesFailure (Block.asksChoice host.noting branches chosen)
          (Block.asksChoice host branches chosen) := by
        cases chosen with
        | some index => exact notes_pure rfl
        | none => exact host.notes_firstHolding _
      refine chooses.bind ?_
      rintro (e | _ | i) fs rfl
      · exact notes_pure rfl
      · exact notes_pure rfl
      · refine (Branch.notes_stepAt host ih i).bind ?_
        rintro ⟨r, branches'⟩ fs rfl
        exact notes_pure (List.append_nil _)

/-- **A step fails with the evaluation that failed in it**, if there is one, and
does not without. -/
theorem Sequence.outcome_noting_step {s next : Sequence} {p q : Nat × σ}
    {r : Except ε (Step ι)} {fs : List ε} :
    outcome (s.step host.noting) (p.1, p.2, []) = ((r, next), q.1, q.2, fs) ↔
      outcome (s.step host) p = ((r, next), q) ∧ fs = failureOf r := by
  obtain ⟨_, rfl, same⟩ := (Block.notes_steps host).1 s p.1 p.2 []
  rw [same, List.nil_append]
  obtain ⟨n, t⟩ := q
  rcases outcome (s.step host) (p.1, p.2) with ⟨⟨r', next'⟩, n', t'⟩
  constructor
  · intro h
    cases h
    exact ⟨rfl, rfl⟩
  · rintro ⟨h, rfl⟩
    cases h
    rfl

end WatchView
