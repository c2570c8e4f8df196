import WatchView.Proofs.Program.Compiled
/-!
# The items of a program

What a step shows, the host showed for one of the items the program is made of
(`Sequence.exists_item_of_step`). These stay the same from step to step
(`Sequence.mem_items_step`), and they are the items of the instructions the program was
compiled from (`mem_items_of_compile`).
-/

namespace WatchView

variable {σ ε ι : Type} {host : Host (StateT Nat (StateM σ)) ε ι}

/-! ## Items -/

mutual

/-- The names and values of the items an instruction may show. -/
def Instruction.items : Instruction → List (Option String × String)
  | .item _ name value => [(name, value)]
  | .loop _ body => Instruction.itemsAll body
  | .ifThen _ body => Instruction.itemsAll body
  | .elseIf _ body => Instruction.itemsAll body
  | .otherwise body => Instruction.itemsAll body
  | .exec .. => []
  | .leave _ => []
  | .unsupported _ => []

/-- The items of instructions. -/
def Instruction.itemsAll : List Instruction → List (Option String × String)
  | [] => []
  | i :: is => i.items ++ Instruction.itemsAll is

end

mutual

/-- The names and values of the items a sequence may show. -/
def Sequence.items : Sequence → List (Option String × String)
  | ⟨behind, ahead, _⟩ => Block.itemsAll behind ++ Block.itemsAll ahead

/-- The items of a block. -/
def Block.items : Block → List (Option String × String)
  | .item _ _ name value => [(name, value)]
  | .exec .. => []
  | .leave .. => []
  | .loop _ _ body => body.items
  | .choice _ branches _ => Branch.itemsAll branches

/-- The items of blocks. -/
def Block.itemsAll : List Block → List (Option String × String)
  | [] => []
  | b :: bs => b.items ++ Block.itemsAll bs

/-- The items of branches. -/
def Branch.itemsAll : List Branch → List (Option String × String)
  | [] => []
  | ⟨_, body⟩ :: bs => body.items ++ Branch.itemsAll bs

end

theorem Block.itemsAll_append (bs cs : List Block) :
    Block.itemsAll (bs ++ cs) = Block.itemsAll bs ++ Block.itemsAll cs := by
  induction bs with
  | nil => rfl
  | cons b bs ih => simp only [List.cons_append, Block.itemsAll, ih, List.append_assoc]

theorem Block.mem_itemsAll_reverse {bs : List Block} {item : Option String × String} :
    item ∈ Block.itemsAll bs.reverse ↔ item ∈ Block.itemsAll bs := by
  induction bs with
  | nil => rfl
  | cons b bs ih =>
    rw [List.reverse_cons, Block.itemsAll_append, List.mem_append, ih]
    simp only [Block.itemsAll, List.append_nil, List.mem_append]
    exact or_comm

theorem Sequence.items_ofBlocks (blocks : List Block) :
    (Sequence.ofBlocks blocks).items = Block.itemsAll blocks := rfl

/-! ## Items stay -/

mutual

/-- What is made ready has the items it had. -/
theorem Sequence.mem_items_reset {item : Option String × String} : ∀ s : Sequence,
    item ∈ s.reset.items ↔ item ∈ s.items
  | ⟨behind, ahead, _⟩ => by
    have h₁ : item ∈ _ ↔ item ∈ _ := Block.mem_itemsAll_resetAll behind
    have h₂ : item ∈ _ ↔ item ∈ _ := Block.mem_itemsAll_resetAll ahead
    simp only [Sequence.reset, Sequence.items, Block.itemsAll, List.nil_append,
      Block.itemsAll_append, List.mem_append, Block.mem_itemsAll_reverse, h₁, h₂]

theorem Block.mem_items_reset {item : Option String × String} : ∀ b : Block,
    item ∈ b.reset.items ↔ item ∈ b.items
  | .item .. => Iff.rfl
  | .exec .. => Iff.rfl
  | .leave .. => Iff.rfl
  | .loop _ _ body => Sequence.mem_items_reset body
  | .choice _ branches _ => Branch.mem_itemsAll_resetAll branches

theorem Block.mem_itemsAll_resetAll {item : Option String × String} : ∀ bs : List Block,
    item ∈ Block.itemsAll (Block.resetAll bs) ↔ item ∈ Block.itemsAll bs
  | [] => Iff.rfl
  | b :: bs => by
    simp only [Block.resetAll, Block.itemsAll, List.mem_append, Block.mem_items_reset b,
      Block.mem_itemsAll_resetAll bs]

theorem Branch.mem_itemsAll_resetAll {item : Option String × String} : ∀ bs : List Branch,
    item ∈ Branch.itemsAll (Branch.resetAll bs) ↔ item ∈ Branch.itemsAll bs
  | [] => Iff.rfl
  | ⟨_, body⟩ :: bs => by
    simp only [Branch.resetAll, Branch.itemsAll, List.mem_append, Sequence.mem_items_reset body,
      Branch.mem_itemsAll_resetAll bs]

end

/-- **A step leaves the items of a program as they are.** -/
theorem Sequence.mem_items_step {item : Option String × String} (s : Sequence) (p : Nat × σ) :
    item ∈ (outcome (s.step host) p).1.2.items ↔ item ∈ s.items := by
  rw [← Sequence.mem_items_reset, Sequence.reset_step, Sequence.mem_items_reset]

/-- Compiled branches and blocks have the items of the body, in its order. -/
theorem Compiles.itemsAll_eq {chained : Bool} {body : List Instruction} {branches : List Branch}
    {blocks : List Block} (h : Compiles chained body branches blocks) :
    Branch.itemsAll branches ++ Block.itemsAll blocks = Instruction.itemsAll body := by
  induction h with
  | nil => rfl
  | elseIf _ _ inside behind =>
    rw [Branch.itemsAll, Sequence.items_ofBlocks, List.append_assoc, behind]
    exact congrArg (· ++ _) inside
  | otherwise _ _ inside behind =>
    rw [Branch.itemsAll, Sequence.items_ofBlocks, List.append_assoc, behind]
    exact congrArg (· ++ _) inside
  | ifThen _ _ inside behind =>
    rw [Branch.itemsAll, List.nil_append, Block.itemsAll, Block.items, Branch.itemsAll,
      Sequence.items_ofBlocks, List.append_assoc, behind]
    exact congrArg (· ++ _) inside
  | loop _ _ inside behind =>
    rw [Branch.itemsAll, List.nil_append] at inside behind ⊢
    rw [Block.itemsAll, Block.items, Sequence.items_ofBlocks, inside, behind]
    rfl
  | item _ behind => exact congrArg (_ :: ·) behind
  | exec _ behind => exact behind
  | leave _ behind => exact behind

/-- **A compiled program shows the items of its body** and no others. -/
theorem mem_items_of_compile {body : List Instruction} {program : Sequence}
    (compiled : Program.compile body = .ok program) {item : Option String × String}
    (mem : item ∈ program.items) : item ∈ Instruction.itemsAll body := by
  obtain ⟨⟨branches, blocks⟩, made, rfl⟩ := Except.exists_of_map_eq_ok compiled
  rw [← (compileFrom_eq_ok_iff.mp made).itemsAll_eq]
  exact List.mem_append_right _ mem

/-! ## What a step shows -/

theorem Host.exists_of_guarded {c : Option String}
    {act : StateT Nat (StateM σ) (Except ε (Step ι))} {p : Nat × σ} {x : ι}
    (h : (outcome (host.guarded c act) p).1 = .ok (.item x)) :
    ∃ q, outcome (host.guarded c act) p = outcome act q := by
  rw [outcome_guarded] at h ⊢
  rcases asked : outcome (host.holds c) p with ⟨_ | _ | _, q⟩
  · rw [asked] at h
    cases h
  · rw [asked] at h
    cases h
  · exact ⟨q, rfl⟩

/-- `ShownBy host items x q`: a value that the host showed for one of some items, and that
the host then was in a state. -/
def ShownBy (host : Host (StateT Nat (StateM σ)) ε ι) (items : List (Option String × String))
    (x : ι) (q : Nat × σ) : Prop :=
  ∃ item ∈ items, ∃ p, outcome (host.item item.1 item.2) p = (.ok x, q)

theorem ShownBy.mono {items items' : List (Option String × String)} {x : ι} {q : Nat × σ}
    (h : ShownBy host items x q) (sub : ∀ item ∈ items, item ∈ items') :
    ShownBy host items' x q := by
  obtain ⟨item, mem, shown⟩ := h
  exact ⟨item, sub item mem, shown⟩

theorem Sequence.mem_items_rearmed {item : Option String × String} {s : Sequence}
    (mem : item ∈ s.rearmed.items) : item ∈ s.items := by
  rwa [← Sequence.mem_items_reset, Sequence.reset_rearmed, Sequence.mem_items_reset] at mem

theorem Branch.mem_itemsAll {item : Option String × String} {branches : List Branch} {b : Branch}
    (here : b ∈ branches) (mem : item ∈ b.body.items) : item ∈ Branch.itemsAll branches := by
  induction branches with
  | nil => cases here
  | cons b' bs ih =>
    cases b'
    rw [Branch.itemsAll, List.mem_append]
    rcases List.mem_cons.mp here with rfl | here
    · exact .inl mem
    · exact .inr (ih here)

/-- What the step of a sequence, and the step of a block, shows. -/
theorem Block.shows_step :
    (∀ (s : Sequence) (p : Nat × σ) (x : ι), (outcome (s.step host) p).1.1 = .ok (.item x) →
      ShownBy host s.items x (outcome (s.step host) p).2) ∧
    ∀ (b : Block) (p : Nat × σ) (x : ι), (outcome (b.step host) p).1.1 = .ok (.item x) →
      ShownBy host b.items x (outcome (b.step host) p).2 := by
  refine Block.step_induction ?nil ?cons ?item ?exec ?leave ?loop ?choice
  case nil =>
    intro behind stage p x h
    rw [Sequence.step] at h
    cases h
  case cons =>
    intro behind b ahead stage ih p x h
    rw [Sequence.step] at h ⊢
    refine (ih p x h).mono fun item mem => ?_
    exact List.mem_append_right _ (List.mem_append_left _ mem)
  case item =>
    intro stage c name value p x h
    rw [Block.step] at h ⊢
    split at h
    · cases h
    · rename_i going
      rw [if_neg going, outcome_bind, outcome_pure]
      rw [outcome_bind, outcome_pure] at h
      obtain ⟨q, acts⟩ := Host.exists_of_guarded h
      dsimp only at h ⊢
      rw [acts, outcome_bind] at h ⊢
      rcases item : outcome (host.item name value) q with ⟨_ | y, r⟩
      · rw [item] at h
        cases h
      · rw [item] at h
        cases h
        exact ⟨(name, value), List.mem_singleton.mpr rfl, q, item⟩
  case exec =>
    intro stage c value p x h
    rw [Block.step] at h
    split at h
    · cases h
    · rw [outcome_bind, outcome_pure] at h
      obtain ⟨q, acts⟩ := Host.exists_of_guarded h
      dsimp only at h
      rw [acts, outcome_bind] at h
      rcases done : outcome (host.exec value) q with ⟨_ | _, r⟩
      · rw [done] at h
        cases h
      · rw [done] at h
        cases h
  case leave =>
    intro stage c p x h
    rw [Block.step] at h
    split at h
    · cases h
    · rw [outcome_bind, outcome_pure] at h
      obtain ⟨q, acts⟩ := Host.exists_of_guarded h
      dsimp only at h
      rw [acts] at h
      cases h
  case loop =>
    intro stage c body ih p x h
    by_cases hs : stage = .finished
    · rw [Block.step, if_pos hs] at h
      cases h
    · rw [Block.step_loop hs, outcome_bind] at h ⊢
      -- asking the condition shows nothing, so the item is one of the body
      rcases asked : outcome (Block.asksPass host c body.rearmed) p with ⟨_ | _ | _, q⟩
      · rw [asked] at h
        cases h
      · rw [asked] at h
        cases h
      · rw [asked] at h
        refine (ih q x ?_).mono fun item mem => Sequence.mem_items_rearmed mem
        simp only [outcome_bind, outcome_pure] at h
        unfold Block.afterPass at h
        split at h
        · cases h
        · rename_i step passed
          rw [passed]
          exact h
        · cases h
  case choice =>
    intro stage branches chosen ih p x h
    by_cases hs : stage = .finished
    · rw [Block.step, if_pos hs] at h
      cases h
    · rw [Block.step_choice hs, outcome_bind] at h ⊢
      rcases asked : outcome (Block.asksChoice host branches chosen) p with ⟨_ | _ | i, q⟩
      · rw [asked] at h
        cases h
      · rw [asked] at h
        cases h
      · rw [asked] at h
        dsimp only at h ⊢
        cases here : branches[i]? with
        | none =>
          rw [outcome_bind, Branch.outcome_stepAt_of_none here] at h
          cases h
        | some b =>
          have mem : b ∈ branches := List.mem_of_getElem? here
          rw [outcome_bind, Branch.outcome_stepAt here] at h ⊢
          exact (ih b mem q x h).mono fun item mem' => Branch.mem_itemsAll mem mem'

/-- **A step shows what the host shows for an item of the program**, and is over then. -/
theorem Sequence.exists_item_of_step (s : Sequence) (p : Nat × σ) (x : ι)
    (h : (outcome (s.step host) p).1.1 = .ok (.item x)) :
    ShownBy host s.items x (outcome (s.step host) p).2 :=
  Block.shows_step.1 s p x h

/-- All values a host shows are so. -/
def Host.ShowsOnly (host : Host (StateT Nat (StateM σ)) ε ι) (good : ι → Prop) : Prop :=
  ∀ name value p x, (outcome (host.item name value) p).1 = .ok x → good x

/-- A step shows only what the host shows. -/
theorem Sequence.shown_step {good : ι → Prop} (shows : host.ShowsOnly good) (s : Sequence)
    (p : Nat × σ) (x : ι) (h : (outcome (s.step host) p).1.1 = .ok (.item x)) : good x := by
  obtain ⟨⟨name, value⟩, -, q, shown⟩ := s.exists_item_of_step p x h
  exact shows name value q x (congrArg Prod.fst shown)

end WatchView
