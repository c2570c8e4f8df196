import WatchView.Proofs.Program.Countdown
import Mathlib.Data.List.Forall2
/-!
# Compiled programs mean what their instructions mean

Compiling answers by one rule for each kind of instruction
(`compileFrom_eq_ok_iff`), so what is compiled is proved by induction on these
rules.

A block of a compiled program stands for one instruction of the body and the
branches behind it. What is left of a block that is not yet begun is the
meaning of the instruction (`Means.rest`, `Rest.means`), and so driving a
compiled program to its end does what its body means
(`drives_iff_means`).
-/

namespace WatchView

variable {σ ε ι : Type} {host : Host (StateT Nat (StateM σ)) ε ι}

/-! ## Compiling as a relation -/

theorem Except.exists_of_bind_eq_ok {α β ε : Type} {x : Except ε α} {f : α → Except ε β} {b : β}
    (h : (x >>= f) = .ok b) : ∃ a, x = .ok a ∧ f a = .ok b := by
  cases x with
  | error e => cases h
  | ok a => exact ⟨a, rfl, h⟩

theorem Except.exists_of_map_eq_ok {α β ε : Type} {x : Except ε α} {f : α → β} {b : β}
    (h : x.map f = .ok b) : ∃ a, x = .ok a ∧ f a = b := by
  cases x with
  | error e => cases h
  | ok a => exact ⟨a, rfl, Except.ok.inj h⟩

/-- The instructions inside an instruction. -/
def Instruction.body : Instruction → List Instruction
  | loop _ body => body
  | ifThen _ body => body
  | elseIf _ body => body
  | otherwise body => body
  | _ => []

/-- `Compiles chained body branches blocks`: compiling the body succeeds with
these branches, which stand at its start, and the blocks of the rest. -/
inductive Compiles : Bool → List Instruction → List Branch → List Block → Prop
  | nil {chained : Bool} : Compiles chained [] [] []
  | elseIf {condition : String} {body rest : List Instruction} {branches : List Branch}
      {inner blocks : List Block} (inside : Compiles false body [] inner)
      (behind : Compiles true rest branches blocks) :
      Compiles true (.elseIf condition body :: rest)
        (⟨some condition, .ofBlocks inner⟩ :: branches) blocks
  | otherwise {body rest : List Instruction} {branches : List Branch} {inner blocks : List Block}
      (inside : Compiles false body [] inner) (behind : Compiles true rest branches blocks) :
      Compiles true (.otherwise body :: rest) (⟨none, .ofBlocks inner⟩ :: branches) blocks
  | ifThen {chained : Bool} {condition : String} {body rest : List Instruction}
      {branches : List Branch} {inner blocks : List Block} (inside : Compiles false body [] inner)
      (behind : Compiles true rest branches blocks) :
      Compiles chained (.ifThen condition body :: rest) []
        (.choice .fresh (⟨some condition, .ofBlocks inner⟩ :: branches) none :: blocks)
  | loop {chained : Bool} {condition : Option String} {body rest : List Instruction}
      {inner blocks : List Block} (inside : Compiles false body [] inner)
      (behind : Compiles false rest [] blocks) :
      Compiles chained (.loop condition body :: rest) []
        (.loop .fresh condition (.ofBlocks inner) :: blocks)
  | item {chained : Bool} {condition name : Option String} {value : String}
      {rest : List Instruction} {blocks : List Block} (behind : Compiles false rest [] blocks) :
      Compiles chained (.item condition name value :: rest) []
        (.item .fresh condition name value :: blocks)
  | exec {chained : Bool} {condition : Option String} {value : String} {rest : List Instruction}
      {blocks : List Block} (behind : Compiles false rest [] blocks) :
      Compiles chained (.exec condition value :: rest) [] (.exec .fresh condition value :: blocks)
  | leave {chained : Bool} {condition : Option String} {rest : List Instruction}
      {blocks : List Block} (behind : Compiles false rest [] blocks) :
      Compiles chained (.leave condition :: rest) [] (.leave .fresh condition :: blocks)

/-- Unchained, no branches are taken off the start. -/
theorem Compiles.branches_eq_nil {body : List Instruction} {branches : List Branch}
    {blocks : List Block} (h : Compiles false body branches blocks) : branches = [] := by
  cases h <;> rfl

theorem Compiles.compileFrom_eq {chained : Bool} {body : List Instruction}
    {branches : List Branch} {blocks : List Block} (h : Compiles chained body branches blocks) :
    Program.compileFrom chained body = .ok (branches, blocks) := by
  induction h with
  | nil => rfl
  | elseIf _ _ inside behind =>
    rw [Program.compileFrom, Program.compileBody, inside, behind]
    rfl
  | otherwise _ _ inside behind =>
    rw [Program.compileFrom, Program.compileBody, inside, behind]
    rfl
  | ifThen _ _ inside behind =>
    rw [Program.compileFrom, Program.compileBody, inside, behind]
    rfl
  | loop _ _ inside behind =>
    rw [Program.compileFrom, Program.compileBody, inside, behind]
    rfl
  | item _ behind => rw [Program.compileFrom, behind]; rfl
  | exec _ behind => rw [Program.compileFrom, behind]; rfl
  | leave _ behind => rw [Program.compileFrom, behind]; rfl

/-- A body of which only the blocks are kept is compiled unchained. -/
theorem exists_compiles_of_map {body : List Instruction} {s : Sequence}
    (sound : ∀ {branches blocks}, Program.compileFrom false body = .ok (branches, blocks) →
      Compiles false body branches blocks)
    (h : (Program.compileFrom false body).map (fun p => Sequence.ofBlocks p.2) = .ok s) :
    ∃ blocks, Compiles false body [] blocks ∧ s = .ofBlocks blocks := by
  obtain ⟨⟨branches, blocks⟩, made, rfl⟩ := Except.exists_of_map_eq_ok h
  have compiled := sound made
  obtain rfl := compiled.branches_eq_nil
  exact ⟨blocks, compiled, rfl⟩

mutual

theorem compiles_of_compileBody : ∀ (i : Instruction) {s : Sequence},
    Program.compileBody i = .ok s →
      ∃ blocks, Compiles false i.body [] blocks ∧ s = .ofBlocks blocks
  | .loop _ body, _, h => exists_compiles_of_map (compiles_of_compileFrom body) h
  | .ifThen _ body, _, h => exists_compiles_of_map (compiles_of_compileFrom body) h
  | .elseIf _ body, _, h => exists_compiles_of_map (compiles_of_compileFrom body) h
  | .otherwise body, _, h => exists_compiles_of_map (compiles_of_compileFrom body) h
  | .item .., _, h => by cases h; exact ⟨[], .nil, rfl⟩
  | .exec .., _, h => by cases h; exact ⟨[], .nil, rfl⟩
  | .leave _, _, h => by cases h; exact ⟨[], .nil, rfl⟩
  | .unsupported _, _, h => by cases h; exact ⟨[], .nil, rfl⟩

/-- Whatever compiling answers, each instruction was compiled by its rule. -/
theorem compiles_of_compileFrom : ∀ (body : List Instruction) {chained : Bool}
    {branches : List Branch} {blocks : List Block},
    Program.compileFrom chained body = .ok (branches, blocks) →
      Compiles chained body branches blocks
  | [], chained, branches, blocks, h => by cases h; exact .nil
  | i :: rest, chained, branches, blocks, h => by
    have within {s : Sequence} (h : Program.compileBody i = .ok s) := compiles_of_compileBody i h
    have chained_rest {branches : List Branch} {blocks : List Block}
        (h : Program.compileFrom true rest = .ok (branches, blocks)) :=
      compiles_of_compileFrom rest h
    have plain_rest {branches : List Branch} {blocks : List Block}
        (h : Program.compileFrom false rest = .ok (branches, blocks)) :
        Compiles false rest [] blocks := by
      have compiled := compiles_of_compileFrom rest h
      obtain rfl := compiled.branches_eq_nil
      exact compiled
    -- a branch is admitted only when chained, and an unknown instruction never
    cases i with
    | unsupported => cases h
    | elseIf =>
      rw [Program.compileFrom] at h
      cases chained with
      | false => cases h
      | true =>
        obtain ⟨_, made, h⟩ := Except.exists_of_bind_eq_ok h
        obtain ⟨_, others, h⟩ := Except.exists_of_bind_eq_ok h
        obtain ⟨_, inside, rfl⟩ := within made
        cases h
        exact .elseIf inside (chained_rest others)
    | otherwise =>
      rw [Program.compileFrom] at h
      cases chained with
      | false => cases h
      | true =>
        obtain ⟨_, made, h⟩ := Except.exists_of_bind_eq_ok h
        obtain ⟨_, others, h⟩ := Except.exists_of_bind_eq_ok h
        obtain ⟨_, inside, rfl⟩ := within made
        cases h
        exact .otherwise inside (chained_rest others)
    | ifThen =>
      rw [Program.compileFrom] at h
      obtain ⟨_, made, h⟩ := Except.exists_of_bind_eq_ok h
      obtain ⟨_, others, h⟩ := Except.exists_of_bind_eq_ok h
      obtain ⟨_, inside, rfl⟩ := within made
      cases h
      exact .ifThen inside (chained_rest others)
    | loop =>
      rw [Program.compileFrom] at h
      obtain ⟨_, made, h⟩ := Except.exists_of_bind_eq_ok h
      obtain ⟨_, others, h⟩ := Except.exists_of_bind_eq_ok h
      obtain ⟨_, inside, rfl⟩ := within made
      cases h
      exact .loop inside (plain_rest others)
    | item =>
      rw [Program.compileFrom] at h
      obtain ⟨_, others, h⟩ := Except.exists_of_bind_eq_ok h
      cases h
      exact .item (plain_rest others)
    | exec =>
      rw [Program.compileFrom] at h
      obtain ⟨_, others, h⟩ := Except.exists_of_bind_eq_ok h
      cases h
      exact .exec (plain_rest others)
    | leave =>
      rw [Program.compileFrom] at h
      obtain ⟨_, others, h⟩ := Except.exists_of_bind_eq_ok h
      cases h
      exact .leave (plain_rest others)

end

/-- **Compiling, rule by rule.** -/
theorem compileFrom_eq_ok_iff {chained : Bool} {body : List Instruction}
    {branches : List Branch} {blocks : List Block} :
    Program.compileFrom chained body = .ok (branches, blocks) ↔
      Compiles chained body branches blocks :=
  ⟨compiles_of_compileFrom body, Compiles.compileFrom_eq⟩

/-! ## What compiling makes of a body -/

/-- A body without stray branches is compiled into these blocks. -/
def CompilesTo (body : List Instruction) (blocks : List Block) : Prop :=
  Program.compileFrom false body = .ok ([], blocks)

/-- A branch and what it is compiled into. -/
structure IsBranch (source : Option String × List Instruction) (b : Branch) : Prop where
  condition : b.condition = source.1
  body : ∃ blocks, CompilesTo source.2 blocks ∧ b.body = .ofBlocks blocks

/-- An instruction with the branches that belong to it, and the block compiled
from it. A loop may have had passes. -/
inductive IsBlock : Instruction → List (Option String × List Instruction) → Block → Prop
  | item {condition name : Option String} {value : String}
      {further : List (Option String × List Instruction)} :
      IsBlock (.item condition name value) further (.item .fresh condition name value)
  | exec {condition : Option String} {value : String}
      {further : List (Option String × List Instruction)} :
      IsBlock (.exec condition value) further (.exec .fresh condition value)
  | leave {condition : Option String} {further : List (Option String × List Instruction)} :
      IsBlock (.leave condition) further (.leave .fresh condition)
  | loop {stage : Stage} {condition : Option String} {body : List Instruction}
      {further : List (Option String × List Instruction)} {blocks : List Block}
      (going : stage ≠ .finished) (inside : CompilesTo body blocks) :
      IsBlock (.loop condition body) further (.loop stage condition (.ofBlocks blocks))
  | choice {condition : String} {body : List Instruction}
      {further : List (Option String × List Instruction)} {branches : List Branch}
      (inside : List.Forall₂ IsBranch ((some condition, body) :: further) branches) :
      IsBlock (.ifThen condition body) further (.choice .fresh branches none)

theorem compilesTo_iff {body : List Instruction} {blocks : List Block} :
    CompilesTo body blocks ↔ Compiles false body [] blocks :=
  compileFrom_eq_ok_iff

/-- The blocks of a body begin behind the branches at its start. -/
theorem Compiles.split {chained : Bool} {body : List Instruction} {branches : List Branch}
    {blocks : List Block} (h : Compiles chained body branches blocks) :
    List.Forall₂ IsBranch (furtherBranches body) branches ∧
      CompilesTo (behindBranches body) blocks := by
  induction h with
  | nil => exact ⟨.nil, rfl⟩
  | elseIf inside _ _ behind =>
    exact ⟨.cons ⟨rfl, _, compilesTo_iff.mpr inside, rfl⟩ behind.1, behind.2⟩
  | otherwise inside _ _ behind =>
    exact ⟨.cons ⟨rfl, _, compilesTo_iff.mpr inside, rfl⟩ behind.1, behind.2⟩
  | ifThen inside behind => exact ⟨.nil, compilesTo_iff.mpr (.ifThen inside behind)⟩
  | loop inside behind => exact ⟨.nil, compilesTo_iff.mpr (.loop inside behind)⟩
  | item behind => exact ⟨.nil, compilesTo_iff.mpr (.item behind)⟩
  | exec behind => exact ⟨.nil, compilesTo_iff.mpr (.exec behind)⟩
  | leave behind => exact ⟨.nil, compilesTo_iff.mpr (.leave behind)⟩

/-- **A body is compiled instruction by instruction**, each with the branches
behind it. -/
theorem CompilesTo.cons_inv {i : Instruction} {rest : List Instruction} {blocks : List Block}
    (h : CompilesTo (i :: rest) blocks) :
    ∃ b behind, blocks = b :: behind ∧ IsBlock i (furtherBranches rest) b ∧
      CompilesTo (behindBranches rest) behind := by
  cases compilesTo_iff.mp h with
  | ifThen inside behind =>
    obtain ⟨further, behind⟩ := behind.split
    refine ⟨_, _, rfl, .choice (.cons ⟨rfl, _, compilesTo_iff.mpr inside, rfl⟩ further), behind⟩
  | loop inside behind =>
    exact ⟨_, _, rfl, .loop (by simp) (compilesTo_iff.mpr inside), behind.split.2⟩
  | item behind => exact ⟨_, _, rfl, .item, behind.split.2⟩
  | exec behind => exact ⟨_, _, rfl, .exec, behind.split.2⟩
  | leave behind => exact ⟨_, _, rfl, .leave, behind.split.2⟩

theorem CompilesTo.nil_inv {blocks : List Block} (h : CompilesTo [] blocks) : blocks = [] := by
  cases compilesTo_iff.mp h
  rfl

/-! ## Compiled blocks are ready -/

theorem Sequence.reset_ofBlocks {blocks : List Block} (ready : Block.resetAll blocks = blocks) :
    (Sequence.ofBlocks blocks).reset = .ofBlocks blocks := by
  simp only [Sequence.ofBlocks, Sequence.reset, Block.resetAll, ready, List.reverse_nil,
    List.nil_append]

/-- Compiled branches and blocks are as they are when made ready. -/
theorem Compiles.resetAll_eq {chained : Bool} {body : List Instruction} {branches : List Branch}
    {blocks : List Block} (h : Compiles chained body branches blocks) :
    Branch.resetAll branches = branches ∧ Block.resetAll blocks = blocks := by
  induction h with
  | nil => exact ⟨rfl, rfl⟩
  | elseIf _ _ inside behind =>
    exact ⟨by rw [Branch.resetAll, Sequence.reset_ofBlocks inside.2, behind.1], behind.2⟩
  | otherwise _ _ inside behind =>
    exact ⟨by rw [Branch.resetAll, Sequence.reset_ofBlocks inside.2, behind.1], behind.2⟩
  | ifThen _ _ inside behind =>
    refine ⟨rfl, ?_⟩
    rw [Block.resetAll, Block.reset, Branch.resetAll, Sequence.reset_ofBlocks inside.2, behind.1,
      behind.2]
  | loop _ _ inside behind =>
    exact ⟨rfl, by rw [Block.resetAll, Block.reset, Sequence.reset_ofBlocks inside.2, behind.2]⟩
  | item _ behind => exact ⟨rfl, by rw [Block.resetAll, Block.reset, behind.2]⟩
  | exec _ behind => exact ⟨rfl, by rw [Block.resetAll, Block.reset, behind.2]⟩
  | leave _ behind => exact ⟨rfl, by rw [Block.resetAll, Block.reset, behind.2]⟩

theorem CompilesTo.reset {body : List Instruction} {blocks : List Block}
    (h : CompilesTo body blocks) : (Sequence.ofBlocks blocks).reset = .ofBlocks blocks :=
  Sequence.reset_ofBlocks (compilesTo_iff.mp h).resetAll_eq.2

/-! ## What is left of a conditional -/

theorem outcome_guarded (c : Option String)
    (act : StateT Nat (StateM σ) (Except ε (Step ι))) (p : Nat × σ) :
    outcome (host.guarded c act) p =
      match outcome (host.holds c) p with
      | (.error e, q) => (.error e, q)
      | (.ok false, q) => (.ok .nothing, q)
      | (.ok true, q) => outcome act q := by
  rw [Host.guarded, outcome_bind]
  rcases outcome (host.holds c) p with ⟨_ | _ | _, q⟩ <;> rfl

/-- A block of an instruction with a condition acts on it. -/
theorem IsBlock.act {i : Instruction} {further : List (Option String × List Instruction)}
    {b : Block} (hb : IsBlock i further b) {condition : Option String}
    (guarded : i.guard? = some condition) :
    b.isFinished = false ∧ ∃ act, b.act? host = some (condition, act) := by
  cases hb with
  | loop => cases guarded
  | choice => cases guarded
  | _ => cases guarded; exact ⟨rfl, _, rfl⟩

/-- Choosing among no branches does nothing. -/
theorem rest_choice_nil {p : Nat × σ} {n : Nat} {xs : List ι} {e : Ending ε} {q : Nat × σ} :
    Rest host n (.block (.choice .fresh [] none)) p xs e q ↔
      n = 1 ∧ xs = [] ∧ e = .done ∧ q = p := by
  rw [rest_unchosen_iff (by simp)]
  rfl

/-- A branch is run in the same way when another one stands in front. -/
theorem rest_chosen_succ (b : Branch) (bs : List Branch) (i : Nat) (p : Nat × σ) (n : Nat)
    (xs : List ι) (e : Ending ε) (q : Nat × σ) :
    Rest host n (.block (.choice .running (b :: bs) (some (i + 1)))) p xs e q ↔
      Rest host n (.block (.choice .running bs (some i))) p xs e q := by
  cases here : bs[i]? with
  | none => rw [rest_missing_iff (by simp) (by simpa using here), rest_missing_iff (by simp) here]
  | some b' => rw [rest_branch_iff (by simp) (by simpa using here), rest_branch_iff (by simp) here]

/-- Choosing asks the condition of the first branch, and then maybe the
others. -/
theorem rest_choice_cons (b : Branch) (bs : List Branch) (p : Nat × σ) (n : Nat) (xs : List ι)
    (e : Ending ε) (q : Nat × σ) :
    Rest host n (.block (.choice .fresh (b :: bs) none)) p xs e q ↔
      match outcome (host.holds b.condition) p with
      | (.error e', p₁) => n = 1 ∧ xs = [] ∧ e = .failed e' ∧ q = p₁
      | (.ok true, p₁) => Rest host n (.blocks b.body.ahead) p₁ xs e q
      | (.ok false, p₁) => Rest host n (.block (.choice .fresh bs none)) p₁ xs e q := by
  rw [rest_unchosen_iff (by simp), conditionsOf, List.map_cons, Host.firstHolding, outcome_bind]
  rcases outcome (host.holds b.condition) p with ⟨e' | _ | _, p₁⟩
  · rfl
  · dsimp only
    rw [rest_unchosen_iff (by simp), conditionsOf, outcome_bind]
    rcases outcome (host.firstHolding (bs.map Branch.condition)) p₁ with ⟨e' | _ | i, p₂⟩
    · rfl
    · rfl
    · exact rest_chosen_succ b bs i p₂ n xs e q
  · exact rest_branch_iff (by simp) rfl n xs e q

/-! ## Meaning and what is left -/

/-- **What instructions mean is what is left of their blocks.** By induction on
the execution. -/
theorem Means.rest {phrase : Phrase} {p q : Nat × σ} {xs : List ι} {e : Ending ε}
    (run : Means host phrase p xs e q) :
    match phrase with
    | .list body => ∀ blocks, CompilesTo body blocks → ∃ n, Rest host n (.blocks blocks) p xs e q
    | .one i further => ∀ b, IsBlock i further b → ∃ n, Rest host n (.block b) p xs e q
    | .choice sources => ∀ branches, List.Forall₂ IsBranch sources branches →
        ∃ n, Rest host n (.block (.choice .fresh branches none)) p xs e q
    | .loop condition body => ∀ stage blocks, stage ≠ .finished → CompilesTo body blocks →
        ∃ n, Rest host n (.block (.loop stage condition (.ofBlocks blocks))) p xs e q := by
  -- the rules for lists, conditionals and loops have their counterparts among the rules for what is
  -- left; an act of one instruction is one step of its block
  induction run with
  | nil =>
    intro blocks compiled
    obtain rfl := compiled.nil_inv
    exact ⟨1, .nil⟩
  | cons first others ih₁ ih₂ =>
    intro blocks compiled
    obtain ⟨b, behind, rfl, hb, hbehind⟩ := compiled.cons_inv
    obtain ⟨m, first⟩ := ih₁ b hb
    obtain ⟨n, others⟩ := ih₂ behind hbehind
    exact ⟨m + n, .cons first others⟩
  | stop first ends ih =>
    intro blocks compiled
    obtain ⟨b, behind, rfl, hb, -⟩ := compiled.cons_inv
    obtain ⟨n, first⟩ := ih b hb
    exact ⟨n, .stop first ends⟩
  | guardFails guarded asked =>
    intro b hb
    obtain ⟨going, act, acts⟩ := hb.act guarded
    exact ⟨1, .act going acts (by rw [outcome_guarded, asked]) .failed⟩
  | passedOver guarded asked =>
    intro b hb
    obtain ⟨going, act, acts⟩ := hb.act guarded
    exact ⟨1, .act going acts (by rw [outcome_guarded, asked]) .nothing⟩
  | item asked shown =>
    rintro _ ⟨⟩
    refine ⟨1, .act rfl rfl ?_ .item⟩
    rw [outcome_guarded, asked]
    simp only [outcome_bind, shown, outcome_pure]
  | itemFails asked shown =>
    rintro _ ⟨⟩
    refine ⟨1, .act rfl rfl ?_ .failed⟩
    rw [outcome_guarded, asked]
    simp only [outcome_bind, shown, outcome_pure]
  | exec asked done =>
    rintro _ ⟨⟩
    refine ⟨1, .act rfl rfl ?_ .nothing⟩
    rw [outcome_guarded, asked]
    simp only [outcome_bind, done, outcome_pure]
  | execFails asked done =>
    rintro _ ⟨⟩
    refine ⟨1, .act rfl rfl ?_ .failed⟩
    rw [outcome_guarded, asked]
    simp only [outcome_bind, done, outcome_pure]
  | leave asked =>
    rintro _ ⟨⟩
    refine ⟨1, .act rfl rfl ?_ .left⟩
    rw [outcome_guarded, asked]
    rfl
  | repeated passes ih =>
    intro b hb
    cases hb with
    | loop going inside => exact ih _ _ going inside
  | chosen choice ih =>
    intro b hb
    cases hb with
    | choice inside => exact ih _ inside
  | noBranch =>
    rintro _ ⟨⟩
    exact ⟨1, rest_choice_nil.mpr ⟨rfl, rfl, rfl, rfl⟩⟩
  | branchFails asked =>
    rintro _ (_ | ⟨hb, -⟩)
    refine ⟨1, (rest_choice_cons _ _ _ _ _ _ _).mpr ?_⟩
    rw [hb.condition, asked]
    exact ⟨rfl, rfl, rfl, rfl⟩
  | branch asked run ih =>
    rintro _ (_ | ⟨hb, -⟩)
    obtain ⟨blocks, compiled, hbody⟩ := hb.body
    obtain ⟨n, run⟩ := ih blocks compiled
    refine ⟨n, (rest_choice_cons _ _ _ _ _ _ _).mpr ?_⟩
    rw [hb.condition, asked, hbody]
    exact run
  | nextBranch asked others ih =>
    rintro _ (_ | ⟨hb, hmore⟩)
    obtain ⟨n, others⟩ := ih _ hmore
    refine ⟨n, (rest_choice_cons _ _ _ _ _ _ _).mpr ?_⟩
    rw [hb.condition, asked]
    exact others
  | loopFails asked =>
    intro stage blocks going compiled
    exact ⟨1, .loopFails going rfl asked⟩
  | loopEnds asked =>
    intro stage blocks going compiled
    exact ⟨1, .loopEnds going rfl asked⟩
  | pass asked once again ih₁ ih₂ =>
    intro stage blocks going compiled
    obtain ⟨m, once⟩ := ih₁ blocks compiled
    obtain ⟨n, again⟩ := ih₂ .running blocks (by simp) compiled
    -- the next pass is over the body made ready, and that is the body as compiled
    rw [← compiled.reset] at again
    exact ⟨m + n, .enter going rfl asked (.again once again)⟩
  | passLeft asked once ih =>
    intro stage blocks going compiled
    obtain ⟨n, once⟩ := ih blocks compiled
    exact ⟨n, .enter going rfl asked (.broken once)⟩
  | passFails asked once ih =>
    intro stage blocks going compiled
    obtain ⟨n, once⟩ := ih blocks compiled
    exact ⟨n, .enter going rfl asked (.passFails once)⟩

/-- The instruction a block acts for, by the block's act. -/
theorem IsBlock.means_of_act {i : Instruction}
    {further : List (Option String × List Instruction)} {b : Block} (hb : IsBlock i further b)
    {condition : Option String} {act : StateT Nat (StateM σ) (Except ε (Step ι))}
    (acts : b.act? host = some (condition, act)) {r : Except ε (Step ι)} {p q : Nat × σ}
    {xs : List ι} {e : Ending ε} (done : outcome (host.guarded condition act) p = (r, q))
    (ends : EndsBy r xs e) : Means host (.one i further) p xs e q := by
  have guarded : i.guard? = some condition := by
    cases hb with
    | loop => cases acts
    | choice => cases acts
    | _ => cases acts; rfl
  rw [outcome_guarded] at done
  -- the answer of the condition picks the rule, and if it holds the kind of act does
  rcases asked : outcome (host.holds condition) p with ⟨e' | _ | _, p₁⟩ <;>
    rw [asked] at done
  · cases done
    cases ends
    exact .guardFails guarded asked
  · cases done
    cases ends
    exact .passedOver guarded asked
  · cases hb with
    | loop => cases acts
    | choice => cases acts
    | leave =>
      cases acts
      simp only [outcome_pure] at done
      cases done
      cases ends
      exact .leave asked
    | @item _ name value =>
      cases acts
      rcases shown : outcome (host.item name value) p₁ with ⟨e' | x, p₂⟩ <;>
        (simp only [outcome_bind, shown, outcome_pure] at done; cases done; cases ends)
      · exact .itemFails asked shown
      · exact .item asked shown
    | @exec _ value =>
      cases acts
      rcases run : outcome (host.exec value) p₁ with ⟨e' | u, p₂⟩ <;>
        (simp only [outcome_bind, run, outcome_pure] at done; cases done; cases ends)
      · exact .execFails asked run
      · exact .exec asked run

/-- Choosing among compiled branches chooses among their sources. -/
theorem means_choice {sources : List (Option String × List Instruction)}
    {branches : List Branch} (compiled : List.Forall₂ IsBranch sources branches) {p p₁ : Nat × σ}
    {r : Except ε (Option Nat)}
    (asked : outcome (host.firstHolding (conditionsOf branches)) p = (r, p₁)) :
    match r with
    | .error e => Means host (.choice sources) p [] (.failed e) p₁
    | .ok none => Means host (.choice sources) p [] .done p₁
    | .ok (some i) => ∃ b source, branches[i]? = some b ∧ IsBranch source b ∧
        ∀ xs e q, Means host (.list source.2) p₁ xs e q → Means host (.choice sources) p xs e q := by
  induction compiled generalizing p r with
  | nil =>
    cases asked
    exact .noBranch
  | @cons source b sources branches hb _ ih =>
    obtain ⟨condition, body⟩ := source
    have hc : b.condition = condition := hb.condition
    rw [conditionsOf, List.map_cons, Host.firstHolding, outcome_bind, hc] at asked
    rcases first : outcome (host.holds condition) p with ⟨e' | _ | _, p₂⟩ <;> rw [first] at asked
    · cases asked
      exact .branchFails first
    · simp only [outcome_bind] at asked
      rcases others : outcome (host.firstHolding (branches.map Branch.condition)) p₂ with
        ⟨e' | _ | i, p₃⟩ <;> rw [others] at asked <;> cases asked
      · exact .nextBranch first (ih others)
      · exact .nextBranch first (ih others)
      · obtain ⟨b', source, here, hb', run⟩ := ih others
        exact ⟨b', source, here, hb', fun xs e q h => .nextBranch first (run xs e q h)⟩
    · cases asked
      exact ⟨b, _, rfl, hb, fun xs e q h => .branch first h⟩

theorem CompilesTo.eq_nil {body : List Instruction} (h : CompilesTo body []) : body = [] := by
  rcases body with _ | ⟨i, rest⟩
  · rfl
  · obtain ⟨b, behind, h, -⟩ := h.cons_inv
    cases h

theorem CompilesTo.eq_cons {body : List Instruction} {b : Block} {blocks : List Block}
    (h : CompilesTo body (b :: blocks)) :
    ∃ i rest, body = i :: rest ∧ IsBlock i (furtherBranches rest) b ∧
      CompilesTo (behindBranches rest) blocks := by
  rcases body with _ | ⟨i, rest⟩
  · cases h.nil_inv
  · obtain ⟨_, _, h, hb, hbehind⟩ := h.cons_inv
    cases h
    exact ⟨i, rest, rfl, hb, hbehind⟩

/-- What instructions mean that a task was compiled from: a conditional that
made its choice stands for the body it chose, and a pass under way for the
loop from before its condition was asked. -/
def Task.StandsFor (host : Host (StateT Nat (StateM σ)) ε ι) (p : Nat × σ) (xs : List ι)
    (e : Ending ε) (q : Nat × σ) : Task → Prop
  | .blocks ahead => ∀ body, CompilesTo body ahead → Means host (.list body) p xs e q
  | .block (.choice stage branches (some i)) => ∀ b body inside, stage ≠ .finished →
      branches[i]? = some b → b.body = .ofBlocks inside → CompilesTo body inside →
      Means host (.list body) p xs e q
  | .block b => ∀ i further, IsBlock i further b → Means host (.one i further) p xs e q
  | .pass condition body => ∀ p₀ inner inside,
      outcome (host.holds condition) p₀ = (.ok true, p) → body = .ofBlocks inside →
      CompilesTo inner inside → Means host (.loop condition inner) p₀ xs e q

theorem Task.StandsFor.means {b : Block} {p q : Nat × σ} {xs : List ι} {e : Ending ε}
    (h : (Task.block b).StandsFor host p xs e q) {i : Instruction}
    {further : List (Option String × List Instruction)} (hb : IsBlock i further b) :
    Means host (.one i further) p xs e q := by
  cases hb with
  | item => exact h _ _ .item
  | exec => exact h _ _ .exec
  | leave => exact h _ _ .leave
  | loop going inside => exact h _ _ (.loop going inside)
  | choice inside => exact h _ _ (.choice inside)

/-- **What is left of compiled blocks is what their instructions mean.** By
induction on what is left. -/
theorem Rest.standsFor {n : Nat} {task : Task} {p q : Nat × σ} {xs : List ι} {e : Ending ε}
    (rest : Rest host n task p xs e q) : task.StandsFor host p xs e q := by
  induction rest with
  | nil =>
    intro body compiled
    obtain rfl := compiled.eq_nil
    exact .nil
  | cons first others ih₁ ih₂ =>
    intro body compiled
    obtain ⟨i, rest, rfl, hb, hbehind⟩ := compiled.eq_cons
    exact .cons (ih₁.means hb) (ih₂ _ hbehind)
  | stop first ends ih =>
    intro body compiled
    obtain ⟨i, rest, rfl, hb, hbehind⟩ := compiled.eq_cons
    exact .stop (ih.means hb) ends
  | @idle b p ended =>
    -- no block of an instruction is finished
    have hs := Block.isFinished_iff.mp ended
    match b with
    | .choice stage branches (some i) => exact fun _ _ _ going => absurd hs going
    | .choice stage branches none =>
      rintro _ _ ⟨⟩
      cases hs
    | .loop stage condition body =>
      intro i further hb
      cases hb with
      | loop going inside => exact absurd hs going
    | .item .. =>
      rintro _ _ ⟨⟩
      cases hs
    | .exec .. =>
      rintro _ _ ⟨⟩
      cases hs
    | .leave .. =>
      rintro _ _ ⟨⟩
      cases hs
  | @act b c act r p q xs e going acts done ends =>
    cases b with
    | loop => cases acts
    | choice => cases acts
    | _ => exact fun i further hb => hb.means_of_act acts done ends
  | loopFails going fresh asked =>
    rintro _ _ ⟨⟩
    exact .repeated (.loopFails asked)
  | loopEnds going fresh asked =>
    rintro _ _ ⟨⟩
    exact .repeated (.loopEnds asked)
  | enter going fresh asked pass ih =>
    intro i further hb
    cases hb with
    | loop _ inside => exact .repeated (ih _ _ _ asked rfl inside)
  | resume going begun pass ih =>
    rintro _ _ ⟨⟩
    exact absurd rfl begun
  | again once others ih₁ ih₂ =>
    rintro p₀ inner blocks asked rfl compiled
    -- after the pass the loop is a block of the same instruction again
    have others := ih₂ (.loop _ inner) [] (by rw [compiled.reset]; exact .loop (by simp) compiled)
    cases others with
    | repeated others => exact .pass asked (ih₁ inner compiled) others
    | guardFails guarded => cases guarded
    | passedOver guarded => cases guarded
  | broken once ih =>
    rintro p₀ inner blocks asked rfl compiled
    exact .passLeft asked (ih inner compiled)
  | passFails once ih =>
    rintro p₀ inner blocks asked rfl compiled
    exact .passFails asked (ih inner compiled)
  | choiceFails going asked =>
    intro i further hb
    cases hb with
    | choice inside => exact .chosen (means_choice inside asked)
  | noChoice going asked =>
    intro i further hb
    cases hb with
    | choice inside => exact .chosen (means_choice inside asked)
  | choose going asked run ih =>
    intro i further hb
    cases hb with
    | choice inside =>
      obtain ⟨b, source, here, hb, chosen⟩ := means_choice inside asked
      obtain ⟨blocks, compiled, hbody⟩ := hb.body
      exact .chosen (chosen _ _ _ (ih b _ blocks (by simp) here hbody compiled))
  | noBranch going missing =>
    intro b body blocks _ here
    rw [missing] at here
    cases here
  | branch going here run ih =>
    intro b body blocks _ here' hbody compiled
    rw [here] at here'
    cases here'
    rw [hbody] at ih
    exact ih body compiled

/-! ## Driving compiled programs -/

theorem exists_compilesTo_of_compile {body : List Instruction} {program : Sequence}
    (h : Program.compile body = .ok program) :
    ∃ blocks, CompilesTo body blocks ∧ program = .ofBlocks blocks := by
  obtain ⟨blocks, compiled, made⟩ := exists_compiles_of_map compileFrom_eq_ok_iff.mp h
  exact ⟨blocks, compilesTo_iff.mpr compiled, made⟩

/-- **Driving a compiled program does what its body means.** A `leave` that
fires outside of all loops ends the program. -/
theorem drives_iff_means {body : List Instruction} {program : Sequence}
    (compiled : Program.compile body = .ok program) {p q : Nat × σ} {xs : List ι}
    {result : Except ε Unit} :
    Drives host program p xs result q ↔
      ∃ e, e.result = result ∧ Means host (.list body) p xs e q := by
  obtain ⟨blocks, inside, rfl⟩ := exists_compilesTo_of_compile compiled
  rw [drives_iff_rest (by rfl)]
  constructor
  · rintro ⟨n, e, hr, rest⟩
    exact ⟨e, hr, rest.standsFor body inside⟩
  · rintro ⟨e, hr, run⟩
    obtain ⟨n, rest⟩ := run.rest blocks inside
    exact ⟨n, e, hr, rest⟩

end WatchView
