import WatchView.Proofs.Program.Compiled
/-!
# The source of a program

Compiling goes through a body once and takes the branches behind a conditional into its
block. It fails exactly if it comes to an instruction it does not know, or to a branch that
does not stand directly behind a conditional or another branch, however deep inside
(`IsPlacedAll`). Otherwise the blocks mirror the instructions in order, on every level, and
each conditional with all the branches behind it is one block (`Mirrors`). So nothing is
lost, added or moved: the instructions can be read off the program again
(`compile_eq_ok_iff`).
-/

namespace WatchView

/-! ## Places in a body -/

namespace Instruction

/-- Whether it is a further branch of a conditional. -/
def isBranch : Instruction → Bool
  | elseIf .. => true
  | otherwise _ => true
  | _ => false

/-- Whether it is any branch of a conditional, so that another one may follow. -/
def isConditional : Instruction → Bool
  | ifThen .. => true
  | i => i.isBranch

theorem sizeOf_body_le (i : Instruction) : sizeOf i.body ≤ sizeOf i := by
  cases i <;> simp only [body, List.nil.sizeOf_spec, loop.sizeOf_spec, ifThen.sizeOf_spec,
    elseIf.sizeOf_spec, otherwise.sizeOf_spec, item.sizeOf_spec, exec.sizeOf_spec,
    leave.sizeOf_spec, unsupported.sizeOf_spec] <;> omega

/-- Whether an instruction may stand directly behind those in front: it is known, and a
further branch follows another branch. -/
structure IsPlaced (front : List Instruction) (i : Instruction) : Prop where
  known : ∀ element, i ≠ unsupported element
  follows : i.isBranch = true → front.getLast?.any isConditional = true

end Instruction

/-- `Siblings body is`: the instructions `is` are the body, or all those inside one
instruction of it, at any depth. -/
inductive Siblings (body : List Instruction) : List Instruction → Prop
  | top : Siblings body body
  | inside {is : List Instruction} {i : Instruction} (level : Siblings body is) (mem : i ∈ is) :
      Siblings body i.body

/-- Every instruction of a list may stand behind those in front of it. -/
def ArePlaced (front is : List Instruction) : Prop :=
  ∀ before i behind, is = before ++ i :: behind → i.IsPlaced (front ++ before)

/-- **Every instruction of a body stands where it may**, at any depth. -/
def IsPlacedAll (body : List Instruction) : Prop := ∀ is, Siblings body is → ArePlaced [] is

section Places

variable {body is rest front : List Instruction} {i : Instruction}

theorem siblings_of_inside (mem : i ∈ body) (h : Siblings i.body is) : Siblings body is := by
  induction h with
  | top => exact .inside .top mem
  | inside _ mem' ih => exact .inside ih mem'

theorem siblings_iff : Siblings body is ↔ is = body ∨ ∃ i ∈ body, Siblings i.body is := by
  constructor
  · intro h
    induction h with
    | top => exact .inl rfl
    | inside _ mem ih =>
      rcases ih with rfl | ⟨j, here, level⟩
      · exact .inr ⟨_, mem, .top⟩
      · exact .inr ⟨j, here, .inside level mem⟩
  · rintro (rfl | ⟨i, mem, level⟩)
    · exact .top
    · exact siblings_of_inside mem level

/-- The places in a body are those on its own level and those inside its instructions. -/
theorem isPlacedAll_iff :
    IsPlacedAll body ↔ ArePlaced [] body ∧ ∀ i ∈ body, IsPlacedAll i.body := by
  constructor
  · intro h
    exact ⟨h body .top, fun i mem is level => h is (siblings_of_inside mem level)⟩
  · rintro ⟨here, inside⟩ is level
    rcases siblings_iff.mp level with rfl | ⟨i, mem, level⟩
    · exact here
    · exact inside i mem is level

theorem arePlaced_nil (front : List Instruction) : ArePlaced front [] := by
  intro before i behind none
  exact absurd none (by simp)

theorem arePlaced_cons_iff :
    ArePlaced front (i :: rest) ↔ i.IsPlaced front ∧ ArePlaced (front ++ [i]) rest := by
  constructor
  · intro h
    refine ⟨?_, fun before j behind split => ?_⟩
    · have := h [] i rest rfl
      rwa [List.append_nil] at this
    · have := h (i :: before) j behind (by rw [split, List.cons_append])
      rwa [List.append_cons] at this
  · rintro ⟨first, others⟩ before j behind split
    rcases List.cons_eq_append_iff.mp split with ⟨rfl, same⟩ | ⟨before, rfl, same⟩
    · obtain ⟨rfl, -⟩ := List.cons.inj same
      rwa [List.append_nil]
    · rw [List.append_cons]
      exact others before j behind same

end Places

/-! ## When compiling succeeds -/

namespace Except

variable {α β γ ε : Type}

/-- What cannot fail makes no difference to success. -/
theorem exists_bind_eq_ok_iff {x : Except ε α} {f : α → Except ε β}
    (total : ∀ a, ∃ b, f a = .ok b) :
    (∃ b, (x >>= f) = .ok b) ↔ ∃ a, x = .ok a := by
  constructor
  · rintro ⟨b, h⟩
    obtain ⟨a, first, -⟩ := exists_of_bind_eq_ok h
    exact ⟨a, first⟩
  · rintro ⟨a, rfl⟩
    exact total a

theorem exists_bind_bind_eq_ok_iff {x : Except ε α} {y : Except ε β} {f : α → β → Except ε γ}
    (total : ∀ a b, ∃ c, f a b = .ok c) :
    (∃ c, (x >>= fun a => y >>= f a) = .ok c) ↔ (∃ a, x = .ok a) ∧ ∃ b, y = .ok b := by
  constructor
  · rintro ⟨c, h⟩
    obtain ⟨a, first, h⟩ := exists_of_bind_eq_ok h
    obtain ⟨b, second, -⟩ := exists_of_bind_eq_ok h
    exact ⟨⟨a, first⟩, b, second⟩
  · rintro ⟨⟨a, rfl⟩, b, rfl⟩
    exact total a b

theorem exists_map_eq_ok_iff {x : Except ε α} {f : α → β} :
    (∃ b, x.map f = .ok b) ↔ ∃ a, x = .ok a := by
  cases x with
  | error e => exact ⟨nofun, nofun⟩
  | ok a => exact ⟨fun _ => ⟨a, rfl⟩, fun _ => ⟨f a, rfl⟩⟩

end Except

namespace Program

/-- An instruction is compiled if it is known, is no stray branch and its own body is
compiled; and then the rest of the list has to be. -/
theorem exists_compileFrom_cons_iff (chained : Bool) (i : Instruction) (rest : List Instruction) :
    (∃ r, compileFrom chained (i :: rest) = .ok r) ↔
      (∀ element, i ≠ .unsupported element) ∧ (i.isBranch = true → chained = true) ∧
        (∃ s, compileBody i = .ok s) ∧ ∃ r, compileFrom i.isConditional rest = .ok r := by
  cases i with
  | unsupported element =>
    refine iff_of_false ?_ fun h => h.1 element rfl
    rintro ⟨r, h⟩
    cases h
  | elseIf condition inner =>
    rw [compileFrom]
    cases chained with
    | false =>
      refine iff_of_false ?_ fun h => Bool.false_ne_true (h.2.1 rfl)
      rintro ⟨r, h⟩
      cases h
    | true =>
      rw [if_pos rfl, Except.exists_bind_bind_eq_ok_iff (by intro _ _; exact ⟨_, rfl⟩)]
      exact ⟨fun h => ⟨nofun, fun _ => rfl, h⟩, fun h => h.2.2⟩
  | otherwise inner =>
    rw [compileFrom]
    cases chained with
    | false =>
      refine iff_of_false ?_ fun h => Bool.false_ne_true (h.2.1 rfl)
      rintro ⟨r, h⟩
      cases h
    | true =>
      rw [if_pos rfl, Except.exists_bind_bind_eq_ok_iff (by intro _ _; exact ⟨_, rfl⟩)]
      exact ⟨fun h => ⟨nofun, fun _ => rfl, h⟩, fun h => h.2.2⟩
  | ifThen condition inner =>
    rw [compileFrom, Except.exists_bind_bind_eq_ok_iff (by intro _ _; exact ⟨_, rfl⟩)]
    exact ⟨fun h => ⟨nofun, nofun, h⟩, fun h => h.2.2⟩
  | loop condition inner =>
    rw [compileFrom, Except.exists_bind_bind_eq_ok_iff (by intro _ _; exact ⟨_, rfl⟩)]
    exact ⟨fun h => ⟨nofun, nofun, h⟩, fun h => h.2.2⟩
  | item condition name value =>
    rw [compileFrom, Except.exists_bind_eq_ok_iff (by intro _; exact ⟨_, rfl⟩)]
    exact ⟨fun h => ⟨nofun, nofun, ⟨_, rfl⟩, h⟩, fun h => h.2.2.2⟩
  | exec condition value =>
    rw [compileFrom, Except.exists_bind_eq_ok_iff (by intro _; exact ⟨_, rfl⟩)]
    exact ⟨fun h => ⟨nofun, nofun, ⟨_, rfl⟩, h⟩, fun h => h.2.2.2⟩
  | leave condition =>
    rw [compileFrom, Except.exists_bind_eq_ok_iff (by intro _; exact ⟨_, rfl⟩)]
    exact ⟨fun h => ⟨nofun, nofun, ⟨_, rfl⟩, h⟩, fun h => h.2.2.2⟩

/-- What is inside an instruction is compiled as any body is. -/
theorem exists_compileBody_iff (i : Instruction) :
    (∃ s, compileBody i = .ok s) ↔ ∃ r, compileFrom false i.body = .ok r := by
  cases i with
  | loop => rw [compileBody, Except.exists_map_eq_ok_iff, Instruction.body]
  | ifThen => rw [compileBody, Except.exists_map_eq_ok_iff, Instruction.body]
  | elseIf => rw [compileBody, Except.exists_map_eq_ok_iff, Instruction.body]
  | otherwise => rw [compileBody, Except.exists_map_eq_ok_iff, Instruction.body]
  | _ => exact ⟨fun _ => ⟨_, rfl⟩, fun _ => ⟨_, rfl⟩⟩

/-- A list is compiled if every instruction is in its place and is compiled inside. -/
theorem exists_compileFrom_iff (front is : List Instruction) :
    (∃ r, compileFrom (front.getLast?.any Instruction.isConditional) is = .ok r) ↔
      ArePlaced front is ∧ ∀ i ∈ is, ∃ r, compileFrom false i.body = .ok r := by
  -- of what stands in front only the last instruction matters
  induction is generalizing front with
  | nil => exact iff_of_true ⟨_, rfl⟩ ⟨arePlaced_nil front, by simp⟩
  | cons i rest ih =>
    have next := ih (front ++ [i])
    rw [List.getLast?_concat, Option.any_some] at next
    rw [exists_compileFrom_cons_iff, exists_compileBody_iff, next, arePlaced_cons_iff,
      List.forall_mem_cons]
    constructor
    · rintro ⟨known, follows, inside, placed, others⟩
      exact ⟨⟨⟨known, follows⟩, placed⟩, inside, others⟩
    · rintro ⟨⟨⟨known, follows⟩, placed⟩, inside, others⟩
      exact ⟨known, follows, inside, placed, others⟩

/-- **A body is compiled if and only if every instruction stands where it may.** -/
theorem exists_compileFrom_iff_isPlacedAll (body : List Instruction) :
    (∃ r, compileFrom false body = .ok r) ↔ IsPlacedAll body := by
  rw [isPlacedAll_iff]
  refine (exists_compileFrom_iff [] body).trans (and_congr_right fun _ => ?_)
  refine forall₂_congr fun i mem => ?_
  have smaller : sizeOf i.body < sizeOf body :=
    Nat.lt_of_le_of_lt i.sizeOf_body_le (List.sizeOf_lt_of_mem mem)
  exact exists_compileFrom_iff_isPlacedAll i.body
termination_by sizeOf body

end Program

/-! ## What compiling makes of a body -/

mutual

/-- **The blocks of a body**: one for each instruction in order, and one for a conditional
with all the branches that follow it. Each is compiled inside in the same way. -/
inductive Mirrors : List Instruction → List Block → Prop
  | nil : Mirrors [] []
  | item {condition name : Option String} {value : String} {rest : List Instruction}
      {blocks : List Block} (behind : Mirrors rest blocks) :
      Mirrors (.item condition name value :: rest) (.item .fresh condition name value :: blocks)
  | exec {condition : Option String} {value : String} {rest : List Instruction}
      {blocks : List Block} (behind : Mirrors rest blocks) :
      Mirrors (.exec condition value :: rest) (.exec .fresh condition value :: blocks)
  | leave {condition : Option String} {rest : List Instruction} {blocks : List Block}
      (behind : Mirrors rest blocks) :
      Mirrors (.leave condition :: rest) (.leave .fresh condition :: blocks)
  | loop {condition : Option String} {body rest : List Instruction} {inner blocks : List Block}
      (inside : Mirrors body inner) (behind : Mirrors rest blocks) :
      Mirrors (.loop condition body :: rest)
        (.loop .fresh condition (.ofBlocks inner) :: blocks)
  | choice {condition : String} {body further rest : List Instruction} {inner blocks : List Block}
      {branches : List Branch} (inside : Mirrors body inner)
      (others : MirrorsBranches further branches)
      (maximal : rest.head?.any Instruction.isBranch = false) (behind : Mirrors rest blocks) :
      Mirrors (.ifThen condition body :: (further ++ rest))
        (.choice .fresh (⟨some condition, .ofBlocks inner⟩ :: branches) none :: blocks)

/-- The branches behind a conditional, in order. -/
inductive MirrorsBranches : List Instruction → List Branch → Prop
  | nil : MirrorsBranches [] []
  | elseIf {condition : String} {body further : List Instruction} {inner : List Block}
      {branches : List Branch} (inside : Mirrors body inner)
      (others : MirrorsBranches further branches) :
      MirrorsBranches (.elseIf condition body :: further)
        (⟨some condition, .ofBlocks inner⟩ :: branches)
  | otherwise {body further : List Instruction} {inner : List Block} {branches : List Branch}
      (inside : Mirrors body inner) (others : MirrorsBranches further branches) :
      MirrorsBranches (.otherwise body :: further) (⟨none, .ofBlocks inner⟩ :: branches)

end

/-- A list compiled behind a conditional: first the branches that belong to it, all there are
in a row, and then the blocks of the rest. -/
def SplitsInto (body : List Instruction) (branches : List Branch) (blocks : List Block) : Prop :=
  ∃ further rest, body = further ++ rest ∧ rest.head?.any Instruction.isBranch = false ∧
    MirrorsBranches further branches ∧ Mirrors rest blocks

/-- Something compiled from the inside of an instruction. -/
def MirrorsInside (body : List Instruction) (s : Sequence) : Prop :=
  ∃ blocks, s = .ofBlocks blocks ∧ Mirrors body blocks

section Compiling

variable {body rest : List Instruction} {branches : List Branch} {blocks : List Block}

theorem SplitsInto.mirrors (h : SplitsInto body [] blocks) : Mirrors body blocks := by
  obtain ⟨further, rest, rfl, -, none, behind⟩ := h
  cases none
  exact behind

/-- Without branches in front, a list splits at its start. -/
theorem Mirrors.splitsInto (plain : body.head?.any Instruction.isBranch = false)
    (h : Mirrors body blocks) : SplitsInto body [] blocks :=
  ⟨[], body, rfl, plain, .nil, h⟩

theorem SplitsInto.elseIf {condition : String} {inner : List Instruction} {s : Sequence}
    (inside : MirrorsInside inner s) (h : SplitsInto rest branches blocks) :
    SplitsInto (.elseIf condition inner :: rest) (⟨some condition, s⟩ :: branches) blocks := by
  obtain ⟨_, rfl, inside⟩ := inside
  obtain ⟨further, rest, rfl, plain, others, behind⟩ := h
  exact ⟨.elseIf condition inner :: further, rest, rfl, plain, .elseIf inside others, behind⟩

theorem SplitsInto.otherwise {inner : List Instruction} {s : Sequence}
    (inside : MirrorsInside inner s) (h : SplitsInto rest branches blocks) :
    SplitsInto (.otherwise inner :: rest) (⟨none, s⟩ :: branches) blocks := by
  obtain ⟨_, rfl, inside⟩ := inside
  obtain ⟨further, rest, rfl, plain, others, behind⟩ := h
  exact ⟨.otherwise inner :: further, rest, rfl, plain, .otherwise inside others, behind⟩

theorem SplitsInto.ifThen {condition : String} {inner : List Instruction} {s : Sequence}
    (inside : MirrorsInside inner s) (h : SplitsInto rest branches blocks) :
    SplitsInto (.ifThen condition inner :: rest) []
      (.choice .fresh (⟨some condition, s⟩ :: branches) none :: blocks) := by
  obtain ⟨_, rfl, inside⟩ := inside
  obtain ⟨further, rest, rfl, plain, others, behind⟩ := h
  exact (Mirrors.choice inside others plain behind).splitsInto rfl

theorem SplitsInto.loop {condition : Option String} {inner : List Instruction} {s : Sequence}
    (inside : MirrorsInside inner s) (h : SplitsInto rest [] blocks) :
    SplitsInto (.loop condition inner :: rest) [] (.loop .fresh condition s :: blocks) := by
  obtain ⟨_, rfl, inside⟩ := inside
  exact (Mirrors.loop inside h.mirrors).splitsInto rfl

end Compiling

/-- **Compiled branches and blocks mirror the list** they were compiled from. -/
theorem Compiles.splitsInto {chained : Bool} {body : List Instruction} {branches : List Branch}
    {blocks : List Block} (h : Compiles chained body branches blocks) :
    SplitsInto body branches blocks := by
  -- a branch joins those behind it, a conditional takes them in, and others have none
  induction h with
  | nil => exact Mirrors.nil.splitsInto rfl
  | elseIf _ _ inside behind => exact behind.elseIf ⟨_, rfl, inside.mirrors⟩
  | otherwise _ _ inside behind => exact behind.otherwise ⟨_, rfl, inside.mirrors⟩
  | ifThen _ _ inside behind => exact behind.ifThen ⟨_, rfl, inside.mirrors⟩
  | loop _ _ inside behind => exact behind.loop ⟨_, rfl, inside.mirrors⟩
  | item _ behind => exact (Mirrors.item behind.mirrors).splitsInto rfl
  | exec _ behind => exact (Mirrors.exec behind.mirrors).splitsInto rfl
  | leave _ behind => exact (Mirrors.leave behind.mirrors).splitsInto rfl

mutual

/-- And a list is compiled into what mirrors it. -/
theorem Mirrors.compiles {body : List Instruction} {blocks : List Block} :
    Mirrors body blocks → ∀ chained, Compiles chained body [] blocks
  | .nil, _ => .nil
  | .item behind, _ => .item (behind.compiles false)
  | .exec behind, _ => .exec (behind.compiles false)
  | .leave behind, _ => .leave (behind.compiles false)
  | .loop inside behind, _ => .loop (inside.compiles false) (behind.compiles false)
  | .choice inside others _ behind, _ =>
    .ifThen (inside.compiles false) (others.compiles (behind.compiles true))

/-- Branches in front of a compiled list are compiled with it. -/
theorem MirrorsBranches.compiles {further rest : List Instruction} {branches : List Branch}
    {blocks : List Block} : MirrorsBranches further branches → Compiles true rest [] blocks →
      Compiles true (further ++ rest) branches blocks
  | .nil, behind => behind
  | .elseIf inside others, behind => .elseIf (inside.compiles false) (others.compiles behind)
  | .otherwise inside others, behind =>
    .otherwise (inside.compiles false) (others.compiles behind)

end

/-! ## Reading the instructions off a program -/

/-- The first branch of a conditional opens it. -/
def Instruction.opening : List Instruction → List Instruction
  | .elseIf condition body :: further => .ifThen condition body :: further
  | is => is

mutual

/-- The instructions a program stands for, wherever it has got to. -/
def Sequence.source : Sequence → List Instruction
  | ⟨behind, ahead, _⟩ => (Block.sources behind).reverse.flatten ++ (Block.sources ahead).flatten

/-- The instructions a block stands for. -/
def Block.source : Block → List Instruction
  | .item _ condition name value => [.item condition name value]
  | .exec _ condition value => [.exec condition value]
  | .leave _ condition => [.leave condition]
  | .loop _ condition body => [.loop condition body.source]
  | .choice _ branches _ => Instruction.opening (Branch.sources branches)

/-- Those of several blocks, block by block. -/
def Block.sources : List Block → List (List Instruction)
  | [] => []
  | b :: bs => b.source :: Block.sources bs

/-- The branches of a conditional as further branches. -/
def Branch.sources : List Branch → List Instruction
  | [] => []
  | ⟨some condition, body⟩ :: bs => .elseIf condition body.source :: Branch.sources bs
  | ⟨none, body⟩ :: bs => .otherwise body.source :: Branch.sources bs

end

theorem Sequence.source_ofBlocks (blocks : List Block) :
    (Sequence.ofBlocks blocks).source = (Block.sources blocks).flatten := by
  rw [Sequence.ofBlocks, Sequence.source, Block.sources, List.reverse_nil, List.flatten_nil,
    List.nil_append]

mutual

/-- **Blocks that mirror a list read as that list.** -/
theorem Mirrors.flatten_sources {body : List Instruction} {blocks : List Block} :
    Mirrors body blocks → (Block.sources blocks).flatten = body
  | .nil => rfl
  | .item behind => by
    rw [Block.sources, Block.source, List.flatten_cons, behind.flatten_sources,
      List.singleton_append]
  | .exec behind => by
    rw [Block.sources, Block.source, List.flatten_cons, behind.flatten_sources,
      List.singleton_append]
  | .leave behind => by
    rw [Block.sources, Block.source, List.flatten_cons, behind.flatten_sources,
      List.singleton_append]
  | .loop inside behind => by
    rw [Block.sources, Block.source, List.flatten_cons, behind.flatten_sources,
      Sequence.source_ofBlocks, inside.flatten_sources, List.singleton_append]
  | .choice inside others _ behind => by
    rw [Block.sources, Block.source, List.flatten_cons, behind.flatten_sources, Branch.sources,
      Sequence.source_ofBlocks, inside.flatten_sources, others.sources_eq, Instruction.opening,
      List.cons_append]

theorem MirrorsBranches.sources_eq {further : List Instruction} {branches : List Branch} :
    MirrorsBranches further branches → Branch.sources branches = further
  | .nil => rfl
  | .elseIf inside others => by
    rw [Branch.sources, Sequence.source_ofBlocks, inside.flatten_sources, others.sources_eq]
  | .otherwise inside others => by
    rw [Branch.sources, Sequence.source_ofBlocks, inside.flatten_sources, others.sources_eq]

end

/-! ## Compiling -/

namespace Program

theorem exists_compile_iff (body : List Instruction) :
    (∃ program, compile body = .ok program) ↔ IsPlacedAll body := by
  rw [← exists_compileFrom_iff_isPlacedAll]
  exact Except.exists_map_eq_ok_iff

theorem compile_eq_ok_iff_mirrorsInside (body : List Instruction) (program : Sequence) :
    compile body = .ok program ↔ MirrorsInside body program := by
  constructor
  · intro h
    obtain ⟨blocks, compiled, rfl⟩ := exists_compilesTo_of_compile h
    exact ⟨blocks, rfl, (compilesTo_iff.mp compiled).splitsInto.mirrors⟩
  · rintro ⟨blocks, rfl, mirrored⟩
    rw [compile, (mirrored.compiles false).compileFrom_eq]
    rfl

/-- **Compiling a body.** It succeeds if and only if every instruction, at any depth, is known
and no branch of a conditional stands anywhere but behind a branch. A program is what it
compiles to if and only if its blocks mirror the instructions, and then they can be read off
it again. -/
theorem compile_eq_ok_iff (body : List Instruction) :
    ((∃ program, compile body = .ok program) ↔ IsPlacedAll body) ∧
      ∀ program, (compile body = .ok program ↔
          ∃ blocks, program = .ofBlocks blocks ∧ Mirrors body blocks) ∧
        (compile body = .ok program → program.source = body) := by
  refine ⟨exists_compile_iff body, fun program => ?_⟩
  refine ⟨compile_eq_ok_iff_mirrorsInside body program, fun h => ?_⟩
  obtain ⟨blocks, rfl, mirrored⟩ := (compile_eq_ok_iff_mirrorsInside body program).mp h
  rw [Sequence.source_ofBlocks, mirrored.flatten_sources]

/-- A conditional with two further branches, inside a loop and followed by an item. -/
def threeBranches : List Instruction :=
  [.loop none [.ifThen "a" [.item none none "x"], .elseIf "b" [.leave none], .otherwise []],
    .item none none "w"]

/-- It is compiled, and reads as before. -/
theorem source_compile_threeBranches :
    ∃ program, compile threeBranches = .ok program ∧ program.source = threeBranches := by
  have mirrored : Mirrors threeBranches
      [.loop .fresh none (.ofBlocks [.choice .fresh [⟨some "a", .ofBlocks [.item .fresh none none
        "x"]⟩, ⟨some "b", .ofBlocks [.leave .fresh none]⟩, ⟨none, .ofBlocks []⟩] none]),
        .item .fresh none none "w"] :=
    .loop (.choice (.item .nil) (.elseIf (.leave .nil) (.otherwise .nil .nil)) rfl .nil)
      (.item .nil)
  have all := (compile_eq_ok_iff threeBranches).2
  have compiled := (all _).1.mpr ⟨_, rfl, mirrored⟩
  exact ⟨_, compiled, (all _).2 compiled⟩

end Program

end WatchView
