import WatchView.Proofs.Program.Steps
/-!
# Counting a program down

One step takes one off what is left of a sequence: `Sequence.countsDown`, by
induction along the step. So driving a program to its end shows what was left
of it at the beginning: `drives_iff_rest`.
-/

namespace WatchView

variable {σ ε ι : Type} {host : Host (StateT Nat (StateM σ)) ε ι}

/-! ## One step -/

/-- `Follows r ended p rest n items e q`: a step with the result `r` was the
last one and ended things in the state `p`, or else `rest` says what follows
from there. -/
inductive Follows (r : Except ε (Step ι)) (ended : Bool) (p : Nat × σ)
    (rest : Nat → List ι → Ending ε → Nat × σ → Prop) :
    Nat → List ι → Ending ε → Nat × σ → Prop
  | failed {e : ε} (h : r = .error e) : Follows r ended p rest 1 [] (.failed e) p
  | left (h : r = .ok .left) : Follows r ended p rest 1 [] .left p
  | last {s : Step ι} (h : r = .ok s) (hs : s ≠ .left) (he : ended = true) :
      Follows r ended p rest 1 s.items .done p
  | more {n : Nat} {s : Step ι} {ys : List ι} {e : Ending ε} {q : Nat × σ} (h : r = .ok s)
      (hs : s ≠ .left) (he : ended = false) (others : rest n ys e q) :
      Follows r ended p rest (n + 1) (s.items ++ ys) e q

/-- A step takes one off what is left of the sequence, unless it is the
last one. -/
def Sequence.CountsDown (host : Host (StateT Nat (StateM σ)) ε ι) (s : Sequence) : Prop :=
  ∀ (p : Nat × σ) (n : Nat) (xs : List ι) (e : Ending ε) (q : Nat × σ),
    Rest host n (.blocks s.ahead) p xs e q ↔
      Follows (outcome (s.step host) p).1.1 (outcome (s.step host) p).1.2.isFinished
        (outcome (s.step host) p).2
        (fun n ys e q => Rest host n (.blocks (outcome (s.step host) p).1.2.ahead)
          (outcome (s.step host) p).2 ys e q) n xs e q

/-- And off what is left of the block. -/
def Block.CountsDown (host : Host (StateT Nat (StateM σ)) ε ι) (b : Block) : Prop :=
  ∀ (p : Nat × σ) (n : Nat) (xs : List ι) (e : Ending ε) (q : Nat × σ),
    Rest host n (.block b) p xs e q ↔
      Follows (outcome (b.step host) p).1.1 (outcome (b.step host) p).1.2.isFinished
        (outcome (b.step host) p).2
        (fun n ys e q => Rest host n (.block (outcome (b.step host) p).1.2)
          (outcome (b.step host) p).2 ys e q) n xs e q

theorem Follows.congr {r : Except ε (Step ι)} {d d' : Bool} {p : Nat × σ}
    {rest rest' : Nat → List ι → Ending ε → Nat × σ → Prop}
    (ended : ∀ s, r = .ok s → s ≠ .left → d = d')
    (same : ∀ s, r = .ok s → s ≠ .left → d' = false →
      ∀ n xs e q, rest n xs e q ↔ rest' n xs e q)
    (n : Nat) (xs : List ι) (e : Ending ε) (q : Nat × σ) :
    Follows r d p rest n xs e q ↔ Follows r d' p rest' n xs e q := by
  constructor
  · intro h
    cases h with
    | failed h => exact .failed h
    | left h => exact .left h
    | last h hs hd => exact .last h hs (ended _ h hs ▸ hd)
    | more h hs hd others =>
      have hd' : d' = false := ended _ h hs ▸ hd
      exact .more h hs hd' ((same _ h hs hd' _ _ _ _).mp others)
  · intro h
    cases h with
    | failed h => exact .failed h
    | left h => exact .left h
    | last h hs hd => exact .last h hs ((ended _ h hs).symm ▸ hd)
    | more h hs hd others =>
      exact .more h hs ((ended _ h hs).symm ▸ hd) ((same _ h hs hd _ _ _ _).mpr others)

/-- A step that ends what it is a step of. -/
theorem follows_of_ended {r : Except ε (Step ι)} {p : Nat × σ}
    {rest : Nat → List ι → Ending ε → Nat × σ → Prop} {n : Nat} {xs : List ι} {e : Ending ε}
    {q : Nat × σ} :
    Follows r true p rest n xs e q ↔ n = 1 ∧ EndsBy r xs e ∧ q = p := by
  constructor
  · intro h
    cases h with
    | failed h => exact ⟨rfl, h ▸ .failed, rfl⟩
    | left h => exact ⟨rfl, h ▸ .left, rfl⟩
    | @last s h hs hd =>
      refine ⟨rfl, ?_, rfl⟩
      subst h
      cases s with
      | nothing => exact .nothing
      | item x => exact .item
      | left => exact absurd rfl hs
    | more h hs hd others => cases hd
  · rintro ⟨rfl, h, rfl⟩
    cases h with
    | failed => exact .failed rfl
    | left => exact .left rfl
    | nothing => exact .last rfl (by simp) rfl
    | item => exact .last rfl (by simp) rfl

/-- A step that fails. -/
theorem follows_error {e' : ε} {d : Bool} {p : Nat × σ}
    {rest : Nat → List ι → Ending ε → Nat × σ → Prop} {n : Nat} {xs : List ι} {e : Ending ε}
    {q : Nat × σ} :
    Follows (.error e') d p rest n xs e q ↔ n = 1 ∧ xs = [] ∧ e = .failed e' ∧ q = p := by
  constructor
  · intro h
    cases h with
    | failed h => cases h; exact ⟨rfl, rfl, rfl, rfl⟩
    | left h => cases h
    | last h => cases h
    | more h => cases h
  · rintro ⟨rfl, rfl, rfl, rfl⟩
    exact .failed rfl

/-- A step that only ends what it is a step of. -/
theorem follows_nothing {p : Nat × σ} {rest : Nat → List ι → Ending ε → Nat × σ → Prop}
    {n : Nat} {xs : List ι} {e : Ending ε} {q : Nat × σ} :
    Follows (.ok .nothing) true p rest n xs e q ↔ n = 1 ∧ xs = [] ∧ e = .done ∧ q = p := by
  rw [follows_of_ended]
  constructor
  · rintro ⟨rfl, ⟨⟩, rfl⟩
    exact ⟨rfl, rfl, rfl, rfl⟩
  · rintro ⟨rfl, rfl, rfl, rfl⟩
    exact ⟨rfl, .nothing, rfl⟩

/-- The rest of a sequence, by the rest of its first block. -/
theorem rest_blocks_iff {b b' : Block} {behind ahead : List Block} {r : Except ε (Step ι)}
    {p p' : Nat × σ}
    (first : ∀ n xs e q, Rest host n (.block b) p xs e q ↔
      Follows r b'.isFinished p' (fun n ys e q => Rest host n (.block b') p' ys e q) n xs e q)
    (n : Nat) (xs : List ι) (e : Ending ε) (q : Nat × σ) :
    Rest host n (.blocks (b :: ahead)) p xs e q ↔
      Follows r (Sequence.advance behind b' ahead r).isFinished p'
        (fun n ys e q =>
          Rest host n (.blocks (Sequence.advance behind b' ahead r).ahead) p' ys e q)
        n xs e q := by
  -- unless it was a `leave`, a step does not end the sequence: it stands behind the block if that
  -- is finished and at the block if not
  have unended (s : Step ι) (hs : s ≠ .left) :
      (Sequence.advance (ε := ε) behind b' ahead (.ok s)).isFinished = false := by
    unfold Sequence.advance
    cases s with
    | left => exact absurd rfl hs
    | _ => dsimp only; split <;> rfl
  have on (s : Step ι) (hs : s ≠ .left) (h : b'.isFinished = true) :
      (Sequence.advance (ε := ε) behind b' ahead (.ok s)).ahead = ahead := by
    have h : b'.stage = .finished := by simpa [Block.isFinished] using h
    unfold Sequence.advance
    cases s with
    | left => exact absurd rfl hs
    | _ => simp [h]
  have still (s : Step ι) (hs : s ≠ .left) (h : b'.isFinished = false) :
      (Sequence.advance (ε := ε) behind b' ahead (.ok s)).ahead = b' :: ahead := by
    have h : ¬ b'.stage = .finished := by simpa [Block.isFinished] using h
    unfold Sequence.advance
    cases s with
    | left => exact absurd rfl hs
    | _ => simp [h]
  constructor
  · intro h
    cases h with
    | cons this others =>
      cases (first _ _ _ _).mp this with
      | last h hs hd =>
        subst h
        rw [Nat.add_comm]
        exact .more rfl hs (unended _ hs) (by rwa [on _ hs hd])
      | more h hs hd h' =>
        subst h
        rw [Nat.add_right_comm, List.append_assoc]
        refine .more rfl hs (unended _ hs) ?_
        rw [still _ hs hd]
        exact .cons h' others
    | stop this ends =>
      cases (first _ _ _ _).mp this with
      | failed h => exact .failed h
      | left h => exact .left h
      | last h hs hd => exact absurd rfl ends
      | more h hs hd h' =>
        subst h
        refine .more rfl hs (unended _ hs) ?_
        rw [still _ hs hd]
        exact .stop h' ends
  · intro h
    cases h with
    | failed h => exact .stop ((first _ _ _ _).mpr (.failed h)) (by simp)
    | left h => exact .stop ((first _ _ _ _).mpr (.left h)) (by simp)
    | last h hs hd =>
      subst h
      rw [unended _ hs] at hd
      cases hd
    | @more n s ys e q h hs hd others =>
      subst h
      cases hb : b'.isFinished with
      | true =>
        rw [on _ hs hb] at others
        rw [Nat.add_comm]
        exact .cons ((first _ _ _ _).mpr (.last rfl hs hb)) others
      | false =>
        rw [still _ hs hb] at others
        cases others with
        | cons h' others =>
          rw [Nat.add_right_comm, ← List.append_assoc]
          exact .cons ((first _ _ _ _).mpr (.more rfl hs hb h')) others
        | stop h' ends => exact .stop ((first _ _ _ _).mpr (.more rfl hs hb h')) ends

/-- A sequence that was stepped is begun. -/
theorem Sequence.begun_step (s : Sequence) (p : Nat × σ) :
    (outcome (s.step host) p).1.2.stage ≠ .fresh := by
  rcases s with ⟨behind, _ | ⟨b, ahead⟩, stage⟩
  · simp [Sequence.step]
  · simp only [Sequence.step, outcome_bind, outcome_pure, Sequence.advance]
    split
    · simp
    · split <;> simp
    · simp

/-- The rest of a loop is one of its body as that is when made ready. -/
theorem Rest.of_rearmed_eq {n : Nat} {stage : Stage} {c : Option String} {body body' : Sequence}
    {p q : Nat × σ} {xs : List ι} {e : Ending ε} (same : body.rearmed = body'.rearmed)
    (rest : Rest host n (.block (.loop stage c body)) p xs e q) :
    Rest host n (.block (.loop stage c body')) p xs e q := by
  cases rest with
  | idle ended => exact .idle ended
  | act going acts => cases acts
  | loopFails going fresh asked => exact .loopFails going (same ▸ fresh) asked
  | loopEnds going fresh asked => exact .loopEnds going (same ▸ fresh) asked
  | enter going fresh asked pass => exact .enter going (same ▸ fresh) asked (same ▸ pass)
  | resume going begun pass => exact .resume going (same ▸ begun) (same ▸ pass)

/-- The rest of a loop in a pass that has not ended. -/
theorem rest_resume_iff {stage : Stage} (hs : stage ≠ .finished) {c : Option String}
    {body : Sequence} (begun : body.rearmed.stage ≠ .fresh) {p : Nat × σ} (n : Nat) (xs : List ι)
    (e : Ending ε) (q : Nat × σ) :
    Rest host n (.block (.loop stage c body)) p xs e q ↔
      Rest host n (.pass c body.rearmed) p xs e q := by
  constructor
  · intro h
    cases h with
    | idle ended => exact absurd (by simpa [Block.isFinished, Block.stage] using ended) hs
    | act going acts => cases acts
    | resume going begun pass => exact pass
    | _ => exact absurd ‹body.rearmed.stage = .fresh› begun
  · exact .resume hs begun

/-- The rest of a pass, by the rest of the body it is over. -/
theorem rest_pass_iff {c : Option String} {body body' : Sequence} {r : Except ε (Step ι)}
    {p p' : Nat × σ}
    (inside : ∀ n xs e q, Rest host n (.blocks body.ahead) p xs e q ↔
      Follows r body'.isFinished p' (fun n ys e q => Rest host n (.blocks body'.ahead) p' ys e q)
        n xs e q)
    (begun : body'.stage ≠ .fresh) (same : body'.reset = body.reset)
    (n : Nat) (xs : List ι) (e : Ending ε) (q : Nat × σ) :
    Rest host n (.pass c body) p xs e q ↔
      Follows (Block.afterPass c body' r).1 (Block.afterPass c body' r).2.isFinished p'
        (fun n ys e q => Rest host n (.block (Block.afterPass c body' r).2) p' ys e q)
        n xs e q := by
  -- unless it was a `leave`, a step leaves the loop running
  have next (s : Step ι) (hs : s ≠ .left) :
      Block.afterPass (ε := ε) c body' (.ok s) = (.ok s, .loop .running c body') := by
    unfold Block.afterPass
    cases s with
    | left => exact absurd rfl hs
    | _ => rfl
  -- if the pass is over, the loop goes on with its body made ready, and else with the rest of it
  have renewed (hd : body'.isFinished = true) : body'.rearmed = body.reset.rearmed := by
    have ready : body.reset.isFinished = false := by
      rw [Sequence.reset_eq]
      rfl
    simp only [Sequence.rearmed, hd, ready, same, if_true, Bool.false_eq_true, if_false]
  have within (hd : body'.isFinished = false) : body'.rearmed = body' := by
    simp only [Sequence.rearmed, hd, Bool.false_eq_true, if_false]
  have resumed (hd : body'.isFinished = false) (n : Nat) (ys : List ι) (e : Ending ε)
      (q : Nat × σ) : Rest host n (.block (.loop .running c body')) p' ys e q ↔
        Rest host n (.pass c body') p' ys e q := by
    rw [rest_resume_iff (by simp) (by rwa [within hd]), within hd]
  constructor
  · intro h
    cases h with
    | again once others =>
      cases (inside _ _ _ _).mp once with
      | last h hs hd =>
        subst h
        rw [next _ hs, Nat.add_comm]
        exact .more rfl hs rfl (others.of_rearmed_eq (renewed hd).symm)
      | more h hs hd once =>
        subst h
        rw [next _ hs, Nat.add_right_comm, List.append_assoc]
        exact .more rfl hs rfl ((resumed hd _ _ _ _).mpr (.again once (same ▸ others)))
    | broken once =>
      cases (inside _ _ _ _).mp once with
      | left h =>
        subst h
        exact .last (s := .nothing) rfl (by simp) rfl
      | more h hs hd once =>
        subst h
        rw [next _ hs]
        exact .more rfl hs rfl ((resumed hd _ _ _ _).mpr (.broken once))
    | passFails once =>
      cases (inside _ _ _ _).mp once with
      | failed h =>
        subst h
        exact .failed rfl
      | more h hs hd once =>
        subst h
        rw [next _ hs]
        exact .more rfl hs rfl ((resumed hd _ _ _ _).mpr (.passFails once))
  · intro h
    -- backwards, the step tells by which rule the pass goes on
    rcases r with e' | s
    · cases h with
      | failed h =>
        cases h
        exact .passFails ((inside _ _ _ _).mpr (.failed rfl))
      | left h => cases h
      | last h => cases h
      | more h => cases h
    · by_cases hs : s = .left
      · subst hs
        have h : Follows (.ok .nothing) true p' _ n xs e q := h
        obtain ⟨rfl, ⟨⟩, rfl⟩ := follows_of_ended.mp h
        exact .broken ((inside _ _ _ _).mpr (.left rfl))
      · rw [next _ hs] at h
        cases h with
        | failed h => cases h
        | left h =>
          cases h
          exact absurd rfl hs
        | last h hs hd => cases hd
        | more h hs hd others =>
          cases h
          cases hd : body'.isFinished with
          | true =>
            rw [Nat.add_comm]
            exact .again ((inside _ _ _ _).mpr (.last rfl hs hd))
              (others.of_rearmed_eq (renewed hd))
          | false =>
            cases (resumed hd _ _ _ _).mp others with
            | again once others =>
              rw [Nat.add_right_comm, ← List.append_assoc]
              exact .again ((inside _ _ _ _).mpr (.more rfl hs hd once)) (same ▸ others)
            | broken once => exact .broken ((inside _ _ _ _).mpr (.more rfl hs hd once))
            | passFails once => exact .passFails ((inside _ _ _ _).mpr (.more rfl hs hd once))

/-- An act's rest is its end. -/
theorem rest_act_iff {b : Block} {c : Option String}
    {act : StateT Nat (StateM σ) (Except ε (Step ι))} (going : b.isFinished = false)
    (acts : b.act? host = some (c, act)) {p : Nat × σ} (n : Nat) (xs : List ι) (e : Ending ε)
    (q : Nat × σ) :
    Rest host n (.block b) p xs e q ↔
      n = 1 ∧ EndsBy (outcome (host.guarded c act) p).1 xs e ∧
        q = (outcome (host.guarded c act) p).2 := by
  constructor
  · intro h
    cases h with
    | idle ended => rw [going] at ended; cases ended
    | act going' acts' done ends =>
      rw [acts] at acts'
      cases acts'
      rw [done]
      exact ⟨rfl, ends, rfl⟩
    | _ => cases acts
  · rintro ⟨rfl, ends, rfl⟩
    exact .act going acts rfl ends

/-- The rest of a conditional whose choice is made, by the rest of the body
of its branch. -/
theorem rest_branch_iff {stage : Stage} (hs : stage ≠ .finished) {branches : List Branch}
    {i : Nat} {b : Branch} (here : branches[i]? = some b) {p : Nat × σ} (n : Nat) (xs : List ι)
    (e : Ending ε) (q : Nat × σ) :
    Rest host n (.block (.choice stage branches (some i))) p xs e q ↔
      Rest host n (.blocks b.body.ahead) p xs e q := by
  constructor
  · intro h
    cases h with
    | idle ended => exact absurd (by simpa [Block.isFinished, Block.stage] using ended) hs
    | act going acts => cases acts
    | noBranch going missing => rw [here] at missing; cases missing
    | branch going here' run =>
      rw [here] at here'
      cases here'
      exact run
  · exact .branch hs here

/-- The rest of a conditional that chose a branch it does not have. -/
theorem rest_missing_iff {stage : Stage} (hs : stage ≠ .finished) {branches : List Branch}
    {i : Nat} (missing : branches[i]? = none) {p : Nat × σ} (n : Nat) (xs : List ι)
    (e : Ending ε) (q : Nat × σ) :
    Rest host n (.block (.choice stage branches (some i))) p xs e q ↔
      n = 1 ∧ xs = [] ∧ e = .done ∧ q = p := by
  constructor
  · intro h
    cases h with
    | idle ended => exact absurd (by simpa [Block.isFinished, Block.stage] using ended) hs
    | act going acts => cases acts
    | noBranch => exact ⟨rfl, rfl, rfl, rfl⟩
    | branch going here => rw [missing] at here; cases here
  · rintro ⟨rfl, rfl, rfl, rfl⟩
    exact .noBranch hs missing

/-- The rest of a conditional whose choice is made, after a step of it. -/
theorem rest_chosen_iff {stage : Stage} (hs : stage ≠ .finished) {branches : List Branch}
    (inside : ∀ b ∈ branches, b.body.CountsDown host) (i : Nat) (p : Nat × σ)
    (n : Nat) (xs : List ι) (e : Ending ε) (q : Nat × σ) :
    Rest host n (.block (.choice stage branches (some i))) p xs e q ↔
      Follows (outcome (Branch.stepAt host i branches) p).1.1
        (Block.afterBranch (outcome (Branch.stepAt host i branches) p).1.2 i
          (outcome (Branch.stepAt host i branches) p).1.1).isFinished
        (outcome (Branch.stepAt host i branches) p).2
        (fun n ys e q => Rest host n
          (.block (Block.afterBranch (outcome (Branch.stepAt host i branches) p).1.2 i
            (outcome (Branch.stepAt host i branches) p).1.1))
          (outcome (Branch.stepAt host i branches) p).2 ys e q) n xs e q := by
  cases here : branches[i]? with
  | none =>
    rw [Branch.outcome_stepAt_of_none here]
    have ended : (Block.afterBranch (ι := ι) (ε := ε) branches i (.ok .nothing)).isFinished =
        true := by simp [Block.afterBranch, here, Block.isFinished, Block.stage]
    rw [rest_missing_iff hs here]
    simp only [ended]
    exact follows_nothing.symm
  | some b =>
    rw [rest_branch_iff hs here, inside b (List.mem_of_getElem? here), Branch.outcome_stepAt here]
    generalize outcome (b.body.step host) p = stepped
    obtain ⟨⟨r, body'⟩, p'⟩ := stepped
    have here' : (branches.set i ⟨b.condition, body'⟩)[i]? = some ⟨b.condition, body'⟩ := by
      obtain ⟨hi, -⟩ := List.getElem?_eq_some_iff.mp here
      simp [hi]
    -- both sides take the same step, and agree on whether it was the last and on what is left
    apply Follows.congr
    · rintro s rfl -
      simp only [Block.afterBranch, here', Option.all_some]
      cases body'.isFinished <;> rfl
    · rintro s rfl - going n xs e q
      have hf : (if body'.isFinished then Stage.finished else Stage.running) ≠ .finished := by
        simpa [Block.afterBranch, here', Block.isFinished, Block.stage] using going
      simp only [Block.afterBranch, here', Option.all_some]
      exact (rest_branch_iff hf here' n xs e q).symm

theorem Block.isFinished_iff {b : Block} : b.isFinished = true ↔ b.stage = .finished := by
  simp [Block.isFinished]

/-- A block that has ended does nothing. -/
theorem Block.step_of_isFinished {b : Block} (ended : b.isFinished = true) :
    b.step host = pure (.ok .nothing, b) := by
  have hs := Block.isFinished_iff.mp ended
  cases b <;> (simp only [Block.stage] at hs; rw [Block.step, if_pos hs])

theorem Block.countsDown_of_isFinished {b : Block} (ended : b.isFinished = true) :
    b.CountsDown host := by
  intro p n xs e q
  have hs := Block.isFinished_iff.mp ended
  rw [Block.step_of_isFinished ended]
  simp only [outcome_pure, ended, follows_of_ended]
  constructor
  · intro h
    cases h with
    | idle => exact ⟨rfl, .nothing, rfl⟩
    | act going => rw [ended] at going; cases going
    | _ => exact absurd hs ‹_›
  · rintro ⟨rfl, ⟨⟩, rfl⟩
    exact .idle ended

theorem Block.countsDown_of_act {b : Block} {c : Option String}
    {act : StateT Nat (StateM σ) (Except ε (Step ι))} (acts : b.act? host = some (c, act)) :
    b.CountsDown host := by
  intro p n xs e q
  cases going : b.isFinished with
  | true => exact Block.countsDown_of_isFinished going p n xs e q
  | false =>
    obtain ⟨b', ended, -, stepped⟩ := Block.outcome_step_act going acts p
    rw [stepped, rest_act_iff going acts]
    simp only [ended, follows_of_ended]

/-- The rest of a loop that is not in the middle of a pass. -/
theorem rest_loop_iff_of_fresh {stage : Stage} (hs : stage ≠ .finished) {c : Option String}
    {body : Sequence} (fresh : body.rearmed.stage = .fresh) (p : Nat × σ) (n : Nat) (xs : List ι)
    (e : Ending ε) (q : Nat × σ) :
    Rest host n (.block (.loop stage c body)) p xs e q ↔
      match outcome (host.holds c) p with
      | (.error e', p₁) => n = 1 ∧ xs = [] ∧ e = .failed e' ∧ q = p₁
      | (.ok false, p₁) => n = 1 ∧ xs = [] ∧ e = .done ∧ q = p₁
      | (.ok true, p₁) => Rest host n (.pass c body.rearmed) p₁ xs e q := by
  have idle : ¬ (Block.loop stage c body).isFinished = true := by
    simpa [Block.isFinished, Block.stage] using hs
  constructor
  · intro h
    cases h with
    | idle ended => exact absurd ended idle
    | act going acts => cases acts
    | loopFails going fresh asked => rw [asked]; exact ⟨rfl, rfl, rfl, rfl⟩
    | loopEnds going fresh asked => rw [asked]; exact ⟨rfl, rfl, rfl, rfl⟩
    | enter going fresh asked pass => rw [asked]; exact pass
    | resume going begun => exact absurd fresh begun
  · intro h
    rcases asked : outcome (host.holds c) p with ⟨_ | _ | _, p₁⟩ <;> rw [asked] at h
    · obtain ⟨rfl, rfl, rfl, rfl⟩ := h
      exact .loopFails hs fresh asked
    · obtain ⟨rfl, rfl, rfl, rfl⟩ := h
      exact .loopEnds hs fresh asked
    · exact .enter hs fresh asked h

/-- The rest of a conditional whose choice is not made. -/
theorem rest_unchosen_iff {stage : Stage} (hs : stage ≠ .finished) (branches : List Branch)
    (p : Nat × σ) (n : Nat) (xs : List ι) (e : Ending ε) (q : Nat × σ) :
    Rest host n (.block (.choice stage branches none)) p xs e q ↔
      match outcome (host.firstHolding (conditionsOf branches)) p with
      | (.error e', p₁) => n = 1 ∧ xs = [] ∧ e = .failed e' ∧ q = p₁
      | (.ok none, p₁) => n = 1 ∧ xs = [] ∧ e = .done ∧ q = p₁
      | (.ok (some i), p₁) => Rest host n (.block (.choice .running branches (some i))) p₁ xs e q := by
  constructor
  · intro h
    cases h with
    | idle ended => exact absurd (Block.isFinished_iff.mp ended) hs
    | act going acts => cases acts
    | choiceFails going asked => rw [asked]; exact ⟨rfl, rfl, rfl, rfl⟩
    | noChoice going asked => rw [asked]; exact ⟨rfl, rfl, rfl, rfl⟩
    | choose going asked run => rw [asked]; exact run
  · intro h
    rcases asked : outcome (host.firstHolding (conditionsOf branches)) p with ⟨_ | _ | _, p₁⟩ <;>
      rw [asked] at h
    · obtain ⟨rfl, rfl, rfl, rfl⟩ := h
      exact .choiceFails hs asked
    · obtain ⟨rfl, rfl, rfl, rfl⟩ := h
      exact .noChoice hs asked
    · exact .choose hs asked h

theorem Block.countsDown_loop (c : Option String) {body : Sequence}
    (inside : body.rearmed.CountsDown host) {stage : Stage} (hs : stage ≠ .finished) :
    (Block.loop stage c body).CountsDown host := by
  intro p n xs e q
  have pass (p : Nat × σ) := rest_pass_iff (c := c) (inside p) (Sequence.begun_step body.rearmed p)
    (Sequence.reset_step body.rearmed p)
  rw [Block.step_loop hs, outcome_bind]
  by_cases fresh : body.rearmed.stage = .fresh
  · rw [rest_loop_iff_of_fresh hs fresh, Block.asksPass, if_pos fresh]
    rcases outcome (host.holds c) p with ⟨e' | _ | _, p₁⟩
    · exact follows_error.symm
    · exact follows_nothing.symm
    · exact pass p₁ n xs e q
  · rw [rest_resume_iff hs fresh, Block.asksPass, if_neg fresh]
    exact pass p n xs e q

theorem Block.countsDown_choice {branches : List Branch}
    (inside : ∀ b ∈ branches, b.body.CountsDown host) (chosen : Option Nat) {stage : Stage}
    (hs : stage ≠ .finished) : (Block.choice stage branches chosen).CountsDown host := by
  intro p n xs e q
  rw [Block.step_choice hs, outcome_bind]
  cases chosen with
  | some i => exact rest_chosen_iff hs inside i p n xs e q
  | none =>
    rw [rest_unchosen_iff hs]
    simp only [Block.asksChoice]
    rcases outcome (host.firstHolding (conditionsOf branches)) p with ⟨e' | _ | i, p₁⟩
    · exact follows_error.symm
    · exact follows_nothing.symm
    · exact rest_chosen_iff (by simp) inside i p₁ n xs e q

/-- A step takes one off the rest of a sequence, and of a block, unless it is the last. -/
theorem Block.countsDown_step :
    (∀ s : Sequence, s.CountsDown host) ∧ ∀ b : Block, b.CountsDown host := by
  refine Block.step_induction ?nil ?cons ?item ?exec ?leave ?loop ?choice
  case nil =>
    intro behind stage p n xs e q
    simp only [Sequence.step, outcome_pure]
    refine Iff.trans ?_ follows_nothing.symm
    constructor
    · rintro ⟨⟩
      exact ⟨rfl, rfl, rfl, rfl⟩
    · rintro ⟨rfl, rfl, rfl, rfl⟩
      exact .nil
  case cons =>
    intro behind b ahead stage ih p n xs e q
    simp only [Sequence.step, outcome_bind, outcome_pure]
    exact rest_blocks_iff (ih p) n xs e q
  case item => exact fun _ _ _ _ => Block.countsDown_of_act rfl
  case exec => exact fun _ _ _ => Block.countsDown_of_act rfl
  case leave => exact fun _ _ => Block.countsDown_of_act rfl
  case loop =>
    intro stage c body ih
    by_cases hs : stage = .finished
    · exact Block.countsDown_of_isFinished (Block.isFinished_iff.mpr hs)
    · exact Block.countsDown_loop c ih hs
  case choice =>
    intro stage branches chosen ih
    by_cases hs : stage = .finished
    · exact Block.countsDown_of_isFinished (Block.isFinished_iff.mpr hs)
    · exact Block.countsDown_choice ih chosen hs

/-- **A step takes one off the rest of a sequence**, unless it is the last. -/
theorem Sequence.countsDown (s : Sequence) : s.CountsDown host := Block.countsDown_step.1 s

/-! ## Driving -/

/-- A `leave` ends the sequence it reaches. -/
theorem Sequence.isFinished_of_left {s s' : Sequence} {p p' : Nat × σ}
    (stepped : outcome (s.step host) p = ((.ok .left, s'), p')) : s'.isFinished = true := by
  rcases s with ⟨behind, _ | ⟨b, ahead⟩, stage⟩
  · simp [Sequence.step] at stepped
  · simp only [Sequence.step, outcome_bind, outcome_pure, Prod.mk.injEq] at stepped
    obtain ⟨⟨left, rfl⟩, -⟩ := stepped
    rw [left]
    rfl

/-- What drives a finished program does nothing. -/
theorem Drives.of_isFinished {program : Sequence} {p q : Nat × σ} {xs : List ι}
    {result : Except ε Unit} (run : Drives host program p xs result q)
    (ended : program.isFinished = true) : xs = [] ∧ result = .ok () ∧ q = p := by
  cases run with
  | finished => exact ⟨rfl, rfl, rfl⟩
  | failed going => rw [ended] at going; cases going
  | step going => rw [ended] at going; cases going

/-- Driving a program shows what was left of it. -/
theorem Drives.rest {program : Sequence} {p q : Nat × σ} {xs : List ι}
    {result : Except ε Unit} (run : Drives host program p xs result q)
    (going : program.isFinished = false) :
    ∃ n e, e.result = result ∧ Rest host n (.blocks program.ahead) p xs e q := by
  induction run with
  | finished ended => rw [going] at ended; cases ended
  | @failed program program' p q e _ stepped =>
    refine ⟨1, .failed e, rfl, (program.countsDown _ _ _ _ _).mpr ?_⟩
    rw [stepped]
    exact .failed rfl
  | @step program program' p p₁ q s xs result _ stepped others ih =>
    by_cases left : s = .left
    · subst left
      have ended := Sequence.isFinished_of_left stepped
      obtain ⟨rfl, rfl, rfl⟩ := others.of_isFinished ended
      refine ⟨1, .left, rfl, (program.countsDown _ _ _ _ _).mpr ?_⟩
      rw [stepped]
      exact .left rfl
    · cases ended : program'.isFinished with
      | true =>
        obtain ⟨rfl, rfl, rfl⟩ := others.of_isFinished ended
        refine ⟨1, .done, rfl, (program.countsDown _ _ _ _ _).mpr ?_⟩
        rw [stepped, List.append_nil]
        exact .last rfl left ended
      | false =>
        obtain ⟨n, e, hr, rest⟩ := ih ended
        refine ⟨n + 1, e, hr, (program.countsDown _ _ _ _ _).mpr ?_⟩
        rw [stepped]
        exact .more rfl left ended rest

/-- And what is left of a program is shown by driving it: each step leaves
less. -/
theorem Rest.drives {n : Nat} {program : Sequence} {p q : Nat × σ} {xs : List ι}
    {e : Ending ε} (rest : Rest host n (.blocks program.ahead) p xs e q)
    (going : program.isFinished = false) : Drives host program p xs e.result q := by
  induction n generalizing program p xs with
  | zero => cases (program.countsDown _ _ _ _ _).mp rest
  | succ n ih =>
    have h := (program.countsDown _ _ _ _ _).mp rest
    rcases stepped : outcome (program.step host) p with ⟨⟨r, program'⟩, p'⟩
    rw [stepped] at h
    cases h with
    | failed h =>
      cases h
      exact .failed going stepped
    | left h =>
      cases h
      exact .step going stepped (.finished (Sequence.isFinished_of_left stepped))
    | last h hs ended =>
      cases h
      have run := Drives.step going stepped (.finished ended)
      rwa [List.append_nil] at run
    | more h hs going' others =>
      cases h
      exact .step going stepped (ih others going')

/-- **Driving a program shows exactly what is left of it.** -/
theorem drives_iff_rest {program : Sequence} (going : program.isFinished = false)
    {p q : Nat × σ} {xs : List ι} {result : Except ε Unit} :
    Drives host program p xs result q ↔
      ∃ n e, e.result = result ∧ Rest host n (.blocks program.ahead) p xs e q := by
  constructor
  · exact fun run => run.rest going
  · rintro ⟨n, e, rfl, rest⟩
    exact rest.drives going

end WatchView
