import WatchView.Proofs.Program.Compiled
/-!
# Hosts that keep a record

A host can be watched: another host does the same and keeps a record of it
in its state. Executions with the one are executions with the other. And
what every act of a host preserves is preserved by executions.
-/

namespace WatchView

variable {σ τ ε ι : Type}

/-- The state without the record. -/
def Host.Forgets (forget : Nat × τ → Nat × σ) {α : Type} (watched : StateT Nat (StateM τ) α)
    (act : StateT Nat (StateM σ) α) : Prop :=
  ∀ p, outcome act (forget p) = ((outcome watched p).1, forget (outcome watched p).2)

/-- A host does what another one does, but for a record in its state. -/
structure Host.Watches (forget : Nat × τ → Nat × σ) (watching : Host (StateT Nat (StateM τ)) ε ι)
    (host : Host (StateT Nat (StateM σ)) ε ι) : Prop where
  holds (condition : Option String) :
    Forgets forget (watching.holds condition) (host.holds condition)
  item (name : Option String) (value : String) :
    Forgets forget (watching.item name value) (host.item name value)
  exec (value : String) : Forgets forget (watching.exec value) (host.exec value)

section Watching

variable {forget : Nat × τ → Nat × σ} {watching : Host (StateT Nat (StateM τ)) ε ι}
  {host : Host (StateT Nat (StateM σ)) ε ι}

theorem Host.Forgets.down {α : Type} {watched : StateT Nat (StateM τ) α}
    {act : StateT Nat (StateM σ) α} (h : Forgets forget watched act) {p q : Nat × τ} {a : α}
    (done : outcome watched p = (a, q)) : outcome act (forget p) = (a, forget q) := by
  rw [h p, done]

theorem Host.Forgets.up {α : Type} {watched : StateT Nat (StateM τ) α}
    {act : StateT Nat (StateM σ) α} (h : Forgets forget watched act) {p : Nat × τ}
    {q : Nat × σ} {a : α} (done : outcome act (forget p) = (a, q)) :
    ∃ q', forget q' = q ∧ outcome watched p = (a, q') := by
  rw [h p] at done
  cases done
  exact ⟨_, rfl, rfl⟩

/-- An execution that is watched is an execution. -/
theorem Means.unwatched (h : watching.Watches forget host) {phrase : Phrase} {p q : Nat × τ}
    {xs : List ι} {e : Ending ε} (run : Means watching phrase p xs e q) :
    Means host phrase (forget p) xs e (forget q) := by
  induction run with
  | nil => exact .nil
  | cons _ _ ih₁ ih₂ => exact .cons ih₁ ih₂
  | stop _ ends ih => exact .stop ih ends
  | guardFails guarded asked => exact .guardFails guarded ((h.holds _).down asked)
  | passedOver guarded asked => exact .passedOver guarded ((h.holds _).down asked)
  | item asked shown => exact .item ((h.holds _).down asked) ((h.item _ _).down shown)
  | itemFails asked shown => exact .itemFails ((h.holds _).down asked) ((h.item _ _).down shown)
  | exec asked done => exact .exec ((h.holds _).down asked) ((h.exec _).down done)
  | execFails asked done => exact .execFails ((h.holds _).down asked) ((h.exec _).down done)
  | leave asked => exact .leave ((h.holds _).down asked)
  | repeated _ ih => exact .repeated ih
  | chosen _ ih => exact .chosen ih
  | noBranch => exact .noBranch
  | branchFails asked => exact .branchFails ((h.holds _).down asked)
  | branch asked _ ih => exact .branch ((h.holds _).down asked) ih
  | nextBranch asked _ ih => exact .nextBranch ((h.holds _).down asked) ih
  | loopFails asked => exact .loopFails ((h.holds _).down asked)
  | loopEnds asked => exact .loopEnds ((h.holds _).down asked)
  | pass asked _ _ ih₁ ih₂ => exact .pass ((h.holds _).down asked) ih₁ ih₂
  | passLeft asked _ ih => exact .passLeft ((h.holds _).down asked) ih
  | passFails asked _ ih => exact .passFails ((h.holds _).down asked) ih

/-- And every execution can be watched. -/
theorem Means.watched (h : watching.Watches forget host) {phrase : Phrase} {p₀ q₀ : Nat × σ}
    {xs : List ι} {e : Ending ε} (run : Means host phrase p₀ xs e q₀) :
    ∀ p, forget p = p₀ → ∃ q, forget q = q₀ ∧ Means watching phrase p xs e q := by
  -- each act of the host is watched by itself, from the state in which watching the one before
  -- ended
  induction run with
  | nil => exact fun p hp => ⟨p, hp, .nil⟩
  | cons _ _ ih₁ ih₂ =>
    intro p hp
    obtain ⟨p₁, hp₁, first⟩ := ih₁ p hp
    obtain ⟨q, hq, others⟩ := ih₂ p₁ hp₁
    exact ⟨q, hq, .cons first others⟩
  | stop _ ends ih =>
    intro p hp
    obtain ⟨q, hq, first⟩ := ih p hp
    exact ⟨q, hq, .stop first ends⟩
  | guardFails guarded asked =>
    rintro p rfl
    obtain ⟨q, hq, asked⟩ := (h.holds _).up asked
    exact ⟨q, hq, .guardFails guarded asked⟩
  | passedOver guarded asked =>
    rintro p rfl
    obtain ⟨q, hq, asked⟩ := (h.holds _).up asked
    exact ⟨q, hq, .passedOver guarded asked⟩
  | item asked shown =>
    rintro p rfl
    obtain ⟨p₁, rfl, asked'⟩ := (h.holds _).up asked
    obtain ⟨q, hq, shown⟩ := (h.item _ _).up shown
    exact ⟨q, hq, .item asked' shown⟩
  | itemFails asked shown =>
    rintro p rfl
    obtain ⟨p₁, rfl, asked'⟩ := (h.holds _).up asked
    obtain ⟨q, hq, shown⟩ := (h.item _ _).up shown
    exact ⟨q, hq, .itemFails asked' shown⟩
  | exec asked done =>
    rintro p rfl
    obtain ⟨p₁, rfl, asked'⟩ := (h.holds _).up asked
    obtain ⟨q, hq, done⟩ := (h.exec _).up done
    exact ⟨q, hq, .exec asked' done⟩
  | execFails asked done =>
    rintro p rfl
    obtain ⟨p₁, rfl, asked'⟩ := (h.holds _).up asked
    obtain ⟨q, hq, done⟩ := (h.exec _).up done
    exact ⟨q, hq, .execFails asked' done⟩
  | leave asked =>
    rintro p rfl
    obtain ⟨q, hq, asked⟩ := (h.holds _).up asked
    exact ⟨q, hq, .leave asked⟩
  | repeated _ ih =>
    intro p hp
    obtain ⟨q, hq, passes⟩ := ih p hp
    exact ⟨q, hq, .repeated passes⟩
  | chosen _ ih =>
    intro p hp
    obtain ⟨q, hq, choice⟩ := ih p hp
    exact ⟨q, hq, .chosen choice⟩
  | noBranch => exact fun p hp => ⟨p, hp, .noBranch⟩
  | branchFails asked =>
    rintro p rfl
    obtain ⟨q, hq, asked⟩ := (h.holds _).up asked
    exact ⟨q, hq, .branchFails asked⟩
  | branch asked _ ih =>
    rintro p rfl
    obtain ⟨p₁, hp₁, asked⟩ := (h.holds _).up asked
    obtain ⟨q, hq, run⟩ := ih p₁ hp₁
    exact ⟨q, hq, .branch asked run⟩
  | nextBranch asked _ ih =>
    rintro p rfl
    obtain ⟨p₁, hp₁, asked⟩ := (h.holds _).up asked
    obtain ⟨q, hq, others⟩ := ih p₁ hp₁
    exact ⟨q, hq, .nextBranch asked others⟩
  | loopFails asked =>
    rintro p rfl
    obtain ⟨q, hq, asked⟩ := (h.holds _).up asked
    exact ⟨q, hq, .loopFails asked⟩
  | loopEnds asked =>
    rintro p rfl
    obtain ⟨q, hq, asked⟩ := (h.holds _).up asked
    exact ⟨q, hq, .loopEnds asked⟩
  | pass asked _ _ ih₁ ih₂ =>
    rintro p rfl
    obtain ⟨p₁, hp₁, asked⟩ := (h.holds _).up asked
    obtain ⟨p₂, hp₂, once⟩ := ih₁ p₁ hp₁
    obtain ⟨q, hq, again⟩ := ih₂ p₂ hp₂
    exact ⟨q, hq, .pass asked once again⟩
  | passLeft asked _ ih =>
    rintro p rfl
    obtain ⟨p₁, hp₁, asked⟩ := (h.holds _).up asked
    obtain ⟨q, hq, once⟩ := ih p₁ hp₁
    exact ⟨q, hq, .passLeft asked once⟩
  | passFails asked _ ih =>
    rintro p rfl
    obtain ⟨p₁, hp₁, asked⟩ := (h.holds _).up asked
    obtain ⟨q, hq, once⟩ := ih p₁ hp₁
    exact ⟨q, hq, .passFails asked once⟩

/-- **Watching changes nothing.** -/
theorem means_iff_watched (h : watching.Watches forget host) {phrase : Phrase} {p : Nat × τ}
    {q₀ : Nat × σ} {xs : List ι} {e : Ending ε} :
    Means host phrase (forget p) xs e q₀ ↔ ∃ q, forget q = q₀ ∧ Means watching phrase p xs e q := by
  constructor
  · exact fun run => run.watched h p rfl
  · rintro ⟨q, rfl, run⟩
    exact run.unwatched h

end Watching

/-! ## What executions preserve -/

/-- What every act of a host preserves. -/
structure Host.Preserves (host : Host (StateT Nat (StateM σ)) ε ι) (inv : Nat × σ → Prop) :
    Prop where
  holds (condition : Option String) (p : Nat × σ) (hp : inv p) :
    inv (outcome (host.holds condition) p).2
  item (name : Option String) (value : String) (p : Nat × σ) (hp : inv p) :
    inv (outcome (host.item name value) p).2
  exec (value : String) (p : Nat × σ) (hp : inv p) : inv (outcome (host.exec value) p).2

/-- What the acts of a host preserve is preserved by executions. -/
theorem Means.preserves {host : Host (StateT Nat (StateM σ)) ε ι} {inv : Nat × σ → Prop}
    (h : host.Preserves inv) {phrase : Phrase} {p q : Nat × σ} {xs : List ι} {e : Ending ε}
    (run : Means host phrase p xs e q) (hp : inv p) : inv q := by
  have holds {c : Option String} {p q : Nat × σ} {r : Except ε Bool} (hp : inv p)
      (asked : outcome (host.holds c) p = (r, q)) : inv q := by
    have hq := h.holds c p hp
    rwa [asked] at hq
  have item {name : Option String} {value : String} {p q : Nat × σ} {r : Except ε ι}
      (hp : inv p) (shown : outcome (host.item name value) p = (r, q)) : inv q := by
    have hq := h.item name value p hp
    rwa [shown] at hq
  have exec {value : String} {p q : Nat × σ} {r : Except ε Unit} (hp : inv p)
      (done : outcome (host.exec value) p = (r, q)) : inv q := by
    have hq := h.exec value p hp
    rwa [done] at hq
  -- the invariant goes from act to act in the order of each rule
  induction run with
  | nil => exact hp
  | cons _ _ ih₁ ih₂ => exact ih₂ (ih₁ hp)
  | stop _ _ ih => exact ih hp
  | guardFails _ asked => exact holds hp asked
  | passedOver _ asked => exact holds hp asked
  | item asked shown => exact item (holds hp asked) shown
  | itemFails asked shown => exact item (holds hp asked) shown
  | exec asked done => exact exec (holds hp asked) done
  | execFails asked done => exact exec (holds hp asked) done
  | leave asked => exact holds hp asked
  | repeated _ ih => exact ih hp
  | chosen _ ih => exact ih hp
  | noBranch => exact hp
  | branchFails asked => exact holds hp asked
  | branch asked _ ih => exact ih (holds hp asked)
  | nextBranch asked _ ih => exact ih (holds hp asked)
  | loopFails asked => exact holds hp asked
  | loopEnds asked => exact holds hp asked
  | pass asked _ _ ih₁ ih₂ => exact ih₂ (ih₁ (holds hp asked))
  | passLeft asked _ ih => exact ih (holds hp asked)
  | passFails asked _ ih => exact ih (holds hp asked)

end WatchView
