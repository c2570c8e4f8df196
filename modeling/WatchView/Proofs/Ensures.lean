import WatchView.Proofs.Bounded
/-!
# What work ensures

Work within a bound may have no outcome. `Ensures act s P` says what holds of
the outcome if there is one. Work that is made of parts ensures what its last
part ensures after the others (`ensures_bind_iff`), so that a definition is
followed line by line. `Returns act s P` says that there is an outcome, and
what holds of it.

Last come two kinds of work that always comes to an end: what leaves the kept listings
alone (`Run.Quiet`), and what touches only the debugger and the rules (`Run.Light`).
-/

namespace WatchView.Bounded

variable {σ ν α β : Type}

/-- **What holds of the outcome of work on a state**, if it has one. -/
def Ensures (act : Bounded σ α) (s : σ) (P : α → σ → Prop) : Prop :=
  ∀ a s', act s = .ok (a, s') → P a s'

variable {act : Bounded σ α} {s : σ} {P Q : α → σ → Prop}

theorem Ensures.mono (h : Ensures act s P) (weaker : ∀ a s', P a s' → Q a s') :
    Ensures act s Q :=
  fun a s' ended => weaker a s' (h a s' ended)

theorem Ensures.and (h : Ensures act s P) (h' : Ensures act s Q) :
    Ensures act s fun a s' => P a s' ∧ Q a s' :=
  fun a s' ended => ⟨h a s' ended, h' a s' ended⟩

theorem ensures_true (act : Bounded σ α) (s : σ) : Ensures act s fun _ _ => True :=
  fun _ _ _ => trivial

@[simp] theorem ensures_pure_iff {a : α} : Ensures (pure a) s P ↔ P a s := by
  constructor
  · intro h
    exact h a s rfl
  · intro h a' s' ended
    cases ended
    exact h

/-- **Work ensures what its last part ensures after the others.** -/
theorem ensures_bind_iff {next : α → Bounded σ β} {P : β → σ → Prop} :
    Ensures (act >>= next) s P ↔ Ensures act s fun a s' => Ensures (next a) s' P := by
  constructor
  · intro h a s' first b s'' second
    exact h b s'' (bind_eq_ok_iff.mpr ⟨(a, s'), first, second⟩)
  · intro h b s'' ended
    obtain ⟨⟨a, s'⟩, first, second⟩ := bind_eq_ok_iff.mp ended
    exact h a s' first b s'' second

/-- The usual way to use it: what the first part ensures is what the rest
begins with. -/
theorem Ensures.bind {next : α → Bounded σ β} {Q : β → σ → Prop} (first : Ensures act s P)
    (rest : ∀ a s', P a s' → Ensures (next a) s' Q) : Ensures (act >>= next) s Q :=
  ensures_bind_iff.mpr (first.mono rest)

/-- Of work whose outcome is known that outcome is all there is to see. -/
theorem ensures_of_eq {a : α} {s' : σ} (ends : act s = .ok (a, s')) (holds : P a s') :
    Ensures act s P := by
  intro r s'' ended
  cases ends.symm.trans ended
  exact holds

theorem ensures_same (a : α) (s : σ) :
    Ensures (pure a : Bounded σ α) s fun r s' => r = a ∧ s' = s :=
  ensures_pure_iff.mpr ⟨rfl, rfl⟩

/-- Work behind work that can only end with one answer and changes nothing. -/
theorem Ensures.bind_same {a : α} {next : α → Bounded σ β} {Q : β → σ → Prop}
    (first : Ensures act s fun r s' => r = a ∧ s' = s) (rest : Ensures (next a) s Q) :
    Ensures (act >>= next) s Q := by
  refine first.bind fun r s' same => ?_
  obtain ⟨rfl, rfl⟩ := same
  exact rest

@[simp] theorem ensures_unfinished : Ensures (unfinished : Bounded σ α) s P := by
  intro a s' ended
  cases ended

@[simp] theorem ensures_overflow : Ensures (overflow : Bounded σ α) s P := by
  intro a s' ended
  cases ended

@[simp] theorem ensures_get_iff {P : σ → σ → Prop} :
    Ensures (get : Bounded σ σ) s P ↔ P s s := by
  constructor
  · intro h
    exact h s s rfl
  · intro h a s' ended
    cases ended
    exact h

@[simp] theorem ensures_modify_iff {change : σ → σ} {P : PUnit → σ → Prop} :
    Ensures (modify change : Bounded σ PUnit) s P ↔ P ⟨⟩ (change s) := by
  constructor
  · intro h
    exact h ⟨⟩ (change s) rfl
  · intro h a s' ended
    cases ended
    exact h

/-! ## Work that comes to an end -/

theorem ensures_lift_iff {act : StateM σ α} :
    Ensures (liftM act : Bounded σ α) s P ↔ P (act s).1 (act s).2 := by
  constructor
  · intro h
    exact h _ _ rfl
  · intro h a s' ended
    have same : act s = (a, s') := Except.ok.inj ended
    rw [same] at h
    exact h

theorem ensures_lift_bind_iff {act : StateM σ α} {next : α → StateM σ β}
    {P : β → σ → Prop} :
    Ensures (liftM (act >>= next) : Bounded σ β) s P ↔
      Ensures (liftM act : Bounded σ α) s fun a s' => Ensures (liftM (next a) : Bounded σ β) s' P := by
  simp only [ensures_lift_iff]
  exact Iff.rfl

@[simp] theorem ensures_lift_pure_iff {a : α} :
    Ensures (liftM (pure a : StateM σ α) : Bounded σ α) s P ↔ P a s :=
  ensures_lift_iff

@[simp] theorem ensures_lift_get_iff {P : σ → σ → Prop} :
    Ensures (liftM (get : StateM σ σ) : Bounded σ σ) s P ↔ P s s :=
  ensures_lift_iff

/-! ## Work on the debugger -/

theorem ensures_ofTarget_iff {act : Bounded σ α} {s : Session σ ν}
    {P : α → Session σ ν → Prop} :
    Ensures (Search.ofTarget act) s P ↔
      Ensures act s.target fun a t => P a { s with target := t } := by
  constructor
  · intro h a t ended
    exact h a _ (ofTarget_eq_ok_iff.mpr ⟨t, ended, rfl⟩)
  · intro h a s' ended
    obtain ⟨t, ended, hs⟩ := ofTarget_eq_ok_iff.mp ended
    obtain rfl : s' = { s with target := t } := hs
    exact h a t ended

theorem ensures_target_iff {act : StateM σ α} {s : Session σ ν} {P : α → Session σ ν → Prop} :
    Ensures (liftM act : Search σ ν α) s P ↔
      Ensures (liftM act : Bounded σ α) s.target fun a t => P a { s with target := t } := by
  constructor
  · intro h
    rw [ensures_lift_iff]
    exact h _ _ rfl
  · intro h a s' ended
    rw [ensures_lift_iff] at h
    have same : ((act s.target).1, { s with target := (act s.target).2 }) = (a, s') :=
      Except.ok.inj ended
    cases same
    exact h

/-! ## Work that has an outcome -/

/-- **Work that has an outcome on a state**, and what holds of it. -/
def Returns (act : Bounded σ α) (s : σ) (P : α → σ → Prop) : Prop :=
  ∃ a s', act s = .ok (a, s') ∧ P a s'

theorem Returns.mono (h : Returns act s P) (weaker : ∀ a s', P a s' → Q a s') :
    Returns act s Q := by
  obtain ⟨a, s', ended, holds⟩ := h
  exact ⟨a, s', ended, weaker a s' holds⟩

/-- The outcome is as the work ensures. -/
theorem Returns.and (h : Returns act s P) (ensured : Ensures act s Q) :
    Returns act s fun a s' => P a s' ∧ Q a s' := by
  obtain ⟨a, s', ended, holds⟩ := h
  exact ⟨a, s', ended, holds, ensured a s' ended⟩

theorem returns_pure {a : α} (h : P a s) : Returns (pure a) s P := ⟨a, s, rfl, h⟩

/-- **Work returns if its parts do**, each after the others. -/
theorem Returns.bind {next : α → Bounded σ β} {Q : β → σ → Prop} (first : Returns act s P)
    (rest : ∀ a s', P a s' → Returns (next a) s' Q) : Returns (act >>= next) s Q := by
  obtain ⟨a, s', ended, holds⟩ := first
  obtain ⟨b, s'', ended', holds'⟩ := rest a s' holds
  exact ⟨b, s'', bind_eq_ok_iff.mpr ⟨(a, s'), ended, ended'⟩, holds'⟩

/-- Work that always comes to an end returns. -/
theorem returns_lift (act : StateM σ α) (s : σ) :
    Returns (liftM act : Bounded σ α) s fun _ _ => True := ⟨_, _, rfl, trivial⟩

theorem returns_ofTarget {act : Bounded σ α} {s : Session σ ν} {P : α → Session σ ν → Prop}
    (h : Returns act s.target fun a t => P a { s with target := t }) :
    Returns (Search.ofTarget act) s P := by
  obtain ⟨a, t, ended, holds⟩ := h
  exact ⟨a, _, ofTarget_eq_ok_iff.mpr ⟨t, ended, rfl⟩, holds⟩

end WatchView.Bounded

/-! ## Work that leaves the kept listings alone -/

namespace WatchView.Run

variable {σ ν α β : Type}

/-- Work that leaves the kept listings alone. -/
def Quiet (act : Run σ ν α) : Prop := ∀ s, (act s).2.listings = s.listings

theorem quiet_pure (a : α) : Quiet (pure a : Run σ ν α) := fun _ => rfl

theorem quiet_get : Quiet (get : Run σ ν (Session σ ν)) := fun _ => rfl

theorem quiet_target (act : StateM σ α) : Quiet (liftM act : Run σ ν α) := fun _ => rfl

theorem Quiet.bind {act : Run σ ν α} {next : α → Run σ ν β} (h : act.Quiet)
    (h' : ∀ a, (next a).Quiet) : Quiet (act >>= next) :=
  fun s => (h' (act s).1 (act s).2).trans (h s)

theorem Quiet.ensures {act : Run σ ν α} (h : act.Quiet) (s : Session σ ν) :
    Bounded.Ensures (liftM act : Search σ ν α) s fun _ s' => s'.listings = s.listings :=
  Bounded.ensures_lift_iff.mpr (h s)

/-! ## Light work -/

/-- Work that changes at most the state of the debugger and the answers of the rule
book. -/
def Light (act : Run σ ν α) : Prop := ∀ s, ∃ target book, (act s).2 = { s with target, book }

theorem light_pure (a : α) : Light (pure a : Run σ ν α) := fun _ => ⟨_, _, rfl⟩

theorem light_target (act : StateM σ α) : Light (liftM act : Run σ ν α) := fun _ => ⟨_, _, rfl⟩

theorem Light.bind {act : Run σ ν α} {next : α → Run σ ν β} (h : act.Light)
    (h' : ∀ a, (next a).Light) : Light (act >>= next) := by
  intro s
  obtain ⟨_, _, first⟩ := h s
  obtain ⟨target, book, second⟩ := h' (act s).1 (act s).2
  refine ⟨target, book, second.trans ?_⟩
  rw [first]

theorem Light.quiet {act : Run σ ν α} (h : act.Light) : act.Quiet := by
  intro s
  obtain ⟨_, _, same⟩ := h s
  rw [same]

end WatchView.Run
