import WatchView.Session
/-!
# Bounds do not matter

Work within a bound either ends in one way within every larger bound, or in
none. So what it comes to can be said without the bound: `Ends`. Work that is
made of parts ends as its parts do (`ends_bind_iff`). Whether it comes to an end at
all is `Halts`.
-/

namespace WatchView.Bounded

variable {σ ν α β : Type}

/-- Work that ends in the same way within larger bounds. -/
def Steady (act : Nat → Bounded σ α) : Prop :=
  ∀ ⦃b b' : Nat⦄ ⦃s : σ⦄ ⦃r : α × σ⦄, b ≤ b' → act b s = .ok r → act b' s = .ok r

/-- What work comes to within some bound. -/
def Ends (act : Nat → Bounded σ α) (s : σ) (r : α × σ) : Prop := ∃ b, act b s = .ok r

theorem steady_const (act : Bounded σ α) : Steady fun _ => act := fun _ _ _ _ _ h => h

theorem ends_const_iff {act : Bounded σ α} {s : σ} {r : α × σ} :
    Ends (fun _ => act) s r ↔ act s = .ok r :=
  ⟨fun ⟨_, h⟩ => h, fun h => ⟨0, h⟩⟩

theorem ends_pure_iff {a : α} {s : σ} {r : α × σ} :
    Ends (fun _ => (pure a : Bounded σ α)) s r ↔ r = (a, s) := by
  rw [ends_const_iff]
  exact ⟨fun h => (Except.ok.inj h).symm, fun h => h ▸ rfl⟩

theorem Ends.unique {act : Nat → Bounded σ α} (steady : Steady act) {s : σ} {r r' : α × σ}
    (h : Ends act s r) (h' : Ends act s r') : r' = r := by
  obtain ⟨b, h⟩ := h
  obtain ⟨b', h'⟩ := h'
  have h₁ := steady (Nat.le_max_left b b') h
  have h₂ := steady (Nat.le_max_right b b') h'
  rw [h₁] at h₂
  exact (Except.ok.inj h₂).symm

/-- An outcome to which a function was applied. -/
theorem map_eq_ok_iff {f : α → β} {outcome : Except Stop α} {b : β} :
    outcome.map f = .ok b ↔ ∃ a, outcome = .ok a ∧ f a = b := by
  cases outcome with
  | error stop => simp [Except.map]
  | ok a => simp [Except.map]

theorem bind_eq_ok_iff {act : Bounded σ α} {next : α → Bounded σ β} {s : σ} {r : β × σ} :
    (act >>= next) s = .ok r ↔ ∃ m, act s = .ok m ∧ next m.1 m.2 = .ok r := by
  simp only [bind, StateT.bind]
  cases act s with
  | error stop => simp [Except.bind]
  | ok m => simp [Except.bind]

theorem bind_of_eq_ok {act : Bounded σ α} {next : α → Bounded σ β} {s s' : σ} {a : α}
    (ended : act s = .ok (a, s')) : (act >>= next) s = next a s' := by
  change (act s).bind (fun m => next m.1 m.2) = _
  rw [ended]
  rfl

theorem lift_bind_apply {act : StateM σ α} {next : α → Bounded σ β} (s : σ) :
    ((liftM act : Bounded σ α) >>= next) s = next (act s).1 (act s).2 := rfl

theorem Steady.bind {act : Nat → Bounded σ α} {next : Nat → α → Bounded σ β}
    (h : Steady act) (h' : ∀ a, Steady fun b => next b a) :
    Steady fun b => act b >>= next b := by
  intro b b' s r le hb
  obtain ⟨m, first, second⟩ := bind_eq_ok_iff.mp hb
  exact bind_eq_ok_iff.mpr ⟨m, h le first, h' m.1 le second⟩

/-- **Work ends as its parts do.** -/
theorem ends_bind_iff {act : Nat → Bounded σ α} {next : Nat → α → Bounded σ β}
    (h : Steady act) (h' : ∀ a, Steady fun b => next b a) {s : σ} {r : β × σ} :
    Ends (fun b => act b >>= next b) s r ↔
      ∃ m, Ends act s m ∧ Ends (fun b => next b m.1) m.2 r := by
  constructor
  · rintro ⟨b, hb⟩
    obtain ⟨m, first, second⟩ := bind_eq_ok_iff.mp hb
    exact ⟨m, ⟨b, first⟩, ⟨b, second⟩⟩
  · rintro ⟨m, ⟨b, first⟩, ⟨b', second⟩⟩
    have first' := h (Nat.le_max_left b b') first
    have second' := h' m.1 (Nat.le_max_right b b') second
    exact ⟨max b b', bind_eq_ok_iff.mpr ⟨m, first', second'⟩⟩

/-! ## Work that comes to an end -/

/-- Work that ends within some bound. -/
def Halts (act : Nat → Bounded σ α) (s : σ) : Prop := ∃ r, Ends act s r

theorem halts_pure (a : α) (s : σ) : Halts (fun _ => (pure a : Bounded σ α)) s :=
  ⟨_, ends_pure_iff.mpr rfl⟩

/-- Work that comes to an end does not matter. -/
theorem halts_lift_bind_iff {act : StateM σ α} {next : Nat → α → Bounded σ β} {s : σ} :
    Halts (fun b => (liftM act : Bounded σ α) >>= next b) s ↔
      Halts (fun b => next b (act s).1) (act s).2 := Iff.rfl

/-- Work behind which nothing can go on for ever. -/
theorem halts_bind_iff_of_total {act : Nat → Bounded σ α} {next : Nat → α → Bounded σ β} {s : σ}
    (total : ∀ b a s', ∃ r, next b a s' = .ok r) :
    Halts (fun b => act b >>= next b) s ↔ Halts act s := by
  constructor
  · rintro ⟨r, b, h⟩
    obtain ⟨m, first, -⟩ := bind_eq_ok_iff.mp h
    exact ⟨m, b, first⟩
  · rintro ⟨m, b, first⟩
    obtain ⟨r, second⟩ := total b m.1 m.2
    exact ⟨r, b, bind_eq_ok_iff.mpr ⟨m, first, second⟩⟩

/-- Work ends if its first part does, and the rest behind it. -/
theorem halts_bind_iff {act : Nat → Bounded σ α} {next : Nat → α → Bounded σ β} {s : σ}
    (h : Steady act) (h' : ∀ a, Steady fun b => next b a) :
    Halts (fun b => act b >>= next b) s ↔
      ∃ m, Ends act s m ∧ Halts (fun b => next b m.1) m.2 := by
  constructor
  · rintro ⟨r, ends⟩
    obtain ⟨m, first, second⟩ := (ends_bind_iff h h').mp ends
    exact ⟨m, first, r, second⟩
  · rintro ⟨m, first, r, second⟩
    exact ⟨r, (ends_bind_iff h h').mpr ⟨m, first, second⟩⟩

/-! ## Work that is never given up -/

/-- **Work that is never given up**: it ends, or it meets its bound. -/
def Persists (act : Bounded σ α) : Prop := ∀ s, act s ≠ .error .overflow

theorem persists_lift (act : StateM σ α) : Persists (liftM act : Bounded σ α) := fun _ => nofun

theorem persists_pure (a : α) : Persists (pure a : Bounded σ α) := fun _ => nofun

theorem persists_unfinished : Persists (unfinished : Bounded σ α) := fun _ => nofun

theorem Persists.bind {act : Bounded σ α} {next : α → Bounded σ β} (first : Persists act)
    (rest : ∀ a, Persists (next a)) : Persists (act >>= next) := by
  intro s given
  have parts : (act >>= next) s = (act s).bind fun m => next m.1 m.2 := rfl
  rw [parts] at given
  cases ended : act s with
  | error stop =>
    rw [ended] at given
    cases given
    exact first s ended
  | ok m =>
    rw [ended] at given
    exact rest m.1 m.2 given

theorem Persists.ofTarget {act : Bounded σ α} (h : Persists act) :
    Persists (Search.ofTarget act : Search σ ν α) := by
  intro s given
  unfold Search.ofTarget at given
  cases ended : act s.target with
  | error stop =>
    rw [ended] at given
    cases given
    exact h _ ended
  | ok m =>
    rw [ended] at given
    cases given

/-- Such work meets its bound if it does not end. -/
theorem Persists.meets {act : Bounded σ α} (h : Persists act) {s : σ}
    (endless : ∀ r, act s ≠ .ok r) : act s = .error .bound := by
  cases ended : act s with
  | ok r => exact absurd ended (endless r)
  | error stop =>
    cases stop with
    | bound => rfl
    | overflow => exact absurd ended (h s)

/-! ## Work on the debugger -/

theorem ofTarget_eq_ok_iff {act : Bounded σ α} {s : Session σ ν} {r : α × Session σ ν} :
    Search.ofTarget act s = .ok r ↔
      ∃ t, act s.target = .ok (r.1, t) ∧ r.2 = { s with target := t } := by
  unfold Search.ofTarget
  constructor
  · intro h
    cases found : act s.target with
    | error stop =>
      rw [found] at h
      cases h
    | ok r' =>
      rw [found] at h
      cases h
      exact ⟨r'.2, rfl, rfl⟩
  · rintro ⟨t, found, hr⟩
    obtain ⟨a, s'⟩ := r
    obtain rfl : s' = { s with target := t } := hr
    rw [found]
    rfl

theorem Steady.ofTarget {act : Nat → Bounded σ α} (h : Steady act) :
    Steady fun b => (Search.ofTarget (act b) : Search σ ν α) := by
  intro b b' s r le hb
  obtain ⟨t, hb, hr⟩ := ofTarget_eq_ok_iff.mp hb
  exact ofTarget_eq_ok_iff.mpr ⟨t, h le hb, hr⟩

theorem ends_ofTarget_iff {act : Nat → Bounded σ α} {s : Session σ ν} {r : α × Session σ ν} :
    Ends (fun b => (Search.ofTarget (act b) : Search σ ν α)) s r ↔
      ∃ t, Ends act s.target (r.1, t) ∧ r.2 = { s with target := t } := by
  constructor
  · rintro ⟨b, hb⟩
    obtain ⟨t, hb, hr⟩ := ofTarget_eq_ok_iff.mp hb
    exact ⟨t, ⟨b, hb⟩, hr⟩
  · rintro ⟨t, ⟨b, hb⟩, hr⟩
    exact ⟨b, ofTarget_eq_ok_iff.mpr ⟨t, hb, hr⟩⟩

theorem halts_ofTarget_iff {act : Nat → Bounded σ α} {s : Session σ ν} :
    Halts (fun b => (Search.ofTarget (act b) : Search σ ν α)) s ↔ Halts act s.target := by
  constructor
  · rintro ⟨r, ends⟩
    obtain ⟨t, ends, -⟩ := ends_ofTarget_iff.mp ends
    exact ⟨_, ends⟩
  · rintro ⟨⟨a, t⟩, ends⟩
    exact ⟨(a, { s with target := t }), ends_ofTarget_iff.mpr ⟨t, ends, rfl⟩⟩

/-- Work on the debugger, done in a session. -/
theorem lift_target_eq {act : StateM σ α} {s : Session σ ν} {a : α} {t : σ}
    (h : act s.target = (a, t)) :
    (liftM act : Search σ ν α) s = .ok (a, { s with target := t }) := by
  have lifted : (liftM act : Search σ ν α) s =
      .ok ((act s.target).1, { s with target := (act s.target).2 }) := rfl
  rw [lifted, h]

/-- Work on the debugger that leaves it as it is leaves the session as it is. -/
theorem lift_eq {act : StateM σ α} {s : Session σ ν} {a : α} (h : act s.target = (a, s.target)) :
    (liftM act : Search σ ν α) s = .ok (a, s) :=
  lift_target_eq h

end WatchView.Bounded
