import WatchView.Proofs.Catalogue.Precedence
import WatchView.Proofs.Ensures
import WatchView.Proofs.Text
/-!
# The names that work gives out

A scratch name is made of the name of a variable and the number of names that were given
out before. The number is what stands behind the last underscore, whatever the variable is
called, so names with different numbers are different (`numbered_inj`).

The names that work on a session gives out are told by taking it apart (`Gives`). Nothing
but giving out a name changes their number, so they are numbered in order
(`Gives.exists_numberedFrom`). Work that is not at its end, and may never come to one, has
given out the names of its parts so far (`HasGiven`), and these are numbered in order as
well. Work whose names can be told however it ends is `Accounted`; work that is made of
such parts is accounted for in turn.
-/

namespace WatchView

open Bounded

variable {σ ν α β : Type}

/-! ## Names and numbers -/

/-- The scratch name of a variable if so many names were given out before. -/
def numbered (name : String) (n : Nat) : String := "$" ++ name ++ "_" ++ toString n

/-- The digits of a number are no underscores. -/
theorem underscore_notMem_toString (n : Nat) : '_' ∉ (toString n).toList := by
  intro mem
  have digits : (toString n).toList = Nat.toDigits 10 n := Nat.toList_repr
  rw [digits] at mem
  exact absurd (Nat.isDigit_of_mem_toDigits (by decide) (by decide) mem) (by decide)

/-- The number of a name is what stands behind its last underscore. -/
theorem cutAfterLast?_numbered (name : String) (n : Nat) :
    Text.cutAfterLast? '_' (numbered name n).toList =
      some ('$' :: name.toList ++ ['_'], (toString n).toList) := by
  refine Text.cutAfterLast?_eq_some_iff.mpr
    ⟨underscore_notMem_toString n, '$' :: name.toList, rfl, ?_⟩
  rw [numbered, String.toList_append, String.toList_append, String.toList_append,
    List.append_assoc]
  rfl

/-- **A scratch name tells the variable and the number**, also if the name of the variable
has underscores and digits in it. -/
theorem numbered_inj {name name' : String} {n n' : Nat} :
    numbered name n = numbered name' n' ↔ name = name' ∧ n = n' := by
  constructor
  · intro same
    have cut := cutAfterLast?_numbered name n
    rw [same, cutAfterLast?_numbered] at cut
    obtain ⟨front, digits⟩ := Prod.mk.inj (Option.some.inj cut)
    have front := List.append_cancel_right front
    exact ⟨String.toList_inj.mp (List.cons.inj front).2.symm,
      (Catalogue.toString_injective (String.toList_inj.mp digits)).symm⟩
  · rintro ⟨rfl, rfl⟩
    rfl

example : numbered "a" 1 = "$a_1" ∧ numbered "a_1" 0 = "$a_1_0" := by decide

/-- The names that variables are given one after the other. -/
def numberedFrom (n : Nat) (names : List String) : List String :=
  (names.zipIdx n).map fun p => numbered p.1 p.2

theorem length_numberedFrom (n : Nat) (names : List String) :
    (numberedFrom n names).length = names.length := by
  rw [numberedFrom, List.length_map, List.length_zipIdx]

theorem numberedFrom_append (n : Nat) (names names' : List String) :
    numberedFrom n (names ++ names') =
      numberedFrom n names ++ numberedFrom (n + names.length) names' := by
  rw [numberedFrom, List.zipIdx_append, List.map_append]
  rfl

/-- Names given one after the other are different. -/
theorem nodup_numberedFrom (n : Nat) (names : List String) : (numberedFrom n names).Nodup := by
  refine List.pairwise_iff_getElem.mpr fun i j hi hj before same => ?_
  simp only [numberedFrom, List.getElem_map, List.getElem_zipIdx] at same
  have := (numbered_inj.mp same).2
  omega

/-- Names numbered in order, and more of them from where their number ends. -/
theorem exists_numberedFrom_append {n n' n'' : Nat} {names names' : List String}
    (first : ∃ vars : List String, names = numberedFrom n vars ∧ n' = n + vars.length)
    (more : ∃ vars : List String, names' = numberedFrom n' vars ∧ n'' = n' + vars.length) :
    ∃ vars : List String, names ++ names' = numberedFrom n vars ∧ n'' = n + vars.length := by
  obtain ⟨vars, rfl, rfl⟩ := first
  obtain ⟨vars', rfl, rfl⟩ := more
  exact ⟨vars ++ vars', (numberedFrom_append n vars vars').symm,
    by rw [List.length_append, Nat.add_assoc]⟩

/-! ## The names that work gives out -/

/-- `Gives act s names a s'`: work goes from `s` to `s'`, answers `a` and gives out these
names on the way. -/
inductive Gives : {α : Type} → Search σ ν α → Session σ ν → List String → α → Session σ ν → Prop
  /-- Work that never changes their number gives out none. -/
  | idle {α : Type} {act : Search σ ν α} {s s' : Session σ ν} {a : α}
      (idle : ∀ s, Ensures act s fun _ s' => s'.scratchCount = s.scratchCount)
      (ended : act s = .ok (a, s')) : Gives act s [] a s'
  | scratchName (name : String) (s : Session σ ν) :
      Gives (liftM (Engine.scratchName name : Run σ ν String)) s [(Engine.scratchName name s).1]
        (Engine.scratchName name s).1 (Engine.scratchName name s).2
  | bind {α β : Type} {act : Search σ ν α} {next : α → Search σ ν β} {s s' s'' : Session σ ν}
      {names names' : List String} {a : α} {b : β} (first : Gives act s names a s')
      (rest : Gives (next a) s' names' b s'') : Gives (act >>= next) s (names ++ names') b s''

/-- Work that comes to an end gives out what its parts do. -/
theorem Gives.lift_bind {act : Run σ ν α} {next : α → Run σ ν β} {s s' s'' : Session σ ν}
    {names names' : List String} {a : α} {b : β} (first : Gives (liftM act) s names a s')
    (rest : Gives (liftM (next a)) s' names' b s'') :
    Gives (liftM (act >>= next)) s (names ++ names') b s'' := by
  change Gives (liftM act >>= fun a => (liftM (next a) : Search σ ν β)) s (names ++ names') b s''
  exact first.bind rest

theorem gives_lift_pure (a : α) (s : Session σ ν) :
    Gives (liftM (pure a : Run σ ν α)) s [] a s :=
  .idle (fun _ => ensures_lift_iff.mpr rfl) rfl

/-- **The names that work gives out are numbered in order**, and it counts them. -/
theorem Gives.exists_numberedFrom {act : Search σ ν α} {s s' : Session σ ν} {names : List String}
    {a : α} (h : Gives act s names a s') :
    ∃ vars : List String, names = numberedFrom s.scratchCount vars ∧
      s'.scratchCount = s.scratchCount + vars.length := by
  induction h with
  | idle idle ended => exact ⟨[], rfl, idle _ _ _ ended⟩
  | scratchName name s => exact ⟨[name], rfl, rfl⟩
  | bind first rest ih₁ ih₂ => exact exists_numberedFrom_append ih₁ ih₂

/-- `HasGiven act s names s'`: work that began in `s` has come as far as `s'`, and has given
out these names by then. Nothing is said of what is left to do: that may be nothing, or may
have no end. -/
inductive HasGiven :
    {α : Type} → Search σ ν α → Session σ ν → List String → Session σ ν → Prop
  | begun {α : Type} (act : Search σ ν α) (s : Session σ ν) : HasGiven act s [] s
  | ended {α : Type} {act : Search σ ν α} {s s' : Session σ ν} {names : List String} {a : α}
      (gives : Gives act s names a s') : HasGiven act s names s'
  /-- Work is still at its first part. -/
  | first {α β : Type} {act : Search σ ν α} {next : α → Search σ ν β} {s s' : Session σ ν}
      {names : List String} (part : HasGiven act s names s') :
      HasGiven (act >>= next) s names s'
  | behind {α β : Type} {act : Search σ ν α} {next : α → Search σ ν β}
      {s s' s'' : Session σ ν} {names names' : List String} {a : α}
      (first : Gives act s names a s') (part : HasGiven (next a) s' names' s'') :
      HasGiven (act >>= next) s (names ++ names') s''

/-- **The names given out so far are numbered in order**, and work counts them. -/
theorem HasGiven.exists_numberedFrom {act : Search σ ν α} {s s' : Session σ ν}
    {names : List String} (h : HasGiven act s names s') :
    ∃ vars : List String, names = numberedFrom s.scratchCount vars ∧
      s'.scratchCount = s.scratchCount + vars.length := by
  induction h with
  | begun => exact ⟨[], rfl, rfl⟩
  | ended gives => exact gives.exists_numberedFrom
  | first part ih => exact ih
  | behind first part ih => exact exists_numberedFrom_append first.exists_numberedFrom ih

/-- **Work whose names are accounted for**: however it ends, it can be told which it gave
out. -/
def Accounted (act : Search σ ν α) : Prop :=
  ∀ s a s', act s = .ok (a, s') → ∃ names, Gives act s names a s'

/-- Work that comes to an end and whose names are accounted for. -/
def Run.Accounted (act : Run σ ν α) : Prop := WatchView.Accounted (liftM act : Search σ ν α)

section Rules

theorem accounted_idle {act : Search σ ν α}
    (idle : ∀ s, Ensures act s fun _ s' => s'.scratchCount = s.scratchCount) : Accounted act :=
  fun _ _ _ ended => ⟨[], .idle idle ended⟩

theorem Accounted.bind {act : Search σ ν α} {next : α → Search σ ν β} (first : Accounted act)
    (rest : ∀ a, Accounted (next a)) : Accounted (act >>= next) := by
  intro s b s'' ended
  obtain ⟨⟨a, s'⟩, ended, ended'⟩ := bind_eq_ok_iff.mp ended
  obtain ⟨names, gives⟩ := first s a s' ended
  obtain ⟨names', gives'⟩ := rest a s' b s'' ended'
  exact ⟨names ++ names', gives.bind gives'⟩

theorem accounted_pure (a : α) : Accounted (pure a : Search σ ν α) :=
  accounted_idle fun _ => ensures_pure_iff.mpr rfl

theorem accounted_unfinished : Accounted (unfinished : Search σ ν α) :=
  fun _ _ _ ended => nomatch ended

theorem accounted_overflow : Accounted (overflow : Search σ ν α) :=
  fun _ _ _ ended => nomatch ended

theorem accounted_get : Accounted (get : Search σ ν (Session σ ν)) :=
  accounted_idle fun _ => ensures_get_iff.mpr rfl

theorem accounted_modify {change : Session σ ν → Session σ ν}
    (idle : ∀ s, (change s).scratchCount = s.scratchCount) :
    Accounted (modify change : Search σ ν PUnit) :=
  accounted_idle fun s => ensures_modify_iff.mpr (idle s)

theorem accounted_ofTarget (act : Bounded σ α) : Accounted (Search.ofTarget act : Search σ ν α) :=
  accounted_idle fun _ => ensures_ofTarget_iff.mpr fun _ _ _ => rfl

theorem accounted_target (act : StateM σ α) : Accounted (liftM act : Search σ ν α) :=
  accounted_ofTarget (Bounded.ofTotal act)

namespace Run

theorem accounted_idle {act : Run σ ν α} (idle : ∀ s, (act s).2.scratchCount = s.scratchCount) :
    act.Accounted :=
  WatchView.accounted_idle fun s => ensures_lift_iff.mpr (idle s)

/-- Texts and rules have nothing to do with the names. -/
theorem Light.accounted {act : Run σ ν α} (h : act.Light) : act.Accounted := by
  refine accounted_idle fun s => ?_
  obtain ⟨_, _, same⟩ := h s
  rw [same]

theorem accounted_pure (a : α) : (pure a : Run σ ν α).Accounted := (light_pure a).accounted

theorem accounted_target (act : StateM σ α) : (liftM act : Run σ ν α).Accounted :=
  (light_target act).accounted

theorem accounted_of_gives {act : Run σ ν α}
    (h : ∀ s, ∃ names, Gives (liftM act) s names (act s).1 (act s).2) : act.Accounted := by
  intro s a s' ended
  have same : act s = (a, s') := Except.ok.inj ended
  have given := h s
  rwa [same] at given

theorem Accounted.bind {act : Run σ ν α} {next : α → Run σ ν β} (first : act.Accounted)
    (rest : ∀ a, (next a).Accounted) : (act >>= next).Accounted := by
  change WatchView.Accounted (liftM act >>= fun a => (liftM (next a) : Search σ ν β))
  exact WatchView.Accounted.bind first rest

/-- Work within a bound behind work that comes to an end. -/
theorem Accounted.bind' {act : Run σ ν α} {next : α → Search σ ν β} (first : act.Accounted)
    (rest : ∀ a, WatchView.Accounted (next a)) : WatchView.Accounted (liftM act >>= next) :=
  WatchView.Accounted.bind first rest

end Run

end Rules

end WatchView
