import WatchView.Proofs.Catalogue.Precedence
/-!
# Rules under another name

A record of a hierarchy may name its type by an alias and give the canonical
name beside it. Where the alias leads to no rule, the canonical name is to be
tried. An alias leads to no rule for one of two reasons: nothing covers the type
it names, or it names no type at all, being a text that cannot be read. Only the
first one makes the lookup go on to the canonical name.

The main statement, `chooseFor_alias_iff`, says this of a record and of the walk
along a hierarchy in which it stands.
-/

namespace WatchView

namespace Catalogue

variable {c : Catalogue} {ranked : Bool} {record : TypeRecord} {type : TypeTree}

/-- **No rule under a name**: no entry covers the type it names, or it names no
type. -/
def LacksRule (c : Catalogue) (name : String) : Prop :=
  ∀ type, TypeTree.parse? name = some type → c.covering type = []

theorem choose_eq_none (none : c.covering type = []) : c.choose ranked type = .none := by
  rw [← Option.not_isSome_iff_eq_none, isSome_choose, none]
  decide

theorem exists_choose (ranked : Bool) (covered : c.covering type ≠ []) :
    ∃ m, c.choose ranked type = some m ∧ m.matchedType = type := by
  have found : (c.choose ranked type).isSome = true := by
    simpa [isSome_choose] using covered
  obtain ⟨m, chosen⟩ := Option.isSome_iff_exists.mp found
  obtain ⟨e, -, rfl⟩ := Option.map_eq_some_iff.mp chosen
  exact ⟨_, chosen, rfl⟩

/-- **The rule for a record whose name leads to none**: that of its canonical
name, provided the name can be read. -/
theorem chooseFor_of_lacksRule (lacks : c.LacksRule record.name)
    (other : record.canonicalName ≠ record.name) :
    c.chooseFor ranked record = (TypeTree.parse? record.name).bind fun _ =>
      (TypeTree.parse? record.canonicalName).bind (c.choose ranked) := by
  unfold chooseFor
  cases named : TypeTree.parse? record.name with
  | none => rfl
  | some nickname =>
    rw [Option.bind_eq_bind, Option.bind_some, choose_eq_none (lacks nickname named)]
    dsimp only
    rw [if_neg fun same => other (eq_of_beq same)]
    rfl

/-- A walk that comes to a record takes its rule or else goes on behind it. -/
theorem walk_append_cons {bound : Nat} {nearer further : List TypeRecord}
    (reached : nearer.length ≤ bound) (none : ∀ r ∈ nearer, c.chooseFor ranked r = .none) :
    c.walk ranked bound (nearer ++ record :: further) =
      (c.chooseFor ranked record).or
        ((further.take (bound - nearer.length)).findSome? (c.chooseFor ranked)) := by
  have front : (nearer ++ record :: further).take (bound + 1) =
      nearer ++ record :: further.take (bound - nearer.length) := by
    rw [List.take_append, List.take_of_length_le (by omega),
      show bound + 1 - nearer.length = bound - nearer.length + 1 by omega, List.take_succ_cons]
  rw [walk, front, List.findSome?_append, List.findSome?_eq_none_iff.mpr none, Option.none_or,
    List.findSome?_cons]
  cases c.chooseFor ranked record with
  | none => rfl
  | some m => rfl

/-- **Falling back from an alias**: where the name of a record leads to no rule
and its canonical name is another one, under which there is a rule, the lookup
at the record yields that rule exactly if the name can be read as a type. If it
cannot, a walk that comes to the record passes over it. -/
theorem chooseFor_alias_iff (lacks : c.LacksRule record.name)
    (other : record.canonicalName ≠ record.name)
    (canonical : TypeTree.parse? record.canonicalName = some type)
    (covered : c.covering type ≠ []) (ranked : Bool) :
    ∃ m, c.choose ranked type = some m ∧ m.matchedType = type ∧
      (c.chooseFor ranked record = some m ↔ (TypeTree.parse? record.name).isSome) ∧
      ∀ bound nearer further, nearer.length ≤ bound →
        (∀ r ∈ nearer, c.chooseFor ranked r = none) →
        c.walk ranked bound (nearer ++ record :: further) =
          if (TypeTree.parse? record.name).isSome then some m
          else (further.take (bound - nearer.length)).findSome? (c.chooseFor ranked) := by
  obtain ⟨m, chosen, same⟩ := exists_choose ranked covered
  have at_record : c.chooseFor ranked record =
      if (TypeTree.parse? record.name).isSome then some m else none := by
    rw [chooseFor_of_lacksRule lacks other, canonical, Option.bind_some, chosen]
    cases TypeTree.parse? record.name with
    | none => rfl
    | some nickname => rfl
  refine ⟨m, chosen, same, ?_, fun bound nearer further reached none => ?_⟩
  · rw [at_record]
    split <;> simp [*]
  · rw [walk_append_cons reached none, at_record]
    split <;> rfl

/-- A catalogue with one rule, for decimal numbers. -/
def decimals : Catalogue :=
  append {} [{ origin := "decimals", visualizers := [{ name := "Decimal" }] }]

theorem decimals_covers :
    ∃ type, TypeTree.parse? "Decimal" = some type ∧ decimals.covering type ≠ [] := by
  have covers : (TypeTree.parse? "Decimal").any fun t => !(decimals.covering t).isEmpty := by
    decide +kernel
  obtain ⟨type, canonical, covered⟩ := (Option.any_eq_true _ _).mp covers
  exact ⟨type, canonical, by simpa using covered⟩

/-- An alias that can be read: the rule under the canonical name is found. -/
theorem decimals_money :
    (decimals.LacksRule "Money" ∧ "Decimal" ≠ "Money") ∧
      ∃ type m, TypeTree.parse? "Decimal" = some type ∧ decimals.covering type ≠ [] ∧
        m.matchedType = type ∧ decimals.chooseFor false ⟨"Money", "Decimal"⟩ = some m := by
  have uncovered : (TypeTree.parse? "Money").all fun t => (decimals.covering t).isEmpty := by
    decide +kernel
  let money : TypeRecord := ⟨"Money", "Decimal"⟩
  have lacks : decimals.LacksRule money.name := fun t read => by
    rw [read, Option.all_some] at uncovered
    exact List.isEmpty_iff.mp uncovered
  obtain ⟨type, canonical, covered⟩ := decimals_covers
  obtain ⟨m, -, same, found, -⟩ := chooseFor_alias_iff lacks (by decide) canonical covered false
  exact ⟨⟨lacks, by decide⟩, type, m, canonical, covered, same, found.mpr (by decide +kernel)⟩

/-- **An alias that cannot be read is not followed**, although there is a rule under
the canonical name. -/
theorem decimals_unreadable :
    decimals.LacksRule "Money<-2>" ∧ "Decimal" ≠ "Money<-2>" ∧
      (∃ type, TypeTree.parse? "Decimal" = some type ∧ decimals.covering type ≠ []) ∧
      decimals.chooseFor false ⟨"Money<-2>", "Decimal"⟩ = none := by
  have unreadable : (TypeTree.parse? "Money<-2>").isNone := by decide +kernel
  have none := Option.isNone_iff_eq_none.mp unreadable
  refine ⟨fun t read => ?_, by decide, decimals_covers, ?_⟩
  · rw [none] at read
    cases read
  · rw [chooseFor, none]
    rfl

end Catalogue

end WatchView
