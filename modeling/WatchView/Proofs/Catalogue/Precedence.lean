import Mathlib.Data.List.Basic
import WatchView.Proofs.Catalogue.KeptAnswers
import WatchView.Scope
/-!
# Which rule is chosen

Every pattern of every rule of the loaded files has a place. Places come in the
order of precedence (`Place.Before`): files from the last to the first, and in
a file the order of the file. `placed` lists the entries by their places, and
the rule chosen for a type is read off that list.

The main statement, `walk_serveAll`, says which record of a hierarchy decides,
which entry is chosen for it, and what the entry's type binds.
-/

namespace WatchView

namespace Catalogue

/-! ## Entries by their places -/

/-- The place of a pattern among loaded files. -/
structure Place where
  file : Nat
  rule : Nat
  pattern : Nat

namespace Place

/-- **The order of precedence.** -/
def Before (p q : Place) : Prop :=
  q.file < p.file ∨
    p.file = q.file ∧ (p.rule < q.rule ∨ p.rule = q.rule ∧ p.pattern < q.pattern)

theorem Before.asymm {p q : Place} (h : p.Before q) : ¬ q.Before p := by
  unfold Before at h ⊢
  omega

end Place

/-- The entry at a place: a rule under one of its patterns, if that is a type
name. -/
def entryAt? (files : List RuleFile) (p : Place) : Option Entry := do
  let file ← files[p.file]?
  let v ← file.visualizers[p.rule]?
  let text ← v.patterns[p.pattern]?
  let pattern ← TypeTree.parse? text
  return ⟨pattern, v⟩

/-- All entries with their places, in the order of precedence. -/
def placed (files : List RuleFile) : List (Place × Entry) :=
  files.zipIdx.reverse.flatMap fun (file, i) =>
    file.visualizers.zipIdx.flatMap fun (v, j) =>
      v.patterns.zipIdx.filterMap fun (text, k) =>
        (TypeTree.parse? text).map fun pattern => (⟨i, j, k⟩, ⟨pattern, v⟩)

theorem mem_placed_iff {files : List RuleFile} {p : Place} {e : Entry} :
    (p, e) ∈ placed files ↔ entryAt? files p = some e := by
  obtain ⟨i, j, k⟩ := p
  simp only [placed, entryAt?, List.mem_flatMap, List.mem_reverse, List.mem_filterMap,
    Option.map_eq_some_iff, Prod.exists, List.mem_zipIdx_iff_getElem?, Option.bind_eq_bind,
    Option.bind_eq_some_iff, Option.pure_def, Option.some.injEq, Prod.mk.injEq, Place.mk.injEq]
  constructor
  · rintro ⟨file, _, hfile, v, _, hv, text, _, htext, pattern, hp, ⟨rfl, rfl, rfl⟩, rfl⟩
    exact ⟨file, hfile, v, hv, text, htext, pattern, hp, rfl⟩
  · rintro ⟨file, hfile, v, hv, text, htext, pattern, hp, rfl⟩
    exact ⟨file, i, hfile, v, j, hv, text, k, htext, pattern, hp, ⟨rfl, rfl, rfl⟩, rfl⟩

/-- The positions of a list with numbered members grow. -/
theorem pairwise_zipIdx {α : Type} (l : List α) : l.zipIdx.Pairwise fun a b => a.2 < b.2 := by
  rw [List.pairwise_iff_getElem]
  intro i j hi hj lt
  rw [List.getElem_zipIdx, List.getElem_zipIdx]
  simpa using lt

theorem pairwise_placed (files : List RuleFile) :
    (placed files).Pairwise fun a b => a.1.Before b.1 := by
  refine List.pairwise_flatMap.mpr ⟨fun file _ => List.pairwise_flatMap.mpr ⟨fun v _ => ?_, ?_⟩, ?_⟩
  · -- two patterns of one rule
    refine List.pairwise_filterMap.mpr ((pairwise_zipIdx v.1.patterns).imp fun lt a ha b hb => ?_)
    obtain ⟨_, _, rfl⟩ := Option.map_eq_some_iff.mp ha
    obtain ⟨_, _, rfl⟩ := Option.map_eq_some_iff.mp hb
    exact .inr ⟨rfl, .inr ⟨rfl, lt⟩⟩
  · -- two rules of one file
    refine (pairwise_zipIdx file.1.visualizers).imp fun lt a ha b hb => ?_
    obtain ⟨_, _, ha⟩ := List.mem_filterMap.mp ha
    obtain ⟨_, _, rfl⟩ := Option.map_eq_some_iff.mp ha
    obtain ⟨_, _, hb⟩ := List.mem_filterMap.mp hb
    obtain ⟨_, _, rfl⟩ := Option.map_eq_some_iff.mp hb
    exact .inr ⟨rfl, .inl lt⟩
  · -- two files, of which the one loaded later comes first
    refine (List.pairwise_reverse.mpr (pairwise_zipIdx files)).imp fun lt a ha b hb => ?_
    obtain ⟨_, _, ha⟩ := List.mem_flatMap.mp ha
    obtain ⟨_, _, ha⟩ := List.mem_filterMap.mp ha
    obtain ⟨_, _, rfl⟩ := Option.map_eq_some_iff.mp ha
    obtain ⟨_, _, hb⟩ := List.mem_flatMap.mp hb
    obtain ⟨_, _, hb⟩ := List.mem_filterMap.mp hb
    obtain ⟨_, _, rfl⟩ := Option.map_eq_some_iff.mp hb
    exact .inl lt

/-- The catalogue holds the entries in the order of their places. -/
theorem entries_append (files : List RuleFile) :
    (append {} files).entries = (placed files).map Prod.snd := by
  have rules (file : RuleFile) (i : Nat) :
      ((file.visualizers.zipIdx.flatMap fun (v, j) =>
        v.patterns.zipIdx.filterMap fun (text, k) =>
          (TypeTree.parse? text).map fun pattern => ((⟨i, j, k⟩ : Place), Entry.mk pattern v)).map
        Prod.snd) = file.visualizers.flatMap Visualizer.entries := by
    rw [List.map_flatMap]
    conv_rhs => rw [← List.zipIdx_map_fst 0 file.visualizers, List.flatMap_map]
    -- numbering the members and forgetting the numbers leaves the members
    congr 1
    funext ⟨v, j⟩
    dsimp only
    unfold Visualizer.entries
    conv_rhs => rw [← List.zipIdx_map_fst 0 v.patterns, List.filterMap_map]
    rw [List.map_filterMap]
    congr 1
    funext ⟨text, k⟩
    exact Option.map_map _ _ _
  unfold placed entries append
  rw [List.map_flatMap]
  simp only [rules, List.nil_append]
  rw [← List.map_reverse, List.flatMap_map]
  conv_lhs => rw [← List.zipIdx_map_fst 0 files, ← List.map_reverse, List.flatMap_map]
  rfl

/-! ## The entry chosen for a type -/

/-- An entry covers a type. -/
def Covers (files : List RuleFile) (type : TypeTree) : Prop :=
  ∃ p e, entryAt? files p = some e ∧ e.pattern.covers type

/-- **What makes an entry the one chosen for a type**: no entry that covers the
type comes before it. With ranking, none that covers it has a higher priority,
and those before it have a lower one. -/
structure Chosen (files : List RuleFile) (ranked : Bool) (type : TypeTree) (p : Place) (e : Entry) :
    Prop where
  here : entryAt? files p = some e
  covers : e.pattern.covers type
  first : ranked = false → ∀ q f, entryAt? files q = some f → f.pattern.covers type → ¬ q.Before p
  highest : ranked = true → ∀ q f, entryAt? files q = some f → f.pattern.covers type →
    f.visualizer.priority.rank ≤ e.visualizer.priority.rank ∧
      (q.Before p → f.visualizer.priority.rank < e.visualizer.priority.rank)

/-- Taking the better of two entries along a list ends with the first of those
of the highest priority. -/
theorem exists_split_of_highest {l : List Entry} {last : Entry} (h : highest l = some last) :
    ∃ before after, l = before ++ last :: after ∧
      (∀ f ∈ before, f.visualizer.priority.rank < last.visualizer.priority.rank) ∧
      ∀ f ∈ after, f.visualizer.priority.rank ≤ last.visualizer.priority.rank := by
  cases l with
  | nil => cases h
  | cons best es =>
    replace h := Option.some.inj h
    -- The best so far stands in front of the entries not yet looked at. Only a higher
    -- priority takes its place, so the first of equals remains.
    induction es generalizing best with
    | nil => exact ⟨[], [], congrArg (· :: []) h, List.forall_mem_nil _, List.forall_mem_nil _⟩
    | cons e es ih =>
      rw [List.foldl_cons] at h
      split at h
      · rename_i le
        obtain ⟨before, after, split, low, high⟩ := ih best h
        cases before with
        | nil =>
          obtain ⟨rfl, rfl⟩ := List.cons_eq_cons.mp split
          exact ⟨[], e :: es, rfl, List.forall_mem_nil _, List.forall_mem_cons.mpr ⟨le, high⟩⟩
        | cons b before =>
          obtain ⟨rfl, rfl⟩ := List.cons_eq_cons.mp split
          obtain ⟨lowHere, low⟩ := List.forall_mem_cons.mp low
          have lowNext := Nat.lt_of_le_of_lt le lowHere
          refine ⟨best :: e :: before, after, rfl, ?_, high⟩
          exact List.forall_mem_cons.mpr ⟨lowHere, List.forall_mem_cons.mpr ⟨lowNext, low⟩⟩
      · rename_i gt
        obtain ⟨before, after, split, low, high⟩ := ih e h
        have le : e.visualizer.priority.rank ≤ last.visualizer.priority.rank := by
          rcases List.mem_append.mp (split ▸ List.mem_cons_self : e ∈ _) with mem | mem
          · exact Nat.le_of_lt (low e mem)
          · rcases List.mem_cons.mp mem with rfl | mem
            · exact Nat.le_refl _
            · exact high e mem
        refine ⟨best :: before, after, congrArg (best :: ·) split, ?_, high⟩
        exact List.forall_mem_cons.mpr ⟨Nat.lt_of_lt_of_le (Nat.lt_of_not_le gt) le, low⟩

/-- What is chosen stands somewhere among the candidates: first, or with ranking
behind lower priorities and before none that is higher. -/
theorem exists_split_of_choose {c : Catalogue} {ranked : Bool} {type : TypeTree} {m : RuleMatch}
    (h : c.choose ranked type = some m) :
    ∃ e before after, m = ⟨e.visualizer, type⟩ ∧ c.covering type = before ++ e :: after ∧
      (ranked = false → before = []) ∧
      (ranked = true → (∀ f ∈ before, f.visualizer.priority.rank < e.visualizer.priority.rank) ∧
        ∀ f ∈ after, f.visualizer.priority.rank ≤ e.visualizer.priority.rank) := by
  obtain ⟨e, found, rfl⟩ := Option.map_eq_some_iff.mp h
  cases ranked with
  | false =>
    obtain ⟨after, split⟩ := List.head?_eq_some_iff.mp found
    exact ⟨e, [], after, rfl, split, fun _ => rfl, fun h => nomatch h⟩
  | true =>
    obtain ⟨before, after, split, low, high⟩ := exists_split_of_highest found
    exact ⟨e, before, after, rfl, split, (fun h => nomatch h), fun _ => ⟨low, high⟩⟩

variable {files : List RuleFile} {ranked : Bool} {type : TypeTree}

/-- **The rule for a type is that of the entry chosen for it.** -/
theorem chosen_of_choose {m : RuleMatch} (h : (append {} files).choose ranked type = some m) :
    ∃ p e, Chosen files ranked type p e ∧ m = ⟨e.visualizer, type⟩ := by
  obtain ⟨e, before, after, hm, split, first, high⟩ := exists_split_of_choose h
  have candidates : ((placed files).filter fun a => a.2.pattern.covers type).map Prod.snd =
      before ++ e :: after := by
    rw [← split, covering, entries_append, List.filter_map]
    rfl
  obtain ⟨pre, post, placedSplit, rfl, tail⟩ := List.map_eq_append_iff.mp candidates
  obtain ⟨⟨p, e'⟩, post, rfl, rfl, rfl⟩ := List.map_eq_cons_iff.mp tail
  have ordered := (pairwise_placed files).filter fun a => a.2.pattern.covers type
  rw [placedSplit, List.pairwise_append, List.pairwise_cons] at ordered
  obtain ⟨-, ⟨behind, -⟩, ahead⟩ := ordered
  have mem_iff (q : Place) (f : Entry) :
      (q, f) ∈ pre ++ (p, e') :: post ↔ entryAt? files q = some f ∧ f.pattern.covers type := by
    rw [← placedSplit, List.mem_filter, mem_placed_iff]
  obtain ⟨here, covers⟩ := (mem_iff p e').mp List.mem_append_cons_self
  -- a candidate before the chosen one stands in the front part
  have front (q : Place) (f : Entry) (mem : (q, f) ∈ pre ++ (p, e') :: post)
      (before : q.Before p) : (q, f) ∈ pre := by
    rcases List.mem_append.mp mem with mem | mem
    · exact mem
    · rcases List.mem_cons.mp mem with same | mem
      · cases same
        exact absurd before before.asymm
      · exact absurd before (behind _ mem).asymm
  refine ⟨p, e', ⟨here, covers, fun plain q f at_ cov before => ?_, fun ranks q f at_ cov => ?_⟩, hm⟩
  · have mem := front q f ((mem_iff q f).mpr ⟨at_, cov⟩) before
    rw [List.map_eq_nil_iff.mp (first plain)] at mem
    cases mem
  · obtain ⟨low, high⟩ := high ranks
    have mem := (mem_iff q f).mpr ⟨at_, cov⟩
    refine ⟨?_, fun before => low f (List.mem_map_of_mem (f := Prod.snd) (front q f mem before))⟩
    rcases List.mem_append.mp mem with mem | mem
    · exact Nat.le_of_lt (low f (List.mem_map_of_mem (f := Prod.snd) mem))
    · rcases List.mem_cons.mp mem with same | mem
      · cases same
        exact Nat.le_refl _
      · exact high f (List.mem_map_of_mem (f := Prod.snd) mem)

/-- A type has a rule if there are candidates. -/
theorem isSome_choose (c : Catalogue) (ranked : Bool) (type : TypeTree) :
    (c.choose ranked type).isSome = !(c.covering type).isEmpty := by
  unfold choose
  cases c.covering type <;> cases ranked <;> rfl

/-- A type has a rule if some entry covers it. -/
theorem isSome_choose_iff :
    ((append {} files).choose ranked type).isSome ↔ Covers files type := by
  constructor
  · intro h
    obtain ⟨m, h⟩ := Option.isSome_iff_exists.mp h
    obtain ⟨p, e, chosen, -⟩ := chosen_of_choose h
    exact ⟨p, e, chosen.here, chosen.covers⟩
  · rintro ⟨p, e, at_, cov⟩
    have mem : e ∈ (append {} files).covering type := by
      rw [covering, entries_append]
      exact List.mem_filter.mpr ⟨List.mem_map_of_mem (f := Prod.snd) (mem_placed_iff.mpr at_), cov⟩
    simpa [isSome_choose] using List.ne_nil_of_mem mem

theorem choose_eq_none_iff :
    (append {} files).choose ranked type = none ↔ ¬ Covers files type := by
  rw [← @isSome_choose_iff files ranked type, Option.not_isSome_iff_eq_none]

theorem covers_of_choose {m : RuleMatch} (h : (append {} files).choose ranked type = some m) :
    Covers files type :=
  isSome_choose_iff.mp (Option.isSome_of_eq_some h)

theorem matchedType_of_choose {m : RuleMatch} (h : (append {} files).choose ranked type = some m) :
    m.matchedType = type := by
  obtain ⟨p, e, -, rfl⟩ := chosen_of_choose h
  rfl

/-! ## The record that decides -/

/-- **The type a record decides for**: that of its name, or where no entry covers
that one, the type of its canonical name if this is another. -/
inductive Decides (files : List RuleFile) (record : TypeRecord) : TypeTree → Prop
  | name {type : TypeTree} (read : TypeTree.parse? record.name = some type)
      (covered : Covers files type) : Decides files record type
  | canonical {nickname type : TypeTree} (read : TypeTree.parse? record.name = some nickname)
      (uncovered : ¬ Covers files nickname) (other : record.canonicalName ≠ record.name)
      (readCanonical : TypeTree.parse? record.canonicalName = some type)
      (covered : Covers files type) : Decides files record type

theorem Decides.covered {record : TypeRecord} (h : Decides files record type) :
    Covers files type := by
  cases h with
  | name _ covered => exact covered
  | canonical _ _ _ _ covered => exact covered

/-- **The rule for a record** is the one chosen for the type it decides for. -/
theorem chooseFor_eq_some_iff {record : TypeRecord} {m : RuleMatch} :
    (append {} files).chooseFor ranked record = some m ↔
      Decides files record m.matchedType ∧
        (append {} files).choose ranked m.matchedType = some m := by
  constructor
  · intro h
    obtain ⟨nickname, read, h⟩ := Option.bind_eq_some_iff.mp h
    -- the canonical name is asked for only if no rule covers the other one
    cases chosen : (append {} files).choose ranked nickname with
    | some m' =>
      rw [chosen] at h
      obtain rfl := Option.some.inj h
      obtain rfl := matchedType_of_choose chosen
      exact ⟨.name read (covers_of_choose chosen), chosen⟩
    | none =>
      rw [chosen] at h
      dsimp only at h
      split at h
      · cases h
      · rename_i other
        obtain ⟨type, readCanonical, chosen'⟩ := Option.bind_eq_some_iff.mp h
        obtain rfl := matchedType_of_choose chosen'
        have uncovered := choose_eq_none_iff.mp chosen
        exact ⟨.canonical read uncovered (fun same => other (beq_iff_eq.mpr same)) readCanonical
          (covers_of_choose chosen'), chosen'⟩
  · rintro ⟨decides, chosen⟩
    unfold chooseFor
    cases decides with
    | name read covered => rw [read, Option.bind_eq_bind, Option.bind_some, chosen]
    | canonical read uncovered other readCanonical covered =>
      rw [read, Option.bind_eq_bind, Option.bind_some, choose_eq_none_iff.mpr uncovered]
      dsimp only
      rw [if_neg (fun same => other (eq_of_beq same)), readCanonical, Option.bind_some, chosen]

/-- A record without a rule decides for no type. -/
theorem not_decides_of_chooseFor {record : TypeRecord}
    (h : (append {} files).chooseFor ranked record = none) (type : TypeTree) :
    ¬ Decides files record type := by
  intro decides
  obtain ⟨m, chosen⟩ := Option.isSome_iff_exists.mp (isSome_choose_iff.mpr decides.covered)
  obtain rfl := matchedType_of_choose chosen
  rw [chooseFor_eq_some_iff.mpr ⟨decides, chosen⟩] at h
  cases h

/-- **The walk along a hierarchy** ends at the first record that decides, if one
does that the bound admits. -/
theorem walk_append (files : List RuleFile) (ranked : Bool) (bound : Nat)
    (hierarchy : List TypeRecord) :
    (∀ m, (append {} files).walk ranked bound hierarchy = some m →
      ∃ i record, i ≤ bound ∧ hierarchy[i]? = some record ∧ Decides files record m.matchedType ∧
        (∀ j nearer, j < i → hierarchy[j]? = some nearer → ∀ type, ¬ Decides files nearer type) ∧
        ∃ p e, Chosen files ranked m.matchedType p e ∧ m.visualizer = e.visualizer) ∧
      ((append {} files).walk ranked bound hierarchy = none →
        ∀ i record, i ≤ bound → hierarchy[i]? = some record → ∀ type, ¬ Decides files record type) := by
  constructor
  · intro m h
    -- the record that decides is the first one in reach that is answered
    obtain ⟨before, record, after, split, found, nearer⟩ := List.findSome?_eq_some_iff.mp h
    obtain ⟨decides, chosen⟩ := chooseFor_eq_some_iff.mp found
    -- up to the bound the hierarchy is what is walked
    have at_ (j : Nat) (r : TypeRecord) (h : (before ++ record :: after)[j]? = some r) :
        j ≤ bound ∧ hierarchy[j]? = some r := by
      rw [← split, List.getElem?_take] at h
      split at h
      · rename_i lt
        exact ⟨Nat.le_of_lt_succ lt, h⟩
      · cases h
    obtain ⟨le, here⟩ := at_ before.length record (by simp)
    refine ⟨before.length, record, le, here, decides, fun j r lt hr => ?_, ?_⟩
    · refine not_decides_of_chooseFor (nearer r ?_)
      have same : (hierarchy.take (bound + 1))[j]? = some r := by
        rw [List.getElem?_take_of_lt (by omega), hr]
      rw [split, List.getElem?_append_left lt] at same
      exact List.mem_of_getElem? same
    · obtain ⟨p, e, chosen, hm⟩ := chosen_of_choose chosen
      exact ⟨p, e, chosen, congrArg RuleMatch.visualizer hm⟩
  · intro h i record le here
    have none := List.findSome?_eq_none_iff.mp h record
      (List.mem_of_getElem? ((List.getElem?_take_of_lt (Nat.lt_succ_of_le le)).trans here))
    exact not_decides_of_chooseFor none

/-! ## What the chosen type binds -/

theorem get?_foldl_bind {tokens : List (String × String)} (distinct : (tokens.map Prod.fst).Nodup)
    (b : Bindings String) {name text : String} :
    (tokens.foldl (fun b p => b.bind p.1 p.2) b).get? name = some text ↔
      (name, text) ∈ tokens ∨ name ∉ tokens.map Prod.fst ∧ b.get? name = some text := by
  induction tokens generalizing b with
  | nil => simp
  | cons p tokens ih =>
    obtain ⟨token, value⟩ := p
    obtain ⟨fresh, distinct⟩ := List.nodup_cons.mp distinct
    rw [List.foldl_cons, ih distinct]
    by_cases same : name = token
    · subst same
      have absent : (name, text) ∉ tokens := fun mem =>
        fresh (List.mem_map.mpr ⟨_, mem, rfl⟩)
      simp [absent, fresh, eq_comm]
    · rw [Bindings.get?_bind_of_ne _ _ same]
      simp [same]

/-- A scope of tokens with different names gives each its text, and no others. -/
theorem token?_ofTokens {V : Type} {tokens : List (String × String)}
    (distinct : (tokens.map Prod.fst).Nodup) {name text : String} :
    (Scope.ofTokens tokens : Scope V).token? name = some text ↔ (name, text) ∈ tokens := by
  refine (get?_foldl_bind distinct .empty).trans ⟨fun h => h.elim id fun h => ?_, .inl⟩
  exact nomatch h.2

/-- Numbers are told apart by their digits. -/
theorem toString_injective {m n : Nat} (h : toString m = toString n) : m = n := by
  have digits : Nat.toDigits 10 m = Nat.toDigits 10 n := by
    rw [← Nat.toList_repr, ← Nat.toList_repr]
    exact congrArg String.toList h
  rw [← Nat.ofDigitChars_ten_toDigits (n := m), digits, Nat.ofDigitChars_ten_toDigits]

/-- **The template arguments of the chosen type are bound** to `$T1`, `$T2` and
so on, and nothing else is. -/
theorem token?_scopedNames {V : Type} (m : RuleMatch) {name text : String} :
    (Scope.ofTokens m.scopedNames : Scope V).token? name = some text ↔
      ∃ k arg, m.matchedType.args[k]? = some arg ∧ name = "$T" ++ toString (k + 1) ∧
        text = arg.fullName := by
  have distinct : (m.scopedNames.map Prod.fst).Nodup := by
    refine List.pairwise_iff_getElem.mpr fun i j hi hj lt same => ?_
    simp only [RuleMatch.scopedNames, List.getElem_map, List.getElem_mapIdx] at same
    have digits : toString (i + 1) = toString (j + 1) := by
      have same := congrArg String.toList same
      rw [String.toList_append, String.toList_append] at same
      exact String.toList_inj.mp (List.append_cancel_left same)
    have := toString_injective digits
    omega
  rw [token?_ofTokens distinct, RuleMatch.scopedNames, List.mem_mapIdx]
  constructor
  · rintro ⟨k, inside, h⟩
    obtain ⟨hn, ht⟩ := Prod.mk.injEq _ _ _ _ ▸ h
    exact ⟨k, _, List.getElem?_eq_getElem inside, hn.symm, ht.symm⟩
  · rintro ⟨k, arg, here, rfl, rfl⟩
    obtain ⟨inside, rfl⟩ := List.getElem?_eq_some_iff.mp here
    exact ⟨k, inside, rfl⟩

/-! ## The rule found along a hierarchy -/

/-- **What the rule found along a hierarchy is**: that of the entry chosen for
the type of the nearest record that decides, with that type, whose template
arguments are bound. -/
structure Selected (files : List RuleFile) (ranked : Bool) (bound : Nat)
    (hierarchy : List TypeRecord) (m : RuleMatch) : Prop where
  nearest : ∃ i record, i ≤ bound ∧ hierarchy[i]? = some record ∧
    Decides files record m.matchedType ∧
      ∀ j nearer, j < i → hierarchy[j]? = some nearer → ∀ type, ¬ Decides files nearer type
  best : ∃ p e, Chosen files ranked m.matchedType p e ∧ m.visualizer = e.visualizer
  binds : ∀ {V : Type} (name text : String),
    (Scope.ofTokens m.scopedNames : Scope V).token? name = some text ↔
      ∃ k arg, m.matchedType.args[k]? = some arg ∧ name = "$T" ++ toString (k + 1) ∧
        text = arg.fullName

/-- **Which rule is found along a hierarchy**, after any requests: one is found
if some record decides that the bound admits, and it is the one `Selected`
describes. -/
theorem walk_serveAll (options : Options) (requests : List Request) (ranked : Bool) (bound : Nat)
    (hierarchy : List TypeRecord) :
    let files := Request.filesAfterAll options requests
    let found := (RuleBook.serveAll options requests
      (RuleBook.builtin options)).2.catalogue.walk ranked bound hierarchy
    (found.isSome ↔ ∃ i record type, i ≤ bound ∧ hierarchy[i]? = some record ∧
      Decides files record type) ∧
      ∀ m, found = some m → Selected files ranked bound hierarchy m := by
  intro files found
  have same : found = (append {} files).walk ranked bound hierarchy := by
    rw [← RuleBook.catalogue_serveAll]
  obtain ⟨some_, none_⟩ := walk_append files ranked bound hierarchy
  rw [← same] at some_ none_
  refine ⟨⟨fun h => ?_, ?_⟩, fun m h => ?_⟩
  · obtain ⟨m, h⟩ := Option.isSome_iff_exists.mp h
    obtain ⟨i, record, le, here, decides, -⟩ := some_ m h
    exact ⟨i, record, _, le, here, decides⟩
  · rintro ⟨i, record, type, le, here, decides⟩
    by_contra h
    exact none_ (Option.not_isSome_iff_eq_none.mp h) i record le here type decides
  · obtain ⟨i, record, le, here, decides, nearest, best⟩ := some_ m h
    exact ⟨⟨i, record, le, here, decides, nearest⟩, best, fun _ _ => token?_scopedNames m⟩

end Catalogue

end WatchView
