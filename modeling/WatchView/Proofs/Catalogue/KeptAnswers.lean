import WatchView.Catalogue.Request
/-!
# Kept answers make no difference

A rule book keeps the answers it gave and gives them again. What it replies is
what a book without kept answers replies (`serveAll_eq`), as long as variables
of one type name have one hierarchy and no type is named like a tag. The
invariant is that every answer kept is the one the catalogue would give now
(`Faithful`); a request that changes the catalogue drops all answers.
-/

namespace WatchView

/-- Files loaded later stand behind the others. -/
theorem Catalogue.append_append (c : Catalogue) (files more : List RuleFile) :
    (c.append files).append more = c.append (files ++ more) := by
  simp [append]

/-- No two tags have one name. -/
theorem Tag.typeName_injective {tag tag' : Tag} (h : tag.typeName = tag'.typeName) :
    tag = tag' := by
  revert h
  cases tag <;> cases tag' <;> decide

namespace RuleBook

variable {options : Options} {asked : Subject → Prop} {b : RuleBook}

/-! ## What is loaded -/

theorem catalogue_answerFor (name : String) (answer : Option RuleMatch) :
    (b.answerFor name answer).2.catalogue = b.catalogue := by
  unfold answerFor
  split <;> rfl

/-- Finding a rule leaves the catalogue as it is. -/
theorem catalogue_find (s : Subject) : (b.find options s).2.catalogue = b.catalogue := by
  unfold find
  cases s.tag with
  | none => exact catalogue_answerFor _ _
  | some tag =>
    have tagged : (b.findTagged options tag).2.catalogue = b.catalogue := catalogue_answerFor _ _
    dsimp only
    split
    · rename_i found
      rw [found] at tagged
      exact tagged
    · rename_i found
      rw [found] at tagged
      exact (catalogue_answerFor _ _).trans tagged

/-- A request loads the files it says. -/
theorem catalogue_serve {files : List RuleFile} (loaded : b.catalogue = Catalogue.append {} files)
    (r : Request) :
    (b.serve options r).2.catalogue = Catalogue.append {} (r.filesAfter options files) := by
  cases r with
  | reload source =>
    simp only [serve, reload, builtin, addFiles, Request.filesAfter]
    cases options.flag .loadFiles with
    | false => rfl
    | true =>
      cases source.files with
      | ok files => exact Catalogue.append_append _ _ _
      | error e => rfl
  | loadText source text =>
    simp only [serve, loadText, addFiles, Request.filesAfter, loaded]
    cases source.ofText text with
    | ok more => exact Catalogue.append_append _ _ _
    | error e => exact loaded.trans (congrArg _ (List.append_nil files).symm)
  | find s => exact (catalogue_find s).trans loaded

/-- **After any requests the catalogue holds the files they loaded**, in the
order they were loaded. -/
theorem catalogue_serveAll (requests : List Request) :
    (serveAll options requests (builtin options)).2.catalogue =
      Catalogue.append {} (Request.filesAfterAll options requests) := by
  have from_ (requests : List Request) : ∀ (b : RuleBook) (files : List RuleFile),
      b.catalogue = Catalogue.append {} files → (serveAll options requests b).2.catalogue =
        Catalogue.append {} (requests.foldl (Request.filesAfter options) files) := by
    induction requests with
    | nil => exact fun b files loaded => loaded
    | cons r rs ih => exact fun b files loaded => ih _ _ (catalogue_serve loaded r)
  exact from_ requests _ _ rfl

/-! ## What is kept -/

/-- **The answers kept are those of the catalogue**, for the tags and for the
subjects that are asked about. -/
structure Faithful (options : Options) (asked : Subject → Prop) (b : RuleBook) : Prop where
  tagged : ∀ (tag : Tag) answer, b.answers.get? tag.typeName = some answer →
    answer = b.catalogue.chooseTagged (options.flag .priorities) tag
  untagged : ∀ s answer, asked s → b.answers.get? s.typeName = some answer →
    answer = b.catalogue.walk (options.flag .priorities) (options.get .maxInheritedTypes) s.hierarchy

/-- Where no answers are kept, none is wrong. -/
theorem faithful_of_forgotten (c : Catalogue) : Faithful options asked { catalogue := c } where
  tagged := fun _ _ h => nomatch h
  untagged := fun _ _ _ h => nomatch h

/-! ## Finding a rule -/

/-- Where an answer is kept only if it is this one, the reply is this one and
it is kept. -/
theorem answerFor_eq {name : String} {answer : Option RuleMatch}
    (kept : ∀ a, b.answers.get? name = some a → a = answer) :
    b.answerFor name answer =
      (answer, { b with answers := (b.answerFor name answer).2.answers }) := by
  unfold answerFor
  split
  · rename_i a h
    rw [kept a h]
  · rfl

/-- An answer kept after a request was given for it or kept before. -/
theorem get?_answerFor {name other : String} {answer a : Option RuleMatch}
    (h : (b.answerFor name answer).2.answers.get? other = some a) :
    (other = name ∧ a = answer) ∨ b.answers.get? other = some a := by
  unfold answerFor at h
  split at h
  · exact .inr h
  · by_cases same : other = name
    · subst same
      rw [Bindings.get?_bind_self] at h
      exact .inl ⟨rfl, (Option.some.inj h).symm⟩
    · rw [Bindings.get?_bind_of_ne _ _ same] at h
      exact .inr h

section Find

variable (faithful : Faithful options asked b)
  (apart : ∀ s (tag : Tag), asked s → s.typeName ≠ tag.typeName)
  (alike : ∀ s s', asked s → asked s' → s.typeName = s'.typeName → s.hierarchy = s'.hierarchy)

include faithful apart

theorem findTagged_eq (tag : Tag) :
    ∃ answers, b.findTagged options tag =
      (b.catalogue.chooseTagged (options.flag .priorities) tag, { b with answers }) ∧
      Faithful options asked { b with answers } := by
  refine ⟨_, answerFor_eq fun a kept => faithful.tagged tag a kept, ?_, ?_⟩
  -- The answer is kept under the name of the tag, which no subject asked about has.
  · intro tag' a kept
    rcases get?_answerFor kept with ⟨same, rfl⟩ | kept
    · rw [Tag.typeName_injective same]
    · exact faithful.tagged tag' a kept
  · intro s a mem kept
    rcases get?_answerFor kept with ⟨same, -⟩ | kept
    · exact absurd same (apart s tag mem)
    · exact faithful.untagged s a mem kept

include alike

theorem findUntagged_eq {s : Subject} (mem : asked s) :
    ∃ answers, b.findUntagged options s =
      (b.catalogue.walk (options.flag .priorities) (options.get .maxInheritedTypes) s.hierarchy,
        { b with answers }) ∧
      Faithful options asked { b with answers } := by
  refine ⟨_, answerFor_eq fun a kept => faithful.untagged s a mem kept, ?_, ?_⟩
  -- The answer is kept under the type name, and serves all subjects of that name.
  · intro tag a kept
    rcases get?_answerFor kept with ⟨same, -⟩ | kept
    · exact absurd same.symm (apart s tag mem)
    · exact faithful.tagged tag a kept
  · intro s' a mem' kept
    rcases get?_answerFor kept with ⟨same, rfl⟩ | kept
    · rw [alike s' s mem' mem same]
    · exact faithful.untagged s' a mem' kept

/-- **Finding a rule looks it up in the catalogue**, whatever is kept. -/
theorem find_eq {s : Subject} (mem : asked s) :
    ∃ answers, b.find options s = (b.catalogue.lookup options s, { b with answers }) ∧
      Faithful options asked { b with answers } := by
  unfold find Catalogue.lookup
  cases s.tag with
  | none => exact findUntagged_eq faithful apart alike mem
  | some tag =>
    obtain ⟨answers, found, faithful'⟩ := findTagged_eq faithful apart tag
    dsimp only
    rw [found, Option.bind_some]
    cases b.catalogue.chooseTagged (options.flag .priorities) tag with
    | some m => exact ⟨answers, rfl, faithful'⟩
    | none => exact findUntagged_eq faithful' apart alike mem

/-! ## Serving requests -/

/-- **A request is replied to as without kept answers**, and what is kept stays
faithful. -/
theorem serve_eq {files : List RuleFile} (loaded : b.catalogue = Catalogue.append {} files)
    {r : Request} (mem : ∀ s, r = .find s → asked s) :
    (b.serve options r).1 = r.freshReply options files ∧
      Faithful options asked (b.serve options r).2 := by
  cases r with
  | reload source =>
    simp only [serve, reload, builtin, addFiles, Request.freshReply]
    cases options.flag .loadFiles with
    | false => exact ⟨rfl, faithful_of_forgotten _⟩
    | true =>
      cases source.files with
      | ok files => exact ⟨rfl, faithful_of_forgotten _⟩
      | error e => exact ⟨rfl, faithful_of_forgotten _⟩
  | loadText source text =>
    simp only [serve, loadText, addFiles, Request.freshReply]
    cases source.ofText text with
    | ok more => exact ⟨rfl, faithful_of_forgotten _⟩
    | error e => exact ⟨rfl, faithful⟩
  | find s =>
    obtain ⟨answers, found, faithful'⟩ := find_eq faithful apart alike (mem s rfl)
    simp only [serve, found]
    exact ⟨congrArg (fun c => Reply.found (c.lookup options s)) loaded, faithful'⟩

theorem replies_eq {files : List RuleFile} (loaded : b.catalogue = Catalogue.append {} files)
    {requests : List Request} (mem : ∀ s, .find s ∈ requests → asked s) :
    (serveAll options requests b).1 = Request.freshReplies options files requests := by
  induction requests generalizing b files with
  | nil => rfl
  | cons r rs ih =>
    obtain ⟨reply, faithful'⟩ := serve_eq faithful apart alike loaded
      (r := r) fun s h => mem s (h ▸ List.mem_cons_self)
    have replies := ih faithful' (catalogue_serve loaded r) fun s h =>
      mem s (List.mem_cons_of_mem r h)
    exact List.cons_eq_cons.mpr ⟨reply, replies⟩

end Find

/-- **A rule book replies to any requests as if it kept no answers**: each rule
is looked up among the files that are loaded at that moment. These are the
built-in rules and what the last reload supplied, if it did not fail, and the
files of each text since that was one. -/
theorem serveAll_eq {requests : List Request}
    (apart : ∀ s, .find s ∈ requests → s.typeName ≠ "$SSE" ∧ s.typeName ≠ "$SSE2")
    (alike : ∀ s s', .find s ∈ requests → .find s' ∈ requests → s.typeName = s'.typeName →
      s.hierarchy = s'.hierarchy) :
    (serveAll options requests (builtin options)).1 =
        Request.freshReplies options (Request.firstFiles options) requests ∧
      (serveAll options requests (builtin options)).2.catalogue =
        Catalogue.append {} (Request.filesAfterAll options requests) := by
  have faithful : Faithful options (fun s => .find s ∈ requests) (builtin options) :=
    faithful_of_forgotten _
  refine ⟨replies_eq faithful (fun s tag mem => ?_) alike rfl fun s mem => mem,
    catalogue_serveAll requests⟩
  cases tag with
  | sse => exact (apart s mem).1
  | sse2 => exact (apart s mem).2

/-! ## A text that brings a rule -/

/-- A variable of type `Row<int>`. -/
def row : Subject where
  typeName := "Row<int>"
  hierarchy := [⟨"Row<int>", "Row<int>"⟩]

/-- A source that has lost its files. The one text it reads describes a rule for
rows. -/
def rowSource : RuleSource where
  files := .error (.source "rows" "gone")
  ofText text :=
    if text = "rows" then .ok [{ origin := text, visualizers := [{ name := "Row<*>" }] }]
    else .error (.text "no rows")

/-- Requests about a row before and after the text, and after a reload that
fails. -/
def rowRequests : List Request :=
  [.find row, .loadText rowSource "rows", .find row, .loadText rowSource "columns", .find row,
    .reload rowSource, .find row]

/-- The name of the rule that was found. -/
def ruleName? : Reply → Option String
  | .found (some m) => some m.visualizer.name
  | _ => none

/-- The rule of the text serves rows as long as it is loaded, and no longer. -/
theorem serveAll_rowRequests :
    (∀ s, .find s ∈ rowRequests → s.typeName ≠ "$SSE" ∧ s.typeName ≠ "$SSE2") ∧
      (∀ s s', .find s ∈ rowRequests → .find s' ∈ rowRequests → s.typeName = s'.typeName →
        s.hierarchy = s'.hierarchy) ∧
      ((serveAll {} rowRequests (builtin {})).1 =
          Request.freshReplies {} (Request.firstFiles {}) rowRequests ∧
        (serveAll {} rowRequests (builtin {})).2.catalogue =
          Catalogue.append {} (Request.filesAfterAll {} rowRequests)) ∧
      (serveAll {} rowRequests (builtin {})).1.map ruleName? =
        [none, none, some "Row<*>", none, some "Row<*>", none, none] := by
  have only (s : Subject) (mem : .find s ∈ rowRequests) : s = row := by
    simpa [rowRequests] using mem
  have apart (s : Subject) (mem : .find s ∈ rowRequests) :
      s.typeName ≠ "$SSE" ∧ s.typeName ≠ "$SSE2" := by
    rw [only s mem]
    decide
  have alike (s s' : Subject) (mem : .find s ∈ rowRequests) (mem' : .find s' ∈ rowRequests)
      (_ : s.typeName = s'.typeName) : s.hierarchy = s'.hierarchy := by
    rw [only s mem, only s' mem']
  exact ⟨apart, alike, serveAll_eq apart alike, by decide +kernel⟩

end RuleBook

end WatchView
