import WatchView.Proofs.TypeTree.Phrases
import WatchView.Proofs.TypeTree.Written
/-!
# The grammar of type names

A text is a row of tokens with any blanks between them. A phrase is such a row
(`Spells`), and the relations here say what phrase a tree is derived from:

    type       = ["const"] (built-in | segments) ["const"] markers [array] [parameters]
    segments   = segment ("::" segment)*
    segment    = identifier ["<" arguments ">"]
    arguments  = argument ("," argument)*
    argument   = number | "*" | type
    markers    = (("*" | "&") ["const"])*
    array      = "[]" | "[" number "]"
    parameters = "(" [type ("," type)*] ")"

There are no blanks in `::` and `[]`. The relations have a proposition as a parameter; if it
holds, there may be a comma in front of the parenthesis that closes parameters, as the
reader accepts it. Without it (`Derives False`) they are the grammar above, in which
every list has an element behind each comma. A comma of the first kind can be seen in the text
(`hasSpareComma`), and **a text derived in the grammar has none** (`Derives.not_hasSpareComma`).
-/

namespace WatchView.TypeTree

open Text

/-! ## The rules -/

/-- An optional `const`. -/
inductive IsConst : List Lexeme → Prop
  | absent : IsConst []
  | present (blanks : List Char) : IsConst [⟨"const".toList, blanks⟩]

/-- A built-in name. -/
inductive IsBuiltin : List Lexeme → Prop
  /-- The words of a spelling. -/
  | words {ls spelling} (known : spelling ∈ Primitive.spellings)
      (same : List.Forall₂ (fun l choices => String.ofList l.token ∈ choices) ls spelling) :
      IsBuiltin ls
  /-- The vector extension. -/
  | vector {ls} (digits : Digits) (same : ls.map Lexeme.token = vectorTokens digits.chars) :
      IsBuiltin ls

/-- Pointer and reference markers. -/
inductive IsMarkers : List Lexeme → List Char → Prop
  | nil : IsMarkers [] []
  | cons {c blanks const ls markers} (marker : isMarker c = true) (behind : IsConst const)
      (more : IsMarkers ls markers) : IsMarkers (⟨[c], blanks⟩ :: (const ++ ls)) (c :: markers)

/-- The extent of an array, if there is one. -/
inductive IsArray : List Lexeme → Option Extent → Prop
  | absent : IsArray [] none
  | unbounded (blanks : List Char) : IsArray [⟨['['], []⟩, ⟨[']'], blanks⟩] (some .unbounded)
  | elements {count} (digits : Digits) (b b' b'' : List Char)
      (number : digits? 10 bound63 digits.chars = some count) :
      IsArray [⟨['['], b⟩, ⟨digits.chars, b'⟩, ⟨[']'], b''⟩] (some (.elements count))

section Rules

variable (comma : Prop)

mutual

/-- A whole type name. -/
inductive IsType : List Lexeme → TypeTree → Prop
  | mk {ls front head behind marks array list name markers extent parameters}
      (whole : ls = front ++ (head ++ (behind ++ (marks ++ (array ++ list)))))
      (before : IsConst front) (chosen : IsName head name) (after : IsConst behind)
      (marked : IsMarkers marks markers) (sized : IsArray array extent)
      (applied : IsParameterList list parameters) :
      IsType ls
        (named (textOf ls) (name.baseName ++ String.ofList markers) name.qualifiers name.args
          parameters extent)

/-- A built-in name, or segments. -/
inductive IsName : List Lexeme → TypeTree → Prop
  | builtin {ls} (spelled : IsBuiltin ls) : IsName ls (ofBaseName (textOf ls))
  | segments {ls name} (chain : IsSegments ls name) : IsName ls name

/-- Segments joined by `::`. -/
inductive IsSegments : List Lexeme → TypeTree → Prop
  | last {ls segment} (only : IsSegment ls segment) : IsSegments ls segment
  | more {ls ls' segment name} (blanks : List Char) (first : IsSegment ls segment)
      (others : IsSegments ls' name) :
      IsSegments (ls ++ ⟨[':'], []⟩ :: ⟨[':'], blanks⟩ :: ls')
        (named name.fullName name.baseName (segment :: name.qualifiers) name.args none none)

/-- An identifier, with template arguments or without. -/
inductive IsSegment : List Lexeme → TypeTree → Prop
  | plain (name : Identifier) (blanks : List Char) :
      IsSegment [⟨name.chars, blanks⟩]
        (named (textOf [⟨name.chars, blanks⟩]) (String.ofList name.chars) [] [] none none)
  | template {ls inside args} (name : Identifier) (b b' b'' : List Char)
      (whole : ls = ⟨name.chars, b⟩ :: ⟨['<'], b'⟩ :: (inside ++ [⟨['>'], b''⟩]))
      (list : IsArguments inside args) :
      IsSegment ls (named (textOf ls) (String.ofList name.chars) [] args none none)

/-- Template arguments, joined by commas. -/
inductive IsArguments : List Lexeme → List TypeTree → Prop
  | last {ls arg} (only : IsArgument ls arg) : IsArguments ls [arg]
  | more {ls ls' arg args} (blanks : List Char) (first : IsArgument ls arg)
      (others : IsArguments ls' args) : IsArguments (ls ++ ⟨[','], blanks⟩ :: ls') (arg :: args)

/-- A number, the wildcard, or a type name. -/
inductive IsArgument : List Lexeme → TypeTree → Prop
  | number (digits : Digits) (blanks : List Char) :
      IsArgument [⟨digits.chars, blanks⟩] (ofBaseName (String.ofList digits.chars))
  | wildcard (blanks : List Char) : IsArgument [⟨['*'], blanks⟩] wildcard
  | type {ls t} (type : IsType ls t) : IsArgument ls t

/-- The parameters of a function type, if there are any. -/
inductive IsParameterList : List Lexeme → Option (List TypeTree) → Prop
  | absent : IsParameterList [] none
  | empty (b b' : List Char) : IsParameterList [⟨['('], b⟩, ⟨[')'], b'⟩] (some [])
  | list {ls parameters} (b b' : List Char) (list : IsParameters ls parameters) :
      IsParameterList (⟨['('], b⟩ :: (ls ++ [⟨[')'], b'⟩])) (some parameters)

/-- Parameter types, joined by commas. -/
inductive IsParameters : List Lexeme → List TypeTree → Prop
  | last {ls parameter} (only : IsType ls parameter) : IsParameters ls [parameter]
  | more {ls ls' parameter parameters} (blanks : List Char) (first : IsType ls parameter)
      (others : IsParameters ls' parameters) :
      IsParameters (ls ++ ⟨[','], blanks⟩ :: ls') (parameter :: parameters)
  /-- A comma behind the last one, if it is allowed. -/
  | spare {ls parameter} (blanks : List Char) (allowed : comma) (only : IsType ls parameter) :
      IsParameters (ls ++ [⟨[','], blanks⟩]) [parameter]

end

/-- **Whether a tree is derived from a text**, whatever blanks are between the tokens. -/
def Derives (text : String) (t : TypeTree) : Prop :=
  ∃ ls, Spells ls (trimStart text.toList) [] ∧ IsType comma ls t

end Rules

/-- Whether a comma of a text has a closing parenthesis behind it, blanks aside. -/
def hasSpareComma : List Char → Bool
  | [] => false
  | c :: cs => (c == ',' && (trimStart cs).head? == some ')') || hasSpareComma cs

variable {c : Char} {b token cs rest : List Char} {ls ls' : List Lexeme}

/-! ## Commas in the text -/

theorem hasSpareComma_of_suffix (suffix : rest <:+ cs) (h : hasSpareComma rest = true) :
    hasSpareComma cs = true := by
  obtain ⟨front, rfl⟩ := suffix
  induction front with
  | nil => exact h
  | cons c front ih => rw [List.cons_append, hasSpareComma, ih, Bool.or_true]

theorem exists_of_hasSpareComma (h : hasSpareComma cs = true) :
    ∃ front next rest, cs = front ++ ',' :: next ∧ trimStart next = ')' :: rest := by
  induction cs with
  | nil => cases h
  | cons c cs ih =>
    rw [hasSpareComma, Bool.or_eq_true, Bool.and_eq_true, beq_iff_eq, beq_iff_eq] at h
    rcases h with ⟨rfl, closed⟩ | later
    · obtain ⟨rest, closed⟩ := List.head?_eq_some_iff.mp closed
      exact ⟨[], cs, rest, rfl, closed⟩
    · obtain ⟨front, next, rest, rfl, closed⟩ := ih later
      exact ⟨c :: front, next, rest, rfl, closed⟩

/-! ## Commas in a phrase -/

/-- No closing parenthesis is behind a comma, or in front of the phrase, and no comma ends it. -/
structure Tidy (ls : List Lexeme) : Prop where
  chain : ls.IsChain fun l l' => l.token = [','] → l'.token ≠ [')']
  first : ∀ l ∈ ls.head?, l.token ≠ [')']
  last : ∀ l ∈ ls.getLast?, l.token ≠ [',']

namespace Tidy

theorem nil : Tidy [] := ⟨.nil, nofun, nofun⟩

theorem single (noComma : token ≠ [',']) (noParen : token ≠ [')']) (blanks : List Char) :
    Tidy [⟨token, blanks⟩] := by
  refine ⟨.singleton _, ?_, ?_⟩
  · rintro _ ⟨⟩
    exact noParen
  · rintro _ ⟨⟩
    exact noComma

theorem append (h : Tidy ls) (h' : Tidy ls') : Tidy (ls ++ ls') where
  chain := List.isChain_append.mpr
    ⟨h.chain, h'.chain, fun l mem _ _ comma => absurd comma (h.last l mem)⟩
  first l mem := by
    rw [List.head?_append] at mem
    rcases Option.or_eq_some_iff.mp mem with here | ⟨-, behind⟩
    · exact h.first l here
    · exact h'.first l behind
  last l mem := by
    rw [List.getLast?_append] at mem
    rcases Option.or_eq_some_iff.mp mem with here | ⟨-, before⟩
    · exact h'.last l here
    · exact h.last l before

/-- What is between a comma and the end, if there is something. -/
theorem joined (h : Tidy ls) (filled : ls' ≠ []) (h' : Tidy ls') (blanks : List Char) :
    Tidy (ls ++ ⟨[','], blanks⟩ :: ls') := by
  obtain ⟨l, ls', rfl⟩ := List.exists_cons_of_ne_nil filled
  have noParen : [','] ≠ [')'] := by decide
  refine h.append ⟨?_, ?_, ?_⟩
  · exact List.isChain_cons_cons.mpr ⟨fun _ => h'.first l rfl, h'.chain⟩
  · rintro _ ⟨⟩
    exact noParen
  · rw [List.getLast?_cons_cons]
    exact h'.last

/-- What is between parentheses. -/
theorem enclosed (h : Tidy ls) (b b' : List Char) :
    Tidy (⟨['('], b⟩ :: (ls ++ [⟨[')'], b'⟩])) := by
  have opened : Tidy (⟨['('], b⟩ :: ls) := (single (by decide) (by decide) b).append h
  have noComma : [')'] ≠ [','] := by decide
  rw [← List.cons_append]
  refine ⟨List.isChain_append.mpr ⟨opened.chain, .singleton _, fun l mem _ _ comma => ?_⟩, ?_, ?_⟩
  · exact absurd comma (opened.last l mem)
  · exact opened.first
  · rw [List.getLast?_concat]
    rintro _ ⟨⟩
    exact noComma

/-- A phrase without commas. -/
theorem of_no_comma (noComma : ∀ l ∈ ls, l.token ≠ [','])
    (first : ∀ l ∈ ls.head?, l.token ≠ [')']) : Tidy ls where
  chain := List.Pairwise.isChain (List.pairwise_of_forall_mem_list fun l mem _ _ comma =>
    absurd comma (noComma l mem))
  first := first
  last l mem := noComma l (List.mem_of_mem_getLast? mem)

end Tidy

theorem ne_singleton_of_all {p : Char → Bool} (all : cs.all p = true) (other : p c = false) :
    cs ≠ [c] := by
  rintro rfl
  rw [List.all_cons, other] at all
  cases all

theorem Identifier.chars_ne (name : Identifier) (other : isIdent c = false) : name.chars ≠ [c] :=
  ne_singleton_of_all name.all other

theorem Digits.chars_ne (digits : Digits) (other : c.isDigit = false) : digits.chars ≠ [c] :=
  ne_singleton_of_all digits.all other

theorem IsConst.tidy (h : IsConst ls) : Tidy ls := by
  cases h with
  | absent => exact .nil
  | present blanks => exact .single (by decide) (by decide) blanks

/-- No word of a built-in name is a comma or a parenthesis. -/
theorem ne_mark_of_spelling {spelling : List (List String)}
    (plain : ∀ choices ∈ spelling, "," ∉ choices ∧ ")" ∉ choices)
    (same : List.Forall₂ (fun l choices => String.ofList l.token ∈ choices) ls spelling) :
    ∀ l ∈ ls, l.token ≠ [','] ∧ l.token ≠ [')'] := by
  induction same with
  | nil => exact List.forall_mem_nil _
  | @cons l choices ls spelling word _ ih =>
    obtain ⟨here, plain⟩ := List.forall_mem_cons.mp plain
    refine List.forall_mem_cons.mpr ⟨⟨fun comma => ?_, fun paren => ?_⟩, ih plain⟩
    · rw [comma] at word
      exact here.1 word
    · rw [paren] at word
      exact here.2 word

theorem IsBuiltin.tidy (h : IsBuiltin ls) : ls ≠ [] ∧ Tidy ls := by
  cases h with
  | words known same =>
    have plain : ∀ spelling ∈ Primitive.spellings, spelling ≠ [] ∧
        ∀ choices ∈ spelling, "," ∉ choices ∧ ")" ∉ choices := by decide +kernel
    obtain ⟨filled, plain⟩ := plain _ known
    have noMark := ne_mark_of_spelling plain same
    refine ⟨?_, .of_no_comma (fun l mem => (noMark l mem).1)
      fun l mem => (noMark l (List.mem_of_mem_head? mem)).2⟩
    rintro rfl
    cases same
    exact filled rfl
  | vector digits same =>
    have noComma : ∀ token ∈ vectorTokens digits.chars, token ≠ [','] := by
      simp [vectorTokens, digits.chars_ne]
    obtain ⟨l, ls, rfl⟩ : ∃ l ls', ls = l :: ls' := by
      cases ls with
      | nil => cases same
      | cons l ls => exact ⟨l, ls, rfl⟩
    refine ⟨List.cons_ne_nil _ _, .of_no_comma (fun l mem => ?_) ?_⟩
    · exact noComma _ (same ▸ List.mem_map_of_mem mem)
    · rintro _ ⟨⟩
      rw [(List.cons.inj same).1]
      decide

theorem IsMarkers.tidy {markers : List Char} (h : IsMarkers ls markers) : Tidy ls := by
  induction h with
  | nil => exact .nil
  | @cons c blanks const ls markers marker behind more ih =>
    have mark : Tidy [⟨[c], blanks⟩] := by
      simp only [isMarker, Bool.or_eq_true, beq_iff_eq] at marker
      obtain rfl | rfl := marker <;> exact .single (by decide) (by decide) blanks
    exact mark.append (behind.tidy.append ih)

theorem IsArray.tidy {extent : Option Extent} (h : IsArray ls extent) : Tidy ls := by
  have opened (b : List Char) : Tidy [⟨['['], b⟩] := .single (by decide) (by decide) b
  have closed (b : List Char) : Tidy [⟨[']'], b⟩] := .single (by decide) (by decide) b
  cases h with
  | absent => exact .nil
  | unbounded blanks => exact (opened []).append (closed blanks)
  | elements digits b b' b'' number =>
    have count : Tidy [⟨digits.chars, b'⟩] :=
      .single (digits.chars_ne (by decide)) (digits.chars_ne (by decide)) b'
    exact (opened b).append (count.append (closed b''))

mutual

theorem IsType.tidy {ls t} : IsType False ls t → ls ≠ [] ∧ Tidy ls
  | .mk whole before chosen after marked sized applied => by
    obtain ⟨filled, head⟩ := chosen.tidy
    subst whole
    refine ⟨by simp [filled], ?_⟩
    exact before.tidy.append (head.append
      (after.tidy.append (marked.tidy.append (sized.tidy.append applied.tidy))))

theorem IsName.tidy {ls t} : IsName False ls t → ls ≠ [] ∧ Tidy ls
  | .builtin spelled => spelled.tidy
  | .segments chain => chain.tidy

theorem IsSegments.tidy {ls t} : IsSegments False ls t → ls ≠ [] ∧ Tidy ls
  | .last only => only.tidy
  | .more blanks first others => by
    have colon (b : List Char) : Tidy [⟨[':'], b⟩] := .single (by decide) (by decide) b
    exact ⟨by simp, first.tidy.2.append ((colon []).append ((colon blanks).append others.tidy.2))⟩

theorem IsSegment.tidy {ls t} : IsSegment False ls t → ls ≠ [] ∧ Tidy ls
  | .plain name blanks =>
    ⟨by simp, .single (name.chars_ne (by decide)) (name.chars_ne (by decide)) blanks⟩
  | .template name b b' b'' whole list => by
    subst whole
    have name : Tidy [⟨name.chars, b⟩] :=
      .single (name.chars_ne (by decide)) (name.chars_ne (by decide)) b
    have opened : Tidy [⟨['<'], b'⟩] := .single (by decide) (by decide) b'
    have closed : Tidy [⟨['>'], b''⟩] := .single (by decide) (by decide) b''
    exact ⟨by simp, name.append (opened.append (list.tidy.2.append closed))⟩

theorem IsArguments.tidy {ls ts} : IsArguments False ls ts → ls ≠ [] ∧ Tidy ls
  | .last only => only.tidy
  | .more blanks first others =>
    ⟨by simp, first.tidy.2.joined others.tidy.1 others.tidy.2 blanks⟩

theorem IsArgument.tidy {ls t} : IsArgument False ls t → ls ≠ [] ∧ Tidy ls
  | .number digits blanks =>
    ⟨by simp, .single (digits.chars_ne (by decide)) (digits.chars_ne (by decide)) blanks⟩
  | .wildcard blanks => ⟨by simp, .single (by decide) (by decide) blanks⟩
  | .type type => type.tidy

theorem IsParameterList.tidy {ls parameters} : IsParameterList False ls parameters → Tidy ls
  | .absent => .nil
  | .empty b b' => Tidy.nil.enclosed b b'
  | .list b b' list => list.tidy.2.enclosed b b'

theorem IsParameters.tidy {ls ts} : IsParameters False ls ts → ls ≠ [] ∧ Tidy ls
  | .last only => only.tidy
  | .more blanks first others =>
    ⟨by simp, first.tidy.2.joined others.tidy.1 others.tidy.2 blanks⟩
  | .spare _ allowed _ => allowed.elim

end

/-- **No comma of a text that is derived without spare commas is one.** -/
theorem Derives.not_hasSpareComma {text : String} {t : TypeTree} (h : Derives False text t) :
    hasSpareComma text.toList = false := by
  obtain ⟨ls, spells, type⟩ := h
  refine Bool.eq_false_iff.mpr fun spare => ?_
  obtain ⟨front, next, rest, same, closed⟩ := exists_of_hasSpareComma spare
  -- such a comma and the parenthesis are tokens one behind the other, which a tidy phrase has not
  have comma : tokens text.toList = tokens front ++ [','] :: [')'] :: tokens rest := by
    have paren := tokens_append_mark (c := ')') (by decide) (by decide) [] rest
    rw [same, tokens_append_mark (by decide) (by decide), ← tokens_trimStart next, closed]
    exact congrArg (tokens front ++ [','] :: ·) paren
  have phrase := spells.tokens_eq
  rw [tokens_trimStart, comma] at phrase
  have chain := (List.isChain_map (R := fun token token' => token = [','] → token' ≠ [')'])
    Lexeme.token).mpr type.tidy.2.chain
  rw [← List.append_nil (ls.map Lexeme.token)] at chain
  rw [show ([] : List (List Char)) = tokens [] from rfl, ← phrase] at chain
  exact (List.isChain_append_cons_cons.mp chain).2.1 rfl rfl

end WatchView.TypeTree
