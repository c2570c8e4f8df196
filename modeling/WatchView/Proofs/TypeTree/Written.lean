import WatchView.Proofs.TypeTree.Reads
/-!
# Every written type name is read

`TypeForm` is what the grammar allows, as data: a built-in name or segments,
markers, an extent, parameters. `TypeForm.write` writes it down without a blank
that is not needed, and `TypeForm.tree` is the tree it stands for. **Writing a
form and reading it gives its tree** (`parse_write`).

The derivation is built piece by piece. Behind each piece stands what is still to
be written, and all that counts of it is the character it starts with (`Ends`).
-/

namespace WatchView.TypeTree

open Text

/-! ## What is written -/

/-- One or more digits. -/
structure Digits where
  chars : List Char
  nonempty : chars ≠ []
  all : chars.all Char.isDigit = true

/-- The extent of an array, left open or a number below 2⁶³. -/
inductive Size where
  | unbounded
  | elements (digits : Digits) (bounded : valueOfDigits 10 digits.chars < bound63)

/-- The decimal digits of a number. -/
def Digits.ofNat (n : Nat) : Digits where
  chars := Nat.toDigits 10 n
  nonempty := Nat.toDigits_ne_nil
  all := List.all_eq_true.mpr fun _ => Nat.isDigit_of_mem_toDigits (by decide) (by decide)

/-- An identifier. -/
structure Identifier where
  chars : List Char
  starts : chars.head?.any isIdentStart = true
  all : chars.all isIdent = true

/-- An identifier a type name starts with, neither `const` nor a built-in name. -/
structure FirstIdentifier extends Identifier where
  noConst : chars ≠ "const".toList
  noBuiltin : [String.ofList chars] ∉ Primitive.table

/-- The words of a built-in name. -/
structure Spelling where
  words : List String
  known : words ∈ Primitive.table

/-- A pointer or reference marker. -/
inductive Marker where
  | pointer
  | reference

mutual

/-- A type name. -/
inductive TypeForm where
  | mk (name : NameForm) (markers : List Marker) (size : Option Size)
      (parameters : Option (List TypeForm))

/-- What a type name starts with: a built-in name, a segment, or segments joined
by `::`. No template arguments stand for no list of them. -/
inductive NameForm where
  | builtin (spelling : Spelling)
  | plain (first : FirstIdentifier) (args : List ArgForm)
  | qualified (first : FirstIdentifier) (args : List ArgForm) (between : List SegmentForm)
      (last : SegmentForm)

/-- A segment behind a `::`. -/
inductive SegmentForm where
  | mk (name : Identifier) (args : List ArgForm)

/-- A template argument. -/
inductive ArgForm where
  | number (digits : Digits)
  | wildcard
  | type (form : TypeForm)

end

/-! ## Writing -/

def Marker.char : Marker → Char
  | pointer => '*'
  | reference => '&'

def writeMarkers (markers : List Marker) : List Char := markers.map Marker.char

def writeSize : Option Size → List Char
  | none => []
  | some .unbounded => ['[', ']']
  | some (.elements digits _) => '[' :: (digits.chars ++ [']'])

/-- A list of template arguments, if there are any, written as `text`. -/
def bracketed (args : List ArgForm) (text : List Char) : List Char :=
  if args.isEmpty then [] else '<' :: (text ++ ['>'])

mutual

def TypeForm.write : TypeForm → List Char
  | .mk name markers size parameters =>
    name.write ++ (writeMarkers markers ++ (writeSize size ++ writeParameterList parameters))

def NameForm.write : NameForm → List Char
  | .builtin spelling => Primitive.spaced spelling.words
  | .plain first args => first.chars ++ bracketed args (writeArgs args)
  | .qualified first args between last =>
    (first.chars ++ bracketed args (writeArgs args)) ++
      (':' :: ':' :: (writeBetween between ++ last.write))

def SegmentForm.write : SegmentForm → List Char
  | .mk name args => name.chars ++ bracketed args (writeArgs args)

/-- Segments, each with the `::` behind it. -/
def writeBetween : List SegmentForm → List Char
  | [] => []
  | segment :: more => segment.write ++ (':' :: ':' :: writeBetween more)

/-- Template arguments with the commas between them. -/
def writeArgs : List ArgForm → List Char
  | [] => []
  | [arg] => arg.write
  | arg :: arg' :: more => arg.write ++ (',' :: writeArgs (arg' :: more))

def ArgForm.write : ArgForm → List Char
  | .number digits => digits.chars
  | .wildcard => ['*']
  | .type form => form.write

def writeParameterList : Option (List TypeForm) → List Char
  | none => []
  | some parameters => '(' :: (writeParameters parameters ++ [')'])

/-- Parameters with the commas between them. -/
def writeParameters : List TypeForm → List Char
  | [] => []
  | [parameter] => parameter.write
  | parameter :: parameter' :: more =>
    parameter.write ++ (',' :: writeParameters (parameter' :: more))

end

example : (TypeForm.mk
    (.qualified ⟨⟨['A'], by decide, by decide⟩, by decide, by decide +kernel⟩ [.wildcard] []
      (.mk ⟨['B'], by decide, by decide⟩ [.number (.ofNat 7), .wildcard]))
    [.pointer, .reference] (some .unbounded) (some [])).write = "A<*>::B<7,*>*&[]()".toList := by
  decide

/-! ## The tree of what is written -/

def Size.extent : Size → Extent
  | unbounded => .unbounded
  | elements digits _ => .elements (valueOfDigits 10 digits.chars)

/-- The tree of a segment written as `text`. -/
def segmentTree (text : List Char) (name : Identifier) (args : List TypeTree) : TypeTree :=
  named (String.ofList text) (String.ofList name.chars) [] args none none

mutual

def TypeForm.tree : TypeForm → TypeTree
  | form@(.mk name markers size parameters) =>
    named (String.ofList form.write) (name.tree.baseName ++ String.ofList (writeMarkers markers))
      name.tree.qualifiers name.tree.args (parameterTrees? parameters) (size.map Size.extent)

/-- The tree of a name: the one of its last segment, with the others as qualifiers. -/
def NameForm.tree : NameForm → TypeTree
  | .builtin spelling => ofBaseName (String.ofList (Primitive.spaced spelling.words))
  | .plain first args =>
    segmentTree (first.chars ++ bracketed args (writeArgs args)) first.toIdentifier (argTrees args)
  | .qualified first args between last =>
    named last.tree.fullName last.tree.baseName
      (segmentTree (first.chars ++ bracketed args (writeArgs args)) first.toIdentifier
        (argTrees args) :: segmentTrees between)
      last.tree.args none none

def SegmentForm.tree : SegmentForm → TypeTree
  | .mk name args => segmentTree (name.chars ++ bracketed args (writeArgs args)) name (argTrees args)

def segmentTrees : List SegmentForm → List TypeTree
  | [] => []
  | segment :: more => segment.tree :: segmentTrees more

def argTrees : List ArgForm → List TypeTree
  | [] => []
  | arg :: more => arg.tree :: argTrees more

def ArgForm.tree : ArgForm → TypeTree
  | .number digits => ofBaseName (String.ofList digits.chars)
  | .wildcard => wildcard
  | .type form => form.tree

def parameterTrees? : Option (List TypeForm) → Option (List TypeTree)
  | none => none
  | some parameters => some (parameterTrees parameters)

def parameterTrees : List TypeForm → List TypeTree
  | [] => []
  | parameter :: more => parameter.tree :: parameterTrees more

end

/-! ## What stands behind a piece -/

variable {stops stops' : List Char} {r v w : List Char}

/-- A text is empty or starts with one of these characters. -/
def Ends (stops r : List Char) : Prop := ∀ c, r.head? = some c → c ∈ stops

/-- What may follow a type name inside another one. -/
def closers : List Char := [',', '>', ')']

/-- What may follow an extent. -/
def afterSize : List Char := '(' :: closers

/-- What may follow the markers. -/
def afterMarkers : List Char := '[' :: afterSize

/-- What may follow a name. -/
def afterName : List Char := '*' :: '&' :: afterMarkers

/-- What may follow a segment. -/
def afterSegment : List Char := ':' :: afterName

namespace Ends

theorem cons {c : Char} (mem : c ∈ stops) (r : List Char) : Ends stops (c :: r) := by
  intro d head
  cases head
  exact mem

theorem mono (h : Ends stops r) (sub : stops ⊆ stops') : Ends stops' r :=
  fun c head => sub (h c head)

theorem head?_ne {c : Char} (h : Ends stops r) (other : c ∉ stops) : r.head? ≠ some c :=
  fun head => other (h c head)

theorem head?_any {p : Char → Bool} (h : Ends stops r) (lacks : stops.any p = false) :
    r.head?.any p = false := by
  cases r with
  | nil => rfl
  | cons c r => simpa using List.any_eq_false.mp lacks c (h c rfl)

theorem noIdent (h : Ends afterSegment r) : r.head?.any isIdent = false := h.head?_any (by decide)

theorem noBlank (h : Ends afterSegment r) : r.head?.any isBlank = false := h.head?_any (by decide)

theorem trimStart (h : Ends afterSegment r) : trimStart r = r := trimStart_of_head h.noBlank

theorem skipConst (h : Ends afterSegment r) :
    TypeTree.skipConst (Text.trimStart r) = r := by
  rw [h.trimStart]
  refine skipConst_of_takeWhile ?_
  have none := (takeWhile_append_dropWhile_append (v := []) rfl h.noIdent).1
  rw [List.nil_append] at none
  rw [none]
  decide

end Ends

/-! ## The pieces -/

theorem ends_writeMarkers (markers : List Marker) (h : Ends afterMarkers r) :
    Ends afterName (writeMarkers markers ++ r) := by
  cases markers with
  | nil => exact h.mono (by decide)
  | cons marker markers => cases marker <;> exact .cons (by decide) _

theorem ends_writeSize (size : Option Size) (h : Ends afterSize r) :
    Ends afterMarkers (writeSize size ++ r) := by
  rcases size with _ | _ | _
  · exact h.mono (by decide)
  · exact .cons (by decide) _
  · exact .cons (by decide) _

theorem ends_writeParameterList (parameters : Option (List TypeForm)) (h : Ends closers r) :
    Ends afterSize (writeParameterList parameters ++ r) := by
  cases parameters with
  | none => exact h.mono (by decide)
  | some => exact .cons (by decide) _

theorem readsMarkers_write (markers : List Marker) (h : Ends afterMarkers r) :
    ReadsMarkers (writeMarkers markers ++ r) (writeMarkers markers) r := by
  induction markers with
  | nil => exact .nil (h.head?_any (by decide))
  | cons marker markers ih =>
    have next : Ends afterSegment (writeMarkers markers ++ r) :=
      (ends_writeMarkers markers h).mono (by decide)
    have more : ReadsMarkers (skipConst (trimStart (writeMarkers markers ++ r)))
        (writeMarkers markers) r := by rwa [next.skipConst]
    exact .cons (by cases marker <;> rfl) more

theorem digitValue_lt_of_isDigit {c : Char} (h : c.isDigit = true) : digitValue c < 10 := by
  have range : '0' ≤ c ∧ c ≤ '9' := by
    simpa [Char.isDigit, Char.le_def] using h
  have top : c.toNat ≤ '9'.toNat := range.2
  have nine : '9'.toNat = 57 := rfl
  have zero : '0'.toNat = 48 := rfl
  rw [digitValue, if_pos range]
  omega

theorem Digits.digits? (digits : Digits) (bounded : valueOfDigits 10 digits.chars < bound63) :
    Text.digits? 10 bound63 digits.chars = some (valueOfDigits 10 digits.chars) := by
  have all : digits.chars.all (fun c => digitValue c < 10) = true := by
    rw [List.all_eq_true]
    intro c mem
    exact decide_eq_true (digitValue_lt_of_isDigit (List.all_eq_true.mp digits.all c mem))
  rw [Text.digits?, List.isEmpty_eq_false_iff.mpr digits.nonempty, all, decide_eq_true bounded]
  rfl

theorem Digits.head? (digits : Digits) (cs : List Char) :
    (digits.chars ++ cs).head?.any Char.isDigit = true := by
  obtain ⟨c, chars, same⟩ := List.exists_cons_of_ne_nil digits.nonempty
  have all := digits.all
  rw [same, List.all_cons, Bool.and_eq_true] at all
  rw [same]
  exact all.1

theorem readsExtent_write (size : Option Size) (h : Ends afterSize r) :
    ReadsExtent (writeSize size ++ r) (size.map Size.extent) r := by
  have next : trimStart r = r := (h.mono (by decide)).trimStart
  rcases size with _ | _ | ⟨digits, bounded⟩
  · exact .none (h.head?_ne (by decide))
  · have read : ReadsExtent ('[' :: ']' :: r) (some .unbounded) (trimStart r) := .unbounded
    rwa [next] at read
  · obtain ⟨taken, dropped⟩ :=
      takeWhile_append_dropWhile_append (z := ']' :: r) digits.all rfl
    have start : trimStart (digits.chars ++ ']' :: r) = digits.chars ++ ']' :: r :=
      trimStart_of_head (noBlank_of_isIdent (fun _ => isIdent_of_isDigit) (digits.head? _))
    have number : Text.digits? 10 bound63
        ((trimStart (digits.chars ++ ']' :: r)).takeWhile Char.isDigit) =
          some (valueOfDigits 10 digits.chars) := by
      rw [start, taken]
      exact digits.digits? bounded
    have closed : trimStart ((trimStart (digits.chars ++ ']' :: r)).dropWhile Char.isDigit) =
        ']' :: r := by
      rw [start, dropped]
      exact trimStart_of_head rfl
    have read := ReadsExtent.elements number closed
    rw [next] at read
    simpa [writeSize, Size.extent] using read

/-- The text of a piece that ends in no blank, whatever follows it. -/
theorem readText_write (h : w.getLast?.any isBlank = false) (r : List Char) :
    readText (w ++ r) r = String.ofList w := by
  rw [readText, readPart_append, trimEnd_of_getLast? h]

/-! ## First and last characters -/

theorem Identifier.getLast?_noBlank (name : Identifier) :
    name.chars.getLast?.any isBlank = false := by
  cases last : name.chars.getLast? with
  | none => rfl
  | some c =>
    have ident := List.all_eq_true.mp name.all c (List.mem_of_getLast? last)
    exact not_isBlank_of_isIdent ident

theorem getLast?_bracketed (args : List ArgForm) (text : List Char) :
    (bracketed args text).getLast?.any isBlank = false := by
  cases args with
  | nil => rfl
  | cons arg args =>
    have last : bracketed (arg :: args) text = ('<' :: text) ++ ['>'] := rfl
    rw [last, List.getLast?_concat]
    rfl

theorem getLast?_segment (name : Identifier) (args : List ArgForm) (text : List Char) :
    (name.chars ++ bracketed args text).getLast?.any isBlank = false :=
  getLast?_append_noBlank name.getLast?_noBlank (getLast?_bracketed args text)

theorem SegmentForm.getLast?_write (segment : SegmentForm) :
    segment.write.getLast?.any isBlank = false := by
  cases segment with
  | mk name args => exact getLast?_segment name args _

theorem SegmentForm.starts (segment : SegmentForm) :
    segment.write.head?.any isIdentStart = true := by
  cases segment with
  | mk name args => exact head?_append_any name.starts _

theorem SegmentForm.write_ne_nil (segment : SegmentForm) : segment.write ≠ [] := by
  intro none
  have starts := segment.starts
  rw [none] at starts
  cases starts

theorem NameForm.getLast?_write (name : NameForm) : name.write.getLast?.any isBlank = false := by
  cases name with
  | builtin spelling => exact Primitive.getLast?_spaced _ spelling.known
  | plain first args => exact getLast?_segment first.toIdentifier args _
  | qualified first args between last =>
    have tail := getLast?_append_of_ne_nil last.write_ne_nil last.getLast?_write
      (first.chars ++ bracketed args (writeArgs args) ++ (':' :: ':' :: writeBetween between))
    rw [List.append_assoc] at tail
    exact tail

theorem TypeForm.getLast?_write (form : TypeForm) : form.write.getLast?.any isBlank = false := by
  cases form with
  | mk name markers size parameters =>
    refine getLast?_append_noBlank name.getLast?_write (getLast?_append_noBlank ?_
      (getLast?_append_noBlank ?_ ?_))
    · cases last : (writeMarkers markers).getLast? with
      | none => rfl
      | some c =>
        obtain ⟨marker, -, rfl⟩ := List.mem_map.mp (List.mem_of_getLast? last)
        cases marker <;> rfl
    · rcases size with _ | _ | ⟨digits, bounded⟩
      · rfl
      · rfl
      · exact getLast?_append_of_ne_nil (z := [']']) (by decide) rfl ('[' :: digits.chars)
    · cases parameters with
      | none => rfl
      | some parameters =>
        exact getLast?_append_of_ne_nil (z := [')']) (by decide) rfl
          ('(' :: writeParameters parameters)

theorem TypeForm.starts (form : TypeForm) : form.write.head?.any isIdentStart = true := by
  cases form with
  | mk name markers size parameters =>
    refine head?_append_any ?_ _
    cases name with
    | builtin spelling => exact Primitive.head?_spaced _ spelling.known
    | plain first args => exact head?_append_any first.starts _
    | qualified first args between last =>
      exact head?_append_any (head?_append_any first.starts _) _

theorem TypeForm.trimStart (form : TypeForm) (r : List Char) :
    trimStart (form.write ++ r) = form.write ++ r :=
  trimStart_of_head
    (noBlank_of_isIdent (fun _ => isIdent_of_isIdentStart) (head?_append_any form.starts r))

theorem ArgForm.trimStart (arg : ArgForm) (r : List Char) :
    trimStart (arg.write ++ r) = arg.write ++ r := by
  cases arg with
  | number digits =>
    exact trimStart_of_head (noBlank_of_isIdent (fun _ => isIdent_of_isDigit) (digits.head? r))
  | wildcard => rfl
  | type form => exact form.trimStart r

/-- A type name is no end of a list of parameters. -/
theorem TypeForm.opens (form : TypeForm) (r : List Char) :
    (Text.trimStart (form.write ++ r)).head? ≠ some ')' := by
  rw [form.trimStart]
  exact head?_ne_of_isIdentStart (head?_append_any form.starts r) rfl

theorem starts_writeBetween {w : List Char} (between : List SegmentForm)
    (h : w.head?.any isIdentStart = true) :
    (writeBetween between ++ w).head?.any isIdentStart = true := by
  cases between with
  | nil => exact h
  | cons segment more =>
    rw [writeBetween, List.append_assoc]
    exact head?_append_any segment.starts _

/-! ## Reading what is written -/

theorem readsSegment_write (name : Identifier) (args : List ArgForm) (h : Ends afterSegment r)
    (list : args ≠ [] → ReadsArguments (writeArgs args ++ '>' :: r) (argTrees args) ('>' :: r)) :
    ReadsSegment ((name.chars ++ bracketed args (writeArgs args)) ++ r)
      (segmentTree (name.chars ++ bracketed args (writeArgs args)) name (argTrees args)) r := by
  have text := readText_write (getLast?_segment name args (writeArgs args)) r
  -- without arguments the segment ends with its name, and otherwise with the closing bracket
  cases args with
  | nil =>
    have bare : name.chars ++ bracketed [] (writeArgs []) = name.chars := List.append_nil _
    rw [bare] at text ⊢
    obtain ⟨taken, dropped⟩ := takeWhile_append_dropWhile_append name.all h.noIdent
    have read := @ReadsSegment.plain (name.chars ++ r) (head?_append_any name.starts r) (by
      rw [dropped, h.trimStart]
      exact h.head?_ne (by decide))
    rw [taken, dropped, h.trimStart, text] at read
    exact read
  | cons arg args =>
    obtain ⟨taken, dropped⟩ := takeWhile_append_dropWhile_append
      (z := '<' :: (writeArgs (arg :: args) ++ '>' :: r)) name.all rfl
    have whole : (name.chars ++ bracketed (arg :: args) (writeArgs (arg :: args))) ++ r =
        name.chars ++ '<' :: (writeArgs (arg :: args) ++ '>' :: r) := by
      simp [bracketed]
    rw [whole] at text ⊢
    have opens : trimStart ((name.chars ++ '<' :: (writeArgs (arg :: args) ++ '>' :: r)).dropWhile
        isIdent) = '<' :: (writeArgs (arg :: args) ++ '>' :: r) := by
      rw [dropped]
      exact trimStart_of_head rfl
    have read := ReadsSegment.template (head?_append_any name.starts _) opens (list nofun)
    rw [taken, text] at read
    exact read

/-- A segment is the last one where no `::` follows. -/
theorem ReadsSegment.last {segment : TypeTree} (read : ReadsSegment v segment r)
    (h : Ends afterName r) : ReadsSegments v segment r := by
  have h' : Ends afterSegment r := h.mono (by decide)
  have last := ReadsSegments.last read (by
    rw [h'.trimStart]
    rintro next rfl
    exact absurd rfl (h.head?_ne (by decide)))
  rwa [h'.trimStart] at last

/-- A segment in front of others is the first of their qualifiers. -/
theorem ReadsSegment.joined {segment : TypeTree} {full base : String}
    {qualifiers args : List TypeTree} (first : ReadsSegment (v ++ ':' :: ':' :: w) segment
      (':' :: ':' :: w)) (starts : w.head?.any isIdentStart = true)
    (others : ReadsSegments w (named full base qualifiers args none none) r) :
    ReadsSegments (v ++ ':' :: ':' :: w)
      (named full base (segment :: qualifiers) args none none) r := by
  have start : trimStart w = w :=
    trimStart_of_head (noBlank_of_isIdent (fun _ => isIdent_of_isIdentStart) starts)
  refine .more first (trimStart_of_head rfl) ?_ (by rwa [start])
  rintro rfl
  cases starts

theorem ends_bracketed (args : List ArgForm) (text : List Char) (h : Ends afterSegment r) :
    Ends ('<' :: afterSegment) (bracketed args text ++ r) := by
  cases args with
  | nil => exact h.mono (by decide)
  | cons arg args => exact .cons (by decide) _

namespace FirstIdentifier

variable (first : FirstIdentifier) (args : List ArgForm) (text : List Char)

theorem skipConst (h : Ends afterSegment r) :
    skipConst (first.chars ++ bracketed args text ++ r) =
      first.chars ++ bracketed args text ++ r := by
  have ends := ends_bracketed args text h
  refine skipConst_of_takeWhile ?_
  rw [List.append_assoc,
    (takeWhile_append_dropWhile_append first.all (ends.head?_any (by decide))).1]
  exact first.noConst

theorem read?_eq_none (h : Ends afterSegment r) :
    Primitive.read? (first.chars ++ bracketed args text ++ r) = none := by
  have ends := ends_bracketed args text h
  rw [List.append_assoc]
  exact Primitive.read?_identifier (ends.head?_any (by decide)) (ends.head?_any (by decide))
    first.all first.noBuiltin

end FirstIdentifier

theorem NameForm.skipConst (name : NameForm) (h : Ends afterName r) :
    skipConst (name.write ++ r) = name.write ++ r := by
  have h' : Ends afterSegment r := h.mono (by decide)
  cases name with
  | builtin spelling =>
    refine skipConst_of_takeWhile ?_
    rw [write, takeWhile_append_of_head h'.noIdent]
    exact Primitive.takeWhile_spaced _ spelling.known
  | plain first args => exact first.skipConst args _ h'
  | qualified first args between last =>
    rw [write, List.append_assoc (first.chars ++ bracketed args (writeArgs args))]
    exact first.skipConst args _ (.cons (by decide) _)

-- The induction is on the form. What follows a piece counts only by its first character,
-- which is one of those that may stand behind such a piece.
mutual

theorem TypeForm.reads {r} : (form : TypeForm) → Ends closers r →
    ReadsType (form.write ++ r) form.tree r
  | .mk name markers size parameters, h => by
    have h₃ := ends_writeParameterList parameters h
    have h₂ := ends_writeSize size h₃
    have h₁ := ends_writeMarkers markers h₂
    have head := name.reads h₁
    have marked := readsMarkers_write markers h₂
    have next : Ends afterSegment _ := h₁.mono (by decide)
    rw [← next.skipConst] at marked
    have whole : (TypeForm.mk name markers size parameters).write ++ r = name.write ++
        (writeMarkers markers ++ (writeSize size ++ (writeParameterList parameters ++ r))) := by
      simp only [TypeForm.write, List.append_assoc]
    have text := readText_write (TypeForm.mk name markers size parameters).getLast?_write r
    rw [whole] at text ⊢
    rw [← name.skipConst h₁] at head
    have read := ReadsType.mk head marked (readsExtent_write size h₃)
      (readsParameterList_write parameters h)
    rw [text] at read
    exact read

theorem NameForm.reads {r} : (name : NameForm) → Ends afterName r →
    ReadsName (name.write ++ r) name.tree r
  | .builtin spelling, h =>
    have h : Ends afterSegment r := h.mono (by decide)
    .builtin (Primitive.read?_spaced h.noIdent h.noBlank spelling.known)
  | .plain first args, h => by
    have h' : Ends afterSegment r := h.mono (by decide)
    have read := readsSegment_write first.toIdentifier args h' (readsArguments_write args)
    exact .segments (first.read?_eq_none args _ h') (read.last h)
  | .qualified first args between (.mk name args'), h => by
    have h' : Ends afterSegment r := h.mono (by decide)
    have last := readsSegment_write name args' h' (readsArguments_write args')
    have others := readsSegments_write between
      (head?_append_any (SegmentForm.mk name args').starts r) (last.last h)
    have starts := starts_writeBetween between
      (head?_append_any (SegmentForm.mk name args').starts r)
    have ends : Ends afterSegment
        (':' :: ':' :: (writeBetween between ++ ((SegmentForm.mk name args').write ++ r))) :=
      .cons (by decide) _
    have head := readsSegment_write first.toIdentifier args ends (readsArguments_write args)
    have noBuiltin := first.read?_eq_none args (writeArgs args) ends
    have whole : (NameForm.qualified first args between (.mk name args')).write ++ r =
        first.chars ++ bracketed args (writeArgs args) ++
          ':' :: ':' :: (writeBetween between ++ ((SegmentForm.mk name args').write ++ r)) := by
      simp only [NameForm.write, List.append_assoc, List.cons_append]
    have chain := head.joined starts others
    rw [List.append_nil] at chain
    rw [whole]
    exact .segments noBuiltin chain

theorem SegmentForm.reads {r} : (segment : SegmentForm) → Ends afterSegment r →
    ReadsSegment (segment.write ++ r) segment.tree r
  | .mk name args, h => readsSegment_write name args h (readsArguments_write args)

theorem readsSegments_write {r w full base qualifiers args} : (between : List SegmentForm) →
    w.head?.any isIdentStart = true →
    ReadsSegments w (named full base qualifiers args none none) r →
    ReadsSegments (writeBetween between ++ w)
      (named full base (segmentTrees between ++ qualifiers) args none none) r
  | [], _, last => last
  | segment :: more, starts, last => by
    have first := segment.reads (r := ':' :: ':' :: (writeBetween more ++ w)) (.cons (by decide) _)
    have others := readsSegments_write more starts last
    have whole : writeBetween (segment :: more) ++ w =
        segment.write ++ ':' :: ':' :: (writeBetween more ++ w) := by
      simp only [writeBetween, List.append_assoc, List.cons_append]
    rw [whole]
    exact first.joined (starts_writeBetween more starts) others

theorem readsArguments_write {r} : (args : List ArgForm) → args ≠ [] →
    ReadsArguments (writeArgs args ++ '>' :: r) (argTrees args) ('>' :: r)
  | [arg], _ => by
    have first := arg.reads (r := '>' :: r) (.cons (by decide) r)
    rw [← arg.trimStart] at first
    exact .last first nofun
  | arg :: arg' :: more, _ => by
    have others := readsArguments_write (r := r) (arg' :: more) nofun
    have first := arg.reads (r := ',' :: (writeArgs (arg' :: more) ++ '>' :: r))
      (.cons (by decide) _)
    rw [← arg.trimStart] at first
    have whole : writeArgs (arg :: arg' :: more) ++ '>' :: r =
        arg.write ++ ',' :: (writeArgs (arg' :: more) ++ '>' :: r) := by
      simp only [writeArgs, List.append_assoc, List.cons_append]
    rw [whole]
    exact .more first rfl (by simp) others

theorem ArgForm.reads {r} : (arg : ArgForm) → Ends closers r →
    ReadsArgument (arg.write ++ r) arg.tree r
  | .number digits, h => by
    obtain ⟨taken, dropped⟩ :=
      takeWhile_append_dropWhile_append digits.all (h.head?_any (by decide))
    have read := ReadsArgument.number (digits.head? r)
    rw [taken, dropped] at read
    exact read
  | .wildcard, _ => .wildcard
  | .type form, h => by
    have starts := head?_append_any form.starts r
    exact .type (noDigit_of_isIdentStart starts) (head?_ne_of_isIdentStart starts rfl)
      (form.reads h)

theorem readsParameterList_write {r} : (parameters : Option (List TypeForm)) → Ends closers r →
    ReadsParameterList (writeParameterList parameters ++ r) (parameterTrees? parameters) r
  | none, h => .none (h.head?_ne (by decide))
  | some parameters, h => by
    have next : Ends afterSegment r := h.mono (by decide)
    have list := ReadsParameterList.some (readsParameters_write (r := r) parameters)
    rw [next.trimStart] at list
    have whole : writeParameterList (some parameters) ++ r =
        '(' :: (writeParameters parameters ++ ')' :: r) := by
      simp only [writeParameterList, List.append_assoc, List.cons_append, List.nil_append]
    rw [whole]
    exact list

theorem readsParameters_write {r} : (parameters : List TypeForm) →
    ReadsParameters (writeParameters parameters ++ ')' :: r) (parameterTrees parameters) r
  | [] => .nil rfl
  | [parameter] => by
    have first := parameter.reads (r := ')' :: r) (.cons (by decide) r)
    rw [← parameter.trimStart] at first
    exact .last (parameter.opens _) first rfl
  | parameter :: parameter' :: more => by
    have others := readsParameters_write (r := r) (parameter' :: more)
    have first := parameter.reads (r := ',' :: (writeParameters (parameter' :: more) ++ ')' :: r))
      (.cons (by decide) _)
    have whole : writeParameters (parameter :: parameter' :: more) ++ ')' :: r =
        parameter.write ++ ',' :: (writeParameters (parameter' :: more) ++ ')' :: r) := by
      simp only [writeParameters, List.append_assoc, List.cons_append]
    rw [← parameter.trimStart] at first
    rw [whole]
    exact .more (parameter.opens _) first rfl others

end

/-- **What the grammar allows, written without a needless blank, is read as its
tree.** -/
theorem parse_write (form : TypeForm) : parse (String.ofList form.write) = .ok form.tree := by
  have read := form.reads (r := []) nofun
  rw [List.append_nil, ← List.append_nil form.write, ← form.trimStart, List.append_nil] at read
  rw [parse_eq_ok_iff, String.toList_ofList]
  exact ⟨[], read, rfl⟩

end WatchView.TypeTree
