import Mathlib.Data.List.Chain
import WatchView.Template
/-!
# What is written in a template is read back

To write a sequence of parts as a template, every brace of a literal is
written twice and every expression is put between braces. Reading tells a
doubled brace from the start of an expression by the next character only, and
that suffices: `parts_write_iff` says that a sequence is read back exactly if
it is one that reading can give at all. Such a sequence (`IsTemplate`) has no
empty literal and no two literals side by side, and its expressions have no
closing brace and do not begin with an opening one.
-/

namespace WatchView

namespace Template

/-! ## Writing -/

/-- The text of a literal: every brace is written twice. -/
def escape (text : List Char) : List Char :=
  text.flatMap fun c => if c = '\x7b' ∨ c = '\x7d' then [c, c] else [c]

/-- A part as it stands in a template. -/
def Part.write : Part → List Char
  | literal text => escape text
  | placeholder expression => '\x7b' :: expression ++ ['\x7d']

/-- The template made of these parts. -/
def write (ps : List Part) : List Char := ps.flatMap Part.write

/-- Whether a text can be read as an expression between braces. -/
def IsExpression (expression : List Char) : Prop :=
  '\x7d' ∉ expression ∧ expression.head? ≠ some '\x7b'

/-- Whether a part is text. -/
def Part.isLiteral : Part → Bool
  | literal _ => true
  | placeholder _ => false

/-- Whether a part can be read from a template. -/
def Part.IsReadable : Part → Prop
  | literal text => text ≠ []
  | placeholder expression => IsExpression expression

/-- **The sequences of parts that templates have.** -/
structure IsTemplate (ps : List Part) : Prop where
  readable : ∀ p ∈ ps, p.IsReadable
  /-- No two literals stand side by side. -/
  apart : ps.IsChain fun p q => p.isLiteral = true → q.isLiteral = false

variable {ps : List Part} {ms : List Mark} {cs rest : List Char}

theorem isTemplate_nil : IsTemplate [] := ⟨by simp, .nil⟩

theorem isTemplate_cons_iff {p : Part} : IsTemplate (p :: ps) ↔
    p.IsReadable ∧ (p.isLiteral = true → ∀ q ∈ ps.head?, q.isLiteral = false) ∧ IsTemplate ps := by
  constructor
  · rintro ⟨readable, apart⟩
    obtain ⟨first, apart⟩ := List.isChain_cons.mp apart
    obtain ⟨here, readable⟩ := List.forall_mem_cons.mp readable
    exact ⟨here, fun literal q mem => first q mem literal, readable, apart⟩
  · rintro ⟨here, first, readable, apart⟩
    exact ⟨List.forall_mem_cons.mpr ⟨here, readable⟩,
      List.isChain_cons.mpr ⟨fun q mem literal => first literal q mem, apart⟩⟩

/-! ## The marks of what was written -/

/-- The marks of a part. -/
def Part.marks : Part → List Mark
  | literal text => text.map .char
  | placeholder expression => [.hole expression]

/-- A character that is no brace is read as it is. -/
theorem scan_cons_of_ne {c : Char} (left : c ≠ '\x7b') (right : c ≠ '\x7d') (cs : List Char) :
    scan none (c :: cs) = .char c :: scan none cs := by
  simp [scan, left, right]

/-- **A literal survives escaping**, whatever follows it. -/
theorem scan_escape (text rest : List Char) :
    scan none (escape text ++ rest) = text.map .char ++ scan none rest := by
  induction text with
  | nil => rfl
  | cons c text ih =>
    have split : escape (c :: text) ++ rest =
        (if c = '\x7b' ∨ c = '\x7d' then [c, c] else [c]) ++ (escape text ++ rest) := by
      simp [escape]
    rw [split, List.map_cons, List.cons_append, ← ih]
    by_cases left : c = '\x7b'
    · subst left
      rfl
    by_cases right : c = '\x7d'
    · subst right
      rfl
    rw [if_neg (not_or.mpr ⟨left, right⟩)]
    exact scan_cons_of_ne left right _

/-- Inside an expression everything is read up to the closing brace. -/
theorem scan_some_append {expression : List Char} (inside : '\x7d' ∉ expression) (read : List Char) :
    scan (some read) (expression ++ '\x7d' :: rest) =
      .hole (read.reverse ++ expression) :: scan none rest := by
  induction expression generalizing read with
  | nil => simp [scan]
  | cons c expression ih =>
    obtain ⟨here, inside⟩ := not_or.mp (List.mem_cons.not.mp inside)
    rw [List.cons_append, scan, if_neg (Ne.symm here), ih inside]
    simp

/-- An opening brace that is not doubled starts an expression, if some brace closes it. -/
theorem scan_cons_brace (single : cs.head? ≠ some '\x7b') (closed : '\x7d' ∈ cs) :
    scan none ('\x7b' :: cs) = scan (some []) cs := by
  rw [scan, if_pos rfl, if_pos closed]
  · rintro cs - rfl
    exact single rfl
  · rintro cs h
    exact absurd h (by decide)

theorem scan_placeholder {expression : List Char} (h : IsExpression expression)
    (rest : List Char) :
    scan none ('\x7b' :: expression ++ '\x7d' :: rest) = .hole expression :: scan none rest := by
  have single : (expression ++ '\x7d' :: rest).head? ≠ some '\x7b' := by
    cases expression with
    | nil => exact fun h => absurd (Option.some.inj h) (by decide)
    | cons c expression => exact h.2
  rw [List.cons_append, scan_cons_brace single (by simp), scan_some_append h.1]
  rfl

/-- **What was written has the marks of its parts.** -/
theorem scan_write (readable : ∀ p ∈ ps, p.IsReadable) :
    scan none (write ps) = ps.flatMap Part.marks := by
  induction ps with
  | nil => rfl
  | cons p ps ih =>
    obtain ⟨here, readable⟩ := List.forall_mem_cons.mp readable
    rw [write, List.flatMap_cons, List.flatMap_cons, ← ih readable]
    cases p with
    | literal text => exact scan_escape text (write ps)
    | placeholder expression =>
      rw [Part.write, List.append_assoc]
      exact scan_placeholder here (write ps)

/-! ## Joining the marks -/

theorem assemble_char_literal {c : Char} {text : List Char}
    (h : assemble ms = .literal text :: ps) :
    assemble (.char c :: ms) = .literal (c :: text) :: ps := by
  rw [assemble, h]

theorem assemble_char_other {c : Char} (h : ∀ q ∈ (assemble ms).head?, q.isLiteral = false) :
    assemble (.char c :: ms) = .literal [c] :: assemble ms := by
  rw [assemble]
  split
  · rename_i text parts same
    rw [same] at h
    exact absurd (h _ rfl) (by simp [Part.isLiteral])
  · rfl

/-- Characters in front of marks that begin with no character make one literal. -/
theorem assemble_text {text : List Char} (nonempty : text ≠ [])
    (h : ∀ q ∈ (assemble ms).head?, q.isLiteral = false) :
    assemble (text.map .char ++ ms) = .literal text :: assemble ms := by
  induction text with
  | nil => exact absurd rfl nonempty
  | cons c text ih =>
    rw [List.map_cons, List.cons_append]
    rcases eq_or_ne text [] with rfl | more
    · exact assemble_char_other h
    · exact assemble_char_literal (ih more)

/-- **The marks of the parts of a template are joined to these parts.** -/
theorem assemble_marks (h : IsTemplate ps) : assemble (ps.flatMap Part.marks) = ps := by
  induction ps with
  | nil => rfl
  | cons p ps ih =>
    obtain ⟨here, first, behind⟩ := isTemplate_cons_iff.mp h
    have same := ih behind
    rw [List.flatMap_cons]
    cases p with
    | literal text =>
      have first : ∀ q ∈ (assemble (ps.flatMap Part.marks)).head?, q.isLiteral = false := by
        rw [same]
        exact first rfl
      rw [Part.marks, assemble_text here first, same]
    | placeholder expression =>
      rw [Part.marks, List.singleton_append, assemble, same]

/-! ## What reading gives -/

/-- Whether a mark can be read from a template. -/
def Mark.IsReadable : Mark → Prop
  | char _ => True
  | hole expression => IsExpression expression

/-- An expression that was begun well ends well. -/
theorem isReadable_of_mem_scan (cs : List Char) (read : Option (List Char))
    (begun : ∀ r ∈ read, '\x7d' ∉ r ∧ (r.reverse ++ cs).head? ≠ some '\x7b') :
    ∀ m ∈ scan read cs, m.IsReadable := by
  fun_induction scan read cs with
  | case1 => simp
  | case2 r cs ih =>
    obtain ⟨inside, start⟩ := begun r rfl
    refine List.forall_mem_cons.mpr ⟨⟨by simpa using inside, fun h => start ?_⟩, ih (by simp)⟩
    rw [List.head?_append, h]
    rfl
  | case3 r c cs other ih =>
    obtain ⟨inside, start⟩ := begun r rfl
    refine ih fun r' same => ?_
    obtain rfl := Option.mem_some_iff.mp same
    refine ⟨List.not_mem_cons_of_ne_of_not_mem (Ne.symm other) inside, ?_⟩
    simpa using start
  | case4 cs ih => exact List.forall_mem_cons.mpr ⟨trivial, ih (by simp)⟩
  | case5 cs ih => exact List.forall_mem_cons.mpr ⟨trivial, ih (by simp)⟩
  | case6 cs closed single _ ih =>
    refine ih fun r same => ?_
    obtain rfl := Option.mem_some_iff.mp same
    refine ⟨List.not_mem_nil, fun h => ?_⟩
    obtain ⟨cs, rfl⟩ := List.head?_eq_some_iff.mp h
    exact single cs rfl rfl
  | case7 cs _ _ _ ih => exact ih (by simp)
  | case8 c cs _ _ _ ih => exact List.forall_mem_cons.mpr ⟨trivial, ih (by simp)⟩

theorem isTemplate_assemble (readable : ∀ m ∈ ms, m.IsReadable) :
    IsTemplate (assemble ms) := by
  induction ms with
  | nil => exact isTemplate_nil
  | cons m ms ih =>
    obtain ⟨here, readable⟩ := List.forall_mem_cons.mp readable
    have behind := ih readable
    cases m with
    | hole expression =>
      exact isTemplate_cons_iff.mpr ⟨here, nofun, behind⟩
    | char c =>
      cases joined : assemble ms with
      | nil =>
        rw [assemble_char_other (by simp [joined]), joined]
        exact isTemplate_cons_iff.mpr ⟨List.cons_ne_nil _ _, by simp, isTemplate_nil⟩
      | cons p parts =>
        rw [joined] at behind
        cases p with
        | literal text =>
          obtain ⟨-, first, behind⟩ := isTemplate_cons_iff.mp behind
          rw [assemble_char_literal joined]
          exact isTemplate_cons_iff.mpr ⟨List.cons_ne_nil _ _, first, behind⟩
        | placeholder expression =>
          have first : ∀ q ∈ (assemble ms).head?, q.isLiteral = false := by
            simp [joined, Part.isLiteral]
          rw [assemble_char_other first, joined]
          exact isTemplate_cons_iff.mpr
            ⟨List.cons_ne_nil _ _, fun _ => by simp [Part.isLiteral], behind⟩

/-- **Reading a text gives the parts of a template.** -/
theorem isTemplate_parts (s : String) : IsTemplate (parts s) :=
  isTemplate_assemble (isReadable_of_mem_scan s.toList none nofun)

/-- **Templates decode what escaping encodes**: a sequence of parts is read back
from the template made of it, if and only if no literal is empty, no two
literals are adjacent, and no expression has a closing brace or begins with an
opening one. -/
theorem parts_write_iff (ps : List Part) :
    parts (String.ofList (write ps)) = ps ↔ IsTemplate ps := by
  constructor
  · intro h
    rw [← h]
    exact isTemplate_parts _
  · intro h
    rw [parts, String.toList_ofList, scan_write h.readable, assemble_marks h]

/-- Three braces in a row are a brace of the text and the start of an expression, or
the end of one and a brace of the text. -/
example : parts "\x7b\x7b\x7bn\x7d\x7d\x7d" =
    [.literal ['\x7b'], .placeholder ['n'], .literal ['\x7d']] := by decide

end Template

end WatchView
