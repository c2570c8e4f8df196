import Mathlib.Data.List.TakeWhile
import WatchView.Proofs.Text
import WatchView.Text.Cursor
/-!
# Where a cursor stands

A cursor moves by taking characters off the rest and adding their bytes to the
offset, each operation in its own way. `Passes` is what they have in common: the
cursor is then behind some characters that came next. So a cursor that was moved from
the start of a text stands in the text (`StandsIn`): its offset is a boundary of
characters, and the rest has the bytes of the text from there on. The slice between
two such cursors is what was passed.

**Whatever is done with a cursor and its copies, all of them stand in the text; only
going back to a copy leads back, and reading by a property reads the longest part
that has it** (`stands_after`).
-/

namespace WatchView.Cursor

open Text

variable {text : String} {c c' c'' : Cursor} {p : Char → Bool} {front front' cs : List Char}

/-! ## Standing in a text -/

/-- **A cursor stands in a text**: its offset is a boundary of characters, and what is
still to be read has the bytes of the text from there on. -/
structure StandsIn (text : String) (c : Cursor) : Prop where
  source : c.source = text.toList
  boundary : String.Pos.Raw.IsValid text ⟨c.offset⟩
  rest : (String.ofList c.rest).toByteArray =
    text.toByteArray.extract c.offset text.utf8ByteSize

/-- `c'` is behind the characters `front`, which come next at `c`. -/
structure Passes (front : List Char) (c c' : Cursor) : Prop where
  source : c'.source = c.source
  rest : c.rest = front ++ c'.rest
  offset : c'.offset = c.offset + byteLength front

theorem Passes.refl (c : Cursor) : Passes [] c c := ⟨rfl, rfl, rfl⟩

theorem Passes.trans (h : Passes front c c') (h' : Passes front' c' c'') :
    Passes (front ++ front') c c'' where
  source := h'.source.trans h.source
  rest := by rw [h.rest, h'.rest, List.append_assoc]
  offset := by
    have := h.offset
    have := h'.offset
    rw [byteLength_append]
    omega

theorem Passes.offset_le (h : Passes front c c') : c.offset ≤ c'.offset := by
  have := h.offset
  omega

section Start

variable (passes : Passes front (ofString text) c)

include passes

theorem Passes.source_eq : c.source = front ++ c.rest := passes.source.trans passes.rest

theorem Passes.offset_eq : c.offset = byteLength front := by
  simpa [ofString] using passes.offset

/-- The text is what was passed and what is still to be read. -/
theorem Passes.text_eq : text = String.ofList front ++ String.ofList c.rest := by
  have whole : text.toList = front ++ c.rest := passes.rest
  rw [← String.ofList_append, ← whole, String.ofList_toList]

end Start

/-- **The cursors that stand in a text are those behind a part of it.** -/
theorem standsIn_iff : StandsIn text c ↔ ∃ front, Passes front (ofString text) c := by
  constructor
  · rintro ⟨source, boundary, rest⟩
    obtain ⟨s, z, rfl, offset⟩ := String.Pos.Raw.isValid_iff_exists_append.mp boundary
    have offset : c.offset = s.utf8ByteSize := congrArg String.Pos.Raw.byteIdx offset
    have behind : String.ofList c.rest = z := by
      rw [← String.toByteArray_inj, rest, String.toByteArray_append, offset]
      exact ByteArray.extract_append_eq_right rfl (String.utf8ByteSize_append ..)
    refine ⟨s.toList, source, ?_, ?_⟩
    · rw [← behind]
      simp [ofString]
    · simp [ofString, offset]
  · rintro ⟨front, passes⟩
    have split := passes.text_eq
    refine ⟨passes.source, ?_, ?_⟩
    · refine String.Pos.Raw.isValid_iff_exists_append.mpr ⟨_, _, split, ?_⟩
      rw [passes.offset_eq, ← utf8ByteSize_ofList]
      rfl
    · rw [passes.offset_eq, ← utf8ByteSize_ofList, split, String.utf8ByteSize_append,
        String.toByteArray_append]
      exact (ByteArray.extract_append_eq_right rfl rfl).symm

theorem standsIn_ofString (text : String) : StandsIn text (ofString text) :=
  standsIn_iff.mpr ⟨[], .refl _⟩

theorem StandsIn.passes (h : StandsIn text c) (passes : Passes front c c') :
    StandsIn text c' := by
  obtain ⟨before, h⟩ := standsIn_iff.mp h
  exact standsIn_iff.mpr ⟨before ++ front, h.trans passes⟩

/-- Of two cursors in a text, the one with the greater offset is behind the other. -/
theorem StandsIn.exists_passes (h : StandsIn text c) (h' : StandsIn text c')
    (le : c.offset ≤ c'.offset) : ∃ front, Passes front c c' := by
  obtain ⟨before, start⟩ := standsIn_iff.mp h
  obtain ⟨before', start'⟩ := standsIn_iff.mp h'
  have source : c'.source = c.source := start'.source.trans start.source.symm
  have offset := start.offset_eq
  have offset' := start'.offset_eq
  have same : before' ++ c'.rest = before ++ c.rest := start'.rest.symm.trans start.rest
  rcases List.append_eq_append_iff.mp same with ⟨more, rfl, rest⟩ | ⟨more, rfl, rest⟩
  · rw [byteLength_append] at offset
    have none : more = [] := byteLength_eq_zero_iff.mp (by omega)
    subst none
    refine ⟨[], source, rest.symm, ?_⟩
    simp only [byteLength] at offset ⊢
    omega
  · rw [byteLength_append] at offset'
    exact ⟨more, source, rest, by omega⟩

/-! ## Slices -/

/-- A text is cut behind the bytes of its front part. -/
theorem cutBytes?_append (front cs : List Char) :
    cutBytes? (front ++ cs) (byteLength front) = some (front, cs) := by
  induction front with
  | nil => simp [byteLength, cutBytes?]
  | cons c front ih =>
    have pos := c.utf8Size_pos
    obtain ⟨n, size⟩ : ∃ n, c.utf8Size + byteLength front = n + 1 :=
      ⟨c.utf8Size + byteLength front - 1, by omega⟩
    have behind : n + 1 - c.utf8Size = byteLength front := by omega
    rw [List.cons_append, byteLength, size, cutBytes?, if_pos (by omega), behind, ih,
      Option.map_some]

/-- **The slice between two cursors is what was passed from the one to the other.** -/
theorem StandsIn.sliceFrom?_eq (h : StandsIn text c) (passes : Passes front c c') :
    c'.sliceFrom? c.offset = some front := by
  obtain ⟨before, start⟩ := standsIn_iff.mp h
  have source : c'.source = before ++ (front ++ c'.rest) := by
    rw [passes.source, start.source_eq, passes.rest]
  have width : c'.offset - byteLength before = byteLength front := by
    have := passes.offset
    have := start.offset_eq
    omega
  rw [Cursor.sliceFrom?, if_pos passes.offset_le, source, start.offset_eq, cutBytes?_append]
  simp only [width, cutBytes?_append, Option.bind_eq_bind, Option.bind_some]

/-- It has the bytes of the text between the two offsets. -/
theorem StandsIn.bytes_passed (h : StandsIn text c) (passes : Passes front c c') :
    (String.ofList front).toByteArray = text.toByteArray.extract c.offset c'.offset := by
  obtain ⟨before, start⟩ := standsIn_iff.mp h
  have bytes : text.toByteArray = (String.ofList before).toByteArray ++
      ((String.ofList front).toByteArray ++ (String.ofList c'.rest).toByteArray) := by
    rw [start.text_eq, passes.rest, String.ofList_append, String.toByteArray_append,
      String.toByteArray_append]
  rw [passes.offset, start.offset_eq, bytes, ← utf8ByteSize_ofList, ← utf8ByteSize_ofList]
  calc (String.ofList front).toByteArray
      = ((String.ofList front).toByteArray ++ (String.ofList c'.rest).toByteArray).extract 0
          (String.ofList front).toByteArray.size := (ByteArray.extract_append_eq_left rfl).symm
    _ = _ := ByteArray.extract_append_size_add.symm

/-! ## Moves -/

theorem passes_advance (c : Cursor) : Passes c.advance.1.toList c c.advance.2 := by
  obtain ⟨source, rest, offset⟩ := c
  cases rest with
  | nil => exact .refl _
  | cons d ds => exact ⟨rfl, rfl, by simp [advance, byteLength]⟩

/-- What comes of reading `token` if it comes next and what follows allows it: the
token is read, or nothing happens. -/
structure Tries (token : List Char) (allows : List Char → Prop) (c : Cursor)
    (r : Bool × Cursor) : Prop where
  found : r.1 = true ↔ ∃ behind, c.rest = token ++ behind ∧ allows behind
  read : r.1 = true → Passes token c r.2
  kept : r.1 = false → r.2 = c

theorem Tries.exists_passes {token : List Char} {allows : List Char → Prop} {r : Bool × Cursor}
    (h : Tries token allows c r) : ∃ front, Passes front c r.2 := by
  cases read : r.1 with
  | false => exact ⟨[], h.kept read ▸ .refl c⟩
  | true => exact ⟨token, h.read read⟩

/-- A token that does not come next, or not as it is allowed to, is left alone. -/
theorem tries_missing {token : List Char} {allows : List Char → Prop}
    (missing : ¬ ∃ behind, c.rest = token ++ behind ∧ allows behind) :
    Tries token allows c (false, c) where
  found := iff_of_false Bool.false_ne_true missing
  read h := absurd h Bool.false_ne_true
  kept _ := rfl

theorem tries_missing_of_dropHead? {token : List Char} {allows : List Char → Prop}
    (missing : dropHead? token c.rest = none) : Tries token allows c (false, c) := by
  refine tries_missing ?_
  rintro ⟨behind, rest, -⟩
  rw [dropHead?_eq_some_iff.mpr rest] at missing
  cases missing

theorem tries_eat (c : Cursor) (d : Char) : Tries [d] (fun _ => True) c (c.eat d) := by
  have first : c.peek? = some d ↔ ∃ behind, c.rest = [d] ++ behind ∧ True := by
    simp [peek?, List.head?_eq_some_iff]
  unfold eat
  split
  · rename_i next
    obtain ⟨behind, rest, -⟩ := first.mp next
    have advanced : c.advance.1 = some d := by simp [advance, rest]
    have passes := passes_advance c
    rw [advanced] at passes
    exact ⟨iff_of_true rfl (first.mp next), fun _ => passes,
      fun failed => absurd failed.symm Bool.false_ne_true⟩
  · rename_i other
    exact tries_missing fun next => other (first.mpr next)

theorem tries_eatText (c : Cursor) (s : String) :
    Tries s.toList (fun _ => True) c (c.eatText s) := by
  unfold eatText
  cases found : dropHead? s.toList c.rest with
  | none => exact tries_missing_of_dropHead? found
  | some behind =>
    have rest := dropHead?_eq_some_iff.mp found
    exact ⟨iff_of_true rfl ⟨behind, rest, trivial⟩, fun _ => ⟨rfl, rest, by simp⟩,
      fun failed => absurd failed.symm Bool.false_ne_true⟩

/-- A word is read only if no identifier goes on after it. -/
theorem tries_eatKeyword (c : Cursor) (s : String) :
    Tries s.toList (fun behind => behind.head?.any isIdent = false) c (c.eatKeyword s) := by
  have text := tries_eatText c s
  unfold eatKeyword
  cases found : dropHead? s.toList c.rest with
  | none => exact tries_missing_of_dropHead? found
  | some behind =>
    have rest := dropHead?_eq_some_iff.mp found
    dsimp only
    split
    · rename_i goesOn
      refine tries_missing ?_
      rintro ⟨behind', rest', ends⟩
      rw [rest, List.append_cancel_left_eq] at rest'
      rw [rest', ends] at goesOn
      exact Bool.false_ne_true goesOn
    · rename_i ends
      have read := text.found.mpr ⟨behind, rest, trivial⟩
      exact ⟨iff_of_true read ⟨behind, rest, by simpa using ends⟩, text.read, text.kept⟩

/-- Reading on by a property passes what has it, up to the first character that has
it not. -/
theorem passes_advanceWhile (p : Char → Bool) (c : Cursor) :
    Passes (c.rest.takeWhile p) c (c.advanceWhile p) := by
  fun_induction advanceWhile p c with
  | case1 c next ih =>
    obtain ⟨source, rest, offset⟩ := c
    cases rest with
    | nil => simp [check, peek?] at next
    | cons d ds =>
      have has : p d = true := by simpa [check, peek?] using next
      have passes := (passes_advance ⟨source, d :: ds, offset⟩).trans ih
      rw [List.takeWhile_cons_of_pos has]
      exact passes
  | case2 c ends =>
    obtain ⟨source, rest, offset⟩ := c
    cases rest with
    | nil => exact .refl _
    | cons d ds =>
      have lacks : ¬ p d = true := by simpa [check, peek?] using ends
      rw [List.takeWhile_cons_of_neg lacks]
      exact .refl _

/-- What is read by a property is cut out of the text where it stands. -/
theorem StandsIn.fst_eatWhile (h : StandsIn text c) (p : Char → Bool) :
    (c.eatWhile p).1 = c.rest.takeWhile p := by
  rw [Cursor.eatWhile, h.sliceFrom?_eq (passes_advanceWhile p c), Option.getD_some]

/-- **The longest front part of a text with a property of characters.** -/
structure IsLongest (p : Char → Bool) (cs front : List Char) : Prop where
  isFront : front <+: cs
  all : ∀ c ∈ front, p c = true
  longest : ∀ other, other <+: cs → (∀ c ∈ other, p c = true) → other <+: front

theorem isLongest_takeWhile (p : Char → Bool) (cs : List Char) :
    IsLongest p cs (cs.takeWhile p) where
  isFront := List.takeWhile_prefix p
  all c mem := List.mem_takeWhile_imp mem
  longest := by
    rintro other ⟨behind, rfl⟩ all
    rw [List.takeWhile_append_of_pos all]
    exact List.prefix_append other _

/-! ## Any use of a cursor -/

/-- What moves a cursor. -/
inductive Move where
  | advance
  | eat (d : Char)
  | eatText (s : String)
  | eatKeyword (s : String)
  | eatWhile (p : Char → Bool)
  | skipBlanks

/-- The cursor once it was moved. -/
def Move.apply : Move → Cursor → Cursor
  | advance, c => c.advance.2
  | eat d, c => (c.eat d).2
  | eatText s, c => (c.eatText s).2
  | eatKeyword s, c => (c.eatKeyword s).2
  | eatWhile p, c => (c.eatWhile p).2
  | skipBlanks, c => c.skipBlanks

/-- What is done with a cursor: it is moved, it is saved, or it goes back to one of
the copies that were saved. -/
inductive Act where
  | move (m : Move)
  | save
  | restore (i : Nat)

/-- A cursor and its saved copies, the first one first. -/
structure Held where
  current : Cursor
  saved : List Cursor

/-- A cursor at the start of a text, with no copies. -/
def Held.ofString (text : String) : Held := ⟨.ofString text, []⟩

def Held.act (held : Held) : Act → Held
  | .move m => { held with current := m.apply held.current }
  | .save => { held with saved := held.saved ++ [held.current] }
  | .restore i => { held with current := held.saved[i]?.getD held.current }

/-- Every move passes something, be it nothing. -/
theorem Move.exists_passes (m : Move) (c : Cursor) : ∃ front, Passes front c (m.apply c) := by
  cases m with
  | advance => exact ⟨_, passes_advance c⟩
  | eat d => exact (tries_eat c d).exists_passes
  | eatText s => exact (tries_eatText c s).exists_passes
  | eatKeyword s => exact (tries_eatKeyword c s).exists_passes
  | eatWhile p => exact ⟨_, passes_advanceWhile p c⟩
  | skipBlanks => exact ⟨_, passes_advanceWhile isBlank c⟩

/-- The cursor and all its copies stand in a text. -/
structure Held.StandIn (text : String) (held : Held) : Prop where
  current : held.current.StandsIn text
  saved : ∀ c ∈ held.saved, c.StandsIn text

theorem Held.StandIn.act {held : Held} (h : held.StandIn text) (a : Act) :
    (held.act a).StandIn text := by
  cases a with
  | move m =>
    obtain ⟨front, passes⟩ := m.exists_passes held.current
    exact ⟨h.current.passes passes, h.saved⟩
  | save =>
    refine ⟨h.current, ?_⟩
    intro c mem
    rcases List.mem_append.mp mem with mem | mem
    · exact h.saved c mem
    · rw [List.mem_singleton.mp mem]
      exact h.current
  | restore i =>
    refine ⟨?_, h.saved⟩
    change (held.saved[i]?.getD held.current).StandsIn text
    cases copy : held.saved[i]? with
    | none => exact h.current
    | some c => exact h.saved c (List.mem_of_getElem? copy)

theorem Held.StandIn.acts {held : Held} (h : held.StandIn text) (acts : List Act) :
    (acts.foldl Held.act held).StandIn text := by
  induction acts generalizing held with
  | nil => exact h
  | cons a acts ih => exact ih (h.act a)

/-- Only going back to a copy leads back. -/
theorem Held.offset_le_act (held : Held) {a : Act} (onward : ∀ i, a ≠ .restore i) :
    held.current.offset ≤ (held.act a).current.offset := by
  cases a with
  | move m =>
    obtain ⟨front, passes⟩ := m.exists_passes held.current
    exact passes.offset_le
  | save => exact Nat.le_refl _
  | restore i => exact absurd rfl (onward i)

/-- **Whatever was done with a cursor and its copies, all of them stand in the text**,
and the slice from a copy in front of the cursor has the bytes in between. From there
on only going back to a copy leads back. A character, a text or a word is read if it
comes next, and else the cursor stays as it is. Reading by a property reads the longest
part of the rest that has it, and answers with the bytes of the text from where the
cursor was to where it is. -/
theorem stands_after (text : String) (acts : List Act) :
    let held := acts.foldl Held.act (.ofString text)
    let c := held.current
    c.StandsIn text ∧
      (∀ copy ∈ held.saved, copy.StandsIn text ∧ (copy.offset ≤ c.offset →
        ∃ slice, c.sliceFrom? copy.offset = some slice ∧ (String.ofList slice).toByteArray =
          text.toByteArray.extract copy.offset c.offset)) ∧
      (∀ a, (∀ i, a ≠ .restore i) → c.offset ≤ (held.act a).current.offset) ∧
      (∀ d, Tries [d] (fun _ => True) c (c.eat d)) ∧
      (∀ s : String, Tries s.toList (fun _ => True) c (c.eatText s)) ∧
      (∀ s : String, Tries s.toList (fun behind => behind.head?.any isIdent = false) c
        (c.eatKeyword s)) ∧
      ∀ p, IsLongest p c.rest (c.eatWhile p).1 ∧
        Passes (c.eatWhile p).1 c (c.eatWhile p).2 ∧
        (String.ofList (c.eatWhile p).1).toByteArray =
          text.toByteArray.extract c.offset (c.eatWhile p).2.offset := by
  intro held c
  have start : (Held.ofString text).StandIn text := ⟨standsIn_ofString text, nofun⟩
  have stand : held.StandIn text := start.acts acts
  -- a copy that was saved stands in the text too, and what is between the two was passed
  have slices (copy : Cursor) (saved : copy ∈ held.saved) (le : copy.offset ≤ c.offset) :
      ∃ slice, c.sliceFrom? copy.offset = some slice ∧ (String.ofList slice).toByteArray =
        text.toByteArray.extract copy.offset c.offset := by
    have h := stand.saved copy saved
    obtain ⟨slice, passes⟩ := h.exists_passes stand.current le
    exact ⟨slice, h.sliceFrom?_eq passes, h.bytes_passed passes⟩
  refine ⟨stand.current, fun copy saved => ⟨stand.saved copy saved, slices copy saved⟩,
    fun a onward => held.offset_le_act onward,
    tries_eat c, tries_eatText c, tries_eatKeyword c, fun p => ?_⟩
  have taken : (c.eatWhile p).1 = c.rest.takeWhile p := stand.current.fst_eatWhile p
  have passes : Passes (c.eatWhile p).1 c (c.eatWhile p).2 := by
    rw [taken]
    exact passes_advanceWhile p c
  refine ⟨?_, passes, stand.current.bytes_passed passes⟩
  rw [taken]
  exact isLongest_takeWhile p c.rest

/-- Offsets count bytes: two letters of two and three bytes, and the word behind a
copy that was taken between them. -/
example :
    let held := [Act.move .advance, .save, .move .advance, .move (.eatKeyword "in"), .restore 0,
      .move (.eat '∈')].foldl Held.act (.ofString "é∈in")
    held.current.offset = 5 ∧ held.current.rest = ['i', 'n'] ∧
      held.saved.map Cursor.offset = [2] := by decide

end WatchView.Cursor
