import Listfile.Proofs.Grammar.Descent.Words
/-! # Positions by the bytes of a text

The position of an offset, be it within a character or past the end of the text, counts bytes: its line is the number of
line feeds below the offset, and its column is the distance from the byte after the last of them, both counted from one.
So an offset can be found again from its position, and positions are in the order of offsets.
-/
namespace Listfile
set_option autoImplicit false

/-- The bytes of a text, in UTF-8. -/
def bytes (source : String) : List UInt8 := source.toUTF8.data.toList

def lineFeed : UInt8 := 0x0A

/-- Whether the line of an offset starts at a place: at the first byte or after a line feed, with no line feed from there
up to the offset. -/
structure StartsLine (bytes : List UInt8) (offset start : Nat) : Prop where
  le : start ≤ offset
  first_or_after : start = 0 ∨ ∃ index, bytes[index]? = some lineFeed ∧ start = index + 1
  none_between : ∀ index, start ≤ index → index < offset → bytes[index]? ≠ some lineFeed

/-- By lines, and by columns on one line. -/
def Position.Precedes (a b : Position) : Prop := a.line < b.line ∨ a.line = b.line ∧ a.column < b.column

theorem Position.Precedes.ne {a b : Position} (h : a.Precedes b) : a ≠ b := by
  rintro rfl
  rcases h with h | ⟨-, h⟩ <;> exact Nat.lt_irrefl _ h

/-! ## Line feeds among bytes -/

theorem bytes_eq (source : String) : bytes source = source.toList.flatMap String.utf8EncodeChar := by
  rw [bytes, String.toUTF8_eq_toByteArray, ← String.utf8Encode_toList, List.utf8Encode, List.toList_data_toByteArray]

theorem ofNat_eq_lineFeed_iff {n : Nat} (h : n < 256) : UInt8.ofNat n = lineFeed ↔ n = 10 := by
  rw [← UInt8.toNat_inj, UInt8.toNat_ofNat_of_lt' h]
  rfl

theorem lineFeed_mem_utf8EncodeChar_iff {c : Char} : lineFeed ∈ String.utf8EncodeChar c ↔ c = '\n' := by
  constructor
  · have hLarge {n : Nat} (hLow : 128 ≤ n) (hHigh : n < 256) : lineFeed ≠ UInt8.ofNat n := by
      intro hEq
      have := (ofNat_eq_lineFeed_iff hHigh).mp hEq.symm
      omega
    fun_cases String.utf8EncodeChar c with
    | case1 v hAscii =>
      intro h
      have hValue : v = 10 := (ofNat_eq_lineFeed_iff (by omega)).mp (List.mem_singleton.mp h).symm
      exact Char.ext (UInt32.toNat_inj.mp hValue)
    | case2 | case3 | case4 =>
      -- All bytes of a character beyond ASCII are too large.
      rw [imp_iff_not_or]
      left
      simp only [List.mem_cons, List.not_mem_nil, or_false, not_or]
      and_intros <;> exact hLarge (by omega) (by omega)
  · rintro rfl
    decide

theorem findIdxs_utf8EncodeChar (c : Char) (first : Nat) :
    (String.utf8EncodeChar c).findIdxs (· == lineFeed) first = if c = '\n' then [first] else [] := by
  split
  · rename_i hLine
    rw [hLine]
    rfl
  · rename_i hLine
    rw [List.findIdxs_eq_nil_iff]
    intro byte hByte
    rw [beq_eq_false_iff_ne]
    rintro rfl
    exact hLine (lineFeed_mem_utf8EncodeChar_iff.mp hByte)

theorem lineStartsFrom_eq (offset : Nat) (cs : List Char) :
    lineStartsFrom offset cs = (cs.flatMap String.utf8EncodeChar).findIdxs (· == lineFeed) (offset + 1) := by
  induction cs generalizing offset with
  | nil => rfl
  | cons c cs ih =>
    rw [lineStartsFrom, ih, List.flatMap_cons, List.findIdxs_append, findIdxs_utf8EncodeChar,
      String.length_utf8EncodeChar, Nat.add_right_comm offset 1]
    split
    · rename_i hLine
      rw [hLine]
      rfl
    · rfl

namespace LineIndex

theorem toList_starts_eq (source : String) :
    (ofSource source).starts.toList = 0 :: (bytes source).findIdxs (· == lineFeed) 1 := by
  rw [toList_starts, lineStartsFrom_eq, bytes_eq]

theorem mem_starts_iff {source : String} {start : Nat} : start ∈ (ofSource source).starts.toList ↔
    start = 0 ∨ ∃ index, (bytes source)[index]? = some lineFeed ∧ start = index + 1 := by
  rw [toList_starts_eq, List.mem_cons, List.mem_findIdxs_iff_getElem_sub_pos]
  apply or_congr_right
  constructor
  · rintro ⟨hPos, hLt, hFeed⟩
    exact ⟨start - 1, List.getElem?_eq_some_iff.mpr ⟨hLt, beq_iff_eq.mp hFeed⟩, by omega⟩
  · rintro ⟨index, hFeed, rfl⟩
    obtain ⟨hLt, hFeed⟩ := List.getElem?_eq_some_iff.mp hFeed
    exact ⟨Nat.le_add_left 1 index, hLt, beq_iff_eq.mpr hFeed⟩

/-- Up to an offset start the first line and one for each line feed below. -/
theorem countP_starts (source : String) (offset : Nat) :
    (ofSource source).starts.toList.countP (· ≤ offset) = ((bytes source).take offset).count lineFeed + 1 := by
  have hLength : ((bytes source).take offset).length = min offset (bytes source).length := List.length_take
  have hFront : ∀ start ∈ ((bytes source).take offset).findIdxs (· == lineFeed) 1, start ≤ offset := by
    intro start hStart
    have hLt := List.lt_add_of_mem_findIdxs start hStart
    omega
  have hBack : ∀ start ∈ ((bytes source).drop offset).findIdxs (· == lineFeed)
      (1 + ((bytes source).take offset).length), ¬start ≤ offset := by
    intro start hStart
    -- There is a byte from the offset on, so that as many as it says are below.
    obtain ⟨hLe, hLt, -⟩ := List.mem_findIdxs_iff_getElem_sub_pos.mp hStart
    rw [List.length_drop] at hLt
    omega
  have hSplit := List.take_append_drop offset (bytes source)
  rw [toList_starts_eq, ← hSplit, List.findIdxs_append, hSplit, List.countP_cons_of_pos (by simp), List.countP_append,
    List.countP_eq_length.mpr (by simpa using hFront), List.countP_eq_zero.mpr (by simpa using hBack),
    List.length_findIdxs]
  rfl

/-! ## Positions and offsets -/

section positions

variable (lines : LineIndex) (offset : Nat)

theorem line_position : (lines.position offset).line = lines.starts.toList.countP (· ≤ offset) := by
  obtain ⟨before, start, after, hStarts, hBefore, hStart, hAfter, hPosition⟩ := lines.exists_line offset
  have hUpTo : before.countP (· ≤ offset) = before.length := by
    rw [List.countP_eq_length]
    intro other hOther
    exact decide_eq_true (Nat.le_trans (Nat.le_of_lt (hBefore other hOther)) hStart)
  have hBeyond : after.countP (· ≤ offset) = 0 := by
    rw [List.countP_eq_zero]
    intro other hOther
    simpa using hAfter other hOther
  rw [hPosition, hStarts, List.countP_append, List.countP_cons_of_pos (by simpa using hStart), hUpTo, hBeyond]

/-- From its position an offset can be found again. -/
theorem exists_start : ∃ start, lines.starts[(lines.position offset).line - 1]? = some start ∧
    (∀ other ∈ lines.starts.toList, other ≤ offset → other ≤ start) ∧
      1 ≤ (lines.position offset).column ∧ start + ((lines.position offset).column - 1) = offset := by
  obtain ⟨before, start, after, hStarts, hBefore, hStart, hAfter, hPosition⟩ := lines.exists_line offset
  rw [hPosition, ← Array.getElem?_toList, hStarts]
  refine ⟨start, ?_, ?_, Nat.le_add_left _ _, ?_⟩
  · rw [Nat.add_sub_cancel, List.getElem?_append_right (Nat.le_refl _), Nat.sub_self]
    rfl
  · intro other hOther hLe
    rcases List.mem_append.mp hOther with hOther | hOther
    · exact Nat.le_of_lt (hBefore other hOther)
    · rcases List.mem_cons.mp hOther with rfl | hOther
      · exact Nat.le_refl _
      · have hLt := hAfter other hOther
        omega
  · rw [Nat.add_sub_cancel, Nat.add_sub_of_le hStart]

theorem position_precedes {offset later : Nat} (h : offset < later) :
    (lines.position offset).Precedes (lines.position later) := by
  have hLine : (lines.position offset).line ≤ (lines.position later).line := by
    rw [line_position, line_position]
    apply List.countP_mono_left
    intro start _ hLe
    exact decide_eq_true (Nat.le_trans (of_decide_eq_true hLe) (Nat.le_of_lt h))
  rcases Nat.lt_or_eq_of_le hLine with hLt | hEq
  · exact .inl hLt
  · -- Columns count from the same start.
    obtain ⟨start, hGet, -, -, hOffset⟩ := lines.exists_start offset
    obtain ⟨start', hGet', -, -, hLater⟩ := lines.exists_start later
    rw [hEq, hGet', Option.some.injEq] at hGet
    exact .inr ⟨hEq, by omega⟩

theorem position_injective {a b : Nat} (h : lines.position a = lines.position b) : a = b := by
  rcases Nat.lt_trichotomy a b with hLt | hEq | hGt
  · exact absurd h (lines.position_precedes hLt).ne
  · exact hEq
  · exact absurd h.symm (lines.position_precedes hGt).ne

end positions

theorem startsLine_of_last {source : String} {offset start : Nat} (hMem : start ∈ (ofSource source).starts.toList)
    (hLe : start ≤ offset) (hLast : ∀ other ∈ (ofSource source).starts.toList, other ≤ offset → other ≤ start) :
    StartsLine (bytes source) offset start where
  le := hLe
  first_or_after := mem_starts_iff.mp hMem
  none_between := by
    intro index hStart hOffset hFeed
    have hNext := hLast (index + 1) (mem_starts_iff.mpr (.inr ⟨index, hFeed, rfl⟩)) hOffset
    omega

end LineIndex

/-! ## Searching for a line -/

namespace Descent

/-- What a search may answer: where an equal element is, or else where the offset would have to be put to keep the order. -/
inductive Located (starts : List Nat) (offset : Nat) : Nat ⊕ Nat → Prop
  | found {index : Nat} (h : starts[index]? = some offset) : Located starts offset (.inl index)
  | absent {front back : List Nat} (hStarts : starts = front ++ back) (hFront : ∀ start ∈ front, start < offset)
    (hBack : ∀ start ∈ back, offset < start) : Located starts offset (.inr front.length)

theorem located_search {starts : List Nat} (h : starts.Pairwise (· < ·)) (offset : Nat) :
    Located starts offset (search starts offset) := by
  obtain ⟨front, back, rfl, hFront, hBack⟩ := LineIndex.exists_split h offset
  rw [search_append hFront hBack]
  split
  · rename_i hHead
    apply Located.found
    rw [List.getElem?_append_right (Nat.le_refl _), Nat.sub_self, ← List.head?_eq_getElem?, hHead]
  · rename_i hHead
    refine .absent rfl hFront ?_
    cases back with
    | nil => exact List.forall_mem_nil _
    | cons first rest =>
      obtain ⟨hFirst, -⟩ := List.pairwise_cons.mp (List.pairwise_append.mp h).2.1
      have hLt : offset < first := by
        apply Nat.lt_of_le_of_ne (hBack first List.mem_cons_self)
        rintro rfl
        exact hHead rfl
      exact List.forall_mem_cons.mpr ⟨hLt, fun start hStart => Nat.lt_trans hLt (hFirst start hStart)⟩

/-- On an ascending list no search has a choice. -/
theorem located_iff {starts : List Nat} (h : starts.Pairwise (· < ·)) {offset : Nat} {answer : Nat ⊕ Nat} :
    Located starts offset answer ↔ answer = search starts offset := by
  constructor
  · intro hLocated
    cases hLocated with
    | @found index hFound =>
      obtain ⟨hIndex, hGet⟩ := List.getElem?_eq_some_iff.mp hFound
      have hStarts : starts = starts.take index ++ offset :: starts.drop (index + 1) := by
        rw [← hGet, List.getElem_cons_drop, List.take_append_drop]
      rw [hStarts] at h
      obtain ⟨-, hFrom, hUpTo⟩ := List.pairwise_append.mp h
      have hFront : ∀ start ∈ starts.take index, start < offset :=
        fun start hStart => hUpTo start hStart offset List.mem_cons_self
      have hBack : ∀ start ∈ offset :: starts.drop (index + 1), offset ≤ start :=
        List.forall_mem_cons.mpr
          ⟨Nat.le_refl _, fun start hStart => Nat.le_of_lt ((List.pairwise_cons.mp hFrom).1 start hStart)⟩
      rw [hStarts, search_append hFront hBack, List.head?_cons, if_pos rfl,
        List.length_take_of_le (Nat.le_of_lt hIndex)]
    | @absent front back hStarts hFront hBack =>
      rw [hStarts, search_append hFront fun start hStart => Nat.le_of_lt (hBack start hStart), if_neg]
      intro hHead
      exact Nat.lt_irrefl _ (hBack offset (List.mem_of_head? hHead))
  · rintro rfl
    exact located_search h offset

end Descent

namespace LineIndex

/-- Positions are exact at every offset, also within a character or past the end of the text. No step on the way to one
can fail, and every search that finds what it should finds the same line. The line counts the line feeds below the
offset, and the column the bytes from the one after the last of them, where the line starts in the index too. Neither
exceeds the offset by more than one. A position belongs to one offset, and positions are in the order of offsets. -/
theorem position_is_exact (source : String) (offset : Nat) :
    let lines := ofSource source
    let position := lines.position offset
    (Descent.position lines offset = .ok position ∧
      ∀ answer, Descent.Located lines.starts.toList offset answer ↔ answer = Descent.search lines.starts.toList offset) ∧
    position.line = ((bytes source).take offset).count lineFeed + 1 ∧
    (∃ start, StartsLine (bytes source) offset start ∧ lines.starts[position.line - 1]? = some start ∧
      1 ≤ position.column ∧ start + (position.column - 1) = offset) ∧
    (position.line ≤ offset + 1 ∧ position.column ≤ offset + 1) ∧
    (∀ other, lines.position other = position → other = offset) ∧
    ∀ later, offset < later → position.Precedes (lines.position later) := by
  intro lines position
  have hLine : position.line = ((bytes source).take offset).count lineFeed + 1 :=
    (lines.line_position offset).trans (countP_starts source offset)
  obtain ⟨start, hGet, hLast, hPos, hColumn⟩ := lines.exists_start offset
  have hOffset : start + (position.column - 1) = offset := hColumn
  have hMem : start ∈ lines.starts.toList := Array.mem_toList_iff.mpr (Array.mem_of_getElem? hGet)
  refine ⟨⟨Descent.position_eq lines offset, fun answer => Descent.located_iff lines.starts_ascending⟩, hLine,
    ⟨start, startsLine_of_last hMem (by omega) hLast, hGet, hPos, hOffset⟩, lines.position_le offset, ?_, ?_⟩
  · intro other hOther
    exact lines.position_injective hOther
  · intro later hLater
    exact lines.position_precedes hLater

/-- The two bytes of a character, which lie on one line, and an offset past the end, two lines further on. -/
theorem position_is_exact_of_wide :
    let lines := ofSource "é\n\nx"
    (lines.position 0).Precedes (lines.position 1) ∧ (lines.position 1).line = 1 ∧ (lines.position 9).line = 3 ∧
      lines.position 1 ≠ lines.position 9 := by
  intro lines
  obtain ⟨-, hInside, -, -, hUnique, -⟩ := position_is_exact "é\n\nx" 1
  obtain ⟨-, hBeyond, -⟩ := position_is_exact "é\n\nx" 9
  obtain ⟨-, -, -, -, -, hOrder⟩ := position_is_exact "é\n\nx" 0
  refine ⟨hOrder 1 (by decide), hInside.trans (by decide), hBeyond.trans (by decide), fun hEq => ?_⟩
  exact absurd (hUnique 9 hEq.symm) (by decide)

end LineIndex

end Listfile
