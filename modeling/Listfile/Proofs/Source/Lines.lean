import Mathlib.Data.List.DropRight
import Mathlib.Data.List.Perm.Subperm
import Listfile.Proofs.Token.Lexemes
import Listfile.Source.LineIndex
/-! # Lines and columns of a text

The position of an offset between two characters depends on the text before it alone: its line is the number of line
feeds there, and its column is the number of bytes after the last one, both counted from one.
-/
namespace Listfile
set_option autoImplicit false

/-- The characters of a text after its last line feed. -/
def lastLine (cs : List Char) : List Char := cs.rtakeWhile (· ≠ '\n')

def Position.after (cs : List Char) : Position :=
  ⟨cs.count '\n' + 1, (String.ofList (lastLine cs)).utf8ByteSize + 1⟩

/-- Whether an offset is between two characters of a source, or at one of its ends. -/
def Boundary (source : String) (offset : Nat) : Prop :=
  ∃ before after, source = before ++ after ∧ before.utf8ByteSize = offset

theorem Span.Spells.boundary_start {span : Span} {source text : String} (h : span.Spells source text) :
    Boundary source span.start := by
  obtain ⟨before, after, rfl, rfl⟩ := h
  exact ⟨before, text ++ after, String.append_assoc, rfl⟩

theorem Span.Spells.boundary_stop {span : Span} {source text : String} (h : span.Spells source text) :
    Boundary source span.stop := by
  obtain ⟨before, after, rfl, rfl⟩ := h
  exact ⟨before ++ text, after, rfl, String.utf8ByteSize_append⟩

theorem Boundary.min {source : String} {a b : Nat} (ha : Boundary source a) (hb : Boundary source b) :
    Boundary source (min a b) := by
  rcases Nat.le_total a b with hLe | hLe
  · rwa [Nat.min_eq_left hLe]
  · rwa [Nat.min_eq_right hLe]

/-! ## Where lines start -/

theorem lineStartsFrom_append (offset : Nat) (cs ds : List Char) :
    lineStartsFrom offset (cs ++ ds) =
      lineStartsFrom offset cs ++ lineStartsFrom (offset + (String.ofList cs).utf8ByteSize) ds := by
  induction cs generalizing offset with
  | nil => rfl
  | cons c cs ih =>
    rw [List.cons_append, lineStartsFrom, lineStartsFrom, ih, byteSize_cons, Nat.add_assoc]
    split <;> rfl

theorem length_lineStartsFrom_eq (offset : Nat) (cs : List Char) :
    (lineStartsFrom offset cs).length = cs.count '\n' := by
  induction cs generalizing offset with
  | nil => rfl
  | cons c cs ih =>
    rw [lineStartsFrom, List.count_cons]
    split <;> simp_all

theorem le_of_mem_lineStartsFrom {offset start : Nat} {cs : List Char} (h : start ∈ lineStartsFrom offset cs) :
    start ≤ offset + (String.ofList cs).utf8ByteSize := by
  induction cs generalizing offset with
  | nil => cases h
  | cons c cs ih =>
    rw [byteSize_cons]
    rw [lineStartsFrom] at h
    split at h
    · rcases List.mem_cons.mp h with rfl | h
      · omega
      · have hLe := ih h
        omega
    · have hLe := ih h
      omega

theorem lastLine_append (cs ds : List Char) : lastLine (cs ++ '\n' :: ds) = lastLine ds := by
  induction ds using List.reverseRecOn with
  | nil => rw [lastLine, List.rtakeWhile_concat_neg _ _ _ (by simp)]; rfl
  | append_singleton ds d ih =>
    rw [lastLine, lastLine, ← List.cons_append, ← List.append_assoc, List.rtakeWhile_concat, List.rtakeWhile_concat]
    split
    · rw [← lastLine, ih, lastLine]
    · rfl

theorem lastLine_append_of_notMem (cs : List Char) {ds : List Char} (h : '\n' ∉ ds) :
    lastLine (cs ++ ds) = lastLine cs ++ ds := by
  have hReverse : ∀ d ∈ ds.reverse, d ≠ '\n' := by
    rintro d hd rfl
    exact h (List.mem_reverse.mp hd)
  rw [lastLine, List.rtakeWhile, List.reverse_append, List.takeWhile_append_of_pos (by simpa using hReverse),
    List.reverse_append, List.reverse_reverse]
  rfl

theorem byteSize_concat (cs : List Char) (c : Char) :
    (String.ofList (cs ++ [c])).utf8ByteSize = (String.ofList cs).utf8ByteSize + c.utf8Size := by
  rw [String.ofList_append, String.utf8ByteSize_append, ← String.singleton_eq_ofList, String.utf8ByteSize_singleton]

namespace Position

variable (cs : List Char) {ds : List Char}

theorem line_after_append (ds : List Char) : (after (cs ++ ds)).line + 1 = (after cs).line + (after ds).line := by
  simp only [after, List.count_append]
  omega

theorem column_after_of_mem (h : '\n' ∈ ds) : (after (cs ++ ds)).column = (after ds).column := by
  obtain ⟨front, back, rfl⟩ := List.append_of_mem h
  simp only [after]
  rw [← List.append_assoc, lastLine_append, lastLine_append]

theorem column_after_of_notMem (h : '\n' ∉ ds) :
    (after (cs ++ ds)).column + 1 = (after cs).column + (after ds).column := by
  have hLine : lastLine ds = ds := lastLine_append_of_notMem [] h
  simp only [after]
  rw [lastLine_append_of_notMem cs h, hLine, String.ofList_append, String.utf8ByteSize_append]
  omega

end Position

/-- The last line of a text starts as many bytes before its end as there are after the last line feed. -/
theorem getLast?_lineStartsFrom (cs : List Char) :
    ∃ start, (0 :: lineStartsFrom 0 cs).getLast? = some start ∧
      start + (String.ofList (lastLine cs)).utf8ByteSize = (String.ofList cs).utf8ByteSize := by
  induction cs using List.reverseRecOn with
  | nil => exact ⟨0, rfl, rfl⟩
  | append_singleton cs c ih =>
    obtain ⟨start, hLast, hSize⟩ := ih
    rw [lineStartsFrom_append, byteSize_concat, lastLine, List.rtakeWhile_concat, ← lastLine, Nat.zero_add]
    by_cases hLine : c = '\n'
    · refine ⟨(String.ofList cs).utf8ByteSize + c.utf8Size, ?_, ?_⟩
      · rw [lineStartsFrom, if_pos hLine, lineStartsFrom, ← List.cons_append, List.getLast?_concat]
      · rw [if_neg (by simp [hLine])]
        rfl
    · refine ⟨start, ?_, ?_⟩
      · rw [lineStartsFrom, if_neg hLine, lineStartsFrom, List.append_nil, hLast]
      · rw [if_pos (by simp [hLine]), byteSize_concat, ← hSize, Nat.add_assoc]

/-! ## Bisection -/

namespace LineIndex

/-- Bisection counts the entries at most as large as an offset, if these come first. -/
theorem bisect_eq {starts : Array Nat} {offset : Nat} {front back : List Nat} (hStarts : starts.toList = front ++ back)
    (hFront : ∀ start ∈ front, start ≤ offset) (hBack : ∀ start ∈ back, offset < start) (lo hi : Nat)
    (hSize : hi ≤ starts.size) (hLo : lo ≤ front.length) (hHi : front.length ≤ hi) :
    bisect starts offset lo hi hSize = front.length := by
  have hEntry (i : Nat) (h : i < starts.size) : starts[i] ≤ offset ↔ i < front.length := by
    have hGet : (front ++ back)[i]? = some starts[i] := by
      rw [← hStarts, Array.getElem?_toList, Array.getElem?_eq_getElem h]
    rcases Nat.lt_or_ge i front.length with hLt | hGe
    · rw [List.getElem?_append_left hLt] at hGet
      exact iff_of_true (hFront _ (List.mem_of_getElem? hGet)) hLt
    · rw [List.getElem?_append_right hGe] at hGet
      have hAfter := hBack _ (List.mem_of_getElem? hGet)
      omega
  fun_induction bisect starts offset lo hi hSize with
  | case1 lo hi hSize hActive hLe ih => exact ih ((hEntry _ _).mp hLe) hHi
  | case2 lo hi hSize hActive hLe ih =>
    apply ih hLo
    have hNot := mt (hEntry _ _).mpr hLe
    omega
  | case3 lo hi hSize hActive => omega

/-- An ascending list splits at any offset. -/
theorem exists_split {starts : List Nat} (h : starts.Pairwise (· < ·)) (offset : Nat) :
    ∃ front back, starts = front ++ back ∧ (∀ start ∈ front, start < offset) ∧ ∀ start ∈ back, offset ≤ start := by
  induction starts with
  | nil => exact ⟨[], [], rfl, List.forall_mem_nil _, List.forall_mem_nil _⟩
  | cons first rest ih =>
    obtain ⟨hFirst, hRest⟩ := List.pairwise_cons.mp h
    rcases Nat.lt_or_ge first offset with hLt | hGe
    · obtain ⟨front, back, rfl, hFront, hBack⟩ := ih hRest
      exact ⟨first :: front, back, rfl, List.forall_mem_cons.mpr ⟨hLt, hFront⟩, hBack⟩
    · refine ⟨[], first :: rest, rfl, List.forall_mem_nil _, List.forall_mem_cons.mpr ⟨hGe, fun start hStart => ?_⟩⟩
      exact Nat.le_trans hGe (Nat.le_of_lt (hFirst start hStart))

/-- The line of an offset is the last one that does not start after it. The first line starts at zero, so that there
is one. -/
theorem exists_line (lines : LineIndex) (offset : Nat) : ∃ before start after,
    lines.starts.toList = before ++ start :: after ∧ (∀ other ∈ before, other < start) ∧ start ≤ offset ∧
      (∀ other ∈ after, offset < other) ∧ lines.position offset = ⟨before.length + 1, offset - start + 1⟩ := by
  obtain ⟨upTo, after, hStarts, hUpTo, hAfter⟩ := exists_split lines.starts_ascending (offset + 1)
  rcases List.eq_nil_or_concat' upTo with rfl | ⟨before, start, rfl⟩
  · have hFirst : lines.starts.toList[0]? = some 0 := by
      rw [Array.getElem?_toList]
      exact lines.starts_first
    rw [hStarts] at hFirst
    have hLe := hAfter 0 (List.mem_of_getElem? hFirst)
    omega
  have hAscending := lines.starts_ascending
  rw [hStarts, List.pairwise_append, List.pairwise_append] at hAscending
  have hBefore : ∀ other ∈ before, other < start := fun other hOther =>
    hAscending.1.2.2 other hOther start List.mem_cons_self
  have hStart : start ≤ offset := Nat.le_of_lt_succ (hUpTo start (List.mem_append_right _ List.mem_cons_self))
  have hSize : lines.starts.size = (before ++ [start]).length + after.length := by
    rw [← Array.length_toList, hStarts, List.length_append]
  have hBisect := bisect_eq hStarts (fun other hOther => Nat.le_of_lt_succ (hUpTo other hOther)) hAfter 0
    lines.starts.size (Nat.le_refl _) (Nat.zero_le _) (by omega)
  rw [← List.append_cons] at hStarts
  have hGet : lines.starts.toList[before.length]? = some start := by
    rw [hStarts, List.getElem?_append_right (Nat.le_refl _), Nat.sub_self]
    rfl
  refine ⟨before, start, after, hStarts, hBefore, hStart, hAfter, ?_⟩
  rw [position, hBisect, List.length_append, List.length_singleton, Nat.add_sub_cancel, Array.getD_eq_getD_getElem?,
    ← Array.getElem?_toList, hGet]
  rfl

/-- Neither number exceeds the offset by more than one: the lines before start at different offsets, all of them below. -/
theorem position_le (lines : LineIndex) (offset : Nat) :
    (lines.position offset).line ≤ offset + 1 ∧ (lines.position offset).column ≤ offset + 1 := by
  obtain ⟨before, start, after, hStarts, hBefore, hStart, -, hPosition⟩ := lines.exists_line offset
  have hAscending := lines.starts_ascending
  rw [hStarts] at hAscending
  have hNodup : before.Nodup := (List.pairwise_append.mp hAscending).1.imp Nat.ne_of_lt
  have hRange : before ⊆ List.range start := fun other hOther => List.mem_range.mpr (hBefore other hOther)
  have hLength := (List.subperm_of_subset hNodup hRange).length_le
  rw [List.length_range] at hLength
  rw [hPosition]
  constructor
  · show before.length + 1 ≤ offset + 1
    omega
  · show offset - start + 1 ≤ offset + 1
    omega

theorem toList_starts (source : String) : (ofSource source).starts.toList = 0 :: lineStartsFrom 0 source.toList := rfl

/-- The position of an offset is that after the text before it. -/
theorem position_eq (before after : String) :
    (ofSource (before ++ after)).position before.utf8ByteSize = .after before.toList := by
  have hSize : (String.ofList before.toList).utf8ByteSize = before.utf8ByteSize := by rw [String.ofList_toList]
  let front := 0 :: lineStartsFrom 0 before.toList
  have hStarts : (ofSource (before ++ after)).starts.toList =
      front ++ lineStartsFrom before.utf8ByteSize after.toList := by
    rw [toList_starts, String.toList_append, lineStartsFrom_append, Nat.zero_add, hSize]
    rfl
  have hFront : ∀ start ∈ front, start ≤ before.utf8ByteSize := by
    intro start hStart
    rcases List.mem_cons.mp hStart with rfl | hStart
    · exact Nat.zero_le _
    · have hLe := le_of_mem_lineStartsFrom hStart
      rwa [Nat.zero_add, hSize] at hLe
  have hBisect := bisect_eq hStarts hFront (fun _ hStart => lt_of_mem_lineStartsFrom hStart) 0
    (ofSource (before ++ after)).starts.size (Nat.le_refl _) (Nat.zero_le _)
    (by rw [← Array.length_toList, hStarts, List.length_append]; omega)
  have hCount : front.length = before.toList.count '\n' + 1 := by
    rw [List.length_cons, length_lineStartsFrom_eq]
  obtain ⟨start, hLast, hStart⟩ := getLast?_lineStartsFrom before.toList
  have hGet : (ofSource (before ++ after)).starts.getD (front.length - 1) 0 = start := by
    rw [Array.getD_eq_getD_getElem?, ← Array.getElem?_toList, hStarts, List.getElem?_append_left (by simp [front]),
      ← List.getLast?_eq_getElem?, hLast]
    rfl
  rw [hCount] at hBisect hGet
  rw [hSize] at hStart
  simp only [position, hBisect, hGet, Position.after]
  congr 1
  omega

end LineIndex
end Listfile
