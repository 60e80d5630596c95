import Listfile.Source.Span
/-! # Lines and columns

A line index holds the byte offset at which each line of a text starts; only a line feed ends a line.
The position of an offset is found by bisection: its line is the last one that starts at or before it,
and its column counts bytes from there. Both are counted from one, and offsets past the end are allowed.
-/
namespace Listfile
set_option autoImplicit false

/-- A line and a column, both counted from one; columns count bytes. -/
structure Position where
  line : Nat
  column : Nat
deriving DecidableEq, Repr, Inhabited

/-- Where the lines after the first one start, in a text whose first character is at `offset`. -/
def lineStartsFrom (offset : Nat) : List Char → List Nat
  | [] => []
  | c :: cs =>
    if c = '\n' then (offset + c.utf8Size) :: lineStartsFrom (offset + c.utf8Size) cs
    else lineStartsFrom (offset + c.utf8Size) cs

theorem lt_of_mem_lineStartsFrom {offset start : Nat} {cs : List Char}
    (h : start ∈ lineStartsFrom offset cs) : offset < start := by
  induction cs generalizing offset with
  | nil => simp [lineStartsFrom] at h
  | cons c cs ih =>
    have hPos := c.utf8Size_pos
    unfold lineStartsFrom at h
    split at h
    · rcases List.mem_cons.mp h with rfl | h
      · omega
      · have := ih h; omega
    · have := ih h; omega

theorem lineStartsFrom_ascending (offset : Nat) (cs : List Char) :
    (lineStartsFrom offset cs).Pairwise (· < ·) := by
  induction cs generalizing offset with
  | nil => simp [lineStartsFrom]
  | cons c cs ih =>
    unfold lineStartsFrom
    split
    · exact List.pairwise_cons.mpr ⟨fun _ h => lt_of_mem_lineStartsFrom h, ih _⟩
    · exact ih _

/-- The offsets at which the lines of a text start, in order; the first line starts at zero. -/
structure LineIndex where
  starts : Array Nat
  starts_first : starts[0]? = some 0
  starts_ascending : starts.toList.Pairwise (· < ·)

namespace LineIndex

def ofSource (source : String) : LineIndex where
  starts := (0 :: lineStartsFrom 0 source.toList).toArray
  starts_first := by simp
  starts_ascending :=
    List.pairwise_cons.mpr ⟨fun _ h => lt_of_mem_lineStartsFrom h, lineStartsFrom_ascending _ _⟩

/-- How many of the entries before `hi` are at most `offset`, where those before `lo` are known to be. -/
def bisect (starts : Array Nat) (offset lo hi : Nat) (h : hi ≤ starts.size) : Nat :=
  if hActive : lo < hi then
    if starts[(lo + hi) / 2] ≤ offset then bisect starts offset ((lo + hi) / 2 + 1) hi h
    else bisect starts offset lo ((lo + hi) / 2) (by omega)
  else lo
termination_by hi - lo

def position (lines : LineIndex) (offset : Nat) : Position :=
  let line := bisect lines.starts offset 0 lines.starts.size (Nat.le_refl _)
  ⟨line, offset - lines.starts.getD (line - 1) 0 + 1⟩

end LineIndex

/-- Where something stands in a text: its bytes, and the line and column of the first of them. -/
structure Location where
  span : Span
  position : Position
deriving DecidableEq, Repr, Inhabited

def LineIndex.locate (lines : LineIndex) (span : Span) : Location := ⟨span, lines.position span.start⟩

end Listfile
