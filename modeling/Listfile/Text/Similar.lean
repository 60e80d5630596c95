/-! # Texts that are alike

Two texts are alike if they have many characters in common, at about the same places and in the same order.
Where a name is not known, one that is like it may have been meant.
-/
namespace Listfile.Text
set_option autoImplicit false

/-- Pairs each character of a text with the first equal one of `other` that is at most `reach` away and not yet
taken, and gives the pairs with the place in `other`. `index` is the place of the first character. -/
def commonFrom (reach : Nat) (other : List (Char × Nat)) (index : Nat) : List Char → List (Char × Nat)
  | [] => []
  | c :: cs =>
    match other.find? fun (d, place) => d = c ∧ place ≤ index + reach ∧ index ≤ place + reach with
    | some pair => pair :: commonFrom reach (other.erase pair) (index + 1) cs
    | none => commonFrom reach other (index + 1) cs

/-- How much two texts are alike, from zero to one: the mean of the shares of either text that they have in
common and of the share of that which is in order. -/
def likeness (text other : String) : Rat :=
  let (m, n) := (text.length, other.length)
  let common := commonFrom (max m n / 2 - 1) other.toList.zipIdx 0 text.toList
  let sorted := common.mergeSort fun (_, place) (_, place') => place ≤ place'
  let displaced := (common.zip sorted).countP fun ((c, _), (d, _)) => c ≠ d
  let inOrder := common.length - displaced / 2
  match common with
  | [] => if m = 0 ∧ n = 0 then 1 else 0
  | _ => ((common.length : Rat) / m + (common.length : Rat) / n + (inOrder : Rat) / common.length) / 3

/-- The name that is most like a text, if there is one that is alike by seven tenths. -/
def mostSimilar? (names : List String) (text : String) : Option String :=
  (names.filter fun name => 7 / 10 ≤ likeness text name).foldl (fun best? name =>
    match best? with
    | none => some name
    | some best => some (if likeness text best ≤ likeness text name then name else best)) none

end Listfile.Text
