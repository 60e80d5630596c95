import Listfile.Json.Text
/-! # Reading JSON

A reader takes a value from the head of a text. It knows how many more levels of brackets it may open. What
is read is known in advance, so that a value of the wrong type is refused where it starts, before the rest of
the text is looked at. Lists and objects are read by `many` and `fold`, which go on for as long as a further
item is announced. What is repeated takes a character each time, so that the text itself, from where the
repetition starts, is the measure of how often that can be.
-/
namespace Listfile.Json
set_option autoImplicit false

/-- A computation on the rest of a text, which may open as many more levels as its environment says. -/
abbrev Reader := ReaderT Nat (StateT (List Char) (Except ReadError))

namespace Reader

variable {α σ : Type}

/-- A reader that is indifferent to levels. -/
def ofText (read : List Char → Except ReadError (α × List Char)) : Reader α := fun _ text => read text

/-- The next character that is not blank, which is not taken. -/
def peek : Reader (Option Char) := do
  modify (·.dropWhile isBlank)
  return (← get).head?

def take : Reader Unit := modify List.tail

/-- Reads within one more level of brackets. -/
def nested (body : Reader α) : Reader α := fun room =>
  match room with
  | 0 => throw .nestedTooDeep
  | room + 1 => body room

def literal : List Char → Reader Unit
  | [] => pure ()
  | c :: cs => do
    match ← get with
    | [] => throw (.endOfText .value)
    | next :: rest =>
      set rest
      if next = c then literal cs else throw .expectedLiteral

/-- A string after its opening quote. -/
def stringBody : Reader String := String.ofList <$> ofText readString

/-- Refuses the next value, which is not what was expected. A value that is malformed is refused for that. -/
def mismatch (expected : String) : Reader α := do
  match ← peek with
  | none => throw (.endOfText .value)
  | some c =>
    if c = 'n' then take; literal ['u', 'l', 'l']; throw (.wrongType .null expected)
    else if c = 't' then take; literal ['r', 'u', 'e']; throw (.wrongType (.bool true) expected)
    else if c = 'f' then take; literal ['a', 'l', 's', 'e']; throw (.wrongType (.bool false) expected)
    else if c = '-' then take; throw (.wrongType (.number (← ofText (readNumber true))) expected)
    else if isDigit c then throw (.wrongType (.number (← ofText (readNumber false))) expected)
    else if c = '"' then take; throw (.wrongType (.string (← stringBody)) expected)
    else if c = '[' then throw (.wrongType .sequence expected)
    else if c = '{' then throw (.wrongType .map expected)
    else throw .expectedValue

/-! ## Items of lists and objects -/

/-- Whether a further element follows in a list, whose separating comma is taken. -/
def hasElement (first : Bool) : Reader Bool := do
  match ← peek with
  | none => throw (.endOfText .list)
  | some c =>
    if c = ']' then return false
    else if first then return true
    else if c = ',' then
      take
      match ← peek with
      | none => throw (.endOfText .value)
      | some c => if c = ']' then throw .trailingComma else return true
    else throw (.expectedCommaOrClosing .list)

/-- Whether a further member follows in an object. Its separating comma and its opening quote are taken. -/
def hasMember (first : Bool) : Reader Bool := do
  match ← peek with
  | none => throw (.endOfText .object)
  | some c =>
    if c = '}' then return false
    else if first then
      if c = '"' then take; return true else throw .nameNotString
    else if c = ',' then
      take
      match ← peek with
      | none => throw (.endOfText .value)
      | some c =>
        if c = '"' then take; return true
        else if c = '}' then throw .trailingComma
        else throw .nameNotString
    else throw (.expectedCommaOrClosing .object)

def colon : Reader Unit := do
  match ← peek with
  | none => throw (.endOfText .object)
  | some c => if c = ':' then take else throw .expectedColon

def endList : Reader Unit := do
  match ← peek with
  | none => throw (.endOfText .list)
  | some c =>
    if c = ']' then take
    else if c = ',' then
      take
      if (← peek) = some ']' then throw .trailingComma else throw .trailingCharacters
    else throw .trailingCharacters

def endObject : Reader Unit := do
  match ← peek with
  | none => throw (.endOfText .object)
  | some c =>
    if c = '}' then take
    else if c = ',' then throw .trailingComma
    else throw .trailingCharacters

/-- Items for as long as `more` announces one, at most one for each character of the limit. -/
def manyWithin (more : Bool → Reader Bool) (item : Reader α) : List Char → Bool → Reader (List α)
  | [], _ => throw (.endOfText .value)
  | _ :: limit, first => do
    if ← more first then
      let x ← item
      let xs ← manyWithin more item limit false
      return x :: xs
    else return []

/-- A measure for what takes a character each time, and may happen once more at the end of the text. -/
def measure : Reader (List Char) := return ' ' :: (← get)

def many (more : Bool → Reader Bool) (item : Reader α) : Reader (List α) := do
  manyWithin more item (← measure) true

/-- Folds the members of an object into a state, at most one for each character of the limit; `step` reads the
value of one. -/
def foldWithin (step : σ → String → Reader σ) : List Char → Bool → σ → Reader σ
  | [], _, _ => throw (.endOfText .value)
  | _ :: limit, first, state => do
    if ← hasMember first then
      let name ← stringBody
      let state ← step state name
      foldWithin step limit false state
    else return state

def fold (step : σ → String → Reader σ) (state : σ) : Reader σ := do
  foldWithin step (← measure) true state

/-! ## Values that are passed over -/

/-- Whether a further element follows in a list that is passed over. -/
def skipHasElement (first : Bool) : Reader Bool := do
  match ← peek with
  | none => throw (.endOfText .list)
  | some c =>
    if c = ']' then return false
    else if first then return true
    else if c = ',' then take; return true
    else throw (.expectedCommaOrClosing .list)

/-- Whether a further member follows in an object that is passed over. Its opening quote is taken. -/
def skipHasMember (first : Bool) : Reader Bool := do
  match ← peek with
  | none => throw (.endOfText .object)
  | some c =>
    if c = '}' then return false
    else if ¬first ∧ c ≠ ',' then throw (.expectedCommaOrClosing .object)
    else
      if ¬first then take
      match ← peek with
      | none => throw (.endOfText .object)
      | some c => if c = '"' then take; return true else throw .nameNotString

/-- Passes over a value that is at most as deep as there are characters in `depth`. Levels are not counted against
those that may be opened. -/
def skipWithin : List Char → Reader Unit
  | [] => throw .nestedTooDeep
  | _ :: depth => do
    match ← peek with
    | none => throw (.endOfText .value)
    | some c =>
      if c = 'n' then take; literal ['u', 'l', 'l']
      else if c = 't' then take; literal ['r', 'u', 'e']
      else if c = 'f' then take; literal ['a', 'l', 's', 'e']
      else if c = '-' then take; ofText fun text => (skipNumber text).map ((), ·)
      else if isDigit c then ofText fun text => (skipNumber text).map ((), ·)
      else if c = '"' then take; ofText fun text => (skipString text).map ((), ·)
      else if c = '[' then
        take
        let _ ← many skipHasElement (skipWithin depth)
        take
      else if c = '{' then
        take
        let _ ← many skipHasMember do
          ofText fun text => (skipString text).map ((), ·)
          colon
          skipWithin depth
        take
      else throw .expectedValue

def skip : Reader Unit := do skipWithin (← measure)

/-! ## Values of one type -/

def string : Reader String := do
  match ← peek with
  | some '"' => take; stringBody
  | _ => mismatch "a string"

def list (item : Reader α) : Reader (List α) := do
  match ← peek with
  | some '[' =>
    let items ← nested do take; many hasElement item
    endList
    return items
  | _ => mismatch "a sequence"

/-- A value, or `null` for none. -/
def optional (value : Reader α) : Reader (Option α) := do
  match ← peek with
  | some 'n' => take; literal ['u', 'l', 'l']; return none
  | _ => some <$> value

/-- A number that counts something: an integer from zero to `2 ^ 64 - 1`. -/
def natural : Reader Nat := do
  let number ←
    match ← peek with
    | none => mismatch "usize"
    | some c =>
      if c = '-' then take; ofText (readNumber true)
      else if isDigit c then ofText (readNumber false)
      else mismatch "usize"
  match number with
  | .integer (.ofNat n) => return n
  | .integer _ => throw (.wrongValue (.number number) "usize")
  | .double _ => throw (.wrongType (.number number) "usize")

def variantName (variants : List (String × α)) : Reader α := do
  match ← peek with
  | some '"' =>
    take
    let name ← stringBody
    match variants.lookup name with
    | some variant => return variant
    | none => throw (.unknownVariant name (variants.map (·.1)))
  | _ => mismatch "variant identifier"

/-- One of several variants: its name, or an object whose one member has that name and is `null`. -/
def variant (variants : List (String × α)) : Reader α := do
  match ← peek with
  | none => throw (.endOfText .value)
  | some c =>
    if c = '"' then variantName variants
    else if c = '{' then
      let chosen ← nested do
        take
        match ← peek with
        | none => throw (.endOfText .object)
        | some c => if c ≠ '"' then throw (if c = '}' then .expectedValue else .nameNotString)
        let chosen ← variantName variants
        colon
        match ← peek with
        | some 'n' => take; literal ['u', 'l', 'l']
        | _ => mismatch "unit"
        return chosen
      match ← peek with
      | none => throw (.endOfText .object)
      | some c => if c = '}' then take; return chosen else throw .expectedValue
    else throw .expectedValue

/-- Any value that is at most as deep as there are characters in `depth`. The members of objects are sorted, and
the last of one name wins. -/
def valueWithin : List Char → Reader Json
  | [] => throw .nestedTooDeep
  | _ :: depth => do
    match ← peek with
    | none => throw (.endOfText .value)
    | some c =>
      if c = 'n' then take; literal ['u', 'l', 'l']; return .null
      else if c = 't' then take; literal ['r', 'u', 'e']; return .bool true
      else if c = 'f' then take; literal ['a', 'l', 's', 'e']; return .bool false
      else if c = '-' then take; return .number (← ofText (readNumber true))
      else if isDigit c then return .number (← ofText (readNumber false))
      else if c = '"' then take; return .string (← stringBody)
      else if c = '[' then
        let elements ← nested do take; many hasElement (valueWithin depth)
        endList
        return .array elements
      else if c = '{' then
        let members ← nested do
          take
          fold (fun members name => do
            colon
            return insertMember name (← valueWithin depth) members) []
        endObject
        return .object members
      else throw .expectedValue

def value : Reader Json := do valueWithin (← measure)

/-! ## Whole texts -/

/-- Reads a text that holds one value and nothing else. -/
def run (reader : Reader α) (levels : Nat) (text : String) : Except ReadError α := do
  let (x, rest) ← reader levels text.toList
  match rest.dropWhile isBlank with
  | [] => return x
  | _ => throw .trailingCharacters

def runUnlimited (reader : Reader α) (text : String) : Except ReadError α := reader.run text.length text

/-- How many levels of brackets are read where nesting is limited. -/
def levelLimit : Nat := 127

def runLimited (reader : Reader α) (text : String) : Except ReadError α := reader.run levelLimit text

end Reader

end Listfile.Json
