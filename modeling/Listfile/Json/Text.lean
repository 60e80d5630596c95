import Listfile.Json.ReadError
/-! # The lexical forms of JSON

Readers for the text of strings and numbers, each from the character after the one that announces it to the
end of the form, giving what was read and the rest of the text. A form that is to be skipped is checked less
closely than one that is to be used: neither the range of a number nor the pairing of surrogates matters.
-/
namespace Listfile.Json
set_option autoImplicit false

def isBlank (c : Char) : Bool := c = ' ' || c = '\n' || c = '\t' || c = '\r'

/-- A decimal digit; only ASCII digits count. -/
def isDigit (c : Char) : Bool := '0' ≤ c && c ≤ '9'

def digitValue (c : Char) : Nat := c.toNat - '0'.toNat

def hexValue? (c : Char) : Option Nat :=
  if isDigit c then some (digitValue c)
  else if 'a' ≤ c ∧ c ≤ 'f' then some (c.toNat - 'a'.toNat + 10)
  else if 'A' ≤ c ∧ c ≤ 'F' then some (c.toNat - 'A'.toNat + 10)
  else none

/-! ## Strings -/

/-- The four hexadecimal digits of an escape, which must be four bytes of the text. -/
def readHex (text : List Char) : Except ReadError (Nat × List Char) :=
  match text with
  | a :: b :: c :: d :: rest =>
    match hexValue? a, hexValue? b, hexValue? c, hexValue? d with
    | some a, some b, some c, some d => .ok (((a * 16 + b) * 16 + c) * 16 + d, rest)
    | _, _, _, _ => .error .invalidEscape
  | short =>
    if 4 ≤ (String.ofList short).utf8ByteSize then .error .invalidEscape else .error (.endOfText .string)

/-- The character that stands for itself after a backslash, if there is one. -/
def simpleEscape? (c : Char) : Option Char :=
  if c = '"' ∨ c = '\\' ∨ c = '/' then some c
  else if c = 'b' then some '\x08'
  else if c = 'f' then some '\x0c'
  else if c = 'n' then some '\n'
  else if c = 'r' then some '\r'
  else if c = 't' then some '\t'
  else none

/-- The second half of a surrogate pair, given the first. -/
def readLowSurrogate (high : Nat) (text : List Char) : Except ReadError (Char × List Char) :=
  match text with
  | [] => .error (.endOfText .string)
  | '\\' :: [] => .error (.endOfText .string)
  | '\\' :: 'u' :: rest =>
    match readHex rest with
    | .error error => .error error
    | .ok (low, rest) =>
      if 0xDC00 ≤ low ∧ low ≤ 0xDFFF then
        .ok (Char.ofNat ((high - 0xD800) * 0x400 + (low - 0xDC00) + 0x10000), rest)
      else .error .loneSurrogate
  | _ => .error .unfinishedSurrogatePair

/-- What a backslash and the text after it stand for. -/
def readEscape (text : List Char) : Except ReadError (Char × List Char) :=
  match text with
  | [] => .error (.endOfText .string)
  | 'u' :: rest =>
    match readHex rest with
    | .error error => .error error
    | .ok (code, rest) =>
      if 0xDC00 ≤ code ∧ code ≤ 0xDFFF then .error .loneSurrogate
      else if 0xD800 ≤ code ∧ code ≤ 0xDBFF then readLowSurrogate code rest
      else .ok (Char.ofNat code, rest)
  | c :: rest =>
    match simpleEscape? c with
    | some c => .ok (c, rest)
    | none => .error .invalidEscape

def skipEscape (text : List Char) : Except ReadError (List Char) :=
  match text with
  | [] => .error (.endOfText .string)
  | 'u' :: rest =>
    match readHex rest with
    | .error error => .error error
    | .ok (_, rest) => .ok rest
  | c :: rest =>
    match simpleEscape? c with
    | some _ => .ok rest
    | none => .error .invalidEscape

theorem length_of_readHex {text rest : List Char} {code : Nat} (h : readHex text = .ok (code, rest)) :
    rest.length + 4 = text.length := by
  unfold readHex at h
  split at h
  · split at h <;> cases h
    rfl
  · split at h <;> cases h

theorem length_lt_of_readLowSurrogate {high : Nat} {text rest : List Char} {c : Char}
    (h : readLowSurrogate high text = .ok (c, rest)) : rest.length < text.length := by
  unfold readLowSurrogate at h
  split at h
  · cases h
  · cases h
  · split at h
    · cases h
    · rename_i hHex
      have := length_of_readHex hHex
      split at h
      · obtain ⟨-, rfl⟩ := Prod.mk.inj (Except.ok.inj h)
        simp only [List.length_cons]
        omega
      · cases h
  · cases h

theorem length_lt_of_readEscape {text rest : List Char} {c : Char}
    (h : readEscape text = .ok (c, rest)) : rest.length < text.length := by
  unfold readEscape at h
  split at h
  · cases h
  · split at h
    · cases h
    · rename_i hHex
      have := length_of_readHex hHex
      simp only [List.length_cons]
      split at h
      · cases h
      · split at h
        · have := length_lt_of_readLowSurrogate h
          omega
        · obtain ⟨-, rfl⟩ := Prod.mk.inj (Except.ok.inj h)
          omega
  · split at h <;> cases h
    simp

theorem length_lt_of_skipEscape {text rest : List Char} (h : skipEscape text = .ok rest) :
    rest.length < text.length := by
  unfold skipEscape at h
  split at h
  · cases h
  · split at h
    · cases h
    · rename_i hHex
      have := length_of_readHex hHex
      cases h
      simp only [List.length_cons]
      omega
  · split at h <;> cases h
    simp

/-- The characters of a string up to its closing quote. -/
def readString : List Char → Except ReadError (List Char × List Char)
  | [] => .error (.endOfText .string)
  | c :: rest =>
    if c = '"' then .ok ([], rest)
    else if c = '\\' then
      match _ : readEscape rest with
      | .error error => .error error
      | .ok (c, rest) =>
        match readString rest with
        | .error error => .error error
        | .ok (cs, rest) => .ok (c :: cs, rest)
    else if c < ' ' then .error .controlCharacter
    else
      match readString rest with
      | .error error => .error error
      | .ok (cs, rest) => .ok (c :: cs, rest)
termination_by text => text.length
decreasing_by
  · have := length_lt_of_readEscape ‹_›
    simp only [List.length_cons]
    omega
  · simp

def skipString : List Char → Except ReadError (List Char)
  | [] => .error (.endOfText .string)
  | c :: rest =>
    if c = '"' then .ok rest
    else if c = '\\' then
      match _ : skipEscape rest with
      | .error error => .error error
      | .ok rest => skipString rest
    else if c < ' ' then .error .controlCharacter
    else skipString rest
termination_by text => text.length
decreasing_by
  · have := length_lt_of_skipEscape ‹_›
    simp only [List.length_cons]
    omega
  · simp

/-! ## Numbers -/

def digitsValue (digits : List Char) : Nat := digits.foldl (fun n c => n * 10 + digitValue c) 0

/-- Appends digits to a significand for as long as it stays below `2 ^ 64`. Gives the significand, how many
digits were taken, and the rest of the text. -/
def extend (significand : Nat) : List Char → Nat × Nat × List Char
  | [] => (significand, 0, [])
  | c :: rest =>
    if isDigit c ∧ significand * 10 + digitValue c < 0x10000000000000000 then
      let (significand, taken, rest) := extend (significand * 10 + digitValue c) rest
      (significand, taken + 1, rest)
    else (significand, 0, c :: rest)

def powerOfTen (n : Nat) : Float := Float.ofScientific 1 false n

/-- Multiplies by a power of ten, in steps of at most `10 ^ 308`, each of which is rounded. There is no
result if it is too large. -/
def scale (x : Float) (exponent : Int) : Option Float :=
  if exponent.natAbs ≤ 308 then
    if 0 ≤ exponent then
      let scaled := x * powerOfTen exponent.natAbs
      if scaled.isInf then none else some scaled
    else some (x / powerOfTen exponent.natAbs)
  else if x == 0.0 then some x
  else if 0 ≤ exponent then none
  else scale (x / powerOfTen 308) (exponent + 308)
termination_by exponent.natAbs
decreasing_by omega

/-- The double with the given sign, significand and decimal exponent. -/
def ofParts (negative : Bool) (significand : Nat) (exponent : Int) : Except ReadError Float :=
  match scale (Float.ofNat significand) exponent with
  | some x => .ok (if negative then -x else x)
  | none => .error .numberOutOfRange

/-- The largest exponent that is taken into account, `2 ^ 31 - 1`. -/
def exponentLimit : Nat := 0x7fffffff

/-- Reads the exponent of a number, after its `e`. -/
def readExponent (negative : Bool) (significand : Nat) (start : Int) (text : List Char) :
    Except ReadError (Float × List Char) :=
  let (down, text) :=
    match text with
    | '+' :: rest => (false, rest)
    | '-' :: rest => (true, rest)
    | text => (false, text)
  match text with
  | [] => .error (.endOfText .value)
  | c :: _ =>
    if isDigit c then
      let exponent := digitsValue (text.takeWhile isDigit)
      let rest := text.dropWhile isDigit
      if exponentLimit < exponent then
        if significand ≠ 0 ∧ ¬down then .error .numberOutOfRange
        else .ok (if negative then -0.0 else 0.0, rest)
      else
        match ofParts negative significand (if down then start - exponent else start + exponent) with
        | .ok x => .ok (x, rest)
        | .error error => .error error
    else .error .invalidNumber

/-- Reads what may follow the digits of a number: an exponent, or nothing. -/
def finishNumber (negative : Bool) (significand : Nat) (exponent : Int) (text : List Char) :
    Except ReadError (Float × List Char) :=
  match text with
  | 'e' :: rest | 'E' :: rest => readExponent negative significand exponent rest
  | text =>
    match ofParts negative significand exponent with
    | .ok x => .ok (x, text)
    | .error error => .error error

/-- Reads the digits after the point of a number; those that do not fit the significand are dropped. -/
def readFraction (negative : Bool) (significand : Nat) (exponent : Int) (text : List Char) :
    Except ReadError (Float × List Char) :=
  let (significand, taken, rest) := extend significand text
  if rest.head?.any isDigit then
    finishNumber negative significand (exponent - taken) (rest.dropWhile isDigit)
  else if taken = 0 then
    if rest = [] then .error (.endOfText .value) else .error .invalidNumber
  else finishNumber negative significand (exponent - taken) rest

/-- An integer that was read, as a number: a double if it is negative zero or below `-2 ^ 63`. -/
def ofInteger (negative : Bool) (significand : Nat) : Number :=
  if negative then
    if significand = 0 ∨ 0x8000000000000000 < significand then .double (-Float.ofNat significand)
    else .integer (-significand)
  else .integer significand

/-- Reads a number after its sign. Digits of an integer that do not fit `2 ^ 64` only count towards the
exponent. -/
def readNumber (negative : Bool) (text : List Char) : Except ReadError (Number × List Char) :=
  let double (result : Except ReadError (Float × List Char)) : Except ReadError (Number × List Char) :=
    result.map fun (x, rest) => (.double x, rest)
  match text with
  | [] => .error (.endOfText .value)
  | first :: afterFirst =>
    if ¬isDigit first then .error .invalidNumber
    else if first = '0' ∧ afterFirst.head?.any isDigit then .error .invalidNumber
    else
      let (significand, _, rest) := extend 0 text
      let dropped := (rest.takeWhile isDigit).length
      match rest.dropWhile isDigit with
      | '.' :: rest => double (readFraction negative significand dropped rest)
      | 'e' :: rest | 'E' :: rest => double (readExponent negative significand dropped rest)
      | rest =>
        if dropped = 0 then .ok (ofInteger negative significand, rest)
        else double (finishNumber negative significand dropped rest)

def skipExponent (text : List Char) : Except ReadError (List Char) :=
  let text :=
    match text with
    | '+' :: rest | '-' :: rest => rest
    | text => text
  if text.head?.any isDigit then .ok (text.dropWhile isDigit) else .error .invalidNumber

def skipNumber (text : List Char) : Except ReadError (List Char) :=
  if ¬text.head?.any isDigit ∨ (text.head? = some '0' ∧ text.tail.head?.any isDigit) then .error .invalidNumber
  else
    match text.dropWhile isDigit with
    | '.' :: rest =>
      if rest.head?.any isDigit then
        match rest.dropWhile isDigit with
        | 'e' :: rest | 'E' :: rest => skipExponent rest
        | rest => .ok rest
      else .error .invalidNumber
    | 'e' :: rest | 'E' :: rest => skipExponent rest
    | rest => .ok rest

end Listfile.Json
