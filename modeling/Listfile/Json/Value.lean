/-! # JSON values

Numbers are integers where they can be and binary64 numbers otherwise. The members of an object are kept in
the order in which they are to be written; `insertMember` keeps them sorted by name, with one value a name.
-/
namespace Listfile
set_option autoImplicit false

inductive Json.Number where
  | integer (value : Int)
  | double (value : Float)
deriving Repr, Inhabited

/-- Doubles are compared as numbers, so that the two zeros are equal. -/
def Json.Number.beq : Number → Number → Bool
  | integer a, integer b => a == b
  | double a, double b => a == b
  | _, _ => false

inductive Json where
  | null
  | bool (value : Bool)
  | number (value : Json.Number)
  | string (value : String)
  | array (elements : List Json)
  | object (members : List (String × Json))
deriving Inhabited

namespace Json

mutual

/-- Equality of values; the members of objects are compared in order. -/
def beq : Json → Json → Bool
  | null, null => true
  | bool a, bool b => a == b
  | number a, number b => a.beq b
  | string a, string b => a == b
  | array a, array b => beqElements a b
  | object a, object b => beqMembers a b
  | _, _ => false

def beqElements : List Json → List Json → Bool
  | [], [] => true
  | a :: as, b :: bs => beq a b && beqElements as bs
  | _, _ => false

def beqMembers : List (String × Json) → List (String × Json) → Bool
  | [], [] => true
  | (m, a) :: as, (n, b) :: bs => m == n && beq a b && beqMembers as bs
  | _, _ => false

end

instance : BEq Json := ⟨beq⟩

/-- Sets a member of an object whose members are sorted by name. -/
def insertMember (name : String) (value : Json) : List (String × Json) → List (String × Json)
  | [] => [(name, value)]
  | (other, old) :: rest =>
    if name < other then (name, value) :: (other, old) :: rest
    else if name = other then (name, value) :: rest
    else (other, old) :: insertMember name value rest

def ofInt (value : Int) : Json := number (.integer value)

def ofNat (value : Nat) : Json := ofInt value

end Json

end Listfile
