import Mathlib.Data.UInt

/-!
# Classes of characters

`isalpha` and the others, in the C locale.
-/

namespace Espl.Libc

def isupper (c : UInt8) : Bool := 65 ≤ c && c ≤ 90

def islower (c : UInt8) : Bool := 97 ≤ c && c ≤ 122

def isalpha (c : UInt8) : Bool := isupper c || islower c

def isdigit (c : UInt8) : Bool := 48 ≤ c && c ≤ 57

def isalnum (c : UInt8) : Bool := isalpha c || isdigit c

def isspace (c : UInt8) : Bool := c == 32 || (9 ≤ c && c ≤ 13)

end Espl.Libc
