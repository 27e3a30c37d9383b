import Netbase.Text.Decimal

/-!
# Character classes

The classes of the C locale.
-/

namespace Netbase.Text

def isupper (c : Byte) : Bool := 65 ≤ c.toNat && c.toNat ≤ 90

def islower (c : Byte) : Bool := 97 ≤ c.toNat && c.toNat ≤ 122

def isalnum (c : Byte) : Bool := isdigit c || isupper c || islower c

def isprint (c : Byte) : Bool := 32 ≤ c.toNat && c.toNat ≤ 126

def tolower (c : Byte) : Byte := if isupper c then c + 32 else c

def toupper (c : Byte) : Byte := if islower c then c - 32 else c

theorem islower_iff (c : Byte) : islower c = true ↔ 97 ≤ c.toNat ∧ c.toNat ≤ 122 := by
  simp [islower]

theorem isupper_iff (c : Byte) : isupper c = true ↔ 65 ≤ c.toNat ∧ c.toNat ≤ 90 := by
  simp [isupper]

theorem toNat_toupper (c : Byte) :
    (toupper c).toNat = if 97 ≤ c.toNat ∧ c.toNat ≤ 122 then c.toNat - 32 else c.toNat := by
  revert c
  apply forall_byte
  decide +kernel

theorem toNat_tolower (c : Byte) :
    (tolower c).toNat = if 65 ≤ c.toNat ∧ c.toNat ≤ 90 then c.toNat + 32 else c.toNat := by
  revert c
  apply forall_byte
  decide +kernel

end Netbase.Text
