/-!
# Integers of fixed width

The greatest integers that fit 64 bits, and 128 bits. Integers are not kept in words here, but what
is read and written must fit them. The least signed integer is one further from zero than the
greatest.
-/

namespace AccessPolicy

/-- The greatest signed integer of 64 bits. -/
def maxInt64 : Nat :=
  0x7FFFFFFFFFFFFFFF

/-- The greatest unsigned integer of 64 bits. -/
def maxUInt64 : Nat :=
  0xFFFFFFFFFFFFFFFF

/-- The greatest signed integer of 128 bits. -/
def maxInt128 : Nat :=
  0x7FFFFFFFFFFFFFFFFFFFFFFFFFFFFFFF

/-- The greatest unsigned integer of 128 bits. -/
def maxUInt128 : Nat :=
  0xFFFFFFFFFFFFFFFFFFFFFFFFFFFFFFFF

end AccessPolicy
