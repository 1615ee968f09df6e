import Batchwise.Answer

/-!
# Worlds

A world knows of every source object its type, and the values that the object can give for a
field without a resolver.
-/

namespace Batchwise

structure World (S : Type) where
  typeName : S → String
  /-- the value that an object has of its own for a field, if any. -/
  property : S → String → Option (Answer S)

end Batchwise
