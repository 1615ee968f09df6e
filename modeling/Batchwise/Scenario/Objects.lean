import Batchwise.World
import Batchwise.Table

/-!
# Listed worlds

A world given by a list of objects, each under a key that stands for it as a source.
-/

namespace Batchwise.Scenario

structure ListedObject where
  typeName : String
  properties : Table String (Answer String)

abbrev Objects := Table String ListedObject

def unlistedType : String := "Unknown"

/-- the world of listed objects; an object that is not listed has no values of its own. -/
def Objects.world (objects : Objects) : World String where
  typeName key := ((objects.find? key).map ListedObject.typeName).getD unlistedType
  property key name := (objects.find? key).bind fun o => o.properties.find? name

end Batchwise.Scenario
