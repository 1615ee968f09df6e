import Batchwise.Datum
import Batchwise.Text.Quoted

/-!
# Response documents

The JSON documents that responses are made of, and their text without blanks.  A constant value
becomes a document by naming enumerations as text and listing bytes as numbers.
-/

namespace Batchwise

/-- a JSON document, the members of objects in order. -/
inductive Document
  | null
  | bool (value : Bool)
  | number (value : Number)
  | text (value : String)
  | list (items : List Document)
  | object (members : List (String × Document))

namespace Document

instance : Inhabited Document := ⟨null⟩

/-! ### constant values -/

mutual

/-- the document of a constant value: every kind of value has one, and none fails to be written. -/
def ofDatum : Datum → Document
  | .null => null
  | .bool b => bool b
  | .number n => number n
  | .text s => text s
  | .enum name => text name
  | .bytes bs => list (bs.map fun b => number (.int b.toNat))
  | .list ds => list (ofItems ds)
  | .record es => object (ofEntries es)

def ofItems : List Datum → List Document
  | [] => []
  | d :: ds => ofDatum d :: ofItems ds

def ofEntries : List (String × Datum) → List (String × Document)
  | [] => []
  | (name, d) :: es => (name, ofDatum d) :: ofEntries es

end

/-! ### text -/

mutual

def compact : Document → List Char
  | null => "null".toList
  | bool true => "true".toList
  | bool false => "false".toList
  | number n => n.text
  | text s => Text.quote s.toList
  | list [] => ['[', ']']
  | list (j :: js) => '[' :: (compact j ++ (compactItems js ++ [']']))
  | object [] => ['\x7b', '\x7d']
  | object ((name, j) :: ms) =>
    '\x7b' :: (Text.quote name.toList ++ ':' :: (compact j ++ (compactMembers ms ++ ['\x7d'])))

/-- each item behind a comma. -/
def compactItems : List Document → List Char
  | [] => []
  | j :: js => ',' :: (compact j ++ compactItems js)

def compactMembers : List (String × Document) → List Char
  | [] => []
  | (name, j) :: ms => ',' :: (Text.quote name.toList ++ ':' :: (compact j ++ compactMembers ms))

end

end Document
end Batchwise
