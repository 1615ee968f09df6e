import Batchwise.Datum
import Batchwise.Text.Quoted

/-!
# Canonical text of data

Text that does not depend on the order in which a record was built: entries are written in
ascending order of their names.  Texts are quoted, names of enumerations stand behind `#`, bytes
are hexadecimal behind `0x`; nothing is written between tokens but the commas and colons.
-/

namespace Batchwise.Datum

def joinCommas : List (List Char) → List Char
  | [] => []
  | [t] => t
  | t :: u :: ts => t ++ ',' :: joinCommas (u :: ts)

def entryText (e : String × List Char) : List Char :=
  Text.quote e.1.toList ++ ':' :: e.2

/-- a record from the texts of its values, in ascending order of names. -/
def recordText (es : List (String × List Char)) : List Char :=
  let sorted := es.mergeSort (fun a b => decide (a.1 ≤ b.1))
  '\x7b' :: (joinCommas (sorted.map entryText) ++ ['\x7d'])

mutual

def canonical : Datum → List Char
  | null => "null".toList
  | bool true => "true".toList
  | bool false => "false".toList
  | number n => n.text
  | text s => Text.quote s.toList
  | enum name => '#' :: name.toList
  | bytes bs => '0' :: 'x' :: bs.flatMap (fun b => Text.hexByte b.toNat)
  | list items => '[' :: (joinCommas (canonicalItems items) ++ [']'])
  | record entries => recordText (canonicalEntries entries)

def canonicalItems : List Datum → List (List Char)
  | [] => []
  | d :: ds => d.canonical :: canonicalItems ds

def canonicalEntries : List (String × Datum) → List (String × List Char)
  | [] => []
  | (name, d) :: es => (name, d.canonical) :: canonicalEntries es

end

end Batchwise.Datum
