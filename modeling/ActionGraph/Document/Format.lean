-- The formats of documents, and how a file's name tells its format.
namespace ActionGraph.Document

inductive Format where
  | ron | toml | json
  deriving DecidableEq

namespace Format

-- The last component of a path, if it names an entry of its own. Empty components and single
-- dots stand for no step.
def fileName? (path : String) : Option String :=
  let steps := ((path.toList.splitOn '/').filter fun s => s ≠ [] ∧ s ≠ ['.']).map String.ofList
  match steps.getLast? with
  | some ".." => none
  | last => last

def extension? (name : String) : Option String :=
  let reversed := name.toList.reverse
  let ending := reversed.takeWhile (· ≠ '.')
  if (reversed.drop (ending.length + 1)).isEmpty then none
  else some (String.ofList ending.reverse)

def ofPath? (path : String) : Option Format :=
  match (fileName? path).bind extension? with
  | some "ron" => some ron
  | some "toml" => some toml
  | some "json" => some json
  | _ => none

end Format
end ActionGraph.Document
