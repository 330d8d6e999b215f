import ActionGraph.Blackboard
-- Messages with placeholders: a key between braces stands for the blackboard's text for it.
namespace ActionGraph.Template

def expansion (board : Blackboard) (key : List Char) : List Char :=
  match board.get? (String.ofList key) with
  | some v => v.toText.toList
  | none => '{' :: key ++ ['}']

-- `key?` holds the key read so far, last character first, while a brace is open. Text that is
-- put in is not read again, and a brace that is never closed is text.
def fillFrom (board : Blackboard) (key? : Option (List Char)) : List Char → List Char
  | [] => match key? with
    | none => []
    | some key => '{' :: key.reverse
  | c :: rest => match key? with
    | none => if c = '{' then fillFrom board (some []) rest else c :: fillFrom board none rest
    | some key =>
      if c = '}' then expansion board key.reverse ++ fillFrom board none rest
      else fillFrom board (some (c :: key)) rest

def fill (board : Blackboard) (template : String) : String :=
  String.ofList (fillFrom board none template.toList)

end ActionGraph.Template
