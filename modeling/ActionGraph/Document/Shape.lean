-- What a schema expects at each place of a document, as far as a reader may need to know it
-- before it reads the place: where a value may be absent.
namespace ActionGraph.Document

inductive Shape where
  | free
  | optional
  | list (item : Shape)
  | record (fields : List (String × Shape))

namespace Shape

def item : Shape → Shape
  | list s => s
  | _ => free

def field (name : String) : Shape → Shape
  | record fields => (fields.lookup name).getD free
  | _ => free

end Shape
end ActionGraph.Document
