import ActionGraph.Document.Format
import ActionGraph.Document.Json
import ActionGraph.Document.Ron
import ActionGraph.Document.Schema
import ActionGraph.Document.Toml
import ActionGraph.Graph.Check
-- Loading documents: a text is read by its format, decoded by the schema, and a graph's draft is
-- resolved and checked. Each step comes only after the ones before it succeeded.
namespace ActionGraph.Document

inductive Unreadable where
  | missing
  | notText
  deriving DecidableEq

inductive LoadError where
  | unsupportedFormat (path : String)
  | unreadable (why : Unreadable)
  | malformed (source : String)
  | unknownOperator (found : UnknownOperator)
  | fault (f : Fault)
  deriving DecidableEq

namespace Format

def read? (format : Format) (shape : Shape) (content : String) : Option Node :=
  match format with
  | ron => Ron.read? shape content
  | toml => Toml.read? content
  | json => Json.read? content

def decode? (format : Format) (schema : Schema α) (content : String) : Option α := do
  let n ← format.read? schema.shape content
  let reading := schema.read format n
  match format.limit? with
  | some limit => reading.upTo limit
  | none => reading.map (·.1)

end Format

-- `source` is the name that a text is reported under if it is no document.
def decode (decoder : String → Option α) (source content : String) : Except LoadError α :=
  match decoder content with
  | some a => .ok a
  | none => .error (.malformed source)

def Draft.load (d : Draft) : Except LoadError Graph := do
  let g ← d.resolve.mapError LoadError.unknownOperator
  let _ ← g.check.mapError LoadError.fault
  return g

def loadGraphBy (decoder : String → Option Draft) (source content : String) :
    Except LoadError Graph := do
  (← decode decoder source content).load

def loadGraph (format : Format) : String → String → Except LoadError Graph :=
  loadGraphBy (format.decode? Schema.draft)

def loadConfig (format : Format) : String → String → Except LoadError Config :=
  decode (format.decode? Schema.config)

def fileText (content : Option ByteArray) : Except LoadError String :=
  match content with
  | none => .error (.unreadable .missing)
  | some bytes =>
    match String.fromUTF8? bytes with
    | some text => .ok text
    | none => .error (.unreadable .notText)

-- The format of a file is settled before the file is looked at.
def loadFile (load : Format → String → String → Except LoadError α) (path : String)
    (content : Option ByteArray) : Except LoadError α :=
  match Format.ofPath? path with
  | none => .error (.unsupportedFormat path)
  | some format => do load format path (← fileText content)

def loadGraphFile : String → Option ByteArray → Except LoadError Graph := loadFile loadGraph

def loadConfigFile : String → Option ByteArray → Except LoadError Config := loadFile loadConfig

def LoadError.message? : LoadError → Option String
  | unsupportedFormat path => some ("unsupported format for file: " ++ path)
  | unreadable _ => none
  | malformed _ => none
  | unknownOperator found => some found.message
  | fault f => some f.message

end ActionGraph.Document
