import Interleaving.Json.Parser
import Interleaving.Json.Printer
import Interleaving.Search.Basic

/-!
# Messages to a viewer

What a viewer of graphs is told about a run, as a JSON text. The graph is a JSON text already. It is
put in as it is written, numbers and escapes unchanged; only the white space between its tokens
goes, and characters that a page would take for markup are escaped.
-/

namespace Interleaving.Viewer

/-- What a viewer is told about a run. -/
structure Message where
  index : Int
  status : String
  events : Int
  /-- The hash of the graph; left out when it is empty. -/
  hash : String
  newGraph : Bool
  /-- The graph as a JSON text; left out when it is empty. -/
  graph : String
deriving DecidableEq

/-- The message about a run. -/
def Message.ofIteration (it : Search.Iteration) : Message :=
  { index := it.index, status := it.status.name, events := it.events, hash := it.hash,
    newGraph := it.newGraph, graph := it.graph }

/-- A character of a JSON text that may go into a page. -/
def forPage (c : Char) : List Char :=
  if c = '<' || c = '>' || c = '&' || c = '\u2028' || c = '\u2029' then Json.escapeChar c else [c]

/-- Takes the white space between the tokens of a JSON text away. `inText` tells whether the place
is within quotes, `escaped` whether a backslash stands before it. -/
def tighten (inText escaped : Bool) : List Char → List Char
  | [] => []
  | c :: cs =>
    if !inText && Json.isSpace c then tighten false false cs
    else
      let quote := c = '"' && !escaped
      forPage c ++ tighten (if quote then !inText else inText) (inText && c = '\\' && !escaped) cs

/-- The text of a message; none if its graph is no JSON text. -/
def Message.text? (m : Message) : Option String :=
  let head := Json.write (.object ([("index", Json.ofInt m.index), ("status", .text m.status),
    ("events", .ofInt m.events)] ++ (if m.hash = "" then [] else [("hash", Json.text m.hash)]) ++
    [("new_graph", .bool m.newGraph)]))
  if m.graph = "" then some (String.ofList head)
  else
    (Json.parse? m.graph).map fun _ =>
      String.ofList (head.dropLast ++ ",\"graph\":".toList ++
        tighten false false m.graph.toList ++ ['\x7d'])

end Interleaving.Viewer
