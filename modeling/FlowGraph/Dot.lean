import FlowGraph.Graph.Listing

/-! # Drawings

A graph is drawn in the DOT language: a node for each block in the layout, with its labels and
instructions, and an arrow for each edge, in a colour that tells its kind. Everything put between
quotes is escaped, so that no text can end the quotes it stands in. -/

namespace FlowGraph

/-! ## Quoted text -/

namespace Dot

/-- Writes `w` in place of every `c`. -/
def replace (c : Char) (w s : List Char) : List Char :=
  s.flatMap fun d => if d = c then w else [d]

/-- What is written in place of a character that cannot stand between quotes. Backslashes come
first, so that those written for other characters stay single. Carriage returns are left out. -/
def replacements : List (Char × List Char) :=
  [('\\', ['\\', '\\']), ('"', ['\\', '"']), ('\n', ['\\', 'n']), ('\r', []),
    ('<', ['\\', '<']), ('>', ['\\', '>'])]

def escapeChars (s : List Char) : List Char :=
  replacements.foldl (fun s (c, w) => replace c w s) s

def escape (s : String) : String := String.ofList (escapeChars s.toList)

def color : EdgeKind → String
  | .fallthru => "black"
  | .branch => "blue"
  | .except => "purple"
  | .ret => "red"

/-- Attributes by which entry and exit stand out. -/
def nodeStyle (b : BlockId) : String :=
  if b = .entry then ", style=filled, fillcolor=lightgreen"
  else if b = .exit then ", style=filled, fillcolor=lightcoral"
  else ""

end Dot

/-! ## Graphs -/

namespace Graph

/-- The node of a block; its text is set flush left, a line for each instruction. -/
def dotNode (g : Graph) (b : BlockId) : Except Fault String := do
  let heading ← g.heading b
  let data ← g.block b
  let lines := String.join (data.instrs.map fun i => Dot.escape i.text ++ "\\l")
  return "    " ++ b.text ++ " [label=\"" ++ heading ++ "\\l" ++ lines ++ "\"" ++ Dot.nodeStyle b ++
    "];\n"

def dotArrow (edge : Edge) : String :=
  "    " ++ edge.src.text ++ " -> " ++ edge.dst.text ++ " [label=\"" ++ edge.kind.name ++
    "\", color=" ++ Dot.color edge.kind ++ "];\n"

def dotArrows (g : Graph) (b : BlockId) : Except Fault String := do
  return String.join ((← g.outEdges b).map fun (_, edge) => dotArrow edge)

/-- The drawing of a graph, under a title if one is given. -/
def dot (g : Graph) (title : Option String) : Except Fault String := do
  let heading :=
    match title with
    | some t => "    label=\"CFG: " ++ Dot.escape t ++ "\";\n"
    | none => ""
  let nodes ← g.eachBlock g.dotNode
  let arrows ← g.eachBlock g.dotArrows
  return "digraph CFG \x7b\n" ++ heading ++ "    labelloc=t;\n" ++
    "    node [shape=box, fontname=\"Courier\", fontsize=10];\n" ++
    "    edge [fontname=\"Courier\", fontsize=9];\n\n" ++ nodes ++ "\n" ++ arrows ++ "\x7d\n"

end Graph

end FlowGraph
