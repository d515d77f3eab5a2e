import ByteMatch.ByteSet.Text
import ByteMatch.CharSet

/-!
# ByteMatch.CharSet.Text

Two written forms of the automaton of a character set.

* `CharSet.listing`: a line for each transition and each leaf.
* `CharSet.graphDefinition`: the tables of nodes and edges that graph viewers read.
-/

namespace ByteMatch
namespace CharSet

def formName : Form → String
  | .tree => "tree"
  | .graph => "graph"

/-- The lines of one state: its transitions in the order of their labels, then its leaf. -/
def stateLines (q : Nat) (s : State) : List String :=
  let column := Text.decimalColumn 5 q
  let transitions := s.transitions.entries.map fun (code, next) =>
    column ++ ": [" ++ code.listing ++ "] -> " ++ toString next ++ "\n"
  match s.leaf with
  | some leaf => transitions ++ [column ++ ": [" ++ leaf.listing ++ "] leaf\n"]
  | none => transitions

/-- A heading, and the lines of all states. -/
def listing (c : CharSet) : String :=
  let heading :=
    c.encoding.name ++ " class, " ++ toString c.size ++ " states, " ++ formName c.form ++ "\n"
  heading ++ String.join (c.states.toList.zipIdx.flatMap fun (s, q) => stateLines q s)

def quoted (s : String) : String := "\"" ++ s ++ "\""

def nodeLine (name group : String) : String :=
  quoted name ++ "," ++ quoted name ++ "," ++ quoted group ++ "\n"

def edgeLine (source target : String) (code : ByteSet) : String :=
  quoted source ++ "," ++ quoted target ++ "," ++ quoted code.listing ++ ",true\n"

/-- The tables of nodes and edges. Each leaf is a node of its own, named after its state. -/
def graphDefinition (c : CharSet) : String :=
  let numbered := c.states.toList.zipIdx
  let leaves := c.states.leaves
  String.join (
    ["nodedef> name VARCHAR,label VARCHAR,Modularity Class VARCHAR\n"] ++
    (numbered.map fun (_, q) => nodeLine (toString q) "1") ++
    (leaves.map fun (q, _) => nodeLine (toString q ++ "L") "2") ++
    ["edgedef> node1,node2,label VARCHAR,directed BOOLEAN\n"] ++
    (numbered.flatMap fun (s, q) => s.transitions.entries.map fun (code, next) =>
      edgeLine (toString q) (toString next) code) ++
    (leaves.map fun (q, leaf) => edgeLine (toString q) (toString q ++ "L") leaf))

end CharSet
end ByteMatch
