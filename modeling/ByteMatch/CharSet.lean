import ByteMatch.Automaton.Align
import ByteMatch.Automaton.Merge
import ByteMatch.Automaton.Unfold
import ByteMatch.Encoding

/-!
# ByteMatch.CharSet

Sets of characters of one encoding, kept as automata over the bytes of the characters.

The automaton of a set is a tree while sets are combined: each state but the root has one parent.
It is a graph, the smallest one, when it is stored or loaded.

* `CharSet`: encoding, states and form.
* `CharSet.accepts`: whether bytes are a character of the set.
* `CharSet.toTree`, `CharSet.toGraph`: the set in the other form.
-/

namespace ByteMatch

/-- Whether an automaton is a tree or may share states between paths. -/
inductive Form where
  | tree
  | graph
deriving DecidableEq, Repr

/-- A set of characters. -/
structure CharSet where
  encoding : Encoding
  states : Automaton
  form : Form
deriving DecidableEq

namespace CharSet

def empty (e : Encoding) : CharSet := ⟨e, #[], .tree⟩

def isEmpty (c : CharSet) : Bool := c.states.isEmpty

def size (c : CharSet) : Nat := c.states.size

def isTree (c : CharSet) : Bool := c.form = .tree

/-- Whether the bytes are a character of the set. -/
def accepts (c : CharSet) (bytes : List UInt8) : Bool := c.states.accepts bytes

/-- The set in tree form. An automaton of less than two states has both forms. -/
def toTree (c : CharSet) : CharSet :=
  match c.form with
  | .tree => c
  | .graph => { c with states := if c.size < 2 then c.states else c.states.unfold, form := .tree }

/-- The set as the smallest graph. An automaton of less than two states stays as it is, and one
that accepts nothing loses its states. -/
def toGraph (c : CharSet) : CharSet :=
  match c.form with
  | .graph => c
  | .tree =>
    if c.size < 2 then c
    else
      match c.states.merge? with
      | some states => { c with states, form := .graph }
      | none => { c with states := #[] }

end CharSet
end ByteMatch
