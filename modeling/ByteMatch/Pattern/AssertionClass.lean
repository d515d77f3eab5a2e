/-!
# ByteMatch.Pattern.AssertionClass

The character classes that assertions need beside those of the pattern, and their names.

* `AssertionClass.ofName?`: the class with a name.
-/

namespace ByteMatch

/-- Values of the grapheme cluster break property, and unions of values. -/
inductive GraphemeBreak where
  | cr
  | lf
  | controlCrLf
  | l
  | lVLvLvt
  | lvV
  | vT
  | lvtT
  | t
  | regionalIndicator
  | extend
  | spacingMark
  | prepend
deriving DecidableEq, Repr

namespace GraphemeBreak

def name : GraphemeBreak → String
  | cr => "cr"
  | lf => "lf"
  | controlCrLf => "control_cr_lf"
  | l => "l"
  | lVLvLvt => "l_v_lv_lvt"
  | lvV => "lv_v"
  | vT => "v_t"
  | lvtT => "lvt_t"
  | t => "t"
  | regionalIndicator => "regional_indicator"
  | extend => "extend"
  | spacingMark => "spacingmark"
  | prepend => "prepend"

def all : List GraphemeBreak :=
  [cr, lf, controlCrLf, l, lVLvLvt, lvV, vT, lvtT, t, regionalIndicator, extend, spacingMark,
    prepend]

end GraphemeBreak

/-- A class that some assertion needs. -/
inductive AssertionClass where
  | newline
  | word
  | notWord
  | any
  | grapheme (value : GraphemeBreak)
deriving DecidableEq, Repr

namespace AssertionClass

def name : AssertionClass → String
  | newline => "newline"
  | word => "word"
  | notWord => "not_word"
  | any => "any"
  | grapheme value => "grapheme_cluster_break=" ++ value.name

def all : List AssertionClass := [newline, word, notWord, any] ++ GraphemeBreak.all.map grapheme

def ofName? (name : String) : Option AssertionClass := all.find? (·.name == name)

end AssertionClass
end ByteMatch
