import ByteMatch.Encoding

/-!
# ByteMatch.CharSet.Error

Why two character sets cannot be combined, or bytes not be added to one.
-/

namespace ByteMatch

/-- Why an operation on character sets fails. -/
inductive CharSetError where
  | encodingMismatch (left right : Encoding)
  | invalidByteRange (first last : Nat)
deriving DecidableEq, Repr

namespace CharSetError

def message : CharSetError → String
  | encodingMismatch left right =>
    "can't combine classes for different encodings (" ++ left.name ++ " and " ++ right.name ++ ")"
  | invalidByteRange first last => s!"invalid byte range ({first} - {last})"

end CharSetError
end ByteMatch
