/-!
# Splitting and joining

Text taken apart at a character, freed from a character at its ends, changed at each copy of a
piece, or put behind its context.
-/

namespace EtlFlow.Text

/-- The pieces of a string between the copies of a character. -/
def splitAt (c : Char) (s : String) : List String := (s.toList.splitOn c).map String.ofList

/-- The string without the copies of a character at its front. -/
def dropFront (c : Char) (s : String) : String := String.ofList (s.toList.dropWhile (· == c))

/-- The string without the copies of a character at its end. -/
def dropBack (c : Char) (s : String) : String :=
  String.ofList (s.toList.reverse.dropWhile (· == c)).reverse

/-- The string without the copies of a character at its ends. -/
def dropAround (c : Char) (s : String) : String := dropBack c (dropFront c s)

/-- The string up to the first copy of a character and the string behind it. -/
def splitFirst? (c : Char) (s : String) : Option (String × String) :=
  match s.toList.dropWhile (· != c) with
  | [] => none
  | _ :: r => some (String.ofList (s.toList.takeWhile (· != c)), String.ofList r)

/-- The string up to the last copy of a character and the string behind it. -/
def splitLast? (c : Char) (s : String) : Option (String × String) :=
  match s.toList.reverse.dropWhile (· != c) with
  | [] => none
  | _ :: r =>
    some (String.ofList r.reverse, String.ofList (s.toList.reverse.takeWhile (· != c)).reverse)

/-- The string behind `front`, where it starts with that. -/
def afterFront? (front s : String) : Option String :=
  if front.toList.isPrefixOf s.toList then some (String.ofList (s.toList.drop front.length)) else none

/-- The string with `piece` in place of every copy of a character. -/
def replaceChar (c : Char) (piece : String) (s : String) : String :=
  String.ofList (s.toList.flatMap fun d => if d = c then piece.toList else [d])

/-- A message behind the context that it arose in. -/
def inContext (context message : String) : String := context ++ ": " ++ message

end EtlFlow.Text
