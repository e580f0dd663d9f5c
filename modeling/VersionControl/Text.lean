/-!
# Texts

Cutting a text at a character, at its end or after a known start. Every function is a recursion over the
characters, so that it can be reasoned about on the list.
-/

namespace VersionControl.Text

def startsWith (start text : String) : Bool := start.toList.isPrefixOf text.toList

theorem size_le_of_startsWith {start text : String} (h : startsWith start text = true) :
    start.utf8ByteSize ≤ text.utf8ByteSize := by
  obtain ⟨rest, h⟩ := List.isPrefixOf_iff_prefix.mp h
  have : text = start ++ String.ofList rest := String.toList_injective (by simp [h])
  rw [this]; simp

def dropStart (start text : String) : String := String.ofList (text.toList.drop start.length)

def endsWithChar (c : Char) (text : String) : Bool := text.toList.getLast? = some c

/-- The text up to the first `c`, which is all of it when there is none. -/
def beforeFirst (c : Char) (text : String) : String := String.ofList (text.toList.takeWhile (· ≠ c))

def trimEndWhile (p : Char → Bool) (text : String) : String :=
  String.ofList (text.toList.reverse.dropWhile p).reverse

/-- The pieces between the separators: one more than there are separators, and some may be empty. -/
def splitChars (sep : Char) : List Char → List (List Char)
  | [] => [[]]
  | c :: cs =>
    if c = sep then [] :: splitChars sep cs
    else match splitChars sep cs with
      | [] => [[c]]
      | piece :: pieces => (c :: piece) :: pieces

def split (sep : Char) (text : String) : List String :=
  (splitChars sep text.toList).map String.ofList

/-- What stands before each separator, the shortest first. -/
def beforeEachChars (sep : Char) : List Char → List (List Char)
  | [] => []
  | c :: cs =>
    let rest := (beforeEachChars sep cs).map (c :: ·)
    if c = sep then [] :: rest else rest

def beforeEach (sep : Char) (text : String) : List String :=
  (beforeEachChars sep text.toList).map String.ofList

end VersionControl.Text
