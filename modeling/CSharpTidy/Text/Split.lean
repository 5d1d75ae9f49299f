import CSharpTidy.Text.Blank

/- Cutting text into words and lines. -/
namespace CSharpTidy.Text

/-- `word` holds the word so far, last character first. -/
def wordsFrom (word : List Char) : List Char → List (List Char)
  | [] => if word.isEmpty then [] else [word.reverse]
  | c :: rest =>
      if !isBlank c then wordsFrom (c :: word) rest
      else if word.isEmpty then wordsFrom [] rest
      else word.reverse :: wordsFrom [] rest

def words (s : List Char) : List (List Char) :=
  wordsFrom [] s

/-- The parts between occurrences of a character, of which there is one more than of it. -/
def splitAt (separator : Char) : List Char → List (List Char)
  | [] => [[]]
  | c :: rest =>
      if c == separator then [] :: splitAt separator rest
      else
        match splitAt separator rest with
        | part :: parts => (c :: part) :: parts
        | [] => [[c]]

end CSharpTidy.Text
