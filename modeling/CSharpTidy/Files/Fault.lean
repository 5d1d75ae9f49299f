/- Why a file cannot be read. -/
namespace CSharpTidy

inductive FileFault where
  | notFound | notDirectory | isDirectory | invalidText
  deriving DecidableEq, Repr

def FileFault.message : FileFault → String
  | .notFound => "No such file or directory (os error 2)"
  | .notDirectory => "Not a directory (os error 20)"
  | .isDirectory => "Is a directory (os error 21)"
  | .invalidText => "stream did not contain valid UTF-8"

def decodeText (bytes : ByteArray) : Except FileFault (List Char) :=
  match String.fromUTF8? bytes with
  | some text => .ok text.toList
  | none => .error .invalidText

def encodeText (text : List Char) : ByteArray :=
  (String.ofList text).toUTF8

end CSharpTidy
