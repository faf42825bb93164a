/-
Whether a text holds markup: a `<` with a letter directly after it, anywhere, comments and strings included. The file
extension of the output follows from it.
-/
import Respell.Text.Bytes

namespace Respell

/-- a `<` directly followed by a letter -/
def holdsMarkup (src : Bytes) : Bool :=
  (List.range src.size).any fun i => src[i]? == some (ascii '<') && src[i + 1]?.any isLetter

def outputExtension (src : Bytes) : String := if holdsMarkup src then "tsx" else "ts"

end Respell
