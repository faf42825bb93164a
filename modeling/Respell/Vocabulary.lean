/-
The vocabulary: closed tables from the words of the dialect to the host language's spelling of them. Words are matched
whole and exactly, so `Rakh` and `rakhna` are no keywords.

Three tables are words on their own: `keywords`; `callees`, which count only where they are called; and `members`,
which count only after a member dot. The remaining words have a meaning in context: an import line is spelled
`le ... se '...'`, `warna agar` is one branch of a conditional, and `async_kaam` marks a function.
-/
import Respell.Text.Bytes

namespace Respell.Vocabulary

/-- words of the dialect with their host spelling -/
abbrev Table := List (String × String)

def Table.find? (table : Table) (word : Bytes) : Option String :=
  (List.find? (fun entry => utf8 entry.1 == word) table).map (·.2)

/-- words that are always spelled anew -/
def keywords : Table :=
  [("rakh", "let"), ("tay", "const"), ("asthir", "var"), ("agar", "if"), ("warna", "else"), ("liye", "for"),
   ("jab_tak", "while"), ("kaam", "function"), ("de", "return"), ("varg", "class"), ("sach", "true"),
   ("jhoot", "false"), ("chhodo", "continue"), ("tod", "break"), ("ye", "this"), ("intezar", "await"),
   ("koshish", "try"), ("pakad", "catch"), ("akhir", "finally"), ("fek", "throw"), ("naya", "new"),
   ("bhej", "export")]

/-- names of event and query methods -/
def members : Table :=
  [("ghatevent", "addEventListener"), ("hatevent", "removeEventListener"), ("query", "querySelector"),
   ("queryAll", "querySelectorAll")]

/-- names that are spelled anew where they are called, outside a member access -/
def callees : Table :=
  members ++
  [("keys", "Object.keys"), ("values", "Object.values"), ("entries", "Object.entries"), ("dikha", "console.log")]

/-- the word for "else", which joins with a following `ifWord` -/
def elseWord : Bytes := utf8 "warna"

def ifWord : Bytes := utf8 "agar"

/-- the mark of an asynchronous function -/
def asyncWord : Bytes := utf8 "async_kaam"

/-- opens an import line -/
def importWord : Bytes := utf8 "le"

/-- stands between the bindings and the module of an import line -/
def fromWord : Bytes := utf8 "se"

/-- the attribute name, with its equals sign, that is spelled anew inside a tag -/
def classMark : Bytes := utf8 "class="

def hostClassMark : String := "className="

end Respell.Vocabulary
