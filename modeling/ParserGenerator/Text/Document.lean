/-!
# Texts in files

A file holds text in UTF-8. However its lines end, in the text they end in line feeds. Some texts may
begin with a byte order mark that does not belong to them.
-/

namespace ParserGenerator.Document

/-- Line feeds in place of carriage returns and of carriage returns with line feeds. -/
def unifyLines : List Char → List Char
  | [] => []
  | '\r' :: '\n' :: cs => '\n' :: unifyLines cs
  | c :: cs => (if c = '\r' then '\n' else c) :: unifyLines cs

/-- The text of a file, unless its bytes are no UTF-8. -/
def decode? (bytes : ByteArray) : Option String :=
  (String.fromUTF8? bytes).map fun s => String.ofList (unifyLines s.toList)

/-- The byte order mark. -/
def mark : List UInt8 := [0xef, 0xbb, 0xbf]

/-- The bytes behind a byte order mark. A file that ends within the mark holds nothing else. -/
def withoutMark (bytes : ByteArray) : ByteArray :=
  if bytes.toList.isPrefixOf mark then .empty
  else if mark.isPrefixOf bytes.toList then bytes.extract mark.length bytes.size
  else bytes

end ParserGenerator.Document
