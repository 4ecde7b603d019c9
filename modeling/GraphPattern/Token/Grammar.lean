import GraphPattern.Token
import GraphPattern.Text.Characters

/-!
# GraphPattern — token grammar

A node is written `spec`, an edge `-spec->` or `<-spec-`, where the spec of an edge may be left
out. A spec is a name, a name and a type annotation, or a type annotation; an annotation is
`<Type>` or, without a type, `<>`. Names and types are runs of ASCII characters, and nothing may
stand between the parts.

* `Token.read?` — the token a text is, without the blanks around it.
* `NodeToken.text`, `EdgeToken.text` — a token as it is written.
-/

namespace GraphPattern

/-- A character of a name: an ASCII letter or digit, or an underscore. -/
def isNameChar (c : Char) : Bool :=
  c.isAlphanum || c == '_'

/-- A character of a type: that of a name, or a point or an exclamation mark. -/
def isTypeChar (c : Char) : Bool :=
  isNameChar c || c == '.' || c == '!'

/-- A text that can be a name. -/
def isName (s : String) : Bool :=
  !s.toList.isEmpty && s.toList.all isNameChar

namespace Token

/-- A type annotation that is all of the text; the inner `none` is the empty annotation. -/
def annotation? : List Char → Option (Option String)
  | '<' :: cs =>
    match cs.takeWhile isTypeChar, cs.dropWhile isTypeChar with
    | [], ['>'] => some none
    | t, ['>'] => some (some (String.ofList t))
    | _, _ => none
  | _ => none

/-- The name and the type of a spec that is all of the text. -/
def spec? (cs : List Char) : Option (Option String × Option String) :=
  match cs.takeWhile isNameChar, cs.dropWhile isNameChar with
  | [], rest => (annotation? rest).map (none, ·)
  | n, [] => some (some (String.ofList n), none)
  | n, rest => (annotation? rest).map (some (String.ofList n), ·)

/-- The spec of an edge, which may be left out. -/
def edgeSpec? (cs : List Char) : Option (Option String × Option String) :=
  if cs.isEmpty then some (none, none) else spec? cs

/-- What stands before the closing characters `close` of a text. -/
def before? (close cs : List Char) : Option (List Char) :=
  if close.isSuffixOf cs then some (cs.take (cs.length - close.length)) else none

/-- The node or edge a text without surrounding blanks is. -/
def readChars? : List Char → Option Token
  | '<' :: '-' :: cs => do
    let (name?, typeName?) ← edgeSpec? (← before? ['-'] cs)
    some (.edge { name?, typeName?, direction := .into })
  | '-' :: cs => do
    let (name?, typeName?) ← edgeSpec? (← before? ['-', '>'] cs)
    some (.edge { name?, typeName?, direction := .out })
  | cs => do
    let (name?, typeName?) ← spec? cs
    some (.node { name?, typeName? })

/-- The node or edge a text is. -/
def read? (s : String) : Option Token :=
  readChars? (Text.trimChars s.toList)

end Token

/-- A spec as it is written. An annotation without a type is only written where neither a name
nor a type is left to write. -/
def specText (name? typeName? : Option String) : String :=
  match name?, typeName? with
  | some n, none => n
  | some n, some t => n ++ "<" ++ t ++ ">"
  | none, some t => "<" ++ t ++ ">"
  | none, none => "<>"

/-- A node as it is written. -/
def NodeToken.text (t : NodeToken) : String :=
  specText t.name? t.typeName?

/-- An edge as it is written. -/
def EdgeToken.text (t : EdgeToken) : String :=
  match t.direction with
  | .out => "-" ++ specText t.name? t.typeName? ++ "->"
  | .into => "<-" ++ specText t.name? t.typeName? ++ "-"

end GraphPattern
