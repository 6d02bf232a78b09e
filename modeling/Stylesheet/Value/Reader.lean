import Stylesheet.Value.Basic

/-!
# Reading values

A reference is an at-sign and a name: a letter or an underscore, then letters, numerals,
underscores and hyphens as far as they go. An at-sign without a name after it is text, and so is
one that is glued to a word before it, as in `user@host`.

A hole is an at-sign, an opening brace, and everything up to the next closing brace.
-/

namespace Stylesheet.Value

/-- Whether a name may start with the character. -/
def startsName (c : Char) : Bool := Text.isLetter c || c == '_'

/-- Whether a name may go on with the character. -/
def continuesName (c : Char) : Bool := Text.isAlphanumeric c || c == '_' || c == '-'

/-- A text piece, unless it has no characters. -/
def textPart (cs : List Char) : List Part :=
  if cs.isEmpty then [] else [.text (String.ofList cs)]

/-- Take a value apart. `before` holds the text since the last reference, and `glued` says
whether a word runs up to here since the last at-sign. -/
def scan (before : List Char) (glued : Bool) (cs : List Char) : List Part :=
  match cs with
  | [] => textPart before
  | c :: rest =>
    if c = '@' then
      match rest with
      | [] => textPart (before ++ ['@'])
      | d :: more =>
        if startsName d && !glued then
          textPart before ++
            .reference (String.ofList ('@' :: d :: more.takeWhile continuesName)) ::
            scan [] false (more.dropWhile continuesName)
        else scan (before ++ ['@']) false (d :: more)
    else scan (before ++ [c]) (continuesName c) rest
termination_by cs.length
decreasing_by
  · have := (List.dropWhile_suffix continuesName (l := more)).length_le
    simp only [List.length_cons]
    omega
  · simp
  · simp

/-- Read the value of a declaration. -/
def read (source : String) : Value := { parts := scan [] false source.toList }

/-- Take a text with holes apart. `before` holds the text since the last hole, and `name` the name
so far of a hole that was opened. A hole that is not closed is text. -/
def scanHoles (before : List Char) (name : Option (List Char)) (cs : List Char) : List Part :=
  match name, cs with
  | none, [] => textPart before
  | none, '@' :: '\x7b' :: rest => scanHoles before (some []) rest
  | none, c :: rest => scanHoles (before ++ [c]) none rest
  | some name, [] => textPart (before ++ '@' :: '\x7b' :: name)
  | some name, '\x7d' :: rest =>
    textPart before ++ .reference (String.ofList ('@' :: name)) :: scanHoles [] none rest
  | some name, c :: rest => scanHoles before (some (name ++ [c])) rest

/-- Read a text in which variables are written as holes. -/
def readHoles (source : String) : Value := { parts := scanHoles [] none source.toList }

end Stylesheet.Value
