/-!
# Escapes of terminals

An escape is a piece of a text that a terminal acts on instead of showing it: a control sequence,
which sets a colour for instance, or a link, of which only the text inside is shown. A text is as
wide as what is left of it without escapes.

Key definitions: `Escape.control?`, `Escape.link?`, `Escape.occurs`, `Escape.strip`,
`Escape.hidden`.
-/

namespace TunnelView.Text.Escape

/-- The character that every escape begins with. -/
def lead : Char := '\x1b'

/-- Whether a character lies in a range, ends included. -/
def isWithin (low high : Nat) (c : Char) : Bool := low ≤ c.toNat && c.toNat ≤ high

/-- What stands behind a beginning, if the text has it. -/
def behind? (beginning cs : List Char) : Option (List Char) :=
  if beginning.isPrefixOf cs then some (cs.drop beginning.length) else none

/-- What stands behind the control sequence at the front: a bracket, parameters, marks, and a
character that ends it. -/
def control? (cs : List Char) : Option (List Char) := do
  let rest ← behind? [lead, '['] cs
  match (rest.dropWhile (isWithin 0x30 0x3f)).dropWhile (isWithin 0x20 0x2f) with
  | c :: rest => if isWithin 0x40 0x7e c then some rest else none
  | [] => none

/-- Whether a character can be in the name or value of a setting. -/
def isWord (c : Char) : Bool := c.isAlphanum || c = '_'

/-- Settings of a link: a name, `=` and a value each, perhaps with a colon behind. So far there are
`n` characters of a name or a value. Without a colon the end of a value is the next name. -/
def isSettings (inValue : Bool) (n : Nat) : List Char → Bool
  | [] => if inValue then 0 < n else n = 0
  | ':' :: rest => inValue && 0 < n && isSettings false 0 rest
  | '=' :: rest => (if inValue then 1 < n else 0 < n) && isSettings true 0 rest
  | c :: rest => isWord c && isSettings inValue (n + 1) rest

/-- The characters before the next escape, at least one, and the rest. -/
def run? (cs : List Char) : Option (List Char × List Char) :=
  let run := cs.takeWhile (· != lead)
  if run.isEmpty then none else some (run, cs.drop run.length)

/-- The text of the link at the front, and what stands behind it. -/
def link? (cs : List Char) : Option (List Char × List Char) := do
  let rest ← behind? [lead, ']', '8', ';'] cs
  let settings := rest.takeWhile (· != ';')
  let rest ← behind? [';'] (rest.drop settings.length)
  if isSettings false 0 settings then
    let (_, rest) ← run? rest
    let rest ← behind? [lead, '\\'] rest
    let (text, rest) ← run? rest
    let rest ← behind? [lead, ']', '8', ';', ';', lead, '\\'] rest
    return (text, rest)
  else none

/-- What the escape at the front shows, and what stands behind it. -/
def next? (cs : List Char) : Option (List Char × List Char) :=
  ((control? cs).map fun rest => ([], rest)).or (link? cs)

/-- Whether there is an escape in a text. -/
def occurs : List Char → Bool
  | [] => false
  | c :: rest => (next? (c :: rest)).isSome || occurs rest

/-- What is shown of a text that has no more than so many characters. -/
def stripWithin : Nat → List Char → List Char
  | 0, _ => []
  | _ + 1, [] => []
  | n + 1, c :: rest =>
    match next? (c :: rest) with
    | some (shown, rest) => shown ++ stripWithin n rest
    | none => c :: stripWithin n rest

/-- What is shown of a text. -/
def strip (cs : List Char) : List Char := stripWithin cs.length cs

/-- How many characters of a text are not shown. -/
def hidden (cs : List Char) : Nat := cs.length - (strip cs).length

end TunnelView.Text.Escape
