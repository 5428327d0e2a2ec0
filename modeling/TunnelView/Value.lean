import TunnelView.Number
import TunnelView.Text.Quoted

/-!
# Values of JSON documents

Reports, scripts and the details of a status hold values of any shape. An object keeps the order of
its keys. Nothing is decided by a value's text except where a text is asked for: `display` shows a
value inside a message, `literal` the same with texts in quotes. A value with a number in it that has
no text has none either (`hasText`), and `display?` tells the two apart.

Key definitions: `Value`, `Value.find?`, `Value.truth`, `Value.agrees`, `Value.hasText`,
`Value.literal`, `Value.display`, `Value.display?`, `insertField`.
-/

namespace TunnelView

/-- A JSON value. -/
inductive Value where
  | null
  | bool (b : Bool)
  | number (n : Number)
  | text (s : String)
  | list (items : List Value)
  | object (fields : List (String × Value))

namespace Value

instance : Inhabited Value := ⟨.null⟩

/-- The name of a value's kind, as messages have it. -/
def kind : Value → String
  | .null => "NoneType"
  | .bool _ => "bool"
  | .number (.int _) => "int"
  | .number (.double _) => "float"
  | .text _ => "str"
  | .list _ => "list"
  | .object _ => "dict"

/-- Whether nothing is given. -/
def isNull : Value → Bool
  | .null => true
  | _ => false

/-- What is under a key. -/
def find? (fields : List (String × Value)) (key : String) : Option Value :=
  (fields.find? (·.1 == key)).map (·.2)

/-- What is under a key, or null. -/
def get (fields : List (String × Value)) (key : String) : Value := (find? fields key).getD .null

/-- Whether a value counts as true: what is empty, zero or null does not. -/
def truth : Value → Bool
  | .null => false
  | .bool b => b
  | .number n => n.truth
  | .text s => !s.isEmpty
  | .list items => !items.isEmpty
  | .object fields => !fields.isEmpty

/-- The number that a value counts as: truth values count as one and zero. -/
def asNumber? : Value → Option Number
  | .number n => some n
  | .bool b => some (.int (if b then 1 else 0))
  | _ => none

/-- Whether a value counts as a number at the place of `n`. -/
def agreesNumber (n : Number) (v : Value) : Bool :=
  match v.asNumber? with
  | some m => n.agrees m
  | none => false

mutual

/-- Equality of values: numbers by their place, truth values as one and zero, objects in any order
of keys. -/
def agrees : Value → Value → Bool
  | .null, .null => true
  | .text a, .text b => a == b
  | .list a, .list b => agreesAll a b
  | .object a, .object b => a.length == b.length && agreesWithin a b
  | .bool a, b => agreesNumber (.int (if a then 1 else 0)) b
  | .number a, b => agreesNumber a b
  | _, _ => false

/-- Lists agree item by item. -/
def agreesAll : List Value → List Value → Bool
  | [], [] => true
  | a :: as, b :: bs => agrees a b && agreesAll as bs
  | _, _ => false

/-- Each field has an equal one under the same key on the other side. -/
def agreesWithin : List (String × Value) → List (String × Value) → Bool
  | [], _ => true
  | (key, a) :: rest, fields =>
    (match find? fields key with
      | some b => agrees a b
      | none => false)
    && agreesWithin rest fields

end

mutual

/-- Whether a value has a text: all numbers in it have one. -/
def hasText : Value → Bool
  | .number n => n.hasText
  | .list items => allHaveText items
  | .object fields => fieldsHaveText fields
  | _ => true

/-- Whether all items of a list have texts. -/
def allHaveText : List Value → Bool
  | [] => true
  | v :: rest => hasText v && allHaveText rest

/-- Whether the values of all fields of an object have texts. -/
def fieldsHaveText : List (String × Value) → Bool
  | [] => true
  | (_, v) :: rest => hasText v && fieldsHaveText rest

end

mutual

/-- A value as text, with texts in quotes. -/
def literal : Value → String
  | .null => "None"
  | .bool true => "True"
  | .bool false => "False"
  | .number n => n.text
  | .text s => Text.quoted s
  | .list items => "[" ++ ", ".intercalate (literalItems items) ++ "]"
  | .object fields => "\x7b" ++ ", ".intercalate (literalFields fields) ++ "\x7d"

/-- The items of a list as texts. -/
def literalItems : List Value → List String
  | [] => []
  | v :: rest => literal v :: literalItems rest

/-- The fields of an object as texts. -/
def literalFields : List (String × Value) → List String
  | [] => []
  | (key, v) :: rest => (Text.quoted key ++ ": " ++ literal v) :: literalFields rest

end

/-- A value as it stands in a message: a text as it is, all else as its literal. -/
def display : Value → String
  | .text s => s
  | v => v.literal

/-- The text of a value, if it has one. -/
def display? (v : Value) : Option String := if v.hasText then some v.display else none

/-- A wording with the text of a value in it, or what comes instead. -/
def worded (v : Value) (wording : String) : String := if v.hasText then wording else Number.noText

end Value

/-- Puts a field into an object: a key that is there keeps its place and gets the new value. -/
def insertField (fields : List (String × Value)) (key : String) (v : Value) :
    List (String × Value) :=
  if fields.any (·.1 == key) then fields.map fun field => if field.1 == key then (key, v) else field
  else fields ++ [(key, v)]

end TunnelView
