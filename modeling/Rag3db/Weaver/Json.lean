import Mathlib

namespace Rag3db.Weaver

/-- A JSON value. A number that is no integer is kept as its text. -/
inductive Json
  | null
  | bool (b : Bool)
  | int (n : Int)
  | float (text : String)
  | str (s : String)
  | arr (items : List Json)
  | obj (fields : List (String × Json))

namespace Json

def get : Json → String → Option Json
  | .obj fields, key => fields.lookup key
  | _, _ => none

def asStr : Json → Option String
  | .str s => some s
  | _ => none

def insertField (key : String) (v : Json) : List (String × Json) → List (String × Json)
  | [] => [(key, v)]
  | (k, w) :: fields => if k = key then (key, v) :: fields else (k, w) :: insertField key v fields

private def hexDigit (n : Nat) : Char := "0123456789abcdef".toList.getD n '0'

def escapeChar (c : Char) : List Char :=
  if c = '\x22' then ['\x5c', '\x22']
  else if c = '\x5c' then ['\x5c', '\x5c']
  else if c = '\n' then ['\x5c', 'n']
  else if c = '\r' then ['\x5c', 'r']
  else if c = '\t' then ['\x5c', 't']
  else if c.toNat = 8 then ['\x5c', 'b']
  else if c.toNat = 12 then ['\x5c', 'f']
  else if c.toNat < 32 then ['\x5c', 'u', '0', '0', hexDigit (c.toNat / 16), hexDigit (c.toNat % 16)]
  else [c]

def quoted (s : String) : List Char := '\x22' :: s.toList.flatMap escapeChar ++ ['\x22']

mutual

def text : Json → List Char
  | .null => "null".toList
  | .bool b => if b then "true".toList else "false".toList
  | .int n => (toString n).toList
  | .float t => t.toList
  | .str s => quoted s
  | .arr items => '[' :: textItems items ++ [']']
  | .obj fields => '\x7b' :: textFields fields ++ ['\x7d']

def textItems : List Json → List Char
  | [] => []
  | [v] => v.text
  | v :: vs => v.text ++ ',' :: textItems vs

def textFields : List (String × Json) → List Char
  | [] => []
  | [(k, v)] => quoted k ++ ':' :: v.text
  | (k, v) :: fields => quoted k ++ ':' :: v.text ++ ',' :: textFields fields

end

end Json

end Rag3db.Weaver
