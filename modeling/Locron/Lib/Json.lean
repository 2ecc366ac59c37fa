import Mathlib.Data.Nat.Digits.Lemmas
import Mathlib.Tactic

set_option autoImplicit false

/-! # JSON values and their texts

JSON values with their compact text, and the number of bytes of that text.
-/

/-- A JSON value. Numbers are their text, and the fields of an object are in order. -/
inductive Json where
  | null
  | bool (value : Bool)
  | num (text : List Char)
  | str (value : List Char)
  | arr (items : List Json)
  | obj (fields : List (List Char × Json))

namespace Json

/-! ## Texts -/

def decimal (n : Nat) : List Char :=
  if n = 0 then ['0'] else (Nat.digits 10 n).reverse.map Nat.digitChar

/-- How a character stands in a string. -/
def escape (c : Char) : List Char :=
  if c = '\x22' then ['\\', '\x22']
  else if c = '\\' then ['\\', '\\']
  else if c.toNat = 8 then ['\\', 'b']
  else if c.toNat = 9 then ['\\', 't']
  else if c.toNat = 10 then ['\\', 'n']
  else if c.toNat = 12 then ['\\', 'f']
  else if c.toNat = 13 then ['\\', 'r']
  else if c.toNat < 32 then
    ['\\', 'u', '0', '0', Nat.digitChar (c.toNat / 16), Nat.digitChar (c.toNat % 16)]
  else [c]

def printStr (value : List Char) : List Char := '\x22' :: value.flatMap escape ++ ['\x22']

mutual

def print : Json → List Char
  | .null => ['n', 'u', 'l', 'l']
  | .bool true => ['t', 'r', 'u', 'e']
  | .bool false => ['f', 'a', 'l', 's', 'e']
  | .num text => text
  | .str value => printStr value
  | .arr items => '[' :: (printItems items).drop 1 ++ [']']
  | .obj fields => '\x7b' :: (printFields fields).drop 1 ++ ['\x7d']

/-- Every item after a comma. -/
def printItems : List Json → List Char
  | [] => []
  | item :: items => ',' :: print item ++ printItems items

/-- Every field after a comma. -/
def printFields : List (List Char × Json) → List Char
  | [] => []
  | (key, value) :: fields => ',' :: printStr key ++ ':' :: print value ++ printFields fields

end

/-- The number of bytes in UTF-8. -/
def utf8Length (text : List Char) : Nat := (text.map Char.utf8Size).sum

/-- The number of bytes of the text. -/
def size (value : Json) : Nat := utf8Length (print value)

end Json
