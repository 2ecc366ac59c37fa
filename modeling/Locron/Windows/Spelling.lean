import Mathlib.Data.List.DropRight
import Locron.Lib.Fallible
import Locron.Lib.Json
import Locron.Lib.Text

set_option autoImplicit false

/-! # Spellings

The checks of hashes, versions, account identifiers and paths that the records of a maintenance
transaction are made of. They look at the text only.
-/

namespace Locron.Windows

open Except (ensure forEach)

abbrev Chars := List Char

/-! ## Numbers and identifiers -/

def lowerHex (c : Char) : Bool := c.isDigit || (decide ('a' ≤ c) && decide (c ≤ 'f'))

def fixedHex (value : Chars) (length : Nat) : Bool := value.length == length && value.all lowerHex

def validHash (hash : Chars) : Bool := fixedHex hash 64

def number : Chars → Nat := Text.decimal Char.toNat

/-- Decimal digits without a leading zero, of a number below the bound. -/
def canonicalNumber (bound : Nat) (digits : Chars) : Bool :=
  !digits.isEmpty && digits.all Char.isDigit && (digits.length == 1 || digits.head? != some '0') &&
    decide (number digits < bound)

def stableVersion (version : Chars) : Except String Unit := do
  let parts := version.splitOn '.'
  ensure (parts.length = 3) "expected a stable release version"
  ensure (∀ part ∈ parts, canonicalNumber (2 ^ 64) part = true)
    "expected a canonical stable release version"
  ensure (0 < number (parts.getD 0 []) ∨ 10 ≤ number (parts.getD 1 []))
    "release predates Windows support"

/-- A UUID other than zero: its digits alone or with hyphens, which may stand in braces or as a
URN. -/
def isUuid (text : Chars) : Bool :=
  let hyphenated :=
    if text.length = 38 ∧ text.head? = some '\x7b' ∧ text.getLast? = some '\x7d' then
      text.tail.dropLast
    else if text.length = 45 ∧ text.take 9 = "urn:uuid:".toList then text.drop 9
    else text
  let grouped := (hyphenated.splitOn '-').map List.length = [8, 4, 4, 4, 12]
  let digits := if grouped then hyphenated.filter (· ≠ '-') else text
  digits.length == 32 && (digits.map Char.toLower).all lowerHex && digits.any (· != '0')

def canonicalUuid (text : Chars) : Bool :=
  (text.splitOn '-').map List.length == [8, 4, 4, 4, 12] &&
    (text.splitOn '-').all (fun part => part.all lowerHex) &&
      text.any (fun c => c != '0' && c != '-')

def validateSid (value : Chars) : Except String Unit :=
  match value.splitOn '-' with
  | first :: second :: rest => do
      ensure (Json.utf8Length value ≤ 184 ∧ first = ['S'] ∧ second = ['1'])
        "maintenance SID is not canonical"
      match rest with
      | [] => throw "maintenance SID has no authority"
      | authority :: parts => do
          ensure (canonicalNumber (2 ^ 48) authority = true)
            "maintenance SID authority is not canonical"
          ensure (∀ part ∈ parts, canonicalNumber (2 ^ 32) part = true)
            "maintenance SID subauthority is not canonical"
          ensure (1 ≤ parts.length ∧ parts.length ≤ 15)
            "maintenance SID subauthority count is invalid"
  | _ => throw "maintenance SID is not canonical"

/-! ## Paths -/

/-- The prefix of a path that is taken literally. -/
def verbatim : Chars := ['\\', '\\', '?', '\\']

def isControl (c : Char) : Bool := c.toNat < 32 || (127 ≤ c.toNat && c.toNat < 160)

def utf16Length (text : Chars) : Nat := (text.map fun c => if c.toNat < 65536 then 1 else 2).sum

def eqIgnoreAsciiCase : Chars → Chars → Bool := Text.eqIgnoreCase Char.toLower

/-- A component that is no alias of another one. -/
def plainComponent (component : Chars) : Bool :=
  component.isEmpty ||
    (component != ['.'] && component != ['.', '.'] && component.getLast? != some '.' &&
      component.getLast? != some ' ' &&
      component.all fun c => decide (c ∉ ['?', '*', '\x22', '<', '>', '|']))

/-- A serial or parallel port. -/
def serialDevice (stem : Chars) : Bool :=
  match (['C', 'O', 'M'].isPrefixOf? stem).or (['L', 'P', 'T'].isPrefixOf? stem) with
  | some [digit] => ['1', '2', '3', '4', '5', '6', '7', '8', '9', '¹', '²', '³'].contains digit
  | _ => false

def reservedComponent (component : Chars) : Bool :=
  let stem := (Text.before '.' component).map Char.toUpper
  [['C', 'O', 'N'], ['P', 'R', 'N'], ['A', 'U', 'X'], ['N', 'U', 'L']].contains stem ||
    serialDevice stem

def backslash (c : Char) : Char := if c = '/' then '\\' else c

def trimEnd (path : Chars) : Chars := path.rdropWhile (· == '\\')

/-- The canonical spelling of a path on a local drive. -/
def localPath (path : Chars) : Except String Chars :=
  match (verbatim.isPrefixOf? path).getD path with
  | drive :: mark :: separator :: tail => do
      ensure (drive.isAlpha = true ∧ mark = ':' ∧ (separator = '\\' ∨ separator = '/') ∧
        ':' ∉ tail ∧
          ∀ c ∈ tail, isControl c = false)
        "expected an absolute local-drive path without alternate streams"
      let rest := tail.map backslash
      forEach (fun component => do
        ensure (plainComponent component = true) "ambiguous Windows path component"
        ensure (reservedComponent component = false) "reserved Windows path component")
        (rest.splitOn '\\')
      if rest = [] then pure [drive, ':', '\\'] else pure (trimEnd (drive :: ':' :: '\\' :: rest))
  | _ => throw "expected an absolute local-drive path without alternate streams"

def samePath (left right : Chars) : Except String Bool := do
  let left ← localPath left
  let right ← localPath right
  pure (eqIgnoreAsciiCase left right)

/-- The first path is spelled as one of the others; they are tried in order. -/
def sameAsOne (path : Chars) : List Chars → Except String Bool
  | [] => pure false
  | other :: others => do
      let same ← samePath path other
      if same then pure true else sameAsOne path others

def maintenancePathUnits : Nat := 4096

/-- The bound is on the canonical spelling, and on the prefix if there is one. -/
def maintenancePath (path : Chars) : Except String Chars := do
  let prefixUnits := if verbatim.isPrefixOf path then 4 else 0
  let path ← localPath path
  ensure (utf16Length path + prefixUnits ≤ maintenancePathUnits)
    "normalized maintenance path exceeds 4096 UTF-16 code units"
  pure path

/-- The paths of service records, which are bounded as they are spelled. -/
def validatePath (value : Chars) : Except String Unit := do
  ensure (utf16Length value ≤ maintenancePathUnits ∧ ∀ c ∈ value, 32 ≤ c.toNat)
    "maintenance path exceeds 4096 UTF-16 units or contains controls"
  match (verbatim.isPrefixOf? value).getD value with
  | drive :: mark :: separator :: tail => do
      ensure (drive.isAlpha = true ∧ mark = ':' ∧ separator = '\\')
        "maintenance requires a normalized absolute local drive path"
      ensure (tail = [] ∨ ∀ component ∈ tail.splitOn '\\', component ≠ [] ∧ component ≠ ['.'] ∧
          component ≠ ['.', '.'] ∧
          ∀ c ∈ component, c ∉ ['<', '>', ':', '\x22', '|', '?', '*', '/'])
        "maintenance path has an unsupported component"
  | _ => throw "maintenance requires a normalized absolute local drive path"

end Locron.Windows
