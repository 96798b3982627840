import FreeToken.Lib.TextLines

/-!
# Migrating the Codex configuration

An earlier launcher wrote its profile into the user's own `config.toml`. Its two tables and the
line that selects the profile are taken out of that file, line by line.
-/

namespace FreeToken

def codexProfile : List Char := "freetoken-launch".toList

def hexDigits (n : Nat) : Nat → List Char
  | 0 => []
  | width + 1 => hexDigits (n / 16) width ++ [Nat.digitChar (n % 16)]

/-- A character in a JSON string of ASCII characters. -/
def jsonChar (c : Char) : List Char :=
  if c = '"' then ['\\', '"'] else if c = '\\' then ['\\', '\\']
  else if c = '\n' then ['\\', 'n'] else if c = '\r' then ['\\', 'r']
  else if c = '\t' then ['\\', 't'] else if c = '\x08' then ['\\', 'b']
  else if c = '\x0c' then ['\\', 'f']
  else if 0x20 ≤ c.toNat ∧ c.toNat ≤ 0x7e then [c]
  else if c.toNat < 0x10000 then '\\' :: 'u' :: hexDigits c.toNat 4
  else
    -- a pair of surrogates
    let v := c.toNat - 0x10000
    '\\' :: 'u' :: hexDigits (0xd800 + v / 0x400) 4 ++
      '\\' :: 'u' :: hexDigits (0xdc00 + v % 0x400) 4

/-- `json.dumps(value)`. -/
def tomlString (value : List Char) : List Char := '"' :: value.flatMap jsonChar ++ ['"']

/-- The line begins with a bracket and ends with one. -/
def isBracketed (stripped : List Char) : Bool :=
  stripped.head? = some '[' && stripped.getLast? = some ']'

/-- The lines that `_remove_toml_section` keeps. -/
def sectionKept (header : List Char) : Bool → List (List Char) → List (List Char)
  | _, [] => []
  | skipping, line :: lines =>
      let stripped := pyStrip line
      if stripped = header then sectionKept header true lines
      else
        let skipping := if skipping && isBracketed stripped then false else skipping
        if skipping then sectionKept header skipping lines
        else line :: sectionKept header skipping lines

def removeTomlSection (text header : List Char) : List Char :=
  let result := pyStrip (joinLines (sectionKept header false (splitLines text)))
  if result = [] then [] else result ++ ['\n', '\n']

/-- The line gives the key the expected value, up to a comment. -/
def isKeyLine (key expected stripped : List Char) : Bool :=
  '=' ∈ stripped &&
    let lhs := stripped.takeWhile (· ≠ '=')
    let rhs := (stripped.dropWhile (· ≠ '=')).drop 1
    let rhs := pyStrip (rhs.takeWhile (· ≠ '#'))
    pyStrip lhs = key && rhs = expected

/-- The lines that `_remove_toml_root_string_value` keeps. -/
def rootValueKept (key expected : List Char) : Bool → List (List Char) → List (List Char)
  | _, [] => []
  | inRoot, line :: lines =>
      let stripped := pyStrip line
      let inRoot := if isBracketed stripped then false else inRoot
      if inRoot && isKeyLine key expected stripped then rootValueKept key expected inRoot lines
      else line :: rootValueKept key expected inRoot lines

def removeTomlRootStringValue (text key value : List Char) : List Char :=
  let expected := tomlString value
  let result := pyStrip (joinLines (rootValueKept key expected true (splitLines text)))
  if result = [] then [] else result ++ ['\n']

def profilesHeader : List Char := "[profiles.".toList ++ codexProfile ++ "]".toList

def providersHeader : List Char := "[model_providers.".toList ++ codexProfile ++ "]".toList

def codexMigratedBaseConfigText (existing : List Char) : List Char :=
  let text := removeTomlSection existing profilesHeader
  let text := removeTomlSection text providersHeader
  removeTomlRootStringValue text "profile".toList codexProfile

example : codexMigratedBaseConfigText
    ("model = \"m\"\nprofile = \"freetoken-launch\" # ours\n\n" ++
      "[profiles.freetoken-launch]\na = 1\n[x]\nb = 2").toList =
    "model = \"m\"\n\n[x]\nb = 2\n".toList := by decide +kernel

end FreeToken
