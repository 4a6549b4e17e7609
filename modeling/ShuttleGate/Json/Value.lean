import Mathlib.Data.List.Sort
import Mathlib.Data.String.Basic

/-! # JSON values and their text

The values of the standard library's encoder and decoder and the texts the encoder makes of
them: keys sorted, non-ASCII characters escaped, either on one line or indented. A float is kept
as its lexeme. -/

inductive Json
  | null
  | bool (b : Bool)
  | int (n : Int)
  | float (lexeme : List Char)
  | str (s : String)
  | arr (items : List Json)
  | obj (fields : List (String × Json))

namespace Json

/-- The separators and the indentation of an encoder. -/
inductive Style
  /-- `indent=2` -/
  | indented
  /-- `separators=(",", ":")` -/
  | compact
  /-- The defaults. -/
  | plain
  deriving DecidableEq

namespace Style

def comma : Style → List Char
  | plain => [',', ' ']
  | _ => [',']

def colon : Style → List Char
  | compact => [':']
  | _ => [':', ' ']

/-- What stands before an item at a nesting level. -/
def newline (level : Nat) : Style → List Char
  | indented => '\n' :: List.replicate (2 * level) ' '
  | _ => []

end Style

/-- Four lower-case hexadecimal digits. -/
def hex4 (n : Nat) : List Char :=
  [n / 4096 % 16, n / 256 % 16, n / 16 % 16, n % 16].map Nat.digitChar

/-- One UTF-16 code unit as an escape. -/
def escapeUnit (n : Nat) : List Char := '\\' :: 'u' :: hex4 n

def escapeChar (c : Char) : List Char :=
  if c = '"' then ['\\', '"']
  else if c = '\\' then ['\\', '\\']
  else if c = '\n' then ['\\', 'n']
  else if c = '\r' then ['\\', 'r']
  else if c = '\t' then ['\\', 't']
  else if c = '\x0c' then ['\\', 'f']
  else if c = '\x08' then ['\\', 'b']
  else if 0x20 ≤ c.toNat ∧ c.toNat ≤ 0x7e then [c]
  else if c.toNat < 0x10000 then escapeUnit c.toNat
  else escapeUnit (0xd800 + (c.toNat - 0x10000) / 1024) ++
    escapeUnit (0xdc00 + (c.toNat - 0x10000) % 1024)

/-- The characters escaped with one letter, and the letters. -/
def shortEscapes : List (Char × Char) :=
  [('"', '"'), ('\\', '\\'), ('\n', 'n'), ('\r', 'r'), ('\t', 't'), ('\x0c', 'f'), ('\x08', 'b')]

/-- What holds of each kind of escape holds of every one. -/
theorem escapeChar_rule {c : Char} {P : List Char → Prop}
    (hshort : ∀ e ∈ shortEscapes, c = e.1 → P ['\\', e.2])
    (hplain : c ≠ '"' → c ≠ '\\' → 0x20 ≤ c.toNat ∧ c.toNat ≤ 0x7e → P [c])
    (hunit : c.toNat < 0x10000 → P (escapeUnit c.toNat))
    (hpair : ¬ c.toNat < 0x10000 → P (escapeUnit (0xd800 + (c.toNat - 0x10000) / 1024) ++
      escapeUnit (0xdc00 + (c.toNat - 0x10000) % 1024))) : P (escapeChar c) := by
  unfold escapeChar
  refine iteInduction (hshort ('"', '"') (by decide)) fun hq => ?_
  refine iteInduction (hshort ('\\', '\\') (by decide)) fun hb => ?_
  refine iteInduction (hshort ('\n', 'n') (by decide)) fun _ => ?_
  refine iteInduction (hshort ('\r', 'r') (by decide)) fun _ => ?_
  refine iteInduction (hshort ('\t', 't') (by decide)) fun _ => ?_
  refine iteInduction (hshort ('\x0c', 'f') (by decide)) fun _ => ?_
  refine iteInduction (hshort ('\x08', 'b') (by decide)) fun _ => ?_
  exact iteInduction (hplain hq hb) fun _ => iteInduction hunit hpair

def strChars (s : String) : List Char := '"' :: (s.toList.flatMap escapeChar ++ ['"'])

def intChars : Int → List Char
  | .ofNat n => Nat.toDigits 10 n
  | .negSucc n => '-' :: Nat.toDigits 10 (n + 1)

mutual

/-- The text of a value at a nesting level. -/
def chars (st : Style) (level : Nat) : Json → List Char
  | null => ['n', 'u', 'l', 'l']
  | bool true => ['t', 'r', 'u', 'e']
  | bool false => ['f', 'a', 'l', 's', 'e']
  | int n => intChars n
  | float lexeme => lexeme
  | str s => strChars s
  | arr [] => ['[', ']']
  | arr (item :: items) =>
    '[' :: (st.newline (level + 1) ++ chars st (level + 1) item ++
      itemsChars st (level + 1) items ++ st.newline level ++ [']'])
  | obj [] => ['\x7b', '\x7d']
  | obj ((key, value) :: fields) =>
    '\x7b' :: (st.newline (level + 1) ++ strChars key ++ st.colon ++ chars st (level + 1) value ++
      fieldsChars st (level + 1) fields ++ st.newline level ++ ['\x7d'])

/-- The items after the first. -/
def itemsChars (st : Style) (level : Nat) : List Json → List Char
  | [] => []
  | item :: items =>
    st.comma ++ st.newline level ++ chars st level item ++ itemsChars st level items

/-- The fields after the first. -/
def fieldsChars (st : Style) (level : Nat) : List (String × Json) → List Char
  | [] => []
  | (key, value) :: fields =>
    st.comma ++ st.newline level ++ strChars key ++ st.colon ++ chars st level value ++
      fieldsChars st level fields

end

mutual
/-- `sort_keys=True` -/
def sortKeys : Json → Json
  | arr items => arr (sortItems items)
  | obj fields => obj ((sortFields fields).insertionSort fun a b => a.1 ≤ b.1)
  | v => v

def sortItems : List Json → List Json
  | [] => []
  | item :: items => item.sortKeys :: sortItems items

def sortFields : List (String × Json) → List (String × Json)
  | [] => []
  | (key, value) :: fields => (key, value.sortKeys) :: sortFields fields
end

/-- `json.dumps(value, sort_keys=True)` in a style. -/
def dumps (st : Style) (v : Json) : String := .ofList (v.sortKeys.chars st 0)

end Json
