import SiteFusion.Json.Value

namespace SiteFusion.Json

def quoted (s : Literal) : List Char := '"' :: s.raw ++ ['"']

mutual

def chars : Json → List Char
  | .null => ['n', 'u', 'l', 'l']
  | .bool true => ['t', 'r', 'u', 'e']
  | .bool false => ['f', 'a', 'l', 's', 'e']
  | .number n => n.chars
  | .string s => quoted s
  | .array items _ => '[' :: itemChars items ++ [']']
  | .object members _ => '\x7b' :: memberChars members ++ ['\x7d']
  | .broken _ => []

def itemChars : List Json → List Char
  | [] => []
  | [j] => chars j
  | j :: js => chars j ++ ',' :: itemChars js

def memberChars : List (Literal × Json) → List Char
  | [] => []
  | [(k, j)] => quoted k ++ ':' :: chars j
  | (k, j) :: ms => quoted k ++ ':' :: chars j ++ ',' :: memberChars ms

end

def render (j : Json) : String := String.ofList (chars j)

def indent (depth : Nat) : List Char := '\n' :: List.replicate (2 * depth) ' '

mutual

/-- The characters of a value at a depth, with each item and member on a line of its own. -/
def prettyChars (depth : Nat) : Json → List Char
  | .array [] _ => ['[', ']']
  | .array items _ => '[' :: prettyItems (depth + 1) items ++ indent depth ++ [']']
  | .object [] _ => ['\x7b', '\x7d']
  | .object members _ => '\x7b' :: prettyMembers (depth + 1) members ++ indent depth ++ ['\x7d']
  | j => chars j

def prettyItems (depth : Nat) : List Json → List Char
  | [] => []
  | [j] => indent depth ++ prettyChars depth j
  | j :: js => indent depth ++ prettyChars depth j ++ ',' :: prettyItems depth js

def prettyMembers (depth : Nat) : List (Literal × Json) → List Char
  | [] => []
  | [(k, j)] => indent depth ++ quoted k ++ ':' :: ' ' :: prettyChars depth j
  | (k, j) :: ms =>
    indent depth ++ quoted k ++ ':' :: ' ' :: prettyChars depth j ++ ',' :: prettyMembers depth ms

end

/-- The text of a value, indented by two blanks a level. -/
def renderPretty (j : Json) : String := String.ofList (prettyChars 0 j)

end SiteFusion.Json
