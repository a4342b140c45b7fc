
namespace FlowCompletion

def isSpace (c : Char) : Bool :=
  (9 ≤ c.toNat && c.toNat ≤ 13) || (0x2000 ≤ c.toNat && c.toNat ≤ 0x200a) ||
    [0x20, 0x85, 0xa0, 0x1680, 0x2028, 0x2029, 0x202f, 0x205f, 0x3000].contains c.toNat

def trimmedEnd (text : List Char) : List Char := (text.reverse.dropWhile isSpace).reverse

def isLineEnd (c : Char) : Bool :=
  [0x0a, 0x0b, 0x0c, 0x0d, 0x85, 0x2028, 0x2029].contains c.toNat

/-- Every line keeps its end. A carriage return and the line feed after it are one end. -/
def splitLines : List Char → List (List Char)
  | [] => []
  | '\r' :: '\n' :: rest => ['\r', '\n'] :: splitLines rest
  | c :: rest =>
    if isLineEnd c then [c] :: splitLines rest
    else match splitLines rest with
      | [] => [[c]]
      | line :: lines => (c :: line) :: lines

structure Line where
  number : Nat
  start : Nat
  text : List Char

namespace Line

def stop (line : Line) : Nat := line.start + line.text.length

/-- The line with the character at a place, among lines the first of which has the number and the
start given. The place after the last character belongs to the last line. -/
def find? (number start place : Nat) : List (List Char) → Option Line
  | [] => none
  | text :: rest =>
    if place < start + text.length ∨ (rest.isEmpty ∧ place = start + text.length) then
      some ⟨number, start, text⟩
    else find? (number + 1) (start + text.length) place rest

end Line

def lineAt? (place : Nat) (text : List Char) : Option Line :=
  Line.find? 1 0 place (splitLines text)

end FlowCompletion
