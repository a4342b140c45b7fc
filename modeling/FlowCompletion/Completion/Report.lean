import FlowCompletion.Completion.Error
import FlowCompletion.Text.Lines
import FlowCompletion.Text.Width

namespace FlowCompletion

/-- A place to mark inside the text. It is empty only if the text is. -/
def Span.clamp (length : Nat) (span : Span) : Span :=
  let start := min span.start length
  let stop := max (min span.stop length) start
  if start = stop then ⟨if start = length then start - 1 else start, min (stop + 1) length⟩
  else ⟨start, stop⟩

/-- How many columns a character takes at a place of its line. A tab ends at a place divisible by
four; any other space is a plain one. -/
def drawnColumns (place : Nat) (c : Char) : Nat :=
  if c = '\t' then 4 - place % 4
  else if isSpace c then 1
  else columns c

def drawn (place : Nat) : List Char → List Char
  | [] => []
  | c :: rest =>
    (if isSpace c then List.replicate (drawnColumns place c) ' ' else [c]) ++ drawn (place + 1) rest

/-- A row below a line. For each place up to `length` it has a sign for the first column there and
one for the others; past the end of the line every place has one column. -/
def rowBelow (text : List Char) (length : Nat) (signs : Nat → Char × Char) : List Char :=
  (List.range length).flatMap fun place =>
    let width := text[place]?.elim 1 (drawnColumns place)
    let (first, other) := signs place
    (first :: List.replicate (width - 1) other).take width

def underline (text : List Char) (span : Span) : List Char :=
  rowBelow text (span.stop + 2) fun place =>
    if place = (span.start + span.stop) / 2 then ('┬', '─')
    else if span.start ≤ place ∧ place < span.stop then ('─', '─')
    else (' ', ' ')

def arrow (text : List Char) (span : Span) : List Char :=
  let middle := (span.start + span.stop) / 2
  rowBelow text (span.stop + 2) fun place =>
    if place = middle then ('╰', '─')
    else if middle < place then ('─', '─')
    else (' ', ' ')

namespace AnalysisError

def code : AnalysisError → String
  | tooDeep _ => "A0001"
  | outOfRange .. => "A0002"
  | signature _ => "A0003"

def label : AnalysisError → String
  | tooDeep _ => "evaluation gave up here"
  | outOfRange .. => "source ends here"
  | signature _ => "while analyzing this"

def headline (e : AnalysisError) : String := "[" ++ e.code ++ "] Error: " ++ e.message

def frame (e : AnalysisError) (line : Line) (span : Span) : List String :=
  let number := toString line.number
  let gutter := String.ofList (List.replicate (number.length + 2) ' ')
  let marked : Span := ⟨span.start - line.start, span.stop - line.start⟩
  let text := trimmedEnd line.text
  [gutter ++ "╭─[ <unknown>:" ++ number ++ ":" ++ toString (marked.start + 1) ++ " ]",
    gutter ++ "│"] ++
  (if span.stop ≤ line.stop then
    [" " ++ number ++ " │ " ++ String.ofList (drawn 0 text),
      gutter ++ "│ " ++ String.ofList (underline text marked),
      gutter ++ "│ " ++ String.ofList (arrow text marked) ++ " " ++ e.label]
  else [gutter ++ "│ "]) ++
  [String.ofList (List.replicate (number.length + 2) '─') ++ "╯"]

/-- For an empty text there is only the headline. The span counts bytes and the lines count
characters, so that a span may lie past the end of the text; then there is nothing to frame. -/
def report (source : String) (e : AnalysisError) : String :=
  if source.isEmpty then e.headline
  else
    let span := (e.span?.getD {}).clamp source.utf8ByteSize
    let rows := match lineAt? span.start source.toList, lineAt? (span.stop - 1) source.toList with
      | some line, some _ => e.frame line span
      | _, _ => []
    "\n".intercalate (e.headline :: rows ++ [""])

end AnalysisError

end FlowCompletion
