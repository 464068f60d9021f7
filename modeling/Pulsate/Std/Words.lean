import Mathlib.Data.List.Infix
import Pulsate.Std.Str

/-!
# Lines and words (`str::lines`, `str::split_whitespace`)
-/

namespace Pulsate.Str

/-- `str::contains` for a text. -/
def contains (s sub : Str) : Bool := decide (sub <:+: s)

/-- A line without the carriage return before its line break. -/
def stripCr (line : Str) : Str := (line.stripSuffix "\r").getD line

/-- `current` is what has been read of the line so far. -/
def linesFrom (current : Str) : Str → List Str
  | [] => if current = [] then [] else [current]
  | c :: s => if c = '\n' then stripCr current :: linesFrom [] s else linesFrom (current ++ [c]) s

/-- `str::lines`. -/
def lines (s : Str) : List Str := linesFrom [] s

/-- A word that has been read, if there is one. -/
def pushWord (word : Str) : List Str := if word = [] then [] else [word]

/-- `word` is what has been read of the word so far. -/
def wordsFrom (word : Str) : Str → List Str
  | [] => pushWord word
  | c :: s => if isWhitespace c then pushWord word ++ wordsFrom [] s else wordsFrom (word ++ [c]) s

/-- `str::split_whitespace`. -/
def splitWhitespace (s : Str) : List Str := wordsFrom [] s

/-- `str::trim_start_matches` for a text that is not empty. -/
def trimStartTextFuel (pat : Str) : Nat → Str → Str
  | 0, s => s
  | fuel + 1, s =>
    match s.stripPrefix pat with
    | some rest => trimStartTextFuel pat fuel rest
    | none => s

def trimStartText (s pat : Str) : Str := trimStartTextFuel pat s.length s

end Pulsate.Str
