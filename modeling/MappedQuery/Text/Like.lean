import MappedQuery.Text.Fold

/-!
# The pattern language of `LIKE`

A pattern is a list of pieces: a percent sign stands for any text, an underscore for one
character, and every other character for itself. `Like.fits` decides whether a whole text has
the shape of a pattern; it carries, for every rest of the text, whether the rest of the pattern
matches it, so its work is the product of the two lengths.
-/
namespace MappedQuery.Text.Like

inductive Piece where
  | anyText
  | anyChar
  | literal (c : Char)
deriving DecidableEq, Repr

namespace Piece

def ofChar (c : Char) : Piece :=
  if c = '%' then anyText else if c = '_' then anyChar else literal c

end Piece

def pieces (pattern : String) : List Piece := pattern.toList.map Piece.ofChar

/-- Whether any rest of the text from here on is marked, for every place. -/
def anyLater : List Bool → List Bool
  | [] => []
  | b :: rest =>
    let later := anyLater rest
    (b || later.headD false) :: later

/-- For every place of the text, whether its first character passes and the next place is
marked. -/
def stepOver (passes : Char → Bool) : List Char → List Bool → List Bool
  | c :: cs, _ :: marks => (passes c && marks.headD false) :: stepOver passes cs marks
  | _, _ => [false]

/-- For every rest of the text, the longest first, whether the pieces match it. -/
def rests (same : Char → Char → Bool) : List Piece → List Char → List Bool
  | [], cs => cs.map (fun _ => false) ++ [true]
  | .anyText :: ps, cs => anyLater (rests same ps cs)
  | .anyChar :: ps, cs => stepOver (fun _ => true) cs (rests same ps cs)
  | .literal p :: ps, cs => stepOver (same p) cs (rests same ps cs)

/-- Whether the whole text has the shape of the pattern, letters compared by `same`. -/
def fitsWith (same : Char → Char → Bool) (pattern text : String) : Bool :=
  (rests same (pieces pattern) text.toList).headD false

/-- Whether the whole text has the shape of the pattern. -/
def fits (ignoreCase : Bool) (pattern text : String) : Bool :=
  fitsWith (if ignoreCase then Fold.sameLetter else (· == ·)) pattern text

example : fits false "Linh%" "Linhe" = true := by decide +kernel
example : fits false "Linh%" "linhe" = false := by decide +kernel
example : fits false "a.b%" "axbc" = false := by decide +kernel
example : fits true "linh_i" "LINHAI" = true := by decide +kernel

end MappedQuery.Text.Like
