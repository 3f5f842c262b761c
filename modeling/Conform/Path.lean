/-!
# Paths

A path is a list of name segments; the empty path stands for the place it is
read from. Its text joins the segments by a slash. Reading drops one slash at
the front, so text and path determine each other up to that slash as long as
no segment holds one.
-/

namespace Conform

/-- The character between two segments in the text of a path. -/
def separator : Char := '/'

/-- The pieces of a text between its separators: one more than separators. -/
def pieces : List Char → List (List Char)
  | [] => [[]]
  | c :: rest =>
    if c = separator then [] :: pieces rest
    else
      match pieces rest with
      | [] => [[c]]
      | piece :: others => (c :: piece) :: others

theorem pieces_ne_nil (cs : List Char) : pieces cs ≠ [] := by
  induction cs with
  | nil => simp [pieces]
  | cons c rest ih =>
    by_cases h : c = separator
    · simp [pieces, h]
    · simp only [pieces, h, if_false]
      split <;> simp

/-- Pieces laid end to end with a separator between neighbours. -/
def joined : List (List Char) → List Char
  | [] => []
  | [piece] => piece
  | piece :: others => piece ++ separator :: joined others

theorem joined_pieces (cs : List Char) : joined (pieces cs) = cs := by
  induction cs with
  | nil => rfl
  | cons c rest ih =>
    have hne := pieces_ne_nil rest
    by_cases h : c = separator
    · subst h
      cases hp : pieces rest with
      | nil => exact absurd hp hne
      | cons piece others =>
        rw [hp] at ih
        simp [pieces, hp, joined, ih]
    · cases hp : pieces rest with
      | nil => exact absurd hp hne
      | cons piece others =>
        rw [hp] at ih
        cases others with
        | nil => simpa [pieces, h, hp, joined] using ih
        | cons next more => simpa [pieces, h, hp, joined] using ih

/-- An immutable list of name segments. -/
structure Path where
  segments : List String
  deriving DecidableEq, Repr, Inhabited

namespace Path

def empty : Path := ⟨[]⟩

/-- Drops one separator at the front, if there is one. -/
def withoutRootMark : List Char → List Char
  | [] => []
  | c :: rest => if c = separator then rest else c :: rest

/-- Reads the text form; every text is the text of some path. -/
def parse (text : String) : Path :=
  match withoutRootMark text.toList with
  | [] => empty
  | c :: rest => ⟨(pieces (c :: rest)).map String.ofList⟩

/-- The segments joined by the separator, without one at the front. -/
def text (path : Path) : String :=
  String.ofList (joined (path.segments.map String.toList))

def length (path : Path) : Nat := path.segments.length

def isEmpty (path : Path) : Bool := path.segments.isEmpty

def first? (path : Path) : Option String := path.segments.head?

def last? (path : Path) : Option String := path.segments.getLast?

def append (path : Path) (name : String) : Path := ⟨path.segments ++ [name]⟩

/-- The path with several segments after its own. -/
def appendAll (path : Path) (names : List String) : Path := ⟨path.segments ++ names⟩

def tail (path : Path) : Path := ⟨path.segments.tail⟩

def parent? (path : Path) : Option Path :=
  if path.segments.isEmpty then none else some ⟨path.segments.dropLast⟩

/-- One longer path for each name. -/
def below (path : Path) (names : List String) : List Path := names.map path.append

def startsWith (path other : Path) : Bool := other.segments.isPrefixOf path.segments

/-- Segment by segment, each by its characters; a shorter path comes before its extensions. -/
def order (path other : Path) : Ordering :=
  List.compareLex (fun a b : String => compare a b) path.segments other.segments

@[simp] theorem append_segments (path : Path) (name : String) :
    (path.append name).segments = path.segments ++ [name] := rfl

@[simp] theorem parent?_append (path : Path) (name : String) :
    (path.append name).parent? = some path := by
  simp [parent?, append]

theorem startsWith_iff (path other : Path) :
    path.startsWith other = true ↔ other.segments <+: path.segments := by
  simp [startsWith]

end Path

end Conform
