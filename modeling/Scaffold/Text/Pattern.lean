import Scaffold.Text.Blank
import Scaffold.Text.Bytes

/-! # Patterns

Patterns over bytes or characters. A pattern may match in several ways; they are ordered, a
repetition trying the longest way first, and a search takes the first way at the first place. The
replacement of all matches goes on behind each one.
-/

namespace Scaffold.Text

/-- A pattern over the elements of a text. -/
inductive Pattern (α : Type) where
  | nothing
  /-- One element. -/
  | one (accepts : α → Bool)
  /-- Any number of elements, as many as possible. -/
  | many (accepts : α → Bool)
  /-- Any number of elements, as few as possible. -/
  | few (accepts : α → Bool)
  | seq (first second : Pattern α)
  | alt (first second : Pattern α)
  /-- Any number of times, as often as possible. -/
  | star (body : Pattern α)
  /-- Takes nothing; the element before this place is not accepted. -/
  | notAfter (refuses : α → Bool)
  /-- Takes nothing; the pattern does not match here. -/
  | notBefore (body : Pattern α)

/-- A place in a text: the element in front of it and what follows. -/
structure Spot (α : Type) where
  before : Option α
  rest : List α

namespace Pattern

variable {α : Type}

/-- The ends of a run of accepted elements, the shortest run first. -/
def runEnds (accepts : α → Bool) (before : Option α) : List α → List (Spot α)
  | [] => [⟨before, []⟩]
  | x :: rest =>
    ⟨before, x :: rest⟩ :: (if accepts x then runEnds accepts (some x) rest else [])

/-- Where repetitions of a step may end, the most repetitions first. A step that takes nothing is not
repeated; `fuel` bounds the number of steps. -/
def starEnds (step : Spot α → List (Spot α)) : Nat → Spot α → List (Spot α)
  | 0, spot => [spot]
  | fuel + 1, spot =>
    ((step spot).flatMap fun next =>
      if next.rest.length < spot.rest.length then starEnds step fuel next else []) ++ [spot]

/-- Where a match that begins at a place may end, the preferred end first. -/
def ends : Pattern α → Spot α → List (Spot α)
  | nothing, spot => [spot]
  | one accepts, spot =>
    match spot.rest with
    | x :: rest => if accepts x then [⟨some x, rest⟩] else []
    | [] => []
  | many accepts, spot => (runEnds accepts spot.before spot.rest).reverse
  | few accepts, spot => runEnds accepts spot.before spot.rest
  | seq first second, spot => (first.ends spot).flatMap second.ends
  | alt first second, spot => first.ends spot ++ second.ends spot
  | star body, spot => starEnds body.ends spot.rest.length spot
  | notAfter refuses, spot => if spot.before.any refuses then [] else [spot]
  | notBefore body, spot => if (body.ends spot).isEmpty then [spot] else []

/-- The number of elements that the preferred match at a place takes. -/
def matchLength? (pattern : Pattern α) (before : Option α) (rest : List α) : Option Nat :=
  (pattern.ends ⟨before, rest⟩).head?.map fun spot => rest.length - spot.rest.length

/-- Replaces matches from a place on; `skip` elements still belong to a match, and at most `limit`
matches are replaced. -/
def replaceFrom (pattern : Pattern α) (replacement : List α → List α) :
    Nat → Option α → Nat → List α → List α
  | _, _, _, [] => []
  | limit, _, skip + 1, x :: rest => replaceFrom pattern replacement limit (some x) skip rest
  | 0, _, 0, x :: rest => x :: rest
  | limit + 1, before, 0, x :: rest =>
    match pattern.matchLength? before (x :: rest) with
    | some (length + 1) =>
      replacement ((x :: rest).take (length + 1)) ++
        replaceFrom pattern replacement limit (some x) length rest
    | _ => x :: replaceFrom pattern replacement (limit + 1) (some x) 0 rest

/-- Replaces all matches. -/
def replaceAll (pattern : Pattern α) (replacement : List α → List α) (text : List α) : List α :=
  replaceFrom pattern replacement (text.length + 1) none 0 text

/-- Replaces the first match. -/
def replaceFirst (pattern : Pattern α) (replacement : List α → List α) (text : List α) : List α :=
  replaceFrom pattern replacement 1 none 0 text

/-- Removes all matches. -/
def removeAll (pattern : Pattern α) (text : List α) : List α := pattern.replaceAll (fun _ => []) text

/-- Whether a pattern matches from a place on. -/
def occursFrom (pattern : Pattern α) : Option α → List α → Bool
  | before, [] => (pattern.matchLength? before []).isSome
  | before, x :: rest =>
    (pattern.matchLength? before (x :: rest)).isSome || occursFrom pattern (some x) rest

/-- Whether a pattern matches anywhere in a text. -/
def occurs (pattern : Pattern α) (text : List α) : Bool := pattern.occursFrom none text

/-- Patterns one after the other. -/
def seqs : List (Pattern α) → Pattern α
  | [] => nothing
  | [pattern] => pattern
  | pattern :: later => seq pattern (seqs later)

/-- A given text. -/
def literal [DecidableEq α] (text : List α) : Pattern α := seqs (text.map fun x => one (decide <| x = ·))

def opt (pattern : Pattern α) : Pattern α := alt pattern nothing

/-- At least one element, as many as possible. -/
def some_ (accepts : α → Bool) : Pattern α := seq (one accepts) (many accepts)

end Pattern

end Scaffold.Text
