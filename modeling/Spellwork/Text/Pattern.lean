import Spellwork.Text.Class
import Spellwork.Text.Words

/-!
# Patterns on text

A small language of patterns with alternatives, repetition, captured groups and word edges, and its
meaning: `Pattern.run` lists every way a pattern matches at a place, the preferred way first.
Searching takes the first place where there is any way at all, and there the preferred one
(`Pattern.find`); searching on past each match gives all of them (`Pattern.findAll`).
-/

namespace Spellwork.Text

/-- A stretch of a text, as offsets in characters. -/
structure Span where
  start : Nat
  stop : Nat
deriving DecidableEq, Repr

/-- A pattern. Of two ways to match, `alt` prefers its first branch, and `many` prefers more rounds
when `greedy` and fewer otherwise. -/
inductive Pattern where
  | empty
  | one (accepts : Char → Bool)
  | seq (first second : Pattern)
  | alt (first second : Pattern)
  | many (greedy : Bool) (body : Pattern)
  | group (label : Nat) (body : Pattern)
  /-- The beginning of the text. -/
  | textStart
  /-- The end of a line: the end of the text, or the place before a line feed. -/
  | lineEnd
  /-- The border between a word character and a character outside words. -/
  | wordEdge

/-- A place in a text, with the groups captured on the way to it, the latest first. -/
structure Cursor where
  offset : Nat
  before : Option Char
  rest : List Char
  groups : List (Nat × Span)
deriving DecidableEq, Repr

namespace Cursor

/-- The beginning of a text. -/
def ofText (cs : List Char) : Cursor :=
  ⟨0, none, cs, []⟩

/-- Steps over one character of a class. -/
def step? (accepts : Char → Bool) (c : Cursor) : Option Cursor :=
  match c.rest with
  | [] => none
  | x :: rest => if accepts x then some ⟨c.offset + 1, some x, rest, c.groups⟩ else none

/-- Whether exactly one of the two neighbouring characters belongs to a word. -/
def atWordEdge (c : Cursor) : Bool :=
  c.before.any isWordChar != c.rest.head?.any isWordChar

/-- Whether the line ends here. -/
def atLineEnd (c : Cursor) : Bool :=
  c.rest.isEmpty || c.rest.head? = some '\n'

end Cursor

/-- Up to `fuel` rounds of `step`, the preferred number of rounds first, in front of other ways. -/
def rounds (greedy : Bool) (step : Cursor → List Cursor) :
    (fuel : Nat) → Cursor → (others : List Cursor) → List Cursor
  | 0, c, others => c :: others
  | fuel + 1, c, others =>
    if greedy then (step c).foldr (rounds greedy step fuel) (c :: others)
    else c :: (step c).foldr (rounds greedy step fuel) others

namespace Pattern

/-- Every way to match at a place, the preferred way first. A repeated body takes at least one
character a round, so there are no more rounds than characters left. -/
def run : Pattern → Cursor → List Cursor
  | empty, c => [c]
  | one accepts, c => (c.step? accepts).toList
  | seq first second, c => (first.run c).flatMap second.run
  | alt first second, c => first.run c ++ second.run c
  | many greedy body, c => rounds greedy body.run c.rest.length c []
  | group label body, c =>
    (body.run c).map fun d => { d with groups := (label, ⟨c.offset, d.offset⟩) :: d.groups }
  | textStart, c => if c.offset = 0 then [c] else []
  | lineEnd, c => if c.atLineEnd then [c] else []
  | wordEdge, c => if c.atWordEdge then [c] else []

/-! ## Building patterns -/

/-- The patterns one after the other. -/
def all (ps : List Pattern) : Pattern :=
  ps.foldr seq empty

/-- Any one of the patterns, an earlier one by preference. -/
def any : List Pattern → Pattern
  | [] => one fun _ => false
  | [p] => p
  | p :: ps => alt p (any ps)

/-- The pattern or nothing, the pattern by preference. -/
def opt (p : Pattern) : Pattern :=
  alt p empty

/-- One round or more, as many as possible by preference. -/
def many1 (p : Pattern) : Pattern :=
  seq p (many true p)

/-- One of the given characters. -/
def oneOf (cs : List Char) : Pattern :=
  one fun c => cs.contains c

/-- A character other than the given ones. -/
def noneOf (cs : List Char) : Pattern :=
  one fun c => !cs.contains c

/-- Exactly this character. -/
def char (c : Char) : Pattern :=
  one fun d => d = c

/-- The lower-case letter that a character stands for when case is ignored. Besides the capitals,
the long s and the kelvin sign stand for letters of the alphabet. -/
def foldLetter (c : Char) : Char :=
  if c = 'ſ' then 's' else if c = '\u212a' then 'k' else c.toLower

/-- A letter from a to z in either case. -/
def isLetter (c : Char) : Bool :=
  'a' ≤ foldLetter c && foldLetter c ≤ 'z'

/-- A letter from a to z in either case. -/
def letter : Pattern :=
  one isLetter

/-- A text in lower case, matched in either case. -/
def text (s : String) : Pattern :=
  all (s.toList.map fun c => one fun d => foldLetter d = c)

/-- Any number of blanks. -/
def blanks : Pattern :=
  many true (one isBlank)

/-- At least one blank. -/
def gap : Pattern :=
  many1 (one isBlank)

/-- A decimal digit of any script. -/
def digit : Pattern :=
  one isDecimalDigit

/-! ## Searching -/

/-- A match: what it covers, and what its groups captured. -/
structure Match where
  span : Span
  groups : List (Nat × Span)
deriving DecidableEq, Repr

/-- The captured stretch of a group, if the group took part in the match. -/
def Match.group? (m : Match) (label : Nat) : Option Span :=
  m.groups.lookup label

/-- The preferred match at one place. -/
def matchAt (p : Pattern) (c : Cursor) : Option Match :=
  (p.run c).head?.map fun d => ⟨⟨c.offset, d.offset⟩, d.groups⟩

/-- The matches from an offset on, in order, no two of them overlapping: a place before `resume`
is not tried. -/
def matchesFrom (p : Pattern) (resume offset : Nat) (before : Option Char) : List Char → List Match
  | [] =>
    if offset < resume then [] else (p.matchAt ⟨offset, before, [], []⟩).toList
  | x :: rest =>
    if offset < resume then p.matchesFrom resume (offset + 1) (some x) rest
    else
      match p.matchAt ⟨offset, before, x :: rest, []⟩ with
      | some m => m :: p.matchesFrom (max m.span.stop (offset + 1)) (offset + 1) (some x) rest
      | none => p.matchesFrom resume (offset + 1) (some x) rest

/-- All matches in a text, from left to right. -/
def findAll (p : Pattern) (cs : List Char) : List Match :=
  p.matchesFrom 0 0 none cs

/-- The first match from an offset on. -/
def firstFrom (p : Pattern) (offset : Nat) (before : Option Char) : List Char → Option Match
  | [] => p.matchAt ⟨offset, before, [], []⟩
  | x :: rest =>
    match p.matchAt ⟨offset, before, x :: rest, []⟩ with
    | some m => some m
    | none => p.firstFrom (offset + 1) (some x) rest

/-- The first match in a text. -/
def find (p : Pattern) (cs : List Char) : Option Match :=
  p.firstFrom 0 none cs

/-- Whether the pattern occurs in a text. -/
def occursIn (p : Pattern) (cs : List Char) : Bool :=
  (p.find cs).isSome

/-- The captured text of a group, if the group took part in the match. -/
def Match.text? (m : Match) (label : Nat) (cs : List Char) : Option (List Char) :=
  (m.group? label).map fun s => slice s.start s.stop cs

end Pattern

end Spellwork.Text
