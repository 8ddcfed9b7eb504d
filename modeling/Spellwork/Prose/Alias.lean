import Spellwork.Effect.Basic
import Spellwork.Text.Lowercase
import Spellwork.Text.Words

/-!
# Aliases

Rules text spells the same thing in many ways. These tables fold the spellings of damage types,
conditions and abilities, without regard to case, surrounding punctuation and the width of gaps.
-/

namespace Spellwork.Prose

/-- Other words for damage types. -/
def damageAliases : List (String × DamageType) :=
  [("holy", .radiant), ("divine", .radiant), ("light", .radiant), ("radiance", .radiant),
    ("electric", .lightning), ("electrical", .lightning), ("electricity", .lightning),
    ("shock", .lightning), ("frost", .cold), ("ice", .cold), ("flame", .fire), ("flames", .fire),
    ("burning", .fire), ("toxic", .poison), ("venom", .poison), ("acidic", .acid),
    ("sonic", .thunder), ("mental", .psychic), ("psionic", .psychic), ("shadow", .necrotic),
    ("death", .necrotic), ("arcane", .force), ("blunt", .bludgeoning), ("pierce", .piercing),
    ("slash", .slashing)]

/-- The known conditions. -/
def conditions : List String :=
  ["blinded", "bleeding", "burning", "charmed", "dazed", "deafened", "frightened", "grappled",
    "incapacitated", "invisible", "paralyzed", "petrified", "poisoned", "prone", "restrained",
    "slowed", "stunned", "unconscious", "weakened"]

/-- Other words for known conditions. -/
def conditionAliases : List (String × String) :=
  [("blind", "blinded"), ("bleed", "bleeding"), ("burn", "burning"), ("ignited", "burning"),
    ("charm", "charmed"), ("daze", "dazed"), ("deaf", "deafened"), ("afraid", "frightened"),
    ("fear", "frightened"), ("feared", "frightened"), ("frighten", "frightened"),
    ("grabbed", "grappled"), ("grapple", "grappled"), ("paralysed", "paralyzed"),
    ("paralyze", "paralyzed"), ("petrify", "petrified"), ("poison", "poisoned"),
    ("knocked prone", "prone"), ("restrain", "restrained"), ("slow", "slowed"),
    ("stun", "stunned"), ("asleep", "unconscious"), ("sleeping", "unconscious"),
    ("weak", "weakened"), ("weaken", "weakened")]

/-- The abilities and their abbreviations. Wisdom is will. -/
def abilityAliases : List (String × Ability) :=
  [("str", .strength), ("strength", .strength), ("dex", .dexterity), ("dexterity", .dexterity),
    ("int", .intelligence), ("intelligence", .intelligence), ("wil", .will), ("will", .will),
    ("wis", .will), ("wisdom", .will)]

/-- A phrase without surrounding punctuation, in lower case, its words separated by one space. -/
def normalize (cs : List Char) : List Char :=
  Text.join [' ']
    (Text.words (Text.lowercase (Text.trimBy (fun c => !Text.isAlphanumeric c) (Text.trim cs))))

/-- A phrase as it is looked up. -/
def key (cs : List Char) : String :=
  String.ofList (normalize cs)

/-- The damage type of a word. -/
def damageType? (cs : List Char) : Option DamageType :=
  match DamageType.ofName? (key cs) with
  | some d => some d
  | none => damageAliases.lookup (key cs)

/-- The known condition of a phrase. -/
def condition? (cs : List Char) : Option String :=
  match conditions.find? fun c => c = key cs with
  | some c => some c
  | none => conditionAliases.lookup (key cs)

/-- The condition that a phrase is stored as: a known one, or the phrase itself. -/
def conditionId (cs : List Char) : String :=
  (condition? cs).getD (key cs)

/-- The ability of a word. -/
def ability? (cs : List Char) : Option Ability :=
  abilityAliases.lookup (key cs)

end Spellwork.Prose
