import Spellwork.Activation.Wire
import Spellwork.Effect.OutlineWire
import Spellwork.Prose.Wire
import Spellwork.Text.Pattern.Meaning
import Spellwork.Upcast.Wire
import Spellwork.Arena.Operations
import Spellwork.Proofs.Forest
import Spellwork.Proofs.Records
import Spellwork.Proofs.Siblings
import Spellwork.Proofs.Valid
import Spellwork.Proofs.Ancestry
import Spellwork.Proofs.Grow
import Spellwork.Proofs.Loading
import Spellwork.Proofs.Edits
import Spellwork.Proofs.WellFormed
import Spellwork.Proofs.Reachable
import Spellwork.Proofs.RoundTrip
import Spellwork.Proofs.Activation
import Spellwork.Proofs.Scaling
import Spellwork.Proofs.JsonText
import Spellwork.Proofs.EffectWire
import Spellwork.Proofs.Drafts
import Spellwork.Proofs.Planting
import Spellwork.Proofs.OutlineText
import Spellwork.Proofs.Rendering
import Spellwork.Proofs.FormulaText
import Spellwork.Proofs.RollSums
import Spellwork.Proofs.ScaledFormulas
import Spellwork.Proofs.RaisedDamage
import Spellwork.Proofs.Leaves
import Spellwork.Proofs.ActionShape
import Spellwork.Proofs.CutFormulas
import Spellwork.Proofs.ActionFormulas
import Spellwork.Proofs.Casting
import Spellwork.Proofs.ScaledBlocks
import Spellwork.Proofs.AddedConditions
import Spellwork.Proofs.PrintedFormulas
import Spellwork.Proofs.ShorthandText
import Spellwork.Proofs.Documents
import Spellwork.Proofs.PlantedDocuments
import Spellwork.Proofs.TakenIds
import Spellwork.Proofs.Repetition
import Spellwork.Proofs.DrawnFaces
import Spellwork.Proofs.PrimaryDice
import Spellwork.Proofs.PlainDamage
import Spellwork.Proofs.AddedTerms
import Spellwork.Proofs.Descendants
import Spellwork.Proofs.Walks
import Spellwork.Proofs.Removal
import Spellwork.Proofs.Insertion
import Spellwork.Proofs.Commutation
import Spellwork.Proofs.Changes
import Spellwork.Proofs.Splicing
import Spellwork.Proofs.Minions
import Spellwork.Proofs.LeastDamage
import Spellwork.Proofs.PatternParts
import Spellwork.Proofs.Searches
import Spellwork.Proofs.FoundConditions
import Spellwork.Proofs.RepeatedConditions
import Spellwork.Proofs.Preferences
import Spellwork.Proofs.FormulaReaders
import Spellwork.Proofs.SaveOrders
import Spellwork.Proofs.SaveClauses
import Spellwork.Proofs.OutcomeNames
import Spellwork.Proofs.LabelSeeds
import Spellwork.Proofs.ConditionSpellings
import Spellwork.Proofs.ShorthandSegments
import Spellwork.Proofs.GuardedReading
import Spellwork.Proofs.GuardedRolls
import Spellwork.Proofs.GuardedScaling
import Spellwork.Proofs.Consistency
