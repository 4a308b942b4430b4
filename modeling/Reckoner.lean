import Reckoner.Main
import Reckoner.Proofs.Grammar.Skipping
import Reckoner.Proofs.Numeral.RoundTrip
import Reckoner.Proofs.Syntax.Truth
import Reckoner.Proofs.Decimal.Canonical
import Reckoner.Proofs.Decimal.Written
import Reckoner.Proofs.Numeral.Histories
import Reckoner.Proofs.Syntax.Results
import Reckoner.Proofs.Placeholder.Replacing
import Reckoner.Proofs.Placeholder.Slots
import Reckoner.Proofs.Placeholder.Operands
import Reckoner.Proofs.Decimal.ReadBack
import Reckoner.Proofs.Decimal.Remainders
import Reckoner.Proofs.Placeholder.NestingLimits
import Reckoner.Proofs.Domain.Inverses
import Reckoner.Proofs.Scales.Calls
import Reckoner.Proofs.Scales.WordFunctions
import Reckoner.Proofs.Rounding.Modes
import Reckoner.Proofs.Rounding.Sums
import Reckoner.Proofs.Rounding.Quotients
import Reckoner.Proofs.Rounding.WholeRoots
import Reckoner.Proofs.Rounding.Mirrors
import Reckoner.Proofs.Rounding.OddRoots
import Reckoner.Proofs.Loops.Passes
import Reckoner.Proofs.Loops.Sizes
import Reckoner.Proofs.Loops.Series
import Reckoner.Proofs.Loops.Ranges
import Reckoner.Proofs.Loops.Reductions
import Reckoner.Proofs.Loops.Circle
import Reckoner.Proofs.Loops.Angles
import Reckoner.Proofs.Loops.ArcTangents
import Reckoner.Proofs.Loops.Exponentials
import Reckoner.Proofs.Loops.GammaCalls
import Reckoner.Proofs.Loops.Termination
import Reckoner.Proofs.Rounding.Precision
import Reckoner.Proofs.Rounding.Projection
import Reckoner.Proofs.Accuracy.RelativeErrors
import Reckoner.Proofs.Accuracy.RepeatedSquaring
import Reckoner.Proofs.Accuracy.WholePowers
import Reckoner.Proofs.Accuracy.Factorials
import Reckoner.Proofs.Accuracy.AngleRanges
import Reckoner.Proofs.Accuracy.Logarithms
import Reckoner.Proofs.Domain.ArcFunctions
import Reckoner.Proofs.Domain.LogarithmSigns
import Reckoner.Proofs.Accuracy.CircleConstant
import Reckoner.Proofs.Accuracy.SmallAngles
import Reckoner.Proofs.Domain.ExponentialRanges
import Reckoner.Proofs.Parity.Angles
import Reckoner.Proofs.Rounding.Rescaling
import Reckoner.Proofs.Domain.InverseCotangents
import Reckoner.Proofs.Decimal.Literals
import Reckoner.Proofs.Numeral.BaseThousand
import Reckoner.Proofs.Numeral.ShortForms
import Reckoner.Proofs.Numeral.OpenCounts
import Reckoner.Proofs.Numeral.Lookups
import Reckoner.Proofs.Syntax.Chains
import Reckoner.Proofs.Rounding.Extremes
import Reckoner.Proofs.Grammar.Causes
import Reckoner.Proofs.Syntax.Splices
import Reckoner.Proofs.Cursor.Histories
import Reckoner.Proofs.Cursor.Mirrors
import Reckoner.Proofs.Cursor.Peeking
import Reckoner.Proofs.Accuracy.PrincipalAngles
