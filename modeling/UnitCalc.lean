import UnitCalc.Answer
import UnitCalc.Decimal.Lemmas
import UnitCalc.Elementary.Lemmas
import UnitCalc.Expr.Parse.Outcome
import UnitCalc.Proofs.Composition
import UnitCalc.Proofs.MinusSign
import UnitCalc.Proofs.Parse.Recognition
import UnitCalc.Proofs.Lexeme.Rules
import UnitCalc.Proofs.Lexeme.MaximalMunch
import UnitCalc.Proofs.Lexeme.Respaced
import UnitCalc.Proofs.Parse.Places
import UnitCalc.Proofs.WhiteSpace
import UnitCalc.Proofs.Units
import UnitCalc.Proofs.Bits
import UnitCalc.Proofs.RoundTrip
import UnitCalc.Proofs.Parse.Failure
import UnitCalc.Proofs.Stages
import UnitCalc.Proofs.Parse.Continuation
import UnitCalc.Proofs.Parse.Adjacency
import UnitCalc.Proofs.Written.Tokens
import UnitCalc.Proofs.Written.Reading
import UnitCalc.Proofs.Parse.Scopes
import UnitCalc.Proofs.Scopes
import UnitCalc.Proofs.FlatSum
import UnitCalc.Proofs.Written.Unique
import UnitCalc.Proofs.Ratio
import UnitCalc.Proofs.Lexeme.Arrangement
import UnitCalc.Proofs.Lexeme.Position
import UnitCalc.Proofs.Lexeme.Joined
import UnitCalc.Proofs.Lexeme.Number
import UnitCalc.Proofs.Parse.Progress
import UnitCalc.Proofs.Parse.Course
import UnitCalc.Proofs.Unexpected
import UnitCalc.Proofs.UnknownName
