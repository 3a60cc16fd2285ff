import ArrayMachine.Proofs.Assignment.BySelf
import ArrayMachine.Proofs.Assignment.Extents
import ArrayMachine.Proofs.Assignment.Refusal
import ArrayMachine.Proofs.Assignment.Whole
import ArrayMachine.Proofs.Conversion.Acceptance
import ArrayMachine.Proofs.Conversion.Idempotence
import ArrayMachine.Proofs.Conversion.Modes
import ArrayMachine.Proofs.Conversion.Places
import ArrayMachine.Proofs.Operators.Pointwise
import ArrayMachine.Proofs.Reader.Conservation
import ArrayMachine.Proofs.Reader.Flat
import ArrayMachine.Proofs.Reader.Printed
import ArrayMachine.Proofs.Scope.Destruction
import ArrayMachine.Proofs.Session.Stability
import ArrayMachine.Proofs.Value.Faults
import ArrayMachine.Tuple.Lookup
import ArrayMachine.Proofs.Operators.Equality
import ArrayMachine.Proofs.Operators.Concatenation
import ArrayMachine.Proofs.Operators.Stepping
import ArrayMachine.Proofs.Operators.Product
import ArrayMachine.Proofs.Operators.Associativity
import ArrayMachine.Proofs.Operators.Power
import ArrayMachine.Proofs.Operators.Division
import ArrayMachine.Proofs.Operators.Neutral
import ArrayMachine.Proofs.Interval.Widening
import ArrayMachine.Proofs.Value.Literals
import ArrayMachine.Proofs.Value.Counts
import ArrayMachine.Proofs.Indexing.Reading
import ArrayMachine.Proofs.Indexing.Writing
import ArrayMachine.Proofs.Indexing.Filling
import ArrayMachine.Proofs.Value.Rendering
import ArrayMachine.Proofs.Reader.RealLiterals
import ArrayMachine.Proofs.Conversion.Restriction
import ArrayMachine.Proofs.Reader.IntegerTokens
import ArrayMachine.Proofs.Tuples.Runs
import ArrayMachine.Proofs.Reals.Texts
import ArrayMachine.Proofs.Reader.Bounds
