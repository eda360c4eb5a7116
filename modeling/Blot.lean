import Blot.Support.Conditions
import Blot.Typecheck.UpperBounds
import Blot.Typecheck.Extrusion
import Blot.Typecheck.Settlement
import Blot.Eval.Agreement
import Blot.Relational.Join
import Blot.Suspension.CallResults
import Blot.Suspension.Host
import Blot.Environment.Runs
import Blot.Coverage.Exhaustive
import Blot.Refinement.Intervals
import Blot.Typecheck.Reachability
import Blot.Typecheck.Equality
import Blot.Boundary.Interfaces
import Blot.Ownership.Agree
import Blot.Effects.Observed
import Blot.TypeValues.Congruence
import Blot.Capsule.Accepted
import Blot.QCore.Decides
import Blot.Operators.Flat
import Blot.Layout.Measures
import Blot.Suspension.References
import Blot.TextSearch.Search
import Blot.Typecheck.RecursiveComponents
import Blot.Capsule.Decoder
import Blot.Integers.Canonical
import Blot.Transport.Registry
